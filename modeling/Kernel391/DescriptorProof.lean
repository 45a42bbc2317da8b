import Kernel391.FileSystemProof
import Kernel391.Lib.Run
import Kernel391.ProcessProof

/-!
# Descriptor tables

The calls test the in-use flag, the range and the table pointer in different places, and a slot
that is free may hold a stale table. What keeps every indirect call safe is `FdInv`: a slot in
use holds the table of its file type.

* `fdInv_step` — every call keeps the invariant.
* `fd_table_partial_map` — in every state the calls of a started process can reach, its table is
  a finite map that `open`, `close`, `read` and `write` use as such.
-/

namespace Kernel391

open Bytes Runs

/-! ## The invariant -/

/-- The operations table of a file type. -/
def tableOf (ftype : UInt8) : OpsPtr :=
  if ftype = 0 then .rtctable else if ftype = 1 then .directorytable else .filetable

/-- A table of open files has no NULL entry. -/
theorem entry_tableOf (t : UInt8) (op : FileOp) :
    (t = 0 ∧ (tableOf t).entry op = some (.rtc op)) ∨
    (t = 1 ∧ (tableOf t).entry op = some (.dir op)) ∨
    (t ≠ 0 ∧ t ≠ 1 ∧ (tableOf t).entry op = some (.fs op)) := by
  unfold tableOf
  by_cases h0 : t = 0
  · exact .inl ⟨h0, by rw [if_pos h0]; rfl⟩
  · by_cases h1 : t = 1
    · exact .inr (.inl ⟨h1, by rw [if_neg h0, if_pos h1]; rfl⟩)
    · exact .inr (.inr ⟨h0, h1, by rw [if_neg h0, if_neg h1]; rfl⟩)

theorem tableOf_ne_null (t : UInt8) : tableOf t ≠ .null := by
  unfold tableOf
  split
  · simp
  · split <;> simp

/-- Standard input and output are in use; every other slot is free, or holds an open file with
the table of its type. -/
structure FdInv (p : Pcb) : Prop where
  stdin : (p.fdArray 0).inUse = inuse ∧ (p.fdArray 0).operationstable = .stdinTable
  stdout : (p.fdArray 1).inUse = inuse ∧ (p.fdArray 1).operationstable = .stdoutTable
  slots : ∀ i, 2 ≤ i → i ≤ 7 → (p.fdArray i).inUse = notinuse ∨
    ((p.fdArray i).inUse = inuse ∧ (p.fdArray i).ftype ≤ 2 ∧
      (p.fdArray i).operationstable = tableOf (p.fdArray i).ftype)

/-- Descriptor `fd` is in use. -/
def Pcb.Open (p : Pcb) (fd : Int) : Prop :=
  0 ≤ fd ∧ fd ≤ 7 ∧ (p.fdArray fd.toNat).inUse = inuse

/-- `fd` is the least free descriptor in 2..7. -/
structure Pcb.LeastFree (p : Pcb) (fd : Nat) : Prop where
  ge : 2 ≤ fd
  le : fd ≤ 7
  free : (p.fdArray fd).inUse = notinuse
  least : ∀ i, 2 ≤ i → i < fd → (p.fdArray i).inUse ≠ notinuse

theorem inuse_ne_notinuse : inuse ≠ notinuse := by decide

@[simp] theorem Pcb.setFd_self (p : Pcb) (fd : Nat) (d : FileDesc) :
    (p.setFd fd d).fdArray fd = d := Function.update_self _ _ _

theorem Pcb.setFd_of_ne {p : Pcb} {fd i : Nat} {d : FileDesc} (h : i ≠ fd) :
    (p.setFd fd d).fdArray i = p.fdArray i := Function.update_of_ne h _ _

section Invariant

variable {p : Pcb} {fd : Nat} {d : FileDesc}

/-- Replacing a slot by a free one, or by an open file. -/
theorem FdInv.setFd (h : FdInv p) (h2 : 2 ≤ fd) (hd : d.inUse = notinuse ∨
    (d.inUse = inuse ∧ d.ftype ≤ 2 ∧ d.operationstable = tableOf d.ftype)) :
    FdInv (p.setFd fd d) where
  stdin := by rw [Pcb.setFd_of_ne (by omega)]; exact h.stdin
  stdout := by rw [Pcb.setFd_of_ne (by omega)]; exact h.stdout
  slots i h₁ h₂ := by
    by_cases hi : i = fd
    · rw [hi, Pcb.setFd_self]
      exact hd
    · rw [Pcb.setFd_of_ne hi]
      exact h.slots i h₁ h₂

/-- Moving the position of a slot. -/
theorem FdInv.setPos (h : FdInv p) (h2 : 2 ≤ fd) (h7 : fd ≤ 7) (pos : Int) :
    FdInv (p.setFd fd { p.fdArray fd with filePos := pos }) :=
  h.setFd h2 (h.slots fd h2 h7)

end Invariant

/-! ## `open` -/

/-- The slot that `open` fills in. -/
def openedFd (d : FileDesc) (fileType inodeNum : UInt32) : FileDesc :=
  { d with
    operationstable := tableOf fileType.toUInt8
    inodeNum := inodeNum
    filePos := 0
    inUse := inuse
    ftype := fileType.toUInt8 }

theorem tableOf_toUInt8 {t : UInt32} (ht : t = 0 ∨ t = 1 ∨ t = 2) (old : OpsPtr) :
    (if t = filetypeDevice then .rtctable
      else if t = filetypeDirectory then .directorytable
      else if t = filetypeGeneral then .filetable
      else old) = tableOf t.toUInt8 := by
  rcases ht with rfl | rfl | rfl <;> rfl

theorem find_free_eq_some {p : Pcb} {fd : Nat} :
    ((List.range' fdstart 6).find? fun i => decide ((p.fdArray i).inUse = notinuse)) = some fd ↔
      p.LeastFree fd := by
  rw [List.find?_range'_eq_some, List.mem_range'_1, decide_eq_true_eq]
  refine ⟨fun ⟨h₁, h₂, h₃⟩ => ⟨h₂.1, ?_, h₁, fun i h2 hi => by simpa using h₃ i h2 hi⟩,
    fun h => ⟨h.free, ⟨h.ge, ?_⟩, fun i h2 hi => by simpa using h.least i h2 hi⟩⟩
  · have := h₂.2
    simp only [fdstart] at this
    omega
  · have := h.le
    simp only [fdstart]
    omega

theorem find_free_eq_none {p : Pcb} :
    ((List.range' fdstart 6).find? fun i => decide ((p.fdArray i).inUse = notinuse)) = none ↔
      ∀ i, 2 ≤ i → i ≤ 7 → (p.fdArray i).inUse ≠ notinuse := by
  rw [List.find?_range'_eq_none]
  simp only [fdstart]
  refine ⟨fun h i h₁ h₂ => by simpa using h i h₁ (by omega),
    fun h i h₁ h₂ => by simpa using h i h₁ (by omega)⟩

section Open

variable {p : Pcb} {fd : Nat} {fileType inodeNum : UInt32}

theorem fdArrayHandleOpen_of_free (ht : fileType = 0 ∨ fileType = 1 ∨ fileType = 2)
    (h : p.LeastFree fd) : fdArrayHandleOpen fileType inodeNum p =
      (↑fd, p.setFd fd (openedFd (p.fdArray fd) fileType inodeNum)) := by
  unfold fdArrayHandleOpen
  rw [if_neg (by rcases ht with h | h | h <;> simp [h]), find_free_eq_some.2 h]
  dsimp only
  rw [tableOf_toUInt8 ht]
  rfl

theorem fdArrayHandleOpen_of_full (h : ∀ i, 2 ≤ i → i ≤ 7 → (p.fdArray i).inUse ≠ notinuse) :
    fdArrayHandleOpen fileType inodeNum p = (-1, p) := by
  unfold fdArrayHandleOpen
  rw [find_free_eq_none.2 h]
  split <;> rfl

theorem fdArrayHandleOpen_of_type (ht : ¬ (fileType = 0 ∨ fileType = 1 ∨ fileType = 2)) :
    fdArrayHandleOpen fileType inodeNum p = (-1, p) :=
  if_pos (by simpa [not_or] using ht)

end Open

theorem rtcWrite_two : rtcWrite (some 2) = .returned 0 := rfl

/-- The `open` function of an open file returns. -/
theorem callOpen_tableOf (ret : Int) (k : Kernel) (t : UInt8) :
    callOpen ret k ((tableOf t).entry .open) = .returned (ret, k) := by
  rcases entry_tableOf t .open with ⟨-, h⟩ | ⟨-, h⟩ | ⟨-, -, h⟩
  · simp only [h, callOpen, rtcWrite_two]
  · simp only [h, callOpen]
  · simp only [h, callOpen]

section SysOpen

variable {im : Image} {curr : Nat} {name : CString} {d : Dentry} {k : Kernel} {fd : Nat}

theorem sysOpen_of_missing (h : (readDentryByName im name d).1 = -1) :
    sysOpen im curr (some name) d k = .returned (-1, k) := by
  unfold sysOpen
  dsimp only
  rw [if_pos h]
  split <;> rfl

theorem sysOpen_of_empty (h : strlen name = 0) :
    sysOpen im curr (some name) d k = .returned (-1, k) := if_pos h

/-- What `open` does once the name is found. -/
theorem sysOpen_of_found (hne : strlen name ≠ 0) (h : (readDentryByName im name d).1 ≠ -1)
    {ret : Int} {p : Pcb} (hr : fdArrayHandleOpen (readDentryByName im name d).2.fileType
      (readDentryByName im name d).2.inodeNum (k.pcbMem curr) = (ret, p)) :
    sysOpen im curr (some name) d k =
      if ret = -1 then .returned (-1, k)
      else callOpen ret (k.setPcb curr p)
        ((p.fdArray ret.toNat).operationstable.entry .open) := by
  simp only [sysOpen, if_neg hne, if_neg h, hr]

theorem sysOpen_of_free (hne : strlen name ≠ 0) (h : (readDentryByName im name d).1 ≠ -1)
    (ht : (readDentryByName im name d).2.fileType = 0 ∨
      (readDentryByName im name d).2.fileType = 1 ∨ (readDentryByName im name d).2.fileType = 2)
    (hfree : (k.pcbMem curr).LeastFree fd) :
    sysOpen im curr (some name) d k = .returned (↑fd, k.setPcb curr ((k.pcbMem curr).setFd fd
      (openedFd ((k.pcbMem curr).fdArray fd) (readDentryByName im name d).2.fileType
        (readDentryByName im name d).2.inodeNum))) := by
  rw [sysOpen_of_found hne h (fdArrayHandleOpen_of_free ht hfree), if_neg (by omega)]
  simp only [Int.toNat_natCast, Pcb.setFd_self, openedFd]
  exact callOpen_tableOf _ _ _

theorem sysOpen_of_full (hfull : ∀ i, 2 ≤ i → i ≤ 7 →
    ((k.pcbMem curr).fdArray i).inUse ≠ notinuse) :
    sysOpen im curr (some name) d k = .returned (-1, k) := by
  by_cases hne : strlen name = 0
  · exact sysOpen_of_empty hne
  · by_cases h : (readDentryByName im name d).1 = -1
    · exact sysOpen_of_missing h
    · rw [sysOpen_of_found hne h (fdArrayHandleOpen_of_full hfull)]
      rfl

end SysOpen

/-- `open` fails and changes nothing, or fills in the least free slot. -/
theorem sysOpen_cases (im : Image) (curr : Nat) (name : Option CString) (d : Dentry)
    (k : Kernel) :
    sysOpen im curr name d k = .returned (-1, k) ∨
    ∃ n fd, name = some n ∧ (k.pcbMem curr).LeastFree fd ∧
      ((readDentryByName im n d).2.fileType = 0 ∨ (readDentryByName im n d).2.fileType = 1 ∨
        (readDentryByName im n d).2.fileType = 2) ∧
      strlen n ≠ 0 ∧ (readDentryByName im n d).1 ≠ -1 ∧
      sysOpen im curr name d k = .returned (↑fd, k.setPcb curr ((k.pcbMem curr).setFd fd
        (openedFd ((k.pcbMem curr).fdArray fd) (readDentryByName im n d).2.fileType
          (readDentryByName im n d).2.inodeNum))) := by
  rcases name with _ | n
  · exact .inl rfl
  · by_cases hne : strlen n = 0
    · exact .inl (sysOpen_of_empty hne)
    by_cases h : (readDentryByName im n d).1 = -1
    · exact .inl (sysOpen_of_missing h)
    by_cases ht : (readDentryByName im n d).2.fileType = 0 ∨
        (readDentryByName im n d).2.fileType = 1 ∨ (readDentryByName im n d).2.fileType = 2
    · cases hfree : (List.range' fdstart 6).find? fun i =>
          decide (((k.pcbMem curr).fdArray i).inUse = notinuse) with
      | none => exact .inl (sysOpen_of_full (find_free_eq_none.1 hfree))
      | some fd =>
        have hfd := find_free_eq_some.1 hfree
        exact .inr ⟨n, fd, rfl, hfd, ht, hne, h, sysOpen_of_free hne h ht hfd⟩
    · left
      rw [sysOpen_of_found hne h (fdArrayHandleOpen_of_type ht)]
      rfl

/-! ## `close` -/

theorem openable_cases (fd : Int) (h : 2 ≤ fd ∧ fd ≤ 7) :
    ∃ n : Nat, fd = n ∧ 2 ≤ n ∧ n ≤ 7 := ⟨fd.toNat, by omega, by omega, by omega⟩

/-- `close` succeeds exactly on the open descriptors from 2 on, and frees only its slot. -/
theorem sysClose_eq {curr : Nat} {k : Kernel} (h : FdInv (k.pcbMem curr)) (fd : Int) :
    (2 ≤ fd → (k.pcbMem curr).Open fd → sysClose curr fd k =
      .returned (0, k.setPcb curr ((k.pcbMem curr).setFd fd.toNat closedFd))) ∧
    (¬ (2 ≤ fd ∧ (k.pcbMem curr).Open fd) → sysClose curr fd k = .returned (-1, k)) := by
  refine ⟨fun h2 ⟨h0, h7, huse⟩ => ?_, fun hn => ?_⟩
  · obtain ⟨n, rfl, hn2, hn7⟩ := openable_cases fd ⟨h2, h7⟩
    rw [Int.toNat_natCast] at huse ⊢
    obtain hfree | ⟨-, ht, htab⟩ := h.slots n hn2 hn7
    · exact absurd (huse.symm.trans hfree) inuse_ne_notinuse
    · unfold sysClose fdArrayHandleClose
      dsimp only
      have hlo : ¬ ((n : Int) < fdstart ∨ (n : Int) > fdend) := by
        simp only [fdstart, fdend]
        omega
      rw [if_neg (by omega), if_neg hlo, Int.toNat_natCast, huse, if_neg inuse_ne_notinuse,
        htab, if_neg (tableOf_ne_null _), if_neg (by omega), if_neg hlo]
      rcases entry_tableOf ((k.pcbMem curr).fdArray n).ftype .close with h | h | h
      · rw [h.2]
      · rw [h.2]
      · rw [h.2.2]
  · unfold sysClose
    dsimp only
    by_cases hlo : fd < 0
    · rw [if_pos hlo]
    rw [if_neg hlo]
    by_cases hr : fd < fdstart ∨ fd > fdend
    · rw [if_pos hr]
    rw [if_neg hr]
    simp only [fdstart, fdend, not_or] at hr
    have hfree : ((k.pcbMem curr).fdArray fd.toNat).inUse = notinuse := by
      obtain ⟨n, rfl, hn2, hn7⟩ := openable_cases fd ⟨by omega, by omega⟩
      rw [Int.toNat_natCast]
      rcases h.slots n hn2 hn7 with h' | h'
      · exact h'
      · exact absurd ⟨by omega, by omega, by omega, h'.1⟩ hn
    rw [if_pos hfree]

/-! ## `read` and `write` -/

section ReadWrite

variable {im : Image} {curr : Nat} {k k' : Kernel} {fd nbytes : Int}

/-- What reading leaves of a table: everything, but perhaps the position of the slot it read. -/
structure Moved (fd : Int) (p p' : Pcb) : Prop where
  eq : p' = p ∨ ∃ pos, 2 ≤ fd ∧ fd ≤ 7 ∧
    p' = p.setFd fd.toNat { p.fdArray fd.toNat with filePos := pos }

theorem FdInv.moved {p p' : Pcb} (h : FdInv p) (hm : Moved fd p p') : FdInv p' := by
  rcases hm.eq with rfl | ⟨pos, h2, h7, rfl⟩
  · exact h
  · exact h.setPos (by omega) (by omega) pos

theorem fsRead_moved (buf : Option Buf) (p : Pcb) (h2 : 2 ≤ fd) (h7 : fd ≤ 7) :
    Moved fd p (fsRead im fd.toNat buf nbytes p).2.2 := by
  unfold fsRead
  split
  · exact ⟨.inl rfl⟩
  split
  · exact ⟨.inl rfl⟩
  dsimp only
  split
  · exact ⟨.inl rfl⟩
  split
  · exact ⟨.inl rfl⟩
  · exact ⟨.inr ⟨_, h2, h7, rfl⟩⟩

theorem dirRead_moved (buf : Buf) (p : Pcb) (h2 : 2 ≤ fd) (h7 : fd ≤ 7) :
    Moved fd p (dirRead im fd.toNat buf nbytes p).2.2 := by
  unfold dirRead
  split
  · exact ⟨.inl rfl⟩
  dsimp only
  split
  · exact ⟨.inl rfl⟩
  · exact ⟨.inr ⟨_, h2, h7, rfl⟩⟩

theorem terminalRead_pcbMem {b b' : Buf} {ret : Int}
    (h : terminalRead b nbytes k = some (ret, b', k')) : k'.pcbMem = k.pcbMem := by
  unfold terminalRead at h
  dsimp only at h
  split at h
  · obtain ⟨-, -, rfl⟩ := Prod.mk.injEq .. ▸ Prod.mk.injEq .. ▸ Option.some.inj h
    rfl
  · cases h

/-- The calls that fail at once. -/
theorem sysRead_of_bad {buf : Option Buf}
    (h : fd = fdStdout ∨
      ¬ (0 ≤ fd ∧ fd ≤ 7 ∧ ((k.pcbMem curr).fdArray fd.toNat).inUse ≠ notinuse)) :
    sysRead im curr fd buf nbytes k = .returned (-1, buf, k) := by
  unfold sysRead
  split
  · rfl
  rename_i hr
  simp only [fdend, not_or] at hr
  rcases buf with _ | b
  · rfl
  · dsimp only
    split
    · rfl
    rw [if_pos]
    rcases h with h | h
    · contradiction
    · by_contra hc
      exact h ⟨by omega, by omega, hc⟩

theorem sysRead_of_null : sysRead im curr fd none nbytes k = .returned (-1, none, k) := by
  unfold sysRead
  split <;> rfl

theorem sysWrite_of_null : sysWrite curr fd none nbytes k = .returned (-1, k) := by
  unfold sysWrite
  split <;> rfl

theorem sysWrite_of_bad {buf : Option Buf}
    (h : fd = 0 ∨ ¬ (0 ≤ fd ∧ fd ≤ 7 ∧ ((k.pcbMem curr).fdArray fd.toNat).inUse ≠ notinuse)) :
    sysWrite curr fd buf nbytes k = .returned (-1, k) := by
  unfold sysWrite
  split
  · rfl
  rename_i hr
  simp only [fdend, not_or] at hr
  rcases buf with _ | b
  · rfl
  · dsimp only
    rw [if_pos]
    by_contra hc
    rcases h with h | h
    · omega
    · exact h ⟨by omega, by omega, hc⟩

/-- A descriptor in use is read through its table. -/
theorem sysRead_of_open (b : Buf) (hfd : fd ≠ fdStdout) (hopen : (k.pcbMem curr).Open fd) :
    sysRead im curr fd (some b) nbytes k = callRead im curr fd b nbytes k
      (((k.pcbMem curr).fdArray fd.toNat).operationstable.entry .read) := by
  obtain ⟨h0, h7, huse⟩ := hopen
  have hr : ¬ (fd < 0 ∨ fd > fdend) := by
    simp only [fdend]
    omega
  unfold sysRead
  dsimp only
  rw [if_neg hr, if_neg hfd, huse, if_neg inuse_ne_notinuse]

theorem sysWrite_of_open (b : Buf) (hfd : fd ≠ 0) (hopen : (k.pcbMem curr).Open fd) :
    sysWrite curr fd (some b) nbytes k = callWrite b nbytes k
      (((k.pcbMem curr).fdArray fd.toNat).operationstable.entry .write) := by
  obtain ⟨h0, h7, huse⟩ := hopen
  have hr : ¬ (fd ≤ 0 ∨ fd > fdend) := by
    simp only [fdend]
    omega
  unfold sysWrite
  dsimp only
  rw [if_neg hr, huse, if_neg inuse_ne_notinuse]

/-- A slot in use is standard input, standard output, or an open file. -/
theorem FdInv.of_open {p : Pcb} (h : FdInv p) (hopen : p.Open fd) :
    (fd = 0 ∧ (p.fdArray fd.toNat).operationstable = .stdinTable) ∨
    (fd = 1 ∧ (p.fdArray fd.toNat).operationstable = .stdoutTable) ∨
    (2 ≤ fd ∧ fd ≤ 7 ∧ (p.fdArray fd.toNat).ftype ≤ 2 ∧
      (p.fdArray fd.toNat).operationstable = tableOf (p.fdArray fd.toNat).ftype) := by
  obtain ⟨h0, h7, huse⟩ := hopen
  obtain ⟨n, rfl⟩ : ∃ n : Nat, fd = n := ⟨fd.toNat, by omega⟩
  rw [Int.toNat_natCast] at huse ⊢
  rcases n with _ | _ | n
  · exact .inl ⟨rfl, h.stdin.2⟩
  · exact .inr (.inl ⟨rfl, h.stdout.2⟩)
  · obtain hfree | ⟨-, ht, htab⟩ := h.slots (n + 1 + 1) (by omega) (by omega)
    · exact absurd (huse.symm.trans hfree) inuse_ne_notinuse
    · exact .inr (.inr ⟨by omega, h7, ht, htab⟩)

/-- Under the invariant a descriptor is open, or the calls fail on it at once. -/
theorem FdInv.open_or {p : Pcb} (h : FdInv p) (fd : Int) :
    p.Open fd ∨ ¬ (0 ≤ fd ∧ fd ≤ 7 ∧ (p.fdArray fd.toNat).inUse ≠ notinuse) := by
  by_cases hr : 0 ≤ fd ∧ fd ≤ 7
  · by_cases hu : (p.fdArray fd.toNat).inUse = notinuse
    · exact .inr fun hc => hc.2.2 hu
    · refine .inl ⟨hr.1, hr.2, ?_⟩
      obtain ⟨n, rfl⟩ : ∃ n : Nat, fd = n := ⟨fd.toNat, by omega⟩
      rw [Int.toNat_natCast] at hu ⊢
      rcases n with _ | _ | n
      · exact h.stdin.1
      · exact h.stdout.1
      · exact ((h.slots (n + 1 + 1) (by omega) (by omega)).resolve_left hu).1
  · exact .inr fun hc => hr ⟨hc.1, hc.2.1⟩

/-- No bad call, and `P` of what is returned. -/
def Outcome.Meets {α : Type} (P : α → Prop) : Outcome α → Prop
  | .returned a => P a
  | .blocked => True
  | .badCall => False

theorem Outcome.Meets.ne_badCall {α : Type} {P : α → Prop} {r : Outcome α} (h : r.Meets P) :
    r ≠ .badCall := by
  rintro rfl
  exact h

theorem Outcome.Meets.of_eq {α : Type} {P : α → Prop} {r : Outcome α} {a : α} (h : r.Meets P)
    (hr : r = .returned a) : P a := by
  subst hr
  exact h

/-- `read` never goes through a bad pointer, and moves at most the position it read at. -/
theorem sysRead_ok (h : FdInv (k.pcbMem curr)) (buf : Option Buf) :
    (sysRead im curr fd buf nbytes k).Meets
      fun r => Moved fd (k.pcbMem curr) (r.2.2.pcbMem curr) := by
  have hstays : Moved fd (k.pcbMem curr) (k.pcbMem curr) := ⟨.inl rfl⟩
  by_cases hfd : fd = fdStdout
  · rw [sysRead_of_bad (.inl hfd)]
    exact hstays
  rcases h.open_or fd with hopen | hbad
  · rcases buf with _ | b
    · rw [sysRead_of_null]
      exact hstays
    rw [sysRead_of_open b hfd hopen]
    rcases h.of_open hopen with ⟨-, htab⟩ | ⟨h1, -⟩ | ⟨h2, h7, ht, htab⟩
    · rw [htab]
      simp only [OpsPtr.entry, callRead]
      cases hr : terminalRead b nbytes k with
      | none => trivial
      | some r => exact ⟨.inl (congrFun (terminalRead_pcbMem hr) curr)⟩
    · exact absurd h1 hfd
    · rw [htab]
      rcases entry_tableOf ((k.pcbMem curr).fdArray fd.toNat).ftype .read with
        ⟨-, he⟩ | ⟨-, he⟩ | ⟨-, -, he⟩ <;> rw [he]
      · exact hstays
      · rw [callRead, Outcome.Meets, Kernel.setPcb_self]
        exact dirRead_moved b _ h2 h7
      · rw [callRead, Outcome.Meets, Kernel.setPcb_self]
        exact fsRead_moved (some b) _ h2 h7
  · rw [sysRead_of_bad (.inr hbad)]
    exact hstays

theorem rtcWrite_meets (w : UInt32) : (rtcWrite (some w)).Meets fun _ => True := by
  unfold rtcWrite
  dsimp only
  split
  · trivial
  · split <;> trivial

/-- `write` never goes through a bad pointer, and leaves the table alone. -/
theorem sysWrite_ok (h : FdInv (k.pcbMem curr)) (buf : Option Buf) :
    (sysWrite curr fd buf nbytes k).Meets fun r => r.2.pcbMem = k.pcbMem := by
  by_cases hfd : fd = 0
  · rw [sysWrite_of_bad (.inl hfd)]
    rfl
  rcases h.open_or fd with hopen | hbad
  · rcases buf with _ | b
    · rw [sysWrite_of_null]
      rfl
    rw [sysWrite_of_open b hfd hopen]
    rcases h.of_open hopen with ⟨h0, -⟩ | ⟨-, htab⟩ | ⟨h2, h7, ht, htab⟩
    · exact absurd h0 hfd
    · rw [htab]
      exact (SameButScreen.putsModified _ k).pcbMem_eq
    · rw [htab]
      rcases entry_tableOf ((k.pcbMem curr).fdArray fd.toNat).ftype .write with
        ⟨-, he⟩ | ⟨-, he⟩ | ⟨-, -, he⟩ <;> rw [he]
      · rw [callWrite]
        cases hr : rtcWrite (some (loadWord b)) with
        | returned ret => rfl
        | blocked => trivial
        | badCall => exact absurd hr (rtcWrite_meets _).ne_badCall
      · rfl
      · rfl
  · rw [sysWrite_of_bad (.inr hbad)]
    rfl

end ReadWrite

/-! ## Runs of a process -/

/-- A call of the process, or anything else that happens meanwhile. -/
inductive FileCall
  | open (filename : Option CString) (dirEntry : Dentry)
  | close (fd : Int)
  | read (fd : Int) (buf : Option Buf) (nbytes : Int)
  | write (fd : Int) (buf : Option Buf) (nbytes : Int)
  | other

/-- The process whose PCB is at `curr`. The output of a call is its value and its buffer; whatever
happens between its calls leaves its PCB alone. -/
def fileSystem (im : Image) (curr : Nat) : System Kernel FileCall (Int × Option Buf)
  | k, .open name d, o, k' => sysOpen im curr name d k = .returned (o.1, k')
  | k, .close fd, o, k' => sysClose curr fd k = .returned (o.1, k')
  | k, .read fd buf nbytes, o, k' => sysRead im curr fd buf nbytes k = .returned (o.1, o.2, k')
  | k, .write fd buf nbytes, o, k' => sysWrite curr fd buf nbytes k = .returned (o.1, k')
  | k, .other, _, k' => k'.pcbMem curr = k.pcbMem curr

section Runs

variable {im : Image} {curr : Nat} {k k' : Kernel} {e : FileCall} {o : Int × Option Buf}

/-- What a step that opens does. -/
theorem open_step {name : Option CString} {d : Dentry}
    (hs : fileSystem im curr k (.open name d) o k') :
    (o.1 = -1 ∧ k' = k) ∨
    ∃ n fd, (k.pcbMem curr).LeastFree fd ∧
      ((readDentryByName im n d).2.fileType = 0 ∨ (readDentryByName im n d).2.fileType = 1 ∨
        (readDentryByName im n d).2.fileType = 2) ∧
      strlen n ≠ 0 ∧ (readDentryByName im n d).1 ≠ -1 ∧ o.1 = fd ∧
      k'.pcbMem curr = (k.pcbMem curr).setFd fd (openedFd ((k.pcbMem curr).fdArray fd)
        (readDentryByName im n d).2.fileType (readDentryByName im n d).2.inodeNum) := by
  change sysOpen im curr name d k = .returned (o.1, k') at hs
  rcases sysOpen_cases im curr name d k with heq | ⟨n, fd, -, hfree, ht, hne, hfound, heq⟩
  · rw [heq] at hs
    injection hs with hs
    exact .inl ⟨(Prod.mk.inj hs).1.symm, (Prod.mk.inj hs).2.symm⟩
  · rw [heq] at hs
    injection hs with hs
    refine .inr ⟨n, fd, hfree, ht, hne, hfound, (Prod.mk.inj hs).1.symm, ?_⟩
    rw [← (Prod.mk.inj hs).2, Kernel.setPcb_self]

/-- What a step that closes does. -/
theorem close_step (h : FdInv (k.pcbMem curr)) {fd : Int}
    (hs : fileSystem im curr k (.close fd) o k') :
    (o.1 = -1 ∧ k' = k) ∨
    (2 ≤ fd ∧ fd ≤ 7 ∧ o.1 = 0 ∧
      k'.pcbMem curr = (k.pcbMem curr).setFd fd.toNat closedFd) := by
  change sysClose curr fd k = .returned (o.1, k') at hs
  by_cases hopen : 2 ≤ fd ∧ (k.pcbMem curr).Open fd
  · rw [(sysClose_eq h fd).1 hopen.1 hopen.2] at hs
    injection hs with hs
    refine .inr ⟨hopen.1, hopen.2.2.1, (Prod.mk.inj hs).1.symm, ?_⟩
    rw [← (Prod.mk.inj hs).2, Kernel.setPcb_self]
  · rw [(sysClose_eq h fd).2 hopen] at hs
    injection hs with hs
    exact .inl ⟨(Prod.mk.inj hs).1.symm, (Prod.mk.inj hs).2.symm⟩

theorem toUInt8_le {t : UInt32} (ht : t = 0 ∨ t = 1 ∨ t = 2) : t.toUInt8 ≤ 2 := by
  rcases ht with rfl | rfl | rfl <;> decide

/-- Every step keeps the invariant. -/
theorem fdInv_step (h : FdInv (k.pcbMem curr)) (hs : fileSystem im curr k e o k') :
    FdInv (k'.pcbMem curr) := by
  cases e with
  | «open» name d =>
    rcases open_step hs with ⟨-, rfl⟩ | ⟨n, fd, hfree, ht, -, -, -, heq⟩
    · exact h
    · rw [heq]
      exact h.setFd hfree.ge (.inr ⟨rfl, toUInt8_le ht, rfl⟩)
  | close fd =>
    rcases close_step h hs with ⟨-, rfl⟩ | ⟨h2, -, -, heq⟩
    · exact h
    · rw [heq]
      exact h.setFd (by omega) (.inl rfl)
  | read fd buf nbytes => exact h.moved ((sysRead_ok h buf).of_eq hs)
  | write fd buf nbytes =>
    rw [(sysWrite_ok h buf).of_eq hs]
    exact h
  | other =>
    rw [show k'.pcbMem curr = k.pcbMem curr from hs]
    exact h

end Runs

/-! ## The table as a partial map -/

/-- `execute` sets up a table with standard input and output, and all other slots free. -/
theorem fdInv_started (pid sp : Nat) (prog : Program) (old : Pcb) :
    FdInv (startedPcb pid sp prog old) ∧
      ∀ i, 2 ≤ i → i ≤ 7 → ((startedPcb pid sp prog old).fdArray i).inUse = notinuse := by
  have hfd (i : Nat) (h2 : 2 ≤ i) (h7 : i ≤ 7) :
      ((startedPcb pid sp prog old).fdArray i).inUse = notinuse := by
    simp only [startedPcb, newPcb, setUpFdsandargs]
    rw [if_pos ⟨h2, by simp only [entriesInFdArray]; omega⟩]
  refine ⟨⟨?_, ?_, fun i h2 h7 => .inl (hfd i h2 h7)⟩, hfd⟩
  · simp [startedPcb, newPcb, setUpFdsandargs, setUpStdout, setUpStdin, Pcb.setFd, fdstart]
  · simp [startedPcb, newPcb, setUpFdsandargs, setUpStdout, Pcb.setFd, fdstart]

theorem pcbMem_started {im : Image} {sp pid : Nat} {cmd : Option CString} {eip : UInt32}
    {k k' : Kernel} (h : execute im sp cmd k = .started pid eip k') :
    ∃ prog, k'.pcbMem (pcbAddr pid) = startedPcb pid sp prog (k.pcbMem (pcbAddr pid)) := by
  obtain ⟨prog, hp⟩ := (started_of_execute h).pcb
  exact ⟨prog, by rw [hp, Function.update_self]⟩

/-- The calls use the descriptor table of the process at `curr` as a partial map. -/
structure FdMap (im : Image) (curr : Nat) (k : Kernel) : Prop where
  /-- Standard input and output stay. -/
  std : ((k.pcbMem curr).fdArray 0).inUse = inuse ∧
    ((k.pcbMem curr).fdArray 0).operationstable = .stdinTable ∧
    ((k.pcbMem curr).fdArray 1).inUse = inuse ∧
    ((k.pcbMem curr).fdArray 1).operationstable = .stdoutTable
  /-- Opening an existing entry fills in the least free slot, and no other. -/
  open_existing : ∀ (name : CString) d, ∀ i < im.dirEntries.toNat,
    im.entryName i = name.bytes → (im.entryType i).toNat ≤ 2 →
    ∀ fd, (k.pcbMem curr).LeastFree fd → sysOpen im curr (some name) d k =
      .returned (↑fd, k.setPcb curr ((k.pcbMem curr).setFd fd
        (openedFd ((k.pcbMem curr).fdArray fd) (im.entryType i) (im.entryInode i))))
  /-- A missing name, or six open files: nothing happens. -/
  open_missing : ∀ (name : CString) d,
    (∀ i < im.dirEntries.toNat, im.entryName i ≠ name.bytes) →
    sysOpen im curr (some name) d k = .returned (-1, k)
  open_full : ∀ name d, (∀ i, 2 ≤ i → i ≤ 7 → ((k.pcbMem curr).fdArray i).inUse = inuse) →
    sysOpen im curr name d k = .returned (-1, k)
  /-- Closing an open descriptor from 2 on frees its slot; anything else does nothing. -/
  close_open : ∀ fd, 2 ≤ fd → (k.pcbMem curr).Open fd → sysClose curr fd k =
    .returned (0, k.setPcb curr ((k.pcbMem curr).setFd fd.toNat closedFd))
  close_bad : ∀ fd, ¬ (2 ≤ fd ∧ (k.pcbMem curr).Open fd) →
    sysClose curr fd k = .returned (-1, k)
  /-- Reads and writes that must fail change nothing. -/
  read_bad : ∀ fd buf nbytes, fd = 1 ∨ ¬ (k.pcbMem curr).Open fd →
    sysRead im curr fd buf nbytes k = .returned (-1, buf, k)
  write_bad : ∀ fd buf nbytes, fd = 0 ∨ ¬ (k.pcbMem curr).Open fd →
    sysWrite curr fd buf nbytes k = .returned (-1, k)
  /-- No call goes through a NULL table or a NULL entry. -/
  no_bad_call : (∀ name d, sysOpen im curr name d k ≠ .badCall) ∧
    (∀ fd, sysClose curr fd k ≠ .badCall) ∧
    (∀ fd buf nbytes, sysRead im curr fd buf nbytes k ≠ .badCall) ∧
    ∀ fd buf nbytes, sysWrite curr fd buf nbytes k ≠ .badCall

theorem fileType_cases {t : UInt32} (h : t.toNat ≤ 2) : t = 0 ∨ t = 1 ∨ t = 2 := by
  have h' : t.toNat = 0 ∨ t.toNat = 1 ∨ t.toNat = 2 := by omega
  exact h'.imp (fun h => UInt32.toNat_inj.1 h) (Or.imp (fun h => UInt32.toNat_inj.1 h)
    fun h => UInt32.toNat_inj.1 h)

theorem fdMap_of_inv {im : Image} {curr : Nat} {k : Kernel} (him : im.DirOk)
    (h : FdInv (k.pcbMem curr)) : FdMap im curr k := by
  have hlen (name : CString) (i : Nat) (hi : i < im.dirEntries.toNat)
      (hn : im.entryName i = name.bytes) : strlen name ≠ 0 := fun hz =>
    him.nonempty i hi (hn.trans (List.eq_nil_of_length_eq_zero hz))
  have hnotopen (fd : Int) (hn : ¬ (k.pcbMem curr).Open fd) :
      ¬ (0 ≤ fd ∧ fd ≤ 7 ∧ ((k.pcbMem curr).fdArray fd.toNat).inUse ≠ notinuse) :=
    (h.open_or fd).resolve_left hn
  refine ⟨⟨h.stdin.1, h.stdin.2, h.stdout.1, h.stdout.2⟩, fun name d i hi hn ht fd hfree => ?_,
    fun name d hmiss => ?_, fun name d hfull => ?_, fun fd => (sysClose_eq h fd).1,
    fun fd => (sysClose_eq h fd).2, fun fd buf nbytes hb => ?_, fun fd buf nbytes hb => ?_, ?_⟩
  · have hne := hlen name i hi hn
    obtain ⟨h0, hino, htyp⟩ := (readDentryByName_spec him hne d).1 i hi hn
    rw [← htyp ht, ← hino]
    refine sysOpen_of_free hne (by rw [h0]; decide) ?_ hfree
    rw [htyp ht]
    exact fileType_cases ht
  · by_cases hne : strlen name = 0
    · exact sysOpen_of_empty hne
    · exact sysOpen_of_missing (by rw [(readDentryByName_spec him hne d).2 hmiss])
  · rcases name with _ | name
    · rfl
    · exact sysOpen_of_full fun i h₁ h₂ => by rw [hfull i h₁ h₂]; exact inuse_ne_notinuse
  · exact sysRead_of_bad (hb.imp id (hnotopen fd))
  · exact sysWrite_of_bad (hb.imp id (hnotopen fd))
  · refine ⟨fun name d => ?_, fun fd => ?_, fun fd buf n => (sysRead_ok h buf).ne_badCall,
      fun fd buf n => (sysWrite_ok h buf).ne_badCall⟩
    · rcases sysOpen_cases im curr name d k with heq | ⟨_, _, _, _, _, _, _, heq⟩ <;>
        simp [heq]
    · by_cases hopen : 2 ≤ fd ∧ (k.pcbMem curr).Open fd
      · simp [(sysClose_eq h fd).1 hopen.1 hopen.2]
      · simp [(sysClose_eq h fd).2 hopen]

/-- **The descriptor table is a partial map.** On a well-formed directory, after any sequence of
calls by a process that `execute` started. -/
theorem fd_table_partial_map {im : Image} {sp pid : Nat} {cmd : Option CString} {eip : UInt32}
    {k₀ k₁ k : Kernel} {tr : List (FileCall × (Int × Option Buf))} (him : im.DirOk)
    (hstart : execute im sp cmd k₀ = .started pid eip k₁)
    (hrun : Run (fileSystem im (pcbAddr pid)) k₁ tr k) : FdMap im (pcbAddr pid) k := by
  obtain ⟨prog, hpcb⟩ := pcbMem_started hstart
  refine fdMap_of_inv him (hrun.invariant (I := fun k => FdInv (k.pcbMem (pcbAddr pid))) ?_
    fun _ _ _ _ h hs => fdInv_step h hs)
  rw [hpcb]
  exact (fdInv_started _ _ _ _).1

/-- Behind the entries it lists, such a directory is empty. -/
theorem sparseImage_unused {l : List (Nat × UInt8)} {n : Nat}
    (hcount : (sparseImage l).dirEntries.toNat = n)
    (h : ∀ x ∈ l, x.1 < 64 + 64 * n ∨ 4096 ≤ x.1) (i : Nat)
    (h₁ : (sparseImage l).dirEntries.toNat ≤ i) (h₂ : i < 63) (b : Nat) (hb : b < 64) :
    (sparseImage l).byte (Image.entryAddr i + b) = 0 := by
  have haddr : Image.entryAddr i = 64 + 64 * i := rfl
  refine sparseImage_byte (by omega) fun x hx => ?_
  rcases h x hx with hx | hx <;> omega

theorem dirOk_shellImage : shellImage.DirOk where
  count_pos := by decide +kernel
  count_le := by decide +kernel
  dot := by decide +kernel
  nonempty := by decide +kernel
  distinct := by decide +kernel
  inode_lt := by decide +kernel
  unused := sparseImage_unused (show shellImage.dirEntries.toNat = 2 by decide +kernel) (by decide)

/-- The first shell opens its own file. -/
theorem shell_opens_shell : ∃ eip k₁,
    execute shellImage 0x7FFF00 (some shell) (bootState default) = .started 1 eip k₁ ∧
    fileSystem shellImage (pcbAddr 1) k₁ (.open (some shell) default) (2, none)
      (k₁.setPcb (pcbAddr 1) ((k₁.pcbMem (pcbAddr 1)).setFd 2
        (openedFd ((k₁.pcbMem (pcbAddr 1)).fdArray 2) 2 1))) := by
  obtain ⟨prog, k₁, -, hstart, -⟩ := execute_shell 0x7FFF00 hasShell_shellImage
    (show freeSlot (bootState default) = some 1 by decide)
  obtain ⟨p, hpcb⟩ := pcbMem_started hstart
  obtain ⟨hinv, hunused⟩ := fdInv_started 1 0x7FFF00 p ((bootState default).pcbMem (pcbAddr 1))
  rw [← hpcb] at hinv hunused
  have hfree : (k₁.pcbMem (pcbAddr 1)).LeastFree 2 :=
    ⟨by omega, by omega, hunused 2 (by omega) (by omega), fun i h₁ h₂ => by omega⟩
  have htyp : shellImage.entryType 1 = 2 := by decide +kernel
  have hino : shellImage.entryInode 1 = 1 := by decide +kernel
  have hopen := (fdMap_of_inv dirOk_shellImage hinv).open_existing shell default 1
    (by decide +kernel) (by decide +kernel) (by rw [htyp]; decide) 2 hfree
  rw [htyp, hino] at hopen
  exact ⟨_, k₁, hstart, hopen⟩

theorem fd_table_partial_map_shell : ∃ eip k₁ k₂,
    execute shellImage 0x7FFF00 (some shell) (bootState default) = .started 1 eip k₁ ∧
    fileSystem shellImage (pcbAddr 1) k₁ (.open (some shell) default) (2, none) k₂ ∧
    FdMap shellImage (pcbAddr 1) k₂ := by
  obtain ⟨eip, k₁, hstart, hopen⟩ := shell_opens_shell
  exact ⟨eip, k₁, _, hstart, hopen,
    fd_table_partial_map dirOk_shellImage hstart (Run.single hopen)⟩

end Kernel391

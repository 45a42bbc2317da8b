import Kernel391.UserViewProof
import Mathlib.Data.List.Find

/-!
# The calls of a program

Each call of the running process is the step of `alone` on what the process has. `Tidy` is what the
kernel keeps, beside `FdInv`, of the descriptors and the arguments of a process.

* `alone_performs` — every action of a program.
-/

namespace Kernel391

open Bytes Runs CallStacks

/-- Positions are in their files, and the arguments end with a NUL. -/
structure Tidy (im : Image) (p : Pcb) : Prop where
  pos : ∀ i, 2 ≤ i → i ≤ 7 → (p.fdArray i).inUse = inuse → 0 ≤ (p.fdArray i).filePos ∧
    ((p.fdArray i).ftype = 1 → (p.fdArray i).filePos ≤ im.dirEntries.toNat) ∧
    ((p.fdArray i).ftype = 2 → im.GoodFile (p.fdArray i).inodeNum ∧
      (p.fdArray i).filePos ≤ fileSize im (p.fdArray i).inodeNum)
  args : ∃ i < pcbMaxArgs, p.argArr i = 0

/-- No finished line is longer than 127. -/
def LinesOk (k : Kernel) : Prop := ∀ t, k.numberofchars t ≤ 127

section Files

variable {im : Image} {p p' : Pcb} {d : FileDesc} {fd : Nat} {l : List UInt8} {f : OpenFile}

/-- Changing one descriptor. -/
theorem Tidy.setFd (h : Tidy im p) (hd : d.inUse = inuse → 0 ≤ d.filePos ∧
    (d.ftype = 1 → d.filePos ≤ im.dirEntries.toNat) ∧
    (d.ftype = 2 → im.GoodFile d.inodeNum ∧ d.filePos ≤ fileSize im d.inodeNum)) :
    Tidy im (p.setFd fd d) where
  pos i h2 h7 hi := by
    by_cases hfd : i = fd
    · subst hfd
      rw [Pcb.setFd_self] at hi ⊢
      exact hd hi
    · rw [Pcb.setFd_of_ne hfd] at hi ⊢
      exact h.pos i h2 h7 hi
  args := h.args

theorem opened_eq_none : im.opened l = none ↔ ∀ i < im.dirEntries.toNat, im.entryName i ≠ l := by
  simp [Image.opened]

theorem opened_eq_some (h : im.opened l = some f) : ∃ i < im.dirEntries.toNat,
    im.entryName i = l ∧ f = if im.entryType i = 0 then .rtc
      else if im.entryType i = 1 then .dir 0 else .file (im.entryInode i) 0 := by
  obtain ⟨i, hi, rfl⟩ := Option.map_eq_some_iff.1 h
  have hmem := List.mem_of_find?_eq_some hi
  have hname := List.find?_some hi
  exact ⟨i, List.mem_range.1 hmem, by simpa using hname, rfl⟩

theorem contents_slice (im : Image) (inode : UInt32) (pos n : Nat) :
    ((im.contents inode).drop pos).take n =
      slice (fileByte im inode) pos (min n (fileSize im inode - pos)) := by
  rw [Image.contents, slice_drop, slice_take, Nat.zero_add]

end Files

/-! ## Descriptors -/

section View

variable {im : Image} {p q : Nat} {k k' : Kernel} {fd : Int} {d : FileDesc}

theorem view_file (q : Nat) (k : Kernel) (fd : Int) : (view q k).file fd =
    if 2 ≤ fd ∧ fd ≤ 7 then ((k.pcbMem (pcbAddr q)).fdArray fd.toNat).openFile else none := by
  unfold UserView.file
  by_cases h : 2 ≤ fd ∧ fd ≤ 7
  · have h' : 2 ≤ fd.toNat ∧ fd.toNat ≤ 7 := by omega
    simp only [if_pos h, view, if_pos h']
  · simp only [if_neg h]

theorem openFile_eq_none : d.openFile = none ↔ d.inUse = notinuse := by
  unfold FileDesc.openFile
  split_ifs <;> simp [*]

/-- A descriptor from 2 on is open if it is open in the table. -/
theorem file_isSome (h : FdInv (k.pcbMem (pcbAddr q))) :
    ((view q k).file fd).isSome ↔ 2 ≤ fd ∧ (k.pcbMem (pcbAddr q)).Open fd := by
  rw [Option.isSome_iff_ne_none, view_file, Pcb.Open]
  by_cases hfd : 2 ≤ fd ∧ fd ≤ 7
  · rw [if_pos hfd, Ne, openFile_eq_none]
    rcases h.slots fd.toNat (by omega) (by omega) with hfree | ⟨hopen, -⟩
    · rw [hfree]
      exact iff_of_false (not_not_intro rfl) fun hc => inuse_ne_notinuse hc.2.2.2.symm
    · rw [hopen]
      exact iff_of_true inuse_ne_notinuse ⟨hfd.1, by omega, hfd.2, rfl⟩
  · rw [if_neg hfd]
    exact iff_of_false (fun hc => hc rfl) fun hc => hfd ⟨hc.1, hc.2.2.1⟩

/-- What the program sees of a changed descriptor. -/
theorem view_setFd (q : Nat) (k : Kernel) {fd : Nat} (h2 : 2 ≤ fd) (h7 : fd ≤ 7) (d : FileDesc) :
    view q (k.setPcb (pcbAddr q) ((k.pcbMem (pcbAddr q)).setFd fd d)) =
      (view q k).setFile fd d.openFile := by
  have hfiles : (view q (k.setPcb (pcbAddr q) ((k.pcbMem (pcbAddr q)).setFd fd d))).files =
      Function.update (view q k).files fd d.openFile := by
    funext i
    simp only [view, Kernel.setPcb_self]
    by_cases hi : i = fd
    · subst hi
      rw [if_pos ⟨h2, h7⟩, Pcb.setFd_self, Function.update_self]
    · rw [Pcb.setFd_of_ne hi, Function.update_of_ne hi]
  rw [UserView.setFile, ← hfiles]
  simp only [view, Kernel.setPcb_self]
  rfl

theorem view_leastFree (q : Nat) (k : Kernel) : (view q k).leastFree =
    (List.range' fdstart 6).find? fun i =>
      decide (((k.pcbMem (pcbAddr q)).fdArray i).inUse = notinuse) := by
  refine List.find?_congr fun i hi => ?_
  have hi := List.mem_range'_1.1 hi
  have hfd : 2 ≤ i ∧ i ≤ 7 := by omega
  rw [Bool.eq_iff_iff, Option.isNone_iff_eq_none, decide_eq_true_iff, ← openFile_eq_none]
  simp only [view, if_pos hfd]

end View

/-! ## Open and close -/

section OpenClose

variable {im : Image} {q : Nat} {k k' : Kernel} {ret : Int}

theorem openFile_openedFd {t : UInt32} (ht : t = 0 ∨ t = 1 ∨ t = 2) (d : FileDesc)
    (inode : UInt32) : (openedFd d t inode).openFile = some (if t = 0 then .rtc
      else if t = 1 then .dir 0 else .file inode 0) := by
  rcases ht with rfl | rfl | rfl <;> rfl

theorem tidy_openedFd (him : im.Ok) {i : Nat} (hi : i < im.dirEntries.toNat) (d : FileDesc)
    (_ : (openedFd d (im.entryType i) (im.entryInode i)).inUse = inuse) :
    let d := openedFd d (im.entryType i) (im.entryInode i)
    0 ≤ d.filePos ∧ (d.ftype = 1 → d.filePos ≤ im.dirEntries.toNat) ∧
      (d.ftype = 2 → im.GoodFile d.inodeNum ∧ d.filePos ≤ fileSize im d.inodeNum) := by
  have h63 := him.dir.count_le
  refine ⟨le_rfl, fun _ => Int.natCast_nonneg _, fun ht => ⟨?_, Int.natCast_nonneg _⟩⟩
  exact him.files i (by omega) (him.dir.nonempty i hi) ht

/-- **`open`**. -/
theorem alone_open (him : im.Ok) (hm : Mapped q k) (hfd : FdInv (k.pcbMem (pcbAddr q)))
    (ht : Tidy im (k.pcbMem (pcbAddr q))) {filename : Nat} {name : Option CString} {d : Dentry}
    (hname : k.string filename = some name)
    (hs : sysOpen im (pcbAddr q) name d k = .returned (ret, k')) :
    alone im (view q k) (.open filename) (.value ret) (view q k') ∧
      Tidy im (k'.pcbMem (pcbAddr q)) := by
  have hmap := fdMap_of_inv him.dir hfd
  rw [hm.string] at hname
  have hfail (h : sysOpen im (pcbAddr q) name d k = .returned (-1, k)) : ret = -1 ∧ k' = k := by
    rw [h] at hs
    simp only [Outcome.returned.injEq, Prod.mk.injEq] at hs
    exact ⟨hs.1.symm, hs.2.symm⟩
  cases name with
  | none =>
    obtain ⟨rfl, rfl⟩ := hfail rfl
    exact ⟨⟨none, hname, rfl, rfl⟩, ht⟩
  | some n =>
    cases hopened : im.opened n.bytes with
    | none =>
      obtain ⟨rfl, rfl⟩ := hfail (hmap.open_missing n d (opened_eq_none.1 hopened))
      refine ⟨⟨some n, hname, ?_⟩, ht⟩
      simp [hopened]
    | some f =>
      obtain ⟨i, hi, hn, hf⟩ := opened_eq_some hopened
      have htype := fileType_cases (him.types i hi)
      cases hfree : (view q k).leastFree with
      | none =>
        have hused := find_free_eq_none.1 ((view_leastFree q k).symm.trans hfree)
        obtain ⟨rfl, rfl⟩ := hfail (hmap.open_full (some n) d fun i h2 h7 =>
          ((hfd.slots i h2 h7).resolve_left (hused i h2 h7)).1)
        refine ⟨⟨some n, hname, ?_⟩, ht⟩
        simp [hopened, hfree]
      | some fd =>
        have hleast := find_free_eq_some.1 ((view_leastFree q k).symm.trans hfree)
        rw [hmap.open_existing n d i hi hn (him.types i hi) fd hleast] at hs
        simp only [Outcome.returned.injEq, Prod.mk.injEq] at hs
        obtain ⟨rfl, rfl⟩ := hs
        refine ⟨⟨some n, hname, ?_⟩, ?_⟩
        · rw [view_setFd q k hleast.ge hleast.le, openFile_openedFd htype, ← hf]
          simp [hopened, hfree]
        · rw [Kernel.setPcb_self]
          exact ht.setFd (tidy_openedFd him hi _)

/-- **`close`**. -/
theorem alone_close (hfd : FdInv (k.pcbMem (pcbAddr q))) (ht : Tidy im (k.pcbMem (pcbAddr q)))
    {fd : Int} (hs : sysClose (pcbAddr q) fd k = .returned (ret, k')) :
    alone im (view q k) (.close fd) (.value ret) (view q k') ∧
      Tidy im (k'.pcbMem (pcbAddr q)) := by
  by_cases hopen : 2 ≤ fd ∧ (k.pcbMem (pcbAddr q)).Open fd
  · rw [(sysClose_eq hfd fd).1 hopen.1 hopen.2] at hs
    simp only [Outcome.returned.injEq, Prod.mk.injEq] at hs
    obtain ⟨rfl, rfl⟩ := hs
    have h7 := hopen.2.2.1
    refine ⟨?_, ?_⟩
    · rw [view_setFd q k (by omega) (by omega)]
      simp only [alone, if_pos ((file_isSome hfd).2 hopen), true_and]
      rfl
    · rw [Kernel.setPcb_self]
      exact ht.setFd fun hc => absurd hc inuse_ne_notinuse.symm
  · rw [(sysClose_eq hfd fd).2 hopen] at hs
    simp only [Outcome.returned.injEq, Prod.mk.injEq] at hs
    obtain ⟨rfl, rfl⟩ := hs
    refine ⟨?_, ht⟩
    simp only [alone, if_neg (mt (file_isSome hfd).1 hopen), and_self]

end OpenClose

/-! ## Read -/

section Read

variable {im : Image} {q buf : Nat} {k k₁ : Kernel} {fd nbytes ret : Int} {b : Buf}
  {ob ob' : Option Buf}

theorem taken_neg (ob : Option Buf) : taken (-1) ob = [] := by
  cases ob <;> rfl

/-- A `read` that returns -1. -/
theorem alone_refused (hm : Mapped q k) (hfd : FdInv (k.pcbMem (pcbAddr q)))
    (hbuf : k.buffer buf = some ob)
    (hwhy : ob = none ∨ fd = fdStdout ∨ ¬ (k.pcbMem (pcbAddr q)).Open fd) :
    alone im (view q k) (.read fd buf nbytes) (.got (-1) []) (view q (k.putBuffer buf ob)) := by
  rcases hm.buffer_cases hbuf with ⟨rfl, rfl⟩ | ⟨h0, hva, b, rfl, hb⟩
  · have hput : k.putBuffer 0 none = k :=
      (hm.putBuffer_cases 0 none).resolve_right fun ⟨_, hc, _⟩ => by cases hc
    rw [hput]
    exact ⟨.inl rfl, rfl, rfl⟩
  · rw [hm.view_same hva hb]
    have hclosed : ¬ (2 ≤ fd ∧ (k.pcbMem (pcbAddr q)).Open fd) := by
      rcases hwhy with hc | hc | hc
      · cases hc
      · rw [hc, fdStdout]
        omega
      · exact fun hopen => hc hopen.2
    have hfd0 : fd ≠ 0 := by
      rintro rfl
      rcases hwhy with hc | hc | hc
      · cases hc
      · cases hc
      · exact hc ⟨le_rfl, by omega, hfd.stdin.1⟩
    have hnone : (view q k).file fd = none :=
      Option.not_isSome_iff_eq_none.1 (mt (file_isSome hfd).1 hclosed)
    refine ⟨.inr hva, ?_⟩
    rw [if_neg h0, if_neg hfd0, hnone]
    exact ⟨rfl, rfl⟩

/-- A `read` of the terminal. -/
theorem alone_line (hn : 1 ≤ nbytes ∧ nbytes < 2 ^ 31) (hl : LinesOk k) (hva : InUserPage buf)
    (h0 : buf ≠ 0) (hb : ∀ i < userPageEnd - buf, b i = (view q k).page (buf + i)) {b' : Buf}
    (hview : view q k₁ = view q k) (hm₁ : Mapped q k₁)
    (hs : terminalRead b nbytes k = some (ret, b', k₁)) :
    alone im (view q k) (.read 0 buf nbytes) (.got ret (taken ret (some b')))
      (view q (k₁.putBuffer buf (some b'))) := by
  unfold terminalRead at hs
  dsimp only at hs
  split at hs
  swap
  · cases hs
  simp only [Option.some.injEq, Prod.mk.injEq] at hs
  obtain ⟨hret, rfl, -⟩ := hs
  have hl := hl k.currentTerm
  generalize k.numberofchars k.currentTerm = n at hret hl
  generalize k.terminalbuffer k.currentTerm = chars at hret
  have hzeros : (UInt32.ofInt nbytes).toNat = nbytes.toNat := toNat_ofInt (by omega) hn.2
  -- the line and its newline are one store, over the cleared buffer
  have hline : Function.update (store (zeroBuffer b nbytes) 0 chars n) n newline =
      store (zeroBuffer b nbytes) 0 (fun i => if i < n then chars i else newline) (n + 1) := by
    have hcongr : store (zeroBuffer b nbytes) 0 chars n =
        store (zeroBuffer b nbytes) 0 (fun i => if i < n then chars i else newline) n :=
      store_congr fun i hi => (if_pos hi).symm
    rw [hcongr, ← update_store, Nat.zero_add, if_neg (lt_irrefl n)]
  have hslice : slice (fun i => if i < n then chars i else newline) 0 (n + 1) =
      slice chars 0 n ++ [newline] := by
    rw [slice_succ, Nat.zero_add, if_neg (lt_irrefl n)]
    exact congrArg (· ++ [newline]) (slice_congr fun i hi => if_pos (by omega))
  have hcleared := hm₁.view_filled hva (by rwa [hview]) (fun _ => 0) nbytes.toNat
  have hreplicate : slice (fun _ => (0 : UInt8)) 0 nbytes.toNat =
      List.replicate nbytes.toNat 0 := by
    simp [slice, List.map_const']
  refine ⟨.inr hva, ?_⟩
  rw [if_neg h0, if_pos rfl]
  refine ⟨slice chars 0 n, (length_slice _ _ _).trans_le hl, ?_, ?_⟩
  · rw [hline, taken, ← hret, length_slice, show ((n : Int) + 1).toNat = n + 1 from rfl,
      slice_store, hslice]
  · have hm₂ : Mapped q (k₁.putBuffer buf (some (zeroBuffer b nbytes))) := by
      rw [hm₁.putBuffer_phys hva]
      exact hm₁.congr rfl
    have hb₂ : ∀ i < userPageEnd - buf, zeroBuffer b nbytes i =
        (view q (k₁.putBuffer buf (some (zeroBuffer b nbytes)))).page (buf + i) := by
      intro i hi
      rw [Mapped.page hva hi, hm₁.putBuffer_phys hva]
      dsimp only
      rw [store_of_lt (by omega) (by omega), Nat.add_sub_cancel_left]
    rw [hline, ← hm₁.putBuffer_putBuffer hva (zeroBuffer b nbytes), hm₂.view_filled hva hb₂, hslice,
      zeroBuffer, hzeros, hcleared, hreplicate, hview]
    rfl

/-- What is stored in the page of the caller is no part of its PCB. -/
theorem putBuffer_pcbMem (buf : Nat) (ob : Option Buf) (k : Kernel) :
    (k.putBuffer buf ob).pcbMem = k.pcbMem := by
  unfold Kernel.putBuffer
  split <;> rfl

/-- A descriptor in use from 2 on, as the program sees it. -/
theorem view_open (h2 : 2 ≤ fd) (hopen : (k.pcbMem (pcbAddr q)).Open fd) {f : OpenFile}
    (hf : ((k.pcbMem (pcbAddr q)).fdArray fd.toNat).openFile = some f) :
    (view q k).file fd = some f := by
  rw [view_file, if_pos ⟨h2, hopen.2.1⟩, hf]

theorem openFile_of_inuse {d : FileDesc} (h : d.inUse = inuse) : d.openFile =
    some (if d.ftype = 0 then .rtc else if d.ftype = 1 then .dir d.filePos.toNat
      else .file d.inodeNum d.filePos.toNat) := by
  rw [FileDesc.openFile, if_neg (by rw [h]; exact inuse_ne_notinuse)]
  split_ifs <;> rfl

/-- The same, at another position. -/
theorem openFile_moved {d : FileDesc} (h : d.inUse = inuse) (pos : Int) :
    ({ d with filePos := pos } : FileDesc).openFile =
      some (if d.ftype = 0 then .rtc else if d.ftype = 1 then .dir pos.toNat
        else .file d.inodeNum pos.toNat) :=
  openFile_of_inuse h

/-- A `read` from a file. -/
theorem alone_file (h0 : buf ≠ 0) (hva : InUserPage buf) (h2 : 2 ≤ fd) {f : OpenFile}
    (hf : (view q k).file fd = some f) {v : UserView} (bytes : List UInt8)
    (hret : ret = bytes.length) (htaken : taken ret ob = bytes)
    (hr : readsFile im fd.toNat buf nbytes.toNat (view q k) f = (bytes, v)) :
    alone im (view q k) (.read fd buf nbytes) (.got ret (taken ret ob)) v := by
  have hfd : fd ≠ 0 := by omega
  refine ⟨.inr hva, ?_⟩
  rw [if_neg h0, if_neg hfd, hf, htaken, hret]
  simp only [hr, and_self]

/-- A `read` of the directory. -/
theorem alone_dir (him : im.Ok) (hm₁ : Mapped q (k.setPcb (pcbAddr q)
      (dirRead im fd.toNat b nbytes (k.pcbMem (pcbAddr q))).2.2))
    (hm : Mapped q k) (ht : Tidy im (k.pcbMem (pcbAddr q))) (hn : 1 ≤ nbytes ∧ nbytes < 2 ^ 31)
    (h0 : buf ≠ 0) (hva : InUserPage buf)
    (hb : ∀ i < userPageEnd - buf, b i = (view q k).page (buf + i)) (h2 : 2 ≤ fd)
    (hopen : (k.pcbMem (pcbAddr q)).Open fd)
    (htype : ((k.pcbMem (pcbAddr q)).fdArray fd.toNat).ftype = 1) :
    let r := dirRead im fd.toNat b nbytes (k.pcbMem (pcbAddr q))
    alone im (view q k) (.read fd buf nbytes) (.got r.1 (taken r.1 (some r.2.1)))
        (view q ((k.setPcb (pcbAddr q) r.2.2).putBuffer buf (some r.2.1))) ∧
      Tidy im r.2.2 := by
  have h7 := hopen.2.1
  have hfd : 2 ≤ fd.toNat ∧ fd.toNat ≤ 7 := by omega
  obtain ⟨hpos, hle, -⟩ := ht.pos fd.toNat hfd.1 hfd.2 hopen.2.2
  have hle := hle htype
  have h63 := him.dir.count_le
  have hf : (view q k).file fd =
      some (.dir ((k.pcbMem (pcbAddr q)).fdArray fd.toNat).filePos.toNat) :=
    view_open h2 hopen (by
      rw [openFile_of_inuse hopen.2.2, if_neg (by rw [htype]; decide), if_pos htype])
  have hidx : (UInt32.ofInt ((k.pcbMem (pcbAddr q)).fdArray fd.toNat).filePos).toNat =
      ((k.pcbMem (pcbAddr q)).fdArray fd.toNat).filePos.toNat := toNat_ofInt hpos (by omega)
  have hnat : (((k.pcbMem (pcbAddr q)).fdArray fd.toNat).filePos.toNat : Int) =
      ((k.pcbMem (pcbAddr q)).fdArray fd.toNat).filePos := Int.toNat_of_nonneg hpos
  generalize hP : ((k.pcbMem (pcbAddr q)).fdArray fd.toNat).filePos.toNat = pos at *
  by_cases hlt : pos < im.dirEntries.toNat
  · -- the next entry
    obtain ⟨b', heq, hname, hrest⟩ :=
      dirRead_entry hfd hidx hlt (by omega) (him.dir.nonempty pos hlt) hn.1 b
    rw [heq] at hm₁ ⊢
    dsimp only at hm₁ ⊢
    have hlen : ((im.entryName pos).take nbytes.toNat).length =
        min nbytes.toNat (im.entryName pos).length := List.length_take
    have hview := hm₁.view_putBuffer (b := b') (l := (im.entryName pos).take nbytes.toNat) hva
      fun i hi => by
        rw [hlen]
        split_ifs with hi'
        · rw [← hname, List.getD_eq_getElem?_getD, slice_getElem?, if_pos hi', Nat.zero_add]
          rfl
        · exact (hrest i (by omega)).trans (hb i hi)
    have hnext := openFile_moved hopen.2.2
      (((k.pcbMem (pcbAddr q)).fdArray fd.toNat).filePos + 1)
    have hpos : (((k.pcbMem (pcbAddr q)).fdArray fd.toNat).filePos + 1).toNat = pos + 1 := by omega
    rw [if_neg (by rw [htype]; decide), if_pos htype, hpos] at hnext
    have hcount : (min nbytes ((im.entryName pos).length : Int)).toNat =
        min nbytes.toNat (im.entryName pos).length := by omega
    refine ⟨alone_file h0 hva h2 hf ((im.entryName pos).take nbytes.toNat) ?_ ?_ ?_,
      ht.setFd fun _ => ⟨?_, fun _ => ?_, fun hc => ?_⟩⟩
    · rw [hlen]
      omega
    · rw [taken, hcount, hname]
    · rw [hview, view_setFd q k hfd.1 hfd.2, hnext, readsFile, if_pos hlt]
      rfl
    · dsimp only
      omega
    · dsimp only
      omega
    · rw [htype] at hc
      cases hc
  · -- no entry is left
    rw [dirRead_end hfd hidx (.inl (by omega))]
    rw [dirRead_end hfd hidx (.inl (by omega))] at hm₁
    dsimp only at hm₁ ⊢
    have hself : k.setPcb (pcbAddr q) (k.pcbMem (pcbAddr q)) = k := by
      rw [Kernel.setPcb, Function.update_eq_self]
    rw [hself, hm.view_same hva hb]
    exact ⟨alone_file h0 hva h2 hf [] rfl rfl (by rw [readsFile, if_neg hlt]), ht⟩

/-- A `read` of a regular file. -/
theorem alone_regular (hm₁ : Mapped q (k.setPcb (pcbAddr q)
      (fsRead im fd.toNat (some b) nbytes (k.pcbMem (pcbAddr q))).2.2))
    (ht : Tidy im (k.pcbMem (pcbAddr q))) (hn : 1 ≤ nbytes ∧ nbytes < 2 ^ 31)
    (h0 : buf ≠ 0) (hva : InUserPage buf)
    (hb : ∀ i < userPageEnd - buf, b i = (view q k).page (buf + i)) (h2 : 2 ≤ fd)
    (hopen : (k.pcbMem (pcbAddr q)).Open fd)
    (htype : ((k.pcbMem (pcbAddr q)).fdArray fd.toNat).ftype = 2) :
    let r := fsRead im fd.toNat (some b) nbytes (k.pcbMem (pcbAddr q))
    alone im (view q k) (.read fd buf nbytes) (.got r.1 (taken r.1 r.2.1))
        (view q ((k.setPcb (pcbAddr q) r.2.2).putBuffer buf r.2.1)) ∧
      Tidy im r.2.2 := by
  have h7 := hopen.2.1
  have hfd : 2 ≤ fd.toNat ∧ fd.toNat ≤ 7 := by omega
  obtain ⟨hpos, -, hfile⟩ := ht.pos fd.toNat hfd.1 hfd.2 hopen.2.2
  obtain ⟨hgood, hle⟩ := hfile htype
  have hopenFile (pos : Int) := openFile_moved hopen.2.2 pos
  simp only [if_neg (show ((k.pcbMem (pcbAddr q)).fdArray fd.toNat).ftype ≠ 0 by
    rw [htype]; decide), if_neg (show ((k.pcbMem (pcbAddr q)).fdArray fd.toNat).ftype ≠ 1 by
    rw [htype]; decide)] at hopenFile
  obtain ⟨pos, hP⟩ := Int.eq_ofNat_of_zero_le hpos
  have hf := view_open h2 hopen (hopenFile ((k.pcbMem (pcbAddr q)).fdArray fd.toNat).filePos)
  rw [hP, Int.toNat_natCast] at hf
  generalize hI : ((k.pcbMem (pcbAddr q)).fdArray fd.toNat).inodeNum = inode at *
  have hlen := congrArg List.length (contents_slice im inode pos nbytes.toNat)
  rw [length_slice] at hlen
  rw [fsRead_eq (b := b) hn htype (hI ▸ hgood) hP (hI ▸ by omega) rfl] at hm₁ ⊢
  rw [hI] at hm₁ ⊢
  dsimp only at hm₁ ⊢
  have hbytes : slice (fun i => fileByte im inode (pos + i)) 0
      (min nbytes.toNat (fileSize im inode - pos)) =
      slice (fileByte im inode) pos (min nbytes.toNat (fileSize im inode - pos)) :=
    slice_congr fun i _ => by rw [Nat.zero_add]
  refine ⟨alone_file h0 hva h2 hf (((im.contents inode).drop pos).take nbytes.toNat) ?_ ?_ ?_,
    ht.setFd fun _ => ⟨?_, fun hc => ?_, fun _ => ⟨?_, ?_⟩⟩⟩
  · rw [hlen]
  · rw [taken, Int.toNat_natCast, slice_store, hbytes, contents_slice]
  · have hnext := hopenFile (↑(pos + min nbytes.toNat (fileSize im inode - pos)))
    rw [Int.toNat_natCast] at hnext
    rw [hm₁.view_filled hva hb, view_setFd q k hfd.1 hfd.2, hI, hnext, readsFile]
    refine Prod.ext rfl ?_
    dsimp only
    rw [hlen, contents_slice, hbytes]
    rfl
  · dsimp only
    omega
  · rw [htype] at hc
    cases hc
  · dsimp only
    rw [hI]
    exact hgood
  · dsimp only
    rw [hI]
    omega

/-- **`read`**. -/
theorem alone_read (him : im.Ok) (hm : Mapped q k) (hfd : FdInv (k.pcbMem (pcbAddr q)))
    (ht : Tidy im (k.pcbMem (pcbAddr q))) (hl : LinesOk k) (hn : 1 ≤ nbytes ∧ nbytes < 2 ^ 31)
    (hbuf : k.buffer buf = some ob) (hsame : SameButFiles k k₁)
    (hs : Reads im (pcbAddr q) fd ob nbytes k ret ob' k₁) :
    alone im (view q k) (.read fd buf nbytes) (.got ret (taken ret ob'))
        (view q (k₁.putBuffer buf ob')) ∧
      Tidy im ((k₁.putBuffer buf ob').pcbMem (pcbAddr q)) := by
  have hm₁ : Mapped q k₁ := hm.congr (by rw [hsame])
  have hphys : k₁.phys = k.phys := by rw [hsame]
  rw [putBuffer_pcbMem]
  have hbuffer {b : Buf} (hb : ob = some b) : buf ≠ 0 ∧ InUserPage buf ∧
      ∀ i < userPageEnd - buf, b i = (view q k).page (buf + i) := by
    rcases hm.buffer_cases hbuf with ⟨-, hc⟩ | ⟨h0, hva, b', hb', hpage⟩
    · rw [hc] at hb
      cases hb
    · obtain rfl := Option.some.inj (hb'.symm.trans hb)
      exact ⟨h0, hva, hpage⟩
  cases hs with
  | refused hwhy =>
    rw [taken_neg]
    exact ⟨alone_refused hm hfd hbuf hwhy, ht⟩
  | line hob hfd0 hread =>
    subst hfd0
    obtain ⟨h0, hva, hb⟩ := hbuffer hob
    have hpcb := terminalRead_pcbMem hread
    have hview : view q k₁ = view q k := by
      simp only [view, hpcb, hphys]
    refine ⟨alone_line hn hl hva h0 hb hview hm₁ hread, ?_⟩
    rw [hpcb]
    exact ht
  | rtc hob h2 hopen htype =>
    obtain ⟨h0, hva, hb⟩ := hbuffer hob
    have hf : (view q k).file fd = some .rtc :=
      view_open h2 hopen (by rw [openFile_of_inuse hopen.2.2, if_pos htype])
    rw [hm.view_same hva hb]
    exact ⟨alone_file h0 hva h2 hf [] rfl rfl rfl, ht⟩
  | dir hob h2 hopen htype =>
    obtain ⟨h0, hva, hb⟩ := hbuffer hob
    rw [Kernel.setPcb_self]
    exact alone_dir him hm₁ hm ht hn h0 hva hb h2 hopen htype
  | file hob h2 hopen htype =>
    obtain ⟨h0, hva, hb⟩ := hbuffer hob
    subst hob
    rw [Kernel.setPcb_self]
    exact alone_regular hm₁ ht hn h0 hva hb h2 hopen htype

end Read

/-! ## Write -/

section Write

variable {im : Image} {q buf : Nat} {k k' : Kernel} {fd nbytes ret : Int} {ob : Option Buf}

/-- A `write` that returns -1 and sends nothing. -/
theorem written_of_bad {curr : Nat}
    (h : fd = 0 ∨ ¬ (0 ≤ fd ∧ fd ≤ 7 ∧ ((k.pcbMem curr).fdArray fd.toNat).inUse ≠ notinuse)) :
    (SysCall.write fd ob nbytes).written curr k = [] := by
  cases ob with
  | none => rfl
  | some b =>
    refine if_neg fun ⟨hpos, hle, huse, _⟩ => ?_
    rcases h with h | h
    · omega
    · exact h ⟨by omega, hle, huse⟩

/-- What a `write` to a file returns. -/
theorem callWrite_openFile {d : FileDesc} {b : Buf} {f : OpenFile} (hf : d.openFile = some f)
    (hs : callWrite b nbytes k ((tableOf d.ftype).entry .write) = .returned (ret, k')) :
    k' = k ∧ writesFile (loadWord b) nbytes f ret := by
  have huse : d.inUse ≠ notinuse := fun hc => by cases hf.symm.trans (openFile_eq_none.2 hc)
  unfold FileDesc.openFile at hf
  rw [if_neg huse] at hf
  rcases entry_tableOf d.ftype .write with ⟨ht, he⟩ | ⟨ht, he⟩ | ⟨ht, ht', he⟩ <;> rw [he] at hs
  · rw [if_pos ht] at hf
    obtain rfl := Option.some.inj hf
    simp only [callWrite] at hs
    cases hr : rtcWrite (some (loadWord b)) with
    | returned r =>
      simp only [hr, Outcome.returned.injEq, Prod.mk.injEq] at hs
      obtain ⟨rfl, rfl⟩ := hs
      exact ⟨rfl, hr⟩
    | blocked =>
      rw [hr] at hs
      cases hs
    | badCall =>
      rw [hr] at hs
      cases hs
  · rw [if_neg (by rw [ht]; decide), if_pos ht] at hf
    obtain rfl := Option.some.inj hf
    simp only [callWrite, Outcome.returned.injEq, Prod.mk.injEq] at hs
    exact ⟨hs.2.symm, hs.1.symm⟩
  · rw [if_neg ht, if_neg ht'] at hf
    obtain rfl := Option.some.inj hf
    simp only [callWrite, Outcome.returned.injEq, Prod.mk.injEq] at hs
    exact ⟨hs.2.symm, hs.1.symm⟩

/-- `write` to what is not open. -/
theorem alone_write_closed {v : UserView} (h0 : buf ≠ 0) (hva : InUserPage buf) (hfd1 : fd ≠ 1)
    (hfile : v.file fd = none) : alone im v (.write fd buf nbytes) (.wrote (-1) []) v := by
  refine ⟨rfl, .inr hva, ?_⟩
  rw [if_neg h0, if_neg hfd1, hfile]

/-- `write` to the terminal. -/
theorem alone_write_terminal {b : Buf} (hscr : ScreenInv k) (h0 : buf ≠ 0) (hva : InUserPage buf)
    (hb : ∀ i < userPageEnd - buf, b i = (view q k).page (buf + i))
    (hroom : nbytes.toNat ≤ userPageEnd - buf) :
    alone im (view q k) (.write 1 buf nbytes) (.wrote 0 (slice b 0 nbytes.toNat))
        (view q (terminalWrite b nbytes k).2) ∧
      (terminalWrite b nbytes k).2.pcbMem = k.pcbMem := by
  have hpcb := terminalWrite_pcbMem b nbytes k
  have hsame : SameUser q k (terminalWrite b nbytes k).2 :=
    .of_high (sameHigh_terminalWrite hscr b nbytes) (congrFun hpcb _)
  refine ⟨⟨hsame.view, .inr hva, ?_⟩, hpcb⟩
  rw [if_neg h0, if_pos rfl]
  exact congrArg (Answer.wrote 0) (slice_congr fun i hi => by
    rw [Nat.zero_add]
    exact hb i (by omega))

/-- `write` to a file. -/
theorem alone_write_file {v : UserView} {b : Buf} {f : OpenFile} (h0 : buf ≠ 0)
    (hva : InUserPage buf) (hb : ∀ i < userPageEnd - buf, b i = v.page (buf + i))
    (hroom : 4 ≤ userPageEnd - buf) (hfd1 : fd ≠ 1) (hfile : v.file fd = some f)
    (hwrites : writesFile (loadWord b) nbytes f ret) :
    alone im v (.write fd buf nbytes) (.wrote ret []) v := by
  have hword : loadWord b = loadWord fun i => v.page (buf + i) := by
    simp only [loadWord]
    rw [hb 0 (by omega), hb 1 (by omega), hb 2 (by omega), hb 3 (by omega)]
  rw [hword] at hwrites
  refine ⟨rfl, .inr hva, ?_⟩
  rw [if_neg h0, if_neg hfd1, hfile]
  exact ⟨ret, rfl, hwrites⟩

/-- **`write`**. -/
theorem alone_write (hm : Mapped q k) (hfd : FdInv (k.pcbMem (pcbAddr q))) (hscr : ScreenInv k)
    (hbuf : k.buffer buf = some ob) (hroom : buf = 0 ∨ max nbytes.toNat 4 ≤ userPageEnd - buf)
    (hs : sysWrite (pcbAddr q) fd ob nbytes k = .returned (ret, k')) :
    alone im (view q k) (.write fd buf nbytes)
        (.wrote ret ((SysCall.write fd ob nbytes).written (pcbAddr q) k)) (view q k') ∧
      k'.pcbMem = k.pcbMem := by
  have hnone (hclosed : ¬ (2 ≤ fd ∧ (k.pcbMem (pcbAddr q)).Open fd)) :
      (view q k).file fd = none :=
    Option.not_isSome_iff_eq_none.1 (mt (file_isSome hfd).1 hclosed)
  rcases hm.buffer_cases hbuf with ⟨rfl, rfl⟩ | ⟨h0, hva, b, rfl, hb⟩
  · rw [sysWrite_of_null] at hs
    simp only [Outcome.returned.injEq, Prod.mk.injEq] at hs
    obtain ⟨rfl, rfl⟩ := hs
    exact ⟨⟨rfl, .inl rfl, rfl⟩, rfl⟩
  have hroom := hroom.resolve_left h0
  have hrefused (hfd1 : fd ≠ 1) (hclosed : ¬ (2 ≤ fd ∧ (k.pcbMem (pcbAddr q)).Open fd))
      (hbad : fd = 0 ∨
        ¬ (0 ≤ fd ∧ fd ≤ 7 ∧ ((k.pcbMem (pcbAddr q)).fdArray fd.toNat).inUse ≠ notinuse)) :
      alone im (view q k) (.write fd buf nbytes)
        (.wrote ret ((SysCall.write fd (some b) nbytes).written (pcbAddr q) k)) (view q k') ∧
      k'.pcbMem = k.pcbMem := by
    rw [sysWrite_of_bad hbad] at hs
    simp only [Outcome.returned.injEq, Prod.mk.injEq] at hs
    obtain ⟨rfl, rfl⟩ := hs
    rw [written_of_bad hbad]
    exact ⟨alone_write_closed h0 hva hfd1 (hnone hclosed), rfl⟩
  rcases hfd.open_or fd with hopen | hbad
  swap
  · have hclosed : ¬ (k.pcbMem (pcbAddr q)).Open fd := fun hopen =>
      hbad ⟨hopen.1, hopen.2.1, by rw [hopen.2.2]; exact inuse_ne_notinuse⟩
    refine hrefused ?_ (fun hc => hclosed hc.2) (.inr hbad)
    rintro rfl
    exact hclosed ⟨by decide, by decide, hfd.stdout.1⟩
  have huse : ((k.pcbMem (pcbAddr q)).fdArray fd.toNat).inUse ≠ notinuse := by
    rw [hopen.2.2]
    exact inuse_ne_notinuse
  rcases hfd.of_open hopen with ⟨rfl, -⟩ | ⟨rfl, htab⟩ | ⟨h2, h7, -, htab⟩
  · exact hrefused (by decide) (fun hc => absurd hc.1 (by decide)) (.inl rfl)
  · rw [sysWrite_of_open b (by decide) hopen, htab] at hs
    have hs : (terminalWrite b nbytes k).1 = ret ∧ (terminalWrite b nbytes k).2 = k' := by
      simpa only [OpsPtr.entry, callWrite, Outcome.returned.injEq, Prod.mk.injEq] using hs
    obtain ⟨rfl, rfl⟩ := hs
    have hwritten : (SysCall.write 1 (some b) nbytes).written (pcbAddr q) k =
        slice b 0 nbytes.toNat := if_pos ⟨by decide, by decide, huse, by rw [htab]; rfl⟩
    rw [hwritten]
    exact alone_write_terminal hscr h0 hva hb (by omega)
  · have hquiet : (SysCall.write fd (some b) nbytes).written (pcbAddr q) k = [] := by
      refine if_neg ?_
      rintro ⟨-, -, -, hterm⟩
      rw [htab] at hterm
      rcases entry_tableOf ((k.pcbMem (pcbAddr q)).fdArray fd.toNat).ftype .write with
        ⟨-, he⟩ | ⟨-, he⟩ | ⟨-, -, he⟩ <;> rw [he] at hterm <;> cases hterm
    have hopened := openFile_of_inuse hopen.2.2
    rw [sysWrite_of_open b (by omega) hopen, htab] at hs
    obtain ⟨rfl, hwrites⟩ := callWrite_openFile hopened hs
    rw [hquiet]
    exact ⟨alone_write_file h0 hva hb (by omega) (by omega) (view_open h2 hopen hopened) hwrites,
      rfl⟩

end Write

/-! ## Arguments and video memory -/

section Calls

variable {im : Image} {q buf : Nat} {k k' : Kernel} {nbytes ret : Int} {ob : Option Buf}

/-- The bytes that `getargs` copies. -/
theorem getD_args {p : Pcb} (hargs : ∃ i < pcbMaxArgs, p.argArr i = 0) {n i : Nat} (hi : i < n)
    (dest : Buf) : strncpy dest p.argArr n i =
      ((argString p ++ List.replicate n 0).take n).getD i 0 := by
  obtain ⟨hmax, hne, hnul⟩ := strlenMax_spec p.argArr pcbMaxArgs
  obtain ⟨j, hj, hzero⟩ := hargs
  have hlt : strlenMax p.argArr pcbMaxArgs < pcbMaxArgs := by
    by_contra hc
    exact hne j (by omega) hzero
  have hlen : (argString p).length = strlenMax p.argArr pcbMaxArgs := length_slice _ _ _
  rw [List.getD_eq_getElem?_getD, List.getElem?_take, if_pos hi]
  by_cases hin : i < strlenMax p.argArr pcbMaxArgs
  · rw [strncpy_of_lt hi fun j hj => hne j (by omega), List.getElem?_append_left (by omega),
      argString, slice_getElem?, if_pos hin, Nat.zero_add]
    rfl
  · rw [strncpy_of_nul hi (by omega) (hnul hlt), List.getElem?_append_right (by omega),
      List.getElem?_replicate]
    split_ifs <;> rfl

/-- **`getargs`**. -/
theorem alone_getargs (hm : Mapped q k) (ht : Tidy im (k.pcbMem (pcbAddr q)))
    (hbuf : k.buffer buf = some ob) :
    alone im (view q k) (.getargs buf nbytes)
      (.value (getargs ob nbytes (k.pcbMem (pcbAddr q))).1)
      (view q (k.putBuffer buf (getargs ob nbytes (k.pcbMem (pcbAddr q))).2)) := by
  rcases hm.buffer_cases hbuf with ⟨rfl, rfl⟩ | ⟨h0, hva, b, rfl, hb⟩
  · have hput : k.putBuffer 0 none = k :=
      (hm.putBuffer_cases 0 none).resolve_right fun ⟨_, hc, _⟩ => by cases hc
    refine ⟨.inl rfl, ?_⟩
    rw [if_pos (.inl rfl)]
    exact ⟨rfl, congrArg (view q) hput⟩
  · refine ⟨.inr hva, ?_⟩
    by_cases hsmall : nbytes < 0 ∨ nbytes - 1 < (k.pcbMem (pcbAddr q)).argSize
    · have hle : nbytes ≤ (view q k).argSize := by
        simp only [view]
        omega
      simp only [getargs, if_pos hsmall]
      rw [if_pos (.inr hle), hm.view_same hva hb]
      exact ⟨trivial, rfl⟩
    · have hgt : ¬ (buf = 0 ∨ nbytes ≤ (view q k).argSize) := by
        simp only [view]
        omega
      simp only [getargs, if_neg hsmall]
      rw [if_neg hgt]
      refine ⟨trivial, hm.view_putBuffer hva fun i hi => ?_⟩
      have hlen : (((view q k).args ++ List.replicate nbytes.toNat 0).take nbytes.toNat).length =
          nbytes.toNat := by simp
      rw [hlen]
      split_ifs with hn
      · exact getD_args ht.args hn b
      · rw [strncpy, if_neg hn, hb i hi]

/-- **`vidmap`**. -/
theorem alone_vidmap (hm : Mapped q k) (hscr : ScreenInv k) {screenStart : UInt32}
    (hs : vidmap screenStart k = some (ret, k')) :
    alone im (view q k) (.vidmap screenStart) (.value ret) (view q k') ∧
      k'.pcbMem = k.pcbMem := by
  rcases vidmap_page hm hscr hs with ⟨hout, rfl, rfl⟩ | ⟨hva, hroom, rfl, rfl⟩
  · refine ⟨?_, rfl⟩
    simp only [alone, if_neg hout, and_self]
  · refine ⟨?_, rfl⟩
    simp only [alone, if_pos hva, true_and]
    exact Mapped.view_store hva hroom (.inl le_rfl) fun i hi => (if_pos hi).symm

end Calls

/-! ## Every action -/

section Performs

variable {im : Image} {p va d : Nat} {k k' : Kernel} {m : Machine TermId Nat} {a : Act}
  {ans : Answer}

theorem Tidy.same (h : Tidy im (k.pcbMem (pcbAddr p))) (hs : SameUser p k k') :
    Tidy im (k'.pcbMem (pcbAddr p)) where
  pos i h2 h7 hi := by
    rw [hs.files i h2 h7] at hi ⊢
    exact h.pos i h2 h7 hi
  args := by
    rw [hs.args.argArr]
    exact h.args

/-- **`load`**. -/
theorem alone_load (hm : Mapped p k) (hscr : ScreenInv k)
    (hs : performs im (k.sp d) k (.load va) ans k') :
    alone im (view p k) (.load va) ans (view p k') ∧ k' = k := by
  obtain ⟨hva, pa, ht, rfl, rfl⟩ := hs
  refine ⟨⟨rfl, fun hin => ?_⟩, rfl⟩
  rcases hm.store_cases hscr hva ht with ⟨-, hpa⟩ | ⟨hout, -⟩
  · have hpage := Mapped.page (q := p) (k := k') (i := 0) hin (Nat.sub_pos_of_lt hin.2)
    rw [Nat.add_zero, Nat.add_zero] at hpage
    rw [hpage, hpa]
  · exact absurd hin hout

/-- **`store`**. -/
theorem alone_store {c : UInt8} (hm : Mapped p k) (hscr : ScreenInv k)
    (hs : performs im (k.sp d) k (.store va c) ans k') :
    alone im (view p k) (.store va c) ans (view p k') ∧ k'.pcbMem = k.pcbMem := by
  obtain ⟨hva, pa, ht, rfl, rfl⟩ := hs
  refine ⟨⟨rfl, ?_⟩, rfl⟩
  rcases hm.store_cases hscr hva ht with ⟨hin, hpa⟩ | ⟨hout, hlow⟩
  · rw [if_pos hin, hpa]
    have hroom : 1 ≤ userPageEnd - va := by
      have := hin.2
      omega
    have hput := Mapped.view_store (q := p) (k := k) (b := fun _ => c) (l := [c]) hin hroom
      (.inl le_rfl) fun i hi => by
        obtain rfl : i = 0 := by omega
        rfl
    have hone := update_store k.phys (userFrame p + (va - userPageStart)) (fun _ => c) 0
    rw [store_zero, Nat.add_zero, Nat.zero_add] at hone
    rw [hone]
    exact hput
  · rw [if_neg hout]
    refine SameUser.view (k := k) ⟨fun b hb => Function.update_of_ne ?_ _ _, fun _ _ _ => rfl,
      .refl _⟩
    have := hb.high
    omega

/-- **Every action** of the running program but `halt` is one of the program by itself. -/
theorem alone_performs (him : im.Ok) (h : Sound k m) (hd : d < 0x1FFF)
    (ht : Tidy im (k.pcbMem (pcbAddr (runningPid m)))) (hl : LinesOk k)
    (hord : Orderly im k (.act d a))
    (hasks : AsksOwn (runningPid m) k (.act d a)) (hhalt : ∀ status, a ≠ .halt status)
    (hstart : ans ≠ .went (.started (runningPid m))) (hs : performs im (k.sp d) k a ans k') :
    alone im (view (runningPid m) k) a ans (view (runningPid m) k') ∧
      Tidy im (k'.pcbMem (pcbAddr (runningPid m))) := by
  have hm := h.mapped
  have hfd := h.caller_fdInv hd
  have hkeep {k₁ : Kernel} (hpcb : k₁.pcbMem = k.pcbMem) :
      Tidy im (k₁.pcbMem (pcbAddr (runningPid m))) := by rwa [hpcb]
  have hcurr := h.getPcbAddress hd
  rw [hcurr] at hfd
  cases a with
  | load va =>
    obtain ⟨halone, rfl⟩ := alone_load hm h.screen hs
    exact ⟨halone, ht⟩
  | store va c =>
    obtain ⟨halone, hpcb⟩ := alone_store hm h.screen hs
    exact ⟨halone, hkeep hpcb⟩
  | «open» filename =>
    obtain ⟨name, dir, ret, hname, hs, rfl⟩ := hs
    rw [hcurr] at hs
    exact alone_open him hm hfd ht hname hs
  | close fd =>
    obtain ⟨ret, hs, rfl⟩ := hs
    rw [hcurr] at hs
    exact alone_close hfd ht hs
  | read fd buf nbytes =>
    obtain ⟨b, ret, b', k₁, hbuf, hs, -, rfl, rfl⟩ := hs
    rw [hcurr] at hs
    exact alone_read him hm hfd ht hl (hasks h.process) hbuf (sameButFiles_read hs)
      (reads_of_sysRead hfd hs)
  | write fd buf nbytes =>
    obtain ⟨b, ret, hbuf, hroom, hs, rfl⟩ := hs
    rw [hcurr] at hs ⊢
    obtain ⟨halone, hpcb⟩ := alone_write hm hfd h.screen hbuf hroom hs
    exact ⟨halone, hkeep hpcb⟩
  | getargs buf nbytes =>
    obtain ⟨b, hbuf, -, rfl, rfl⟩ := hs
    rw [hcurr]
    exact ⟨alone_getargs hm ht hbuf, hkeep (putBuffer_pcbMem _ _ _)⟩
  | vidmap screenStart =>
    obtain ⟨ret, hs, rfl⟩ := hs
    obtain ⟨halone, hpcb⟩ := alone_vidmap hm h.screen hs
    exact ⟨halone, hkeep hpcb⟩
  | setHandler signum handlerAddress =>
    obtain ⟨rfl, rfl⟩ := hs
    exact ⟨⟨rfl, rfl⟩, ht⟩
  | sigreturn =>
    obtain ⟨rfl, rfl⟩ := hs
    exact ⟨⟨rfl, rfl⟩, ht⟩
  | execute command =>
    obtain ⟨c, o, hc, hs, rfl⟩ := hs
    have hturn : InTurn im k (.execute d c) := fun prog hacc => hord.2 c prog hc hacc
    have hsame : SameUser (runningPid m) k k' :=
      sameUser_execute h.screen hm.ge hm.le hturn.completes (fun ho => hstart (by rw [ho])) hs
    rw [hm.string] at hc
    refine ⟨⟨hsame.view, c, hc, ?_⟩, ht.same hsame⟩
    rcases callExecute_completes hturn.completes hs with
      ⟨pid, _, prog, rfl, -, name, -, rfl, hlen, hlook, -⟩ | ⟨rfl, -⟩
    · exact .inr ⟨pid, name, prog, rfl, rfl, hlen, hlook⟩
    · exact .inl rfl
  | executeReturns => exact hs.elim
  | halt status => exact absurd rfl (hhalt status)

end Performs

end Kernel391

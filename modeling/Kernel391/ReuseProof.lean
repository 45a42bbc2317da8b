import Kernel391.BlindProof
import Kernel391.DescriptorProof
import Kernel391.Lib.Driven

/-!
# A reused PCB

`execute` builds a PCB over whatever an earlier process left in its slot and clears only a part of
it. Two runs from slots with different contents stay in step: the kernels are the same but for
their process tables, and the two slots agree on all that the calls of the new process look at
(`SameSlot`): the descriptors that are open, and the arguments up to their NUL.

* `sameSlot_started` — `execute` makes two slots agree.
* `callStep_same` — no call, and no interrupt, tells two such kernels apart or makes them differ.
* `reuse_leaks_nothing` — so the new process never learns what was in its slot.
-/

namespace Kernel391

open Bytes Console Driven

/-! ## Slots that are used alike -/

/-- Two descriptors that are free, or that the calls cannot tell apart. Only `fs_read` looks at
the type byte, and nothing at the two bytes after it. -/
structure SameFd (d d' : FileDesc) : Prop where
  inUse : d'.inUse = d.inUse
  table : d.inUse ≠ notinuse → d'.operationstable = d.operationstable
  inodeNum : d.inUse ≠ notinuse → d'.inodeNum = d.inodeNum
  filePos : d.inUse ≠ notinuse → d'.filePos = d.filePos
  ftype : d.inUse ≠ notinuse → d.operationstable = .filetable → d'.ftype = d.ftype

/-- Two PCBs that the calls of their process cannot tell apart. -/
structure SameSlot (p p' : Pcb) : Prop where
  fds : ∀ i < entriesInFdArray, SameFd (p.fdArray i) (p'.fdArray i)
  argSize : p'.argSize = p.argSize
  args : ∃ n, p.argArr n = 0 ∧ ∀ i ≤ n, p'.argArr i = p.argArr i

/-- Two kernels that the calls of the process at `curr` cannot tell apart. -/
structure SameCalls (curr : Nat) (k k' : Kernel) : Prop where
  kernel : k' = k.withProcs k'
  slot : SameSlot (k.pcbMem curr) (k'.pcbMem curr)

theorem SameFd.refl (d : FileDesc) : SameFd d d :=
  ⟨rfl, fun _ => rfl, fun _ => rfl, fun _ => rfl, fun _ _ => rfl⟩

theorem SameSlot.setFd {p p' : Pcb} {d d' : FileDesc} (h : SameSlot p p') (fd : Nat)
    (hd : SameFd d d') : SameSlot (p.setFd fd d) (p'.setFd fd d') where
  fds i hi := by
    by_cases hfd : i = fd
    · subst hfd
      rwa [Pcb.setFd_self, Pcb.setFd_self]
    · rw [Pcb.setFd_of_ne hfd, Pcb.setFd_of_ne hfd]
      exact h.fds i hi
  argSize := h.argSize
  args := h.args

theorem SameCalls.setPcb {curr : Nat} {k k' : Kernel} {p p' : Pcb} (h : SameCalls curr k k')
    (hp : SameSlot p p') : SameCalls curr (k.setPcb curr p) (k'.setPcb curr p') where
  kernel := by
    rw [h.kernel]
    rfl
  slot := by rwa [Kernel.setPcb_self, Kernel.setPcb_self]

/-- What leaves the PCBs alone, and does not look at them. -/
theorem SameCalls.blind {curr : Nat} {k k' k₁ : Kernel} (h : SameCalls curr k k')
    (hk₁ : k₁.pcbMem = k.pcbMem) : SameCalls curr k₁ (k₁.withProcs k') where
  kernel := rfl
  slot := by
    rw [hk₁]
    exact h.slot

/-! ## Reading through a descriptor -/

section Read

variable {im : Image} {p p' : Pcb} {fd : Nat} {nbytes : Int}

/-- `fs_read` reads the same bytes and moves both positions alike. -/
theorem fsRead_same (h : SameSlot p p') (hfd : fd < entriesInFdArray)
    (hin : (p.fdArray fd).inUse ≠ notinuse) (ht : (p.fdArray fd).operationstable = .filetable)
    (b : Option Buf) : ∃ ret b' p₁ p₁', fsRead im fd b nbytes p = (ret, b', p₁) ∧
      fsRead im fd b nbytes p' = (ret, b', p₁') ∧ SameSlot p₁ p₁' := by
  have hd := h.fds fd hfd
  unfold fsRead
  dsimp only
  rw [hd.ftype hin ht, hd.filePos hin, hd.inodeNum hin]
  by_cases h0 : nbytes = 0
  · exact ⟨_, _, _, _, if_pos h0, if_pos h0, h⟩
  rw [if_neg h0, if_neg h0]
  by_cases hb : b = none
  · exact ⟨_, _, _, _, if_pos hb, if_pos hb, h⟩
  rw [if_neg hb, if_neg hb]
  by_cases hreg : (p.fdArray fd).ftype ≠ ftypeRegular
  · exact ⟨_, _, _, _, if_pos hreg, if_pos hreg, h⟩
  rw [if_neg hreg, if_neg hreg]
  by_cases hend : (p.fdArray fd).filePos ≥ getFilesize im (p.fdArray fd).inodeNum
  · exact ⟨_, _, _, _, if_pos hend, if_pos hend, h⟩
  rw [if_neg hend, if_neg hend]
  exact ⟨_, _, _, _, rfl, rfl,
    h.setFd fd ⟨hd.inUse, hd.table, fun _ => rfl, fun _ => rfl, fun _ _ => rfl⟩⟩

/-- `dir_read` reads the same name and moves both positions alike. -/
theorem dirRead_same (h : SameSlot p p') (hfd : fd < entriesInFdArray)
    (hin : (p.fdArray fd).inUse ≠ notinuse) (b : Buf) :
    ∃ ret b' p₁ p₁', dirRead im fd b nbytes p = (ret, b', p₁) ∧
      dirRead im fd b nbytes p' = (ret, b', p₁') ∧ SameSlot p₁ p₁' := by
  have hd := h.fds fd hfd
  unfold dirRead
  dsimp only
  rw [hd.filePos hin]
  by_cases hstd : fd = 0 ∨ fd = 1 ∨ fd > 7
  · exact ⟨_, _, _, _, if_pos hstd, if_pos hstd, h⟩
  rw [if_neg hstd, if_neg hstd]
  by_cases hlast : (readDentryByIndex im (UInt32.ofInt (p.fdArray fd).filePos) default).1 = -1
  · exact ⟨_, _, _, _, if_pos hlast, if_pos hlast, h⟩
  rw [if_neg hlast, if_neg hlast]
  exact ⟨_, _, _, _, rfl, rfl,
    h.setFd fd ⟨hd.inUse, hd.table, hd.inodeNum, fun _ => rfl, hd.ftype⟩⟩

theorem entry_fs {t : OpsPtr} {op op' : FileOp} (h : t.entry op = some (.fs op')) :
    t = .filetable := by
  cases t <;> cases op <;> first | rfl | cases h

end Read

/-! ## The calls -/

/-- How two calls ended: with the same answer, and in kernels that no call can tell apart. `view`
is the answer and the kernel of a call that returned. -/
inductive SameOutcome {α : Type} (view : α → (Int × Option Buf) × Kernel) (curr : Nat) :
    Outcome α → Outcome α → Prop
  | returned {a a' : α} (answer : (view a).1 = (view a').1)
      (kernel : SameCalls curr (view a).2 (view a').2) :
      SameOutcome view curr (.returned a) (.returned a')
  | blocked : SameOutcome view curr .blocked .blocked
  | badCall : SameOutcome view curr .badCall .badCall

/-- A call without a buffer. -/
def viewValue (r : Int × Kernel) : (Int × Option Buf) × Kernel := ((r.1, none), r.2)

/-- A call with a buffer. -/
def viewBuffer (r : Int × Option Buf × Kernel) : (Int × Option Buf) × Kernel :=
  ((r.1, r.2.1), r.2.2)

section Calls

variable {im : Image} {curr : Nat} {k k' : Kernel}

/-- A test that comes out alike in both, and refuses the call. -/
theorem SameOutcome.guard {α : Type} {view : α → (Int × Option Buf) × Kernel} {c : Prop}
    [Decidable c] {a a' : α} {r r' : Outcome α} (answer : (view a).1 = (view a').1)
    (kernel : SameCalls curr (view a).2 (view a').2) (h : ¬ c → SameOutcome view curr r r') :
    SameOutcome view curr (if c then .returned a else r) (if c then .returned a' else r') := by
  by_cases hc : c
  · rw [if_pos hc, if_pos hc]
    exact .returned answer kernel
  · rw [if_neg hc, if_neg hc]
    exact h hc

theorem SameSlot.leastFree_iff {p p' : Pcb} (h : SameSlot p p') (fd : Nat) :
    p'.LeastFree fd ↔ p.LeastFree fd := by
  have hin (i : Nat) (hi : i ≤ 7) : (p'.fdArray i).inUse = (p.fdArray i).inUse :=
    (h.fds i (Nat.lt_succ_of_le hi)).inUse
  constructor
  · intro hf
    refine ⟨hf.ge, hf.le, hin fd hf.le ▸ hf.free, fun i h2 hi => ?_⟩
    rw [← hin i (by have := hf.le; omega)]
    exact hf.least i h2 hi
  · intro hf
    refine ⟨hf.ge, hf.le, (hin fd hf.le).trans hf.free, fun i h2 hi => ?_⟩
    rw [hin i (by have := hf.le; omega)]
    exact hf.least i h2 hi

theorem sysOpen_same (h : SameCalls curr k k') (name : Option CString) (d : Dentry) :
    SameOutcome viewValue curr (sysOpen im curr name d k) (sysOpen im curr name d k') := by
  rcases sysOpen_cases im curr name d k with heq | ⟨n, fd, rfl, hfree, ht, hne, hfound, heq⟩
  · rcases sysOpen_cases im curr name d k' with heq' | ⟨n, fd, rfl, hfree, ht, hne, hfound, -⟩
    · rw [heq, heq']
      exact .returned rfl h
    · -- the same slot is free in both tables
      have := sysOpen_of_free hne hfound ht ((h.slot.leastFree_iff fd).1 hfree)
      rw [heq] at this
      injection this with this
      have hfd : (-1 : Int) = fd := (Prod.mk.inj this).1
      omega
  · rw [heq, sysOpen_of_free hne hfound ht ((h.slot.leastFree_iff fd).2 hfree)]
    exact .returned rfl (h.setPcb (h.slot.setFd fd
      ⟨rfl, fun _ => rfl, fun _ => rfl, fun _ => rfl, fun _ _ => rfl⟩))

theorem sysClose_same (h : SameCalls curr k k') (fd : Int) :
    SameOutcome viewValue curr (sysClose curr fd k) (sysClose curr fd k') := by
  unfold sysClose
  refine .guard rfl h fun h0 => .guard rfl h fun hr => ?_
  have hd := h.slot.fds fd.toNat (by
    simp only [fdend, entriesInFdArray] at hr ⊢
    omega)
  dsimp only
  rw [hd.inUse]
  refine .guard rfl h fun hin => ?_
  rw [hd.table hin]
  refine .guard rfl h fun _ => ?_
  split
  · exact .badCall
  · simp only [fdArrayHandleClose, if_neg h0, if_neg hr]
    exact .returned rfl (h.setPcb (h.slot.setFd _ (.refl _)))

theorem callRead_same (h : SameCalls curr k k') {fd : Int} (h0 : 0 ≤ fd) (h7 : fd ≤ 7)
    (hin : ((k.pcbMem curr).fdArray fd.toNat).inUse ≠ notinuse) (b : Buf) (nbytes : Int) :
    SameOutcome viewBuffer curr
      (callRead im curr fd b nbytes k
        (((k.pcbMem curr).fdArray fd.toNat).operationstable.entry .read))
      (callRead im curr fd b nbytes k'
        (((k.pcbMem curr).fdArray fd.toNat).operationstable.entry .read)) := by
  have hlt : fd.toNat < entriesInFdArray := by
    simp only [entriesInFdArray]
    omega
  rcases hfn : ((k.pcbMem curr).fdArray fd.toNat).operationstable.entry .read with _ | fn
  · exact .badCall
  rcases fn with op | op | op | op <;> cases op <;> try exact .badCall
  · exact .returned rfl h
  · obtain ⟨ret, b', p₁, p₁', hr, hr', hs⟩ :=
      @fsRead_same im _ _ _ nbytes h.slot hlt hin (entry_fs hfn) (some b)
    rw [callRead, callRead, hr, hr']
    exact .returned rfl (h.setPcb hs)
  · obtain ⟨ret, b', p₁, p₁', hr, hr', hs⟩ :=
      @dirRead_same im _ _ _ nbytes h.slot hlt hin b
    rw [callRead, callRead, hr, hr']
    exact .returned rfl (h.setPcb hs)
  · rw [callRead, callRead, h.kernel, terminalRead_withProcs]
    cases hr : terminalRead b nbytes k with
    | none => exact .blocked
    | some r => exact .returned rfl (h.blind (terminalRead_pcbMem hr))

theorem sysRead_same (h : SameCalls curr k k') (fd : Int) (buf : Option Buf) (nbytes : Int) :
    SameOutcome viewBuffer curr (sysRead im curr fd buf nbytes k)
      (sysRead im curr fd buf nbytes k') := by
  unfold sysRead
  refine .guard rfl h fun hr => ?_
  simp only [fdend] at hr
  cases buf with
  | none => exact .returned rfl h
  | some b =>
    refine .guard rfl h fun _ => ?_
    have hd := h.slot.fds fd.toNat (by
      simp only [entriesInFdArray]
      omega)
    dsimp only
    rw [hd.inUse]
    refine .guard rfl h fun hin => ?_
    rw [hd.table hin]
    exact callRead_same h (by omega) (by omega) hin b nbytes

theorem terminalWrite_pcbMem (b : Buf) (nbytes : Int) (k : Kernel) :
    (terminalWrite b nbytes k).2.pcbMem = k.pcbMem :=
  (SameButScreen.putsModified _ k).pcbMem_eq

theorem callWrite_same (h : SameCalls curr k k') (b : Buf) (nbytes : Int) (fn : Option FileFn) :
    SameOutcome viewValue curr (callWrite b nbytes k fn) (callWrite b nbytes k' fn) := by
  rcases fn with _ | fn
  · exact .badCall
  rcases fn with op | op | op | op <;> cases op <;> try exact .badCall
  · rw [callWrite, callWrite]
    cases rtcWrite (some (loadWord b)) with
    | returned ret => exact .returned rfl h
    | blocked => exact .blocked
    | badCall => exact .badCall
  · exact .returned rfl h
  · exact .returned rfl h
  · rw [callWrite, callWrite, h.kernel, terminalWrite_withProcs]
    exact .returned rfl (h.blind (terminalWrite_pcbMem b nbytes k))

theorem sysWrite_same (h : SameCalls curr k k') (fd : Int) (buf : Option Buf) (nbytes : Int) :
    SameOutcome viewValue curr (sysWrite curr fd buf nbytes k)
      (sysWrite curr fd buf nbytes k') := by
  unfold sysWrite
  refine .guard rfl h fun hr => ?_
  simp only [fdend] at hr
  cases buf with
  | none => exact .returned rfl h
  | some b =>
    have hd := h.slot.fds fd.toNat (by
      simp only [entriesInFdArray]
      omega)
    dsimp only
    rw [hd.inUse]
    refine .guard rfl h fun hin => ?_
    rw [hd.table hin]
    exact callWrite_same h b nbytes _

end Calls

/-! ## The slot after `execute` -/

section Start

variable {im : Image} {sp pid : Nat} {prog : Program} {eip : UInt32} {k k₁ : Kernel}

theorem loadProgram_withProcs (k₀ : Kernel) (im : Image) (inode : UInt32) (k : Kernel) :
    loadProgram im inode (k.withProcs k₀) =
      ((loadProgram im inode k).1, (loadProgram im inode k).2.withProcs k₀) := by
  unfold loadProgram
  dsimp only
  rw [show (k.withProcs k₀).paging = k.paging from rfl,
    show (k.withProcs k₀).phys = k.phys from rfl]
  cases k.paging.translate .supervisor virtualAddressForExecutableData with
  | none => rfl
  | some pa =>
    dsimp only
    split <;> rfl

/-- A program starts over any process table alike. -/
theorem startProgram_withProcs (k₀ : Kernel)
    (h : startProgram im sp prog pid k = .started pid eip k₁) :
    ∃ k₂, startProgram im sp prog pid (k.withProcs k₀) = .started pid eip k₂ ∧
      k₂ = k₁.withProcs k₂ ∧ k₂.pcbMem (pcbAddr pid) =
        startedPcb pid sp prog (k₀.pcbMem (pcbAddr pid)) := by
  unfold startProgram at h ⊢
  dsimp only at h ⊢
  rw [show ((((k.withProcs k₀).setRunning pid true).setPid pid).changeProcess pid) =
    (((k.setRunning pid true).setPid pid).changeProcess pid).withProcs
      (k₀.setRunning pid true) from rfl, loadProgram_withProcs]
  dsimp only
  split at h
  · rename_i hload
    injection h with _ h₂ h₃
    rw [contextSwitch_eq] at h₃
    rw [if_pos hload, contextSwitch_eq, ← h₂, ← h₃]
    exact ⟨_, rfl, rfl, Function.update_self _ _ _⟩
  · cases h

/-- The arguments that `execute` hands on: they start after the first byte of the command. -/
theorem lookupProgram_args {command : CString} (h : lookupProgram im command = some prog) :
    1 ≤ prog.argIdx ∧ prog.argSize ≤ strlen command := by
  unfold lookupProgram at h
  dsimp only at h
  obtain ⟨-, h⟩ := Option.ite_none_left_eq_some.1 h
  obtain ⟨-, h⟩ := Option.ite_none_left_eq_some.1 h
  obtain ⟨-, h⟩ := Option.ite_none_left_eq_some.1 h
  injection h with h
  subst h
  exact ⟨Nat.le_add_left 1 _, (List.takeWhile_prefix _).length_le⟩

/-- **`execute` makes two slots agree**, whatever they held. -/
theorem sameSlot_started (pid sp : Nat) (hidx : 1 ≤ prog.argIdx) (hsize : prog.argSize ≤ 128)
    (p p' : Pcb) : SameSlot (startedPcb pid sp prog p) (startedPcb pid sp prog p') where
  fds i hi := by
    by_cases h2 : 2 ≤ i
    · -- a free descriptor
      have hfree (old : Pcb) : ((startedPcb pid sp prog old).fdArray i).inUse = notinuse :=
        (fdInv_started pid sp prog old).2 i h2 (Nat.le_of_lt_succ hi)
      exact ⟨by rw [hfree, hfree], fun h => absurd (hfree p) h, fun h => absurd (hfree p) h,
        fun h => absurd (hfree p) h, fun h => absurd (hfree p) h⟩
    · obtain rfl | rfl : i = 0 ∨ i = 1 := by omega
      · exact ⟨rfl, fun _ => rfl, fun _ => rfl, fun _ => rfl, nofun⟩
      · exact ⟨rfl, fun _ => rfl, fun _ => rfl, fun _ => rfl, nofun⟩
  argSize := rfl
  args := by
    obtain ⟨hle, -⟩ := strlenMax_spec (fun i => prog.argArr (prog.argIdx + i))
      (prog.argSize - prog.argIdx)
    have harr (old : Pcb) : (startedPcb pid sp prog old).argArr =
        store (store old.argArr 0 (fun _ => 0) pcbMaxArgs) 0
          (fun i => prog.argArr (prog.argIdx + i))
          (strlenMax (fun i => prog.argArr (prog.argIdx + i)) (prog.argSize - prog.argIdx)) := by
      simp only [startedPcb, newPcb, setUpFdsandargs]
      split <;> rfl
    generalize strlenMax (fun i => prog.argArr (prog.argIdx + i))
      (prog.argSize - prog.argIdx) = n at hle harr
    have hn : n < 0 + pcbMaxArgs := by
      simp only [pcbMaxArgs]
      omega
    have hend (old : Pcb) : (startedPcb pid sp prog old).argArr n = 0 := by
      rw [harr, store_of_not (by omega), store_of_lt (by omega) hn]
    refine ⟨n, hend p, fun i hi => ?_⟩
    rcases Nat.lt_or_eq_of_le hi with hlt | rfl
    · rw [harr, harr, store_of_lt (by omega) (by omega), store_of_lt (by omega) (by omega)]
    · rw [hend, hend]

end Start

/-! ## A process and its keyboard -/

/-- A call of the process, or a keyboard interrupt. -/
inductive ProcCall
  | open (filename : Option CString) (dirEntry : Dentry)
  | close (fd : Int)
  | read (fd : Int) (buf : Option Buf) (nbytes : Int)
  | write (fd : Int) (buf : Option Buf) (nbytes : Int)
  | getargs (buf : Option Buf) (nbytes : Int)
  | key (ev : KeyEvent)

/-- How a call ended, and the kernel it left. A call that spins has changed nothing yet: it is made
again after the next interrupt. -/
def settle {α : Type} (view : α → (Int × Option Buf) × Kernel) (k : Kernel) :
    Outcome α → Outcome (Int × Option Buf) × Kernel
  | .returned a => (.returned (view a).1, (view a).2)
  | .blocked => (.blocked, k)
  | .badCall => (.badCall, k)

/-- The process whose PCB is at `curr`, driven by its calls and the keyboard. -/
def callStep (im : Image) (curr : Nat) (k : Kernel) :
    ProcCall → Outcome (Int × Option Buf) × Kernel
  | .open name d => settle viewValue k (sysOpen im curr name d k)
  | .close fd => settle viewValue k (sysClose curr fd k)
  | .read fd buf nbytes => settle viewBuffer k (sysRead im curr fd buf nbytes k)
  | .write fd buf nbytes => settle viewValue k (sysWrite curr fd buf nbytes k)
  | .getargs buf nbytes => (.returned (getargs buf nbytes (k.pcbMem curr)), k)
  | .key ev => ((checkInput ev k).elim (.badCall, k) fun k => (.returned (0, none), k))

section TwoRuns

variable {im : Image} {curr : Nat} {k k' : Kernel}

theorem SameOutcome.settle {α : Type} {view : α → (Int × Option Buf) × Kernel}
    {x y : Outcome α} (h : SameOutcome view curr x y) (hk : SameCalls curr k k') :
    (settle view k x).1 = (settle view k' y).1 ∧
      SameCalls curr (settle view k x).2 (settle view k' y).2 := by
  cases h with
  | returned answer kernel => exact ⟨congrArg Outcome.returned answer, kernel⟩
  | blocked => exact ⟨rfl, hk⟩
  | badCall => exact ⟨rfl, hk⟩

/-- A copy of two strings that are the same up to their NUL. -/
theorem strncpy_same {src src' : Buf} {n : Nat} (h0 : src n = 0) (h : ∀ i ≤ n, src' i = src i)
    (dest : Buf) (count : Nat) : strncpy dest src' count = strncpy dest src count := by
  funext i
  by_cases hi : i < count
  · by_cases hn : n ≤ i
    · rw [strncpy_of_nul hi hn h0, strncpy_of_nul hi hn ((h n (Nat.le_refl n)).trans h0)]
    · by_cases hnul : ∃ j ≤ i, src j = 0
      · obtain ⟨j, hj, hsrc⟩ := hnul
        rw [strncpy_of_nul hi hj hsrc, strncpy_of_nul hi hj ((h j (by omega)).trans hsrc)]
      · have hne (j : Nat) (hj : j ≤ i) : src j ≠ 0 := fun hsrc => hnul ⟨j, hj, hsrc⟩
        rw [strncpy_of_lt hi hne, strncpy_of_lt hi fun j hj => (h j (by omega)).symm ▸ hne j hj]
        exact h i (by omega)
  · rw [strncpy, if_neg hi, strncpy, if_neg hi]

theorem getargs_same {p p' : Pcb} (h : SameSlot p p') (buf : Option Buf) (nbytes : Int) :
    getargs buf nbytes p' = getargs buf nbytes p := by
  obtain ⟨n, h0, hn⟩ := h.args
  unfold getargs
  cases buf with
  | none => rfl
  | some b =>
    dsimp only
    rw [h.argSize, strncpy_same h0 hn]

/-- **A step of the process tells two such kernels not apart**, and leaves two such kernels. -/
theorem callStep_same (h : SameCalls curr k k') (e : ProcCall) :
    (callStep im curr k e).1 = (callStep im curr k' e).1 ∧
      SameCalls curr (callStep im curr k e).2 (callStep im curr k' e).2 := by
  cases e with
  | «open» name d => exact (sysOpen_same h name d).settle h
  | close fd => exact (sysClose_same h fd).settle h
  | read fd buf nbytes => exact (sysRead_same h fd buf nbytes).settle h
  | write fd buf nbytes => exact (sysWrite_same h fd buf nbytes).settle h
  | getargs buf nbytes =>
    exact ⟨congrArg Outcome.returned (getargs_same h.slot buf nbytes).symm, h⟩
  | key ev =>
    simp only [callStep]
    rw [h.kernel, checkInput_withProcs]
    cases hk : checkInput ev k with
    | none => exact ⟨rfl, h.kernel ▸ h⟩
    | some k₁ => exact ⟨rfl, h.blind (checkInput_procs hk).pcbMem⟩

/-- **Two starts of a program over different PCBs** leave kernels that no call can tell apart. -/
theorem execute_same {sp pid : Nat} {cmd : Option CString} {eip : UInt32} {k k₁ : Kernel}
    (p p' : Pcb) (h : execute im sp cmd (k.setPcb (pcbAddr pid) p) = .started pid eip k₁) :
    ∃ k₂, execute im sp cmd (k.setPcb (pcbAddr pid) p') = .started pid eip k₂ ∧
      SameCalls (pcbAddr pid) k₁ k₂ := by
  rcases execute_cases im sp cmd (k.setPcb (pcbAddr pid) p) with
    ⟨k', hfail, -⟩ | ⟨command, prog, pid', rfl, hlen, hlook, hfree, heq⟩
  · rw [hfail] at h
    cases h
  rw [heq] at h
  obtain ⟨rfl, hk₁⟩ := startProgram_started h
  obtain ⟨hidx, hsize⟩ := lookupProgram_args hlook
  have hfree' : freeSlot (k.setPcb (pcbAddr pid) p') = some pid := hfree
  obtain ⟨k₂, hstart', hk₂, hpcb'⟩ := startProgram_withProcs (k.setPcb (pcbAddr pid) p') h
  have hexec : execute im sp (some command) (k.setPcb (pcbAddr pid) p') = .started pid eip k₂ :=
    (execute_of_lookup hlen hlook hfree').trans hstart'
  refine ⟨k₂, hexec, hk₂, ?_⟩
  have hpcb : k₁.pcbMem (pcbAddr pid) = startedPcb pid sp prog p := by
    rw [hk₁]
    simp only [Function.update_self, Kernel.setPcb_self]
  rw [hpcb, hpcb', Kernel.setPcb_self]
  exact sameSlot_started pid sp hidx (hsize.trans hlen) p p'

/-- **A reused PCB leaks nothing.** Whatever was left in the slot, the new process gets the same
answers and the same bytes from every call, and leaves the same kernel but for its PCB. -/
theorem reuse_leaks_nothing {sp pid : Nat} {cmd : Option CString} {eip : UInt32} {k k₁ : Kernel}
    (p p' : Pcb) (h : execute im sp cmd (k.setPcb (pcbAddr pid) p) = .started pid eip k₁) :
    ∃ k₂, execute im sp cmd (k.setPcb (pcbAddr pid) p') = .started pid eip k₂ ∧
      ∀ (calls : ℕ → ProcCall) (n : ℕ),
        outputAt (callStep im (pcbAddr pid)) k₁ calls n =
          outputAt (callStep im (pcbAddr pid)) k₂ calls n ∧
        (stateAt (callStep im (pcbAddr pid)) k₁ calls n).phys =
          (stateAt (callStep im (pcbAddr pid)) k₂ calls n).phys := by
  obtain ⟨k₂, hk₂, hsame⟩ := execute_same p p' h
  refine ⟨k₂, hk₂, fun calls n => ?_⟩
  have hstep (n : ℕ) (a b : Kernel) (hab : SameCalls (pcbAddr pid) a b) :=
    @callStep_same im _ _ _ hab (calls n)
  refine ⟨outputs_eq (SameCalls (pcbAddr pid)) hsame hstep n, ?_⟩
  rw [(states_related (SameCalls (pcbAddr pid)) hsame hstep n).kernel]
  rfl

/-- What a program with six open files leaves behind. -/
def usedPcb : Pcb :=
  { (default : Pcb) with
    fdArray := fun i => ⟨.wild i, 3, 40, inuse, 2, 1, 1⟩
    argSize := 9
    argArr := fun _ => 97 }

/-- The first shell, in a fresh slot and in a used one. -/
theorem reuse_leaks_nothing_shell : ∃ eip k₁ k₂,
    execute shellImage 0x7FFF00 (some shell) ((bootState default).setPcb (pcbAddr 1) default) =
      .started 1 eip k₁ ∧
    execute shellImage 0x7FFF00 (some shell) ((bootState default).setPcb (pcbAddr 1) usedPcb) =
      .started 1 eip k₂ ∧
    ∀ calls n, outputAt (callStep shellImage (pcbAddr 1)) k₁ calls n =
      outputAt (callStep shellImage (pcbAddr 1)) k₂ calls n := by
  obtain ⟨prog, k₁, -, hstart, -⟩ := execute_shell 0x7FFF00 hasShell_shellImage
    (show freeSlot ((bootState default).setPcb (pcbAddr 1) default) = some 1 by decide)
  obtain ⟨k₂, hk₂, hrun⟩ := reuse_leaks_nothing default usedPcb hstart
  exact ⟨_, k₁, k₂, hstart, hk₂, fun calls n => (hrun calls n).1⟩

end TwoRuns

end Kernel391

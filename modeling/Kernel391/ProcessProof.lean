import Kernel391.KeyboardProof
import Kernel391.PagingProof

/-!
# Starting and ending programs: what the calls do

One description for each way `execute`, `halt` and `scheduler_next` can end. Later proofs about
processes use these and never unfold the functions.
-/

namespace Kernel391

open Bytes

/-! ## Updates of the kernel -/

@[simp] theorem Kernel.setPcb_self (k : Kernel) (addr : Nat) (p : Pcb) :
    (k.setPcb addr p).pcbMem addr = p := Function.update_self _ _ _

theorem Kernel.setPcb_of_ne {k : Kernel} {addr a : Nat} {p : Pcb} (h : a ≠ addr) :
    (k.setPcb addr p).pcbMem a = k.pcbMem a := Function.update_of_ne h _ _

@[simp] theorem Kernel.setTss_pcbMem (k : Kernel) (pid : Nat) :
    (k.setTss pid).pcbMem = k.pcbMem := rfl

theorem Kernel.setPid_pid (pid : Nat) (k : Kernel) (t : TermId) :
    ((k.setPid pid).terminals t).pid =
      if t = k.currentTerm then pid else (k.terminals t).pid := by
  by_cases ht : t = k.currentTerm
  · rw [if_pos ht, ht]
    simp [Kernel.setPid]
  · rw [if_neg ht]
    simp [Kernel.setPid, ht]

theorem Kernel.setPid_esp (pid : Nat) (k : Kernel) (t : TermId) :
    ((k.setPid pid).terminals t).esp = (k.terminals t).esp := by
  by_cases ht : t = k.currentTerm
  · rw [ht]
    simp [Kernel.setPid]
  · simp [Kernel.setPid, ht]

/-! ## `execute` -/

section Execute

variable {im : Image} {sp pid pid' : Nat} {prog : Program} {eip : UInt32} {k k' : Kernel}
  {cmd : Option CString}

theorem loadProgram_eq (im : Image) (inode : UInt32) (k : Kernel) :
    (loadProgram im inode k).2 = { k with phys := (loadProgram im inode k).2.phys } := by
  unfold loadProgram
  split
  · rfl
  · dsimp only
    split <;> rfl

/-- The PCB of a program that was just started. -/
def startedPcb (pid sp : Nat) (prog : Program) (old : Pcb) : Pcb :=
  { newPcb pid sp prog old with parentEsp := { esp := sp, currentProcess := pcbAddr pid } }

theorem contextSwitch_eq (sp addr pid : Nat) (p : Pcb) (k : Kernel) :
    contextSwitch sp addr ((k.setPcb addr p).setTss pid) =
      { k.setTss pid with
        pcbMem := Function.update k.pcbMem addr
          { p with parentEsp := { esp := sp, currentProcess := addr } }
        cpu := addr } := by
  rw [contextSwitch, Kernel.setTss_pcbMem, Kernel.setPcb_self]
  exact congrArg (fun m => { k.setTss pid with pcbMem := m, cpu := addr })
    (Function.update_idem p { p with parentEsp := { esp := sp, currentProcess := addr } } k.pcbMem)

/-- Everything but the loaded program that `execute` changes when it starts one. -/
theorem startProgram_started (h : startProgram im sp prog pid k = .started pid' eip k') :
    pid' = pid ∧ k' = { (((k.setRunning pid true).setPid pid).changeProcess pid).setTss pid with
      phys := k'.phys
      pcbMem := Function.update k.pcbMem (pcbAddr pid)
        (startedPcb pid sp prog (k.pcbMem (pcbAddr pid)))
      cpu := pcbAddr pid } := by
  unfold startProgram at h
  dsimp only at h
  split at h
  · injection h with h₁ _ h₃
    refine ⟨h₁.symm, ?_⟩
    rw [contextSwitch_eq, loadProgram_eq] at h₃
    rw [← h₃]
    rfl
  · cases h

/-- A load that faults has taken the slot. -/
theorem startProgram_pageFault (h : startProgram im sp prog pid k = .pageFault k') :
    k' = { ((k.setRunning pid true).setPid pid).changeProcess pid with phys := k'.phys } := by
  unfold startProgram at h
  dsimp only at h
  split at h
  · cases h
  · injection h with h
    subst h
    exact loadProgram_eq _ _ _

theorem startProgram_ne_failed : startProgram im sp prog pid k ≠ .failed k' := by
  unfold startProgram
  dsimp only
  split <;> nofun

/-- The slot `execute` takes is the least free one. -/
theorem freeSlot_eq_some : freeSlot k = some pid ↔
    k.processesRunning pid = false ∧ 1 ≤ pid ∧ pid ≤ 6 ∧
      ∀ i, 1 ≤ i → i < pid → k.processesRunning i = true := by
  rw [freeSlot, List.find?_range'_eq_some, List.mem_range'_1, Bool.not_eq_true']
  simp only [numberOfProcessesSupported]
  refine ⟨fun ⟨h₁, h₂, h₃⟩ => ⟨h₁, h₂.1, by omega, fun i h hi => by simpa using h₃ i h hi⟩,
    fun ⟨h₁, h₂, h₃, h₄⟩ => ⟨h₁, ⟨h₂, by omega⟩, fun i h hi => by simpa using h₄ i h hi⟩⟩

theorem freeSlot_eq_none : freeSlot k = none ↔
    ∀ i, 1 ≤ i → i ≤ 6 → k.processesRunning i = true := by
  rw [freeSlot, List.find?_range'_eq_none]
  simp only [numberOfProcessesSupported]
  exact ⟨fun h i h₁ h₂ => by simpa using h i h₁ (by omega),
    fun h i h₁ h₂ => by simpa using h i h₁ (by omega)⟩

/-- What an `execute` does after its checks. -/
theorem execute_of_lookup {command : CString} (hlen : strlen command ≤ 128)
    (hlook : lookupProgram im command = some prog) (hfree : freeSlot k = some pid) :
    execute im sp (some command) k = startProgram im sp prog pid k := by
  unfold execute
  dsimp only
  rw [if_neg (by simp only [maxBufSizeExecute]; omega), hlook]
  dsimp only
  rw [hfree]

/-- An `execute` fails, with some output at most, or gives the program the first free slot. -/
theorem execute_cases (im : Image) (sp : Nat) (cmd : Option CString) (k : Kernel) :
    (∃ k', execute im sp cmd k = .failed k' ∧ SameButScreen k k') ∨
    ∃ command prog pid, cmd = some command ∧ strlen command ≤ 128 ∧
      lookupProgram im command = some prog ∧ freeSlot k = some pid ∧
      execute im sp cmd k = startProgram im sp prog pid k := by
  rcases cmd with _ | command
  · exact .inl ⟨k, rfl, .refl k⟩
  by_cases hlen : strlen command > maxBufSizeExecute
  · exact .inl ⟨_, if_pos hlen, .printf _ _⟩
  have hlen' : strlen command ≤ 128 := Nat.not_lt.1 hlen
  cases hlook : lookupProgram im command with
  | none =>
    refine .inl ⟨k, ?_, .refl k⟩
    unfold execute
    dsimp only
    rw [if_neg hlen, hlook]
  | some prog =>
    cases hfree : freeSlot k with
    | none =>
      refine .inl ⟨_, ?_, .printf "Maximum number of processes reached\n" k⟩
      unfold execute
      dsimp only
      rw [if_neg hlen, hlook]
      dsimp only
      rw [hfree]
    | some pid =>
      exact .inr ⟨command, prog, pid, rfl, hlen', hlook, rfl, execute_of_lookup hlen' hlook hfree⟩

theorem execute_failed (h : execute im sp cmd k = .failed k') : SameButScreen k k' := by
  rcases execute_cases im sp cmd k with ⟨k₁, h₁, hs⟩ | ⟨_, _, _, _, _, _, _, h₁⟩
  · rw [h₁] at h
    injection h with h
    exact h ▸ hs
  · rw [h₁] at h
    exact absurd h startProgram_ne_failed

theorem execute_started (h : execute im sp cmd k = .started pid eip k') :
    ∃ command prog, cmd = some command ∧ lookupProgram im command = some prog ∧
      freeSlot k = some pid ∧ startProgram im sp prog pid k = .started pid eip k' := by
  rcases execute_cases im sp cmd k with ⟨k₁, h₁, -⟩ | ⟨c, prog, p, rfl, -, hl, hf, h₁⟩
  · rw [h₁] at h
    cases h
  · rw [h₁] at h
    obtain rfl := (startProgram_started h).1
    exact ⟨c, prog, rfl, hl, hf, h⟩

/-- **What starting a program changes.** -/
structure Started (sp pid : Nat) (k k' : Kernel) : Prop where
  free : freeSlot k = some pid
  pcb : ∃ prog, k'.pcbMem = Function.update k.pcbMem (pcbAddr pid)
    (startedPcb pid sp prog (k.pcbMem (pcbAddr pid)))
  kernel : k' = { (((k.setRunning pid true).setPid pid).changeProcess pid).setTss pid with
    phys := k'.phys, pcbMem := k'.pcbMem, cpu := pcbAddr pid }

namespace Started

variable (h : Started sp pid k k')
include h

theorem processesRunning : k'.processesRunning = Function.update k.processesRunning pid true := by
  rw [h.kernel]
  rfl

theorem isOn : k'.isOn = k.isOn := by
  rw [h.kernel]
  rfl

theorem terminals : k'.terminals = (k.setPid pid).terminals := by
  rw [h.kernel]
  rfl

theorem terminals_pid (t : TermId) :
    (k'.terminals t).pid = if t = k.currentTerm then pid else (k.terminals t).pid := by
  rw [h.terminals, Kernel.setPid_pid]

theorem terminals_esp (t : TermId) : (k'.terminals t).esp = (k.terminals t).esp := by
  rw [h.terminals, Kernel.setPid_esp]

theorem paging : k'.paging = (k.changeProcess pid).paging := by
  rw [h.kernel]
  rfl

theorem tssEsp0 : k'.tssEsp0 = endKmem - pid * kernelMemSize := by
  rw [h.kernel]
  rfl

theorem cpu : k'.cpu = pcbAddr pid := by rw [h.kernel]

theorem currentTerm : k'.currentTerm = k.currentTerm := by
  rw [h.kernel]
  rfl

theorem visableTerm : k'.visableTerm = k.visableTerm := by
  rw [h.kernel]
  rfl

end Started

theorem started_of_execute (h : execute im sp cmd k = .started pid eip k') :
    Started sp pid k k' := by
  obtain ⟨_, prog, _, _, hfree, hstart⟩ := execute_started h
  have hk' := (startProgram_started hstart).2
  have hpcb : k'.pcbMem = Function.update k.pcbMem (pcbAddr pid)
      (startedPcb pid sp prog (k.pcbMem (pcbAddr pid))) := by
    rw [hk']
  refine ⟨hfree, ⟨prog, hpcb⟩, ?_⟩
  rw [hpcb]
  exact hk'

theorem execute_pageFault (h : execute im sp cmd k = .pageFault k') :
    ∃ command prog pid, cmd = some command ∧ lookupProgram im command = some prog ∧
      freeSlot k = some pid ∧ startProgram im sp prog pid k = .pageFault k' := by
  rcases execute_cases im sp cmd k with ⟨k₁, h₁, -⟩ | ⟨c, prog, p, rfl, -, hl, hf, h₁⟩
  · rw [h₁] at h
    cases h
  · rw [h₁] at h
    exact ⟨c, prog, p, rfl, hl, hf, h⟩

end Execute

/-! ## Programs that fit -/

/-- The file is not longer than what the user page has room for. -/
def Fits (im : Image) (inode : UInt32) : Prop :=
  (readLocal im inode 0 extendedPageSize).1 ≤ (userPageEnd - virtualAddressForExecutableData : Nat)

/-- The image has an executable file of the name `shell`. -/
def HasShell (im : Image) : Prop :=
  ∃ prog, lookupProgram im shell = some prog ∧ Fits im prog.inodeNum

theorem readData_ret (im : Image) (inode offset length : UInt32) (b b' : Buf) :
    (readData im inode offset (some b) length).1 =
      (readData im inode offset (some b') length).1 := by
  simp only [readData, apply_ite Prod.fst]

theorem loadProgram_fst (im : Image) (inode : UInt32) {k : Kernel} {pa : Nat}
    (h : k.paging.translate .supervisor virtualAddressForExecutableData = some pa) :
    (loadProgram im inode k).1 = true ↔ Fits im inode := by
  unfold loadProgram
  rw [h]
  dsimp only
  rw [readData_ret im inode 0 extendedPageSize _ fun _ => 0]
  change _ ↔ (readData im inode 0 (some fun _ => 0) extendedPageSize).1 ≤ _
  split
  · exact iff_of_true rfl ‹_›
  · exact iff_of_false Bool.false_ne_true ‹_›

theorem toNat_ofNat_pid {pid : Nat} (h : pid ≤ 6) : (UInt32.ofNat pid).toNat = pid :=
  UInt32.toNat_ofNat_of_lt' (by have : UInt32.size = 4294967296 := rfl; omega)

theorem changeProcess_user {pid : Nat} (k : Kernel) (h₁ : 1 ≤ pid) (h₆ : pid ≤ 6) :
    (k.changeProcess pid).paging.pageDirectory userMemLocation = userEntry (some pid) := by
  rw [Kernel.changeProcess, changeProcess_eq, toNat_ofNat_pid h₆, if_pos ⟨h₁, h₆⟩]
  exact Function.update_self userMemLocation _ k.paging.pageDirectory

/-- The address of the program, once the page of `pid` is mapped. -/
theorem translate_program {k : Kernel} {pid : Nat} (h₁ : 1 ≤ pid) (h₆ : pid ≤ 6) :
    (k.changeProcess pid).paging.translate .supervisor virtualAddressForExecutableData =
      some (userFrame pid + 0x48000) := by
  obtain ⟨ha, hl, hf⟩ := userEntry_some ⟨h₁, h₆⟩ .supervisor
  have hdir : (k.changeProcess pid).paging.pageDirectory
      (X86.dirIndex virtualAddressForExecutableData) = userEntry (some pid) :=
    changeProcess_user k h₁ h₆
  rw [Paging.translate, X86.translate_large (by rw [hdir]; exact ha) (by rw [hdir]; exact hl),
    hdir, hf]
  rfl

section Start

variable {im : Image} {sp pid pid' : Nat} {prog : Program} {eip : UInt32} {k k' : Kernel}

theorem Started.user_entry (hs : Started sp pid k k') :
    k'.paging.pageDirectory userMemLocation = userEntry (some pid) := by
  obtain ⟨-, h₁, h₆, -⟩ := freeSlot_eq_some.1 hs.free
  rw [hs.paging]
  exact changeProcess_user k h₁ h₆

/-- Whether a program starts depends on its length alone. -/
theorem startProgram_of_fits (sp : Nat) (k : Kernel) (h₁ : 1 ≤ pid) (h₆ : pid ≤ 6)
    (h : Fits im prog.inodeNum) :
    ∃ k', startProgram im sp prog pid k = .started pid prog.eip k' := by
  have hload := (loadProgram_fst im prog.inodeNum
    (translate_program (k := (k.setRunning pid true).setPid pid) h₁ h₆)).2 h
  unfold startProgram
  dsimp only
  rw [if_pos hload]
  exact ⟨_, rfl⟩

theorem startProgram_of_not_fits (sp : Nat) (k : Kernel) (h₁ : 1 ≤ pid) (h₆ : pid ≤ 6)
    (h : ¬ Fits im prog.inodeNum) :
    ∃ k', startProgram im sp prog pid k = .pageFault k' := by
  have hload := mt (loadProgram_fst im prog.inodeNum
    (translate_program (k := (k.setRunning pid true).setPid pid) h₁ h₆)).1 h
  unfold startProgram
  dsimp only
  rw [if_neg hload]
  exact ⟨_, rfl⟩

/-- A program that starts fits, and starts at its entry point. -/
theorem fits_of_started (h₁ : 1 ≤ pid) (h₆ : pid ≤ 6)
    (h : startProgram im sp prog pid k = .started pid' eip k') :
    Fits im prog.inodeNum ∧ prog.eip = eip := by
  by_cases hfits : Fits im prog.inodeNum
  · obtain ⟨k₁, hk₁⟩ := startProgram_of_fits sp k h₁ h₆ hfits
    rw [hk₁] at h
    injection h with _ heip
    exact ⟨hfits, heip⟩
  · obtain ⟨k₁, hk₁⟩ := startProgram_of_not_fits sp k h₁ h₆ hfits
    rw [hk₁] at h
    cases h

theorem strlen_shell : strlen shell ≤ 128 := by decide

/-- The shell starts whenever there is a free slot. -/
theorem execute_shell (sp : Nat) (him : HasShell im) (hfree : freeSlot k = some pid) :
    ∃ prog k', lookupProgram im shell = some prog ∧
      execute im sp (some shell) k = .started pid prog.eip k' ∧
      startProgram im sp prog pid k = .started pid prog.eip k' := by
  obtain ⟨prog, hlook, hfits⟩ := him
  obtain ⟨-, h₁, h₆, -⟩ := freeSlot_eq_some.1 hfree
  obtain ⟨k', hk'⟩ := startProgram_of_fits sp k h₁ h₆ hfits
  exact ⟨prog, k', hlook, (execute_of_lookup strlen_shell hlook hfree).trans hk', hk'⟩

end Start

/-! ## Ending programs -/

section Halt

variable {im : Image} {sp curr addr : Nat} {fds : List Nat} {status : UInt8} {k k' : Kernel}
  {fd ret : Int} {o : Output}

/-- The PCB fields that link a process to its parent. -/
structure SameLinks (p p' : Pcb) : Prop where
  parent : p'.parent = p.parent
  processId : p'.processId = p.processId
  parentEsp : p'.parentEsp = p.parentEsp
  parentProcessId : p'.parentProcessId = p.parentProcessId

theorem SameLinks.trans {p p₁ p₂ : Pcb} (h₁ : SameLinks p p₁) (h₂ : SameLinks p₁ p₂) :
    SameLinks p p₂ :=
  ⟨h₂.parent.trans h₁.parent, h₂.processId.trans h₁.processId, h₂.parentEsp.trans h₁.parentEsp,
    h₂.parentProcessId.trans h₁.parentProcessId⟩

/-- Descriptors of `p'` are as in `p`, or were closed. -/
def ClosedFds (p p' : Pcb) : Prop :=
  ∀ i, p'.fdArray i = p.fdArray i ∨ (2 ≤ i ∧ p'.fdArray i = closedFd)

theorem ClosedFds.trans {p p₁ p₂ : Pcb} (h₁ : ClosedFds p p₁) (h₂ : ClosedFds p₁ p₂) :
    ClosedFds p p₂ := fun i => by
  rcases h₂ i with h | h
  · rw [h]
    exact h₁ i
  · exact .inr h

/-- `k'` differs from `k` at most in files that were closed. -/
structure SameButFds (k k' : Kernel) : Prop where
  kernel : k' = { k with pcbMem := k'.pcbMem }
  links : ∀ a, SameLinks (k.pcbMem a) (k'.pcbMem a)
  status : ∀ a, (k'.pcbMem a).status = (k.pcbMem a).status
  fds : ∀ a, ClosedFds (k.pcbMem a) (k'.pcbMem a)

theorem SameButFds.refl (k : Kernel) : SameButFds k k :=
  ⟨rfl, fun _ => ⟨rfl, rfl, rfl, rfl⟩, fun _ => rfl, fun _ _ => .inl rfl⟩

theorem SameButFds.trans {k₁ k₂ : Kernel} (h₁ : SameButFds k k₁) (h₂ : SameButFds k₁ k₂) :
    SameButFds k k₂ where
  kernel := by rw [h₂.kernel, h₁.kernel]
  links a := (h₁.links a).trans (h₂.links a)
  status a := (h₂.status a).trans (h₁.status a)
  fds a := (h₁.fds a).trans (h₂.fds a)

theorem closedFds_setFd {fd : Nat} (hfd : 2 ≤ fd) (p : Pcb) :
    ClosedFds p (p.setFd fd closedFd) := fun i => by
  by_cases h : i = fd
  · subst h
    exact .inr ⟨hfd, Function.update_self _ _ _⟩
  · exact .inl (Function.update_of_ne h _ _)

theorem sameButFds_setPcb {fd : Nat} (hfd : 2 ≤ fd) (k : Kernel) :
    SameButFds k (k.setPcb addr ((k.pcbMem addr).setFd fd closedFd)) := by
  refine ⟨rfl, fun a => ?_, fun a => ?_, fun a => ?_⟩ <;> by_cases h : a = addr
  · rw [h, Kernel.setPcb_self]
    exact ⟨rfl, rfl, rfl, rfl⟩
  · rw [Kernel.setPcb_of_ne h]
    exact ⟨rfl, rfl, rfl, rfl⟩
  · rw [h, Kernel.setPcb_self]
    rfl
  · rw [Kernel.setPcb_of_ne h]
  · rw [h, Kernel.setPcb_self]
    exact closedFds_setFd hfd _
  · rw [Kernel.setPcb_of_ne h]
    exact fun _ => .inl rfl

theorem sysClose_frame (h : sysClose curr fd k = .returned (ret, k')) : SameButFds k k' := by
  unfold sysClose at h
  dsimp only at h
  split at h
  · cases h
    exact .refl k
  split at h
  · cases h
    exact .refl k
  split at h
  · cases h
    exact .refl k
  split at h
  · cases h
    exact .refl k
  split at h
  · cases h
  · rw [fdArrayHandleClose, if_neg ‹¬ fd < 0›, if_neg ‹¬ (fd < fdstart ∨ fd > fdend)›] at h
    injection h with h
    rw [← (Prod.mk.inj h).2]
    have hrange := ‹¬ (fd < fdstart ∨ fd > fdend)›
    simp only [fdstart, fdend] at hrange
    exact sameButFds_setPcb (by omega) k

theorem closeAll_frame (h : closeAll curr fds k = some k') : SameButFds k k' := by
  induction fds generalizing k with
  | nil =>
    cases h
    exact .refl _
  | cons i fds ih =>
    rw [closeAll] at h
    split at h
    · split at h
      · exact (sysClose_frame ‹_›).trans (ih h)
      · cases h
    · exact ih h

/-- The status that `halt` stores in the PCB at `addr`, if it does. -/
def writeStatus (writes : Prop) [Decidable writes] (addr : Nat) (status : UInt8) (k : Kernel) :
    Kernel :=
  if writes then
    k.setPcb addr { k.pcbMem addr with status := UInt32.ofNat status.toNat }
  else k

theorem writeStatus_spec (writes : Prop) [Decidable writes] (addr : Nat) (status : UInt8)
    (k : Kernel) :
    writeStatus writes addr status k =
      { k with pcbMem := (writeStatus writes addr status k).pcbMem } ∧
    ∀ a, SameLinks (k.pcbMem a) ((writeStatus writes addr status k).pcbMem a) ∧
      ClosedFds (k.pcbMem a) ((writeStatus writes addr status k).pcbMem a) ∧
      ((writeStatus writes addr status k).pcbMem a).status =
        if writes ∧ a = addr then UInt32.ofNat status.toNat else (k.pcbMem a).status := by
  unfold writeStatus
  by_cases hw : writes
  · rw [if_pos hw]
    refine ⟨rfl, fun a => ?_⟩
    by_cases ha : a = addr
    · rw [ha, Kernel.setPcb_self, if_pos ⟨hw, rfl⟩]
      exact ⟨⟨rfl, rfl, rfl, rfl⟩, fun _ => .inl rfl, rfl⟩
    · rw [Kernel.setPcb_of_ne ha, if_neg fun h => ha h.2]
      exact ⟨⟨rfl, rfl, rfl, rfl⟩, fun _ => .inl rfl, rfl⟩
  · rw [if_neg hw]
    refine ⟨rfl, fun a => ?_⟩
    rw [if_neg fun h => hw h.1]
    exact ⟨⟨rfl, rfl, rfl, rfl⟩, fun _ => .inl rfl, rfl⟩

/-- **What ending a program changes**, once `halt` has come to the line that frees its slot. -/
structure Ended (curr : Nat) (status : UInt8) (k : Kernel) (o : Output) (k' : Kernel) : Prop where
  kernel : k' = { ((k.setRunning (k.pcbMem curr).processId false).setPid
      (k.pcbMem curr).parentProcessId).changeProcess (k.pcbMem curr).parentProcessId with
    pcbMem := k'.pcbMem
    tssEsp0 := endKmem - (k.pcbMem curr).parentProcessId * kernelMemSize
    cpu := getPcbAddress (k.pcbMem curr).parentEsp.esp }
  links : ∀ a, SameLinks (k.pcbMem a) (k'.pcbMem a)
  fds : ∀ a, ClosedFds (k.pcbMem a) (k'.pcbMem a)
  status : ∀ a, (k'.pcbMem a).status =
    if (k.pcbMem curr).processId > numTerminals ∧ a = (k.pcbMem curr).parent then
      UInt32.ofNat status.toNat
    else (k.pcbMem a).status
  output : o = .resumed (k'.pcbMem (k.pcbMem curr).parentEsp.currentProcess).status

namespace Ended

variable (h : Ended curr status k o k')
include h

theorem processesRunning : k'.processesRunning =
    Function.update k.processesRunning (k.pcbMem curr).processId false := by
  rw [h.kernel]
  rfl

theorem isOn : k'.isOn = k.isOn := by
  rw [h.kernel]
  rfl

theorem currentTerm : k'.currentTerm = k.currentTerm := by
  rw [h.kernel]
  rfl

theorem terminals : k'.terminals = (k.setPid (k.pcbMem curr).parentProcessId).terminals := by
  rw [h.kernel]
  rfl

theorem terminals_pid (t : TermId) : (k'.terminals t).pid =
    if t = k.currentTerm then (k.pcbMem curr).parentProcessId else (k.terminals t).pid := by
  rw [h.terminals, Kernel.setPid_pid]

theorem terminals_esp (t : TermId) : (k'.terminals t).esp = (k.terminals t).esp := by
  rw [h.terminals, Kernel.setPid_esp]

theorem paging : k'.paging = (k.changeProcess (k.pcbMem curr).parentProcessId).paging := by
  rw [h.kernel]
  rfl

theorem tssEsp0 : k'.tssEsp0 = endKmem - (k.pcbMem curr).parentProcessId * kernelMemSize := by
  rw [h.kernel]

theorem cpu : k'.cpu = getPcbAddress (k.pcbMem curr).parentEsp.esp := by rw [h.kernel]

end Ended

/-- `halt`, after the files are closed. -/
theorem haltRest_eq (curr : Nat) (status : UInt8) (k : Kernel) :
    haltRest curr status k =
      (closeAll curr (List.range entriesInFdArray)
        (k.setRunning (k.pcbMem curr).processId false)).map fun k₁ =>
        let k₂ := writeStatus ((k.pcbMem curr).processId > numTerminals)
          (k₁.pcbMem curr).parent status k₁
        restoreParent (k₂.pcbMem curr).parentEsp
          (((k₂.setPid (k.pcbMem curr).parentProcessId).changeProcess
            (k.pcbMem curr).parentProcessId).setTss (k.pcbMem curr).parentProcessId) :=
  Option.map_eq_bind.symm

theorem haltRest_spec (h : haltRest curr status k = some (o, k')) :
    Ended curr status k o k' := by
  rw [haltRest_eq] at h
  obtain ⟨k₁, hclose, h⟩ := Option.map_eq_some_iff.1 h
  have hs := closeAll_frame hclose
  dsimp only at h
  have hparent : (k₁.pcbMem curr).parent = (k.pcbMem curr).parent := (hs.links curr).parent
  obtain ⟨hk₂, hpcb⟩ := writeStatus_spec ((k.pcbMem curr).processId > numTerminals)
    (k.pcbMem curr).parent status k₁
  rw [hparent] at h
  generalize writeStatus ((k.pcbMem curr).processId > numTerminals) (k.pcbMem curr).parent status
    k₁ = k₂ at hk₂ hpcb h
  have hlinks : ∀ a, SameLinks (k.pcbMem a) (k₂.pcbMem a) :=
    fun a => (hs.links a).trans (hpcb a).1
  have hkern : k₂ =
      { k.setRunning (k.pcbMem curr).processId false with pcbMem := k₂.pcbMem } := by
    rw [hk₂, hs.kernel]
  have hesp := (hlinks curr).parentEsp
  rw [restoreParent, hesp] at h
  obtain ⟨ho, hk'⟩ := Prod.mk.inj h
  have hmem : k'.pcbMem = k₂.pcbMem := by
    rw [← hk']
    rfl
  refine ⟨?_, fun a => hmem ▸ hlinks a, fun a => hmem ▸ (hs.fds a).trans (hpcb a).2.1,
    fun a => ?_, ?_⟩
  · rw [hmem, ← hk', hkern]
    rfl
  · rw [hmem, (hpcb a).2.2, hs.status a]
    rfl
  · rw [hmem, ← ho]
    rfl

/-- A process that is no base process. -/
theorem halt_of_child (h : numTerminals < (k.pcbMem (getPcbAddress sp)).processId) :
    halt im sp status k = haltRest (getPcbAddress sp) status k := by
  unfold halt
  dsimp only
  rw [if_neg (by omega)]

/-- A base process, when its slot is free and the shell is about to start in its place. -/
def closedBase (pid : Nat) (k : Kernel) : Kernel :=
  (printf "Cannot close base process -- " k).setRunning pid false

theorem closedBase_running (pid : Nat) (k : Kernel) :
    (closedBase pid k).processesRunning = Function.update k.processesRunning pid false := by
  rw [closedBase, Kernel.setRunning, (SameButScreen.printf _ k).running_eq]

@[simp] theorem closedBase_pcbMem (pid : Nat) (k : Kernel) :
    (closedBase pid k).pcbMem = k.pcbMem := by
  rw [closedBase, Kernel.setRunning, (SameButScreen.printf _ k).pcbMem_eq]

@[simp] theorem closedBase_isOn (pid : Nat) (k : Kernel) : (closedBase pid k).isOn = k.isOn := by
  rw [closedBase, Kernel.setRunning, (SameButScreen.printf _ k).isOn_eq]

@[simp] theorem closedBase_currentTerm (pid : Nat) (k : Kernel) :
    (closedBase pid k).currentTerm = k.currentTerm := by
  rw [closedBase, Kernel.setRunning, (SameButScreen.printf _ k).currentTerm_eq]

@[simp] theorem closedBase_pid (pid : Nat) (k : Kernel) (t : TermId) :
    ((closedBase pid k).terminals t).pid = (k.terminals t).pid := by
  rw [closedBase, Kernel.setRunning]
  dsimp only
  rw [(SameButScreen.printf _ k).pid_eq]

@[simp] theorem closedBase_esp (pid : Nat) (k : Kernel) (t : TermId) :
    ((closedBase pid k).terminals t).esp = (k.terminals t).esp := by
  rw [closedBase, Kernel.setRunning]
  dsimp only
  rw [(SameButScreen.printf _ k).esp_eq]

theorem halt_of_root (h : (k.pcbMem (getPcbAddress sp)).processId ≤ numTerminals) {pid : Nat}
    {eip : UInt32} (he : execute im sp (some shell)
      (closedBase (k.pcbMem (getPcbAddress sp)).processId k) = .started pid eip k') :
    halt im sp status k = some (.started pid, k') := by
  unfold halt
  dsimp only
  rw [if_pos (by omega)]
  split <;> rename_i hr
  · cases hr.symm.trans he
    rfl
  · cases hr.symm.trans he
  · cases hr.symm.trans he

theorem halt_cases (h : halt im sp status k = some (o, k')) :
    (∃ pid eip, execute im sp (some shell)
      (closedBase (k.pcbMem (getPcbAddress sp)).processId k) = .started pid eip k') ∨
    (∃ k₁, execute im sp (some shell)
      (closedBase (k.pcbMem (getPcbAddress sp)).processId k) = .failed k₁ ∧
      haltRest (getPcbAddress sp) status k₁ = some (o, k')) ∨
    haltRest (getPcbAddress sp) status k = some (o, k') := by
  unfold halt at h
  dsimp only at h
  split at h
  · split at h
    · obtain ⟨-, rfl⟩ := Prod.mk.inj (Option.some.inj h)
      exact .inl ⟨_, _, ‹_›⟩
    · exact .inr (.inl ⟨_, ‹_›, h⟩)
    · cases h
  · exact .inr (.inr h)

end Halt

/-! ## The timer -/

section Timer

variable {im : Image} {sp : Nat} {k k' : Kernel} {o : Output}

/-- `scheduler_next` up to where it has mapped the screen of the next terminal. -/
def scheduled (sp : Nat) (k : Kernel) : Kernel :=
  let k := { k.saveEspEbp sp with currentTerm := k.currentTerm + 1 }
  if k.currentTerm = k.visableTerm then k.setWriteToVideomem else k.setWriteToBuffer k.currentTerm

/-- All of `scheduled` but the mapping. -/
theorem scheduled_eq (sp : Nat) (k : Kernel) : scheduled sp k =
    { k.saveEspEbp sp with
      currentTerm := k.currentTerm + 1, paging := (scheduled sp k).paging } := by
  unfold scheduled
  dsimp only
  split <;> rfl

@[simp] theorem scheduled_running (sp : Nat) (k : Kernel) :
    (scheduled sp k).processesRunning = k.processesRunning := by
  rw [scheduled_eq]
  rfl

@[simp] theorem scheduled_currentTerm (sp : Nat) (k : Kernel) :
    (scheduled sp k).currentTerm = k.currentTerm + 1 := by
  rw [scheduled_eq]

@[simp] theorem scheduled_visableTerm (sp : Nat) (k : Kernel) :
    (scheduled sp k).visableTerm = k.visableTerm := by
  rw [scheduled_eq]
  rfl

@[simp] theorem scheduled_isOn (sp : Nat) (k : Kernel) : (scheduled sp k).isOn = k.isOn := by
  rw [scheduled_eq]
  rfl

@[simp] theorem scheduled_pcbMem (sp : Nat) (k : Kernel) :
    (scheduled sp k).pcbMem = k.pcbMem := by
  rw [scheduled_eq]
  rfl

@[simp] theorem scheduled_tssEsp0 (sp : Nat) (k : Kernel) :
    (scheduled sp k).tssEsp0 = k.tssEsp0 := by
  rw [scheduled_eq]
  rfl

@[simp] theorem scheduled_cpu (sp : Nat) (k : Kernel) : (scheduled sp k).cpu = k.cpu := by
  rw [scheduled_eq]
  rfl

@[simp] theorem scheduled_terminals (sp : Nat) (k : Kernel) :
    (scheduled sp k).terminals = (k.saveEspEbp sp).terminals := by
  rw [scheduled_eq]

theorem scheduled_same (sp : Nat) (k : Kernel) : SameInput k (scheduled sp k) := by
  rw [scheduled_eq]
  refine ⟨fun t => ?_, rfl, rfl⟩
  by_cases h : t = k.currentTerm
  · subst h
    constructor <;> simp [Kernel.saveEspEbp]
  · constructor <;> simp [Kernel.saveEspEbp, h]

def Kernel.turnOn (t : TermId) (k : Kernel) : Kernel :=
  { k with isOn := Function.update k.isOn t true }

/-- Going on with a program that was interrupted. -/
def switchTo (t : TermId) (pid : Nat) (k : Kernel) : Kernel :=
  { (k.changeProcess pid).setTss pid with cpu := getPcbAddress (k.terminals t).esp }

@[simp] theorem turnOn_pcbMem (t : TermId) (k : Kernel) : (k.turnOn t).pcbMem = k.pcbMem := rfl
@[simp] theorem turnOn_running (t : TermId) (k : Kernel) :
    (k.turnOn t).processesRunning = k.processesRunning := rfl
@[simp] theorem turnOn_terminals (t : TermId) (k : Kernel) :
    (k.turnOn t).terminals = k.terminals := rfl
@[simp] theorem turnOn_currentTerm (t : TermId) (k : Kernel) :
    (k.turnOn t).currentTerm = k.currentTerm := rfl
@[simp] theorem turnOn_visableTerm (t : TermId) (k : Kernel) :
    (k.turnOn t).visableTerm = k.visableTerm := rfl
@[simp] theorem turnOn_isOn (t : TermId) (k : Kernel) :
    (k.turnOn t).isOn = Function.update k.isOn t true := rfl

@[simp] theorem turnOn_tssEsp0 (t : TermId) (k : Kernel) : (k.turnOn t).tssEsp0 = k.tssEsp0 := rfl

@[simp] theorem switchTo_pcbMem (t : TermId) (pid : Nat) (k : Kernel) :
    (switchTo t pid k).pcbMem = k.pcbMem := rfl
@[simp] theorem switchTo_running (t : TermId) (pid : Nat) (k : Kernel) :
    (switchTo t pid k).processesRunning = k.processesRunning := rfl
@[simp] theorem switchTo_terminals (t : TermId) (pid : Nat) (k : Kernel) :
    (switchTo t pid k).terminals = k.terminals := rfl
@[simp] theorem switchTo_currentTerm (t : TermId) (pid : Nat) (k : Kernel) :
    (switchTo t pid k).currentTerm = k.currentTerm := rfl
@[simp] theorem switchTo_isOn (t : TermId) (pid : Nat) (k : Kernel) :
    (switchTo t pid k).isOn = k.isOn := rfl

@[simp] theorem saveEspEbp_pid (sp : Nat) (k : Kernel) (t : TermId) :
    ((k.saveEspEbp sp).terminals t).pid = (k.terminals t).pid := by
  by_cases h : t = k.currentTerm
  · subst h
    simp [Kernel.saveEspEbp]
  · simp [Kernel.saveEspEbp, h]

theorem schedulerNext_on (hon : k.isOn (k.currentTerm + 1) = true) :
    schedulerNext im sp k = some (.switched, switchTo (k.currentTerm + 1)
      (k.terminals (k.currentTerm + 1)).pid (scheduled sp k)) := by
  rw [← saveEspEbp_pid sp k]
  unfold schedulerNext
  dsimp only
  change ite ((scheduled sp k).isOn (k.currentTerm + 1) = false) _ _ = _
  rw [scheduled_isOn, if_neg (ne_false_of_eq_true hon)]
  rfl

theorem schedulerNext_off (hoff : k.isOn (k.currentTerm + 1) = false) :
    schedulerNext im sp k =
      match execute im sp (some shell) ((scheduled sp k).turnOn (k.currentTerm + 1)) with
      | .started pid _ k => some (.started pid, k)
      | .failed k => some (.failed, printf "failed" k)
      | .pageFault k => handle14 im sp k := by
  unfold schedulerNext
  dsimp only
  change ite ((scheduled sp k).isOn (k.currentTerm + 1) = false) _ _ = _
  rw [scheduled_isOn, if_pos hoff]
  rfl

/-- A terminal that is on is resumed; one that is not gets its shell. -/
theorem schedulerNext_cases (h : schedulerNext im sp k = some (o, k')) :
    (k.isOn (k.currentTerm + 1) = true ∧ o = .switched ∧
      k' = switchTo (k.currentTerm + 1) (k.terminals (k.currentTerm + 1)).pid (scheduled sp k)) ∨
    k.isOn (k.currentTerm + 1) = false ∧
      ((∃ pid eip, execute im sp (some shell) ((scheduled sp k).turnOn (k.currentTerm + 1)) =
        .started pid eip k' ∧ o = .started pid) ∨
      (∃ k₁, execute im sp (some shell) ((scheduled sp k).turnOn (k.currentTerm + 1)) =
        .failed k₁ ∧ o = .failed ∧ k' = printf "failed" k₁) ∨
      ∃ k₁, execute im sp (some shell) ((scheduled sp k).turnOn (k.currentTerm + 1)) =
        .pageFault k₁ ∧ handle14 im sp k₁ = some (o, k')) := by
  by_cases hon : k.isOn (k.currentTerm + 1) = true
  · rw [schedulerNext_on hon] at h
    obtain ⟨ho, hk'⟩ := Prod.mk.inj (Option.some.inj h)
    exact .inl ⟨hon, ho.symm, hk'.symm⟩
  · have hoff := Bool.eq_false_of_not_eq_true hon
    refine .inr ⟨hoff, ?_⟩
    rw [schedulerNext_off hoff] at h
    split at h
    · rename_i pid eip k₁ he
      obtain ⟨ho, rfl⟩ := Prod.mk.inj (Option.some.inj h)
      exact .inl ⟨pid, eip, he, ho.symm⟩
    · rename_i k₁ he
      obtain ⟨ho, hk'⟩ := Prod.mk.inj (Option.some.inj h)
      exact .inr (.inl ⟨k₁, he, ho.symm, hk'.symm⟩)
    · rename_i k₁ he
      exact .inr (.inr ⟨k₁, he, h⟩)

/-- A terminal that is off gets the first free slot for its shell. -/
theorem schedulerNext_shell {pid : Nat} (sp : Nat) (him : HasShell im)
    (hoff : k.isOn (k.currentTerm + 1) = false) (hfree : freeSlot k = some pid) :
    ∃ k', schedulerNext im sp k = some (.started pid, k') ∧
      Started sp pid ((scheduled sp k).turnOn (k.currentTerm + 1)) k' := by
  have hfree' : freeSlot ((scheduled sp k).turnOn (k.currentTerm + 1)) = some pid := by
    rw [← hfree]
    unfold freeSlot
    exact congrArg (fun r : Nat → Bool => List.find? (fun i => !r i) _) (scheduled_running sp k)
  obtain ⟨prog, k', -, he, -⟩ := execute_shell sp him hfree'
  refine ⟨k', ?_, started_of_execute he⟩
  rw [schedulerNext_off hoff, he]

end Timer

/-! ## What no process call touches -/

/-- The tables after some calls of `paging_change_process`. -/
def Remapped (p p' : Paging) : Prop :=
  ∃ pids : List UInt32, p' = pids.foldl (fun p pid => (pagingChangeProcess pid p).2) p

theorem Remapped.refl (p : Paging) : Remapped p p := ⟨[], rfl⟩

theorem Remapped.trans {p p₁ p₂ : Paging} (h₁ : Remapped p p₁) (h₂ : Remapped p₁ p₂) :
    Remapped p p₂ := by
  obtain ⟨l₁, rfl⟩ := h₁
  obtain ⟨l₂, rfl⟩ := h₂
  exact ⟨l₁ ++ l₂, List.foldl_append.symm⟩

/-- Input, the two terminal numbers, and all of the mapping but the user page stay, and no
terminal is turned off. -/
structure ProcFrame (k k' : Kernel) : Prop where
  input : SameInput k k'
  visableTerm : k'.visableTerm = k.visableTerm
  currentTerm : k'.currentTerm = k.currentTerm
  isOn : ∀ t, k.isOn t = true → k'.isOn t = true
  paging : Remapped k.paging k'.paging

section Frame

variable {im : Image} {sp curr pid : Nat} {prog : Program} {cmd : Option CString}
  {status : UInt8} {k k₁ k' : Kernel} {eip : UInt32} {o : Output}

theorem ProcFrame.trans (h₁ : ProcFrame k k₁) (h₂ : ProcFrame k₁ k') : ProcFrame k k' :=
  ⟨h₁.input.trans h₂.input, h₂.visableTerm.trans h₁.visableTerm,
    h₂.currentTerm.trans h₁.currentTerm, fun t ht => h₂.isOn t (h₁.isOn t ht),
    h₁.paging.trans h₂.paging⟩

theorem ProcFrame.of_screen (h : SameButScreen k k') : ProcFrame k k' :=
  ⟨.of_screen h, h.visableTerm_eq, h.currentTerm_eq, fun _ ht => by rwa [h.isOn_eq],
    by rw [h.paging_eq]; exact .refl _⟩

/-- `set_pid` touches no line. -/
theorem sameLineAt_setPid (pid : Nat) (k : Kernel) (t : TermId) :
    SameLineAt k (k.setPid pid) t := by
  by_cases h : t = k.currentTerm
  · subst h
    constructor <;> simp [Kernel.setPid]
  · constructor <;> simp [Kernel.setPid, h]

/-- Taking a slot, giving it to the terminal, mapping its page. -/
theorem procFrame_setPid (p q r : Nat) (b : Bool) (k : Kernel) :
    ProcFrame k (((k.setRunning p b).setPid q).changeProcess r) where
  input := ⟨fun t => ⟨(sameLineAt_setPid q k t).lb, (sameLineAt_setPid q k t).noc, rfl, rfl, rfl⟩,
    rfl, rfl⟩
  visableTerm := rfl
  currentTerm := rfl
  isOn _ := id
  paging := ⟨[UInt32.ofNat r], rfl⟩

theorem ProcFrame.congr (h : ProcFrame k k₁) (hk : k' = { k₁ with
    pcbMem := k'.pcbMem, phys := k'.phys, tssEsp0 := k'.tssEsp0, cpu := k'.cpu }) :
    ProcFrame k k' := by
  rw [hk]
  exact ⟨⟨fun t => ⟨(h.input.lines t).lb, (h.input.lines t).noc, (h.input.lines t).buffer,
    (h.input.lines t).count, (h.input.lines t).flag⟩, h.input.linebuffer, h.input.chararray⟩,
    h.visableTerm, h.currentTerm, h.isOn, h.paging⟩

theorem Started.procFrame (h : Started sp pid k k') : ProcFrame k k' := by
  refine (procFrame_setPid pid pid pid true k).congr ?_
  rw [h.kernel]
  rfl

theorem procFrame_pageFault (h : execute im sp cmd k = .pageFault k') : ProcFrame k k' := by
  obtain ⟨_, _, pid, _, _, _, hstart⟩ := execute_pageFault h
  refine (procFrame_setPid pid pid pid true k).congr ?_
  rw [startProgram_pageFault hstart]

theorem procFrame_started (h : execute im sp cmd k = .started pid eip k') : ProcFrame k k' :=
  (started_of_execute h).procFrame

theorem procFrame_failed (h : execute im sp cmd k = .failed k') : ProcFrame k k' :=
  .of_screen (execute_failed h)

theorem procFrame_setRunning (pid : Nat) (b : Bool) (k : Kernel) :
    ProcFrame k (k.setRunning pid b) :=
  ⟨⟨fun _ => ⟨rfl, rfl, rfl, rfl, rfl⟩, rfl, rfl⟩, rfl, rfl, fun _ => id, .refl _⟩

theorem procFrame_closedBase (pid : Nat) (k : Kernel) : ProcFrame k (closedBase pid k) :=
  (ProcFrame.of_screen (SameButScreen.printf "Cannot close base process -- " k)).trans
    (procFrame_setRunning pid false _)

theorem procFrame_haltRest (h : haltRest curr status k = some (o, k')) : ProcFrame k k' := by
  refine (procFrame_setPid (k.pcbMem curr).processId (k.pcbMem curr).parentProcessId
    (k.pcbMem curr).parentProcessId false k).congr ?_
  rw [(haltRest_spec h).kernel]

theorem procFrame_halt (h : halt im sp status k = some (o, k')) : ProcFrame k k' := by
  rcases halt_cases h with ⟨_, _, h₁⟩ | ⟨k₁, h₁, h₂⟩ | h₁
  · exact (procFrame_closedBase _ k).trans (procFrame_started h₁)
  · exact ((procFrame_closedBase _ k).trans (procFrame_failed h₁)).trans (procFrame_haltRest h₂)
  · exact procFrame_haltRest h₁

theorem procFrame_handle14 (h : handle14 im sp k = some (o, k')) : ProcFrame k k' := by
  rw [handle14] at h
  exact (ProcFrame.of_screen ((SameButScreen.printf "Page Fault exception\n" k).trans
    (.printf "The Exception occurred at:8400000" _))).trans (procFrame_halt h)

theorem procFrame_changeProcess (t : TermId) (pid : Nat) (k : Kernel) :
    ProcFrame k (switchTo t pid k) :=
  ⟨⟨fun _ => ⟨rfl, rfl, rfl, rfl, rfl⟩, rfl, rfl⟩, rfl, rfl, fun _ => id,
    ⟨[UInt32.ofNat pid], rfl⟩⟩

theorem procFrame_turnOn (t : TermId) (k : Kernel) : ProcFrame k (k.turnOn t) where
  input := ⟨fun _ => ⟨rfl, rfl, rfl, rfl, rfl⟩, rfl, rfl⟩
  visableTerm := rfl
  currentTerm := rfl
  isOn u hu := by
    by_cases h : u = t
    · rw [h, turnOn_isOn, Function.update_self]
    · rwa [turnOn_isOn, Function.update_of_ne h]
  paging := .refl _

/-- **What a timer tick does** to the mapping: it maps the screen of the next terminal, and then
leaves all but the user page alone. -/
theorem procFrame_schedulerNext (h : schedulerNext im sp k = some (o, k')) :
    ProcFrame (scheduled sp k) k' := by
  have hon := procFrame_turnOn (k.currentTerm + 1) (scheduled sp k)
  rcases schedulerNext_cases h with
    ⟨-, -, rfl⟩ | ⟨-, ⟨_, _, h₁, -⟩ | ⟨k₁, h₁, -, hk'⟩ | ⟨k₁, h₁, h₂⟩⟩
  · exact procFrame_changeProcess _ _ _
  · exact hon.trans (procFrame_started h₁)
  · rw [hk']
    exact (hon.trans (procFrame_failed h₁)).trans (.of_screen (.printf "failed" k₁))
  · exact (hon.trans (procFrame_pageFault h₁)).trans (procFrame_handle14 h₂)

end Frame

/-- What boot prints. -/
theorem sameButScreen_entry (k : Kernel) : SameButScreen (bootState k) (entry k) :=
  (((SameButScreen.printf "Printing in pit" _).trans (.printf "Enabling Interrupts\n" _)).trans
    (.clear _)).trans (.setposition 0 0 _)

/-! ## A small image -/

/-- An image, by the bytes that are not zero. -/
def sparseImage (l : List (Nat × UInt8)) : Image := ⟨fun p => (l.lookup p).getD 0⟩

theorem sparseImage_byte {l : List (Nat × UInt8)} {p : Nat} (hp : p < 4294967296)
    (h : ∀ x ∈ l, x.1 ≠ p) : (sparseImage l).byte p = 0 := by
  rw [Image.byte, Nat.mod_eq_of_lt hp]
  have hnone : l.lookup p = none :=
    List.lookup_eq_none_iff.2 fun x hx => by simpa using fun hc => h x hx hc.symm
  simp [sparseImage, hnone]

/-- The directory `.` and the executable `shell`, forty bytes long. -/
def shellImage : Image := sparseImage
  [(0, 2), (4, 64), (8, 1), (64, 46), (96, 1),
    (128, 115), (129, 104), (130, 101), (131, 108), (132, 108), (160, 2), (164, 1),
    (8192, 40), (266240, 0x7f), (266241, 0x45), (266242, 0x4C), (266243, 0x46)]

theorem hasShell_shellImage : HasShell shellImage := by
  have hino : (lookupProgram shellImage shell).map Program.inodeNum = some 1 := by decide +kernel
  have hfits : (readLocal shellImage 1 0 extendedPageSize).1 = 40 := by decide +kernel
  obtain ⟨prog, hlook, hp⟩ := Option.map_eq_some_iff.1 hino
  refine ⟨prog, hlook, ?_⟩
  rw [Fits, hp, hfits]
  decide

/-! ## All or nothing -/

/-- `k'` has the processes of `k`, in the same memory. -/
structure SameProcesses (k k' : Kernel) : Prop where
  running : k'.processesRunning = k.processesRunning
  pid : ∀ t, (k'.terminals t).pid = (k.terminals t).pid
  pcbs : k'.pcbMem = k.pcbMem
  paging : k'.paging = k.paging
  tss : k'.tssEsp0 = k.tssEsp0

theorem SameButScreen.sameProcesses {k k' : Kernel} (h : SameButScreen k k') :
    SameProcesses k k' :=
  ⟨h.running_eq, h.pid_eq, h.pcbMem_eq, h.paging_eq, h.tssEsp0_eq⟩

section

variable {im : Image} {sp : Nat} {command : CString} {k : Kernel}

/-- An `execute` returns -1 exactly when one of its checks fails, or no slot is free. -/
theorem execute_fails_iff (hlen : strlen command ≤ 128) :
    (∃ k', execute im sp (some command) k = .failed k') ↔
      lookupProgram im command = none ∨ freeSlot k = none := by
  constructor
  · rintro ⟨k', h⟩
    by_contra hc
    rw [not_or] at hc
    obtain ⟨prog, hlook⟩ := Option.ne_none_iff_exists'.1 hc.1
    obtain ⟨pid, hfree⟩ := Option.ne_none_iff_exists'.1 hc.2
    rw [execute_of_lookup hlen hlook hfree] at h
    exact startProgram_ne_failed h
  · intro h
    rcases execute_cases im sp (some command) k with ⟨k', h', -⟩ | ⟨c, prog, pid, hc, -, hl, hf, -⟩
    · exact ⟨k', h'⟩
    · obtain rfl := Option.some.inj hc
      rw [hl, hf] at h
      simp at h

/-- **A failing `execute` changes nothing.** When no program is found, or no slot is free,
`execute` returns -1 and leaves the processes as they are; when it starts a program, the least
free slot is in use afterwards, and no other slot changes. -/
theorem execute_all_or_nothing (hlen : strlen command ≤ 125) :
    ((∃ k', execute im sp (some command) k = .failed k') ↔
      lookupProgram im command = none ∨ freeSlot k = none) ∧
    (∀ k', execute im sp (some command) k = .failed k' → SameProcesses k k') ∧
    (∀ pid eip k', execute im sp (some command) k = .started pid eip k' →
      1 ≤ pid ∧ pid ≤ 6 ∧ k.processesRunning pid = false ∧
      (∀ i, 1 ≤ i → i < pid → k.processesRunning i = true) ∧
      k'.processesRunning pid = true ∧
      ∀ i, i ≠ pid → k'.processesRunning i = k.processesRunning i) := by
  refine ⟨execute_fails_iff (by omega), fun k' h => (execute_failed h).sameProcesses,
    fun pid eip k' h => ?_⟩
  have hs := started_of_execute h
  obtain ⟨hpid, h₁, h₆, hleast⟩ := freeSlot_eq_some.1 hs.free
  rw [hs.processesRunning]
  exact ⟨h₁, h₆, hpid, hleast, Function.update_self _ _ _, fun i hi => Function.update_of_ne hi _ _⟩

end

/-- After boot the shell gets slot 1; with all slots taken it gets none. -/
theorem execute_all_or_nothing_shell :
    (∃ eip k', execute shellImage 0x7FFF00 (some shell) (bootState default) = .started 1 eip k' ∧
      k'.processesRunning 1 = true) ∧
    let full : Kernel := { (default : Kernel) with processesRunning := fun _ => true }
    ∃ k', execute shellImage 0x7FFF00 (some shell) full = .failed k' ∧ SameProcesses full k' := by
  have hlen : strlen shell ≤ 125 := by decide
  constructor
  · obtain ⟨prog, k', -, hstart, -⟩ := execute_shell 0x7FFF00 hasShell_shellImage
      (show freeSlot (bootState default) = some 1 by decide)
    obtain ⟨-, -, -, -, hrun, -⟩ := (execute_all_or_nothing hlen).2.2 1 _ k' hstart
    exact ⟨_, k', hstart, hrun⟩
  · obtain ⟨hiff, hsame, -⟩ := @execute_all_or_nothing shellImage 0x7FFF00 shell
      { (default : Kernel) with processesRunning := fun _ => true } hlen
    obtain ⟨k', hk'⟩ := hiff.2 (.inr rfl)
    exact ⟨k', hk', hsame k' hk'⟩

end Kernel391

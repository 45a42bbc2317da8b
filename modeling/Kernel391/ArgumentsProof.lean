import Kernel391.CommandProof
import Kernel391.ReuseProof

/-!
# Command-line arguments

* `leading_spaces` — which commands mean the same with spaces in front of them.
* `getargs_fits` — for which sizes `getargs` answers as its comment says.

The name is parsed with an index that skips the leading spaces, and the arguments start at an
index that counts from the name but is used on the command with its spaces. `getargs` compares
the size of the buffer with the length of the whole command.
-/

namespace Kernel391

open Bytes Driven

/-! ## What the process gets -/

/-- The text after the first word and one space, up to the newline. -/
def arguments (c : CString) : List UInt8 :=
  ((c.bytes.dropWhile fun c => c = space).takeWhile fun c => c ≠ newline).drop
    ((firstWord c).length + 1)

/-- The argument string of a process. -/
def argString (p : Pcb) : List UInt8 := slice p.argArr 0 (strlenMax p.argArr pcbMaxArgs)

section Args

variable {im : Image} {sp pid : Nat} {prog : Program} {eip : UInt32} {k k₁ : Kernel}
  {c c' : CString}

theorem dropWhile_space (hhead : c.bytes.head? ≠ some space) :
    (c.bytes.dropWhile fun c => c = space) = c.bytes := by
  cases hb : c.bytes with
  | nil => rfl
  | cons b rest =>
    have hne : b ≠ space := fun h => hhead (by rw [hb, h]; rfl)
    rw [List.dropWhile_cons_of_neg (by simpa using hne)]

theorem arguments_eq (hhead : c.bytes.head? ≠ some space) :
    arguments c = (commandLine c).drop ((firstWord c).length + 1) := by
  rw [arguments, dropWhile_space hhead]
  rfl

theorem arguments_length (hhead : c.bytes.head? ≠ some space) :
    (arguments c).length = (commandLine c).length - ((firstWord c).length + 1) := by
  rw [arguments_eq hhead, List.length_drop]

theorem arguments_ne_zero {b : UInt8} (h : b ∈ arguments c) : b ≠ 0 :=
  c.nonzero b ((((List.drop_sublist _ _).trans (List.takeWhile_sublist _)).trans
    (List.dropWhile_sublist _)).subset h)

/-- What an array that starts with `l`, and holds NULs behind it, holds as a string. -/
theorem slice_strlenMax {b : Buf} {l : List UInt8} {n : Nat} (hlen : l.length ≤ n)
    (hl : ∀ x ∈ l, x ≠ 0) (h : ∀ i < n, b i = l.getD i 0) : slice b 0 (strlenMax b n) = l := by
  have hmax : strlenMax b n = l.length := by
    refine strlenMax_unique hlen (fun i hi => ?_) fun hlt => ?_
    · rw [h i (by omega), List.getD_eq_getElem _ _ hi]
      exact hl _ (List.getElem_mem hi)
    · rw [h _ hlt, List.getD_eq_default _ _ (Nat.le_refl _)]
  rw [hmax]
  apply List.ext_getElem?
  intro i
  rw [slice_getElem?, Nat.zero_add]
  split
  · rw [h i (by omega), List.getD_eq_getElem _ _ ‹_›, List.getElem?_eq_getElem ‹_›]
  · exact (List.getElem?_eq_none (Nat.not_lt.1 ‹_›)).symm

theorem startedPcb_argSize (pid sp : Nat) (h : lookupProgram im c = some prog) (old : Pcb) :
    (startedPcb pid sp prog old).argSize = (commandLine c).length := by
  rw [← (lookupProgram_command h).1]
  rfl

/-- The argument array of a new process. -/
theorem startedPcb_argArr (pid sp : Nat) (hlen : strlen c ≤ 127)
    (h : lookupProgram im c = some prog) (old : Pcb) {i : Nat} (hi : i < pcbMaxArgs) :
    (startedPcb pid sp prog old).argArr i =
      ((commandLine c).drop ((firstWord c).length + 1)).getD i 0 := by
  obtain ⟨hsize, hidx, harr⟩ := lookupProgram_command h
  rw [nameLength_eq hlen] at hidx
  have heq : (startedPcb pid sp prog old).argArr =
      store (store old.argArr 0 (fun _ => 0) pcbMaxArgs) 0 (fun i => prog.argArr (prog.argIdx + i))
      (strlenMax (fun i => prog.argArr (prog.argIdx + i)) (prog.argSize - prog.argIdx)) := by
    simp only [startedPcb, newPcb, setUpFdsandargs]
    split <;> rfl
  have hget (i : Nat) : prog.argArr (prog.argIdx + i) =
      ((commandLine c).drop ((firstWord c).length + 1)).getD i 0 := by
    rw [harr, hidx]
    simp only [List.getD_eq_getElem?_getD, List.getElem?_drop]
  have hmax : strlenMax (fun i => prog.argArr (prog.argIdx + i)) (prog.argSize - prog.argIdx) =
      ((commandLine c).drop ((firstWord c).length + 1)).length := by
    refine strlenMax_unique ?_ (fun i hi => ?_) fun hlt => ?_
    · rw [List.length_drop, hsize, hidx]
    · rw [hget, List.getD_eq_getElem _ _ hi]
      exact commandLine_ne_zero ((List.drop_sublist _ _).subset (List.getElem_mem hi))
    · rw [hget, List.getD_eq_default _ _ (Nat.le_refl _)]
  rw [heq, hmax]
  by_cases hlt : i < ((commandLine c).drop ((firstWord c).length + 1)).length
  · rw [store_of_lt (Nat.zero_le i) (by omega), Nat.sub_zero, hget]
  · rw [store_of_not (by omega), store_of_lt (Nat.zero_le i) (by omega),
      List.getD_eq_default _ _ (by omega)]

theorem argString_started (pid sp : Nat) (hlen : strlen c ≤ 127)
    (h : lookupProgram im c = some prog) (old : Pcb) :
    argString (startedPcb pid sp prog old) =
      (commandLine c).drop ((firstWord c).length + 1) := by
  have hline := commandLine_length_le c
  refine slice_strlenMax ?_ (fun x hx => ?_) fun i hi => startedPcb_argArr pid sp hlen h old hi
  · rw [List.length_drop, pcbMaxArgs]
    omega
  · exact commandLine_ne_zero ((List.drop_sublist _ _).subset hx)

/-- `execute` starts a program exactly when it finds one, there is a slot, and it fits. -/
theorem execute_starts_iff (hlen : strlen c ≤ 128) :
    (∃ k₁, execute im sp (some c) k = .started pid eip k₁) ↔
      freeSlot k = some pid ∧
        ∃ prog, lookupProgram im c = some prog ∧ Fits im prog.inodeNum ∧ prog.eip = eip := by
  constructor
  · rintro ⟨k₁, h⟩
    obtain ⟨c', prog, hc, hlook, hfree, hstart⟩ := execute_started h
    obtain rfl := Option.some.inj hc
    obtain ⟨-, h₁, h₆, -⟩ := freeSlot_eq_some.1 hfree
    exact ⟨hfree, prog, hlook, fits_of_started h₁ h₆ hstart⟩
  · rintro ⟨hfree, prog, hlook, hfits, rfl⟩
    obtain ⟨-, h₁, h₆, -⟩ := freeSlot_eq_some.1 hfree
    obtain ⟨k₁, hk₁⟩ := startProgram_of_fits sp k h₁ h₆ hfits
    exact ⟨k₁, (execute_of_lookup hlen hlook hfree).trans hk₁⟩

/-- The PCB that `execute` leaves to a new process. -/
theorem execute_pcb (h : execute im sp (some c) k = .started pid eip k₁) :
    ∃ prog, lookupProgram im c = some prog ∧
      k₁.pcbMem (pcbAddr pid) = startedPcb pid sp prog (k.pcbMem (pcbAddr pid)) := by
  obtain ⟨c', prog, hc, hlook, -, hstart⟩ := execute_started h
  obtain rfl := Option.some.inj hc
  obtain ⟨-, hk₁⟩ := startProgram_started hstart
  refine ⟨prog, hlook, ?_⟩
  rw [hk₁]
  exact Function.update_self _ _ _

theorem lookupProgram_congr (hname : commandName c' = commandName c)
    (h : lookupProgram im c = some prog) :
    ∃ prog', lookupProgram im c' = some prog' ∧ prog'.inodeNum = prog.inodeNum ∧
      prog'.eip = prog.eip := by
  have hinode : commandInode im c' = commandInode im c := by
    rw [commandInode, hname]
    rfl
  obtain ⟨hfound, hread, hexec, rfl⟩ := lookupProgram_iff.1 h
  rw [← hinode] at hread hexec
  refine ⟨_, lookupProgram_iff.2 ⟨hname ▸ hfound, hread, hexec, rfl⟩, hinode, ?_⟩
  dsimp only
  rw [hinode]

end Args

/-! ## Leading spaces -/

/-- `n` spaces in front of a command. -/
def spaced (n : Nat) (c : CString) : CString where
  bytes := List.replicate n space ++ c.bytes
  nonzero b hb := by
    rcases List.mem_append.1 hb with h | h
    · rw [(List.mem_replicate.1 h).2]
      decide
    · exact c.nonzero b h

/-- `execute` takes the command with and without the spaces for the same. -/
structure SpacesIgnored (im : Image) (sp : Nat) (k : Kernel) (n : Nat) (c : CString) : Prop where
  name : ∀ argArr buf argArr' buf', (parseCommand (spaced n c) argArr buf).name.bytes =
    (parseCommand c argArr' buf').name.bytes
  starts : ∀ pid eip, (∃ k₁, execute im sp (some (spaced n c)) k = .started pid eip k₁) ↔
    ∃ k₁, execute im sp (some c) k = .started pid eip k₁
  args : ∀ pid eip k₁, execute im sp (some c) k = .started pid eip k₁ ∨
    execute im sp (some (spaced n c)) k = .started pid eip k₁ →
    argString (k₁.pcbMem (pcbAddr pid)) = arguments c

/-- What the kernel and the image must be for the command to start a process. -/
def Startable (im : Image) (k : Kernel) (c : CString) : Prop :=
  ∃ prog pid, lookupProgram im c = some prog ∧ freeSlot k = some pid ∧ Fits im prog.inodeNum

section Spaces

variable {im : Image} {sp pid n : Nat} {prog : Program} {eip : UInt32} {k k₁ : Kernel}
  {c : CString}

theorem strlen_spaced (n : Nat) (c : CString) : strlen (spaced n c) = n + strlen c := by
  rw [strlen, spaced, List.length_append, List.length_replicate]
  rfl

theorem commandLine_spaced (n : Nat) (c : CString) :
    commandLine (spaced n c) = List.replicate n space ++ commandLine c := by
  refine List.takeWhile_append_of_pos fun b hb => ?_
  rw [(List.mem_replicate.1 hb).2]
  rfl

theorem firstWord_spaced (n : Nat) (c : CString) : firstWord (spaced n c) = firstWord c := by
  have hdrop : (List.replicate n space ++ c.bytes).dropWhile (fun c => decide (c = space)) =
      c.bytes.dropWhile fun c => c = space :=
    List.dropWhile_append_of_pos fun b hb => decide_eq_true (List.mem_replicate.1 hb).2
  rw [firstWord, spaced, hdrop]
  rfl

theorem commandName_spaced (n : Nat) (c : CString) : commandName (spaced n c) = commandName c := by
  rw [commandName, nameLength, firstWord_spaced]
  rfl

/-- The argument string of the process that the spaced command starts. -/
theorem argString_spaced (hlen : n + strlen c ≤ 127)
    (h : execute im sp (some (spaced n c)) k = .started pid eip k₁) :
    argString (k₁.pcbMem (pcbAddr pid)) =
      (List.replicate n space ++ commandLine c).drop ((firstWord c).length + 1) := by
  obtain ⟨prog, hlook, hpcb⟩ := execute_pcb h
  rw [hpcb, argString_started pid sp (by rwa [strlen_spaced]) hlook, commandLine_spaced,
    firstWord_spaced]

theorem argString_execute (hlen : strlen c ≤ 127)
    (h : execute im sp (some c) k = .started pid eip k₁) :
    argString (k₁.pcbMem (pcbAddr pid)) =
      (commandLine c).drop ((firstWord c).length + 1) := by
  obtain ⟨prog, hlook, hpcb⟩ := execute_pcb h
  rw [hpcb, argString_started pid sp hlen hlook]

/-- The program found, and so the start, does not depend on the spaces. -/
theorem execute_spaced (hlen : n + strlen c ≤ 128) (pid : Nat) (eip : UInt32) :
    (∃ k₁, execute im sp (some (spaced n c)) k = .started pid eip k₁) ↔
      ∃ k₁, execute im sp (some c) k = .started pid eip k₁ := by
  have hname := commandName_spaced n c
  rw [execute_starts_iff (by rwa [strlen_spaced]), execute_starts_iff (by omega)]
  refine and_congr_right fun _ => ⟨?_, ?_⟩
  · rintro ⟨prog, hlook, hfits, heip⟩
    obtain ⟨prog', hlook', hinode, heip'⟩ := lookupProgram_congr hname.symm hlook
    exact ⟨prog', hlook', hinode ▸ hfits, heip'.trans heip⟩
  · rintro ⟨prog, hlook, hfits, heip⟩
    obtain ⟨prog', hlook', hinode, heip'⟩ := lookupProgram_congr hname hlook
    exact ⟨prog', hlook', hinode ▸ hfits, heip'.trans heip⟩

/-- The word starts the line, so the line is no shorter. -/
theorem firstWord_prefix (hhead : c.bytes.head? ≠ some space) : firstWord c <+: commandLine c := by
  have hword : firstWord c = (commandLine c).takeWhile fun b => b ≠ space := by
    rw [firstWord, dropWhile_space hhead, commandLine, List.takeWhile_takeWhile]
    exact congrArg (fun p => c.bytes.takeWhile p) (funext fun b =>
      decide_eq_decide.2 (and_congr decide_eq_true_iff.symm decide_eq_true_iff.symm))
  rw [hword]
  exact List.takeWhile_prefix _

/-- Where the spaces leave the arguments where they were. -/
theorem drop_spaced (hhead : c.bytes.head? ≠ some space) :
    (List.replicate n space ++ commandLine c).drop ((firstWord c).length + 1) = arguments c ↔
      n = 0 ∨ n = 1 ∧ commandLine c = firstWord c := by
  have hpre := firstWord_prefix hhead
  rw [arguments_eq hhead]
  constructor
  · intro h
    have hlen := congrArg List.length h
    rw [List.length_drop, List.length_drop, List.length_append, List.length_replicate] at hlen
    have hle := hpre.length_le
    by_cases hn : n = 0
    · exact .inl hn
    · refine .inr ⟨by omega, (hpre.eq_of_length_le ?_).symm⟩
      omega
  · rintro (rfl | ⟨rfl, heq⟩)
    · rw [List.replicate_zero, List.nil_append]
    · rw [heq, List.drop_of_length_le (Nat.le_succ _), List.drop_of_length_le]
      rw [List.length_append, List.length_replicate, Nat.add_comm]

end Spaces

/-- **Leading spaces are ignored exactly when** there are none, or one in front of a command
without arguments, or the command starts nothing. -/
theorem leading_spaces {c : CString} {n : Nat} (hhead : c.bytes.head? ≠ some space)
    (hlen : n + strlen c ≤ 125) (im : Image) (sp : Nat) (k : Kernel) :
    SpacesIgnored im sp k n c ↔
      (Startable im k c → n = 0 ∨ n = 1 ∧ commandLine c = firstWord c) := by
  constructor
  · rintro h ⟨prog, pid, hlook, hfree, hfits⟩
    obtain ⟨k₁, hk₁⟩ := (h.starts pid prog.eip).2
      ((execute_starts_iff (by omega)).2 ⟨hfree, prog, hlook, hfits, rfl⟩)
    rw [← drop_spaced hhead, ← argString_spaced (by omega) hk₁]
    exact h.args pid _ k₁ (.inr hk₁)
  · intro h
    refine ⟨fun _ _ _ _ => ?_, execute_spaced (by omega), ?_⟩
    · rw [parseCommand_name (by rw [strlen_spaced]; omega), parseCommand_name (by omega),
        nameLength, firstWord_spaced, nameLength]
    · rintro pid eip k₁ (hk₁ | hk₁)
      · rw [argString_execute (by omega) hk₁, arguments_eq hhead]
      · obtain ⟨hfree, prog, hlook, hfits, -⟩ := (execute_starts_iff (by omega)).1
          ((execute_spaced (by omega) pid eip).1 ⟨k₁, hk₁⟩)
        rw [argString_spaced (by omega) hk₁]
        exact (drop_spaced hhead).2 (h ⟨prog, pid, hlook, hfree, hfits⟩)

/-- `shell a`. -/
def shellA : CString := .ofList (chars "shell a")

/-- It starts the shell. -/
theorem starts_shellA : ∃ eip k₁,
    execute shellImage 0x7FFF00 (some shellA) (bootState default) = .started 1 eip k₁ := by
  obtain ⟨prog, hlook, hfits⟩ := hasShell_shellImage
  obtain ⟨prog', hlook', hinode, -⟩ :=
    lookupProgram_congr (show commandName shellA = commandName shell from rfl) hlook
  have hfree : freeSlot (bootState default) = some 1 := by decide
  exact ⟨prog'.eip, (execute_starts_iff (by decide)).2
    ⟨hfree, prog', hlook', hinode ▸ hfits, rfl⟩⟩

/-- A space in front of `shell` is ignored. -/
theorem leading_spaces_shell : SpacesIgnored shellImage 0x7FFF00 (bootState default) 1 shell :=
  (leading_spaces (by decide) (by decide) _ _ _).2 fun _ => .inr ⟨rfl, by decide⟩

/-- With a space in front of it, `shell a` passes ` a`. -/
theorem leading_spaces_kept :
    ¬ SpacesIgnored shellImage 0x7FFF00 (bootState default) 1 shellA := by
  intro h
  obtain ⟨eip, k₁, hk₁⟩ := starts_shellA
  obtain ⟨k₂, hk₂⟩ := (h.starts 1 eip).2 ⟨k₁, hk₁⟩
  have hargs := h.args 1 eip k₂ (.inr hk₂)
  rw [argString_spaced (by decide) hk₂] at hargs
  exact absurd hargs (by decide)

/-! ## `getargs` -/

/-- A process keeps its arguments. -/
structure KeepsArgs (p p' : Pcb) : Prop where
  argSize : p'.argSize = p.argSize
  argArr : p'.argArr = p.argArr

theorem KeepsArgs.refl (p : Pcb) : KeepsArgs p p := ⟨rfl, rfl⟩

theorem KeepsArgs.trans {p p₁ p₂ : Pcb} (h₁ : KeepsArgs p p₁) (h₂ : KeepsArgs p₁ p₂) :
    KeepsArgs p p₂ :=
  ⟨h₂.argSize.trans h₁.argSize, h₂.argArr.trans h₁.argArr⟩

theorem KeepsArgs.of_eq {p p' : Pcb} (h : p' = p) : KeepsArgs p p' := h ▸ .refl p

theorem KeepsArgs.setFd (fd : Nat) (d : FileDesc) (p : Pcb) : KeepsArgs p (p.setFd fd d) :=
  ⟨rfl, rfl⟩

theorem KeepsArgs.setPcb {p p' : Pcb} (h : KeepsArgs p p') (curr : Nat) (k : Kernel) :
    KeepsArgs p ((k.setPcb curr p').pcbMem curr) :=
  h.trans (.of_eq (Kernel.setPcb_self k curr p'))

section Calls

variable {im : Image} {curr : Nat} {k : Kernel}

theorem fsRead_keepsArgs (im : Image) (fd : Nat) (buf : Option Buf) (nbytes : Int) (p : Pcb) :
    KeepsArgs p (fsRead im fd buf nbytes p).2.2 := by
  unfold fsRead
  split
  · exact .refl p
  split
  · exact .refl p
  dsimp only
  split
  · exact .refl p
  split
  · exact .refl p
  · exact ⟨rfl, rfl⟩

theorem dirRead_keepsArgs (im : Image) (fd : Nat) (buf : Buf) (nbytes : Int) (p : Pcb) :
    KeepsArgs p (dirRead im fd buf nbytes p).2.2 := by
  unfold dirRead
  split
  · exact .refl p
  dsimp only
  split
  · exact .refl p
  · exact ⟨rfl, rfl⟩

theorem sysOpen_keepsArgs (im : Image) (curr : Nat) (name : Option CString) (d : Dentry)
    (k : Kernel) : KeepsArgs (k.pcbMem curr)
      ((settle viewValue k (sysOpen im curr name d k)).2.pcbMem curr) := by
  rcases sysOpen_cases im curr name d k with heq | ⟨n, fd, -, -, -, -, -, heq⟩
  · rw [heq]
    exact .refl _
  · rw [heq]
    exact (KeepsArgs.setFd _ _ _).setPcb curr k

theorem sysClose_keepsArgs (curr : Nat) (fd : Int) (k : Kernel) :
    KeepsArgs (k.pcbMem curr) ((settle viewValue k (sysClose curr fd k)).2.pcbMem curr) := by
  unfold sysClose
  split
  · exact .refl _
  split
  · exact .refl _
  rename_i h0 hr
  dsimp only
  split
  · exact .refl _
  split
  · exact .refl _
  split
  · exact .refl _
  · rw [fdArrayHandleClose, if_neg h0, if_neg hr]
    exact (KeepsArgs.setFd _ _ _).setPcb curr k

theorem callRead_keepsArgs (im : Image) (curr : Nat) (fd : Int) (b : Buf) (nbytes : Int)
    (k : Kernel) (fn : Option FileFn) : KeepsArgs (k.pcbMem curr)
      ((settle viewBuffer k (callRead im curr fd b nbytes k fn)).2.pcbMem curr) := by
  rcases fn with _ | fn
  · exact .refl _
  rcases fn with op | op | op | op <;> cases op <;> try exact .refl _
  · exact (fsRead_keepsArgs im fd.toNat (some b) nbytes _).setPcb curr k
  · exact (dirRead_keepsArgs im fd.toNat b nbytes _).setPcb curr k
  · rw [callRead]
    cases hr : terminalRead b nbytes k with
    | none => exact .refl _
    | some r => exact .of_eq (congrFun (terminalRead_pcbMem hr) curr)

theorem sysRead_keepsArgs (im : Image) (curr : Nat) (fd : Int) (buf : Option Buf) (nbytes : Int)
    (k : Kernel) : KeepsArgs (k.pcbMem curr)
      ((settle viewBuffer k (sysRead im curr fd buf nbytes k)).2.pcbMem curr) := by
  unfold sysRead
  split
  · exact .refl _
  cases buf with
  | none => exact .refl _
  | some b =>
    dsimp only
    split
    · exact .refl _
    split
    · exact .refl _
    · exact callRead_keepsArgs im curr fd b nbytes k _

theorem sysWrite_keepsArgs (curr : Nat) (fd : Int) (buf : Option Buf) (nbytes : Int)
    (k : Kernel) : KeepsArgs (k.pcbMem curr)
      ((settle viewValue k (sysWrite curr fd buf nbytes k)).2.pcbMem curr) := by
  unfold sysWrite
  split
  · exact .refl _
  cases buf with
  | none => exact .refl _
  | some b =>
    dsimp only
    split
    · exact .refl _
    rcases ((k.pcbMem curr).fdArray fd.toNat).operationstable.entry .write with _ | fn
    · exact .refl _
    rcases fn with op | op | op | op <;> cases op <;> try exact .refl _
    · rw [callWrite]
      cases rtcWrite (some (loadWord b)) <;> exact .refl _
    · exact .of_eq (congrFun (terminalWrite_pcbMem b nbytes k) curr)

theorem callStep_keepsArgs (im : Image) (curr : Nat) (k : Kernel) (e : ProcCall) :
    KeepsArgs (k.pcbMem curr) ((callStep im curr k e).2.pcbMem curr) := by
  cases e with
  | «open» name d => exact sysOpen_keepsArgs im curr name d k
  | close fd => exact sysClose_keepsArgs curr fd k
  | read fd buf nbytes => exact sysRead_keepsArgs im curr fd buf nbytes k
  | write fd buf nbytes => exact sysWrite_keepsArgs curr fd buf nbytes k
  | getargs buf nbytes => exact .refl _
  | key ev =>
    rw [callStep]
    cases hk : checkInput ev k with
    | none => exact .refl _
    | some k₁ => exact .of_eq (congrFun (checkInput_procs hk).pcbMem curr)

/-- Whatever the process calls, and the keyboard does, it keeps its arguments. -/
theorem keepsArgs_run (im : Image) (curr : Nat) (k : Kernel) (calls : ℕ → ProcCall) (n : ℕ) :
    KeepsArgs (k.pcbMem curr) ((stateAt (callStep im curr) k calls n).pcbMem curr) :=
  stateAt_inv (fun _ (s : Kernel) => KeepsArgs (k.pcbMem curr) (s.pcbMem curr)) (.refl _)
    (fun _ _ h => h.trans (callStep_keepsArgs im curr _ _)) n

end Calls

/-- What `getargs` should answer, and leave in the buffer. -/
def GetargsLaw (args : List UInt8) (b : Buf) (nbytes : Int) (r : Int × Option Buf) : Prop :=
  if args = [] ∨ (args.length : Int) + 1 > nbytes then r = (-1, some b)
  else ∃ b', r = (0, some b') ∧ (∀ i < args.length, b' i = args.getD i 0) ∧ b' args.length = 0 ∧
    ∀ i : Nat, nbytes ≤ i → b' i = b i

section Getargs

variable {im : Image} {sp pid : Nat} {eip : UInt32} {k k₁ : Kernel} {c : CString} {p : Pcb}

/-- A process that `execute` started with the command. -/
structure HasArgs (c : CString) (p : Pcb) : Prop where
  argSize : p.argSize = (commandLine c).length
  argArr : ∀ i < pcbMaxArgs, p.argArr i = (arguments c).getD i 0

theorem hasArgs_execute (hhead : c.bytes.head? ≠ some space) (hlen : strlen c ≤ 127)
    (h : execute im sp (some c) k = .started pid eip k₁) : HasArgs c (k₁.pcbMem (pcbAddr pid)) := by
  obtain ⟨prog, hlook, hpcb⟩ := execute_pcb h
  rw [hpcb]
  refine ⟨startedPcb_argSize pid sp hlook _, fun i hi => ?_⟩
  rw [arguments_eq hhead]
  exact startedPcb_argArr pid sp hlen hlook _ hi

theorem HasArgs.keeps {p' : Pcb} (h : HasArgs c p) (hk : KeepsArgs p p') : HasArgs c p' :=
  ⟨hk.argSize.trans h.argSize, fun i hi => (congrFun hk.argArr i).trans (h.argArr i hi)⟩

theorem getargs_refused {b : Buf} {nbytes : Int} (h : HasArgs c p)
    (hn : nbytes ≤ (commandLine c).length) : getargs (some b) nbytes p = (-1, some b) := by
  rw [getargs, h.argSize]
  exact if_pos (by omega)

/-- A copy that has room for the arguments and their NUL. -/
theorem getargs_copied {nbytes : Int} (b : Buf) (hhead : c.bytes.head? ≠ some space)
    (hlen : strlen c ≤ 127) (h : HasArgs c p) (hn : (commandLine c).length < nbytes) :
    ∃ b', getargs (some b) nbytes p = (0, some b') ∧
      (∀ i < (arguments c).length, b' i = (arguments c).getD i 0) ∧
      b' (arguments c).length = 0 ∧ ∀ i : Nat, nbytes ≤ i → b' i = b i := by
  have hline := commandLine_length_le c
  have hargs := arguments_length hhead
  have hget (i : Nat) (hi : i < pcbMaxArgs) : p.argArr i = (arguments c).getD i 0 := h.argArr i hi
  rw [pcbMaxArgs] at hget
  have hnul : p.argArr (arguments c).length = 0 := by
    rw [hget _ (by omega), List.getD_eq_default _ _ (Nat.le_refl _)]
  refine ⟨strncpy b p.argArr nbytes.toNat, ?_, fun i hi => ?_, ?_, fun i hi => ?_⟩
  · rw [getargs, h.argSize]
    exact if_neg (by omega)
  · rw [strncpy_of_lt (by omega) fun j hj => ?_, hget i (by omega)]
    rw [hget j (by omega), List.getD_eq_getElem _ _ (by omega)]
    exact arguments_ne_zero (List.getElem_mem _)
  · exact strncpy_of_nul (by omega) (Nat.le_refl _) hnul
  · rw [strncpy, if_neg (by omega)]

theorem getargsLaw_refused {args : List UInt8} {b : Buf} {nbytes : Int} :
    GetargsLaw args b nbytes (-1, some b) ↔ args = [] ∨ (args.length : Int) + 1 > nbytes := by
  unfold GetargsLaw
  split
  · exact iff_of_true rfl ‹_›
  · refine iff_of_false ?_ ‹_›
    rintro ⟨b', h, -⟩
    cases h

end Getargs

/-- **`getargs` answers right exactly when** the buffer is too small for the arguments or longer
than the whole command; without arguments, when it is no longer than the command. -/
theorem getargs_fits {im : Image} {sp pid : Nat} {eip : UInt32} {k k₁ : Kernel} {c : CString}
    (hhead : c.bytes.head? ≠ some space) (hlen : strlen c ≤ 125)
    (h : execute im sp (some c) k = .started pid eip k₁) (calls : ℕ → ProcCall) (n : ℕ)
    (b : Buf) (nbytes : Int) :
    GetargsLaw (arguments c) b nbytes (getargs (some b) nbytes
        ((stateAt (callStep im (pcbAddr pid)) k₁ calls n).pcbMem (pcbAddr pid))) ↔
      if arguments c = [] then nbytes ≤ (commandLine c).length
      else nbytes ≤ (arguments c).length ∨ (commandLine c).length < nbytes := by
  have hp := (hasArgs_execute hhead (by omega) h).keeps
    (keepsArgs_run im (pcbAddr pid) k₁ calls n)
  generalize (stateAt (callStep im (pcbAddr pid)) k₁ calls n).pcbMem (pcbAddr pid) = p at hp
  have hargs := arguments_length hhead
  by_cases hsmall : nbytes ≤ (commandLine c).length
  · rw [getargs_refused hp hsmall, getargsLaw_refused]
    split
    · exact iff_of_true (.inl ‹_›) hsmall
    · rw [or_iff_right ‹_›]
      omega
  · obtain ⟨b', heq, hcopy⟩ := getargs_copied b hhead (by omega) hp (Int.not_le.1 hsmall)
    rw [heq, GetargsLaw]
    by_cases hnil : arguments c = []
    · rw [if_pos (.inl hnil), if_pos hnil]
      exact iff_of_false (fun h => by cases h) hsmall
    · rw [if_neg hnil, if_neg (not_or.2 ⟨hnil, by omega⟩)]
      exact iff_of_true ⟨b', rfl, hcopy⟩ (.inr (Int.not_le.1 hsmall))

/-- `shell a` gets its argument with a buffer of 8 bytes, whatever it called before. -/
theorem getargs_fits_shellA : ∃ eip k₁,
    execute shellImage 0x7FFF00 (some shellA) (bootState default) = .started 1 eip k₁ ∧
    ∀ calls n b, GetargsLaw (arguments shellA) b 8 (getargs (some b) 8
      ((stateAt (callStep shellImage (pcbAddr 1)) k₁ calls n).pcbMem (pcbAddr 1))) := by
  obtain ⟨eip, k₁, hk₁⟩ := starts_shellA
  exact ⟨eip, k₁, hk₁, fun calls n b =>
    (getargs_fits (by decide) (by decide) hk₁ calls n b 8).2 (by decide)⟩

/-- A buffer of two bytes, enough for `a` and its NUL, is refused, and a process without
arguments gets 0 for 100 bytes. -/
theorem getargs_misjudges : ∃ eip eip' k₁ k₂,
    execute shellImage 0x7FFF00 (some shellA) (bootState default) = .started 1 eip k₁ ∧
    execute shellImage 0x7FFF00 (some shell) (bootState default) = .started 1 eip' k₂ ∧
    (∀ b, getargs (some b) 2 (k₁.pcbMem (pcbAddr 1)) = (-1, some b) ∧
      ¬ GetargsLaw (arguments shellA) b 2 (getargs (some b) 2 (k₁.pcbMem (pcbAddr 1)))) ∧
    ∀ b, (getargs (some b) 100 (k₂.pcbMem (pcbAddr 1))).1 = 0 ∧
      ¬ GetargsLaw (arguments shell) b 100 (getargs (some b) 100 (k₂.pcbMem (pcbAddr 1))) := by
  obtain ⟨eip, k₁, hk₁⟩ := starts_shellA
  have hfree : freeSlot (bootState default) = some 1 := by decide
  obtain ⟨prog, k₂, -, hk₂, -⟩ := execute_shell 0x7FFF00 hasShell_shellImage hfree
  have hp₁ := hasArgs_execute (by decide) (by decide) hk₁
  have hp₂ := hasArgs_execute (by decide) (by decide) hk₂
  refine ⟨eip, prog.eip, k₁, k₂, hk₁, hk₂, fun b => ?_, fun b => ?_⟩
  · rw [getargs_refused hp₁ (by decide), getargsLaw_refused]
    exact ⟨rfl, by decide⟩
  · have hn : ((commandLine shell).length : Int) < 100 := by decide
    obtain ⟨b', heq, -⟩ := getargs_copied b (by decide) (by decide) hp₂ hn
    rw [heq, GetargsLaw, if_pos (.inl (by decide))]
    exact ⟨rfl, fun h => by cases h⟩

end Kernel391

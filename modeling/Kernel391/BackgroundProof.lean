import Kernel391.RenderingProof

/-!
# Background processes

What the process of the current terminal does to the screens while another terminal is visible.
`machine` takes every event: ticks, keys, stores and page faults of programs, the steps of reads
under way, and system calls with any arguments, on any stack. `Contained` says what the kernel
keeps in each of them: it draws on the page of the current terminal and on no other.

* `contained_sysCall` — every system call is contained, whatever it prints.
* `draws_sysCall` — a call that has no message to print draws what it writes, at the cursor of the
  current terminal, and nothing else.
* `background_call` — both, in every reachable state in which the current terminal is not visible.
* `background_call_bad_length` — a message moves the cursor of the visible terminal: `printf` takes
  the cursor of the visible terminal to the page of the current one.
-/

namespace Kernel391

open Bytes Runs Console

/-! ## The machine -/

/-- A system call and its arguments. -/
inductive SysCall
  | open (filename : Option CString) (dirEntry : Dentry)
  | close (fd : Int)
  | read (fd : Int) (buf : Option Buf) (nbytes : Int)
  | write (fd : Int) (buf : Option Buf) (nbytes : Int)
  | getargs (buf : Option Buf) (nbytes : Int)
  | vidmap (screenStart : UInt32)
  | execute (command : Option CString)
  | halt (status : UInt8)

/-- The call, on the stack at `sp`, from the interrupt to where a program goes on. One that spins
or goes through a bad pointer does not get there. Buffers and strings are in the memory of the
caller. -/
def sysCall (im : Image) (sp : Nat) (k : Kernel) : SysCall → Kernel → Prop
  | .open filename dirEntry, k' =>
    ∃ ret, sysOpen im (getPcbAddress sp) filename dirEntry k = .returned (ret, k')
  | .close fd, k' => ∃ ret, sysClose (getPcbAddress sp) fd k = .returned (ret, k')
  | .read fd buf nbytes, k' =>
    ∃ ret buf', sysRead im (getPcbAddress sp) fd buf nbytes k = .returned (ret, buf', k')
  | .write fd buf nbytes, k' =>
    ∃ ret, sysWrite (getPcbAddress sp) fd buf nbytes k = .returned (ret, k')
  | .getargs buf nbytes, k' =>
    ∃ o, getargs buf nbytes (k.pcbMem (getPcbAddress sp)) = o ∧ k' = k
  | .vidmap screenStart, k' => ∃ ret, vidmap screenStart k = some (ret, k')
  | .execute command, k' => ∃ o, callExecute im sp command k = some (o, k')
  | .halt status, k' => ∃ o, halt im sp status k = some (o, k')

/-- The bytes that a call sends to the terminal. -/
def SysCall.written (curr : Nat) (k : Kernel) : SysCall → List UInt8
  | .write fd (some b) nbytes =>
    let d := (k.pcbMem curr).fdArray fd.toNat
    if 0 < fd ∧ fd ≤ fdend ∧ d.inUse ≠ notinuse ∧
        d.operationstable.entry .write = some (.terminal .write) then slice b 0 nbytes.toNat
    else []
  | _ => []

/-- The calls that have no message to print: a command of at most 128 characters that finds a
slot and room in the user page if it names a program, and a `halt` by a process that is no base
process. -/
def SysCall.NoMessage (im : Image) (sp : Nat) (k : Kernel) : SysCall → Prop
  | .execute (some command) => strlen command ≤ maxBufSizeExecute ∧
    ∀ prog, lookupProgram im command = some prog →
      (∃ pid, freeSlot k = some pid) ∧ Fits im prog.inodeNum
  | .halt _ => numTerminals < (k.pcbMem (getPcbAddress sp)).processId
  | _ => True

/-- `handle14`, for a fault at any address. -/
def pageFaultAt (im : Image) (sp : Nat) (address : String) (k : Kernel) :
    Option (Output × Kernel) :=
  halt im sp 80 (printf ("The Exception occurred at:" ++ address)
    (printf "Page Fault exception\n" k))

/-- A tick, a key, a byte stored by a program, a step of a `terminal_read` under way, a page
fault of a program, or a system call. -/
inductive MachineEvent
  | tick (sp : Nat)
  | key (ev : KeyEvent)
  | store (va : Nat) (c : UInt8)
  | readStep (t : TermId) (st : ReadState)
  | fault (sp : Nat) (address : String)
  | call (sp : Nat) (c : SysCall)

def machine (im : Image) : System Kernel MachineEvent Unit
  | k, .tick sp, _, k' => ∃ o, schedulerNext im sp k = some (o, k')
  | k, .key ev, _, k' => checkInput ev k = some k'
  | k, .store va c, _, k' => ∃ pa, k.paging.translate .user va = some pa ∧
    k' = { k with phys := Function.update k.phys pa c }
  | k, .readStep t st, _, k' => (readStep t k st).2 = k'
  | k, .fault sp address, _, k' => ∃ o, pageFaultAt im sp address k = some (o, k')
  | k, .call sp c, _, k' => sysCall im sp k c k'

/-- The kernel after boot, some keys, and the first tick. -/
def FirstTick (im : Image) (k₀ k₁ : Kernel) : Prop :=
  ∃ (evs : List KeyEvent) (k : Kernel) (sp : Nat) (o : Output),
    evs.foldlM (fun k ev => checkInput ev k) (entry k₀) = some k ∧
      schedulerNext im sp k = some (o, k₁)

theorem handle14_eq (im : Image) (sp : Nat) (k : Kernel) :
    handle14 im sp k = pageFaultAt im sp "8400000" k := rfl

/-! ## What the kernel keeps -/

/-- `k'` is `k` after the kernel drew on the page of the current terminal at most. -/
structure Contained (k k' : Kernel) : Prop where
  inv : ScreenInv k'
  visableTerm : k'.visableTerm = k.visableTerm
  currentTerm : k'.currentTerm = k.currentTerm
  phys : ∀ b, 0xB8000 ≤ b → b < 0xBC000 → b < screenPage k k.currentTerm ∨
    screenPage k k.currentTerm + 4096 ≤ b → k'.phys b = k.phys b

/-- A `k'` that differs from `k` in files and finished lines at most. -/
def SameButFiles (k k' : Kernel) : Prop :=
  k' = { k with
    pcbMem := k'.pcbMem
    terminalbuffer := k'.terminalbuffer
    flags := k'.flags
    numberofchars := k'.numberofchars }

section Contain

variable {im : Image} {sp curr pid : Nat} {cmd : Option CString} {status : UInt8}
  {k k₁ k' : Kernel} {eip : UInt32} {o : Output} {a : Nat} {t : TermId}

theorem Contained.trans (h₁ : Contained k k₁) (h₂ : Contained k₁ k') : Contained k k' where
  inv := h₂.inv
  visableTerm := h₂.visableTerm.trans h₁.visableTerm
  currentTerm := h₂.currentTerm.trans h₁.currentTerm
  phys b hb hb' hpage := by
    refine (h₂.phys b hb hb' ?_).trans (h₁.phys b hb hb' hpage)
    rwa [screenPage_congr h₁.visableTerm, h₁.currentTerm]

/-- The screens of the other terminals keep their bytes. -/
theorem Contained.cells (h : Contained k k') (ht : t ≠ k.currentTerm) :
    (screenOf k' t).cells = (screenOf k t).cells := by
  have hap := screenPage_apart k ht
  have hb := (textPage_screenPage k t).bounds
  funext off
  by_cases hoff : off < 4096
  · rw [screenOf, screenOf, viewOf_cells hoff, viewOf_cells hoff, screenPage_congr h.visableTerm]
    exact h.phys _ (by omega) (by omega) (by omega)
  · exact (viewOf_outside hoff).trans (viewOf_outside hoff).symm

theorem CursorsOk.congr (h : CursorsOk k)
    (hx : ∀ t, (k'.terminals t).screenX = (k.terminals t).screenX)
    (hy : ∀ t, (k'.terminals t).screenY = (k.terminals t).screenY) : CursorsOk k' := by
  intro t
  exact inBounds_congr (h t) (hx t) (hy t)

/-- Calls of `paging_change_process` leave the pages below 4 MB alone. -/
theorem Remapped.low {p p' : Paging} (h : Remapped p p') :
    p'.pageTable0M4M = p.pageTable0M4M := by
  obtain ⟨pids, rfl⟩ := h
  refine Closed.foldl (P := fun q : Paging => q.pageTable0M4M = p.pageTable0M4M) ?_ pids rfl
  intro q pid hq
  unfold pagingChangeProcess
  dsimp only
  split
  · exact hq
  · exact hq

theorem MapsTo.remapped (h : MapsTo k a) (hp : Remapped k.paging k'.paging) : MapsTo k' a :=
  ⟨(Recalled.of_remapped hp).pagingOk h.tables, by rw [hp.low, h.low]⟩

/-- What shows nothing and leaves the mapping alone. -/
theorem contained_shown (h : ScreenInv k) (hs : SameShown k k') (hf : ProcFrame k k') :
    Contained k k' where
  inv :=
    { input := h.input.received hf.input.received
      mapped := by
        rw [screenPage_congr hf.visableTerm, hf.currentTerm]
        exact h.mapped.remapped hf.paging
      cursors := h.cursors.shown hs }
  visableTerm := hf.visableTerm
  currentTerm := hf.currentTerm
  phys b hb hb' _ := hs.phys b hb hb'

/-- **A message** is drawn on the page of the current terminal. -/
theorem contained_printf (h : ScreenInv k) (s : String) : Contained k (printf s k) := by
  have hscr := SameButScreen.printf s k
  obtain ⟨hpage, -⟩ := view_printf h.mapped (textPage_screenPage k _) h.cursors s
  refine ⟨⟨h.input.received (SameInput.of_screen hscr).received, ?_, cursorsOk_printf h.cursors s⟩,
    hscr.visableTerm_eq, hscr.currentTerm_eq, fun b _ _ hb => hpage.phys b hb⟩
  rw [screenPage_congr hscr.visableTerm_eq, hscr.currentTerm_eq]
  exact h.mapped.onPage hpage

/-! ## Programs -/

/-- A load that faults has stored above 8 MB only. -/
theorem shown_pageFault (h : execute im sp cmd k = .pageFault k') : SameShown k k' := by
  obtain ⟨_, prog, pid, rfl, -, hfree, hstart⟩ := execute_pageFault h
  obtain ⟨-, h₁, h₆, -⟩ := freeSlot_eq_some.1 hfree
  have hk' := startProgram_pageFault hstart
  have hphys : ∀ b < 0x800000, k'.phys b = k.phys b := by
    intro b hb
    have hload := @loadProgram_phys im pid k prog.inodeNum h₁ h₆ b hb
    unfold startProgram at hstart
    dsimp only at hstart
    split at hstart
    · cases hstart
    · injection hstart with hstart
      rw [← hstart]
      exact hload
  rw [hk']
  exact ⟨fun b _ hb => hphys b (by omega), rfl, fun t => (setPid_cursor pid k t).1,
    fun t => (setPid_cursor pid k t).2⟩

/-- Ending a program shows nothing. -/
theorem shown_haltRest (h : haltRest curr status k = some (o, k')) : SameShown k k' := by
  rw [(haltRest_spec h).kernel]
  exact ⟨fun _ _ _ => rfl, rfl, fun t => (setPid_cursor _ k t).1, fun t => (setPid_cursor _ k t).2⟩

theorem contained_haltRest (h : ScreenInv k) (hs : haltRest curr status k = some (o, k')) :
    Contained k k' :=
  contained_shown h (shown_haltRest hs) (procFrame_haltRest hs)

theorem contained_started (h : ScreenInv k) (hs : execute im sp cmd k = .started pid eip k') :
    Contained k k' :=
  contained_shown h (shown_started hs) (procFrame_started hs)

theorem contained_pageFault (h : ScreenInv k) (hs : execute im sp cmd k = .pageFault k') :
    Contained k k' :=
  contained_shown h (shown_pageFault hs) (procFrame_pageFault hs)

/-- An `execute` that returns -1 may have printed why. -/
theorem execute_failed_cases (h : execute im sp cmd k = .failed k') :
    k' = k ∨ ¬ (SysCall.execute cmd).NoMessage im sp k ∧ ∃ s, k' = printf s k := by
  rcases cmd with _ | command
  · injection h with h
    exact .inl h.symm
  by_cases hlen : strlen command > maxBufSizeExecute
  · have he : execute im sp (some command) k = .failed (printf "Bad Length\n" k) := if_pos hlen
    rw [he] at h
    injection h with h
    exact .inr ⟨fun hq => absurd hq.1 (Nat.not_le.2 hlen), _, h.symm⟩
  unfold execute at h
  dsimp only at h
  rw [if_neg hlen] at h
  cases hlook : lookupProgram im command with
  | none =>
    rw [hlook] at h
    injection h with h
    exact .inl h.symm
  | some prog =>
    rw [hlook] at h
    dsimp only at h
    cases hfree : freeSlot k with
    | none =>
      rw [hfree] at h
      injection h with h
      refine .inr ⟨fun hq => ?_, _, h.symm⟩
      obtain ⟨⟨pid, hpid⟩, -⟩ := hq.2 prog hlook
      rw [hfree] at hpid
      cases hpid
    | some pid =>
      rw [hfree] at h
      exact absurd h startProgram_ne_failed

theorem contained_failed (h : ScreenInv k) (hs : execute im sp cmd k = .failed k') :
    Contained k k' := by
  rcases execute_failed_cases hs with rfl | ⟨-, s, rfl⟩
  · exact contained_shown h (.refl k') (.of_screen (.refl k'))
  · exact contained_printf h s

theorem shown_setRunning (pid : Nat) (b : Bool) (k : Kernel) : SameShown k (k.setRunning pid b) :=
  ⟨fun _ _ _ => rfl, rfl, fun _ => rfl, fun _ => rfl⟩

theorem contained_closedBase (h : ScreenInv k) (pid : Nat) : Contained k (closedBase pid k) := by
  have hprint := contained_printf h "Cannot close base process -- "
  exact hprint.trans (contained_shown hprint.inv (shown_setRunning pid false _)
    (procFrame_setRunning pid false _))

/-- **`halt`**, also of a base process. -/
theorem contained_halt (h : ScreenInv k) (hs : halt im sp status k = some (o, k')) :
    Contained k k' := by
  rcases halt_cases hs with ⟨pid, eip, he⟩ | ⟨k₁, he, hrest⟩ | hrest
  · have hclosed := contained_closedBase h (k.pcbMem (getPcbAddress sp)).processId
    exact hclosed.trans (contained_started hclosed.inv he)
  · have hclosed := contained_closedBase h (k.pcbMem (getPcbAddress sp)).processId
    have hfailed := hclosed.trans (contained_failed hclosed.inv he)
    exact hfailed.trans (contained_haltRest hfailed.inv hrest)
  · exact contained_haltRest h hrest

/-- **A page fault** prints two lines and ends the program. -/
theorem contained_pageFaultAt {address : String} (h : ScreenInv k)
    (hs : pageFaultAt im sp address k = some (o, k')) : Contained k k' := by
  have h₁ := contained_printf h "Page Fault exception\n"
  have h₂ := h₁.trans (contained_printf h₁.inv ("The Exception occurred at:" ++ address))
  exact h₂.trans (contained_halt h₂.inv hs)

/-- **`execute`**, succeeding, failing or running off the end of the user page. -/
theorem contained_callExecute (h : ScreenInv k) (hs : callExecute im sp cmd k = some (o, k')) :
    Contained k k' := by
  rcases callExecute_some hs with ⟨pid, eip, -, he⟩ | ⟨-, he⟩ | ⟨k₁, he, hs⟩
  · exact contained_started h he
  · exact contained_failed h he
  · have hfault := contained_pageFault h he
    rw [handle14_eq] at hs
    exact hfault.trans (contained_pageFaultAt hfault.inv hs)

/-! ## Files and lines -/

theorem SameButFiles.refl (k : Kernel) : SameButFiles k k := rfl

theorem SameButFiles.setPcb (k : Kernel) (addr : Nat) (p : Pcb) :
    SameButFiles k (k.setPcb addr p) := rfl

theorem SameButFiles.shown (h : SameButFiles k k') : SameShown k k' := by
  rw [SameButFiles] at h
  rw [h]
  exact ⟨fun _ _ _ => rfl, rfl, fun _ => rfl, fun _ => rfl⟩

theorem SameButFiles.screenInv (h : SameButFiles k k') (hk : ScreenInv k) : ScreenInv k' where
  input := by
    rw [h]
    exact ⟨hk.input.noc_le, hk.input.enter, hk.input.f1, hk.input.f2, hk.input.f3⟩
  mapped := by
    have hpage : screenPage k' k'.currentTerm = screenPage k k.currentTerm := by
      rw [screenPage_congr h.shown.visableTerm, h]
    rw [hpage, h]
    exact ⟨hk.mapped.tables, hk.mapped.low⟩
  cursors := hk.cursors.shown h.shown

theorem contained_files (h : ScreenInv k) (hs : SameButFiles k k') : Contained k k' where
  inv := hs.screenInv h
  visableTerm := hs.shown.visableTerm
  currentTerm := by rw [hs]
  phys b hb hb' _ := hs.shown.phys b hb hb'

section Files

variable {fd nbytes ret : Int} {buf buf' : Option Buf} {b b' : Buf} {name : Option CString}
  {d : Dentry}

theorem sameButFiles_open (h : sysOpen im curr name d k = .returned (ret, k')) :
    SameButFiles k k' := by
  rcases sysOpen_cases im curr name d k with heq | ⟨n, i, -, -, -, -, -, heq⟩
  · rw [heq] at h
    injection h with h
    exact (Prod.mk.inj h).2 ▸ .refl k
  · rw [heq] at h
    injection h with h
    exact (Prod.mk.inj h).2 ▸ .setPcb k curr _

theorem sameButFiles_close (h : sysClose curr fd k = .returned (ret, k')) : SameButFiles k k' := by
  have hk := (sysClose_frame h).kernel
  rw [SameButFiles, hk]

theorem sameButFiles_terminalRead (h : terminalRead b nbytes k = some (ret, b', k')) :
    SameButFiles k k' := by
  unfold terminalRead at h
  dsimp only at h
  split at h
  · have hk' := (Prod.mk.inj (Prod.mk.inj (Option.some.inj h)).2).2
    rw [← hk']
    rfl
  · cases h

theorem sameButFiles_callRead {fn : Option FileFn}
    (h : callRead im curr fd b nbytes k fn = .returned (ret, buf', k')) : SameButFiles k k' := by
  unfold callRead at h
  split at h
  · injection h with h
    exact (Prod.mk.inj (Prod.mk.inj h).2).2 ▸ .setPcb k curr _
  · injection h with h
    exact (Prod.mk.inj (Prod.mk.inj h).2).2 ▸ .setPcb k curr _
  · injection h with h
    exact (Prod.mk.inj (Prod.mk.inj h).2).2 ▸ .refl k
  · split at h
    · cases h
    · rename_i hread
      injection h with h
      exact (Prod.mk.inj (Prod.mk.inj h).2).2 ▸ sameButFiles_terminalRead hread
  · cases h

theorem sameButFiles_read (h : sysRead im curr fd buf nbytes k = .returned (ret, buf', k')) :
    SameButFiles k k' := by
  have hfail {b : Option Buf} (h : Outcome.returned (-1, b, k) = .returned (ret, buf', k')) :
      SameButFiles k k' := by
    injection h with h
    exact (Prod.mk.inj (Prod.mk.inj h).2).2 ▸ .refl k
  unfold sysRead at h
  split at h
  · exact hfail h
  cases buf with
  | none => exact hfail h
  | some b =>
    dsimp only at h
    split at h
    · exact hfail h
    split at h
    · exact hfail h
    · exact sameButFiles_callRead h

/-- A step of a `terminal_read`. -/
theorem sameButFiles_readStep (t : TermId) (k : Kernel) (st : ReadState) :
    SameButFiles k (readStep t k st).2 := by
  cases st with
  | copy buffer i =>
    rw [readStep]
    split
    · rfl
    · rfl
  | spin | count | clearBuffer | clearCount | clearFlag => rfl

theorem callWrite_cases {fn : Option FileFn}
    (h : callWrite b nbytes k fn = .returned (ret, k')) :
    (fn ≠ some (.terminal .write) ∧ k' = k) ∨
      fn = some (.terminal .write) ∧ k' = (terminalWrite b nbytes k).2 := by
  unfold callWrite at h
  split at h
  · injection h with h
    exact .inl ⟨by nofun, (Prod.mk.inj h).2.symm⟩
  · injection h with h
    exact .inl ⟨by nofun, (Prod.mk.inj h).2.symm⟩
  · split at h
    · injection h with h
      exact .inl ⟨by nofun, (Prod.mk.inj h).2.symm⟩
    · cases h
    · cases h
  · injection h with h
    exact .inr ⟨rfl, (Prod.mk.inj h).2.symm⟩
  · cases h

/-- **A `write`** goes to the terminal, or changes nothing. -/
theorem sysWrite_cases (h : sysWrite curr fd buf nbytes k = .returned (ret, k')) :
    ((SysCall.write fd buf nbytes).written curr k = [] ∧ k' = k) ∨
    ∃ b, (SysCall.write fd buf nbytes).written curr k = slice b 0 nbytes.toNat ∧
      k' = (terminalWrite b nbytes k).2 := by
  have hfail (h : Outcome.returned ((-1 : Int), k) = .returned (ret, k')) : k' = k := by
    injection h with h
    exact (Prod.mk.inj h).2.symm
  cases buf with
  | none =>
    refine .inl ⟨rfl, hfail ?_⟩
    rw [← h, sysWrite]
    split <;> rfl
  | some b =>
    unfold sysWrite at h
    split at h
    · rename_i hr
      refine .inl ⟨?_, hfail h⟩
      unfold SysCall.written
      dsimp only
      rw [if_neg]
      omega
    rename_i hr
    dsimp only at h
    split at h
    · rename_i huse
      exact .inl ⟨if_neg fun hc => hc.2.2.1 huse, hfail h⟩
    rename_i huse
    rcases callWrite_cases h with ⟨hfn, hk'⟩ | ⟨hfn, hk'⟩
    · exact .inl ⟨if_neg fun hc => hfn hc.2.2.2, hk'⟩
    · exact .inr ⟨b, if_pos ⟨by omega, by omega, huse, hfn⟩, hk'⟩

end Files

/-- **A write** to the terminal is drawn on the page of the current terminal. -/
theorem contained_terminalWrite (h : ScreenInv k) (buf : Buf) (nbytes : Int) :
    Contained k (terminalWrite buf nbytes k).2 := by
  have hscr : SameButScreen k (terminalWrite buf nbytes k).2 := .putsModified _ k
  obtain ⟨hpage, -⟩ := (sim_page (usesCursor_current k.currentTerm) h.mapped
    (textPage_screenPage k _) fun k' hk' => hk'.currentTerm_eq).puts lawful_screen
      (slice buf 0 nbytes.toNat) (.inl (h.cursors _)) ⟨.refl _ _ k, rfl⟩
  exact ⟨screenInv_terminalWrite h buf nbytes, hscr.visableTerm_eq, hscr.currentTerm_eq,
    fun b _ _ hb => hpage.phys b hb⟩

/-! ## `vidmap` and stores -/

/-- In the user page, and in the page after it, there is no text page. -/
theorem translate_above {p : Paging} {last : Option Nat} (h : PagingOk p last) {va pa : Nat}
    (h₁ : 0x8000000 ≤ va) (h₂ : va < 0x8401000) (ht : p.translate .supervisor va = some pa) :
    0x800000 ≤ pa := by
  by_cases hend : 0x8400000 ≤ va
  · rw [translate_pageEnd h .supervisor hend h₂] at ht
    cases ht
  · have h32 : X86.dirIndex va = userMemLocation := by
      simp only [X86.dirIndex, userMemLocation]
      omega
    obtain ⟨pid, -, rfl⟩ := translate_userEntry h h32 ht
    rw [userFrame]
    omega

theorem store8_above {va : Nat} {c : UInt8} {last : Option Nat} (hp : PagingOk k.paging last)
    (h₁ : 0x8000000 ≤ va) (h₂ : va < 0x8401000)
    (hk : k₁ = { k with phys := k₁.phys } ∧ ∀ b < 0x800000, k₁.phys b = k.phys b) :
    k₁.store8 va c = { k with phys := (k₁.store8 va c).phys } ∧
      ∀ b < 0x800000, (k₁.store8 va c).phys b = k.phys b := by
  obtain ⟨hk, hphys⟩ := hk
  have hpaging : k₁.paging = k.paging := by rw [hk]
  unfold Kernel.store8
  split
  · rename_i pa ht
    rw [hpaging] at ht
    have hpa := translate_above hp h₁ h₂ ht
    refine ⟨by rw [hk], ?_⟩
    intro b hb
    have hne : b ≠ pa := by omega
    exact (Function.update_of_ne hne c k₁.phys).trans (hphys b hb)
  · exact ⟨hk, hphys⟩

/-- The pointer of `vidmap` is stored above 8 MB. -/
theorem store32_above {va w : Nat} (hp : ∃ last, PagingOk k.paging last) (h₁ : 0x8000000 ≤ va)
    (h₂ : va < 0x8400000) (h : k.store32 va w = some k') :
    k' = { k with phys := k'.phys } ∧ ∀ b < 0x800000, k'.phys b = k.phys b := by
  obtain ⟨last, hp⟩ := hp
  unfold Kernel.store32 at h
  split at h
  · injection h with h
    rw [← h]
    refine List.foldlRecOn (motive := fun k₁ : Kernel => k₁ = { k with phys := k₁.phys } ∧
      ∀ b < 0x800000, k₁.phys b = k.phys b) _ _ ⟨rfl, fun _ _ => rfl⟩ ?_
    intro k₁ hk₁ i hi
    have hi := List.mem_range.1 hi
    exact store8_above hp (by omega) (by omega) hk₁
  · cases h

theorem contained_vidmap {screenStart : UInt32} {ret : Int} (h : ScreenInv k)
    (hs : vidmap screenStart k = some (ret, k')) : Contained k k' ∧ SameShown k k' := by
  have hrefl : Contained k k ∧ SameShown k k := ⟨contained_files h (.refl k), .refl k⟩
  unfold vidmap at hs
  split at hs
  · obtain ⟨-, rfl⟩ := Prod.mk.inj (Option.some.inj hs)
    exact hrefl
  dsimp only at hs
  split at hs
  · obtain ⟨-, rfl⟩ := Prod.mk.inj (Option.some.inj hs)
    exact hrefl
  rename_i h0 hidx
  obtain ⟨k₁, hk₁, hs⟩ := Option.bind_eq_some_iff.1 hs
  obtain ⟨-, rfl⟩ := Prod.mk.inj (Option.some.inj hs)
  have hdir := vidmapAccepts_iff.1 ⟨h0, not_not.1 hidx⟩
  have hva : 0x8000000 ≤ screenStart.toNat ∧ screenStart.toNat < 0x8400000 := by
    simp only [X86.dirIndex, userMemLocation] at hdir
    have := screenStart.toNat_lt
    omega
  obtain ⟨last, hp⟩ := h.mapped.tables
  have hvid := pagingOk_vidmap hp
  obtain ⟨hk, hphys⟩ := store32_above (k := { k with paging := pagingVidmap k.paging })
    ⟨last, hvid⟩ hva.1 hva.2 hk₁
  have hshown : SameShown k k₁ := by
    rw [hk]
    exact ⟨fun b _ hb => hphys b (by omega), rfl, fun _ => rfl, fun _ => rfl⟩
  refine ⟨⟨⟨?_, ?_, h.cursors.shown hshown⟩, hshown.visableTerm, by rw [hk],
    fun b hb hb' _ => hshown.phys b hb hb'⟩, hshown⟩
  · rw [hk]
    exact ⟨h.input.noc_le, h.input.enter, h.input.f1, h.input.f2, h.input.f3⟩
  · have hpage : screenPage k₁ k₁.currentTerm = screenPage k k.currentTerm := by
      rw [screenPage_congr hshown.visableTerm, hk]
    rw [hpage, hk]
    exact ⟨⟨last, hvid⟩, h.mapped.low⟩

/-- A byte stored by a program, which may be on a text page. -/
theorem screenInv_store {pa : Nat} {c : UInt8} (h : ScreenInv k) :
    ScreenInv { k with phys := Function.update k.phys pa c } where
  input := ⟨h.input.noc_le, h.input.enter, h.input.f1, h.input.f2, h.input.f3⟩
  mapped := ⟨h.mapped.tables, h.mapped.low⟩
  cursors := h.cursors.congr (fun _ => rfl) fun _ => rfl

/-! ## System calls -/

/-- **Every system call** is contained, whatever it prints. -/
theorem contained_sysCall {c : SysCall} (h : ScreenInv k) (hs : sysCall im sp k c k') :
    Contained k k' := by
  cases c with
  | «open» filename dirEntry =>
    obtain ⟨ret, hs⟩ := hs
    exact contained_files h (sameButFiles_open hs)
  | close fd =>
    obtain ⟨ret, hs⟩ := hs
    exact contained_files h (sameButFiles_close hs)
  | read fd buf nbytes =>
    obtain ⟨ret, buf', hs⟩ := hs
    exact contained_files h (sameButFiles_read hs)
  | write fd buf nbytes =>
    obtain ⟨ret, hs⟩ := hs
    rcases sysWrite_cases hs with ⟨-, rfl⟩ | ⟨b, -, rfl⟩
    · exact contained_files h (.refl k')
    · exact contained_terminalWrite h b nbytes
  | getargs buf nbytes =>
    obtain ⟨o, -, rfl⟩ := hs
    exact contained_files h (.refl k')
  | vidmap screenStart =>
    obtain ⟨ret, hs⟩ := hs
    exact (contained_vidmap h hs).1
  | execute command =>
    obtain ⟨o, hs⟩ := hs
    exact contained_callExecute h hs
  | halt status =>
    obtain ⟨o, hs⟩ := hs
    exact contained_halt h hs

/-- An `execute` without a message shows nothing. -/
theorem shown_callExecute (hq : (SysCall.execute cmd).NoMessage im sp k)
    (hs : callExecute im sp cmd k = some (o, k')) : SameShown k k' := by
  rcases callExecute_some hs with ⟨pid, eip, -, he⟩ | ⟨-, he⟩ | ⟨k₁, he, -⟩
  · exact shown_started he
  · rcases execute_failed_cases he with rfl | ⟨hn, -⟩
    · exact .refl _
    · exact absurd hq hn
  · obtain ⟨command, prog, pid, rfl, hlook, hfree, hstart⟩ := execute_pageFault he
    obtain ⟨-, h₁, h₆, -⟩ := freeSlot_eq_some.1 hfree
    obtain ⟨k₂, hk₂⟩ := startProgram_of_fits sp k h₁ h₆ (hq.2 prog hlook).2
    cases hstart.symm.trans hk₂

/-- **A call without a message** draws what it writes on the screen of the current terminal, at
its cursor, and nothing anywhere else. -/
theorem draws_sysCall {c : SysCall} (h : ScreenInv k) (hq : c.NoMessage im sp k)
    (hs : sysCall im sp k c k') :
    Draws k.currentTerm (screenConsole.puts (c.written (getPcbAddress sp) k)) k k' := by
  cases c with
  | «open» filename dirEntry =>
    obtain ⟨ret, hs⟩ := hs
    exact .of_shown (sameButFiles_open hs).shown _
  | close fd =>
    obtain ⟨ret, hs⟩ := hs
    exact .of_shown (sameButFiles_close hs).shown _
  | read fd buf nbytes =>
    obtain ⟨ret, buf', hs⟩ := hs
    exact .of_shown (sameButFiles_read hs).shown _
  | write fd buf nbytes =>
    obtain ⟨ret, hs⟩ := hs
    rcases sysWrite_cases hs with ⟨hw, rfl⟩ | ⟨b, hw, rfl⟩
    · rw [hw]
      exact .of_shown (.refl k') _
    · rw [hw]
      exact draws_terminalWrite h b nbytes
  | getargs buf nbytes =>
    obtain ⟨o, -, rfl⟩ := hs
    exact .of_shown (.refl k') _
  | vidmap screenStart =>
    obtain ⟨ret, hs⟩ := hs
    exact .of_shown (contained_vidmap h hs).2 _
  | execute command =>
    obtain ⟨o, hs⟩ := hs
    exact .of_shown (shown_callExecute hq hs) _
  | halt status =>
    obtain ⟨o, hs⟩ := hs
    rw [halt_of_child hq] at hs
    exact .of_shown (shown_haltRest hs) _

/-! ## Runs -/

/-- A tick leaves the mapping right, however it was. -/
theorem screenInv_next (hin : InputOk k) (hp : ∃ last, PagingOk k.paging last) (hc : CursorsOk k)
    (hs : schedulerNext im sp k = some (o, k')) : ScreenInv k' := by
  have hsched : ScreenInv (scheduled sp k) :=
    ⟨hin.received (scheduled_same sp k).received,
      ⟨(recalled_scheduled sp k).pagingOk hp, (videoOk_scheduled sp k).low⟩,
      hc.shown (shown_scheduled sp k)⟩
  have hon := (contained_shown hsched (shown_turnOn (k.currentTerm + 1) (scheduled sp k))
    (procFrame_turnOn _ _)).inv
  rcases schedulerNext_cases hs with
    ⟨-, -, rfl⟩ | ⟨-, ⟨_, _, he, -⟩ | ⟨k₁, he, -, hk'⟩ | ⟨k₁, he, hf⟩⟩
  · have hshown : SameShown (scheduled sp k) (switchTo (k.currentTerm + 1)
        (k.terminals (k.currentTerm + 1)).pid (scheduled sp k)) :=
      ⟨fun _ _ _ => rfl, rfl, fun _ => rfl, fun _ => rfl⟩
    exact (contained_shown hsched hshown (procFrame_changeProcess _ _ _)).inv
  · exact (contained_started hon he).inv
  · rw [hk']
    exact (contained_printf (contained_failed hon he).inv "failed").inv
  · rw [handle14_eq] at hf
    exact (contained_pageFaultAt (contained_pageFault hon he).inv hf).inv

/-- Keys before the first tick leave what the first tick needs. -/
theorem boot_keys {evs : List KeyEvent}
    (hk : InputOk k ∧ (∃ last, PagingOk k.paging last) ∧ CursorsOk k)
    (h : evs.foldlM (fun k ev => checkInput ev k) k = some k') :
    InputOk k' ∧ (∃ last, PagingOk k'.paging last) ∧ CursorsOk k' := by
  induction evs generalizing k with
  | nil => exact Option.some.inj h ▸ hk
  | cons ev evs ih =>
    obtain ⟨hin, hp, hc⟩ := hk
    rw [List.foldlM_cons] at h
    obtain ⟨k₁, hk₁, h⟩ := Option.bind_eq_some_iff.1 h
    have hinv := screenInv_checkInput hin hp hc hk₁
    exact ih ⟨hinv.input, hinv.mapped.tables, hinv.cursors⟩ h

theorem screenInv_firstTick {k₀ : Kernel} (h : FirstTick im k₀ k) : ScreenInv k := by
  obtain ⟨evs, k₁, sp, o, hkeys, hs⟩ := h
  obtain ⟨hin, hp, hc⟩ :=
    boot_keys ⟨inputOk_entry k₀, ⟨_, pagingOk_entry k₀⟩, cursorsOk_entry k₀⟩ hkeys
  exact screenInv_next hin hp hc hs

/-- **Every step** keeps the invariant. -/
theorem screenInv_machine {e : MachineEvent} {u : Unit} (h : ScreenInv k)
    (hs : machine im k e u k') : ScreenInv k' := by
  cases e with
  | tick sp =>
    obtain ⟨o, hs⟩ := hs
    exact screenInv_next h.input h.mapped.tables h.cursors hs
  | key ev => exact screenInv_checkInput h.input h.mapped.tables h.cursors hs
  | store va c =>
    obtain ⟨pa, -, rfl⟩ := hs
    exact screenInv_store h
  | readStep t st =>
    obtain rfl := hs
    exact (sameButFiles_readStep t k st).screenInv h
  | fault sp address =>
    obtain ⟨o, hs⟩ := hs
    exact (contained_pageFaultAt h hs).inv
  | call sp c => exact (contained_sysCall h hs).inv

/-- **A background process.** In every state that the machine reaches after the first tick, with
another terminal visible than the current one: a system call changes no byte of the video page,
and neither of the two terminal numbers. A call that has no message to print leaves the logical
screen and the cursor of the visible terminal as they were; what it writes comes out on the
screen of the current terminal, at its cursor, and no other terminal shows anything of it. -/
theorem background_call {k₀ : Kernel} {tr : List (MachineEvent × Unit)} {c : SysCall}
    (h₁ : FirstTick im k₀ k₁) (h : Run (machine im) k₁ tr k)
    (hidden : k.currentTerm ≠ k.visableTerm) (hs : sysCall im sp k c k') :
    k'.visableTerm = k.visableTerm ∧ k'.currentTerm = k.currentTerm ∧
    (screenOf k' k.visableTerm).cells = (screenOf k k.visableTerm).cells ∧
    (c.NoMessage im sp k → screenOf k' k.visableTerm = screenOf k k.visableTerm ∧
      Draws k.currentTerm (screenConsole.puts (c.written (getPcbAddress sp) k)) k k') := by
  have hinv : ScreenInv k := h.invariant (screenInv_firstTick h₁) fun _ _ _ _ hk hs =>
    screenInv_machine hk hs
  have hcon := contained_sysCall hinv hs
  refine ⟨hcon.visableTerm, hcon.currentTerm, hcon.cells hidden.symm, fun hq => ?_⟩
  have hdraw := draws_sysCall hinv hq hs
  exact ⟨hdraw.others k.visableTerm hidden.symm, hdraw⟩

end Contain

/-! ## Two calls of the second shell -/

section Calls

variable {im : Image} {sp : Nat} {k : Kernel}

/-- A line with its end, on a row that is not the last. -/
theorem screen_line {l : List UInt8} (hl : ∀ c ∈ l, ¬ (c = newline ∨ c = carriageReturn))
    {s : Screen} (hx : s.x + l.length < 80) (hy : s.y + 1 < 25) :
    (screenConsole.puts (l ++ [newline]) s).y = s.y + 1 := by
  obtain ⟨-, h⟩ := screen_puts hl hx (Nat.lt_of_succ_lt hy)
  have hlast : screenConsole.puts (l ++ [newline]) s =
      screenConsole.putc newline (screenConsole.puts l s) := List.foldl_append
  rw [← h] at hy ⊢
  rw [hlast, putc_newline (by decide), lineDown, if_pos hy]

theorem strlen_replicate (n : Nat) {c : UInt8} (hc : c ≠ 0) :
    strlen (.ofList (List.replicate n c)) = n := by
  simp [strlen, CString.ofList, hc]

/-- A command that is too long. -/
theorem callExecute_long {command : CString} (hlen : 128 < strlen command) :
    callExecute im sp (some command) k = some (.failed, printf "Bad Length\n" k) := by
  have he : execute im sp (some command) k = .failed (printf "Bad Length\n" k) := if_pos hlen
  rw [callExecute, he]

/-- The cursor is on no page. -/
theorem viewOf_y (a b : Nat) (t : TermId) (k : Kernel) : (viewOf a t k).y = (viewOf b t k).y := rfl

/-- The second shell executes a command of 129 characters, and the cursor of terminal 0 moves. -/
theorem background_call_bad_length : ∃ k₁ k k',
    FirstTick shellImage default k₁ ∧
    Run (machine shellImage) k₁ [(.tick (k₁.sp 0), ())] k ∧
    k.currentTerm ≠ k.visableTerm ∧
    sysCall shellImage (k.sp 0) k (.execute (some (.ofList (List.replicate 129 97)))) k' ∧
    (screenOf k k.visableTerm).y = 0 ∧ (screenOf k' k.visableTerm).y = 1 := by
  obtain ⟨k₁, k, h₁, h₂, -, hcur, hvis, -, -⟩ := first_ticks hasShell_shellImage default
  have hfirst : FirstTick shellImage default k₁ := ⟨[], entry default, _, _, rfl, h₁⟩
  have hrun : Run (machine shellImage) k₁ [(.tick (k₁.sp 0), ())] k :=
    Run.single (R := machine shellImage) ⟨_, h₂⟩
  obtain ⟨him, -, hshells⟩ := first_tick h₁
  have hinv : ScreenInv k := hrun.invariant (screenInv_firstTick hfirst) fun _ _ _ _ hk hs =>
    screenInv_machine hk hs
  have hshown : SameShown (entry default) k :=
    (shown_tick him (shellsOnly_entry default).freeSlot h₁).trans
      (shown_tick him hshells.freeSlot h₂)
  have hhome : (screenOf k k.visableTerm).x = 0 ∧ (screenOf k k.visableTerm).y = 0 := by
    rw [hshown.screenOf, hshown.visableTerm]
    exact home_entry default
  refine ⟨k₁, k, _, hfirst, hrun, by rw [hcur, hvis]; decide,
    ⟨_, callExecute_long (by rw [strlen_replicate 129 (by decide)]; decide)⟩, hhome.2, ?_⟩
  obtain ⟨-, hview⟩ := view_printf hinv.mapped (textPage_screenPage k _) hinv.cursors "Bad Length\n"
  have hchars : chars "Bad Length\n" = chars "Bad Length" ++ [newline] := by decide +kernel
  have hlen : (chars "Bad Length").length = 10 := by decide +kernel
  have hline := @screen_line (chars "Bad Length") (by decide +kernel)
    (viewOf (screenPage k k.currentTerm) k.visableTerm k)
    (by rw [hlen]; exact (congrArg (· + 10) hhome.1).trans_lt (by decide))
    ((congrArg (· + 1) hhome.2).trans_lt (by decide))
  have hputs := congrArg (fun l => (screenConsole.puts l
    (viewOf (screenPage k k.currentTerm) k.visableTerm k)).y) hchars
  rw [screenOf, viewOf_y _ (screenPage k k.currentTerm), hview]
  exact hputs.trans (hline.trans (congrArg (· + 1) hhome.2))

/-- It writes an `a`, which comes out on terminal 1. -/
theorem background_call_write : ∃ k₁ k k',
    FirstTick shellImage default k₁ ∧
    Run (machine shellImage) k₁ [(.tick (k₁.sp 0), ())] k ∧
    k.currentTerm = 1 ∧ k.visableTerm = 0 ∧
    sysCall shellImage (k.sp 0) k (.write 1 (some fun _ => 97) 1) k' ∧
    screenOf k' 0 = screenOf k 0 ∧
    screenOf k' 1 = screenConsole.putc 97 (screenOf k 1) := by
  obtain ⟨k₁, k, h₁, h₂, -, hcur, hvis, -, hst⟩ := first_ticks hasShell_shellImage default
  have hfirst : FirstTick shellImage default k₁ := ⟨[], entry default, _, _, rfl, h₁⟩
  have hrun : Run (machine shellImage) k₁ [(.tick (k₁.sp 0), ())] k :=
    Run.single (R := machine shellImage) ⟨_, h₂⟩
  have hsp : getPcbAddress (k.sp 0) = pcbAddr 2 :=
    getPcbAddress_sp hst.tssEsp0 (by decide) (by decide)
  obtain ⟨prog, hpcb⟩ := hst.pcb
  have hfds : FdInv (k.pcbMem (getPcbAddress (k.sp 0))) := by
    rw [hsp, hpcb, Function.update_self]
    exact (fdInv_started _ _ _ _).1
  obtain ⟨huse, hops⟩ := hfds.stdout
  have hcall : sysCall shellImage (k.sp 0) k (.write 1 (some fun _ => 97) 1)
      (terminalWrite (fun _ => 97) 1 k).2 := by
    refine ⟨(terminalWrite (fun _ => 97) 1 k).1, ?_⟩
    rw [sysWrite_of_open (fun _ => 97) (by decide) ⟨by decide, by decide, huse⟩]
    change callWrite _ 1 k (((k.pcbMem (getPcbAddress (k.sp 0))).fdArray 1).operationstable.entry
      .write) = _
    rw [hops]
    rfl
  have hidden : k.currentTerm ≠ k.visableTerm := by
    rw [hcur, hvis]
    decide
  obtain ⟨-, -, -, hsilent⟩ := background_call hfirst hrun hidden hcall
  obtain ⟨hvisible, hdraw⟩ := hsilent trivial
  have hwritten : (SysCall.write 1 (some fun _ => 97) 1).written (getPcbAddress (k.sp 0)) k =
      [97] := by
    refine if_pos ⟨by decide, by decide, ?_, ?_⟩
    · exact huse.trans_ne inuse_ne_notinuse
    · exact congrArg (OpsPtr.entry · .write) hops
  have hown := hdraw.own
  rw [hwritten, hcur] at hown
  rw [hvis] at hvisible
  exact ⟨k₁, k, _, hfirst, hrun, hcur, hvis, hcall, hvisible, hown⟩

end Calls

end Kernel391

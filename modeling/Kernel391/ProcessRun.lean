import Kernel391.DescriptorProof

/-!
# Processes over whole runs

`procSystem` takes the timer, `execute` and `halt` as its steps. A step that starts a program is
remembered (`lastStart`): which call it was, on which terminal, who called, and where on the
caller's stack. `Made` says what the PCB of a program that was started still holds, whatever
happened since and whatever the memory held before.

* `made_step` — every step keeps `Made`.
* `exit_status` — `halt` returns to the `execute` that started the process, with the status
  exactly when the PCB of the child already held it: `halt` writes the parent's PCB, and
  `execute` reads the child's.
-/

namespace Kernel391

open Bytes Runs

/-! ## The system -/

/-- A timer tick, an `execute` or a `halt`. Each arrives on the kernel stack that the TSS names,
`depth + 1` bytes below its top. -/
inductive ProcEvent
  | tick (depth : Nat)
  | execute (depth : Nat) (command : Option CString)
  | halt (depth : Nat) (status : UInt8)

def ProcEvent.depth : ProcEvent → Nat
  | .tick depth => depth
  | .execute depth _ => depth
  | .halt depth _ => depth

/-- The stack pointer of a call that arrives now. -/
def Kernel.sp (k : Kernel) (depth : Nat) : Nat := k.tssEsp0 - (depth + 1)

/-- A call of `execute` by a program. Loading a file that is too long for the user page faults. -/
def callExecute (im : Image) (sp : Nat) (command : Option CString) (k : Kernel) :
    Option (Output × Kernel) :=
  match execute im sp command k with
  | .started pid _ k => some (.started pid, k)
  | .failed k => some (.failed, k)
  | .pageFault k => handle14 im sp k

/-- One step. Before the first tick no program runs, so none makes a call. -/
def procStep (im : Image) (k : Kernel) : ProcEvent → Option (Output × Kernel)
  | .tick depth => schedulerNext im (k.sp depth) k
  | .execute depth command =>
    if k.cpu = pcbAddr 0 then none else callExecute im (k.sp depth) command k
  | .halt depth status => if k.cpu = pcbAddr 0 then none else halt im (k.sp depth) status k

/-- What is remembered of a step: its output, the terminal it ends on, the process whose program
ran before it, and the stack pointer it arrived at. -/
structure Seen where
  output : Output
  term : TermId
  caller : Nat
  esp : Nat

/-- The steps of the system. -/
structure ProcStep (im : Image) (k : Kernel) (e : ProcEvent) (o : Seen) (k' : Kernel) : Prop where
  depth : e.depth < 0x1FFF
  step : procStep im k e = some (o.output, k')
  term : o.term = k'.currentTerm
  caller : o.caller = (k.pcbMem k.cpu).processId
  esp : o.esp = k.sp e.depth

def procSystem (im : Image) : System Kernel ProcEvent Seen := ProcStep im

/-- The step that last started process `pid`. -/
def lastStart (tr : List (ProcEvent × Seen)) : Nat → Option (ProcEvent × Seen) :=
  tr.foldl (fun m l => match l.2.output with
    | .started pid => Function.update m pid (some l)
    | _ => m) fun _ => none

/-- The program that an `execute` would start. -/
def Accepts (im : Image) (k : Kernel) (command : Option CString) (prog : Program) : Prop :=
  ∃ c pid, command = some c ∧ strlen c ≤ 128 ∧ lookupProgram im c = some prog ∧
    freeSlot k = some pid

/-- An `execute` that starts a program or returns -1: it does not fault. -/
def Completes (im : Image) (k : Kernel) : ProcEvent → Prop
  | .execute _ command => ∀ prog, Accepts im k command prog → Fits im prog.inodeNum
  | _ => True

/-! ## Kernel stacks -/

/-- The mask clears the offset in the stack's 8 KB page. -/
theorem getPcbAddress_eq {x : Nat} (h : x < 0x1000000) :
    getPcbAddress x = x / 0x2000 * 0x2000 := by
  rw [getPcbAddress, pcbMask]
  apply Nat.eq_of_testBit_eq
  intro i
  rw [Nat.testBit_and, show (0xFFE000 : Nat) = (2 ^ 11 - 1) * 2 ^ 13 by decide,
    show 0x2000 = 2 ^ 13 by decide, Nat.testBit_mul_two_pow, Nat.testBit_mul_two_pow,
    Nat.testBit_div_two_pow, Nat.testBit_two_pow_sub_one]
  by_cases hi : 13 ≤ i
  · by_cases hj : i < 24
    · simp [hi, show i - 13 < 11 by omega, show i - 13 + 13 = i by omega]
    · have hbit : x.testBit i = false := Nat.testBit_lt_two_pow (lt_of_lt_of_le h (by
        calc 0x1000000 = 2 ^ 24 := by decide
          _ ≤ 2 ^ i := Nat.pow_le_pow_right (by decide) (by omega)))
      simp [hbit, show i - 13 + 13 = i by omega]
  · simp [hi]

/-- A call that arrives on the stack of process `q` finds the PCB of `q` below it. -/
theorem getPcbAddress_sp {k : Kernel} {q depth : Nat}
    (h : k.tssEsp0 = endKmem - q * kernelMemSize) (hq : q ≤ 6) (hd : depth < 0x1FFF) :
    getPcbAddress (k.sp depth) = pcbAddr q := by
  rw [Kernel.sp, h, getPcbAddress_eq (by simp only [endKmem]; omega)]
  simp only [endKmem, kernelMemSize, pcbAddr, pcbSize]
  omega

/-- The parent's process id, as `execute` computes it from the parent's PCB. -/
theorem parentId_eq {q : Nat} (hq : q ≤ 6) : (endKmem - pcbAddr q) / pcbSize - 1 = q := by
  simp only [endKmem, pcbAddr, pcbSize]
  omega

theorem pcbAddr_inj {p q : Nat} (hp : p ≤ 6) (hq : q ≤ 6) (h : pcbAddr p = pcbAddr q) :
    p = q := by
  simp only [endKmem, pcbAddr, pcbSize] at h
  omega

/-! ## What was started -/

section History

variable {tr : List (ProcEvent × Seen)} {e : ProcEvent} {o : Seen} {p pid : Nat}

theorem lastStart_concat_started (h : o.output = .started pid) :
    lastStart (tr ++ [(e, o)]) = Function.update (lastStart tr) pid (some (e, o)) := by
  simp only [lastStart, List.foldl_append, List.foldl_cons, List.foldl_nil, h]

theorem lastStart_concat_of_ne (h : ∀ pid, o.output ≠ .started pid) :
    lastStart (tr ++ [(e, o)]) = lastStart tr := by
  simp only [lastStart, List.foldl_append, List.foldl_cons, List.foldl_nil]

end History

/-- What the PCB of process `p` holds since the step that started it. -/
structure PcbOk (k : Kernel) (p : Nat) (l : ProcEvent × Seen) : Prop where
  ge : 1 ≤ p
  le : p ≤ 6
  processId : (k.pcbMem (pcbAddr p)).processId = p
  frame : (k.pcbMem (pcbAddr p)).parentEsp = { esp := l.2.esp, currentProcess := pcbAddr p }
  fds : FdInv (k.pcbMem (pcbAddr p))

/-- The parent of process `p` is process `q`. -/
structure HasParent (k : Kernel) (p q : Nat) : Prop where
  addr : (k.pcbMem (pcbAddr p)).parent = pcbAddr q
  id : (k.pcbMem (pcbAddr p)).parentProcessId = q

/-- Terminal `t` runs a process that was started, once it is on. -/
def TermOk (tr : List (ProcEvent × Seen)) (k : Kernel) (t : TermId) : Prop :=
  if k.isOn t then lastStart tr (k.terminals t).pid ≠ none else (k.terminals t).pid = t + 1

/-- **What holds of processes in every run.** -/
structure Made (tr : List (ProcEvent × Seen)) (k : Kernel) : Prop where
  pcb : ∀ p l, lastStart tr p = some l → PcbOk k p l
  parent : ∀ p, lastStart tr p ≠ none → 3 < p → ∃ q, lastStart tr q ≠ none ∧ HasParent k p q
  running : ∀ p, k.processesRunning p = true → lastStart tr p ≠ none
  terms : ∀ t, TermOk tr k t
  stack : (k.cpu = pcbAddr 0 ∧ k.tssEsp0 = endKmem ∧ ∀ p, lastStart tr p = none) ∨
    ∃ q, lastStart tr q ≠ none ∧ k.tssEsp0 = endKmem - q * kernelMemSize ∧
      k.isOn k.currentTerm = true

theorem made_boot {k₀ k : Kernel} (h : SameButScreen (bootState k₀) k) : Made [] k where
  pcb p l hl := absurd hl (by simp [lastStart])
  parent p hp := absurd rfl hp
  running p hp := by
    rw [h.kernel] at hp
    cases hp
  terms t := by
    have hon : k.isOn t = false := by rw [h.kernel]; rfl
    rw [TermOk, hon, h.terminals]
    rfl
  stack := .inl ⟨by rw [h.kernel]; rfl, by rw [h.kernel]; rfl, fun _ => rfl⟩

/-! ## What a step keeps -/

section Startable

variable {im : Image} {sp pid : Nat} {k k' : Kernel}

/-- A call happens only once a program runs. -/
theorem procStep_execute {depth : Nat} {cmd : Option CString} {r : Output × Kernel}
    (h : procStep im k (.execute depth cmd) = some r) :
    k.cpu ≠ pcbAddr 0 ∧ callExecute im (k.sp depth) cmd k = some r := by
  rw [procStep] at h
  split at h
  · cases h
  · exact ⟨‹_›, h⟩

theorem procStep_halt {depth : Nat} {status : UInt8} {r : Output × Kernel}
    (h : procStep im k (.halt depth status) = some r) :
    k.cpu ≠ pcbAddr 0 ∧ halt im (k.sp depth) status k = some r := by
  rw [procStep] at h
  split at h
  · cases h
  · exact ⟨‹_›, h⟩

/-- An `execute` starts a program, or fails, or faults while it loads one. -/
theorem callExecute_some {cmd : Option CString} {o : Output}
    (h : callExecute im sp cmd k = some (o, k')) :
    (∃ pid eip, o = .started pid ∧ execute im sp cmd k = .started pid eip k') ∨
    (o = .failed ∧ execute im sp cmd k = .failed k') ∨
    ∃ k₁, execute im sp cmd k = .pageFault k₁ ∧ handle14 im sp k₁ = some (o, k') := by
  unfold callExecute at h
  split at h
  · rename_i pid eip k₁ he
    obtain ⟨rfl, rfl⟩ := Prod.mk.inj (Option.some.inj h)
    exact .inl ⟨pid, eip, rfl, he⟩
  · rename_i k₁ he
    obtain ⟨rfl, rfl⟩ := Prod.mk.inj (Option.some.inj h)
    exact .inr (.inl ⟨rfl, he⟩)
  · rename_i k₁ he
    exact .inr (.inr ⟨k₁, he, h⟩)

/-- The shell never faults, and fails only when no slot is free. -/
theorem execute_shell_cases (him : HasShell im) (sp : Nat) (k : Kernel) :
    (∃ pid eip k', execute im sp (some shell) k = .started pid eip k') ∨
      freeSlot k = none ∧ ∃ k', execute im sp (some shell) k = .failed k' := by
  cases hfree : freeSlot k with
  | some pid =>
    obtain ⟨prog, k', -, he, -⟩ := execute_shell sp him hfree
    exact .inl ⟨pid, prog.eip, k', he⟩
  | none =>
    refine .inr ⟨rfl, ?_⟩
    rcases execute_cases im sp (some shell) k with ⟨k', he, -⟩ | ⟨_, _, _, _, _, _, hfree', -⟩
    · exact ⟨k', he⟩
    · rw [hfree] at hfree'
      cases hfree'

theorem freeSlot_of_execute_failed (him : HasShell im)
    (h : execute im sp (some shell) k = .failed k') : freeSlot k = none := by
  rcases execute_shell_cases him sp k with ⟨pid, eip, k₁, he⟩ | ⟨hfull, -⟩
  · rw [he] at h
    cases h
  · exact hfull

theorem execute_shell_ne_pageFault (him : HasShell im) :
    execute im sp (some shell) k ≠ .pageFault k' := by
  rcases execute_shell_cases him sp k with ⟨pid, eip, k₁, he⟩ | ⟨-, k₁, he⟩
  · rw [he]
    nofun
  · rw [he]
    nofun

/-- An `execute` that completes starts a program or returns -1. -/
theorem callExecute_cases {cmd : Option CString} {depth : Nat} {o : Output}
    (hc : Completes im k (.execute depth cmd)) (h : callExecute im sp cmd k = some (o, k')) :
    (o = .failed ∧ SameButScreen k k') ∨ ∃ pid prog, o = .started pid ∧ Started sp pid k k' ∧
      Accepts im k cmd prog := by
  unfold callExecute at h
  rcases execute_cases im sp cmd k with ⟨k₁, he, hs⟩ | ⟨c, prog, pid, hcmd, hlen, hlook, hfree, he⟩
  · rw [he] at h
    obtain ⟨rfl, rfl⟩ := Prod.mk.inj (Option.some.inj h)
    exact .inl ⟨rfl, hs⟩
  · have hacc : Accepts im k cmd prog := ⟨c, pid, hcmd, hlen, hlook, hfree⟩
    obtain ⟨-, h₁, h₆, -⟩ := freeSlot_eq_some.1 hfree
    obtain ⟨k₁, hk₁⟩ := startProgram_of_fits sp k h₁ h₆ (hc prog hacc)
    rw [he, hk₁] at h
    obtain ⟨rfl, rfl⟩ := Prod.mk.inj (Option.some.inj h)
    exact .inr ⟨pid, prog, rfl, started_of_execute (he.trans hk₁), hacc⟩

end Startable

section Keep

variable {im : Image} {tr : List (ProcEvent × Seen)} {e : ProcEvent} {o : Seen} {sp pid p : Nat}
  {k k₁ k' : Kernel}

theorem startedPcb_parent (sp : Nat) (prog : Program) (old : Pcb) (h : 3 < pid) :
    (startedPcb pid sp prog old).parent = getPcbAddress sp ∧
      (startedPcb pid sp prog old).parentProcessId =
        (endKmem - getPcbAddress sp) / pcbSize - 1 := by
  have h' : pid > numTerminals := h
  simp [startedPcb, newPcb, setUpFdsandargs, setUpStdout, setUpStdin, Pcb.setFd, h']

theorem FdInv.closed {p p' : Pcb} (h : FdInv p) (hc : ClosedFds p p') : FdInv p' where
  stdin := by
    rw [(hc 0).resolve_right (by omega)]
    exact h.stdin
  stdout := by
    rw [(hc 1).resolve_right (by omega)]
    exact h.stdout
  slots i h₁ h₂ := by
    rcases hc i with hi | ⟨-, hi⟩ <;> rw [hi]
    · exact h.slots i h₁ h₂
    · exact .inl rfl

/-- The PCB of a process that is just started. -/
theorem Started.pcbOk (h : Started sp pid k k') (ho : o.esp = sp) : PcbOk k' pid (e, o) := by
  obtain ⟨prog, hp⟩ := h.pcb
  obtain ⟨-, h₁, h₆, -⟩ := freeSlot_eq_some.1 h.free
  have hself : k'.pcbMem (pcbAddr pid) = startedPcb pid sp prog (k.pcbMem (pcbAddr pid)) := by
    rw [hp, Function.update_self]
  refine ⟨h₁, h₆, ?_, ?_, ?_⟩ <;> rw [hself]
  · rfl
  · rw [startedPcb, ho]
  · exact (fdInv_started pid sp prog _).1

/-- A process started from the stack of `q` has `q` for its parent. -/
theorem Started.hasParent {q : Nat} (h : Started sp pid k k') (h₃ : 3 < pid) (hq : q ≤ 6)
    (hsp : getPcbAddress sp = pcbAddr q) : HasParent k' pid q := by
  obtain ⟨prog, hp⟩ := h.pcb
  have hself : k'.pcbMem (pcbAddr pid) = startedPcb pid sp prog (k.pcbMem (pcbAddr pid)) := by
    rw [hp, Function.update_self]
  obtain ⟨ha, hi⟩ := startedPcb_parent sp prog (k.pcbMem (pcbAddr pid)) h₃
  refine ⟨by rw [hself, ha, hsp], by rw [hself, hi, hsp, parentId_eq hq]⟩

/-- The other PCBs stay. -/
theorem Started.pcbMem_of_ne (h : Started sp pid k k') (hp : p ≤ 6) (hne : p ≠ pid) :
    k'.pcbMem (pcbAddr p) = k.pcbMem (pcbAddr p) := by
  obtain ⟨prog, hk⟩ := h.pcb
  obtain ⟨-, -, h₆, -⟩ := freeSlot_eq_some.1 h.free
  rw [hk, Function.update_of_ne fun hc => hne (pcbAddr_inj hp h₆ hc)]

/-- A step that starts a program, on a state `k₁` that agrees with `k` but for the current
terminal. -/
theorem Made.start (h : Made tr k) (hs : Started sp pid k₁ k') (ho : o.output = .started pid)
    (hesp : o.esp = sp) (hpcb : k₁.pcbMem = k.pcbMem)
    (hrun : ∀ p, k₁.processesRunning p = true → k.processesRunning p = true)
    (hother : ∀ t ≠ k₁.currentTerm,
      k₁.isOn t = k.isOn t ∧ (k₁.terminals t).pid = (k.terminals t).pid)
    (hon : k₁.isOn k₁.currentTerm = true)
    (hsp : 3 < pid → ∃ q, lastStart tr q ≠ none ∧ getPcbAddress sp = pcbAddr q) :
    Made (tr ++ [(e, o)]) k' := by
  have hlast : lastStart (tr ++ [(e, o)]) = Function.update (lastStart tr) pid (some (e, o)) :=
    lastStart_concat_started ho
  have hself : lastStart (tr ++ [(e, o)]) pid ≠ none := by
    rw [hlast, Function.update_self]
    exact Option.some_ne_none _
  have hmono : ∀ {p}, lastStart tr p ≠ none → lastStart (tr ++ [(e, o)]) p ≠ none := by
    intro p hp
    by_cases hpp : p = pid
    · exact hpp ▸ hself
    · rwa [hlast, Function.update_of_ne hpp]
  have hold : ∀ {p}, lastStart tr p ≠ none → p ≠ pid →
      k'.pcbMem (pcbAddr p) = k.pcbMem (pcbAddr p) := by
    intro p hp hne
    obtain ⟨l, hl⟩ := Option.ne_none_iff_exists'.1 hp
    rw [hs.pcbMem_of_ne (h.pcb p l hl).le hne, hpcb]
  exact
    { pcb := by
        intro p l hl
        by_cases hpp : p = pid
        · subst hpp
          rw [hlast, Function.update_self, Option.some.injEq] at hl
          exact hl ▸ hs.pcbOk hesp
        · rw [hlast, Function.update_of_ne hpp] at hl
          have hok := h.pcb p l hl
          have hp := hold (hl ▸ Option.some_ne_none l) hpp
          exact ⟨hok.ge, hok.le, hp ▸ hok.processId, hp ▸ hok.frame, hp ▸ hok.fds⟩
      parent := by
        intro p hp h₃
        by_cases hpp : p = pid
        · subst hpp
          obtain ⟨q, hq, hqs⟩ := hsp h₃
          obtain ⟨l, hl⟩ := Option.ne_none_iff_exists'.1 hq
          exact ⟨q, hmono hq, hs.hasParent h₃ (h.pcb q l hl).le hqs⟩
        · rw [hlast, Function.update_of_ne hpp] at hp
          obtain ⟨q, hq, hpar⟩ := h.parent p hp h₃
          exact ⟨q, hmono hq, (hold hp hpp) ▸ hpar.addr, (hold hp hpp) ▸ hpar.id⟩
      running := by
        intro p hp
        rw [hs.processesRunning] at hp
        by_cases hpp : p = pid
        · exact hpp ▸ hself
        · rw [Function.update_of_ne hpp] at hp
          exact hmono (h.running p (hrun p hp))
      terms := by
        intro t
        rw [TermOk, hs.isOn, hs.terminals_pid]
        by_cases ht : t = k₁.currentTerm
        · rw [if_pos ht, ht, hon, if_pos rfl]
          exact hself
        · obtain ⟨hon', hpid⟩ := hother t ht
          have hterm := h.terms t
          rw [TermOk] at hterm
          rw [if_neg ht, hon', hpid]
          split at hterm
          · rw [if_pos ‹_›]
            exact hmono hterm
          · rw [if_neg ‹_›]
            exact hterm
      stack := by
        refine .inr ⟨pid, hself, hs.tssEsp0, ?_⟩
        rw [hs.isOn, hs.currentTerm, hon] }

/-- A step that starts no program. -/
theorem Made.keep (h : Made tr k) (hne : ∀ pid, o.output ≠ .started pid)
    (hlinks : ∀ a, SameLinks (k.pcbMem a) (k'.pcbMem a))
    (hfds : ∀ a, ClosedFds (k.pcbMem a) (k'.pcbMem a))
    (hrun : ∀ p, k'.processesRunning p = true → k.processesRunning p = true)
    (hterms : ∀ t, TermOk tr k' t)
    (hstack : ∃ q, lastStart tr q ≠ none ∧ k'.tssEsp0 = endKmem - q * kernelMemSize ∧
      k'.isOn k'.currentTerm = true) :
    Made (tr ++ [(e, o)]) k' := by
  have hlast : lastStart (tr ++ [(e, o)]) = lastStart tr := lastStart_concat_of_ne hne
  exact
    { pcb := by
        intro p l hl
        rw [hlast] at hl
        have hok := h.pcb p l hl
        exact ⟨hok.ge, hok.le, (hlinks _).processId.trans hok.processId,
          (hlinks _).parentEsp.trans hok.frame, hok.fds.closed (hfds _)⟩
      parent := by
        intro p hp h₃
        rw [hlast] at hp ⊢
        obtain ⟨q, hq, hpar⟩ := h.parent p hp h₃
        exact ⟨q, hq, (hlinks _).parent.trans hpar.addr, (hlinks _).parentProcessId.trans hpar.id⟩
      running := by
        intro p hp
        rw [hlast]
        exact h.running p (hrun p hp)
      terms := by
        intro t
        rw [TermOk, hlast]
        exact hterms t
      stack := by
        rw [hlast]
        exact .inr hstack }

theorem SameLinks.refl (p : Pcb) : SameLinks p p := ⟨rfl, rfl, rfl, rfl⟩

/-- Printing. -/
theorem Made.screen (h : Made tr k) (hne : ∀ pid, o.output ≠ .started pid)
    (hs : SameButScreen k k')
    (hstack : ∃ q, lastStart tr q ≠ none ∧ k.tssEsp0 = endKmem - q * kernelMemSize ∧
      k.isOn k.currentTerm = true) : Made (tr ++ [(e, o)]) k' := by
  refine h.keep hne (fun a => ?_) (fun a _ => .inl ?_) (fun p hp => ?_) (fun t => ?_) ?_
  · rw [hs.pcbMem_eq]
    exact .refl _
  · rw [hs.pcbMem_eq]
  · rwa [hs.kernel] at hp
  · rw [TermOk, hs.terminals, hs.kernel]
    exact h.terms t
  · rw [hs.kernel]
    exact hstack

/-- The stack that a call arrives on, and the process it belongs to. -/
theorem Made.caller (h : Made tr k) (hcpu : k.cpu ≠ pcbAddr 0) {depth : Nat}
    (hd : depth < 0x1FFF) : ∃ q l, lastStart tr q = some l ∧ PcbOk k q l ∧
      getPcbAddress (k.sp depth) = pcbAddr q ∧ k.tssEsp0 = endKmem - q * kernelMemSize ∧
      k.isOn k.currentTerm = true := by
  rcases h.stack with ⟨hboot, -⟩ | ⟨q, hq, htss, hon⟩
  · exact absurd hboot hcpu
  obtain ⟨l, hl⟩ := Option.ne_none_iff_exists'.1 hq
  exact ⟨q, l, hl, h.pcb q l hl, getPcbAddress_sp htss (h.pcb q l hl).le hd, htss, hon⟩

theorem Made.free_le (h : ∀ p, lastStart tr p = none) (hm : Made tr k)
    (hrun : ∀ p, k₁.processesRunning p = true → k.processesRunning p = true)
    (hfree : freeSlot k₁ = some pid) : pid ≤ 3 := by
  obtain ⟨-, h₁, -, hleast⟩ := freeSlot_eq_some.1 hfree
  by_contra hc
  exact hm.running 1 (hrun 1 (hleast 1 le_rfl (by omega))) (h 1)

/-- A tick that goes on with a terminal that is on. -/
theorem made_switch (h : Made tr k) (hon : k.isOn (k.currentTerm + 1) = true)
    (hne : ∀ pid, o.output ≠ .started pid) :
    Made (tr ++ [(e, o)]) (switchTo (k.currentTerm + 1) (k.terminals (k.currentTerm + 1)).pid
      (scheduled sp k)) := by
  have hterm := h.terms (k.currentTerm + 1)
  rw [TermOk, if_pos hon] at hterm
  refine h.keep hne (fun a => ?_) (fun a _ => .inl ?_) (fun p hp => ?_) (fun t => ?_)
    ⟨_, hterm, rfl, ?_⟩
  · rw [switchTo_pcbMem, scheduled_pcbMem]
    exact .refl _
  · rw [switchTo_pcbMem, scheduled_pcbMem]
  · rwa [switchTo_running, scheduled_running] at hp
  · rw [TermOk, switchTo_isOn, switchTo_terminals, scheduled_isOn, scheduled_terminals,
      saveEspEbp_pid]
    exact h.terms t
  · rw [switchTo_isOn, switchTo_currentTerm, scheduled_isOn, scheduled_currentTerm]
    exact hon

theorem tick_running (hp : ((scheduled sp k).turnOn t).processesRunning p = true) :
    k.processesRunning p = true := by
  rwa [turnOn_running, scheduled_running] at hp

/-- A tick that starts the shell of a terminal. -/
theorem made_shell {depth : Nat} (h : Made tr k) (hd : depth < 0x1FFF)
    (hst : Started (k.sp depth) pid ((scheduled (k.sp depth) k).turnOn (k.currentTerm + 1)) k')
    (ho : o.output = .started pid) (hesp : o.esp = k.sp depth) : Made (tr ++ [(e, o)]) k' := by
  have hrun (p : Nat) (hp : ((scheduled (k.sp depth) k).turnOn
      (k.currentTerm + 1)).processesRunning p = true) : k.processesRunning p = true :=
    tick_running hp
  refine h.start hst ho hesp (by simp) hrun (fun t ht => ?_) (by simp) fun h₃ => ?_
  · rw [turnOn_currentTerm, scheduled_currentTerm] at ht
    simp [Function.update_of_ne ht]
  · rcases h.stack with ⟨-, -, hnone⟩ | ⟨q, hq, htss, -⟩
    · have := h.free_le hnone hrun hst.free
      omega
    · obtain ⟨l, hl⟩ := Option.ne_none_iff_exists'.1 hq
      exact ⟨q, hq, getPcbAddress_sp htss (h.pcb q l hl).le hd⟩

/-- A tick that turns a terminal on and has no slot for its shell. All six slots are taken, so even
the process whose id the terminal was given at boot runs. -/
theorem made_noShell (h : Made tr k) (hoff : k.isOn (k.currentTerm + 1) = false)
    (hfull : freeSlot ((scheduled sp k).turnOn (k.currentTerm + 1)) = none)
    (hscr : SameButScreen ((scheduled sp k).turnOn (k.currentTerm + 1)) k')
    (hne : ∀ pid, o.output ≠ .started pid) : Made (tr ++ [(e, o)]) k' := by
  have hall (p : Nat) (h₁ : 1 ≤ p) (h₆ : p ≤ 6) : lastStart tr p ≠ none :=
    h.running p (tick_running (freeSlot_eq_none.1 hfull p h₁ h₆))
  have hmem : k'.pcbMem = k.pcbMem := by
    rw [hscr.pcbMem_eq, turnOn_pcbMem, scheduled_pcbMem]
  refine h.keep hne (fun a => hmem ▸ .refl _) (fun a _ => .inl (by rw [hmem]))
    (fun p hp => tick_running (by rwa [hscr.running_eq] at hp)) (fun t => ?_) ?_
  · have hterm := h.terms t
    rw [TermOk] at hterm ⊢
    rw [hscr.pid_eq, hscr.isOn_eq, turnOn_isOn, turnOn_terminals, scheduled_isOn,
      scheduled_terminals, saveEspEbp_pid]
    by_cases ht : t = k.currentTerm + 1
    · rw [ht, Function.update_self, if_pos rfl]
      rw [ht, hoff, if_neg Bool.false_ne_true] at hterm
      rw [hterm]
      exact hall _ (by omega) (by have := (k.currentTerm + 1).isLt; omega)
    · rw [Function.update_of_ne ht]
      exact hterm
  · rcases h.stack with ⟨-, -, hnone⟩ | ⟨q, hq, htss, -⟩
    · exact absurd (hnone 1) (hall 1 le_rfl (by omega))
    · refine ⟨q, hq, ?_, ?_⟩
      · rw [hscr.tssEsp0_eq, turnOn_tssEsp0, scheduled_tssEsp0, htss]
      · rw [hscr.isOn_eq, hscr.currentTerm_eq, turnOn_isOn, turnOn_currentTerm,
          scheduled_currentTerm, Function.update_self]

theorem made_tick (him : HasShell im) {depth : Nat} {out : Output} (h : Made tr k)
    (hd : depth < 0x1FFF) (hs : schedulerNext im (k.sp depth) k = some (out, k'))
    (ho : o.output = out) (hesp : o.esp = k.sp depth) : Made (tr ++ [(e, o)]) k' := by
  rcases schedulerNext_cases hs with ⟨hon, hout, rfl⟩ |
    ⟨hoff, ⟨pid, eip, hstart, hout⟩ | ⟨k₁, hfail, hout, hk'⟩ | ⟨k₁, hfault, -⟩⟩
  · exact made_switch h hon fun pid => by rw [ho, hout]; nofun
  · exact made_shell h hd (started_of_execute hstart) (ho.trans hout) hesp
  · have hscr : SameButScreen ((scheduled (k.sp depth) k).turnOn (k.currentTerm + 1)) k' := by
      rw [hk']
      exact (execute_failed hfail).trans (.printf "failed" k₁)
    exact made_noShell h hoff (freeSlot_of_execute_failed him hfail) hscr
      fun pid => by rw [ho, hout]; nofun
  · exact absurd hfault (execute_shell_ne_pageFault him)

/-- Ending a process that is no base process. -/
theorem made_ended (h : Made tr k) {q : Nat} {l : ProcEvent × Seen} {status : UInt8}
    (hl : lastStart tr q = some l) (h₃ : 3 < q) (hon : k.isOn k.currentTerm = true)
    (hne : ∀ pid, o.output ≠ .started pid) (he : Ended (pcbAddr q) status k o.output k') :
    Made (tr ++ [(e, o)]) k' := by
  obtain ⟨r, hr, hpar⟩ := h.parent q (hl ▸ Option.some_ne_none l) h₃
  refine h.keep hne he.links he.fds (fun p hp => ?_) (fun t => ?_) ⟨r, hr, ?_, ?_⟩
  · rw [he.processesRunning, (h.pcb q l hl).processId] at hp
    by_cases hpq : p = q
    · rw [hpq, Function.update_self] at hp
      cases hp
    · rwa [Function.update_of_ne hpq] at hp
  · have hterm := h.terms t
    rw [TermOk] at hterm ⊢
    rw [he.isOn, he.terminals_pid, hpar.id]
    by_cases ht : t = k.currentTerm
    · rw [ht, hon, if_pos rfl, if_pos rfl]
      exact hr
    · rwa [if_neg ht]
  · rw [he.tssEsp0, hpar.id]
  · rw [he.isOn, he.currentTerm]
    exact hon

/-- `halt` of a base process starts the shell in the first free slot. -/
theorem halt_root_cases (him : HasShell im) {status : UInt8} {q : Nat} {out : Output}
    (hsp : getPcbAddress sp = pcbAddr q) (hq : (k.pcbMem (pcbAddr q)).processId = q)
    (h₁ : 1 ≤ q) (h₃ : q ≤ 3) (h : halt im sp status k = some (out, k')) :
    ∃ pid, out = .started pid ∧ Started sp pid (closedBase q k) k' := by
  have hfree : freeSlot (closedBase q k) ≠ none := fun hn => by
    have := freeSlot_eq_none.1 hn q h₁ (by omega)
    rw [closedBase_running, Function.update_self] at this
    cases this
  rcases execute_shell_cases him sp (closedBase q k) with ⟨pid, eip, k₁, he⟩ | ⟨hn, -⟩
  · have he' : execute im sp (some shell)
        (closedBase (k.pcbMem (getPcbAddress sp)).processId k) = .started pid eip k₁ := by
      rw [hsp, hq]
      exact he
    rw [halt_of_root (by rw [hsp, hq]; exact h₃) he'] at h
    obtain ⟨rfl, rfl⟩ := Prod.mk.inj (Option.some.inj h)
    exact ⟨pid, rfl, started_of_execute he⟩
  · exact absurd hn hfree

/-- **Every step keeps `Made`.** -/
theorem made_step (him : HasShell im) (h : Made tr k)
    (hs : Guarded (Completes im) (procSystem im) k e o k') : Made (tr ++ [(e, o)]) k' := by
  obtain ⟨hc, hs⟩ := hs
  have hstep := hs.step
  cases e with
  | tick depth => exact made_tick him h hs.depth hstep rfl hs.esp
  | execute depth cmd =>
    obtain ⟨hcpu, hstep⟩ := procStep_execute hstep
    obtain ⟨q, l, hl, hok, hsp, htss, hon⟩ := h.caller hcpu (show depth < 0x1FFF from hs.depth)
    rcases callExecute_cases hc hstep with ⟨hout, hscr⟩ | ⟨pid, _, hout, hst, _⟩
    · exact h.screen (fun pid => by rw [hout]; nofun) hscr
        ⟨q, hl ▸ Option.some_ne_none l, htss, hon⟩
    · exact h.start hst hout hs.esp rfl (fun _ => id) (fun _ _ => ⟨rfl, rfl⟩) hon
        fun _ => ⟨q, hl ▸ Option.some_ne_none l, hsp⟩
  | halt depth status =>
    obtain ⟨hcpu, hstep⟩ := procStep_halt hstep
    obtain ⟨q, l, hl, hok, hsp, htss, hon⟩ := h.caller hcpu (show depth < 0x1FFF from hs.depth)
    by_cases h₃ : q ≤ 3
    · obtain ⟨pid, hout, hst⟩ := halt_root_cases him hsp hok.processId hok.ge h₃ hstep
      refine h.start hst hout hs.esp (closedBase_pcbMem q k) (fun p hp => ?_)
        (fun t _ => ⟨by rw [closedBase_isOn], closedBase_pid q k t⟩) ?_
        fun _ => ⟨q, hl ▸ Option.some_ne_none l, hsp⟩
      · rw [closedBase_running] at hp
        by_cases hpq : p = q
        · rw [hpq, Function.update_self] at hp
          cases hp
        · rwa [Function.update_of_ne hpq] at hp
      · rw [closedBase_isOn, closedBase_currentTerm, hon]
    · have h₃ : 3 < q := by omega
      rw [halt_of_child (by rw [hsp, hok.processId]; exact h₃), hsp] at hstep
      have hend := haltRest_spec hstep
      exact made_ended h hl h₃ hon (fun pid => by rw [hend.output]; nofun) hend

end Keep

/-! ## Booting -/

/-- Terminals 0 to `n - 1` have got their shells, which are processes 1 to `n`, and nothing else
has happened. -/
structure Booting (n : Nat) (k : Kernel) : Prop where
  running : ∀ p, k.processesRunning p = true ↔ 1 ≤ p ∧ p ≤ n
  isOn : ∀ t, k.isOn t = true ↔ (t : Nat) < n
  next : ((k.currentTerm + 1 : TermId) : Nat) = n % 3
  cpu : k.cpu = pcbAddr n
  tss : k.tssEsp0 = endKmem - n * kernelMemSize

section Booting

variable {im : Image} {n pid : Nat} {k₀ k : Kernel}

theorem booting_boot (h : SameButScreen (bootState k₀) k) : Booting 0 k where
  running p := by
    rw [h.running_eq]
    exact iff_of_false Bool.false_ne_true (by omega)
  isOn t := by
    rw [h.isOn_eq]
    exact iff_of_false Bool.false_ne_true (by omega)
  next := by
    rw [h.currentTerm_eq]
    rfl
  cpu := h.cpu_eq
  tss := h.tssEsp0_eq

theorem Booting.freeSlot (h : Booting n k) (hn : n < 6) : freeSlot k = some (n + 1) := by
  refine freeSlot_eq_some.2 ⟨?_, by omega, by omega, fun i h₁ hi => (h.running i).2 ⟨h₁, by omega⟩⟩
  exact Bool.eq_false_iff.2 fun hr => by have := (h.running (n + 1)).1 hr; omega

theorem Booting.cpu_ne (h : Booting n k) (h₁ : 1 ≤ n) (h₆ : n ≤ 6) : k.cpu ≠ pcbAddr 0 := by
  rw [h.cpu]
  intro hc
  have := pcbAddr_inj h₆ (by omega) hc
  omega

/-- The step record of a step that happened. -/
theorem procStep_seen {e : ProcEvent} {k' : Kernel} {out : Output} (hd : e.depth < 0x1FFF)
    (h : procStep im k e = some (out, k')) :
    ProcStep im k e ⟨out, k'.currentTerm, (k.pcbMem k.cpu).processId, k.sp e.depth⟩ k' :=
  ⟨hd, h, rfl, rfl, rfl⟩

/-- The next tick starts the next shell. -/
theorem booting_tick (him : HasShell im) (h : Booting n k) (hn : n < 3) {depth : Nat}
    (hd : depth < 0x1FFF) :
    ∃ o k', procSystem im k (.tick depth) o k' ∧ o.output = .started (n + 1) ∧
      Booting (n + 1) k' ∧
      Started (k.sp depth) (n + 1) ((scheduled (k.sp depth) k).turnOn (k.currentTerm + 1)) k' := by
  have hnext : ((k.currentTerm + 1 : TermId) : Nat) = n := by
    rw [h.next]
    omega
  have hoff : k.isOn (k.currentTerm + 1) = false := Bool.eq_false_iff.2 fun hon => by
    have := (h.isOn _).1 hon
    omega
  obtain ⟨k', hstep, hs⟩ := schedulerNext_shell (k.sp depth) him hoff (h.freeSlot (by omega))
  refine ⟨_, k', procStep_seen (e := .tick depth) hd hstep, rfl, ⟨fun p => ?_, fun t => ?_, ?_,
    hs.cpu, hs.tssEsp0⟩, hs⟩
  · rw [hs.processesRunning, turnOn_running, scheduled_running]
    by_cases hp : p = n + 1
    · rw [hp, Function.update_self]
      exact iff_of_true rfl (by omega)
    · rw [Function.update_of_ne hp, h.running]
      omega
  · rw [hs.isOn, turnOn_isOn, scheduled_isOn]
    by_cases ht : t = k.currentTerm + 1
    · rw [ht, Function.update_self]
      exact iff_of_true rfl (by omega)
    · rw [Function.update_of_ne ht, h.isOn]
      have : (t : Nat) ≠ n := fun hc => ht (Fin.ext (hc.trans hnext.symm))
      omega
  · rw [hs.currentTerm, turnOn_currentTerm, scheduled_currentTerm, Fin.val_add, hnext]
    rfl

/-- The first three ticks. -/
theorem three_ticks (him : HasShell im) (h : Booting 0 k) :
    ∃ o₁ o₂ o₃ k₁ k₂ k₃, procSystem im k (.tick 0) o₁ k₁ ∧ procSystem im k₁ (.tick 0) o₂ k₂ ∧
      procSystem im k₂ (.tick 0) o₃ k₃ ∧ o₁.output = .started 1 ∧ o₂.output = .started 2 ∧
      o₃.output = .started 3 ∧ Booting 3 k₃ ∧
      ∀ p, 3 < p → p ≤ 6 → k₃.pcbMem (pcbAddr p) = k.pcbMem (pcbAddr p) := by
  obtain ⟨o₁, k₁, h₁, ho₁, hb₁, hs₁⟩ := booting_tick him h (by omega) (by decide : 0 < 0x1FFF)
  obtain ⟨o₂, k₂, h₂, ho₂, hb₂, hs₂⟩ := booting_tick him hb₁ (by omega) (by decide : 0 < 0x1FFF)
  obtain ⟨o₃, k₃, h₃, ho₃, hb₃, hs₃⟩ := booting_tick him hb₂ (by omega) (by decide : 0 < 0x1FFF)
  refine ⟨o₁, o₂, o₃, k₁, k₂, k₃, h₁, h₂, h₃, ho₁, ho₂, ho₃, hb₃, fun p hp hp6 => ?_⟩
  rw [hs₃.pcbMem_of_ne hp6 (by omega), turnOn_pcbMem, scheduled_pcbMem,
    hs₂.pcbMem_of_ne hp6 (by omega), turnOn_pcbMem, scheduled_pcbMem,
    hs₁.pcbMem_of_ne hp6 (by omega), turnOn_pcbMem, scheduled_pcbMem]

/-- A program calls `execute("shell")`. -/
theorem booting_execute (him : HasShell im) (h : Booting n k) (h₁ : 1 ≤ n) (h₆ : n < 6)
    {depth : Nat} (hd : depth < 0x1FFF) :
    ∃ o k', procSystem im k (.execute depth (some shell)) o k' ∧ o.output = .started (n + 1) ∧
      Started (k.sp depth) (n + 1) k k' := by
  obtain ⟨prog, k', -, he, -⟩ := execute_shell (k.sp depth) him (h.freeSlot h₆)
  have hstep : procStep im k (.execute depth (some shell)) = some (.started (n + 1), k') := by
    rw [procStep, if_neg (h.cpu_ne h₁ (by omega)), callExecute, he]
  exact ⟨_, k', procStep_seen hd hstep, rfl, started_of_execute he⟩

end Booting

/-! ## The exit status -/

section Status

variable {im : Image} {tr : List (ProcEvent × Seen)} {l : ProcEvent × Seen} {sp q curr : Nat}
  {status : UInt8} {k k' : Kernel}

/-- Closing the files of a process that keeps `FdInv` never goes through a bad pointer. -/
theorem closeAll_returns (fds : List Nat) (h : FdInv (k.pcbMem curr)) :
    ∃ k', closeAll curr fds k = some k' := by
  induction fds generalizing k with
  | nil => exact ⟨k, rfl⟩
  | cons i fds ih =>
    rw [closeAll]
    split
    · have hclose := sysClose_eq h (i : Int)
      by_cases hopen : 2 ≤ (i : Int) ∧ (k.pcbMem curr).Open i
      · rw [hclose.1 hopen.1 hopen.2]
        refine ih ?_
        rw [Kernel.setPcb_self]
        exact h.setFd (by omega) (.inl rfl)
      · rw [hclose.2 hopen]
        exact ih h
    · exact ih h

/-- **What `halt` returns to.** A process that is no base process comes back to the `execute`
that started it, in the program whose stack that call was made on; what is returned there is
the status in the child's own PCB. -/
theorem halt_child (im : Image) (status : UInt8) (h : Made tr k) (hl : lastStart tr q = some l)
    (h₃ : 3 < q) (hsp : getPcbAddress sp = pcbAddr q) :
    ∃ k', halt im sp status k = some (.resumed
        (if (k.pcbMem (pcbAddr q)).parent = pcbAddr q then UInt32.ofNat status.toNat
          else (k.pcbMem (pcbAddr q)).status), k') ∧
      k'.cpu = getPcbAddress l.2.esp := by
  have hok := h.pcb q l hl
  rw [halt_of_child (by rw [hsp, hok.processId]; exact h₃), hsp]
  obtain ⟨k₁, hk₁⟩ := closeAll_returns (List.range entriesInFdArray)
    (k := k.setRunning (k.pcbMem (pcbAddr q)).processId false) hok.fds
  have hsome : ∃ o k', haltRest (pcbAddr q) status k = some (o, k') := by
    rw [haltRest_eq, hk₁]
    exact ⟨_, _, rfl⟩
  obtain ⟨o, k', hk'⟩ := hsome
  have hend := haltRest_spec hk'
  refine ⟨k', ?_, ?_⟩
  · rw [hk', hend.output, hok.frame, hend.status, hok.processId]
    simp only [numTerminals, gt_iff_lt, h₃, true_and, eq_comm (a := pcbAddr q)]
  · rw [hend.kernel]
    exact congrArg (fun f => getPcbAddress (SavedFrame.esp f)) hok.frame

/-- A file that was started fits. -/
theorem hasShell_of_started {pid : Nat} {eip : UInt32}
    (h : execute im sp (some shell) k = .started pid eip k') : HasShell im := by
  obtain ⟨c, prog, hc, hlook, hfree, hstart⟩ := execute_started h
  obtain rfl := Option.some.inj hc
  obtain ⟨-, h₁, h₆, -⟩ := freeSlot_eq_some.1 hfree
  refine ⟨prog, hlook, ?_⟩
  by_contra hfit
  obtain ⟨k₁, hk₁⟩ := startProgram_of_not_fits sp k h₁ h₆ hfit
  rw [hk₁] at hstart
  cases hstart

/-- A tick that starts a program shows that the image has a shell. -/
theorem hasShell_of_next {sp pid : Nat} (hs : schedulerNext im sp k = some (.started pid, k')) :
    HasShell im := by
  rcases schedulerNext_cases hs with ⟨-, ho, -⟩ | ⟨-, ⟨_, _, he, -⟩ | ⟨_, _, ho, _⟩ | ⟨k₁, _, hf⟩⟩
  · cases ho
  · exact hasShell_of_started he
  · cases ho
  · rw [handle14] at hf
    rcases halt_cases hf with ⟨_, _, he⟩ | ⟨_, _, he⟩ | he
    · exact hasShell_of_started he
    · have := (haltRest_spec he).output
      cases this
    · have := (haltRest_spec he).output
      cases this

theorem hasShell_of_tick {depth pid : Nat} {o : Seen}
    (h : procSystem im k (.tick depth) o k') (ho : o.output = .started pid) : HasShell im := by
  have hs : schedulerNext im (k.sp depth) k = some (o.output, k') := h.step
  exact hasShell_of_next (ho ▸ hs)

/-- **The exit status.** Whatever ran since the first shell was started, and whatever the memory
held before: `halt` by a process that is no base process returns from the `execute` that
started it, to the program that made that call. The value is the status exactly when the
status field of the child's own PCB already held it, or when the child is recorded as its own
parent. -/
theorem exit_status (status : UInt8) {k₀ k₁ : Kernel} {depth₀ depth : Nat} {o₀ : Seen}
    {pid child : Nat}
    (h₀ : procSystem im (entry k₀) (.tick depth₀) o₀ k₁) (hstart : o₀.output = .started pid)
    (h : Run (Guarded (Completes im) (procSystem im)) k₁ tr k)
    (hcpu : k.cpu ≠ pcbAddr 0) (hd : depth < 0x1FFF)
    (hchild : (k.pcbMem (getPcbAddress (k.sp depth))).processId = child) (h₃ : 3 < child) :
    ∃ e c value k', lastStart ((.tick depth₀, o₀) :: tr) child = some (e, c) ∧
      procStep im k (.halt depth status) = some (.resumed value, k') ∧
      k'.cpu = getPcbAddress c.esp ∧
      (value = UInt32.ofNat status.toNat ↔
        (k.pcbMem (pcbAddr child)).status = UInt32.ofNat status.toNat ∨
        (k.pcbMem (pcbAddr child)).parent = pcbAddr child) := by
  have him := hasShell_of_tick h₀ hstart
  have hmade : Made ((.tick depth₀, o₀) :: tr) k := by
    have hboot : Made ([] ++ [(.tick depth₀, o₀)]) k₁ :=
      made_step him (made_boot (sameButScreen_entry k₀)) ⟨trivial, h₀⟩
    exact h.invariant_history (I := fun tr k => Made ((.tick depth₀, o₀) :: tr) k) hboot
      fun _ _ _ _ _ hm hs => made_step him hm hs
  obtain ⟨q, ⟨e, c⟩, hl, hok, hsp, -⟩ := hmade.caller hcpu hd
  obtain rfl : q = child := by rw [← hchild, hsp, hok.processId]
  obtain ⟨k', hhalt, hcpu'⟩ := halt_child im status hmade hl h₃ hsp
  refine ⟨e, c, _, k', hl, (if_neg hcpu).trans hhalt, hcpu', ?_⟩
  split
  · exact iff_of_true rfl (.inr ‹_›)
  · exact ⟨.inl, fun h => h.resolve_right ‹_›⟩

theorem completes_shell (him : HasShell im) (k : Kernel) (depth : Nat) :
    Completes im k (.execute depth (some shell)) := by
  rintro prog ⟨c, pid, hc, -, hlook, -⟩
  obtain ⟨prog', hlook', hfits⟩ := him
  obtain rfl := Option.some.inj hc
  rw [hlook'] at hlook
  exact Option.some.inj hlook ▸ hfits

theorem startedPcb_status (pid sp : Nat) (prog : Program) (old : Pcb) :
    (startedPcb pid sp prog old).status = old.status := by
  simp only [startedPcb, newPcb, setUpFdsandargs, setUpStdout, setUpStdin, Pcb.setFd]
  split <;> rfl

/-- Three ticks, and then the shell of terminal 2 executes a fourth: a child of process 3, on
memory that held `k₀`. -/
theorem fourth_shell (him : HasShell im) (k₀ : Kernel) :
    ∃ o₁ o₂ o₃ o₄ k₁ k₄, procSystem im (entry k₀) (.tick 0) o₁ k₁ ∧ o₁.output = .started 1 ∧
      Run (Guarded (Completes im) (procSystem im)) k₁
        [(.tick 0, o₂), (.tick 0, o₃), (.execute 0 (some shell), o₄)] k₄ ∧
      o₄.output = .started 4 ∧ k₄.cpu = pcbAddr 4 ∧ getPcbAddress (k₄.sp 0) = pcbAddr 4 ∧
      PcbOk k₄ 4 (.execute 0 (some shell), o₄) ∧ HasParent k₄ 4 3 ∧
      (k₄.pcbMem (pcbAddr 4)).status = ((entry k₀).pcbMem (pcbAddr 4)).status := by
  obtain ⟨o₁, o₂, o₃, k₁, k₂, k₃, h₁, h₂, h₃, ho₁, -, -, hb, hmem⟩ :=
    three_ticks him (booting_boot (sameButScreen_entry k₀))
  obtain ⟨o₄, k₄, h₄, ho₄, hs⟩ := booting_execute him hb (by omega) (by omega)
    (by decide : 0 < 0x1FFF)
  have g₂ : Guarded (Completes im) (procSystem im) k₁ (.tick 0) o₂ k₂ := ⟨trivial, h₂⟩
  have g₃ : Guarded (Completes im) (procSystem im) k₂ (.tick 0) o₃ k₃ := ⟨trivial, h₃⟩
  have hrun := ((Run.single g₂).snoc g₃).snoc ⟨completes_shell him k₃ 0, h₄⟩
  obtain ⟨prog, hp⟩ := hs.pcb
  refine ⟨o₁, o₂, o₃, o₄, k₁, k₄, h₁, ho₁, hrun, ho₄, hs.cpu,
    getPcbAddress_sp hs.tssEsp0 (by omega) (by decide), hs.pcbOk h₄.esp,
    hs.hasParent (by omega) (by omega) (getPcbAddress_sp hb.tss (by omega) (by decide)), ?_⟩
  rw [hp, Function.update_self, startedPcb_status, hmem 4 (by omega) (by omega)]

/-- The fourth shell ends with status 5, and its parent gets 0. -/
theorem exit_status_lost : ∃ o₁ o₂ o₃ o₄ k₁ k₄ value k',
    procSystem shellImage (entry default) (.tick 0) o₁ k₁ ∧
    Run (Guarded (Completes shellImage) (procSystem shellImage)) k₁
      [(.tick 0, o₂), (.tick 0, o₃), (.execute 0 (some shell), o₄)] k₄ ∧
    o₄.output = .started 4 ∧
    procStep shellImage k₄ (.halt 0 5) = some (.resumed value, k') ∧
    value ≠ UInt32.ofNat (5 : UInt8).toNat := by
  obtain ⟨o₁, o₂, o₃, o₄, k₁, k₄, h₁, ho₁, hrun, ho₄, hcpu, hsp, hok, hpar, hstatus⟩ :=
    fourth_shell hasShell_shellImage default
  have hboot : Made ([] ++ [(.tick 0, o₁)]) k₁ :=
    made_step hasShell_shellImage (made_boot (sameButScreen_entry default)) ⟨trivial, h₁⟩
  have hmade := hrun.invariant_history (I := fun tr k => Made ((.tick 0, o₁) :: tr) k) hboot
    fun _ _ _ _ _ hm hs => made_step hasShell_shellImage hm hs
  have hl : lastStart ((.tick 0, o₁) ::
      [(.tick 0, o₂), (.tick 0, o₃), (.execute 0 (some shell), o₄)]) 4 =
      some (.execute 0 (some shell), o₄) := by
    have hlast : lastStart ([(.tick 0, o₁), (.tick 0, o₂), (.tick 0, o₃)] ++
        [(.execute 0 (some shell), o₄)]) = Function.update (lastStart _) 4 (some _) :=
      lastStart_concat_started ho₄
    exact (congrFun hlast 4).trans (Function.update_self 4 _ _)
  obtain ⟨k', hhalt, -⟩ := halt_child shellImage 5 hmade hl (by omega) hsp
  have hne : k₄.cpu ≠ pcbAddr 0 := by
    rw [hcpu]
    decide
  refine ⟨o₁, o₂, o₃, o₄, k₁, k₄, _, k', h₁, hrun, ho₄, (if_neg hne).trans hhalt, ?_⟩
  rw [hpar.addr, if_neg (by decide), hstatus, (sameButScreen_entry default).pcbMem_eq]
  decide

/-- Ending with status 0 it returns 0. -/
theorem exit_status_shell : ∃ o₁ o₂ o₃ o₄ k₁ k₄ k',
    procSystem shellImage (entry default) (.tick 0) o₁ k₁ ∧
    Run (Guarded (Completes shellImage) (procSystem shellImage)) k₁
      [(.tick 0, o₂), (.tick 0, o₃), (.execute 0 (some shell), o₄)] k₄ ∧
    procStep shellImage k₄ (.halt 0 0) = some (.resumed 0, k') := by
  obtain ⟨o₁, o₂, o₃, o₄, k₁, k₄, h₁, ho₁, hrun, -, hcpu, hsp, hok, -, hstatus⟩ :=
    fourth_shell hasShell_shellImage default
  obtain ⟨-, -, value, k', -, hhalt, -, hiff⟩ := exit_status 0 h₁ ho₁ hrun
    (by rw [hcpu]; decide) (by decide : 0 < 0x1FFF) (by rw [hsp, hok.processId]) (by omega)
  have hvalue : value = 0 := hiff.2 (.inl (by
    rw [hstatus, (sameButScreen_entry default).pcbMem_eq]
    rfl))
  exact ⟨o₁, o₂, o₃, o₄, k₁, k₄, k', h₁, hrun, hvalue ▸ hhalt⟩

end Status

end Kernel391

import Kernel391.Linkage

/-!
# Ways into the kernel: what they keep

**Gates** (`gate_table`, `user_gates`). What the processor reads in the table that `initialize_IDT`
fills, and which of its gates are open to a program.

**Interrupts** (`device_interrupts`). The interrupted code goes on with all of its registers.

**System calls** (`system_calls`, `other_numbers`). From the wrapper through the jump table to the
function in C, and back.

**Programs** (`program_and_back`). `contextswitchasm` enters a program, and `restoreparent` goes on
where `contextswitchasm` was called.
-/

namespace Kernel391

open Memory Rings

namespace Linkage

/-! ## Descriptors -/

/-- The two halves of an address. -/
theorem offset_halves (h : UInt32) :
    ((h &&& 0xFFFF0000) >>> 16).toBitVec.setWidth 16 ++ (h &&& 0xFFFF).toBitVec.setWidth 16 =
      h.toBitVec := by
  have hhigh : ∀ i < 32, (0xFFFF0000#32).getLsbD i = decide (16 ≤ i) := by decide
  have hlow : ∀ i < 32, (0xFFFF#32).getLsbD i = decide (i < 16) := by decide
  apply BitVec.eq_of_getLsbD_eq
  intro i hi
  rw [BitVec.getLsbD_append]
  split
  next hlt =>
    have hand : (h &&& 0xFFFF).toBitVec = h.toBitVec &&& 0xFFFF#32 := rfl
    rw [BitVec.getLsbD_setWidth, hand, BitVec.getLsbD_and, hlow i hi]
    simp [hlt]
  next hge =>
    have hshift : ((h &&& 0xFFFF0000) >>> 16).toBitVec = (h.toBitVec &&& 0xFFFF0000#32) >>> 16 :=
      rfl
    rw [BitVec.getLsbD_setWidth, hshift, BitVec.getLsbD_ushiftRight, BitVec.getLsbD_and,
      Nat.add_sub_cancel' (by omega), hhigh i hi]
    simp [show i - 16 < 16 by omega, show 16 ≤ i by omega]

namespace IdtDesc

variable (d : IdtDesc)

theorem val_present : d.val.getLsbD 47 = d.present.getLsbD 0 := by
  simp only [val, BitVec.getLsbD_append]
  simp

theorem val_trap : d.val.getLsbD 40 = d.reserved3.getLsbD 0 := by
  simp only [val, BitVec.getLsbD_append]
  simp

theorem val_type : d.val.extractLsb' 41 4 =
    d.reserved0 ++ d.size ++ d.reserved1 ++ d.reserved2 := by
  apply BitVec.eq_of_getLsbD_eq
  intro i hi
  obtain rfl | rfl | rfl | rfl : i = 0 ∨ i = 1 ∨ i = 2 ∨ i = 3 := by omega
  all_goals
    simp only [val, BitVec.getLsbD_extractLsb', BitVec.getLsbD_append]
    simp

theorem val_dpl : d.val.extractLsb' 45 2 = d.dpl := by
  simp only [val]
  iterate 8 rw [BitVec.extractLsb'_append_eq_of_le (by decide)]
  exact BitVec.extractLsb'_append_eq_right

theorem val_selector : d.val.extractLsb' 16 16 = d.segSelector := by
  rw [val, BitVec.extractLsb'_append_eq_of_le (by decide)]
  exact BitVec.extractLsb'_append_eq_right

theorem val_offset : d.val.extractLsb' 48 16 ++ d.val.extractLsb' 0 16 =
    d.offset3116 ++ d.offset1500 := by
  have hlow : d.val.extractLsb' 0 16 = d.offset1500 := BitVec.extractLsb'_append_eq_right
  have hhigh : d.val.extractLsb' 48 16 = d.offset3116 := by
    simp only [val]
    iterate 9 rw [BitVec.extractLsb'_append_eq_of_le (by decide)]
    exact BitVec.extractLsb'_append_eq_left
  rw [hlow, hhigh]

/-- What the processor reads in an entry that `initialize_IDT` filled. -/
theorem ofDescriptor_fill (dpl : BitVec 2) (reserved3 : BitVec 1) (handler : UInt32) :
    Gate.ofDescriptor (d.fill dpl reserved3 handler).val =
      some ⟨handler, kernelCs, dpl.toNat, reserved3.getLsbD 0⟩ := by
  rw [Gate.ofDescriptor, val_present, val_trap, val_type, val_dpl, val_selector, val_offset]
  simp only [fill, setIdtEntry, offset_halves]
  rfl

end IdtDesc

/-! ## The table -/

variable (sym : Symbol → UInt32)

/-- What the processor finds at a vector. -/
def gateAt (n : UInt8) : Option Gate :=
  if n = pitno then some ⟨sym .pithandlerasm, kernelCs, 3, false⟩
  else if n = systemcallno then some ⟨sym .systemcallasm, kernelCs, 3, true⟩
  else if n = rtc then some ⟨sym .rtchandlerasm, kernelCs, 0, true⟩
  else if n = keyboard then some ⟨sym .keyboardhandlerasm, kernelCs, 0, true⟩
  else if n.toNat < exceptionCount then
    some ⟨sym (exceptionHandler n.toNat), kernelCs, 0, false⟩
  else none

theorem foldl_setGate (k : ℕ) (hk : k ≤ 256) (idt : Idt) (n : UInt8) :
    (List.range k).foldl
        (fun idt i => setGate sym (UInt8.ofNat i) 0 0 (exceptionHandler i) idt) idt n =
      if n.toNat < k then (idt n).fill 0 0 (sym (exceptionHandler n.toNat)) else idt n := by
  induction k with
  | zero => rfl
  | succ k ih =>
    have hnat : (UInt8.ofNat k).toNat = k := by
      rw [UInt8.toNat_ofNat']
      exact Nat.mod_eq_of_lt (by omega)
    rw [List.range_succ, List.foldl_append, List.foldl_cons, List.foldl_nil, setGate]
    by_cases hn : n = UInt8.ofNat k
    · subst hn
      rw [Function.update_self, ih (by omega), hnat, if_neg (by omega), if_pos (by omega)]
    · have hne : n.toNat ≠ k := fun h => hn (by rw [← h, UInt8.ofNat_toNat])
      rw [Function.update_of_ne hn, ih (by omega)]
      by_cases hlt : n.toNat < k
      · rw [if_pos hlt, if_pos (by omega)]
      · rw [if_neg hlt, if_neg (by omega)]

theorem gate_table (n : UInt8) :
    Gate.ofDescriptor (initializeIdt sym (fun _ => .zero) n).val = gateAt sym n := by
  rw [initializeIdt, gateAt]
  by_cases hpit : n = pitno
  · rw [if_pos hpit, setGate, hpit, Function.update_self, IdtDesc.ofDescriptor_fill]
    rfl
  rw [if_neg hpit, setGate, Function.update_of_ne hpit]
  by_cases hsys : n = systemcallno
  · rw [if_pos hsys, setGate, hsys, Function.update_self, IdtDesc.ofDescriptor_fill]
    rfl
  rw [if_neg hsys, setGate, Function.update_of_ne hsys]
  by_cases hrtc : n = rtc
  · rw [if_pos hrtc, setGate, hrtc, Function.update_self, IdtDesc.ofDescriptor_fill]
    rfl
  rw [if_neg hrtc, setGate, Function.update_of_ne hrtc]
  by_cases hkey : n = keyboard
  · rw [if_pos hkey, setGate, hkey, Function.update_self, IdtDesc.ofDescriptor_fill]
    rfl
  rw [if_neg hkey, setGate, Function.update_of_ne hkey, foldl_setGate sym _ (by decide)]
  split
  · rw [IdtDesc.ofDescriptor_fill]
    rfl
  · rfl

/-! ## A layout -/

/-- The system calls. -/
def sysNums : List SysNum :=
  [.halt, .execute, .read, .write, .open, .close, .getargs, .vidmap, .setHandler, .sigreturn]

/-- What belongs to no system call. -/
def others : List Symbol :=
  [.saveEspEbpasm, .contextswitchasm, .restoreparent, .keyboardhandlerasm, .pithandlerasm,
    .rtchandlerasm, .systemcallasm, .defaulterror, .return, .saveEspEbp, .saveParentRegisters,
    .keyboardHandler, .pithandler, .rtchandler, .handle0, .handle1, .handle2, .handle3, .handle4,
    .handle5, .handle6, .handle7, .handle8, .handle9, .handle14, .commonehandler]

/-- All that has an address, in an order. -/
def symbols : List Symbol :=
  sysNums.map Symbol.handlerasm ++ sysNums.map Symbol.function ++ sysNums.map Symbol.wrapper ++
    others

/-- Symbols stand 64 addresses apart. -/
def place (x : Symbol) : UInt32 := UInt32.ofNat (64 * symbols.idxOf x)

/-- The machine with one instruction at an address. -/
def image : Machine where
  code a := do
    let x ← symbols[a.toNat / 64]?
    let i ← (text place x)[a.toNat % 64]?
    some (i, a + 1)
  gate n := Gate.ofDescriptor (initializeIdt place (fun _ => .zero) n).val
  segDpl := segDpl

theorem mem_symbols (x : Symbol) : x ∈ symbols := by
  cases x with
  | handlerasm n | function n | wrapper n => cases n <;> decide
  | _ => decide

theorem length_text (x : Symbol) : (text place x).length < 64 := by
  cases x with
  | handlerasm n | function n | wrapper n => cases n <;> decide
  | _ => decide

theorem code_image {x : Symbol} {k : ℕ} {i : Instr} (h : (text place x)[k]? = some i) :
    image.code (addr (place x) k) = some (i, addr (place x) (k + 1)) := by
  have hk : k < 64 := (List.getElem?_eq_some_iff.1 h).1.trans (length_text x)
  have hidx : symbols.idxOf x < 56 := List.idxOf_lt_length_of_mem (mem_symbols x)
  have hat : symbols[symbols.idxOf x]? = some x :=
    List.getElem?_eq_some_iff.2 ⟨hidx, List.getElem_idxOf hidx⟩
  have hnat : (place x).toNat = 64 * symbols.idxOf x := by
    rw [place, UInt32.toNat_ofNat']
    omega
  have haddr : (addr (place x) k).toNat = 64 * symbols.idxOf x + k := by
    rw [toNat_addr (by omega), hnat]
  have hdiv : (64 * symbols.idxOf x + k) / 64 = symbols.idxOf x := by omega
  have hmod : (64 * symbols.idxOf x + k) % 64 = k := by omega
  simp only [image, haddr, hdiv, hmod, hat, h, Option.bind_eq_bind, Option.bind_some,
    addr_add_one]

theorem linked_image : Linked place image where
  text x := by
    have hdrop (l : List Instr) (k : ℕ) (h : (text place x).drop k = l) :
        Listing image (addr (place x) k) l := by
      induction l generalizing k with
      | nil => trivial
      | cons i l ih =>
        have hi : (text place x)[k]? = some i := by
          rw [← List.head?_drop, h]
          rfl
        refine ⟨_, code_image hi, ih (k + 1) ?_⟩
        rw [← List.tail_drop, h, List.tail_cons]
    have h := hdrop _ 0 rfl
    rwa [addr_zero] at h
  gate _ := rfl
  segDpl := rfl

/-- A state at an address, with memory full of ones. -/
def sample (eip : UInt32) (cs : UInt16) : State where
  eip := eip
  cpu := {
    reg := Function.update (fun _ => 0) .esp 0x83FFFF0
    eflags := 0x202
    cs := cs
    ss := userDs.toUInt16
    seg := fun _ => userDs.toUInt16
    ss0 := 0x18
    esp0 := 0x7FE000 }
  mem := fun _ => 1

/-! ## Hardware interrupts -/

variable {sym} {M : Machine} {s t : State} {g : Gate} {l : List Instr}

theorem Linked.gateAt (hM : Linked sym M) (n : UInt8) : M.gate n = gateAt sym n :=
  (hM.gate n).trans (gate_table sym n)

theorem cpl_entered (hsel : g.selector = kernelCs) (c : Cpu) : (c.entered g).cpl = 0 := by
  show g.selector.toNat % 4 = 0
  rw [hsel]
  rfl

/-- A handler of hardware interrupts, entered from anywhere: its function runs in ring 0, and when
that has returned the interrupted code goes on with all of its registers. -/
theorem handler_runs (hM : Linked sym M) {x handler : Symbol}
    (htext : text sym x = handlerText sym handler) (hoff : g.offset = sym x)
    (hsel : g.selector = kernelCs) (s : State) :
    ∃ t, Steps M (s.enter g s.eip) t ∧ t.eip = sym handler ∧
      (∃ c, t.cpu = (s.cpu.entered g).set .esp c) ∧
      (∀ b, 56 ≤ off (s.cpu.kernelStack - 56) b → t.mem b = s.mem b) ∧
      ∀ t', Returned 0 (8 + (s.cpu.frame s.eip).length) t t' → ∃ u, Steps M t' u ∧
        u.eip = s.eip ∧ u.cpu = { s.cpu.returned M t'.cpu with reg := s.cpu.reg } ∧
        u.mem = t'.mem := by
  obtain ⟨h, heip⟩ := Shows.enter g s.eip s (by decide : 5 ≤ 14) (by decide)
  have hlen := s.cpu.length_frame s.eip
  have hl := hM.text x
  rw [htext, ← hoff, ← heip, handlerText] at hl
  obtain ⟨t₁, hs₁, h₁, hl, -⟩ := h.step hl (View.op_pushal (by omega))
  have hlen₁ : ((s.cpu.entered g).saved ++ s.cpu.frame s.eip).length =
      8 + (s.cpu.frame s.eip).length := by
    rw [List.length_append]
    rfl
  obtain ⟨t, next, hs₂, h₂, heip₂, hl₂⟩ := h₁.call hl (by rw [hlen₁]; omega)
  refine ⟨t, .head hs₁ (.single hs₂), heip₂, ?_, h₂.frame, fun t' hr => ?_⟩
  · exact ⟨_, h₂.cpu.trans (Cpu.set_set ..)⟩
  · obtain ⟨heip', l', hl', h'⟩ := hr.shows (l := []) h₂ rfl rfl hlen₁
    rw [List.length_eq_zero_iff] at hl'
    subst hl'
    rw [← heip'] at hl₂
    obtain ⟨t₂, hs₃, h₃, hl₃, hm₃⟩ := h'.step hl₂ View.op_popal
    have hcpl : t'.cpu.cpl = 0 := by
      rw [Cpu.cpl, hr.cs, h₂.cpu]
      exact cpl_entered hsel s.cpu
    obtain ⟨u, hs₄, heip₄, hcpu₄, hm₄⟩ := h₃.iret hl₃ hcpl rfl
    refine ⟨u, .head hs₃ (.single hs₄), heip₄, ?_, hm₄.trans (hm₃ rfl)⟩
    rw [hcpu₄]
    simp [Cpu.returned, Cpu.set, Cpu.entered]

/-- The devices whose interrupts have a routine. -/
inductive Device
  | pit
  | keyboard
  | rtc
  deriving DecidableEq

namespace Device

def vector : Device → UInt8
  | .pit => pitno
  | .keyboard => Linkage.keyboard
  | .rtc => Linkage.rtc

/-- Its routine. -/
def routine : Device → Symbol
  | .pit => .pithandlerasm
  | .keyboard => .keyboardhandlerasm
  | .rtc => .rtchandlerasm

/-- The function in C that the routine calls. -/
def handler : Device → Symbol
  | .pit => .pithandler
  | .keyboard => .keyboardHandler
  | .rtc => .rtchandler

theorem text_routine (d : Device) : text sym d.routine = handlerText sym d.handler := by
  cases d <;> rfl

theorem gateAt_vector (sym : Symbol → UInt32) (d : Device) : ∃ dpl,
    gateAt sym d.vector = some ⟨sym d.routine, kernelCs, dpl, decide (d ≠ .pit)⟩ := by
  cases d with
  | pit => exact ⟨3, rfl⟩
  | keyboard | rtc => exact ⟨0, rfl⟩

end Device

theorem interruptFlag_handlerFlags (f : UInt32) :
    bit interruptFlag (State.handlerFlags g f) = (g.trap && bit interruptFlag f) := by
  cases htrap : g.trap <;>
    simp [State.handlerFlags, htrap, bit_setBit, trapFlag, nestedTask, resume, virtual8086,
      interruptFlag]

/-- **An interrupt of a device**, wherever it comes. The PIT's function runs with interrupts off,
the other two with interrupts on. The selectors of data are not saved: the function finds those of
the interrupted code, and that goes on with those that the function leaves, as far as its ring may
use them. -/
theorem device_interrupts (hM : Linked sym M) (d : Device)
    (hif : bit interruptFlag s.cpu.eflags = true) :
    ∃ t₀ t, s.interrupt M d.vector = some t₀ ∧ Steps M t₀ t ∧ t.eip = sym d.handler ∧
      t.cpu.cpl = 0 ∧ bit interruptFlag t.cpu.eflags = decide (d ≠ .pit) ∧
      t.cpu.seg = s.cpu.seg ∧
      (∀ b, 56 ≤ off (s.cpu.kernelStack - 56) b → t.mem b = s.mem b) ∧
      ∀ t', Returned 0 (8 + (s.cpu.frame s.eip).length) t t' → ∃ u, Steps M t' u ∧
        u.eip = s.eip ∧ u.cpu = { s.cpu.returned M t'.cpu with reg := s.cpu.reg } ∧
        u.mem = t'.mem := by
  obtain ⟨dpl, hgate⟩ := d.gateAt_vector sym
  rw [← hM.gateAt] at hgate
  obtain ⟨t, hsteps, heip, ⟨esp, hcpu⟩, hmem, hback⟩ :=
    handler_runs (g := ⟨sym d.routine, kernelCs, dpl, decide (d ≠ .pit)⟩) hM d.text_routine
      rfl rfl s
  refine ⟨_, t, ?_, hsteps, heip, ?_, ?_, ?_, hmem, hback⟩
  · rw [State.interrupt, if_pos hif, hgate]
    rfl
  · rw [hcpu]
    show kernelCs.toNat % 4 = 0
    rfl
  · rw [hcpu]
    show bit interruptFlag (State.handlerFlags _ s.cpu.eflags) = _
    rw [interruptFlag_handlerFlags, hif, Bool.and_true]
  · rw [hcpu]
    rfl

/-- With a function that returns at once. -/
theorem device_interrupts_pit : ∃ t₀ t u,
    (sample (place (.wrapper .write)) userCs.toUInt16).interrupt image pitno = some t₀ ∧
      Steps image t₀ t ∧ t.eip = place .pithandler ∧ t.cpu.cpl = 0 ∧
      Steps image (t.drop 4 |>.goto t.top) u ∧ u.eip = place (.wrapper .write) ∧
      u.cpu.cs = userCs.toUInt16 := by
  obtain ⟨t₀, t, hint, hsteps, heip, hcpl, -, -, -, hback⟩ := device_interrupts linked_image .pit
    (s := sample (place (.wrapper .write)) userCs.toUInt16) (by decide)
  obtain ⟨u, hu, heip', hcpu, -⟩ := hback _ (.atOnce _ _ t)
  refine ⟨t₀, t, u, hint, hsteps, heip, hcpl, hu, heip', ?_⟩
  rw [hcpu]
  rfl

/-! ## System calls -/

/-- The registers in the order in which `systemcallasm` pushes them, the last three as arguments. -/
def pushOrder : List Reg := [.edx, .ecx, .ebx, .esi, .edi, .ebp, .edx, .ecx, .ebx]

/-- The registers that `RETURN` restores. -/
def popOrder : List Reg := [.ebp, .edi, .esi, .ebx, .ecx, .edx]

theorem saves_registers {c : Cpu} {ws : List UInt32} (hws : ws.length ≤ 5) :
    View.block 16 ([.pushfl] ++ ((pushOrder.map fun r => .pushl (.reg r)) ++ [.subl 1 .eax]))
        ⟨c, ws⟩ =
      some ⟨((c.set .esp (c.reg .esp - 40)).set .eax (c.reg .eax - 1)).setFlags
          (subFlags (c.reg .eax) 1 c.eflags),
        (pushOrder.map c.reg).reverse ++ c.eflags :: ws⟩ := by
  have hfl : View.block 16 [.pushfl] ⟨c, ws⟩ =
      some ⟨c.set .esp (c.reg .esp - 4), c.eflags :: ws⟩ := by
    show (View.push 16 c.eflags ⟨c, ws⟩).bind _ = _
    rw [View.push_eq (by omega)]
    rfl
  have hlen : (c.eflags :: ws).length + pushOrder.length ≤ 16 := by
    simp [pushOrder]
    omega
  have hsub : c.reg .esp - 4 - 4 * UInt32.ofNat pushOrder.length = c.reg .esp - 40 := by
    show c.reg .esp - 4 - 4 * 9 = _
    grind
  rw [View.block_append, hfl, Option.bind_some, View.block_append,
    View.block_pushes (by decide) hlen, Option.bind_some, Cpu.set_set, Cpu.set_self, hsub]
  rfl

theorem restores_registers {c k : Cpu} {x y z f : UInt32} {ws : List UInt32} (hc : c.cpl = 0) :
    View.block 16 ([.addl argsize .esp] ++ (popOrder.map .popl ++ [.popfl]))
        ⟨c, [x, y, z] ++ (popOrder.map k.reg ++ f :: ws)⟩ =
      some ⟨{ c with
        reg := Function.update (Function.update k.reg .eax (c.reg .eax)) .esp (c.reg .esp + 40)
        eflags := f }, ws⟩ := by
  have hadd : View.block 16 [.addl argsize .esp] ⟨c, [x, y, z] ++ (popOrder.map k.reg ++ f :: ws)⟩ =
      some ⟨(c.set .esp (c.reg .esp + 12)).setFlags (addFlags (c.reg .esp) 12 c.eflags),
        popOrder.map k.reg ++ f :: ws⟩ := rfl
  have hsum : c.reg .esp + 12 + 4 * UInt32.ofNat popOrder.length + 4 = c.reg .esp + 40 := by
    show c.reg .esp + 12 + 4 * 6 + 4 = _
    grind
  rw [View.block_append, hadd, Option.bind_some, View.block_append,
    View.block_pops (by decide) (List.length_map ..).symm, Option.bind_some]
  show (View.op 16 .popfl _).bind _ = _
  rw [View.op_popfl (by simpa [popOrder] using hc), Option.bind_some]
  refine congrArg some ?_
  simp only [popOrder, List.map_cons, List.map_nil, List.zip_cons_cons, List.zip_nil_left,
    List.foldl_cons, List.foldl_nil, Cpu.set, Cpu.setFlags, View.mk.injEq, Cpu.mk.injEq, and_true]
  funext r
  cases r with
  | esp => simpa [popOrder] using hsum
  | _ => simp

theorem SysNum.listed (sym : Symbol → UInt32) (n : SysNum) :
    (jumptable sym)[(n.number - 1).toNat]? = some (sym (.handlerasm n)) := by
  cases n <;> rfl

theorem SysNum.in_range (n : SysNum) :
    ¬ signed n.number ≤ signed minSysCall ∧ signed n.number ≤ signed maxSysCall := by
  cases n <;> decide

/-- The way in: the function of the number runs on the three registers, over what `RETURN` takes. -/
theorem systemcall_enters (hM : Linked sym M) (hoff : g.offset = sym .systemcallasm)
    (hsel : g.selector = kernelCs) (s : State) {n : SysNum} (hn : s.cpu.reg .eax = n.number) :
    ∃ t c f next, Steps M (s.enter g s.eip) t ∧ t.eip = sym (.function n) ∧ c.cpl = 0 ∧
      Shows s.mem s.cpu.kernelStack 16 t
        ⟨c, next :: ([s.cpu.reg .ebx, s.cpu.reg .ecx, s.cpu.reg .edx] ++
          (popOrder.map s.cpu.reg ++ f :: s.cpu.frame s.eip))⟩ ∧
      Listing M next [.jmp (sym .return)] := by
  obtain ⟨h, heip⟩ := Shows.enter g s.eip s (by decide : 5 ≤ 16) (by decide)
  have hlen := s.cpu.length_frame s.eip
  obtain ⟨hlow, hhigh⟩ := n.in_range
  rw [← hn] at hlow hhigh
  have hl := hM.text .systemcallasm
  rw [← hoff, ← heip] at hl
  -- the two comparisons
  obtain ⟨t₁, hs₁, h₁, hl, -⟩ := h.step hl rfl
  obtain ⟨t₂, hs₂, h₂, hl⟩ := h₁.jle_not hl
    ((lessOrEqual_subFlags ..).trans (decide_eq_false hlow))
  obtain ⟨t₃, hs₃, h₃, hl, -⟩ := h₂.step hl rfl
  obtain ⟨t₄, hs₄, h₄, hl⟩ := h₃.jg_not hl
    ((lessOrEqual_subFlags ..).trans (decide_eq_true hhigh))
  -- the registers, twice
  have hblock : Listing M t₄.eip (([.pushfl] ++ ((pushOrder.map fun r => .pushl (.reg r)) ++
      [.subl 1 .eax])) ++ [.jmpTable (jumptable sym) .eax]) := hl
  obtain ⟨t₅, hs₅, h₅, hl, -⟩ := h₄.block hblock (saves_registers hlen)
  -- through the table to the function
  have hlisted := SysNum.listed sym n
  rw [← hn] at hlisted
  obtain ⟨t₆, hs₆, h₆, heip₆⟩ := h₅.jmpTable hl hlisted
  have hl := hM.text (.handlerasm n)
  rw [← heip₆] at hl
  have hcpl : (s.cpu.entered g).cpl = 0 := cpl_entered hsel _
  obtain ⟨c, f, h₆, hc⟩ : ∃ c : Cpu, ∃ f, Shows s.mem s.cpu.kernelStack 16 t₆
      ⟨c, [s.cpu.reg .ebx, s.cpu.reg .ecx, s.cpu.reg .edx] ++
        (popOrder.map s.cpu.reg ++ f :: s.cpu.frame s.eip)⟩ ∧ c.cpl = 0 :=
    ⟨_, _, h₆, hcpl⟩
  obtain ⟨t, next, hs₇, h₇, heip₇, hl⟩ := h₆.call hl (by simp [popOrder]; omega)
  have hsteps : Steps M (s.enter g s.eip) t :=
    .head hs₁ (.head hs₂ (.head hs₃ (.head hs₄ (hs₅.trans (.head hs₆ (.single hs₇))))))
  exact ⟨t, c.set .esp (c.reg .esp - 4), f, next, hsteps, heip₇, hc, h₇, hl⟩

/-- The way back: over whatever stands in the space of the arguments, `RETURN` restores the
registers but `%eax`. -/
theorem systemcall_returns (hM : Linked sym M) {k : Cpu} {m : Mem} {ret x y z f : UInt32}
    (h : Shows m k.kernelStack 16 t
      ⟨t.cpu, [x, y, z] ++ (popOrder.map k.reg ++ f :: k.frame ret)⟩)
    (hl : Listing M t.eip [.jmp (sym .return)]) (hcpl : t.cpu.cpl = 0) :
    ∃ u, Steps M t u ∧ u.eip = ret ∧
      u.cpu = { k.returned M t.cpu with
        reg := Function.update k.reg .eax (t.cpu.reg .eax) } ∧
      u.mem = t.mem := by
  obtain ⟨t₁, hs₁, h₁, heip₁, hm₁⟩ := h.jmp hl
  have hl : Listing M t₁.eip (([.addl argsize .esp] ++ (popOrder.map .popl ++ [.popfl])) ++
      [.iret]) := by
    rw [heip₁]
    exact hM.text .return
  obtain ⟨t₂, hs₂, h₂, hl, hm₂⟩ := h₁.block hl (restores_registers hcpl)
  obtain ⟨u, hs₃, heip₃, hcpu₃, hm₃⟩ := h₂.iret hl hcpl rfl
  refine ⟨u, .head hs₁ (hs₂.trans (.single hs₃)), heip₃, ?_, hm₃.trans ((hm₂ rfl).trans hm₁)⟩
  have hreg (v w : UInt32) : Function.update (Function.update (Function.update k.reg .eax v)
      .esp w) .esp (k.reg .esp) = Function.update k.reg .eax v := by
    funext r
    cases r <;> simp
  rw [hcpu₃]
  simp only [Cpu.returned, Cpu.set, hreg]

/-- A system call, entered from anywhere: the function of its number runs on the three registers,
and when that has returned the caller goes on with its value in `%eax` and all else as before. -/
theorem systemcall_runs (hM : Linked sym M) (hoff : g.offset = sym .systemcallasm)
    (hsel : g.selector = kernelCs) (s : State) {n : SysNum} (hn : s.cpu.reg .eax = n.number) :
    ∃ t, Steps M (s.enter g s.eip) t ∧ t.eip = sym (.function n) ∧ t.cpu.cpl = 0 ∧
      WordsAt t.mem (t.esp + 4) [s.cpu.reg .ebx, s.cpu.reg .ecx, s.cpu.reg .edx] ∧
      t.esp = s.cpu.kernelStack - 4 * UInt32.ofNat (11 + (s.cpu.frame s.eip).length) ∧
      (∀ b, 64 ≤ off (s.cpu.kernelStack - 64) b → t.mem b = s.mem b) ∧
      ∀ t', Returned 3 (7 + (s.cpu.frame s.eip).length) t t' → ∃ u, Steps M t' u ∧
        u.eip = s.eip ∧
        u.cpu = { s.cpu.returned M t'.cpu with
          reg := Function.update s.cpu.reg .eax (t'.cpu.reg .eax) } ∧
        u.mem = t'.mem := by
  obtain ⟨t, c, f, next, hsteps, heip, hc, h, hl⟩ := systemcall_enters hM hoff hsel s hn
  have hkeep : (popOrder.map s.cpu.reg ++ f :: s.cpu.frame s.eip).length =
      7 + (s.cpu.frame s.eip).length := by
    rw [List.length_append, List.length_cons]
    show 6 + _ = _
    omega
  have hcpl : t.cpu.cpl = 0 := by
    rw [h.cpu]
    exact hc
  refine ⟨t, hsteps, heip, hcpl, ?_, ?_, h.frame, fun t' hr => ?_⟩
  · have hw := h.words
    rw [← h.top_eq] at hw
    exact ⟨hw.2.1, hw.2.2.1, hw.2.2.2.1, trivial⟩
  · rw [h.top_eq, h.esp]
    simp only [List.length_cons, List.length_append, List.length_nil, hkeep]
    rw [show 0 + 1 + 1 + 1 + (7 + (s.cpu.frame s.eip).length) + 1 =
      11 + (s.cpu.frame s.eip).length by omega]
  · obtain ⟨heip', l', hl', h'⟩ :=
      hr.shows (l := [s.cpu.reg .ebx, s.cpu.reg .ecx, s.cpu.reg .edx]) h rfl rfl hkeep
    obtain ⟨x, y, z, rfl⟩ := List.length_eq_three.1 hl'
    have hcpl' : t'.cpu.cpl = 0 := by
      rw [Cpu.cpl, hr.cs]
      exact hcpl
    rw [← heip'] at hl
    exact systemcall_returns hM h' hl hcpl'

/-- The registers of a program that has got to the interrupt of a wrapper. -/
def calling (n : SysNum) (a b c : UInt32) (k : Cpu) : Cpu :=
  ((((k.set .esp (k.reg .esp - 4)).set .eax n.number).set .ebx a).set .ecx b).set .edx c

theorem wrapper_block {k : Cpu} {n : SysNum} {ret a b c : UInt32} :
    View.block 5 [.pushl (.reg .ebx), .movl (.imm n.number) .eax, .movl (.mem 8 .esp) .ebx,
      .movl (.mem 12 .esp) .ecx, .movl (.mem 16 .esp) .edx] ⟨k, [ret, a, b, c]⟩ =
      some ⟨calling n a b c k, [k.reg .ebx, ret, a, b, c]⟩ := rfl

/-- The way in: a wrapper saves `%ebx` and loads the number and the arguments. -/
theorem wrapper_enters (hM : Linked sym M) {n : SysNum} {ret a b c : UInt32}
    (hs : s.eip = sym (.wrapper n)) (hargs : WordsAt s.mem s.esp [ret, a, b, c]) :
    ∃ t, Steps M s t ∧ t.cpu = calling n a b c s.cpu ∧
      Listing M t.eip [.int 0x80, .popl .ebx, .ret] ∧
      WordsAt t.mem (s.esp - 4) [s.cpu.reg .ebx, ret] ∧
      ∀ x, 4 ≤ off (s.esp - 4) x → t.mem x = s.mem x := by
  have h₀ : Shows s.mem (s.esp + 4 * UInt32.ofNat [ret, a, b, c].length) 5 s
      ⟨s.cpu, [ret, a, b, c]⟩ := .ofWords hargs (by simp) (by decide)
  have hbase : s.esp + 4 * UInt32.ofNat [ret, a, b, c].length - 4 * UInt32.ofNat 5 =
      s.esp - 4 := by
    show s.esp + 4 * 4 - 4 * 5 = _
    grind
  have hl : Listing M s.eip ([.pushl (.reg .ebx), .movl (.imm n.number) .eax,
      .movl (.mem 8 .esp) .ebx, .movl (.mem 12 .esp) .ecx, .movl (.mem 16 .esp) .edx] ++
      [.int 0x80, .popl .ebx, .ret]) := by
    rw [hs]
    exact hM.text (.wrapper n)
  obtain ⟨t, hsteps, h, hl, -⟩ := h₀.block hl wrapper_block
  have huser : WordsAt t.mem (s.esp - 4) (s.cpu.reg .ebx :: [ret, a, b, c]) := h.words
  refine ⟨t, hsteps, h.cpu, hl, ⟨huser.1, huser.2.1, trivial⟩, fun x hx => ?_⟩
  have hargs' : WordsAt t.mem s.esp [ret, a, b, c] := by
    have htail := huser.2
    rwa [UInt32.sub_add_cancel] at htail
  have hoff := off_addr (a := s.esp - 4) (b := x) (i := 4) (by decide)
  rw [if_pos hx, show addr (s.esp - 4) 4 = s.esp from UInt32.sub_add_cancel ..] at hoff
  by_cases hlow : off s.esp x < 16
  · exact hargs'.bytes hargs hlow
  · refine h.frame x ?_
    rw [hbase]
    omega

/-- The way back: a wrapper restores `%ebx`. -/
theorem wrapper_returns {ebx ret : UInt32} (hl : Listing M s.eip [.popl .ebx, .ret])
    (hw : WordsAt s.mem s.esp [ebx, ret]) :
    ∃ u, Steps M s u ∧ u.eip = ret ∧ u.mem = s.mem ∧
      u.cpu = (s.cpu.set .esp (s.esp + 8)).set .ebx ebx := by
  have h := Shows.ofWords hw (le_refl _) (by simp)
  obtain ⟨t, hs₁, h₁, hl, hm₁⟩ := h.step hl (View.pop_eq (by decide))
  obtain ⟨u, hs₂, h₂, heip₂, hm₂⟩ := h₁.ret hl rfl
  refine ⟨u, .head hs₁ (.single hs₂), heip₂, hm₂.trans (hm₁ rfl), ?_⟩
  have hsum : s.cpu.reg .esp + 4 + 4 = s.esp + 8 := by
    rw [← State.esp]
    grind
  rw [h₂.cpu]
  simp only [View.restack, Cpu.set_of_ne (show Reg.esp ≠ .ebx by decide), Cpu.set_self,
    Cpu.set_esp_set (show Reg.ebx ≠ .esp by decide), Cpu.set_set, hsum]

/-- **A system call from its wrapper on**: the function in C gets the three arguments of the caller,
and when it has returned, the wrapper returns its value and leaves all but `%eax`, `%ecx` and `%edx`
as the caller had them. -/
theorem system_calls (hM : Linked sym M) {n : SysNum} {ret a b c : UInt32}
    (hs : s.eip = sym (.wrapper n)) (hring : s.cpu.cpl = 3)
    (hargs : WordsAt s.mem s.esp [ret, a, b, c])
    (hapart : ∀ x, off (s.esp - 4) x < 20 → 64 ≤ off (s.cpu.esp0 - 64) x) :
    ∃ t, Steps M s t ∧ t.eip = sym (.function n) ∧ t.cpu.cpl = 0 ∧
      WordsAt t.mem (t.esp + 4) [a, b, c] ∧ t.esp = s.cpu.esp0 - 64 ∧
      (∀ x, 4 ≤ off (s.esp - 4) x → 64 ≤ off (s.cpu.esp0 - 64) x → t.mem x = s.mem x) ∧
      ∀ t', Returned 3 12 t t' → (∀ x, off (s.esp - 4) x < 8 → t'.mem x = t.mem x) →
        ∃ u, Steps M t' u ∧ u.eip = ret ∧ u.mem = t'.mem ∧
          u.cpu = { s.cpu.returned M t'.cpu with
            reg := fun
              | .eax => t'.cpu.reg .eax
              | .ecx => b
              | .edx => c
              | .esp => s.esp + 4
              | r => s.cpu.reg r } := by
  obtain ⟨t₁, hs₁, hcpu₁, ⟨next, hcode, hl⟩, hsaved, hframe₁⟩ := wrapper_enters hM hs hargs
  have hgate : M.gate 0x80 = some ⟨sym .systemcallasm, kernelCs, 3, true⟩ := hM.gateAt 0x80
  have hcpl₁ : t₁.cpu.cpl = 3 := by
    rw [hcpu₁]
    exact hring
  have hs₂ := int_step hcode hgate hcpl₁.le
  have hgoto : (t₁.goto next).cpu = calling n a b c s.cpu := hcpu₁
  have hne : (t₁.goto next).cpu.cpl ≠ 0 := by
    rw [hgoto, ← hcpu₁]
    omega
  have hn : (t₁.goto next).cpu.reg .eax = n.number := by
    rw [hgoto]
    rfl
  obtain ⟨t, hs₃, heip, hcpl, hwords, hesp, hmem, hback⟩ :=
    systemcall_runs (g := ⟨sym .systemcallasm, kernelCs, 3, true⟩) hM rfl rfl (t₁.goto next) hn
  have hlen : ((t₁.goto next).cpu.frame (t₁.goto next).eip).length = 5 := by
    rw [Cpu.frame, if_neg hne]
    rfl
  have hstack : (t₁.goto next).cpu.kernelStack = s.cpu.esp0 := by
    rw [Cpu.kernelStack, if_neg hne, hgoto]
    rfl
  rw [hlen] at hback hesp
  rw [hstack] at hmem hesp
  rw [hgoto] at hwords
  have hsteps : Steps M s t := hs₁.trans (.head hs₂ hs₃)
  refine ⟨t, hsteps, heip, hcpl, hwords, hesp, fun x hx hx' => ?_, fun t' hr hkeep => ?_⟩
  · exact (hmem x hx').trans (hframe₁ x hx)
  · obtain ⟨u₁, hu₁, heip₁, hcpu₁, hmem₁⟩ := hback t' hr
    rw [hgoto] at hcpu₁
    have hesp₁ : u₁.esp = s.esp - 4 := by
      rw [State.esp, hcpu₁]
      rfl
    have hwords₁ : WordsAt u₁.mem u₁.esp [s.cpu.reg .ebx, ret] := by
      rw [hesp₁, hmem₁]
      refine hsaved.congr fun x hx => ?_
      rw [List.length_cons, List.length_singleton] at hx
      rw [hkeep x hx, hmem x (hapart x (by omega))]
      rfl
    have hl : Listing M u₁.eip [.popl .ebx, .ret] := by
      rw [heip₁]
      exact hl
    obtain ⟨u, hu, heip, hm, hcpu⟩ := wrapper_returns hl hwords₁
    refine ⟨u, hu₁.trans hu, heip, hm.trans hmem₁, ?_⟩
    have hsum : s.esp - 4 + 8 = s.esp + 4 := by grind
    rw [hcpu, hesp₁, hsum, hcpu₁]
    simp only [Cpu.set, Cpu.returned, Cpu.mk.injEq]
    refine ⟨?_, rfl, rfl, rfl, rfl, trivial, trivial⟩
    funext r
    cases r <;> rfl

/-- With a function that returns at once. -/
theorem system_calls_write :
    ∃ t u, Steps image (sample (place (.wrapper .write)) userCs.toUInt16) t ∧
      t.eip = place (.function .write) ∧ t.cpu.cpl = 0 ∧
      WordsAt t.mem (t.esp + 4) [0x01010101, 0x01010101, 0x01010101] ∧
      Steps image (t.drop 4 |>.goto t.top) u ∧ u.eip = 0x01010101 ∧
      u.cpu.cs = userCs.toUInt16 ∧ u.cpu.reg .eax = t.cpu.reg .eax := by
  have hargs : WordsAt (sample (place (.wrapper .write)) userCs.toUInt16).mem 0x83FFFF0
      [0x01010101, 0x01010101, 0x01010101, 0x01010101] := ⟨rfl, rfl, rfl, rfl, trivial⟩
  obtain ⟨t, hsteps, heip, hcpl, hwords, -, -, hback⟩ := system_calls linked_image
    (s := sample (place (.wrapper .write)) userCs.toUInt16) (n := .write) rfl rfl hargs
    fun x hx => by
      change off (0x83FFFF0 - 4) x < 20 at hx
      show 64 ≤ off (0x7FE000 - 64) x
      rw [off_lt_iff (by decide)] at hx
      rw [← not_lt, off_lt_iff (by decide)]
      simp at hx ⊢
      omega
  obtain ⟨u, hu, heip', -, hcpu⟩ := hback _ (.atOnce _ _ t) fun _ _ => rfl
  refine ⟨t, u, hsteps, heip, hcpl, hwords, hu, heip', ?_, ?_⟩
  · rw [hcpu]
    rfl
  · rw [hcpu]
    have heax : (t.cpu.set .esp (t.esp + 4)).reg .eax = t.cpu.reg .eax :=
      Cpu.set_of_ne (by decide) ..
    exact heax

/-! ## Other numbers -/

theorem exists_number {w : UInt32} (hlow : ¬ signed w ≤ signed minSysCall)
    (hhigh : signed w ≤ signed maxSysCall) : ∃ n : SysNum, n.number = w := by
  have hlow : 0 < signed w := not_le.1 hlow
  have hhigh : signed w ≤ 10 := hhigh
  obtain ⟨k, hk⟩ : ∃ k : ℕ, signed w = k := ⟨_, (Int.toNat_of_nonneg hlow.le).symm⟩
  rw [hk] at hlow hhigh
  obtain ⟨n, hn⟩ : ∃ n : SysNum, signed n.number = k := by
    obtain rfl | rfl | rfl | rfl | rfl | rfl | rfl | rfl | rfl | rfl : k = 1 ∨ k = 2 ∨ k = 3 ∨
        k = 4 ∨ k = 5 ∨ k = 6 ∨ k = 7 ∨ k = 8 ∨ k = 9 ∨ k = 10 := by omega
    exacts [⟨.halt, rfl⟩, ⟨.execute, rfl⟩, ⟨.read, rfl⟩, ⟨.write, rfl⟩, ⟨.open, rfl⟩,
      ⟨.close, rfl⟩, ⟨.getargs, rfl⟩, ⟨.vidmap, rfl⟩, ⟨.setHandler, rfl⟩, ⟨.sigreturn, rfl⟩]
  exact ⟨n, signed_inj.1 (hn.trans hk.symm)⟩

/-- A number that is not one of a system call: no function runs. -/
theorem defaulterror_runs (hM : Linked sym M) (hoff : g.offset = sym .systemcallasm)
    (hsel : g.selector = kernelCs) (s : State) (hn : ∀ n : SysNum, n.number ≠ s.cpu.reg .eax) :
    ∃ u, Steps M (s.enter g s.eip) u ∧ u.eip = s.eip ∧
      u.cpu = { s.cpu with
        reg := Function.update s.cpu.reg .eax (-1)
        seg := if s.cpu.cpl = 0 then s.cpu.seg
          else fun r => M.selectorIn s.cpu.cpl (s.cpu.seg r) } ∧
      ∀ b, 20 ≤ off (s.cpu.kernelStack - 20) b → u.mem b = s.mem b := by
  obtain ⟨h, heip⟩ := Shows.enter g s.eip s (le_refl 5) (by decide)
  have hl := hM.text .systemcallasm
  rw [← hoff, ← heip] at hl
  obtain ⟨t, f, hsteps, h, heip⟩ : ∃ t f, Steps M (s.enter g s.eip) t ∧
      Shows s.mem s.cpu.kernelStack 5 t ⟨(s.cpu.entered g).setFlags f, s.cpu.frame s.eip⟩ ∧
      t.eip = sym .defaulterror := by
    obtain ⟨t₁, hs₁, h₁, hl, -⟩ := h.step hl rfl
    by_cases hlow : signed (s.cpu.reg .eax) ≤ signed minSysCall
    · obtain ⟨t, hs₂, h₂, heip⟩ := h₁.jle_taken hl
        ((lessOrEqual_subFlags ..).trans (decide_eq_true hlow))
      exact ⟨t, _, .head hs₁ (.single hs₂), h₂, heip⟩
    · have hhigh : ¬ signed (s.cpu.reg .eax) ≤ signed maxSysCall := fun hhigh => by
        obtain ⟨n, hnum⟩ := exists_number hlow hhigh
        exact hn n hnum
      obtain ⟨t₂, hs₂, h₂, hl⟩ := h₁.jle_not hl
        ((lessOrEqual_subFlags ..).trans (decide_eq_false hlow))
      obtain ⟨t₃, hs₃, h₃, hl, -⟩ := h₂.step hl rfl
      obtain ⟨t, hs₄, h₄, heip⟩ := h₃.jg_taken hl
        ((lessOrEqual_subFlags ..).trans (decide_eq_false hhigh))
      exact ⟨t, _, .head hs₁ (.head hs₂ (.head hs₃ (.single hs₄))), h₄, heip⟩
  have hl := hM.text .defaulterror
  rw [← heip] at hl
  obtain ⟨t₁, hs₁, h₁, hl, -⟩ := h.step hl rfl
  have hcpl : (s.cpu.entered g).cpl = 0 := cpl_entered hsel _
  obtain ⟨u, hs₂, heip₂, hcpu₂, hmem₂⟩ := h₁.iret hl hcpl rfl
  refine ⟨u, hsteps.trans (.head hs₁ (.single hs₂)), heip₂, ?_, fun b hb => ?_⟩
  · have hreg (v : UInt32) : Function.update (Function.update (Function.update s.cpu.reg .esp v)
        .eax (-1)) .esp (s.cpu.reg .esp) = Function.update s.cpu.reg .eax (-1) := by
      funext r
      cases r <;> simp
    rw [hcpu₂]
    simp only [Cpu.returned, Cpu.set, View.onCpu, Cpu.setFlags, Cpu.entered, hreg, Cpu.mk.injEq,
      true_and, and_true]
    split <;> rfl
  · rw [hmem₂]
    exact h₁.frame b hb

/-- The kernel answers a number that is not one of a system call with −1. -/
theorem other_numbers (hM : Linked sym M) {next : UInt32}
    (hcode : M.code s.eip = some (.int systemcallno, next))
    (hn : ∀ n : SysNum, n.number ≠ s.cpu.reg .eax) :
    ∃ u, Steps M s u ∧ u.eip = next ∧
      u.cpu = { s.cpu with
        reg := Function.update s.cpu.reg .eax (-1)
        seg := if s.cpu.cpl = 0 then s.cpu.seg
          else fun r => M.selectorIn s.cpu.cpl (s.cpu.seg r) } ∧
      ∀ b, 20 ≤ off (s.cpu.kernelStack - 20) b → u.mem b = s.mem b := by
  have hgate : M.gate systemcallno = some ⟨sym .systemcallasm, kernelCs, 3, true⟩ :=
    hM.gateAt systemcallno
  have hs := int_step hcode hgate (Nat.le_of_lt_succ (Nat.mod_lt _ (by decide)))
  obtain ⟨u, hsteps, heip, hcpu, hmem⟩ :=
    defaulterror_runs (g := ⟨sym .systemcallasm, kernelCs, 3, true⟩) hM rfl rfl (s.goto next) hn
  exact ⟨u, .head hs hsteps, heip, hcpu, hmem⟩

theorem code_int (n : SysNum) : image.code (addr (place (.wrapper n)) 5) =
    some (.int systemcallno, addr (place (.wrapper n)) 6) := code_image (k := 5) rfl

theorem other_numbers_zero :
    ∃ u, Steps image (sample (addr (place (.wrapper .halt)) 5) userCs.toUInt16) u ∧
      u.eip = addr (place (.wrapper .halt)) 6 ∧ u.cpu.reg .eax = -1 := by
  obtain ⟨u, hsteps, heip, hcpu, -⟩ := other_numbers linked_image
    (s := sample (addr (place (.wrapper .halt)) 5) userCs.toUInt16) (code_int .halt)
    fun n => by cases n <;> decide
  refine ⟨u, hsteps, heip, ?_⟩
  rw [hcpu]
  rfl

/-! ## The gates of programs -/

theorem gateAt_user {n : UInt8} (hg : gateAt sym n = some g) (hdpl : 3 ≤ g.dpl) :
    (n = pitno ∨ n = systemcallno) ∧ g.selector = kernelCs ∧
      g.offset = sym (if n = pitno then .pithandlerasm else .systemcallasm) := by
  rw [gateAt] at hg
  split_ifs at hg with hpit hsys
  · obtain rfl := Option.some.inj hg
    exact ⟨.inl hpit, rfl, by rw [if_pos hpit]⟩
  · obtain rfl := Option.some.inj hg
    exact ⟨.inr hsys, rfl, by rw [if_neg hpit]⟩
  all_goals
    obtain rfl := Option.some.inj hg
    exact absurd hdpl (by simp)

/-- The interrupts that a program can make, and where they lead. -/
theorem user_gates (hM : Linked sym M) {n : UInt8} (hl : Listing M s.eip (.int n :: l))
    (hring : s.cpu.cpl = 3) :
    ((s.step M).isSome ↔ n = pitno ∨ n = systemcallno) ∧
      ∀ t, s.step M = some t →
        t.eip = sym (if n = pitno then .pithandlerasm else .systemcallasm) ∧ t.cpu.cpl = 0 ∧
        t.esp = s.cpu.esp0 - 20 ∧
        ∀ b, 20 ≤ off (s.cpu.esp0 - 20) b → t.mem b = s.mem b := by
  obtain ⟨next, hcode, -⟩ := hl
  have hstep (t : State) : s.step M = some t ↔
      ∃ g, gateAt sym n = some g ∧ 3 ≤ g.dpl ∧ (s.goto next).enter g next = t := by
    rw [step_eq hcode, State.exec, hM.gateAt, Option.bind_eq_bind, Option.bind_eq_some_iff]
    simp only [Option.ite_none_right_eq_some, Option.some.injEq]
    show (∃ g, _ ∧ s.cpu.cpl ≤ _ ∧ _) ↔ _
    rw [hring]
    rfl
  refine ⟨?_, fun t ht => ?_⟩
  · rw [Option.isSome_iff_exists]
    constructor
    · rintro ⟨t, ht⟩
      obtain ⟨g, hg, hdpl, -⟩ := (hstep t).1 ht
      exact (gateAt_user hg hdpl).1
    · rintro (rfl | rfl)
      · exact ⟨_, (hstep _).2 ⟨_, rfl, le_refl 3, rfl⟩⟩
      · exact ⟨_, (hstep _).2 ⟨_, rfl, le_refl 3, rfl⟩⟩
  · obtain ⟨g, hg, hdpl, rfl⟩ := (hstep t).1 ht
    obtain ⟨-, hsel, hoff⟩ := gateAt_user hg hdpl
    obtain ⟨h, heip⟩ := Shows.enter g next (s.goto next) (le_refl 5) (by decide)
    have hne : (s.goto next).cpu.cpl ≠ 0 := by
      show s.cpu.cpl ≠ 0
      omega
    have hstack : (s.goto next).cpu.kernelStack = s.cpu.esp0 := if_neg hne
    have hframe : ((s.goto next).cpu.frame next).length = 5 := by
      rw [Cpu.frame, if_neg hne]
      rfl
    have hesp := h.esp
    rw [← h.top_eq, hframe, hstack] at hesp
    have hmem := h.frame
    rw [hstack] at hmem
    refine ⟨heip.trans hoff, ?_, hesp, hmem⟩
    rw [h.cpu]
    exact cpl_entered hsel _

theorem user_gates_systemcall :
    ((sample (addr (place (.wrapper .halt)) 5) userCs.toUInt16).step image).isSome :=
  (user_gates linked_image (s := sample (addr (place (.wrapper .halt)) 5) userCs.toUInt16)
    (l := []) ⟨_, code_int .halt, trivial⟩ rfl).1.2 (.inr rfl)

/-! ## Saving the stack of the scheduler -/

/-- `save_esp_ebpasm`: the function in C gets the stack pointer and the frame pointer of the call,
and when it has returned, so does the routine. -/
theorem saveEspEbp_runs (hM : Linked sym M) (hs : s.eip = sym .saveEspEbpasm) :
    ∃ t, Steps M s t ∧ t.eip = sym .saveEspEbp ∧
      WordsAt t.mem (t.esp + 4) [s.esp, s.cpu.reg .ebp] ∧
      (∀ b, 16 ≤ off (s.esp - 12) b → t.mem b = s.mem b) ∧
      ∀ t', Returned 2 1 t t' → ∃ u, Steps M t' u ∧ u.eip = s.top ∧ u.mem = t'.mem ∧
        u.esp = s.esp + 4 ∧ ∀ r, r ≠ .esp → u.cpu.reg r = t'.cpu.reg r := by
  have hargs : WordsAt s.mem s.esp [s.top] := ⟨rfl, trivial⟩
  have h₀ : Shows s.mem (s.esp + 4 * UInt32.ofNat [s.top].length) 4 s ⟨s.cpu, [s.top]⟩ :=
    .ofWords hargs (by simp) (by decide)
  have hbase : s.esp + 4 * UInt32.ofNat [s.top].length - 4 * UInt32.ofNat 4 = s.esp - 12 := by
    show s.esp + 4 * 1 - 4 * 4 = _
    grind
  have hl : Listing M s.eip ((saveEspEbpText sym).take 6 ++ (saveEspEbpText sym).drop 6) := by
    rw [hs, List.take_append_drop]
    exact hM.text .saveEspEbpasm
  obtain ⟨c, hblock⟩ : ∃ c, View.block 4 ((saveEspEbpText sym).take 6) ⟨s.cpu, [s.top]⟩ =
      some ⟨c, [s.esp, s.cpu.reg .ebp, s.top]⟩ := ⟨_, rfl⟩
  obtain ⟨t₁, hs₁, h₁, hl, -⟩ := h₀.block hl hblock
  obtain ⟨t, next, hs₂, h₂, heip₂, hl⟩ := h₁.call hl (by simp)
  have hsteps : Steps M s t := hs₁.trans (.single hs₂)
  have hframe := h₂.frame
  rw [hbase] at hframe
  refine ⟨t, hsteps, heip₂, ?_, hframe, fun t' hr => ?_⟩
  · have hw := h₂.words
    rw [← h₂.top_eq] at hw
    exact ⟨hw.2.1, hw.2.2.1, trivial⟩
  · obtain ⟨heip', l', hl', h'⟩ := hr.shows (l := [s.esp, s.cpu.reg .ebp]) h₂ rfl rfl rfl
    obtain ⟨x, y, rfl⟩ := List.length_eq_two.1 hl'
    rw [← heip'] at hl
    have hdrop : View.op 4 (.addl 8 .esp) ⟨t'.cpu, [x, y] ++ [s.top]⟩ =
        some ⟨(t'.cpu.set .esp (t'.cpu.reg .esp + 8)).setFlags
          (addFlags (t'.cpu.reg .esp) 8 t'.cpu.eflags), [s.top]⟩ := rfl
    obtain ⟨t₃, hs₃, h₃, hl, hm₃⟩ := h'.step hl hdrop
    obtain ⟨u, hs₄, h₄, heip₄, hm₄⟩ := h₃.ret hl rfl
    refine ⟨u, .head hs₃ (.single hs₄), heip₄, hm₄.trans (hm₃ rfl), ?_, fun r hr => ?_⟩
    · rw [h₄.top_eq, h₄.esp]
      show s.esp + 4 * 1 - 4 * 0 = _
      grind
    · rw [h₄.cpu]
      simp [View.restack, Cpu.set_of_ne hr]

/-! ## Starting a program and coming back -/

theorem contextswitch_base {ret eipval pcb : UInt32} :
    s.esp + 4 * UInt32.ofNat [ret, eipval, pcb].length - 4 * UInt32.ofNat 8 = s.esp - 20 := by
  show s.esp + 4 * 3 - 4 * 8 = _
  grind

/-- The way in: the data segments are those of programs, and the function that keeps the parent's
registers gets them. -/
theorem contextswitch_saves (hM : Linked sym M) {ret eipval pcb : UInt32}
    (hs : s.eip = sym .contextswitchasm) (hargs : WordsAt s.mem s.esp [ret, eipval, pcb]) :
    ∃ t c next, Steps M s t ∧ t.eip = sym .saveParentRegisters ∧
      c.cs = s.cpu.cs ∧ c.seg = (fun _ => userDs.toUInt16) ∧
      Shows s.mem (s.esp + 4 * UInt32.ofNat [ret, eipval, pcb].length) 8 t
        ⟨c, next :: ([pcb, s.esp, s.cpu.reg .ebp] ++ [ret, eipval, pcb])⟩ ∧
      Listing M next (((contextswitchText sym).drop 13).take 11 ++ [.iret, .ret]) := by
  have h₀ : Shows s.mem (s.esp + 4 * UInt32.ofNat [ret, eipval, pcb].length) 8 s
      ⟨s.cpu, [ret, eipval, pcb]⟩ := .ofWords hargs (by simp) (by decide)
  have hl : Listing M s.eip
      ((contextswitchText sym).take 12 ++ (contextswitchText sym).drop 12) := by
    rw [hs, List.take_append_drop]
    exact hM.text .contextswitchasm
  obtain ⟨c, hblock, hc, hseg⟩ : ∃ c,
      View.block 8 ((contextswitchText sym).take 12) ⟨s.cpu, [ret, eipval, pcb]⟩ =
        some ⟨c, [pcb, s.esp, s.cpu.reg .ebp, ret, eipval, pcb]⟩ ∧ c.cs = s.cpu.cs ∧
        c.seg = fun _ => userDs.toUInt16 :=
    ⟨_, rfl, rfl, by funext r; cases r <;> rfl⟩
  obtain ⟨t₁, hs₁, h₁, hl, -⟩ := h₀.block hl hblock
  obtain ⟨t, next, hs₂, h₂, heip₂, hl⟩ := h₁.call hl (by simp)
  exact ⟨t, c.set .esp (c.reg .esp - 4), next, hs₁.trans (.single hs₂), heip₂, hc, hseg, h₂, hl⟩

/-- The way on: over whatever stands in the space of the arguments, the frame of a program is laid
out, and `iret` takes it. -/
theorem contextswitch_starts (hM : Linked sym M) {m : Mem}
    {base ret eipval pcb x y z : UInt32}
    (h : Shows m base 8 t ⟨t.cpu, [x, y, z] ++ [ret, eipval, pcb]⟩)
    (hl : Listing M t.eip (((contextswitchText sym).drop 13).take 11 ++ [.iret, .ret]))
    (hcpl : t.cpu.cpl = 0) (hseg : t.cpu.seg = fun _ => userDs.toUInt16) :
    ∃ u, Steps M t u ∧ u.eip = eipval ∧
      u.cpu.cs = userCs.toUInt16 ∧ u.cpu.ss = userDs.toUInt16 ∧ u.esp = esparg ∧
      bit interruptFlag u.cpu.eflags = true ∧ u.cpu.seg = (fun _ => userDs.toUInt16) ∧
      ∀ b, 32 ≤ off (base - 4 * UInt32.ofNat 8) b → u.mem b = m b := by
  obtain ⟨c, f, hblock, hc, hseg₁⟩ : ∃ c f,
      View.block 8 (((contextswitchText sym).drop 13).take 11)
          ⟨t.cpu, [x, y, z] ++ [ret, eipval, pcb]⟩ =
        some ⟨c, [eipval, userCs, f ||| 0x200, esparg, userDs, ret, eipval, pcb]⟩ ∧
      c.cpl = 0 ∧ c.seg = t.cpu.seg := ⟨_, _, rfl, hcpl, rfl⟩
  obtain ⟨t₁, hs₁, h₁, hl, -⟩ := h.block hl hblock
  have hcs : userCs.toUInt16.toUInt32 = userCs := by decide
  have hds : userDs.toUInt16.toUInt32 = userDs := by decide
  have hwords : WordsAt t₁.mem t₁.esp
      [eipval, userCs.toUInt16.toUInt32, f ||| 0x200, esparg, userDs.toUInt16.toUInt32] := by
    have hw := h₁.words
    rw [← h₁.top_eq] at hw
    rw [hcs, hds]
    exact ⟨hw.1, hw.2.1, hw.2.2.1, hw.2.2.2.1, hw.2.2.2.2.1, trivial⟩
  have hring₁ : t₁.cpu.cpl = 0 := by
    rw [h₁.cpu]
    exact hc
  obtain ⟨u, hs₂, heip₂, hcpu₂, hmem₂⟩ := iret_outer hl hring₁ hwords (by decide)
  refine ⟨u, hs₁.trans (.single hs₂), heip₂, ?_, ?_, ?_, ?_, ?_, fun b hb => ?_⟩
  · rw [hcpu₂]
    rfl
  · rw [hcpu₂]
    rfl
  · rw [State.esp, hcpu₂, Cpu.set_self]
  · have hset : f ||| 0x200 = setBit interruptFlag true f := by
      rw [setBit, if_pos rfl]
      rfl
    rw [hcpu₂]
    show bit interruptFlag (f ||| 0x200) = true
    rw [hset, bit_setBit true f (by decide) (by decide), if_pos rfl]
  · have hseg₁ : t₁.cpu.seg = fun _ => userDs.toUInt16 := by
      rw [h₁.cpu, hseg₁, hseg]
    rw [hcpu₂]
    show (fun r => M.selectorIn _ (t₁.cpu.seg r)) = _
    rw [hseg₁]
    funext r
    have hdpl : ¬ segDpl userDs.toUInt16 < userCs.toUInt16.toNat % 4 := by decide
    rw [Machine.selectorIn, hM.segDpl]
    exact if_neg hdpl
  · rw [hmem₂]
    exact h₁.frame b hb

/-- `contextswitchasm`: the function that keeps the parent's registers gets them, and when it has
returned, with the selectors as it found them, the program starts in ring 3 with interrupts on. -/
theorem contextswitch_runs (hM : Linked sym M) {ret eipval pcb : UInt32}
    (hs : s.eip = sym .contextswitchasm) (hring : s.cpu.cpl = 0)
    (hargs : WordsAt s.mem s.esp [ret, eipval, pcb]) :
    ∃ t, Steps M s t ∧ t.eip = sym .saveParentRegisters ∧
      WordsAt t.mem (t.esp + 4) [pcb, s.esp, s.cpu.reg .ebp] ∧
      (∀ b, 32 ≤ off (s.esp - 20) b → t.mem b = s.mem b) ∧
      ∀ t', Returned 3 3 t t' → t'.cpu.seg = t.cpu.seg → ∃ u, Steps M t' u ∧ u.eip = eipval ∧
        u.cpu.cs = userCs.toUInt16 ∧ u.cpu.ss = userDs.toUInt16 ∧ u.esp = esparg ∧
        bit interruptFlag u.cpu.eflags = true ∧ u.cpu.seg = (fun _ => userDs.toUInt16) ∧
        ∀ b, 32 ≤ off (s.esp - 20) b → u.mem b = t'.mem b := by
  obtain ⟨t, c, next, hsteps, heip, hcs, hseg, h, hl⟩ := contextswitch_saves hM hs hargs
  have hframe := h.frame
  rw [contextswitch_base] at hframe
  refine ⟨t, hsteps, heip, ?_, hframe, fun t' hr hkeep => ?_⟩
  · have hw := h.words
    rw [← h.top_eq] at hw
    exact ⟨hw.2.1, hw.2.2.1, hw.2.2.2.1, trivial⟩
  · obtain ⟨heip', l', hl', h'⟩ := hr.shows (l := [pcb, s.esp, s.cpu.reg .ebp]) h rfl rfl rfl
    obtain ⟨x, y, z, rfl⟩ := List.length_eq_three.1 hl'
    rw [← heip'] at hl
    have hcpl : t'.cpu.cpl = 0 := by
      rw [Cpu.cpl, hr.cs, h.cpu, hcs]
      exact hring
    have hseg' : t'.cpu.seg = fun _ => userDs.toUInt16 := by
      rw [hkeep, h.cpu]
      exact hseg
    have hstart := contextswitch_starts hM h' hl hcpl hseg'
    rwa [contextswitch_base] at hstart

/-- `restoreparent`: its second argument becomes the stack, and from there it returns. The value in
`%eax` comes from that stack too, and is not `status`. -/
theorem restoreparent_runs (hM : Linked sym M) {ebp esp status : UInt32}
    (hs : s.eip = sym .restoreparent) (hargs : WordsAt s.mem (s.esp + 4) [ebp, esp, status]) :
    ∃ u, Steps M s u ∧ u.eip = load32 s.mem esp ∧ u.mem = s.mem ∧
      u.cpu = ((s.cpu.set .ebp ebp).set .eax (load32 s.mem (esp + 12))).set .esp (esp + 4) := by
  have hl := hM.text .restoreparent
  rw [← hs] at hl
  obtain ⟨n₁, h₁, n₂, h₂, n₃, h₃, n₄, h₄, -⟩ := hl
  have hebp : load32 s.mem (s.esp + 4) = ebp := hargs.1
  have hesp : load32 s.mem (s.esp + 8) = esp := by
    rw [← hargs.2.1, UInt32.add_assoc]
    rfl
  obtain ⟨s₁, hs₁, heip₁, hcpu₁, hmem₁⟩ : ∃ s₁, s.step M = some s₁ ∧ s₁.eip = n₁ ∧
      s₁.cpu = s.cpu.set .ebp ebp ∧ s₁.mem = s.mem :=
    ⟨_, step_eq h₁, rfl, congrArg (s.cpu.set .ebp) hebp, rfl⟩
  rw [← heip₁] at h₂
  obtain ⟨s₂, hs₂, heip₂, hcpu₂, hmem₂⟩ : ∃ s₂, s₁.step M = some s₂ ∧ s₂.eip = n₂ ∧
      s₂.cpu = s₁.cpu.set .esp esp ∧ s₂.mem = s₁.mem := by
    refine ⟨_, step_eq h₂, rfl, ?_, rfl⟩
    show s₁.cpu.set .esp (load32 s₁.mem (s₁.cpu.reg .esp + 8)) = _
    rw [hcpu₁, hmem₁]
    exact congrArg ((s.cpu.set .ebp ebp).set .esp) hesp
  rw [← heip₂] at h₃
  obtain ⟨s₃, hs₃, heip₃, hcpu₃, hmem₃⟩ : ∃ s₃, s₂.step M = some s₃ ∧ s₃.eip = n₃ ∧
      s₃.cpu = s₂.cpu.set .eax (load32 s.mem (esp + 12)) ∧ s₃.mem = s₂.mem := by
    refine ⟨_, step_eq h₃, rfl, ?_, rfl⟩
    show s₂.cpu.set .eax (load32 s₂.mem (s₂.cpu.reg .esp + 12)) = _
    rw [hmem₂, hmem₁, hcpu₂, Cpu.set_self]
  rw [← heip₃] at h₄
  have hmem : s₃.mem = s.mem := hmem₃.trans (hmem₂.trans hmem₁)
  have hesp₃ : s₃.esp = esp := by
    rw [State.esp, hcpu₃, hcpu₂, Cpu.set_of_ne (by decide), Cpu.set_self]
  refine ⟨_, .head hs₁ (.head hs₂ (.head hs₃ (.single (step_eq h₄)))), ?_, hmem, ?_⟩
  · show load32 s₃.mem s₃.esp = _
    rw [hmem, hesp₃]
  · show s₃.cpu.set .esp (s₃.esp + 4) = _
    rw [hesp₃, hcpu₃, hcpu₂, hcpu₁, Cpu.set_esp_set (by decide), Cpu.set_set]
    exact (Cpu.set_esp_set (by decide) ..).symm

/-- **Starting a program and coming back**: on what `contextswitchasm` hands over to be saved, its
own stack pointer and frame pointer, `restoreparent` goes on behind the call of `contextswitchasm`,
whatever has run since, as long as the return address still stands there. -/
theorem program_and_back (hM : Linked sym M) {ret eipval pcb : UInt32}
    (hs : s.eip = sym .contextswitchasm) (hring : s.cpu.cpl = 0)
    (hargs : WordsAt s.mem s.esp [ret, eipval, pcb]) :
    ∃ t, Steps M s t ∧ t.eip = sym .saveParentRegisters ∧
      WordsAt t.mem (t.esp + 4) [pcb, s.esp, s.cpu.reg .ebp] ∧
      (∀ b, 32 ≤ off (s.esp - 20) b → t.mem b = s.mem b) ∧
      (∀ t', Returned 3 3 t t' → t'.cpu.seg = t.cpu.seg → ∃ u, Steps M t' u ∧ u.eip = eipval ∧
        u.cpu.cs = userCs.toUInt16 ∧ u.cpu.ss = userDs.toUInt16 ∧ u.esp = esparg ∧
        bit interruptFlag u.cpu.eflags = true ∧ u.cpu.seg = (fun _ => userDs.toUInt16) ∧
        ∀ b, 32 ≤ off (s.esp - 20) b → u.mem b = t'.mem b) ∧
      ∀ v status, v.eip = sym .restoreparent →
        WordsAt v.mem (v.esp + 4) [s.cpu.reg .ebp, s.esp, status] →
        (∀ b, off s.esp b < 4 → v.mem b = s.mem b) →
        ∃ u, Steps M v u ∧ u.eip = ret ∧ u.mem = v.mem ∧ u.esp = s.esp + 4 ∧
          u.cpu.reg .ebp = s.cpu.reg .ebp ∧
          ∀ r, r ≠ .esp → r ≠ .ebp → r ≠ .eax → u.cpu.reg r = v.cpu.reg r := by
  obtain ⟨t, hsteps, heip, hwords, hframe, hstart⟩ := contextswitch_runs hM hs hring hargs
  refine ⟨t, hsteps, heip, hwords, hframe, hstart, fun v status hv hsaved hkeep => ?_⟩
  obtain ⟨u, hu, heip, hmem, hcpu⟩ := restoreparent_runs hM hv hsaved
  refine ⟨u, hu, ?_, hmem, ?_, ?_, fun r hesp hebp heax => ?_⟩
  · rw [heip, load32_congr hkeep]
    exact hargs.1
  · rw [State.esp, hcpu, Cpu.set_self]
  · rw [hcpu, Cpu.set_of_ne (by decide), Cpu.set_of_ne (by decide), Cpu.set_self]
  · rw [hcpu, Cpu.set_of_ne hesp, Cpu.set_of_ne heax, Cpu.set_of_ne hebp]

/-- A state whose registers are full of ones, like its memory. -/
def ones (eip : UInt32) : State :=
  (sample eip kernelCs).onCpu fun c => { c with reg := fun _ => 0x01010101 }

/-- With a function that returns at once. -/
theorem program_and_back_ones :
    ∃ t u v, Steps image (ones (place .contextswitchasm)) t ∧
      t.eip = place .saveParentRegisters ∧
      WordsAt t.mem (t.esp + 4) [0x01010101, 0x01010101, 0x01010101] ∧
      Steps image (t.drop 4 |>.goto t.top) u ∧ u.eip = 0x01010101 ∧
      u.cpu.cs = userCs.toUInt16 ∧
      Steps image (ones (place .restoreparent)) v ∧ v.eip = 0x01010101 ∧ v.esp = 0x01010105 := by
  have hargs : WordsAt (ones (place .contextswitchasm)).mem 0x01010101
      [0x01010101, 0x01010101, 0x01010101] := ⟨rfl, rfl, rfl, trivial⟩
  obtain ⟨t, hsteps, heip, hwords, -, hstart, hend⟩ := program_and_back linked_image
    (s := ones (place .contextswitchasm)) rfl rfl hargs
  obtain ⟨u, hu, heip', hcs, -⟩ := hstart _ (.atOnce _ _ t) rfl
  obtain ⟨v, hv, hret, -, hesp, -⟩ := hend (ones (place .restoreparent)) 0x01010101 rfl
    ⟨rfl, rfl, rfl, trivial⟩ fun _ _ => rfl
  exact ⟨t, u, v, hsteps, heip, hwords, hu, heip', hcs, hv, hret, hesp⟩

end Linkage

end Kernel391

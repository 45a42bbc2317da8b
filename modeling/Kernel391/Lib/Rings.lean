import Kernel391.Lib.Memory
import Mathlib.Logic.Relation

/-!
# x86 code between rings

The instructions of code that moves between user and kernel: what it does with registers and the
stack, the transfers of control, the software interrupt and `iret`. Segments are flat, so of a
segment register only its selector matters.

**The machine** (`State`). Registers, flags, selectors and a byte memory; the code stands apart
from the memory, an instruction and the address of the next at every address. An entry into the
kernel from ring 3 moves to the stack that the task state segment names and leaves there what
`iret` takes back.

**The view** (`View`). Code of this kind uses its stack as a list of words. `Shows` says that the
words of the list stand on the stack in memory, below `base`, and that no byte further than `cap`
words below `base` and no byte from `base` on has changed. Every operation of the list machine is
an operation of the byte machine (`Shows.op`), so is a block of them (`Shows.block`), and a
transfer goes on with a view (`Shows.call`, `Shows.ret`, …).
-/

namespace Rings

open Memory

inductive Reg
  | eax
  | ecx
  | edx
  | ebx
  | esp
  | ebp
  | esi
  | edi
  deriving DecidableEq

/-- A segment register for data. -/
inductive Seg
  | ds
  | es
  | fs
  | gs
  deriving DecidableEq

/-- What is read. -/
inductive Src
  | imm (w : UInt32)
  | reg (r : Reg)
  /-- `disp(base)` -/
  | mem (disp : UInt32) (base : Reg)

/-- An instruction, in the operand order of the GNU assembler (source first). -/
inductive Instr
  | movl (src : Src) (dst : Reg)
  /-- `movw %reg, %seg`, of the low half of a register -/
  | movwTo (src : Reg) (seg : Seg)
  | xorl (src dst : Reg)
  | orl (imm : UInt32) (dst : Reg)
  | addl (imm : UInt32) (dst : Reg)
  | subl (imm : UInt32) (dst : Reg)
  | cmpl (imm : UInt32) (dst : Reg)
  | pushl (src : Src)
  | popl (dst : Reg)
  | pushfl
  | popfl
  | pushal
  | popal
  | jle (a : UInt32)
  | jg (a : UInt32)
  | jmp (a : UInt32)
  /-- `jmp *table(,%index,4)`, through a table of the text segment -/
  | jmpTable (table : List UInt32) (index : Reg)
  | call (a : UInt32)
  | ret
  | int (n : UInt8)
  | iret

/-- The instructions that write to memory. -/
def Instr.writes : Instr → Bool
  | .pushl _ | .pushfl | .pushal | .call _ | .int _ => true
  | _ => false

/-! ## Flags -/

/-- A bit of a word. -/
def bit (n : ℕ) (f : UInt32) : Bool := f.toNat.testBit n

def setBit (n : ℕ) (b : Bool) (f : UInt32) : UInt32 :=
  if b then f ||| UInt32.ofNat (2 ^ n) else f &&& ~~~UInt32.ofNat (2 ^ n)

def carry : ℕ := 0
def parity : ℕ := 2
def adjust : ℕ := 4
def zero : ℕ := 6
def sign : ℕ := 7
def trapFlag : ℕ := 8
def interruptFlag : ℕ := 9
def overflow : ℕ := 11
def nestedTask : ℕ := 14
def resume : ℕ := 16
def virtual8086 : ℕ := 17

/-- A word as a signed number. -/
def signed (w : UInt32) : ℤ := w.toInt32.toInt

/-- The flags of a result: zero, sign and parity come from the result alone. -/
def resultFlags (res : UInt32) (cf af of : Bool) (f : UInt32) : UInt32 :=
  let f := setBit carry cf f
  let f := setBit parity ((List.range 8).countP (bit · res) % 2 == 0) f
  let f := setBit adjust af f
  let f := setBit zero (res == 0) f
  let f := setBit sign (signed res < 0) f
  setBit overflow of f

/-- A signed result that does not fit. -/
def overflows (n : ℤ) : Bool := n < -2 ^ 31 || 2 ^ 31 ≤ n

/-- The flags of `a + b`. -/
def addFlags (a b : UInt32) : UInt32 → UInt32 :=
  resultFlags (a + b) (a + b < a) (a.toNat % 16 + b.toNat % 16 ≥ 16)
    (overflows (signed a + signed b))

/-- The flags of `a - b`. -/
def subFlags (a b : UInt32) : UInt32 → UInt32 :=
  resultFlags (a - b) (a < b) (a.toNat % 16 < b.toNat % 16) (overflows (signed a - signed b))

/-- The flags of a bitwise operation. The adjust flag is undefined, and here it stays. -/
def logicFlags (res f : UInt32) : UInt32 := resultFlags res false (bit adjust f) false f

/-- The condition of `jle`. -/
def lessOrEqual (f : UInt32) : Bool := bit zero f || bit sign f != bit overflow f

theorem bit_setBit {n k : ℕ} (b : Bool) (f : UInt32) (hn : n < 32) (hk : k < 32) :
    bit k (setBit n b f) = if k = n then b else bit k f := by
  have htwo : (UInt32.ofNat (2 ^ n)).toNat = 2 ^ n := by
    rw [UInt32.toNat_ofNat']
    exact Nat.mod_eq_of_lt (Nat.pow_lt_pow_right (by decide) hn)
  have heq : decide (n = k) = decide (k = n) := by simp only [eq_comm]
  unfold bit setBit
  cases b with
  | true =>
    rw [if_pos rfl, UInt32.toNat_or, Nat.testBit_or, htwo, Nat.testBit_two_pow, heq]
    by_cases h : k = n <;> simp [h]
  | false =>
    have hsub : UInt32.size - 1 - 2 ^ n = 2 ^ 32 - (2 ^ n + 1) := by
      rw [Nat.sub_sub, Nat.add_comm 1]
      rfl
    rw [if_neg (by decide), UInt32.toNat_and, Nat.testBit_and, UInt32.toNat_not, htwo, hsub,
      Nat.testBit_two_pow_sub_succ (Nat.pow_lt_pow_right (by decide) hn), Nat.testBit_two_pow, heq]
    by_cases h : k = n <;> simp [h, hk]

theorem signed_sub (a b : UInt32) : signed (a - b) = (signed a - signed b).bmod (2 ^ 32) := by
  rw [signed, UInt32.toInt32_sub, Int32.toInt_sub]
  rfl

theorem signed_inj {a b : UInt32} : signed a = signed b ↔ a = b := by
  refine ⟨fun h => ?_, congrArg signed⟩
  rw [← UInt32.toUInt32_toInt32 a, Int32.toInt_inj.1 h, UInt32.toUInt32_toInt32]

/-- The sign of a difference of two signed words, and whether it fits, tell which is smaller. -/
theorem sign_ne_overflows (a b : UInt32) :
    (decide (signed (a - b) < 0) != overflows (signed a - signed b)) =
      decide (signed a < signed b) := by
  have ha := a.toInt32.le_toInt
  have ha' := a.toInt32.toInt_lt
  have hb := b.toInt32.le_toInt
  have hb' := b.toInt32.toInt_lt
  rw [signed_sub, overflows, ← Bool.decide_or, Bool.eq_iff_iff, bne_iff_ne, ne_eq,
    decide_eq_decide, decide_eq_true_eq]
  have hmod := Int.bmod_def (signed a - signed b) (2 ^ 32)
  simp only [signed] at hmod ⊢
  omega

theorem lessOrEqual_subFlags (a b f : UInt32) :
    lessOrEqual (subFlags a b f) = decide (signed a ≤ signed b) := by
  have hzero : bit zero (subFlags a b f) = decide (signed a = signed b) := by
    have heq : (a - b == 0) = decide (a = b) := by
      rw [beq_eq_decide]
      exact decide_eq_decide.2 (by grind)
    simp [subFlags, resultFlags, bit_setBit, carry, parity, adjust, zero, sign, overflow,
      signed_inj, heq]
  have hsign : bit sign (subFlags a b f) = decide (signed (a - b) < 0) := by
    simp [subFlags, resultFlags, bit_setBit, carry, parity, adjust, zero, sign, overflow]
  have hover : bit overflow (subFlags a b f) = overflows (signed a - signed b) := by
    simp [subFlags, resultFlags, bit_setBit, carry, parity, adjust, zero, sign, overflow]
  rw [lessOrEqual, hzero, hsign, hover, sign_ne_overflows, ← Bool.decide_or]
  exact decide_eq_decide.2 (by omega)

/-! ## The machine -/

/-- Registers, flags and selectors. `ss0` and `esp0` are the fields of the task state segment that
an entry from ring 3 reads. -/
structure Cpu where
  reg : Reg → UInt32
  eflags : UInt32
  cs : UInt16
  ss : UInt16
  seg : Seg → UInt16
  ss0 : UInt16
  esp0 : UInt32

namespace Cpu

def set (r : Reg) (w : UInt32) (c : Cpu) : Cpu := { c with reg := Function.update c.reg r w }

def setFlags (f : UInt32) (c : Cpu) : Cpu := { c with eflags := f }

/-- The current privilege level. -/
def cpl (c : Cpu) : ℕ := c.cs.toNat % 4

/-- On the stack that the task state segment names. -/
def onKernelStack (c : Cpu) : Cpu := ({ c with ss := c.ss0 } : Cpu).set .esp c.esp0

/-- The registers, in the order in which `popal` takes them off the stack. -/
def saved (c : Cpu) : List UInt32 :=
  [c.reg .edi, c.reg .esi, c.reg .ebp, c.reg .esp, c.reg .ebx, c.reg .edx, c.reg .ecx, c.reg .eax]

@[simp] theorem cpl_set (r : Reg) (w : UInt32) (c : Cpu) : (c.set r w).cpl = c.cpl := rfl
@[simp] theorem cpl_setFlags (f : UInt32) (c : Cpu) : (c.setFlags f).cpl = c.cpl := rfl
@[simp] theorem eflags_set (r : Reg) (w : UInt32) (c : Cpu) : (c.set r w).eflags = c.eflags := rfl
@[simp] theorem reg_setFlags (f : UInt32) (c : Cpu) : (c.setFlags f).reg = c.reg := rfl
@[simp] theorem setFlags_setFlags (f f' : UInt32) (c : Cpu) :
    (c.setFlags f).setFlags f' = c.setFlags f' := rfl

/-- The flags are set last. -/
@[simp] theorem set_setFlags (r : Reg) (w f : UInt32) (c : Cpu) :
    (c.setFlags f).set r w = (c.set r w).setFlags f := rfl

theorem set_eq_self (r : Reg) (c : Cpu) : c.set r (c.reg r) = c := by
  simp [set]

@[simp] theorem set_self (r : Reg) (w : UInt32) (c : Cpu) : (c.set r w).reg r = w :=
  Function.update_self ..

theorem set_of_ne {r r' : Reg} (h : r' ≠ r) (w : UInt32) (c : Cpu) :
    (c.set r w).reg r' = c.reg r' := Function.update_of_ne h ..

/-- The stack pointer is set first. -/
theorem set_esp_set {r : Reg} (h : r ≠ .esp) (w w' : UInt32) (c : Cpu) :
    (c.set r w).set .esp w' = (c.set .esp w').set r w := by
  simp [set, Function.update_comm h]

@[simp] theorem set_set (r : Reg) (w w' : UInt32) (c : Cpu) :
    (c.set r w).set r w' = c.set r w' := by
  simp [set]

end Cpu

structure State where
  eip : UInt32
  cpu : Cpu
  mem : Mem

/-- A gate of the interrupt table. -/
structure Gate where
  offset : UInt32
  selector : UInt16
  dpl : ℕ
  /-- A trap gate leaves interrupts as they are; an interrupt gate turns them off. -/
  trap : Bool
  deriving DecidableEq

/-- The gate in a descriptor: a 32-bit interrupt or trap gate that is present. -/
def Gate.ofDescriptor (d : BitVec 64) : Option Gate :=
  if d.getLsbD 47 ∧ d.extractLsb' 41 4 = 0b0111 then
    some {
      offset := ⟨d.extractLsb' 48 16 ++ d.extractLsb' 0 16⟩
      selector := ⟨d.extractLsb' 16 16⟩
      dpl := (d.extractLsb' 45 2).toNat
      trap := d.getLsbD 40 }
  else none

/-- What a state does not tell: the code, the interrupt table, and the privilege level in the
segment descriptor behind a selector. -/
structure Machine where
  code : UInt32 → Option (Instr × UInt32)
  gate : UInt8 → Option Gate
  segDpl : UInt16 → ℕ

/-- The selector in a data segment register after a return to a ring: a segment that the ring may
not use is lost. -/
def Machine.selectorIn (m : Machine) (ring : ℕ) (selector : UInt16) : UInt16 :=
  if m.segDpl selector < ring then 0 else selector

namespace State

def esp (s : State) : UInt32 := s.cpu.reg .esp

def goto (a : UInt32) (s : State) : State := { s with eip := a }

def onCpu (f : Cpu → Cpu) (s : State) : State := { s with cpu := f s.cpu }

def push (w : UInt32) (s : State) : State :=
  { s with cpu := s.cpu.set .esp (s.esp - 4), mem := store32 s.mem (s.esp - 4) w }

/-- The word on top of the stack. -/
def top (s : State) : UInt32 := load32 s.mem s.esp

/-- Leave `n` bytes of the stack. -/
def drop (n : UInt32) (s : State) : State := s.onCpu (·.set .esp (s.esp + n))

def src (s : State) : Src → UInt32
  | .imm w => w
  | .reg r => s.cpu.reg r
  | .mem disp base => load32 s.mem (s.cpu.reg base + disp)

/-- An arithmetic instruction: its result and its flags. -/
def arith (dst : Reg) (res : UInt32) (flags : UInt32 → UInt32) (s : State) : State :=
  s.onCpu fun c => (c.set dst res).setFlags (flags c.eflags)

/-- `popl`. -/
def pop (dst : Reg) (s : State) : State := (s.drop 4).onCpu (·.set dst s.top)

@[simp] theorem eip_onCpu (f : Cpu → Cpu) (s : State) : (s.onCpu f).eip = s.eip := rfl
@[simp] theorem eip_push (w : UInt32) (s : State) : (s.push w).eip = s.eip := rfl
@[simp] theorem eip_drop (n : UInt32) (s : State) : (s.drop n).eip = s.eip := rfl
@[simp] theorem eip_pop (dst : Reg) (s : State) : (s.pop dst).eip = s.eip := rfl
@[simp] theorem eip_arith (dst : Reg) (res : UInt32) (flags : UInt32 → UInt32) (s : State) :
    (s.arith dst res flags).eip = s.eip := rfl

@[simp] theorem mem_goto (a : UInt32) (s : State) : (s.goto a).mem = s.mem := rfl
@[simp] theorem mem_onCpu (f : Cpu → Cpu) (s : State) : (s.onCpu f).mem = s.mem := rfl
@[simp] theorem mem_drop (n : UInt32) (s : State) : (s.drop n).mem = s.mem := rfl
@[simp] theorem mem_pop (dst : Reg) (s : State) : (s.pop dst).mem = s.mem := rfl
@[simp] theorem mem_arith (dst : Reg) (res : UInt32) (flags : UInt32 → UInt32) (s : State) :
    (s.arith dst res flags).mem = s.mem := rfl

/-- An instruction that goes on with the next. -/
def op (i : Instr) (s : State) : Option State :=
  match i with
  | .movl src dst => some (s.onCpu (·.set dst (s.src src)))
  | .movwTo src seg => some (s.onCpu fun c =>
      { c with seg := Function.update c.seg seg (c.reg src).toUInt16 })
  | .xorl src dst =>
    let res := s.cpu.reg dst ^^^ s.cpu.reg src
    some (s.arith dst res (logicFlags res))
  | .orl imm dst =>
    let res := s.cpu.reg dst ||| imm
    some (s.arith dst res (logicFlags res))
  | .addl imm dst =>
    some (s.arith dst (s.cpu.reg dst + imm) (addFlags (s.cpu.reg dst) imm))
  | .subl imm dst =>
    some (s.arith dst (s.cpu.reg dst - imm) (subFlags (s.cpu.reg dst) imm))
  | .cmpl imm dst =>
    some (s.onCpu fun c => c.setFlags (subFlags (c.reg dst) imm c.eflags))
  | .pushl src => some (s.push (s.src src))
  | .popl dst => some (s.pop dst)
  | .pushfl => some (s.push s.cpu.eflags)
  -- in ring 0 every flag is loaded
  | .popfl =>
    if s.cpu.cpl = 0 then some ((s.drop 4).onCpu (·.setFlags s.top)) else none
  | .pushal =>
    let t := s.push (s.cpu.reg .eax)
    let t := t.push (s.cpu.reg .ecx)
    let t := t.push (s.cpu.reg .edx)
    let t := t.push (s.cpu.reg .ebx)
    let t := t.push s.esp
    let t := t.push (s.cpu.reg .ebp)
    let t := t.push (s.cpu.reg .esi)
    some (t.push (s.cpu.reg .edi))
  | .popal =>
    let s := s.pop .edi
    let s := s.pop .esi
    let s := s.pop .ebp
    -- the saved stack pointer is thrown away
    let s := s.drop 4
    let s := s.pop .ebx
    let s := s.pop .edx
    let s := s.pop .ecx
    some (s.pop .eax)
  | _ => none

/-- The flags a handler starts with. -/
def handlerFlags (g : Gate) (f : UInt32) : UInt32 :=
  let f := setBit trapFlag false f
  let f := setBit nestedTask false f
  let f := setBit resume false f
  let f := setBit virtual8086 false f
  if g.trap then f else setBit interruptFlag false f

/-- An entry into ring 0 through a gate, to go on later at `ret`. From ring 3 the stack changes,
and the old one is remembered on the new one. -/
def enter (g : Gate) (ret : UInt32) (s : State) : State :=
  let t :=
    if s.cpu.cpl = 0 then s
    else
      ((s.onCpu Cpu.onKernelStack).push s.cpu.ss.toUInt32).push s.esp
  let t := t.push s.cpu.eflags
  let t := t.push s.cpu.cs.toUInt32
  let t := t.push ret
  (t.goto g.offset).onCpu fun c =>
    { c with cs := g.selector, eflags := handlerFlags g c.eflags }

/-- Take `%eip`, `%cs` and the flags off the stack. -/
def popFrame (s : State) : State :=
  let t := (s.drop 4).goto s.top
  let t := (t.drop 4).onCpu ({ · with cs := t.top.toUInt16 })
  (t.drop 4).onCpu (·.setFlags t.top)

/-- Take the stack of an outer ring off the stack. -/
def popStack (m : Machine) (s : State) : State :=
  let t := s.drop 4
  t.onCpu fun c =>
    ({ c with
      ss := t.top.toUInt16
      seg := fun r => m.selectorIn c.cpl (c.seg r) } : Cpu).set .esp s.top

@[simp] theorem mem_popFrame (s : State) : s.popFrame.mem = s.mem := rfl
@[simp] theorem mem_popStack (m : Machine) (s : State) : (s.popStack m).mem = s.mem := rfl
@[simp] theorem eip_popStack (m : Machine) (s : State) : (s.popStack m).eip = s.eip := rfl

/-- `iret` of ring 0, back to ring 0 or out. -/
def iret (m : Machine) (s : State) : Option State :=
  if s.cpu.cpl ≠ 0 then none
  else
    let t := s.popFrame
    some (if t.cpu.cpl = 0 then t else t.popStack m)

/-- One instruction, with `%eip` already at the next. -/
def exec (m : Machine) (i : Instr) (s : State) : Option State :=
  match i with
  | .jle a => some (if lessOrEqual s.cpu.eflags then s.goto a else s)
  | .jg a => some (if lessOrEqual s.cpu.eflags then s else s.goto a)
  | .jmp a => some (s.goto a)
  | .jmpTable table index => table[(s.cpu.reg index).toNat]?.map fun a => s.goto a
  | .call a => some ((s.push s.eip).goto a)
  | .ret => some ((s.drop 4).goto s.top)
  -- a gate that is missing or closed to the caller is a fault, which is not described
  | .int n => do
    let g ← m.gate n
    if s.cpu.cpl ≤ g.dpl then some (s.enter g s.eip) else none
  | .iret => s.iret m
  | i => s.op i

theorem exec_of_op {m : Machine} {i : Instr} {s t : State} (h : s.op i = some t) :
    s.exec m i = some t := by
  cases i with
  | jle | jg | jmp | jmpTable | call | ret | int | iret => cases h
  | _ => exact h

theorem eip_of_op {i : Instr} {s t : State} (h : s.op i = some t) : t.eip = s.eip := by
  cases i with
  | jle | jg | jmp | jmpTable | call | ret | int | iret => cases h
  | popfl =>
    rw [op, Option.ite_none_right_eq_some] at h
    rw [← Option.some.inj h.2]
    simp
  | _ =>
    rw [← Option.some.inj h]
    simp

theorem mem_of_op {i : Instr} {s t : State} (h : s.op i = some t) (hi : i.writes = false) :
    t.mem = s.mem := by
  cases i with
  | jle | jg | jmp | jmpTable | call | ret | int | iret => cases h
  | pushl | pushfl | pushal => cases hi
  | popfl =>
    rw [op, Option.ite_none_right_eq_some] at h
    rw [← Option.some.inj h.2]
    simp
  | _ =>
    rw [← Option.some.inj h]
    simp

/-- One step. -/
def step (m : Machine) (s : State) : Option State := do
  let (i, next) ← m.code s.eip
  (s.goto next).exec m i

/-- The hardware interrupt `n`, between two instructions. -/
def interrupt (m : Machine) (n : UInt8) (s : State) : Option State :=
  if bit interruptFlag s.cpu.eflags then (m.gate n).map fun g => s.enter g s.eip else none

end State

theorem step_eq {m : Machine} {s : State} {i : Instr} {next : UInt32}
    (h : m.code s.eip = some (i, next)) : s.step m = (s.goto next).exec m i := by
  rw [State.step, h]
  rfl

/-- Some number of steps. -/
def Steps (m : Machine) : State → State → Prop :=
  Relation.ReflTransGen fun s t => s.step m = some t

/-- The instructions `l` stand one behind the other from `a` on. -/
def Listing (m : Machine) : UInt32 → List Instr → Prop
  | _, [] => True
  | a, i :: l => ∃ next, m.code a = some (i, next) ∧ Listing m next l

theorem int_step {m : Machine} {s : State} {g : Gate} {n : UInt8} {next : UInt32}
    (hcode : m.code s.eip = some (.int n, next)) (hg : m.gate n = some g)
    (hdpl : s.cpu.cpl ≤ g.dpl) : s.step m = some ((s.goto next).enter g next) := by
  rw [step_eq hcode, State.exec, hg]
  exact if_pos hdpl

/-! ## The view -/

/-- The machine over a stack that is a list of words, its top first. -/
structure View where
  cpu : Cpu
  stack : List UInt32

namespace View

variable (cap : ℕ)

def onCpu (f : Cpu → Cpu) (v : View) : View := { v with cpu := f v.cpu }

/-- Move the stack pointer over a changed list. -/
def restack (esp : UInt32) (ws : List UInt32) (v : View) : View := ⟨v.cpu.set .esp esp, ws⟩

def push (w : UInt32) (v : View) : Option View :=
  if v.stack.length < cap then some (v.restack (v.cpu.reg .esp - 4) (w :: v.stack)) else none

/-- Leave `n` words of the stack. -/
def drop (n : ℕ) (v : View) : Option View :=
  if n ≤ v.stack.length then
    some (v.restack (v.cpu.reg .esp + 4 * UInt32.ofNat n) (v.stack.drop n))
  else none

def src (v : View) : Src → Option UInt32
  | .imm w => some w
  | .reg r => some (v.cpu.reg r)
  | .mem disp base =>
    if base = .esp ∧ disp.toNat % 4 = 0 then v.stack[disp.toNat / 4]? else none

def pop (dst : Reg) (v : View) : Option View :=
  if dst = .esp then none
  else do
    let w ← v.stack.head?
    let v ← v.drop 1
    some (v.onCpu (·.set dst w))

def arith (dst : Reg) (res : UInt32) (flags : UInt32 → UInt32) (v : View) : Option View :=
  if dst = .esp then none
  else some (v.onCpu fun c => (c.set dst res).setFlags (flags c.eflags))

/-- The instructions of `State.op`, as far as they keep to the list. -/
def op (i : Instr) (v : View) : Option View :=
  match i with
  | .movl src dst =>
    if dst = .esp then none else (v.src src).map fun w => v.onCpu (·.set dst w)
  | .movwTo src seg => some (v.onCpu fun c =>
      { c with seg := Function.update c.seg seg (c.reg src).toUInt16 })
  | .xorl src dst =>
    let res := v.cpu.reg dst ^^^ v.cpu.reg src
    v.arith dst res (logicFlags res)
  | .orl imm dst =>
    let res := v.cpu.reg dst ||| imm
    v.arith dst res (logicFlags res)
  | .addl imm .esp =>
    if imm.toNat % 4 = 0 then
      (v.drop (imm.toNat / 4)).map fun v' =>
        v'.onCpu fun c => c.setFlags (addFlags (v.cpu.reg .esp) imm c.eflags)
    else none
  | .addl imm dst =>
    v.arith dst (v.cpu.reg dst + imm) (addFlags (v.cpu.reg dst) imm)
  | .subl imm dst =>
    v.arith dst (v.cpu.reg dst - imm) (subFlags (v.cpu.reg dst) imm)
  | .cmpl imm dst =>
    some (v.onCpu fun c => c.setFlags (subFlags (c.reg dst) imm c.eflags))
  | .pushl src => (v.src src).bind (v.push cap)
  | .popl dst => v.pop dst
  | .pushfl => v.push cap v.cpu.eflags
  | .popfl => do
    let w ← v.stack.head?
    let v' ← v.drop 1
    if v.cpu.cpl = 0 then some (v'.onCpu (·.setFlags w)) else none
  | .pushal => do
    let t ← v.push cap (v.cpu.reg .eax)
    let t ← t.push cap (v.cpu.reg .ecx)
    let t ← t.push cap (v.cpu.reg .edx)
    let t ← t.push cap (v.cpu.reg .ebx)
    let t ← t.push cap (v.cpu.reg .esp)
    let t ← t.push cap (v.cpu.reg .ebp)
    let t ← t.push cap (v.cpu.reg .esi)
    t.push cap (v.cpu.reg .edi)
  | .popal => do
    let v ← v.pop .edi
    let v ← v.pop .esi
    let v ← v.pop .ebp
    let v ← v.drop 1
    let v ← v.pop .ebx
    let v ← v.pop .edx
    let v ← v.pop .ecx
    v.pop .eax
  | _ => none

/-- A block of them. -/
def block (l : List Instr) (v : View) : Option View := l.foldlM (fun v i => v.op cap i) v

variable {cap} {c k : Cpu} {ws : List UInt32}

theorem push_eq {w : UInt32} (h : ws.length < cap) :
    push cap w ⟨c, ws⟩ = some ⟨c.set .esp (c.reg .esp - 4), w :: ws⟩ := if_pos h

theorem op_pushal (h : ws.length + 8 ≤ cap) :
    op cap .pushal ⟨c, ws⟩ = some ⟨c.set .esp (c.reg .esp - 32), c.saved ++ ws⟩ := by
  have hsub : c.reg .esp - 4 - 4 - 4 - 4 - 4 - 4 - 4 - 4 = c.reg .esp - 32 := by grind
  simp (disch := first | omega | simp only [List.length_cons]; omega) only [op, push_eq,
    Option.bind_eq_bind, Option.bind_some, Cpu.set_set, Cpu.set_self, hsub]
  rfl

theorem pop_eq {dst : Reg} {w : UInt32} (h : dst ≠ .esp) : pop dst ⟨c, w :: ws⟩ =
    some ⟨(c.set .esp (c.reg .esp + 4)).set dst w, ws⟩ := by
  simp [pop, h, drop, restack, onCpu]

theorem drop_eq {w : UInt32} : drop 1 ⟨c, w :: ws⟩ = some ⟨c.set .esp (c.reg .esp + 4), ws⟩ := by
  simp [drop, restack]

theorem op_popfl {f : UInt32} (h : c.cpl = 0) : op cap .popfl ⟨c, f :: ws⟩ =
    some ⟨(c.set .esp (c.reg .esp + 4)).setFlags f, ws⟩ := by
  simp [op, drop_eq, h, onCpu]

theorem op_popal : op cap .popal ⟨c, k.saved ++ ws⟩ =
    some ⟨{ c with reg := Function.update k.reg .esp (c.reg .esp + 32) }, ws⟩ := by
  have hadd : c.reg .esp + 4 + 4 + 4 + 4 + 4 + 4 + 4 + 4 = c.reg .esp + 32 := by grind
  simp [op, Cpu.saved, pop_eq, drop_eq, Cpu.set_of_ne, Cpu.set_esp_set, hadd]
  simp only [Cpu.set, Cpu.mk.injEq, and_true]
  funext r
  cases r <;> simp

theorem block_append {l l' : List Instr} {v : View} :
    block cap (l ++ l') v = (block cap l v).bind (block cap l') := List.foldlM_append

/-- Registers pushed one after the other. -/
theorem block_pushes {rs : List Reg} (hrs : .esp ∉ rs) (h : ws.length + rs.length ≤ cap) :
    block cap (rs.map fun r => .pushl (.reg r)) ⟨c, ws⟩ =
      some ⟨c.set .esp (c.reg .esp - 4 * UInt32.ofNat rs.length),
        (rs.map c.reg).reverse ++ ws⟩ := by
  induction rs generalizing c ws with
  | nil => simp [block, Cpu.set_eq_self]
  | cons r rs ih =>
    rw [List.length_cons] at h
    obtain ⟨hr, hrs⟩ := List.ne_and_not_mem_of_not_mem_cons hrs
    have hregs : rs.map (c.set .esp (c.reg .esp - 4)).reg = rs.map c.reg :=
      List.map_congr_left fun r hr => Cpu.set_of_ne (ne_of_mem_of_not_mem hr hrs) ..
    have hsub : c.reg .esp - 4 - 4 * UInt32.ofNat rs.length =
        c.reg .esp - 4 * UInt32.ofNat (rs.length + 1) := by
      rw [UInt32.ofNat_add]
      grind
    show (push cap (c.reg r) ⟨c, ws⟩).bind _ = _
    rw [push_eq (by omega), Option.bind_some]
    refine (ih hrs (by rw [List.length_cons]; omega)).trans ?_
    rw [hregs, Cpu.set_set, Cpu.set_self, hsub, List.map_cons, List.reverse_cons,
      List.append_assoc, List.length_cons]
    rfl

/-- Words popped into registers. -/
theorem block_pops {rs : List Reg} {l : List UInt32} (hrs : .esp ∉ rs) (h : rs.length = l.length) :
    block cap (rs.map .popl) ⟨c, l ++ ws⟩ = some ⟨(rs.zip l).foldl (fun c x => c.set x.1 x.2)
      (c.set .esp (c.reg .esp + 4 * UInt32.ofNat rs.length)), ws⟩ := by
  induction rs generalizing c l with
  | nil =>
    obtain rfl := List.length_eq_zero_iff.1 h.symm
    simp [block, Cpu.set_eq_self]
  | cons r rs ih =>
    obtain ⟨w, l, rfl⟩ := List.exists_cons_of_length_eq_add_one h.symm
    obtain ⟨hr, hrs⟩ := List.ne_and_not_mem_of_not_mem_cons hrs
    show (pop r ⟨c, w :: (l ++ ws)⟩).bind _ = _
    rw [pop_eq hr.symm, Option.bind_some]
    refine (ih hrs (Nat.succ.inj h)).trans ?_
    rw [Cpu.set_esp_set hr.symm, Cpu.set_set, Cpu.set_of_ne hr, Cpu.set_self, ← add_four_mul_succ]
    rfl

end View

/-! ## The view in memory -/

/-- The words of the view stand on the stack, which lies below `base`. Of memory `m` only the
`cap` words below `base` have changed. -/
structure Shows (m : Mem) (base : UInt32) (cap : ℕ) (s : State) (v : View) : Prop where
  cpu : s.cpu = v.cpu
  esp : v.cpu.reg .esp = base - 4 * UInt32.ofNat v.stack.length
  fits : v.stack.length ≤ cap
  room : 4 * cap ≤ 2 ^ 32
  words : WordsAt s.mem (v.cpu.reg .esp) v.stack
  frame : ∀ b, 4 * cap ≤ off (base - 4 * UInt32.ofNat cap) b → s.mem b = m b

theorem four_mul_div {w : UInt32} (h : w.toNat % 4 = 0) : 4 * UInt32.ofNat (w.toNat / 4) = w := by
  have hlt := w.toNat_lt
  rw [← UInt32.toNat_inj, UInt32.toNat_mul, UInt32.toNat_ofNat']
  simp only [UInt32.toNat_ofNat]
  omega

namespace Shows

variable {m : Mem} {base w : UInt32} {cap n : ℕ} {s : State} {v v' : View}

theorem top_eq (h : Shows m base cap s v) : s.esp = v.cpu.reg .esp := by rw [State.esp, h.cpu]

/-- A change of registers that leaves the stack pointer. -/
theorem onCpu (h : Shows m base cap s v) (f : Cpu → Cpu)
    (hf : (f v.cpu).reg .esp = v.cpu.reg .esp) :
    Shows m base cap (s.onCpu f) (v.onCpu f) where
  cpu := congrArg f h.cpu
  esp := hf.trans h.esp
  fits := h.fits
  room := h.room
  words := by
    show WordsAt s.mem ((f v.cpu).reg .esp) v.stack
    rw [hf]
    exact h.words
  frame := h.frame

theorem push (h : Shows m base cap s v) (hv : v.push cap w = some v') :
    Shows m base cap (s.push w) v' := by
  rw [View.push, Option.ite_none_right_eq_some] at hv
  obtain ⟨hlt, hv⟩ := hv
  obtain rfl := Option.some.inj hv
  have hroom := h.room
  have hesp : v.cpu.reg .esp - 4 = base - 4 * UInt32.ofNat (v.stack.length + 1) := by
    rw [h.esp, UInt32.ofNat_add]
    grind
  refine ⟨?_, ?_, hlt, h.room, ?_, fun b hb => ?_⟩
  · rw [State.push, h.top_eq, h.cpu]
    rfl
  · simpa [View.restack, Cpu.set] using hesp
  · have hw := h.words.cons (by omega) w
    simpa [View.restack, Cpu.set, State.push, h.top_eq] using hw
  · -- the new word lies within the `cap` words
    obtain ⟨k, rfl⟩ : ∃ k, cap = v.stack.length + 1 + k := ⟨cap - (v.stack.length + 1), by omega⟩
    have hlow : v.cpu.reg .esp - 4 =
        addr (base - 4 * UInt32.ofNat (v.stack.length + 1 + k)) (4 * k) := by
      rw [hesp, addr, UInt32.ofNat_add _ k, UInt32.ofNat_mul]
      grind
    have hoff := off_addr (a := base - 4 * UInt32.ofNat (v.stack.length + 1 + k)) (b := b)
      (i := 4 * k) (by omega)
    rw [← hlow, if_pos (by omega)] at hoff
    show store32 s.mem (s.esp - 4) w b = m b
    rw [h.top_eq, store32, patch_of_not (by omega), h.frame b hb]

theorem drop (h : Shows m base cap s v) (hv : v.drop n = some v') :
    Shows m base cap (s.drop (4 * UInt32.ofNat n)) v' := by
  rw [View.drop, Option.ite_none_right_eq_some] at hv
  obtain ⟨hn, hv⟩ := hv
  obtain rfl := Option.some.inj hv
  have hlen : (v.stack.drop n).length + n = v.stack.length := by
    rw [List.length_drop]
    omega
  refine ⟨?_, ?_, ?_, h.room, ?_, h.frame⟩
  · rw [State.drop, h.top_eq, State.onCpu, h.cpu]
    rfl
  · have hesp := h.esp
    rw [← hlen, UInt32.ofNat_add] at hesp
    simp only [View.restack, Cpu.set, Function.update_self, hesp]
    grind
  · have hfits := h.fits
    simp only [View.restack]
    omega
  · simpa [View.restack, Cpu.set, State.drop, State.onCpu] using h.words.drop n

theorem src (h : Shows m base cap s v) {x : Src} (hv : v.src x = some w) : s.src x = w := by
  cases x with
  | imm w' => exact Option.some.inj hv
  | reg r =>
    rw [State.src, h.cpu]
    exact Option.some.inj hv
  | mem disp b =>
    rw [View.src, Option.ite_none_right_eq_some] at hv
    obtain ⟨⟨rfl, h4⟩, hv⟩ := hv
    have hw := h.words.getElem? hv
    rwa [four_mul_div h4, ← h.cpu] at hw

theorem head (h : Shows m base cap s v) (hv : v.stack.head? = some w) : s.top = w := by
  rw [State.top, h.top_eq]
  obtain ⟨ws, hws⟩ := List.head?_eq_some_iff.1 hv
  have hw := h.words
  rw [hws] at hw
  exact hw.1

theorem pop (h : Shows m base cap s v) {dst : Reg} (hv : v.pop dst = some v') :
    Shows m base cap (s.pop dst) v' := by
  rw [View.pop, Option.ite_none_left_eq_some] at hv
  obtain ⟨hdst, hv⟩ := hv
  obtain ⟨w, hw, hv⟩ := Option.bind_eq_some_iff.1 hv
  obtain ⟨v₁, hv₁, hv⟩ := Option.bind_eq_some_iff.1 hv
  obtain rfl := Option.some.inj hv
  rw [State.pop, h.head hw]
  exact (h.drop hv₁).onCpu _ (Function.update_of_ne (Ne.symm hdst) ..)

theorem arith (h : Shows m base cap s v) {dst : Reg} {flags : UInt32 → UInt32}
    (hv : v.arith dst w flags = some v') : Shows m base cap (s.arith dst w flags) v' := by
  rw [View.arith, Option.ite_none_left_eq_some] at hv
  obtain ⟨hdst, hv⟩ := hv
  obtain rfl := Option.some.inj hv
  exact h.onCpu _ (Function.update_of_ne (Ne.symm hdst) ..)

/-- **An instruction of the list machine** is one of the byte machine. -/
theorem op (h : Shows m base cap s v) {i : Instr} (hv : v.op cap i = some v') :
    ∃ t, s.op i = some t ∧ Shows m base cap t v' := by
  cases i with
  | movl src dst =>
    rw [View.op, Option.ite_none_left_eq_some] at hv
    obtain ⟨hdst, hv⟩ := hv
    obtain ⟨w, hw, rfl⟩ := Option.map_eq_some_iff.1 hv
    refine ⟨_, rfl, ?_⟩
    rw [h.src hw]
    exact h.onCpu _ (Function.update_of_ne (Ne.symm hdst) ..)
  | movwTo src seg =>
    obtain rfl := Option.some.inj hv
    exact ⟨_, rfl, h.onCpu _ rfl⟩
  | xorl src dst =>
    refine ⟨_, rfl, h.arith ?_⟩
    rwa [h.cpu]
  | orl imm dst =>
    refine ⟨_, rfl, h.arith ?_⟩
    rwa [h.cpu]
  | addl imm dst =>
    refine ⟨_, rfl, ?_⟩
    rw [h.cpu]
    by_cases hdst : dst = .esp
    · subst hdst
      rw [View.op, Option.ite_none_right_eq_some] at hv
      obtain ⟨h4, hv⟩ := hv
      obtain ⟨v₁, hv₁, rfl⟩ := Option.map_eq_some_iff.1 hv
      have hdrop := h.drop hv₁
      have himm : 4 * UInt32.ofNat (imm.toNat / 4) = imm := four_mul_div h4
      rw [himm] at hdrop
      rw [← h.cpu]
      exact hdrop.onCpu (fun c => c.setFlags (addFlags (s.cpu.reg .esp) imm c.eflags)) rfl
    · refine h.arith ?_
      cases dst with
      | esp => exact absurd rfl hdst
      | _ => exact hv
  | subl imm dst =>
    refine ⟨_, rfl, h.arith ?_⟩
    rwa [h.cpu]
  | cmpl imm dst =>
    obtain rfl := Option.some.inj hv
    exact ⟨_, rfl, h.onCpu _ rfl⟩
  | pushl src =>
    obtain ⟨w, hw, hv⟩ := Option.bind_eq_some_iff.1 hv
    refine ⟨_, rfl, ?_⟩
    rw [h.src hw]
    exact h.push hv
  | popl dst => exact ⟨_, rfl, h.pop hv⟩
  | pushfl =>
    refine ⟨_, rfl, ?_⟩
    rw [h.cpu]
    exact h.push hv
  | popfl =>
    obtain ⟨w, hw, hv⟩ := Option.bind_eq_some_iff.1 hv
    obtain ⟨v₁, hv₁, hv⟩ := Option.bind_eq_some_iff.1 hv
    rw [Option.ite_none_right_eq_some] at hv
    obtain ⟨hcpl, hv⟩ := hv
    obtain rfl := Option.some.inj hv
    refine ⟨_, if_pos (by rw [h.cpu]; exact hcpl), ?_⟩
    rw [h.head hw]
    exact (h.drop hv₁).onCpu _ rfl
  | pushal =>
    obtain ⟨v₁, hv₁, hv⟩ := Option.bind_eq_some_iff.1 hv
    obtain ⟨v₂, hv₂, hv⟩ := Option.bind_eq_some_iff.1 hv
    obtain ⟨v₃, hv₃, hv⟩ := Option.bind_eq_some_iff.1 hv
    obtain ⟨v₄, hv₄, hv⟩ := Option.bind_eq_some_iff.1 hv
    obtain ⟨v₅, hv₅, hv⟩ := Option.bind_eq_some_iff.1 hv
    obtain ⟨v₆, hv₆, hv⟩ := Option.bind_eq_some_iff.1 hv
    obtain ⟨v₇, hv₇, hv⟩ := Option.bind_eq_some_iff.1 hv
    refine ⟨_, rfl, ?_⟩
    rw [h.cpu, h.top_eq]
    exact (((((((h.push hv₁).push hv₂).push hv₃).push hv₄).push hv₅).push hv₆).push hv₇).push hv
  | popal =>
    obtain ⟨v₁, hv₁, hv⟩ := Option.bind_eq_some_iff.1 hv
    obtain ⟨v₂, hv₂, hv⟩ := Option.bind_eq_some_iff.1 hv
    obtain ⟨v₃, hv₃, hv⟩ := Option.bind_eq_some_iff.1 hv
    obtain ⟨v₄, hv₄, hv⟩ := Option.bind_eq_some_iff.1 hv
    obtain ⟨v₅, hv₅, hv⟩ := Option.bind_eq_some_iff.1 hv
    obtain ⟨v₆, hv₆, hv⟩ := Option.bind_eq_some_iff.1 hv
    obtain ⟨v₇, hv₇, hv⟩ := Option.bind_eq_some_iff.1 hv
    exact ⟨_, rfl, (((((((h.pop hv₁).pop hv₂).pop hv₃).drop hv₄).pop hv₅).pop hv₆).pop hv₇).pop hv⟩
  | jle a => cases hv
  | jg a => cases hv
  | jmp a => cases hv
  | jmpTable table index => cases hv
  | call a => cases hv
  | ret => cases hv
  | int n => cases hv
  | iret => cases hv

variable {M : Machine} {l l' : List Instr} {i : Instr}

theorem goto (h : Shows m base cap s v) (a : UInt32) : Shows m base cap (s.goto a) v :=
  ⟨h.cpu, h.esp, h.fits, h.room, h.words, h.frame⟩

theorem step (h : Shows m base cap s v) (hl : Listing M s.eip (i :: l))
    (hv : v.op cap i = some v') :
    ∃ t, s.step M = some t ∧ Shows m base cap t v' ∧ Listing M t.eip l ∧
      (i.writes = false → t.mem = s.mem) := by
  obtain ⟨next, hcode, hl⟩ := hl
  obtain ⟨t, ht, hshows⟩ := (h.goto next).op hv
  refine ⟨t, ?_, hshows, ?_, fun hi => (State.mem_of_op ht hi).trans (State.mem_goto ..)⟩
  · rw [step_eq hcode]
    exact State.exec_of_op ht
  · rwa [State.eip_of_op ht]

/-- **A block of instructions**, one step after the other. -/
theorem block (h : Shows m base cap s v) (hl : Listing M s.eip (l ++ l'))
    (hv : v.block cap l = some v') :
    ∃ t, Steps M s t ∧ Shows m base cap t v' ∧ Listing M t.eip l' ∧
      (l.all (!·.writes) = true → t.mem = s.mem) := by
  induction l generalizing s v with
  | nil =>
    obtain rfl := Option.some.inj hv
    exact ⟨s, .refl, h, hl, fun _ => rfl⟩
  | cons i l ih =>
    obtain ⟨v₁, hv₁, hv⟩ := Option.bind_eq_some_iff.1 hv
    obtain ⟨s₁, hs₁, h₁, hl, hm₁⟩ := h.step hl hv₁
    obtain ⟨t, ht, hshows, hl, hm⟩ := ih h₁ hl hv
    refine ⟨t, .head hs₁ ht, hshows, hl, fun hw => ?_⟩
    rw [List.all_cons, Bool.and_eq_true, Bool.not_eq_true'] at hw
    exact (hm hw.2).trans (hm₁ hw.1)

/-! ### Transfers -/

variable {a : UInt32} {c : Cpu} {ws : List UInt32}

/-- A stack, taken as a list of words with room for `cap` of them. -/
theorem ofWords (hw : WordsAt s.mem s.esp ws) (hfits : ws.length ≤ cap) (hroom : 4 * cap ≤ 2 ^ 32) :
    Shows s.mem (s.esp + 4 * UInt32.ofNat ws.length) cap s ⟨s.cpu, ws⟩ where
  cpu := rfl
  esp := by
    show s.esp = _
    grind
  fits := hfits
  room := hroom
  words := hw
  frame := fun _ _ => rfl

theorem jmp (h : Shows m base cap s v) (hl : Listing M s.eip (.jmp a :: l)) :
    ∃ t, s.step M = some t ∧ Shows m base cap t v ∧ t.eip = a ∧ t.mem = s.mem := by
  obtain ⟨next, hcode, -⟩ := hl
  exact ⟨_, step_eq hcode, (h.goto next).goto a, rfl, rfl⟩

theorem jle_taken (h : Shows m base cap s v) (hl : Listing M s.eip (.jle a :: l))
    (hf : lessOrEqual v.cpu.eflags = true) :
    ∃ t, s.step M = some t ∧ Shows m base cap t v ∧ t.eip = a := by
  obtain ⟨next, hcode, -⟩ := hl
  rw [← h.cpu] at hf
  exact ⟨_, (step_eq hcode).trans (congrArg some (if_pos hf)), (h.goto next).goto a, rfl⟩

theorem jle_not (h : Shows m base cap s v) (hl : Listing M s.eip (.jle a :: l))
    (hf : lessOrEqual v.cpu.eflags = false) :
    ∃ t, s.step M = some t ∧ Shows m base cap t v ∧ Listing M t.eip l := by
  obtain ⟨next, hcode, hl⟩ := hl
  rw [← h.cpu] at hf
  exact ⟨_, (step_eq hcode).trans (congrArg some (if_neg (by simp [State.goto, hf]))), h.goto next,
    hl⟩

theorem jg_taken (h : Shows m base cap s v) (hl : Listing M s.eip (.jg a :: l))
    (hf : lessOrEqual v.cpu.eflags = false) :
    ∃ t, s.step M = some t ∧ Shows m base cap t v ∧ t.eip = a := by
  obtain ⟨next, hcode, -⟩ := hl
  rw [← h.cpu] at hf
  exact ⟨_, (step_eq hcode).trans (congrArg some (if_neg (by simp [State.goto, hf]))),
    (h.goto next).goto a, rfl⟩

theorem jg_not (h : Shows m base cap s v) (hl : Listing M s.eip (.jg a :: l))
    (hf : lessOrEqual v.cpu.eflags = true) :
    ∃ t, s.step M = some t ∧ Shows m base cap t v ∧ Listing M t.eip l := by
  obtain ⟨next, hcode, hl⟩ := hl
  rw [← h.cpu] at hf
  exact ⟨_, (step_eq hcode).trans (congrArg some (if_pos hf)), h.goto next, hl⟩

theorem jmpTable (h : Shows m base cap s v) {table : List UInt32} {index : Reg}
    (hl : Listing M s.eip (.jmpTable table index :: l))
    (ha : table[(v.cpu.reg index).toNat]? = some a) :
    ∃ t, s.step M = some t ∧ Shows m base cap t v ∧ t.eip = a := by
  obtain ⟨next, hcode, -⟩ := hl
  rw [← h.cpu] at ha
  exact ⟨_, (step_eq hcode).trans (congrArg (Option.map _) ha), (h.goto next).goto a, rfl⟩

/-- A call leaves the address of the rest on the stack. -/
theorem call (h : Shows m base cap s v) (hl : Listing M s.eip (.call a :: l))
    (hlt : v.stack.length < cap) :
    ∃ t next, s.step M = some t ∧
      Shows m base cap t (v.restack (v.cpu.reg .esp - 4) (next :: v.stack)) ∧ t.eip = a ∧
      Listing M next l := by
  obtain ⟨next, hcode, hl⟩ := hl
  exact ⟨_, next, step_eq hcode, ((h.goto next).push (if_pos hlt)).goto a, rfl, hl⟩

theorem ret (h : Shows m base cap s v) (hl : Listing M s.eip (.ret :: l)) (hv : v.stack = a :: ws) :
    ∃ t, s.step M = some t ∧ Shows m base cap t (v.restack (v.cpu.reg .esp + 4) ws) ∧
      t.eip = a ∧ t.mem = s.mem := by
  obtain ⟨next, hcode, -⟩ := hl
  refine ⟨_, step_eq hcode, ?_, (h.goto next).head (by rw [hv]; rfl), rfl⟩
  refine ((h.goto next).drop (n := 1) ?_).goto _
  rw [View.drop, if_pos (by simp [hv]), hv]
  rfl

end Shows

/-! ## Into the kernel and back -/

namespace Cpu

/-- The stack that an entry into ring 0 goes on with. -/
def kernelStack (c : Cpu) : UInt32 := if c.cpl = 0 then c.reg .esp else c.esp0

/-- What an entry leaves on it. -/
def frame (ret : UInt32) (c : Cpu) : List UInt32 :=
  if c.cpl = 0 then [ret, c.cs.toUInt32, c.eflags]
  else [ret, c.cs.toUInt32, c.eflags, c.reg .esp, c.ss.toUInt32]

/-- After an entry. -/
def entered (g : Gate) (c : Cpu) : Cpu :=
  { c.set .esp (c.kernelStack - 4 * UInt32.ofNat (c.frame 0).length) with
    cs := g.selector
    ss := if c.cpl = 0 then c.ss else c.ss0
    eflags := State.handlerFlags g c.eflags }

/-- `k`, after the return from an entry that `c` made. -/
def returned (M : Machine) (c k : Cpu) : Cpu :=
  { k.set .esp (c.reg .esp) with
    cs := c.cs
    ss := if c.cpl = 0 then k.ss else c.ss
    eflags := c.eflags
    seg := if c.cpl = 0 then k.seg else fun r => M.selectorIn c.cpl (k.seg r) }

theorem length_frame (ret : UInt32) (c : Cpu) : (c.frame ret).length ≤ 5 := by
  unfold frame
  split <;> simp

end Cpu

namespace Shows

variable {m : Mem} {base : UInt32} {cap : ℕ} {s : State} {v : View} {M : Machine}
  {l : List Instr} {g : Gate} {c : Cpu} {ret : UInt32}

/-- A stack without words of interest. -/
theorem ofEmpty (s : State) (hroom : 4 * cap ≤ 2 ^ 32) : Shows s.mem s.esp cap s ⟨s.cpu, []⟩ := by
  have h : Shows s.mem (s.esp + 4 * UInt32.ofNat ([] : List UInt32).length) cap s ⟨s.cpu, []⟩ :=
    ofWords trivial (Nat.zero_le _) hroom
  simpa using h

theorem pushed {ws : List UInt32} (h : Shows m base cap s ⟨c, ws⟩) (hlt : ws.length < cap)
    (w : UInt32) : Shows m base cap (s.push w)
      ⟨c.set .esp (base - 4 * UInt32.ofNat (ws.length + 1)), w :: ws⟩ := by
  have hpush := h.push (w := w) (if_pos hlt)
  have hesp := hpush.esp
  simp only [View.restack, Cpu.set, Function.update_self] at hesp
  rwa [View.restack, hesp] at hpush

theorem enter (g : Gate) (ret : UInt32) (s : State) (hcap : 5 ≤ cap) (hroom : 4 * cap ≤ 2 ^ 32) :
    Shows s.mem s.cpu.kernelStack cap (s.enter g ret) ⟨s.cpu.entered g, s.cpu.frame ret⟩ ∧
      (s.enter g ret).eip = g.offset := by
  refine ⟨?_, rfl⟩
  by_cases hcpl : s.cpu.cpl = 0
  · have h₁ := (ofEmpty s hroom).pushed (by simp; omega) s.cpu.eflags
    have h₂ := h₁.pushed (by simp; omega) s.cpu.cs.toUInt32
    have h₃ := h₂.pushed (by simp; omega) ret
    rw [Cpu.set_set, Cpu.set_set] at h₃
    have h := (h₃.goto g.offset).onCpu
      (fun c => { c with cs := g.selector, eflags := State.handlerFlags g c.eflags }) rfl
    simp only [State.enter, Cpu.kernelStack, Cpu.entered, Cpu.frame, if_pos hcpl]
    exact h
  · have h₀ := ofEmpty (s.onCpu Cpu.onKernelStack) hroom
    have h₁ := h₀.pushed (by simp; omega) s.cpu.ss.toUInt32
    have h₂ := h₁.pushed (by simp; omega) s.esp
    have h₃ := h₂.pushed (by simp; omega) s.cpu.eflags
    have h₄ := h₃.pushed (by simp; omega) s.cpu.cs.toUInt32
    have h₅ := h₄.pushed (by simp; omega) ret
    simp only [State.onCpu, Cpu.onKernelStack, Cpu.set_set] at h₅
    have h := (h₅.goto g.offset).onCpu
      (fun c => { c with cs := g.selector, eflags := State.handlerFlags g c.eflags }) rfl
    simp only [State.enter, Cpu.kernelStack, Cpu.entered, Cpu.frame, if_neg hcpl]
    exact h

theorem dropped {w : UInt32} {ws : List UInt32} (h : Shows m base cap s ⟨c, w :: ws⟩) :
    s.top = w ∧
      Shows m base cap (s.drop 4) ⟨c.set .esp (base - 4 * UInt32.ofNat ws.length), ws⟩ := by
  have hdrop := h.drop (n := 1) (if_pos (by simp))
  have hesp := hdrop.esp
  simp only [View.restack, Cpu.set, Function.update_self] at hesp
  refine ⟨h.head rfl, ?_⟩
  rwa [View.restack, hesp] at hdrop

theorem popFrame {w : UInt32} {sel : UInt16} {f : UInt32} {ws : List UInt32}
    (h : Shows m base cap s ⟨c, w :: sel.toUInt32 :: f :: ws⟩) :
    Shows m base cap s.popFrame ⟨({ c with cs := sel, eflags := f } : Cpu).set .esp
      (base - 4 * UInt32.ofNat ws.length), ws⟩ ∧ s.popFrame.eip = w := by
  obtain ⟨ht₁, h₁⟩ := h.dropped
  obtain ⟨ht₂, h₂⟩ := (h₁.goto w).dropped
  obtain ⟨ht₃, h₃⟩ := (h₂.onCpu ({ · with cs := sel }) rfl).dropped
  have h₄ := h₃.onCpu (·.setFlags f) rfl
  simp only [View.onCpu, Cpu.set, Cpu.setFlags, Function.update_idem] at h₄
  rw [State.popFrame, ht₁, ht₂, UInt16.toUInt16_toUInt32, ht₃]
  exact ⟨h₄, rfl⟩

theorem iret (h : Shows m c.kernelStack cap s v) (hl : Listing M s.eip (.iret :: l))
    (hcpl : v.cpu.cpl = 0) (hv : v.stack = c.frame ret) :
    ∃ t, s.step M = some t ∧ t.eip = ret ∧ t.cpu = c.returned M v.cpu ∧ t.mem = s.mem := by
  obtain ⟨next, hcode, -⟩ := hl
  obtain ⟨k, ws⟩ := v
  have h := h.goto next
  have hstep : s.step M = some (if (s.goto next).popFrame.cpu.cpl = 0 then (s.goto next).popFrame
      else (s.goto next).popFrame.popStack M) := by
    rw [step_eq hcode, State.exec, State.iret, h.cpu, if_neg (by simpa using hcpl)]
  by_cases hc : c.cpl = 0
  · simp only [Cpu.frame, Cpu.kernelStack, if_pos hc] at hv h
    subst hv
    obtain ⟨ht, heip⟩ := h.popFrame
    have hzero : (s.goto next).popFrame.cpu.cpl = 0 := by
      rw [ht.cpu]
      exact hc
    rw [if_pos hzero] at hstep
    refine ⟨_, hstep, heip, ht.cpu.trans ?_, State.mem_popFrame _⟩
    simp [Cpu.returned, Cpu.set, if_pos hc]
  · simp only [Cpu.frame, Cpu.kernelStack, if_neg hc] at hv h
    subst hv
    obtain ⟨ht, heip⟩ := h.popFrame
    obtain ⟨htop, h₁⟩ := ht.dropped
    obtain ⟨htop', -⟩ := h₁.dropped
    have hne : (s.goto next).popFrame.cpu.cpl ≠ 0 := by
      rw [ht.cpu]
      exact hc
    rw [if_neg hne] at hstep
    refine ⟨_, hstep, (State.eip_popStack ..).trans heip, ?_, by simp [State.goto]⟩
    rw [State.popStack, htop, htop', UInt16.toUInt16_toUInt32, State.onCpu, h₁.cpu]
    simp only [Cpu.returned, Cpu.set, if_neg hc, Function.update_idem]
    rfl

end Shows

/-- A return to an outer ring takes five words off the stack. -/
theorem iret_outer {M : Machine} {s : State} {l : List Instr} {eip f esp : UInt32} {cs ss : UInt16}
    (hl : Listing M s.eip (.iret :: l))
    (hcpl : s.cpu.cpl = 0)
    (hw : WordsAt s.mem s.esp [eip, cs.toUInt32, f, esp, ss.toUInt32]) (hcs : cs.toNat % 4 ≠ 0) :
    ∃ t, s.step M = some t ∧ t.eip = eip ∧
      t.cpu = ({ s.cpu with
        cs := cs
        ss := ss
        eflags := f
        seg := fun r => M.selectorIn (cs.toNat % 4) (s.cpu.seg r) } : Cpu).set .esp esp ∧
      t.mem = s.mem := by
  -- a processor that would have left this frame
  obtain ⟨k, hk, rfl, rfl, rfl, rfl, hbase⟩ : ∃ k : Cpu, k.cpl ≠ 0 ∧ k.cs = cs ∧ k.ss = ss ∧
      k.eflags = f ∧ k.reg .esp = esp ∧ k.esp0 = s.esp + 4 * UInt32.ofNat
        [eip, cs.toUInt32, f, esp, ss.toUInt32].length :=
    ⟨⟨fun _ => esp, f, cs, ss, s.cpu.seg, ss, _⟩, hcs, rfl, rfl, rfl, rfl, rfl⟩
  have hstack : k.kernelStack = k.esp0 := if_neg hk
  have hframe : k.frame eip =
      [eip, k.cs.toUInt32, k.eflags, k.reg .esp, k.ss.toUInt32] := if_neg hk
  have h := Shows.ofWords hw (le_refl _) (by simp)
  rw [← hbase, ← hstack, ← hframe] at h
  obtain ⟨t, hs, heip, hcpu, hmem⟩ := h.iret hl hcpl (show _ = k.frame eip from rfl)
  refine ⟨t, hs, heip, hcpu.trans ?_, hmem⟩
  rw [Cpu.returned, if_neg hk, if_neg hk]
  rfl

/-! ## Code from elsewhere -/

/-- A function that was entered in `s` has returned in `t`: to its caller, on the stack and in the
ring of its caller, and `keep` words above its `args` arguments stand as before. -/
structure Returned (args keep : ℕ) (s t : State) : Prop where
  eip : t.eip = s.top
  esp : t.esp = s.esp + 4
  cs : t.cpu.cs = s.cpu.cs
  kept : ∀ b, off (s.esp + 4 + 4 * UInt32.ofNat args) b < 4 * keep → t.mem b = s.mem b

/-- A function that does nothing but return. -/
theorem Returned.atOnce (args keep : ℕ) (s : State) :
    Returned args keep s ((s.drop 4).goto s.top) where
  eip := rfl
  esp := Cpu.set_self ..
  cs := rfl
  kept _ _ := rfl

/-- The caller finds its stack again, under the space of the arguments. -/
theorem Returned.shows {m : Mem} {base ret : UInt32} {cap args keep : ℕ} {s t : State} {v : View}
    {l ws : List UInt32} (hr : Returned args keep s t) (h : Shows m base cap s v)
    (hv : v.stack = ret :: (l ++ ws)) (hl : l.length = args) (hws : ws.length = keep) :
    t.eip = ret ∧ ∃ l' : List UInt32, l'.length = args ∧
      Shows t.mem base cap t ⟨t.cpu, l' ++ ws⟩ := by
  subst hl hws
  obtain ⟨l', hlen, hl'⟩ := exists_wordsAt t.mem t.esp l.length
  refine ⟨hr.eip.trans (h.head (by rw [hv]; rfl)), l', hlen, ?_⟩
  have hwords := h.words
  rw [hv, ← h.top_eq] at hwords
  have hw : WordsAt t.mem (t.esp + 4 * UInt32.ofNat l'.length) ws := by
    have hdrop := hwords.2.drop l.length
    rw [List.drop_left] at hdrop
    rw [hr.esp, hlen]
    exact hdrop.congr hr.kept
  have hfits := h.fits
  have hlength : v.stack.length = (l' ++ ws).length + 1 := by
    rw [hv, List.length_cons, List.length_append, List.length_append, hlen]
  have hbase : t.esp + 4 * UInt32.ofNat (l' ++ ws).length = base := by
    have hesp := h.esp
    rw [← h.top_eq, hlength, UInt32.ofNat_add] at hesp
    rw [hr.esp, hesp]
    grind
  have hshows := Shows.ofWords (hl'.append hw) (by omega) h.room
  rwa [hbase] at hshows

end Rings

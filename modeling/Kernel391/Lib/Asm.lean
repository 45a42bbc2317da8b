import Kernel391.Lib.Fuel
import Kernel391.Lib.Memory

/-!
# Pieces of x86 assembly

The instructions of small hand-written routines, in the operand order of the GNU assembler
(source first). A program is the list of its lines; a label is a line of its own and does
nothing. Segments are flat: every segment register selects the same memory, but the registers
themselves are there, because programs save and copy them.

`exec` is one instruction and `step` one step at the program counter. `Steps p s t` is a piece of a
run, built instruction by instruction, and a piece of a run that reaches the end of the program is
how the program ends (`Steps.computes`).
-/

namespace Asm

open Memory Loop

inductive Reg
  | eax
  | ecx
  | edx
  | esi
  | edi

inductive Seg
  | ds
  | es

/-- An instruction, or a label. -/
inductive Instr (L : Type)
  | label (l : L)
  | testl (src dst : Reg)
  | testlImm (imm : UInt32) (dst : Reg)
  | cmpl (src dst : Reg)
  | jz (l : L)
  | jae (l : L)
  | jmp (l : L)
  /-- `movb (base), %al` -/
  | movbLoad (base : Reg)
  /-- `movb %al, (base)` -/
  | movbStore (base : Reg)
  | movl (src dst : Reg)
  /-- `movw %seg, %reg`, into the low half of a register -/
  | movwFrom (seg : Seg) (dst : Reg)
  | movwTo (src : Reg) (seg : Seg)
  | addl (imm : UInt32) (dst : Reg)
  | subl (imm : UInt32) (dst : Reg)
  | andl (imm : UInt32) (dst : Reg)
  | shrl (imm : UInt32) (dst : Reg)
  /-- `leal disp(base, index), %dst` -/
  | leal (disp : UInt32) (base index dst : Reg)
  | cld
  | std
  | repStosl
  | repMovsl
  | repMovsb

/-- What the instructions work on: registers, the zero, carry and direction flags, memory, and the
number of the next line. -/
structure Cpu where
  eax : UInt32
  ecx : UInt32
  edx : UInt32
  esi : UInt32
  edi : UInt32
  ds : UInt16
  es : UInt16
  zf : Bool
  cf : Bool
  df : Bool
  mem : Mem
  pc : ℕ

namespace Cpu

def get (s : Cpu) : Reg → UInt32
  | .eax => s.eax
  | .ecx => s.ecx
  | .edx => s.edx
  | .esi => s.esi
  | .edi => s.edi

def set (s : Cpu) (r : Reg) (v : UInt32) : Cpu :=
  match r with
  | .eax => { s with eax := v }
  | .ecx => { s with ecx := v }
  | .edx => { s with edx := v }
  | .esi => { s with esi := v }
  | .edi => { s with edi := v }

def getSeg (s : Cpu) : Seg → UInt16
  | .ds => s.ds
  | .es => s.es

def setSeg (s : Cpu) (seg : Seg) (v : UInt16) : Cpu :=
  match seg with
  | .ds => { s with ds := v }
  | .es => { s with es := v }

/-- The flags of a result. -/
def flags (s : Cpu) (result : UInt32) (carry : Bool) : Cpu :=
  { s with zf := result == 0, cf := carry }

/-- Replace `%al`. -/
def setAl (s : Cpu) (b : UInt8) : Cpu :=
  { s with eax := s.eax &&& 0xFFFFFF00 ||| b.toUInt32 }

/-- The direction in which a string instruction moves: its element size, up or down. -/
def stride (s : Cpu) (size : UInt32) : UInt32 := if s.df then -size else size

def stosl (s : Cpu) : Cpu :=
  { s with mem := store32 s.mem s.edi s.eax, edi := s.edi + s.stride 4 }

def movsl (s : Cpu) : Cpu :=
  { s with
    mem := store32 s.mem s.edi (load32 s.mem s.esi)
    esi := s.esi + s.stride 4
    edi := s.edi + s.stride 4 }

def movsb (s : Cpu) : Cpu :=
  { s with
    mem := Function.update s.mem s.edi (s.mem s.esi)
    esi := s.esi + s.stride 1
    edi := s.edi + s.stride 1 }

/-- The `rep` prefix: once for every unit of `%ecx`. -/
def rep (f : Cpu → Cpu) (s : Cpu) : Cpu := { f^[s.ecx.toNat] s with ecx := 0 }

/-- To the next line. -/
def next (s : Cpu) : Cpu := { s with pc := s.pc + 1 }

def goto (s : Cpu) (line : ℕ) : Cpu := { s with pc := line }

end Cpu

variable {L : Type} [DecidableEq L]

def Instr.isLabel (l : L) : Instr L → Bool
  | .label l' => l' == l
  | _ => false

/-- The line of a label. -/
def target (p : List (Instr L)) (l : L) : ℕ := p.findIdx (Instr.isLabel l)

/-- One instruction. -/
def exec (p : List (Instr L)) (i : Instr L) (s : Cpu) : Cpu :=
  match i with
  | .label _ => s.next
  | .testl src dst => (s.flags (s.get dst &&& s.get src) false).next
  | .testlImm imm dst => (s.flags (s.get dst &&& imm) false).next
  | .cmpl src dst => (s.flags (s.get dst - s.get src) (decide (s.get dst < s.get src))).next
  | .jz l => if s.zf then s.goto (target p l) else s.next
  | .jae l => if s.cf then s.next else s.goto (target p l)
  | .jmp l => s.goto (target p l)
  | .movbLoad base => (s.setAl (s.mem (s.get base))).next
  | .movbStore base =>
    { s with mem := Function.update s.mem (s.get base) s.eax.toUInt8 }.next
  | .movl src dst => (s.set dst (s.get src)).next
  | .movwFrom seg dst =>
    (s.set dst (s.get dst &&& 0xFFFF0000 ||| (s.getSeg seg).toUInt32)).next
  | .movwTo src seg => (s.setSeg seg (s.get src).toUInt16).next
  | .addl imm dst =>
    let v := s.get dst + imm
    ((s.set dst v).flags v (decide (v < imm))).next
  | .subl imm dst =>
    let v := s.get dst - imm
    ((s.set dst v).flags v (decide (s.get dst < imm))).next
  | .andl imm dst =>
    let v := s.get dst &&& imm
    ((s.set dst v).flags v false).next
  | .shrl imm dst =>
    let v := s.get dst >>> imm
    ((s.set dst v).flags v (s.get dst >>> (imm - 1) &&& 1 == 1)).next
  | .leal disp base index dst => (s.set dst (s.get base + s.get index + disp)).next
  | .cld => { s with df := false }.next
  | .std => { s with df := true }.next
  | .repStosl => (s.rep Cpu.stosl).next
  | .repMovsl => (s.rep Cpu.movsl).next
  | .repMovsb => (s.rep Cpu.movsb).next

/-- One step of the program; behind its last line it stays. -/
def step (p : List (Instr L)) (s : Cpu) : Cpu :=
  match p[s.pc]? with
  | some i => exec p i s
  | none => s

/-- Run the program from its first line until it leaves through its last. -/
def run (p : List (Instr L)) (fuel : ℕ) (s : Cpu) : Option Cpu :=
  whileLoop (fun s => decide (s.pc < p.length)) (step p) fuel { s with pc := 0 }

/-! ## Pieces of runs -/

/-- The program comes from `s` to `t`. -/
inductive Steps (p : List (Instr L)) : Cpu → Cpu → Prop
  | refl (s : Cpu) : Steps p s s
  | next {s t : Cpu} {i : Instr L} (hi : p[s.pc]? = some i) (h : Steps p (exec p i s) t) :
      Steps p s t

variable {p : List (Instr L)} {s t u : Cpu} {l : L}

theorem Steps.trans (h : Steps p s t) (h' : Steps p t u) : Steps p s u := by
  induction h with
  | refl => exact h'
  | next hi _ ih => exact .next hi (ih h')

/-- A conditional jump that is taken. -/
theorem Steps.jz_taken (hi : p[s.pc]? = some (.jz l)) (hz : s.zf = true)
    (h : Steps p (s.goto (target p l)) t) : Steps p s t :=
  .next hi (by rwa [exec, if_pos hz])

theorem Steps.jz_not (hi : p[s.pc]? = some (.jz l)) (hz : s.zf = false)
    (h : Steps p s.next t) : Steps p s t :=
  .next hi (by rwa [exec, if_neg (by simp [hz])])

theorem Steps.jae_taken (hi : p[s.pc]? = some (.jae l)) (hc : s.cf = false)
    (h : Steps p (s.goto (target p l)) t) : Steps p s t :=
  .next hi (by rwa [exec, if_neg (by simp [hc])])

theorem Steps.jae_not (hi : p[s.pc]? = some (.jae l)) (hc : s.cf = true)
    (h : Steps p s.next t) : Steps p s t :=
  .next hi (by rwa [exec, if_pos hc])

/-- **A piece of a run that reaches the end of the program is the whole run.** -/
theorem Steps.computes (h : Steps p { s with pc := 0 } t) (hend : t.pc = p.length) :
    Computes (run p · s) t := by
  change Computes (whileLoop _ _ · { s with pc := 0 }) t
  generalize ({ s with pc := 0 } : Cpu) = s₀ at h
  induction h with
  | refl s => exact computes_while_done (by simp [hend])
  | @next s t i hi _ ih =>
    have hlt : s.pc < p.length := (List.getElem?_eq_some_iff.1 hi).1
    refine computes_while_step (by simpa using hlt) ?_
    rw [step, hi]
    exact ih hend

end Asm

import Kernel391.Lib.Rings

/-!
# Ways into the kernel: the code

The routines of `linkage.S`, the table that `initialize_IDT` of `idt.c` fills, the segment
descriptors of `x86_desc.S`, and on the other side the wrappers of `ece391syscall.S` that programs
call. Where the linker puts a routine or a function is `sym`.

The functions in C are not code here. The routines rely on their calling convention only where
`Rings.Returned` says it.
-/

namespace Kernel391

open Memory Rings

namespace Linkage

/-! ## Constants of `linkage.S`, `idt.h` and `x86_desc.h` -/

def userDs : UInt32 := 0x2B
def argsize : UInt32 := 12
def userCs : UInt32 := 0x23
def esparg : UInt32 := 0x83ffffc
def maxSysCall : UInt32 := 10
def minSysCall : UInt32 := 0
def exceptionCount : ℕ := 32
def systemcallno : UInt8 := 0x80
def pitno : UInt8 := 0x20
def keyboard : UInt8 := 0x21
def rtc : UInt8 := 0x28
def kernelCs : UInt16 := 0x10

/-! ## Names -/

/-- The system calls of `ece391sysnum.h`. -/
inductive SysNum
  | halt
  | execute
  | read
  | write
  | open
  | close
  | getargs
  | vidmap
  | setHandler
  | sigreturn
  deriving DecidableEq

/-- Their numbers. -/
def SysNum.number : SysNum → UInt32
  | .halt => 1
  | .execute => 2
  | .read => 3
  | .write => 4
  | .open => 5
  | .close => 6
  | .getargs => 7
  | .vidmap => 8
  | .setHandler => 9
  | .sigreturn => 10

/-- What has an address. -/
inductive Symbol
  -- the routines of `linkage.S`, and two labels in `systemcallasm`
  | saveEspEbpasm
  | contextswitchasm
  | restoreparent
  | keyboardhandlerasm
  | pithandlerasm
  | rtchandlerasm
  | handlerasm (n : SysNum)
  | systemcallasm
  | defaulterror
  | return
  -- functions in C
  | function (n : SysNum)
  | saveEspEbp
  | saveParentRegisters
  | keyboardHandler
  | pithandler
  | rtchandler
  | handle0
  | handle1
  | handle2
  | handle3
  | handle4
  | handle5
  | handle6
  | handle7
  | handle8
  | handle9
  | handle14
  | commonehandler
  -- the wrappers in a program
  | wrapper (n : SysNum)
  deriving DecidableEq

/-! ## Code -/

variable (sym : Symbol → UInt32)

def jumptable : List UInt32 :=
  [SysNum.halt, .execute, .read, .write, .open, .close, .getargs, .vidmap, .setHandler,
    .sigreturn].map fun n => sym (.handlerasm n)

/-- A handler of hardware interrupts. -/
def handlerText (handler : Symbol) : List Instr := [.pushal, .call (sym handler), .popal, .iret]

/-- `systemcallasm` up to the call. `%eax` is not saved. -/
def systemcallText : List Instr :=
  [.cmpl minSysCall .eax,
    .jle (sym .defaulterror),
    .cmpl maxSysCall .eax,
    .jg (sym .defaulterror),
    .pushfl,
    .pushl (.reg .edx),
    .pushl (.reg .ecx),
    .pushl (.reg .ebx),
    .pushl (.reg .esi),
    .pushl (.reg .edi),
    .pushl (.reg .ebp),
    .pushl (.reg .edx),
    .pushl (.reg .ecx),
    .pushl (.reg .ebx),
    .subl 1 .eax,
    .jmpTable (jumptable sym) .eax]

/-- `RETURN`. -/
def returnText : List Instr :=
  [.addl argsize .esp,
    .popl .ebp,
    .popl .edi,
    .popl .esi,
    .popl .ebx,
    .popl .ecx,
    .popl .edx,
    .popfl,
    .iret]

/-- `contextswitchasm(eipval, current_process)`. -/
def contextswitchText : List Instr :=
  [.xorl .edx .edx,
    .movl (.mem 8 .esp) .edx,
    .xorl .ecx .ecx,
    .movl (.reg .esp) .ecx,
    .movl (.imm userDs) .eax,
    .movwTo .eax .ds,
    .movwTo .eax .es,
    .movwTo .eax .fs,
    .movwTo .eax .gs,
    .pushl (.reg .ebp),
    .pushl (.reg .ecx),
    .pushl (.reg .edx),
    .call (sym .saveParentRegisters),
    .addl argsize .esp,
    .xorl .edx .edx,
    .movl (.mem 4 .esp) .edx,
    .pushl (.imm userDs),
    .pushl (.imm esparg),
    .pushfl,
    .popl .eax,
    .orl 0x200 .eax,
    .pushl (.reg .eax),
    .pushl (.imm userCs),
    .pushl (.reg .edx),
    .iret,
    .ret]

/-- `restoreparent(ebp, esp, status)`. -/
def restoreparentText : List Instr :=
  [.movl (.mem 4 .esp) .ebp,
    .movl (.mem 8 .esp) .esp,
    .movl (.mem 12 .esp) .eax,
    .ret]

/-- `save_esp_ebpasm`. -/
def saveEspEbpText : List Instr :=
  [.xorl .edx .edx,
    .xorl .ecx .ecx,
    .movl (.reg .esp) .ecx,
    .movl (.reg .ebp) .edx,
    .pushl (.reg .edx),
    .pushl (.reg .ecx),
    .call (sym .saveEspEbp),
    .addl 8 .esp,
    .ret]

/-- `DO_CALL`. -/
def doCall (number : UInt32) : List Instr :=
  [.pushl (.reg .ebx),
    .movl (.imm number) .eax,
    .movl (.mem 8 .esp) .ebx,
    .movl (.mem 12 .esp) .ecx,
    .movl (.mem 16 .esp) .edx,
    .int 0x80,
    .popl .ebx,
    .ret]

/-- The code at a symbol. -/
def text : Symbol → List Instr
  | .saveEspEbpasm => saveEspEbpText sym
  | .contextswitchasm => contextswitchText sym
  | .restoreparent => restoreparentText
  | .keyboardhandlerasm => handlerText sym .keyboardHandler
  | .pithandlerasm => handlerText sym .pithandler
  | .rtchandlerasm => handlerText sym .rtchandler
  | .handlerasm n => [.call (sym (.function n)), .jmp (sym .return)]
  | .systemcallasm => systemcallText sym
  | .defaulterror => [.movl (.imm (-1)) .eax, .iret]
  | .return => returnText
  | .wrapper n => doCall n.number
  | _ => []

/-! ## The interrupt table -/

/-- `idt_desc_t`: its bit fields, the lowest first. -/
structure IdtDesc where
  offset1500 : BitVec 16
  segSelector : BitVec 16
  reserved4 : BitVec 8
  reserved3 : BitVec 1
  reserved2 : BitVec 1
  reserved1 : BitVec 1
  size : BitVec 1
  reserved0 : BitVec 1
  dpl : BitVec 2
  present : BitVec 1
  offset3116 : BitVec 16

namespace IdtDesc

/-- A descriptor as the table holds it before `initialize_IDT`. -/
def zero : IdtDesc := ⟨0, 0, 0, 0, 0, 0, 0, 0, 0, 0, 0⟩

/-- The eight bytes of a descriptor. -/
def val (d : IdtDesc) : BitVec 64 :=
  d.offset3116 ++ d.present ++ d.dpl ++ d.reserved0 ++ d.size ++ d.reserved1 ++ d.reserved2 ++
    d.reserved3 ++ d.reserved4 ++ d.segSelector ++ d.offset1500

/-- `SET_IDT_ENTRY`. -/
def setIdtEntry (handler : UInt32) (d : IdtDesc) : IdtDesc :=
  { d with
    offset3116 := ((handler &&& 0xFFFF0000) >>> 16).toBitVec.setWidth 16
    offset1500 := (handler &&& 0xFFFF).toBitVec.setWidth 16 }

/-- What `initialize_IDT` does to an entry it uses. -/
def fill (dpl : BitVec 2) (reserved3 : BitVec 1) (handler : UInt32) (d : IdtDesc) : IdtDesc :=
  setIdtEntry handler
    { d with
      dpl := dpl
      present := 1
      segSelector := kernelCs.toBitVec
      reserved4 := 0
      reserved3 := reserved3
      reserved2 := 1
      reserved1 := 1
      reserved0 := 0
      size := 1 }

end IdtDesc

/-- The handler of exception `i`. -/
def exceptionHandler (i : ℕ) : Symbol :=
  if i = 0 then .handle0
  else if i = 1 then .handle1
  else if i = 2 then .handle2
  else if i = 3 then .handle3
  else if i = 4 then .handle4
  else if i = 5 then .handle5
  else if i = 6 then .handle6
  else if i = 7 then .handle7
  else if i = 8 then .handle8
  else if i = 14 then .handle14
  else if i = 9 then .handle9
  else if i = 13 then .handle0
  else .commonehandler

abbrev Idt := UInt8 → IdtDesc

/-- Fill one entry. -/
def setGate (n : UInt8) (dpl : BitVec 2) (reserved3 : BitVec 1) (handler : Symbol) (idt : Idt) :
    Idt :=
  Function.update idt n ((idt n).fill dpl reserved3 (sym handler))

/-- `initialize_IDT`. -/
def initializeIdt (idt : Idt) : Idt :=
  let idt := (List.range exceptionCount).foldl
    (fun idt i => setGate sym (UInt8.ofNat i) 0 0 (exceptionHandler i) idt) idt
  let idt := setGate sym keyboard 0 1 .keyboardhandlerasm idt
  let idt := setGate sym rtc 0 1 .rtchandlerasm idt
  let idt := setGate sym systemcallno 3 1 .systemcallasm idt
  setGate sym pitno 3 0 .pithandlerasm idt

/-! ## The segments -/

/-- The descriptors of `x86_desc.S`, before the two that `entry` fills in. -/
def gdt : List (BitVec 64) :=
  [0, 0, 0x00CF9A000000FFFF, 0x00CF92000000FFFF, 0x00CFFA000000FFFF, 0x00CFF2000000FFFF]

/-- The privilege level in the descriptor behind a selector. -/
def segDpl (selector : UInt16) : ℕ :=
  ((gdt.getD (selector.toNat / 8) 0).extractLsb' 45 2).toNat

/-! ## The machine -/

/-- The machine runs this code, with this interrupt table and these segments. -/
structure Linked (M : Machine) : Prop where
  text : ∀ x, Listing M (sym x) (text sym x)
  gate : ∀ n, M.gate n = Gate.ofDescriptor (initializeIdt sym (fun _ => .zero) n).val
  segDpl : M.segDpl = segDpl

end Linkage

end Kernel391

import Kernel391.Basic

/-!
# Page tables: the code

`paging.c`. Entries are built as the code builds them, an address with flag bits or-ed in.
Loading CR3 and flushing the TLB have no state of their own here: the walk always reads the
tables as they are.
-/

namespace Kernel391

/-! ## Constants of `paging.h` -/

def kerStartAddr : Nat := 0x400000
def vidStartAddr : Nat := 0xB8000
def t1BufAddr : Nat := 0xB9000
def t2BufAddr : Nat := 0xBA000
def t3BufAddr : Nat := 0xBB000
def vmemSize : Nat := 4096
def usrStartAddr : Nat := 0x800000
def processSize : Nat := 0x400000

def vmemPage : Nat := 184
def t1BufPage : Nat := 185
def t2BufPage : Nat := 186
def t3BufPage : Nat := 187
def userMemLocation : Nat := 32
def vmem33 : Nat := 33
def onembPagetable : Nat := 256

def vmemOrMask : Nat := 0x7
def ptableOrMask : Nat := 0x13
def ptableOrMaskUser : Nat := 0x17
def kmemOrMask : Nat := 0x183
def umemOrMask : Nat := 0x87

def pidMin : Nat := 0
def pidMax : Nat := 5

/-! ## The functions -/

/-- `paging_initialize`. -/
def pagingInitialize (p : Paging) : Paging :=
  { p with
    pageTable0M4M := fun i =>
      if i = vmemPage then vidStartAddr ||| vmemOrMask
      else if i = t1BufPage then t1BufAddr ||| vmemOrMask
      else if i = t2BufPage then t2BufAddr ||| vmemOrMask
      else if i = t3BufPage then t3BufAddr ||| vmemOrMask
      else 0
    pageDirectory := fun i =>
      if i = 0 then p.layout.pageTable0M4M ||| ptableOrMask
      else if i = 1 then kerStartAddr ||| kmemOrMask
      else 0 }

/-- `paging_change_process`: `false` is the return value -1. -/
def pagingChangeProcess (pid : UInt32) (p : Paging) : Bool × Paging :=
  let pid := pid - 1
  if pid.toNat < pidMin ∨ pid.toNat > pidMax then (false, p)
  else
    (true, { p with
      pageDirectory := Function.update p.pageDirectory userMemLocation
        ((usrStartAddr + processSize * pid.toNat) ||| umemOrMask) })

/-- `paging_vidmap`. -/
def pagingVidmap (p : Paging) : Paging :=
  { p with
    newPageTable := fun i => if i = onembPagetable then vidStartAddr ||| umemOrMask else 0
    pageDirectory := Function.update p.pageDirectory vmem33
      (p.layout.newPageTable ||| ptableOrMaskUser) }

/-- Point both views of the text screen at the physical page `addr`. -/
def pagingSetWrite (addr : Nat) (p : Paging) : Paging :=
  { p with
    pageTable0M4M := Function.update p.pageTable0M4M vmemPage (addr ||| vmemOrMask)
    newPageTable := Function.update p.newPageTable onembPagetable (addr ||| umemOrMask) }

/-- `paging_set_write_to_videomem`. -/
def pagingSetWriteToVideomem (p : Paging) : Paging := pagingSetWrite vidStartAddr p

/-- `paging_set_write_to_buffer`. -/
def pagingSetWriteToBuffer (buffer : Int) (p : Paging) : Paging :=
  let addr :=
    if buffer = 0 then t1BufAddr
    else if buffer = 1 then t2BufAddr
    else if buffer = 2 then t3BufAddr
    else t1BufAddr
  pagingSetWrite addr p

/-! ## What the processor does with the tables -/

namespace Paging

/-- The page table at a physical address. -/
def tableAt (p : Paging) (base : Nat) : X86.Table :=
  if base = p.layout.pageTable0M4M then p.pageTable0M4M
  else if base = p.layout.newPageTable then p.newPageTable
  else fun _ => 0

/-- The physical address of `va`, or `none` for a page fault. -/
def translate (p : Paging) (m : X86.Mode) (va : Nat) : Option Nat :=
  X86.translate p.pageDirectory p.tableAt m va

end Paging

/-! ## Sequences of calls -/

/-- A call of one of the functions that change the tables. -/
inductive PagingCall
  | changeProcess (pid : UInt32)
  | vidmap
  | setWriteToVideomem
  | setWriteToBuffer (buffer : Int)

def PagingCall.apply (p : Paging) : PagingCall → Paging
  | .changeProcess pid => (pagingChangeProcess pid p).2
  | .vidmap => pagingVidmap p
  | .setWriteToVideomem => pagingSetWriteToVideomem p
  | .setWriteToBuffer buffer => pagingSetWriteToBuffer buffer p

/-- The last process id in 1..6 that a sequence of calls passed to `paging_change_process`. -/
def lastPid (last : Option Nat) : PagingCall → Option Nat
  | .changeProcess pid => if 1 ≤ pid.toNat ∧ pid.toNat ≤ 6 then some pid.toNat else last
  | _ => last

end Kernel391

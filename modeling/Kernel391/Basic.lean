import Kernel391.Lib.Bytes
import Kernel391.Lib.X86
import Mathlib.Data.List.TakeWhile

/-!
# The kernel's data

The records the C code keeps (`pcb.h`, `filesystem.h`, `scheduler.h`) and the one record
`Kernel` that holds every static variable and the memory the modelled functions read or write.

* Addresses and sizes are natural numbers; `UInt32` is used where the code's unsigned
  arithmetic can wrap, `Int` where a signed value can be negative.
* A C array is a function from indices. A caller's buffer is a `Bytes.Buf` counted from the
  caller's pointer; it never overlaps the kernel's own data, and NULL is `none`.
* `processesRunning p` is the entry of process id `p`, `processes_running[p - 1]`.
* A PCB lives at an 8 KB-aligned address; `pcbMem` is indexed by that address.
* `cpu` is not a variable of the code: it is the kernel stack, named by the address of the PCB
  at its low end, of the program whose user code the processor runs.
-/

namespace Kernel391

open Bytes

/-! ## Terminals and strings -/

/-- `NUM_TERMS`: a terminal number. -/
abbrev TermId := Fin 3

/-- What the numerals of `TermId` rest on. -/
instance neZeroNumTerms : NeZero (3 : Nat) := ⟨by decide⟩

/-- A NUL-terminated string: the bytes before the terminator. -/
structure CString where
  bytes : List UInt8
  nonzero : ∀ b ∈ bytes, b ≠ 0

namespace CString

/-- `s[i]`, for every index up to the terminator. -/
def get (s : CString) (i : Nat) : UInt8 := s.bytes.getD i 0

/-- The string a buffer holds: its bytes up to the first NUL. -/
def ofList (l : List UInt8) : CString where
  bytes := l.takeWhile (· ≠ 0)
  nonzero := fun b hb => by simpa using List.mem_takeWhile_imp hb

end CString

/-- `strlen`. -/
def strlen (s : CString) : Nat := s.bytes.length

/-! ## Process control blocks -/

/-- A file operations table pointer. What an unused slot held before may be any address. -/
inductive OpsPtr
  | null
  | rtctable
  | filetable
  | directorytable
  | stdinTable
  | stdoutTable
  | wild (addr : Nat)
  deriving DecidableEq, Inhabited

/-- `file_desc`. The four bytes of `flags` are named by their index macros. -/
structure FileDesc where
  operationstable : OpsPtr
  inodeNum : UInt32
  filePos : Int
  inUse : UInt8
  ftype : UInt8
  rsvd0 : UInt8
  rsvd1 : UInt8
  deriving DecidableEq, Inhabited

/-- The saved `parent_esp`, with the local `current_process` of the `execute` frame it points
into. -/
structure SavedFrame where
  esp : Nat
  currentProcess : Nat
  deriving DecidableEq, Inhabited

/-- `pcb`. `parent` is an address, 0 for NULL. -/
structure Pcb where
  fdArray : Nat → FileDesc
  parent : Nat
  processId : Nat
  parentEsp : SavedFrame
  parentProcessId : Nat
  argSize : Nat
  argArr : Buf
  status : UInt32
  deriving Inhabited

/-! ## Terminals -/

/-- `terminal_t`. -/
structure Terminal where
  lb : Buf
  noc : Nat
  esp : Nat
  pid : Nat
  screenX : Nat
  screenY : Nat
  deriving Inhabited

/-! ## Page tables -/

/-- Where the linker put the two page tables. The arrays are declared 4096-aligned. -/
structure Layout where
  pageTable0M4M : Nat
  newPageTable : Nat
  aligned0 : pageTable0M4M % 4096 = 0
  aligned1 : newPageTable % 4096 = 0
  distinct : pageTable0M4M ≠ newPageTable

instance : Inhabited Layout := ⟨⟨0x400000, 0x401000, rfl, rfl, by decide⟩⟩

/-- The three arrays of `paging.c`. -/
structure Paging where
  layout : Layout
  pageDirectory : X86.Table
  pageTable0M4M : X86.Table
  newPageTable : X86.Table
  deriving Inhabited

/-! ## The kernel -/

/-- Every static variable of the modelled functions, and physical memory. -/
structure Kernel where
  processesRunning : Nat → Bool
  pcbMem : Nat → Pcb
  tssEsp0 : Nat
  terminals : TermId → Terminal
  visableTerm : TermId
  currentTerm : TermId
  isOn : TermId → Bool
  paging : Paging
  phys : Nat → UInt8
  terminalbuffer : TermId → Buf
  flags : TermId → Bool
  numberofchars : TermId → Nat
  chararray : Buf
  linebuffer : Buf
  cpu : Nat
  deriving Inhabited

end Kernel391

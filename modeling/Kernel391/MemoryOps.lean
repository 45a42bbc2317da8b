import Kernel391.Lib.Asm

/-!
# Block memory operations: the code

`memset`, `memcpy` and `memmove` of `lib.c`: a few lines of C around inline assembly. The assembly
is kept line by line; the C part loads the registers the operands name. The processor comes in any
state, its direction flag included, and the routine returns it with the memory it has written.
-/

namespace Kernel391.LibC

open Memory Asm

/-- The labels of `memset` and of `memcpy`: `.memset_top`, `.memcpy_top` and so on. -/
inductive WordLabel
  | top
  | aligned
  | bottom
  | done
  deriving DecidableEq

def memsetCode : List (Instr WordLabel) := [
  .label .top,
  .testl .ecx .ecx,
  .jz .done,
  .testlImm 3 .edi,
  .jz .aligned,
  .movbStore .edi,
  .addl 1 .edi,
  .subl 1 .ecx,
  .jmp .top,
  .label .aligned,
  .movwFrom .ds .edx,
  .movwTo .edx .es,
  .movl .ecx .edx,
  .shrl 2 .ecx,
  .andl 3 .edx,
  .cld,
  .repStosl,
  .label .bottom,
  .testl .edx .edx,
  .jz .done,
  .movbStore .edi,
  .addl 1 .edi,
  .subl 1 .edx,
  .jmp .bottom,
  .label .done]

/-- `c << 24 | c << 16 | c << 8 | c`, after `c &= 0xFF`. -/
def fillWord (c : Int32) : Int32 :=
  let c := c &&& 0xFF
  c <<< 24 ||| c <<< 16 ||| c <<< 8 ||| c

def memset (fuel : ℕ) (s : UInt32) (c : Int32) (n : UInt32) (cpu : Cpu) : Option (UInt32 × Cpu) :=
  (run memsetCode fuel { cpu with eax := (fillWord c).toUInt32, edi := s, ecx := n }).map
    fun cpu => (s, cpu)

def memcpyCode : List (Instr WordLabel) := [
  .label .top,
  .testl .ecx .ecx,
  .jz .done,
  .testlImm 3 .edi,
  .jz .aligned,
  .movbLoad .esi,
  .movbStore .edi,
  .addl 1 .edi,
  .addl 1 .esi,
  .subl 1 .ecx,
  .jmp .top,
  .label .aligned,
  .movwFrom .ds .edx,
  .movwTo .edx .es,
  .movl .ecx .edx,
  .shrl 2 .ecx,
  .andl 3 .edx,
  .cld,
  .repMovsl,
  .label .bottom,
  .testl .edx .edx,
  .jz .done,
  .movbLoad .esi,
  .movbStore .edi,
  .addl 1 .edi,
  .addl 1 .esi,
  .subl 1 .edx,
  .jmp .bottom,
  .label .done]

def memcpy (fuel : ℕ) (dest src n : UInt32) (cpu : Cpu) : Option (UInt32 × Cpu) :=
  (run memcpyCode fuel { cpu with esi := src, edi := dest, ecx := n }).map fun cpu => (dest, cpu)

/-- `.memmove_go`. -/
inductive MoveLabel
  | go
  deriving DecidableEq

def memmoveCode : List (Instr MoveLabel) := [
  .movwFrom .ds .edx,
  .movwTo .edx .es,
  .cld,
  .cmpl .edi .esi,
  .jae .go,
  .leal (-1) .esi .ecx .esi,
  .leal (-1) .edi .ecx .edi,
  .std,
  .label .go,
  .repMovsb]

def memmove (fuel : ℕ) (dest src n : UInt32) (cpu : Cpu) : Option (UInt32 × Cpu) :=
  (run memmoveCode fuel { cpu with edi := dest, esi := src, ecx := n }).map fun cpu => (dest, cpu)

end Kernel391.LibC

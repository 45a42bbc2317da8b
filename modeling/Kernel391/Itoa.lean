import Kernel391.Lib.Fuel
import Kernel391.Lib.Memory

/-!
# Strings and numerals: the code

`strlen`, `strrev` and `itoa` of `lib.c`, on a byte memory. A pointer is an address; an `int32_t`
index is sign-extended when it is added to one. The loops may run forever, so they take fuel.
-/

namespace Kernel391.LibC

open Memory Loop

def strlen (fuel : ℕ) (m : Mem) (s : UInt32) : Option UInt32 :=
  whileLoop (fun len => m (s + len) != 0) (· + 1) fuel 0

/-! ## `strrev` -/

structure StrrevState where
  mem : Mem
  beg : Int32
  end_ : Int32

/-- One round of the loop of `strrev`. -/
def strrevStep (s : UInt32) (r : StrrevState) : StrrevState :=
  let tmp := r.mem (s + r.end_.toUInt32)
  let mem := Function.update r.mem (s + r.end_.toUInt32) (r.mem (s + r.beg.toUInt32))
  { mem := Function.update mem (s + r.beg.toUInt32) tmp, beg := r.beg + 1, end_ := r.end_ - 1 }

def strrev (fuel : ℕ) (s : UInt32) (m : Mem) : Option (UInt32 × Mem) :=
  (strlen fuel m s).bind fun len =>
    (whileLoop (fun r => decide (r.beg < r.end_)) (strrevStep s) fuel
      { mem := m, beg := 0, end_ := (len - 1).toInt32 }).map fun r => (s, r.mem)

/-! ## `itoa` -/

/-- `lookup`; what lies behind the array reads as its terminator. -/
def lookup (i : ℕ) : UInt8 :=
  (['0', '1', '2', '3', '4', '5', '6', '7', '8', '9', 'A', 'B', 'C', 'D', 'E', 'F', 'G', 'H', 'I',
    'J', 'K', 'L', 'M', 'N', 'O', 'P', 'Q', 'R', 'S', 'T', 'U', 'V', 'W', 'X', 'Y', 'Z'].map
    Char.toUInt8).getD i 0

structure ItoaState where
  mem : Mem
  newbuf : UInt32
  newval : UInt32

/-- One round of the loop of `itoa`: the lowest place value. -/
def itoaStep (radix : UInt32) (r : ItoaState) : ItoaState :=
  let i := r.newval % radix
  { mem := Function.update r.mem r.newbuf (lookup i.toNat)
    newbuf := r.newbuf + 1
    newval := r.newval / radix }

def itoa (fuel : ℕ) (value buf : UInt32) (radix : Int32) (m : Mem) : Option (UInt32 × Mem) :=
  if value = 0 then some (buf, Function.update (Function.update m buf 48) (buf + 1) 0)
  -- the processor faults on a division by zero
  else if radix = 0 then none
  else
    (whileLoop (fun r => decide (0 < r.newval)) (itoaStep radix.toUInt32) fuel
      { mem := m, newbuf := buf, newval := value }).bind fun r =>
        strrev fuel buf (Function.update r.mem r.newbuf 0)

end Kernel391.LibC

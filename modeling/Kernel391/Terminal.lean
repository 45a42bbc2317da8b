import Kernel391.Keyboard

/-!
# Terminal reads and writes: the code

`terminal_write` and `terminal_read` of `terminal.c`. The hardware cursor that `update_cursor`
moves is not modelled: nothing reads it back.

`terminalRead` is the whole call, made when no interrupt comes in between. `ReadState` and
`readStep` are the same code instruction by instruction, for the runs in which keyboard
interrupts arrive while the call is under way.
-/

namespace Kernel391

open Bytes

/-- `terminal_write`. -/
def terminalWrite (buf : Buf) (nbytes : Int) (k : Kernel) : Int × Kernel :=
  (0, (slice buf 0 nbytes.toNat).foldl (fun k c => putcModified c k) k)

/-! ## The whole call -/

/-- `memset(buffer, 0, nbytes)`, whose count is unsigned. -/
def zeroBuffer (buffer : Buf) (nbytes : Int) : Buf :=
  store buffer 0 (fun _ => 0) (UInt32.ofInt nbytes).toNat

/-- Empty the slot of terminal `t`: the last three assignments of `terminal_read`. -/
def clearTerminalBuffer (t : TermId) (k : Kernel) : Kernel :=
  { k with
    terminalbuffer := Function.update k.terminalbuffer t (clearLine (k.terminalbuffer t)) }

def clearNumberofchars (t : TermId) (k : Kernel) : Kernel :=
  { k with numberofchars := Function.update k.numberofchars t 0 }

def clearFlag (t : TermId) (k : Kernel) : Kernel :=
  { k with flags := Function.update k.flags t false }

/-- `terminal_read`: `none` while the flag is down and the call spins. -/
def terminalRead (buffer : Buf) (nbytes : Int) (k : Kernel) : Option (Int × Buf × Kernel) :=
  let currentT := k.currentTerm
  let buffer := zeroBuffer buffer nbytes
  if k.flags currentT then
    let n := k.numberofchars currentT
    let buffer := store buffer 0 (k.terminalbuffer currentT) n
    let buffer := Function.update buffer n newline
    some (n + 1, buffer,
      clearFlag currentT (clearNumberofchars currentT (clearTerminalBuffer currentT k)))
  else none

/-! ## The call, step by step -/

/-- Where a `terminal_read` is: `buffer` and `retvalue` are its locals. -/
inductive ReadState
  | spin (buffer : Buf)
  | copy (buffer : Buf) (i : Nat)
  | count (buffer : Buf)
  | clearBuffer (buffer : Buf) (retvalue : Nat)
  | clearCount (buffer : Buf) (retvalue : Nat)
  | clearFlag (buffer : Buf) (retvalue : Nat)

/-- What the next step of a `terminal_read` does. -/
inductive ReadStep
  | goesOn (st : ReadState)
  | returns (retvalue : Int) (buffer : Buf)

/-- One step of a `terminal_read` that was called on terminal `t`. -/
def readStep (t : TermId) (k : Kernel) : ReadState → ReadStep × Kernel
  | .spin buffer => (.goesOn (if k.flags t then .copy buffer 0 else .spin buffer), k)
  | .copy buffer i =>
    if i < k.numberofchars t then
      (.goesOn (.copy (Function.update buffer i (k.terminalbuffer t i)) (i + 1)), k)
    else (.goesOn (.count (Function.update buffer i newline)), k)
  | .count buffer => (.goesOn (.clearBuffer buffer (k.numberofchars t)), k)
  | .clearBuffer buffer retvalue =>
    (.goesOn (.clearCount buffer retvalue), clearTerminalBuffer t k)
  | .clearCount buffer retvalue => (.goesOn (.clearFlag buffer retvalue), clearNumberofchars t k)
  | .clearFlag buffer retvalue => (.returns (retvalue + 1) buffer, clearFlag t k)

end Kernel391

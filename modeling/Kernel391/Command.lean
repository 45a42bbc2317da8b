import Kernel391.Process

/-!
# The command line: the code

The loops of `execute` that take a command apart, and those of `set_up_fdsandargs` that copy the
arguments into the PCB, store by store. `lookupProgram` and `setUpFdsandargs` say what the arrays
hold in the end; an array here also keeps the indices it was stored at, which the code may choose
outside the array.

A loop over the command runs over the bytes from `command[i]` on; it has reached the terminator
when none are left.
-/

namespace Kernel391

open Bytes

/-! ## Arrays -/

/-- What the array holds, and where it was stored so far. -/
structure Cells where
  bytes : Buf
  stores : List Nat

def Cells.set (i : Nat) (c : UInt8) (a : Cells) : Cells where
  bytes := Function.update a.bytes i c
  stores := a.stores ++ [i]

/-- `for (i=0; i<n; i++) a[i] = '\0'`. -/
def Cells.clear (n : Nat) (a : Cells) : Cells := (List.range n).foldl (fun a i => a.set i 0) a

/-! ## Parsing in `execute` -/

/-- `while (p(command[i])) a[n++] = command[i++]`: the final `n`, and the array. -/
def copyWhile (p : UInt8 → Bool) : List UInt8 → Nat → Cells → Nat × Cells
  | [], n, a => (n, a)
  | c :: rest, n, a => if p c then copyWhile p rest (n + 1) (a.set n c) else (n, a)

/-- The loop that saves the command in `arg_arr`, with the final `arg_size`. -/
def saveCommand (command : List UInt8) (argArr : Cells) : Nat × Cells :=
  copyWhile (fun c => c ≠ newline) command 0 argArr

/-- The loop that copies the name into `buf`, with the final `j`. -/
def parseName (command : List UInt8) (buf : Cells) : Nat × Cells :=
  copyWhile (fun c => c ≠ space ∧ c ≠ newline) command 0 buf

/-- The locals of `execute` after parsing. -/
structure CommandLine where
  argArr : Cells
  argSize : Nat
  buf : Cells
  argIdx : Nat

/-- The parsing in `execute`; the two arrays start uninitialised. -/
def parseCommand (command : CString) (argArr buf : Buf) : CommandLine :=
  let argArr := Cells.clear maxBufSizeExecute ⟨argArr, []⟩
  let (argSize, argArr) := saveCommand command.bytes argArr
  let argArr := argArr.set (argSize + 1) 0
  let (j, buf) := parseName (command.bytes.dropWhile (· = space)) ⟨buf, []⟩
  let j := if j = maxBufSizeExecute then maxBufSizeExecute - 1 else j
  { argArr, argSize, buf := buf.set j 0, argIdx := j + 1 }

/-! ## Copying in `set_up_fdsandargs` -/

/-- The copy loop, with `n` characters left before `arg_size`. -/
def copyArgs (argArr : Buf) : Nat → Nat → Nat → Cells → Cells
  | 0, _, _, a => a
  | n + 1, i, j, a =>
    if argArr j = 0 then a else copyArgs argArr n (i + 1) (j + 1) (a.set i (argArr j))

/-- The stores of `set_up_fdsandargs` into the argument array of the PCB. -/
def setUpArgs (argSize argIdx : Nat) (argArr pcbArgs : Buf) : Cells :=
  copyArgs argArr (argSize - argIdx) 0 argIdx (Cells.clear pcbMaxArgs ⟨pcbArgs, []⟩)

end Kernel391

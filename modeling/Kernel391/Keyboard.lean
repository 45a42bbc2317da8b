import Kernel391.Scheduler

/-!
# The keyboard and the line buffers: the code

`keyboard.c`, and from `terminal.c` the functions that hand a finished line to `terminal_read`.

A `KeyEvent` is one interrupt. Besides the scan code it says which bytes the handler would find
where the source leaves them open: the byte that follows `chararray`, which has 255 entries
while scan codes go up to 255, and the uninitialised `temp` of the shift branch.
-/

namespace Kernel391

open Bytes

/-! ## Scan codes -/

def leftshift : Nat := 0x2A
def leftshiftReleased : Nat := 0xAA
def rightshift : Nat := 0x36
def rightshiftReleased : Nat := 0xB6
def capslock : Nat := 0x3A
def leftcontrolPressed : Nat := 0x1D
def leftcontrolReleased : Nat := 0x9D
def backspace : Nat := 0x0E
def enter : Nat := 0x1C
def altPressed : Nat := 0x38
def altReleased : Nat := 0xB8
def numKeys : Nat := 255

/-- One keyboard interrupt: the scan code, and the two bytes the source leaves open. -/
structure KeyEvent where
  code : UInt8
  pastTable : UInt8 := 0
  temp : UInt8 := 0

/-- `'0'` and `'1'`, the states of a modifier key. -/
def keyUp : UInt8 := 48
def keyDown : UInt8 := 49

/-- The initialiser of `chararray`; the other entries are zero. -/
def chararrayInit : List UInt8 :=
  chars " \x001234567890-=btqwertyuiop[]\n0asdfghjkl;'`s\\zxcvbnm,./r\x00\x00 "

/-- `shiftarray`. -/
def shiftarray (i : Nat) : UInt8 := (chars "~!@#$%^&*(").getD i 0

/-- Write one entry of `chararray`. -/
def Kernel.setKey (i : Nat) (c : UInt8) (k : Kernel) : Kernel :=
  { k with chararray := Function.update k.chararray i c }

/-- `chararray[a]`. -/
def Kernel.keyAt (k : Kernel) (ev : KeyEvent) : UInt8 :=
  if ev.code.toNat < numKeys then k.chararray ev.code.toNat else ev.pastTable

def Kernel.isDown (k : Kernel) (i : Nat) : Bool := k.chararray i == keyDown

/-- `init_keyboard`. -/
def initKeyboard (k : Kernel) : Kernel :=
  ((k.setKey capslock keyUp).setKey leftshift keyUp).setKey altPressed keyUp

/-! ## The line buffers -/

/-- `linebuffer[i] = c`. -/
def setLineChar (i : Nat) (c : UInt8) (k : Kernel) : Option Kernel :=
  if i < keyboardBufferLength then
    some { k with linebuffer := Function.update k.linebuffer i c }
  else none

/-- `memset(linebuffer, 0, KEYBOARD_BUFFER_LENGTH)`. -/
def clearLinebuffer (k : Kernel) : Kernel := { k with linebuffer := clearLine k.linebuffer }

/-- `set_terminal_buffer(linebuffer, nchars)`, for the visible terminal. -/
def setTerminalBuffer (nchars : Nat) (k : Kernel) : Option Kernel := do
  let t := k.visableTerm
  let buf ← copyLine (clearLine (k.terminalbuffer t)) k.linebuffer nchars
  if nchars < keyboardBufferLength then
    some { k with
      terminalbuffer := Function.update k.terminalbuffer t (Function.update buf nchars newline)
      numberofchars := Function.update k.numberofchars t nchars
      flags := Function.update k.flags t true }
  else none

/-! ## The handler -/

/-- Append a character to the line: store it, echo it, write the line back. -/
def putKey (c : UInt8) (numberofchars : Nat) (k : Kernel) : Option Kernel := do
  let k ← setLineChar numberofchars c k
  let k := putc c k
  setGlobalBuffer (numberofchars + 1) k

/-- `case BACKSPACE`. -/
def backspaceKey (numberofchars : Nat) (k : Kernel) : Option Kernel :=
  if numberofchars ≠ 0 then do
    let k := handlebackspace k
    let k ← setLineChar numberofchars 0 k
    setGlobalBuffer (numberofchars - 1) k
  else some k

/-- `case ENTER`. -/
def enterKey (numberofchars : Nat) (k : Kernel) : Option Kernel := do
  let k := putc (k.chararray enter) k
  let k ← setLineChar numberofchars newline k
  let k ← setTerminalBuffer numberofchars k
  setGlobalBuffer 0 (clearLinebuffer k)

/-- What the shift branch puts in `temp`, which starts uninitialised. -/
def shifted (c temp : UInt8) : UInt8 :=
  if 49 ≤ c ∧ c ≤ 57 then
    let s := shiftarray (c.toNat - 48)
    if s ≠ 0 then s else temp
  else
    match c with
    | 45 => 95   -- '-', '_'
    | 61 => 43   -- '=', '+'
    | 91 => 123  -- brackets and braces
    | 93 => 125
    | 96 => 126  -- backquote, tilde
    | 92 => 124  -- backslash, bar
    | 59 => 58   -- ';', ':'
    | 39 => 34   -- quotes
    | 44 => 60   -- ',', '<'
    | 46 => 62   -- '.', '>'
    | 47 => 63   -- '/', '?'
    | 48 => 41   -- '0', ')'
    | _ => temp

/-- The terminal switch of `default`, if the key is one of Alt+F1, F2, F3. -/
def switchKey (a : Nat) (k : Kernel) : Kernel :=
  if a = 0x3C then switchTerminals 1 k
  else if a = 0x3D then switchTerminals 2 k
  else if a = 0x3B then switchTerminals 0 k
  else k

/-- The characters of `default`, with `c` for `chararray[a]`. -/
def charKey (c temp : UInt8) (numberofchars : Nat) (k : Kernel) : Option Kernel :=
  let shift := k.isDown leftshift || k.isDown rightshift
  if (k.isDown capslock || shift) ∧ 97 ≤ c ∧ c ≤ 122 then
    let temp := if k.isDown capslock && shift then c else c - 32
    if temp = 76 ∧ k.isDown leftcontrolPressed then
      let k := setposition 0 0 (clear k)
      setGlobalBuffer 0 (clearLinebuffer k)
    else if numberofchars ≠ keyboardBufferLength - 1 then putKey temp numberofchars k
    else some k
  else if shift then
    if c ≠ 0 ∧ numberofchars ≠ keyboardBufferLength - 1 then
      putKey (shifted c temp) numberofchars k
    else some k
  else if c ≠ 0 ∧ numberofchars ≠ keyboardBufferLength - 1 then putKey c numberofchars k
  else some k

/-- `default`. -/
def defaultKey (ev : KeyEvent) (numberofchars : Nat) (k : Kernel) : Option Kernel :=
  if k.isDown altPressed then
    let k := switchKey ev.code.toNat k
    charKey (k.keyAt ev) ev.temp (getCurrentNoc k) k
  else charKey (k.keyAt ev) ev.temp numberofchars k

/-- The `switch` of `check_input`. -/
def handleKey (ev : KeyEvent) (numberofchars : Nat) (k : Kernel) : Option Kernel :=
  let a := ev.code.toNat
  if a = leftshift then some (k.setKey leftshift keyDown)
  else if a = leftshiftReleased then some (k.setKey leftshift keyUp)
  else if a = rightshift then some (k.setKey rightshift keyDown)
  else if a = rightshiftReleased then some (k.setKey rightshift keyUp)
  else if a = leftcontrolPressed then some (k.setKey leftcontrolPressed keyDown)
  else if a = leftcontrolReleased then some (k.setKey leftcontrolPressed keyUp)
  else if a = altPressed then some (k.setKey altPressed keyDown)
  else if a = altReleased then some (k.setKey altPressed keyUp)
  else if a = backspace then backspaceKey numberofchars k
  else if a = enter then enterKey numberofchars k
  else if a = capslock then
    some (k.setKey capslock (if k.chararray capslock = keyUp then keyDown else keyUp))
  else defaultKey ev numberofchars k

/-- `check_input`. -/
def checkInput (ev : KeyEvent) (k : Kernel) : Option Kernel := do
  let numberofchars := getCurrentNoc k
  let k ← setLineBuffer k
  let k := setposition (globalConsole.getX k) (globalConsole.getY k) k
  let k := k.setWriteToVideomem
  let k ← handleKey ev numberofchars k
  some (if k.currentTerm ≠ k.visableTerm then k.setWriteToBuffer k.currentTerm else k)

end Kernel391

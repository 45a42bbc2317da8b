import Kernel391.Console
import Kernel391.Itoa

/-!
# `printf` and `puts`: the code

The format, the argument words and the strings behind `%s` are in one byte memory, which printing
does not touch: they are not in video memory. `esp` walks over the argument words. A `conv_buf` is
a local array of its own, counted from 0; what it holds before is arbitrary (`frame`, and `frames`
by the place of the conversion in the format).

`reads` is not a variable of the code. It records the addresses at which `*buf` is read.
-/

namespace Kernel391.LibC

open Memory Loop

def puts (fuel : ℕ) (m : Mem) (s : UInt32) (k : Kernel) : Option (Int32 × Kernel) :=
  whileLoop (fun r => m (s + r.1.toUInt32) != 0)
    (fun r => (r.1 + 1, putc (m (s + r.1.toUInt32)) r.2)) fuel (0, k)

structure PrintfState where
  buf : UInt32
  esp : UInt32
  k : Kernel
  reads : List UInt32

namespace PrintfState

/-- `*buf` is read. -/
def look (s : PrintfState) : PrintfState := { s with reads := s.buf :: s.reads }

/-- `buf++`. -/
def advance (s : PrintfState) : PrintfState := { s with buf := s.buf + 1 }

/-- Print, then `esp++`. -/
def consume (s : PrintfState) (print : Option Kernel) : Option PrintfState :=
  print.map fun k => { s with k := k, esp := s.esp + 4 }

end PrintfState

/-! ## The conversions that need a `conv_buf` -/

/-- `%x`, and `%#x` if `alternate`. -/
def printHex (fuel : ℕ) (frame : Mem) (alternate : Bool) (value : UInt32) (k : Kernel) :
    Option Kernel :=
  if alternate = false then
    (itoa fuel value 0 16 frame).bind fun conv => (puts fuel conv.2 0 k).map Prod.snd
  else
    (itoa fuel value 8 16 frame).bind fun conv =>
      (strlen fuel conv.2 8).bind fun startingIndex =>
        (whileLoop (fun r : Int32 × Mem => decide (r.1 < 8))
          (fun r => (r.1 + 1, Function.update r.2 r.1.toUInt32 '0'.toUInt8)) fuel
          (startingIndex.toInt32, conv.2)).bind fun r =>
            (puts fuel r.2 startingIndex k).map Prod.snd

/-- `%u`. -/
def printUnsigned (fuel : ℕ) (frame : Mem) (value : UInt32) (k : Kernel) : Option Kernel :=
  (itoa fuel value 0 10 frame).bind fun conv => (puts fuel conv.2 0 k).map Prod.snd

/-- `%d`. -/
def printSigned (fuel : ℕ) (frame : Mem) (value : Int32) (k : Kernel) : Option Kernel :=
  if value < 0 then
    (itoa fuel (-value).toUInt32 1 10 (Function.update frame 0 '-'.toUInt8)).bind fun conv =>
      (puts fuel conv.2 0 k).map Prod.snd
  else
    (itoa fuel value.toUInt32 0 10 frame).bind fun conv => (puts fuel conv.2 0 k).map Prod.snd

/-! ## The format -/

section Format

variable (m : Mem) (frames : UInt32 → Mem)

/-- `format_char_switch`. A `#` goes back to its top. -/
def formatCharSwitch : ℕ → Bool → PrintfState → Option PrintfState
  | 0, _, _ => none
  | fuel + 1, alternate, s =>
    let c := m s.buf
    let s := s.look
    let frame := frames s.buf
    if c = '%'.toUInt8 then some { s with k := putc '%'.toUInt8 s.k }
    else if c = '#'.toUInt8 then formatCharSwitch fuel true s.advance
    else if c = 'x'.toUInt8 then s.consume (printHex fuel frame alternate (load32 m s.esp) s.k)
    else if c = 'u'.toUInt8 then s.consume (printUnsigned fuel frame (load32 m s.esp) s.k)
    else if c = 'd'.toUInt8 then s.consume (printSigned fuel frame (load32 m s.esp).toInt32 s.k)
    else if c = 'c'.toUInt8 then s.consume (some (putc (load32 m s.esp).toUInt8 s.k))
    else if c = 's'.toUInt8 then s.consume ((puts fuel m (load32 m s.esp) s.k).map Prod.snd)
    else some s

/-- The body of the loop, for the byte it has found. -/
def printfByte (fuel : ℕ) (s : PrintfState) : Option PrintfState :=
  if m s.buf = '%'.toUInt8 then formatCharSwitch m frames fuel false s.look.advance
  else some { s.look.look with k := putc (m s.buf) s.k }

/-- The loop: its test reads `*buf`, and behind the `switch` comes `buf++`. -/
def printfLoop : ℕ → PrintfState → Option PrintfState
  | 0, _ => none
  | fuel + 1, s =>
    if m s.buf = 0 then some s.look
    else (printfByte m frames fuel s.look).bind fun s => printfLoop fuel s.advance

/-- `printf(format, ...)`, with the first argument word at `esp`. -/
def printf (fuel : ℕ) (format esp : UInt32) (k : Kernel) : Option (Int32 × PrintfState) :=
  (printfLoop m frames fuel { buf := format, esp := esp, k := k, reads := [] }).map fun s =>
    ((s.buf - format).toInt32, s)

end Format

end Kernel391.LibC

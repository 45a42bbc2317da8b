import Kernel391.Lib.Loop

/-!
# The real-time clock: the code

`rtc_write` and `rtc_open` of `rtc.c`, with the arithmetic of the loop and the bytes written to
the ports of the clock. `prev` is what the clock answers to the one read: its register A.

A loop that does not end within the fuel is `none`.
-/

namespace Kernel391.Rtc

/-! ## Constants of `rtc.h` -/

def rtcCmdPort : Nat := 0x70
def rtcDataPort : Nat := 0x71
def regANmiOff : UInt8 := 0x8A
def maxFreq : Int32 := 1024
def defaultFreq : Int32 := 2
def initRate : Int8 := 5
def maskLower : UInt8 := 0xF0

/-- The locals of the loop. -/
structure Locals where
  tmp : Int32
  rate : Int8
  deriving DecidableEq

/-- `rate++; tmp = tmp >> 1;`. -/
def halve (l : Locals) : Locals := { tmp := l.tmp >>> 1, rate := l.rate + 1 }

/-- `while (tmp != *buf2)`, with the locals it ends with. -/
def rateLoop (w : Int32) (fuel : Nat) : Option Locals :=
  Loop.whileLoop (fun l => l.tmp ≠ w) halve fuel { tmp := maxFreq, rate := initRate }

/-- The bytes written to the ports once the rate is known. -/
def setRate (rate : Int8) (prev : UInt8) : List (Nat × UInt8) :=
  [(rtcCmdPort, regANmiOff), (rtcCmdPort, regANmiOff),
    (rtcDataPort, (prev &&& maskLower) ||| rate.toUInt8)]

/-- `rtc_write`: the returned value, and the bytes written. -/
def rtcWrite (fuel : Nat) (buf : Option Int32) (prev : UInt8) :
    Option (Int × List (Nat × UInt8)) :=
  match buf with
  | none => some (-1, [])
  | some w =>
    if w &&& (w - 1) ≠ 0 ∨ w > maxFreq then some (-1, [])
    else (rateLoop w fuel).map fun l => (0, setRate l.rate prev)

/-- `rtc_open`. -/
def rtcOpen (fuel : Nat) (prev : UInt8) : Option (Int × List (Nat × UInt8)) :=
  (rtcWrite fuel (some defaultFreq) prev).map fun r => (0, r.2)

end Kernel391.Rtc

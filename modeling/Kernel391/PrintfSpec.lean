import Kernel391.ItoaProof

/-!
# What a format means

A format is a list of directives: plain bytes and conversions. It is read off byte by byte, with
one bit of state besides being inside or outside a conversion: whether a `#` was seen. A format
that ends inside a conversion has no directive for it, and is not `complete`.

Each directive takes one argument word or none and stands for some bytes (`Directive.expand`); the
bytes behind the word of a `%s` are given by `str`. What a format prints is the expansions of its
directives in order, each with its word (`assign`).
-/

namespace Kernel391.LibC

open Memory

/-- A plain byte or a conversion of a format. -/
inductive Directive
  | plain (c : UInt8)
  | percent
  | hex
  | hex8
  | unsigned
  | signed
  | char
  | string
  | unknown
  deriving DecidableEq

namespace Directive

/-- The conversion a byte stands for, `alternate` if there was a `#` before it. -/
def ofByte (alternate : Bool) (c : UInt8) : Directive :=
  if c = '%'.toUInt8 then percent
  else if c = 'x'.toUInt8 then if alternate then hex8 else hex
  else if c = 'u'.toUInt8 then unsigned
  else if c = 'd'.toUInt8 then signed
  else if c = 'c'.toUInt8 then char
  else if c = 's'.toUInt8 then string
  else unknown

/-- The directive takes an argument word. -/
def takes : Directive → Bool
  | plain _ => false
  | percent => false
  | unknown => false
  | _ => true

end Directive

/-! ## Reading a format -/

/-- The directives of a format; `some alternate` is the state inside a conversion. -/
def directives : Option Bool → List UInt8 → List Directive
  | _, [] => []
  | none, c :: l =>
    if c = '%'.toUInt8 then directives (some false) l else .plain c :: directives none l
  | some alternate, c :: l =>
    if c = '#'.toUInt8 then directives (some true) l
    else .ofByte alternate c :: directives none l

/-- The format does not end inside a conversion. -/
def complete : Option Bool → List UInt8 → Bool
  | q, [] => q.isNone
  | none, c :: l => if c = '%'.toUInt8 then complete (some false) l else complete none l
  | some _, c :: l => if c = '#'.toUInt8 then complete (some true) l else complete none l

/-! ## What it prints -/

/-- Exactly eight hexadecimal digits. -/
def hexText8 (n : ℕ) : List UInt8 := (numeral 16 n).leftpad 8 '0'.toUInt8

/-- A minus sign if need be, and the decimal numeral. -/
def signedText (n : Int) : List UInt8 :=
  if n < 0 then '-'.toUInt8 :: numeral 10 n.natAbs else numeral 10 n.natAbs

/-- The bytes of a directive with its word. -/
def Directive.expand (str : UInt32 → List UInt8) : Directive → UInt32 → List UInt8
  | plain c, _ => [c]
  | percent, _ => ['%'.toUInt8]
  | hex, w => numeral 16 w.toNat
  | hex8, w => hexText8 w.toNat
  | unsigned, w => numeral 10 w.toNat
  | signed, w => signedText w.toInt32.toInt
  | char, w => [w.toUInt8]
  | string, w => str w
  | unknown, _ => []

/-- Every directive with the word it takes; a directive that takes none is given 0. -/
def assign : List Directive → List UInt32 → List (Directive × UInt32)
  | [], _ => []
  | d :: ds, ws =>
    if d.takes then (d, ws.headD 0) :: assign ds ws.tail else (d, 0) :: assign ds ws

/-- The bytes a format prints. -/
def render (str : UInt32 → List UInt8) (ds : List Directive) (ws : List UInt32) : List UInt8 :=
  (assign ds ws).flatMap fun p => p.1.expand str p.2

end Kernel391.LibC

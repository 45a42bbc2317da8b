import Kernel391.Paging

/-!
# The text console: the code

The console part of `lib.c`. `putc` and `putc_modified`, and `scroll` and `scroll_modified`,
are the same text twice: the first copy moves the cursor of the visible terminal (`global`),
the second the cursor of the scheduled one (`current`). The text is written once here, over a
`Console`, the accessors it goes through; the functions of the source are its instances.

`video_mem` is the virtual address 0xB8000. What it reaches is decided by the page tables, on
every access.
-/

namespace Kernel391

def video : Nat := 0xB8000
def numCols : Nat := 80
def numRows : Nat := 25
def attrib : UInt8 := 0x7

/-- `' '` and the two characters that end a line. -/
def space : UInt8 := 32
def newline : UInt8 := 10
def carriageReturn : UInt8 := 13

/-! ## The console text -/

/-- What the console code works through: the bytes at `video_mem`, by offset, and a cursor. -/
structure Console (σ : Type*) where
  load : σ → Nat → UInt8
  store : Nat → UInt8 → σ → σ
  getX : σ → Nat
  getY : σ → Nat
  setX : Nat → σ → σ
  setY : Nat → σ → σ

namespace Console

variable {σ : Type*} (C : Console σ)

/-- Write cell `i`: the character, then the attribute. -/
def putCell (i : Nat) (c : UInt8) (s : σ) : σ := C.store (2 * i + 1) attrib (C.store (2 * i) c s)

/-- One iteration of the inner loop of `scroll`. -/
def scrollCell (y : Nat) (s : σ) (x : Nat) : σ :=
  let i := numCols * y + x
  let j := numCols * (y + 1) + x
  C.putCell i (if y = numRows - 1 then space else C.load s (2 * j)) s

/-- `scroll`, `scroll_modified`. -/
def scroll (s : σ) : σ :=
  let s := (List.range numRows).foldl
    (fun s y => (List.range numCols).foldl (C.scrollCell y) s) s
  C.setX 0 (C.setY (numRows - 1) s)

/-- `putc`, `putc_modified`. -/
def putc (c : UInt8) (s : σ) : σ :=
  if c = newline ∨ c = carriageReturn then
    let s := C.setY (C.getY s + 1) s
    let s := if ¬ C.getY s < numRows then C.scroll s else s
    C.setX 0 s
  else
    let s := C.putCell (numCols * C.getY s + C.getX s) c s
    let s := C.setX (C.getX s + 1) s
    let s :=
      if ¬ C.getX s < numCols then
        let s := C.setY (C.getY s + 1) s
        if ¬ C.getY s < numRows then C.scroll s else C.setX 0 s
      else C.setX (C.getX s % numCols) s
    if ¬ C.getY s < numRows then C.scroll s
    else C.setY ((C.getY s + C.getX s / numCols) % numRows) s

/-- `puts`, and `printf` of a format without conversions. -/
def puts (l : List UInt8) (s : σ) : σ := l.foldl (fun s c => C.putc c s) s

/-- `clear`. -/
def clear (s : σ) : σ :=
  (List.range (numRows * numCols)).foldl (fun s i => C.putCell i space s) s

/-- `handlebackspace`. -/
def handlebackspace (s : σ) : σ :=
  let s :=
    if (C.getX s : Int) - 1 < 0 then
      if C.getY s ≠ 0 then C.setX (numCols - 1) (C.setY (C.getY s - 1) s) else s
    else C.setX (C.getX s - 1) s
  C.putCell (numCols * C.getY s + C.getX s) space s

end Console

/-! ## Kernel memory -/

/-- Load and store one byte at a kernel virtual address. -/
def Kernel.load8 (k : Kernel) (va : Nat) : UInt8 :=
  match k.paging.translate .supervisor va with
  | some pa => k.phys pa
  | none => 0

def Kernel.store8 (va : Nat) (c : UInt8) (k : Kernel) : Kernel :=
  match k.paging.translate .supervisor va with
  | some pa => { k with phys := Function.update k.phys pa c }
  | none => k

/-! ## The two cursors -/

def Kernel.setScreenX (t : TermId) (x : Nat) (k : Kernel) : Kernel :=
  { k with terminals := Function.update k.terminals t { k.terminals t with screenX := x } }

def Kernel.setScreenY (t : TermId) (y : Nat) (k : Kernel) : Kernel :=
  { k with terminals := Function.update k.terminals t { k.terminals t with screenY := y } }

/-- `get_global_screen_x` and its companions: the cursor of the visible terminal. -/
def globalConsole : Console Kernel where
  load k off := k.load8 (video + off)
  store off c k := k.store8 (video + off) c
  getX k := (k.terminals k.visableTerm).screenX
  getY k := (k.terminals k.visableTerm).screenY
  setX x k := k.setScreenX k.visableTerm x
  setY y k := k.setScreenY k.visableTerm y

/-- `get_current_screen_x` and its companions: the cursor of the scheduled terminal. -/
def currentConsole : Console Kernel where
  load k off := k.load8 (video + off)
  store off c k := k.store8 (video + off) c
  getX k := (k.terminals k.currentTerm).screenX
  getY k := (k.terminals k.currentTerm).screenY
  setX x k := k.setScreenX k.currentTerm x
  setY y k := k.setScreenY k.currentTerm y

/-! ## The functions of `lib.c` -/

def scroll (k : Kernel) : Kernel := globalConsole.scroll k
def scrollModified (k : Kernel) : Kernel := currentConsole.scroll k
def putc (c : UInt8) (k : Kernel) : Kernel := globalConsole.putc c k
def putcModified (c : UInt8) (k : Kernel) : Kernel := currentConsole.putc c k
def clear (k : Kernel) : Kernel := globalConsole.clear k
def handlebackspace (k : Kernel) : Kernel := globalConsole.handlebackspace k

/-- The characters of a string literal. -/
def chars (s : String) : List UInt8 := s.toList.map Char.toUInt8

/-- `printf`, for the formats of the modelled functions, which are all plain text. -/
def printf (s : String) (k : Kernel) : Kernel := globalConsole.puts (chars s) k

/-- `setposition`. -/
def setposition (x y : Nat) (k : Kernel) : Kernel :=
  globalConsole.setY y (globalConsole.setX x k)

end Kernel391

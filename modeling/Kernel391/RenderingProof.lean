import Kernel391.ScreenProof
import Kernel391.Lib.Scrollback

/-!
# Rendering

What `putc` and `putc_modified` print, against a page without end. The console keeps the window
only: `scroll` copies the rows up in place, each before it is overwritten itself, and leaves the
last one blank (`screen_scroll`). A character is then either one cell to the right or, from column
79 and for a newline, one line down (`putc_char`, `putc_wrap`, `putc_newline`); the second test
of the row and the two remainders of `putc` never change anything.

* `Renders.putc`, `Renders.handlebackspace` — the screen keeps showing the window of the page.
* `console_renders` — a string of any length, printed by `putc` or by `terminal_write`.
-/

namespace Kernel391

open Bytes Console Scrollback

/-! ## Scrolling -/

/-- A screen of which the bytes below offset `b` are copied up by a row. -/
def movedUp (b : Nat) (cells : Nat → UInt8) (off : Nat) : UInt8 :=
  if b ≤ off then cells off
  else if off % 2 = 1 then attrib
  else if off < 3840 then cells (off + 160)
  else space

section Scroll

variable {cells : Nat → UInt8} {x₀ y₀ : Nat}

/-- Cell `i` is copied from below before the copying gets there. -/
theorem scrollCell_movedUp {x y : Nat} (hx : x < 80) (hy : y < 25) :
    screenConsole.scrollCell y ⟨movedUp (160 * y + 2 * x) cells, x₀, y₀⟩ x =
      ⟨movedUp (160 * y + 2 * (x + 1)) cells, x₀, y₀⟩ := by
  refine Screen.ext (funext fun off => ?_) rfl rfl
  change Function.update (Function.update (movedUp (160 * y + 2 * x) cells) (2 * (80 * y + x))
    (if y = 24 then space else movedUp (160 * y + 2 * x) cells (2 * (80 * (y + 1) + x))))
      (2 * (80 * y + x) + 1) attrib off = movedUp (160 * y + 2 * (x + 1)) cells off
  have hbelow : movedUp (160 * y + 2 * x) cells (2 * (80 * (y + 1) + x)) =
      cells (2 * (80 * y + x) + 160) := by
    rw [movedUp, if_pos (by omega)]
    congr 1
    omega
  rw [hbelow]
  by_cases h₁ : off = 2 * (80 * y + x) + 1
  · subst h₁
    rw [Function.update_self, movedUp, if_neg (by omega), if_pos (by omega)]
  rw [Function.update_of_ne h₁]
  by_cases h₂ : off = 2 * (80 * y + x)
  · subst h₂
    have hnext : ¬ 160 * y + 2 * (x + 1) ≤ 2 * (80 * y + x) := by omega
    have heven : ¬ 2 * (80 * y + x) % 2 = 1 := by omega
    rw [Function.update_self, movedUp, if_neg hnext, if_neg heven]
    by_cases hlast : y = 24
    · rw [if_pos hlast, if_neg (by omega)]
    · rw [if_neg hlast, if_pos (by omega)]
  · rw [Function.update_of_ne h₂, movedUp, movedUp]
    by_cases h₃ : 160 * y + 2 * x ≤ off
    · have h₄ : 160 * y + 2 * (x + 1) ≤ off := by omega
      rw [if_pos h₃, if_pos h₄]
    · have h₄ : ¬ 160 * y + 2 * (x + 1) ≤ off := by omega
      rw [if_neg h₃, if_neg h₄]

/-- The inner loop, up to column `n`. -/
theorem scrollRow_movedUp {y n : Nat} (hy : y < 25) (hn : n ≤ numCols) :
    (List.range n).foldl (screenConsole.scrollCell y) ⟨movedUp (160 * y) cells, x₀, y₀⟩ =
      ⟨movedUp (160 * y + 2 * n) cells, x₀, y₀⟩ := by
  induction n with
  | zero => rfl
  | succ n ih =>
    rw [List.range_succ, List.foldl_append, ih (Nat.le_of_succ_le hn)]
    exact scrollCell_movedUp hn hy

/-- The outer loop, up to row `m`. -/
theorem scrollRows_movedUp (s : Screen) {m : Nat} (hm : m ≤ 25) :
    (List.range m).foldl
        (fun s y => (List.range numCols).foldl (screenConsole.scrollCell y) s) s =
      ⟨movedUp (160 * m) s.cells, s.x, s.y⟩ := by
  induction m with
  | zero =>
    refine Screen.ext (funext fun off => ?_) rfl rfl
    change s.cells off = movedUp 0 s.cells off
    rw [movedUp, if_pos (Nat.zero_le off)]
  | succ m ih =>
    rw [List.range_succ, List.foldl_append, ih (Nat.le_of_succ_le hm), List.foldl_cons,
      List.foldl_nil, scrollRow_movedUp hm (Nat.le_refl numCols)]
    rfl

/-- **Scrolling** moves the rows up, and the cursor to the start of the last. -/
theorem screen_scroll (s : Screen) : screenConsole.scroll s = ⟨movedUp 4000 s.cells, 0, 24⟩ := by
  have h := scrollRows_movedUp s (Nat.le_refl 25)
  unfold Console.scroll
  dsimp only
  rw [show numRows = 25 from rfl, h]
  rfl

end Scroll

/-! ## One character -/

/-- The line below. -/
def lineDown (s : Screen) : Screen :=
  if s.y + 1 < 25 then { s with x := 0, y := s.y + 1 } else screenConsole.scroll s

/-- The characters that end a row. -/
def endsRow (c : UInt8) : Bool := c = newline || c = carriageReturn

section Putc

variable {s : Screen} {c : UInt8}

theorem scroll_cursor (x y : Nat) (s : Screen) :
    screenConsole.scroll { s with x := x, y := y } = screenConsole.scroll s := by
  rw [screen_scroll, screen_scroll]

theorem endsRow_iff : endsRow c = true ↔ c = newline ∨ c = carriageReturn := by
  simp [endsRow]

theorem putc_newline (hc : endsRow c = true) : screenConsole.putc c s = lineDown s := by
  unfold Console.putc
  rw [if_pos (endsRow_iff.1 hc)]
  change screenConsole.setX 0 (if ¬ s.y + 1 < 25 then
    screenConsole.scroll { s with x := s.x, y := s.y + 1 } else { s with y := s.y + 1 }) = _
  unfold lineDown
  by_cases hy : s.y + 1 < 25
  · rw [if_pos hy, if_neg (not_not.2 hy)]
    rfl
  · rw [if_neg hy, if_pos hy, scroll_cursor, screen_scroll]
    rfl

/-- The cell under the cursor. -/
def writeCell (c : UInt8) (s : Screen) : Screen := screenConsole.putCell (80 * s.y + s.x) c s

/-- After a character: to the next row if the cursor left the last column. -/
def advanceCursor (s : Screen) : Screen :=
  if ¬ s.x < 80 then
    if ¬ s.y + 1 < 25 then screenConsole.scroll { s with y := s.y + 1 }
    else { s with x := 0, y := s.y + 1 }
  else { s with x := s.x % 80 }

/-- The end of `putc`. -/
def settleCursor (s : Screen) : Screen :=
  if ¬ s.y < 25 then screenConsole.scroll s else { s with y := (s.y + s.x / 80) % 25 }

theorem putc_advanceCursor (hc : endsRow c = false) :
    screenConsole.putc c s = settleCursor (advanceCursor { writeCell c s with x := s.x + 1 }) := by
  have hc' : ¬ (c = newline ∨ c = carriageReturn) := fun h => by simp [endsRow_iff.2 h] at hc
  unfold Console.putc
  rw [if_neg hc']
  rfl

/-- The end of `putc` changes nothing: the cursor is on the screen already. -/
theorem settleCursor_eq (hx : s.x < 80) (hy : s.y < 25) : settleCursor s = s := by
  rw [settleCursor, if_neg (not_not.2 hy), Nat.div_eq_of_lt hx, Nat.add_zero, Nat.mod_eq_of_lt hy]

/-- A character before the last column. -/
theorem putc_char (hc : endsRow c = false) (hx : s.x + 1 < 80) (hy : s.y < 25) :
    screenConsole.putc c s = { writeCell c s with x := s.x + 1 } := by
  rw [putc_advanceCursor hc, advanceCursor, if_neg (not_not.2 hx), settleCursor_eq]
  · rw [Nat.mod_eq_of_lt hx]
  · exact Nat.mod_lt _ (by decide)
  · exact hy

/-- A character in the last column. -/
theorem putc_wrap (hc : endsRow c = false) (hx : s.x = 79) :
    screenConsole.putc c s = lineDown (writeCell c s) := by
  have hedge : ¬ s.x + 1 < 80 := by omega
  rw [putc_advanceCursor hc, advanceCursor, if_pos hedge, lineDown]
  dsimp only
  by_cases hy : (writeCell c s).y + 1 < 25
  · rw [if_neg (not_not.2 hy), if_pos hy, settleCursor_eq (Nat.succ_pos 79) hy]
  · rw [if_pos hy, if_neg hy, scroll_cursor, screen_scroll, settleCursor_eq (Nat.succ_pos 79)]
    exact Nat.lt_succ_self 24

end Putc

/-! ## The window of a page -/

/-- The character at row `y` and column `x`. -/
def Screen.chars (s : Screen) (y x : Nat) : UInt8 := s.cells (2 * (numCols * y + x))

/-- The page that starts with the rows of a screen and goes on with blank ones. -/
def Screen.page (s : Screen) : Page UInt8 where
  cells r x := if r < numRows then s.chars r x else space
  row := s.y
  col := s.x
  top := 0

/-- The screen shows the window of `p`, with the cursor in it. -/
structure Renders (s : Screen) (p : Page UInt8) : Prop where
  page : p.Ok numCols numRows space
  shown : Shows numCols numRows s.chars s.y s.x p

section Renders

variable {s : Screen} {p : Page UInt8} {c : UInt8}

theorem renders_page (h : s.InBounds) : Renders s s.page where
  page := by
    refine ⟨Nat.zero_le _, ?_, h.1, fun r x hr => ?_⟩
    · change s.y < 0 + numRows
      rw [Nat.zero_add]
      exact h.2
    · change 0 + numRows ≤ r at hr
      rw [Nat.zero_add] at hr
      exact if_neg (Nat.not_lt.2 hr)
  shown := by
    refine ⟨fun y hy x hx => ?_, Nat.zero_add _, rfl⟩
    change _ = if 0 + y < numRows then s.chars (0 + y) x else space
    rw [Nat.zero_add, if_pos hy]

theorem Renders.inBounds (h : Renders s p) : s.InBounds := by
  have hx : s.x = p.col := h.shown.col
  have hy := h.shown.row
  have hlt := h.page.row_lt
  refine ⟨?_, ?_⟩
  · change s.x < numCols
    rw [hx]
    exact h.page.col_lt
  · change s.y < numRows
    omega

/-- Cells of different places have different offsets. -/
theorem cell_inj {x y x' y' : Nat} (hx : x < 80) (hx' : x' < 80) :
    80 * y' + x' = 80 * y + x ↔ y' = y ∧ x' = x := by
  omega

theorem chars_writeCell (hx : s.x < 80) {y x : Nat} (hx' : x < 80) :
    (writeCell c s).chars y x = if y = s.y ∧ x = s.x then c else s.chars y x := by
  change Function.update (Function.update s.cells (2 * (80 * s.y + s.x)) c)
    (2 * (80 * s.y + s.x) + 1) attrib (2 * (80 * y + x)) = _
  rw [Function.update_of_ne (by omega)]
  by_cases hcell : y = s.y ∧ x = s.x
  · rw [if_pos hcell, hcell.1, hcell.2, Function.update_self]
  · have hne : 80 * y + x ≠ 80 * s.y + s.x := mt (cell_inj hx hx').1 hcell
    rw [if_neg hcell, Function.update_of_ne (by omega)]
    rfl

theorem chars_scroll {y x : Nat} (hy : y < 25) (hx : x < 80) :
    (screenConsole.scroll s).chars y x = if y + 1 < 25 then s.chars (y + 1) x else space := by
  rw [screen_scroll]
  change movedUp 4000 s.cells (2 * (80 * y + x)) = if _ then s.cells (2 * (80 * (y + 1) + x)) else _
  have hin : ¬ 4000 ≤ 2 * (80 * y + x) := by omega
  have heven : ¬ 2 * (80 * y + x) % 2 = 1 := by omega
  rw [movedUp, if_neg hin, if_neg heven]
  by_cases hlast : y + 1 < 25
  · rw [if_pos hlast, if_pos (by omega)]
    congr 1
    omega
  · rw [if_neg hlast, if_neg (by omega)]

theorem Renders.writeCell (h : Renders s p) (c : UInt8) :
    Renders (writeCell c s) (p.set c) where
  page := h.page.set c
  shown := h.shown.set c fun _ _ _ hx => chars_writeCell h.inBounds.1 hx

theorem Renders.lineDown (h : Renders s p) : Renders (lineDown s) (p.lineFeed numRows) := by
  refine ⟨h.page.lineFeed, ?_⟩
  unfold Kernel391.lineDown
  by_cases hy : s.y + 1 < 25
  · rw [if_pos hy]
    exact h.shown.down hy
  · have hy' : s.y < 25 := h.inBounds.2
    have hlast : s.y = 24 := by omega
    rw [if_neg hy]
    have hup : Shows numCols numRows (screenConsole.scroll s).chars s.y 0
        (p.lineFeed numRows) :=
      h.shown.scroll h.page (congrArg (· + 1) hlast) fun y hy x hx => chars_scroll hy hx
    rw [hlast] at hup
    rw [screen_scroll] at hup ⊢
    exact hup

/-- **A character** on the screen is the character on the page. -/
theorem Renders.putc (h : Renders s p) (c : UInt8) :
    Renders (screenConsole.putc c s) (p.print numCols numRows endsRow c) := by
  unfold Page.print
  cases hc : endsRow c with
  | true =>
    rw [if_pos rfl, putc_newline hc]
    exact h.lineDown
  | false =>
    rw [if_neg Bool.false_ne_true, Page.put, ← h.shown.col]
    by_cases hx : s.x + 1 < numCols
    · rw [if_pos hx, putc_char hc hx h.inBounds.2]
      obtain ⟨hpage, hshown⟩ := h.writeCell c
      exact ⟨⟨hpage.top_le, hpage.row_lt, hx, hpage.below⟩, hshown.cells, hshown.row, rfl⟩
    · have hlt : s.x < 80 := h.inBounds.1
      have hge : ¬ s.x + 1 < 80 := hx
      rw [if_neg hx, putc_wrap hc (by omega)]
      exact (h.writeCell c).lineDown

/-- **A string** of any length. -/
theorem Renders.puts (h : Renders s p) (l : List UInt8) :
    Renders (screenConsole.puts l s) (p.prints numCols numRows endsRow l) := by
  induction l generalizing s p with
  | nil => exact h
  | cons c l ih => exact ih (h.putc c)

/-- Where a backspace takes the cursor. -/
def stepBack (s : Screen) : Screen :=
  if s.x ≠ 0 then { s with x := s.x - 1 }
  else if s.y ≠ 0 then { s with x := 79, y := s.y - 1 }
  else s

theorem handlebackspace_eq (s : Screen) :
    screenConsole.handlebackspace s = Kernel391.writeCell space (stepBack s) := by
  unfold Console.handlebackspace
  suffices h : (if (screenConsole.getX s : Int) - 1 < 0 then
      if screenConsole.getY s ≠ 0 then
        screenConsole.setX (numCols - 1) (screenConsole.setY (screenConsole.getY s - 1) s)
      else s
    else screenConsole.setX (screenConsole.getX s - 1) s) = stepBack s by
    dsimp only
    rw [h]
    rfl
  unfold stepBack
  by_cases hx : s.x = 0
  · have hneg : (screenConsole.getX s : Int) - 1 < 0 := by
      change (s.x : Int) - 1 < 0
      omega
    rw [if_pos hneg, if_neg (not_not.2 hx)]
    rfl
  · have hpos : ¬ (screenConsole.getX s : Int) - 1 < 0 := by
      change ¬ (s.x : Int) - 1 < 0
      omega
    rw [if_neg hpos, if_pos hx]
    rfl

theorem Renders.stepBack (h : Renders s p) : Renders (stepBack s) (p.retreat numCols) := by
  refine ⟨h.page.retreat, ?_⟩
  have hrow := h.shown.row
  unfold Kernel391.stepBack Page.retreat
  rw [← h.shown.col]
  by_cases hx : s.x = 0
  · rw [if_neg (not_not.2 hx), if_neg (not_not.2 hx)]
    by_cases hy : s.y = 0
    · have htop : ¬ p.top < p.row := by omega
      rw [if_neg (not_not.2 hy), if_neg htop]
      exact h.shown
    · have htop : p.top < p.row := by omega
      rw [if_pos hy, if_pos htop]
      refine ⟨h.shown.cells, ?_, rfl⟩
      change p.top + (s.y - 1) = p.row - 1
      omega
  · rw [if_pos hx, if_pos hx]
    exact ⟨h.shown.cells, h.shown.row, rfl⟩

/-- **Backspace** on the screen is erasing on the page. -/
theorem Renders.handlebackspace (h : Renders s p) :
    Renders (screenConsole.handlebackspace s) (p.back numCols space) := by
  rw [handlebackspace_eq]
  exact h.stepBack.writeCell space

end Renders

/-! ## The functions of the kernel -/

/-- `k'` is `k` after the text `l` was printed on the page `a` with the cursor of terminal `t`. -/
structure Printed (a : Nat) (t : TermId) (l : List UInt8) (k k' : Kernel) : Prop where
  renders : Renders (viewOf a t k') ((viewOf a t k).page.prints numCols numRows endsRow l)
  cursor : (viewOf a t k').x < numCols ∧ (viewOf a t k').y < numRows
  inside : ∀ b, b < a ∨ a + 2 * (numRows * numCols) ≤ b → k'.phys b = k.phys b
  others : ∀ u, u ≠ t → (k'.terminals u).screenX = (k.terminals u).screenX ∧
    (k'.terminals u).screenY = (k.terminals u).screenY

section Print

variable {C : Console Kernel} {P : Kernel → Prop} {a : Nat} {t : TermId} {k : Kernel}

/-- The console stays within the cells of its text. -/
theorem sim_inside (s₀ : Screen) : screenConsole.Sim screenConsole (· < 4000)
    (fun s s' => s = s' ∧ ∀ off, 4000 ≤ off → s.cells off = s₀.cells off) where
  screen i hi := hi
  load := by
    rintro s _ ⟨rfl, -⟩ i -
    rfl
  store := by
    rintro s _ ⟨rfl, hs⟩ i hi c
    refine ⟨rfl, fun off hoff => ?_⟩
    exact (Function.update_of_ne (by omega) _ _).trans (hs off hoff)
  getX := by
    rintro s _ ⟨rfl, -⟩
    rfl
  getY := by
    rintro s _ ⟨rfl, -⟩
    rfl
  setX := by
    rintro s _ ⟨rfl, hs⟩ x
    exact ⟨rfl, hs⟩
  setY := by
    rintro s _ ⟨rfl, hs⟩ y
    exact ⟨rfl, hs⟩

theorem puts_inside (l : List UInt8) {s : Screen} (hs : s.InBounds) {off : Nat}
    (hoff : 4000 ≤ off) : (screenConsole.puts l s).cells off = s.cells off :=
  ((sim_inside s).puts lawful_screen l (.inl hs) ⟨rfl, fun _ _ => rfl⟩).2 off hoff

/-- A console that prints on a page with the cursor of a terminal. -/
theorem printed_puts (hC : UsesCursor C P t) (hm : MapsTo k a) (ha : TextPage a)
    (hP : ∀ k', SameButScreen k k' → P k') (hin : (viewOf a t k).InBounds) (l : List UInt8) :
    Printed a t l k (C.puts l k) := by
  obtain ⟨hpage, hview⟩ := (sim_page hC hm ha hP).puts lawful_screen l (.inl hin)
    ⟨OnPage.refl a t k, rfl⟩
  have hrenders := (renders_page hin).puts l
  rw [hview] at hrenders
  refine ⟨hrenders, hrenders.inBounds, fun b hb => ?_, fun u hu => ⟨?_, ?_⟩⟩
  · by_cases hout : b < a ∨ a + 4096 ≤ b
    · exact hpage.phys b hout
    · -- the rest of the page, past the last cell
      have hb : 4000 ≤ b - a := by
        simp only [numRows, numCols] at hb
        omega
      have hlt : b - a < 4096 := by omega
      have hcells := puts_inside l hin hb
      rwa [hview, viewOf_cells hlt, viewOf_cells hlt, show a + (b - a) = b by omega] at hcells
  · exact hpage.cursorX u hu
  · exact hpage.cursorY u hu

/-- The two copies of the console code, when their cursors are one. -/
theorem sim_copies : currentConsole.Sim globalConsole (fun _ => True)
    (fun k k' => k = k' ∧ k.currentTerm = k.visableTerm) where
  screen _ _ := trivial
  load := by
    rintro k _ ⟨rfl, -⟩ i -
    rfl
  store := by
    rintro k _ ⟨rfl, hk⟩ i - c
    have hs := SameButScreen.store8 (video + i) c k
    refine ⟨rfl, ?_⟩
    change (k.store8 (video + i) c).currentTerm = (k.store8 (video + i) c).visableTerm
    rw [hs.currentTerm_eq, hs.visableTerm_eq]
    exact hk
  getX := by
    rintro k _ ⟨rfl, hk⟩
    change (k.terminals k.currentTerm).screenX = (k.terminals k.visableTerm).screenX
    rw [hk]
  getY := by
    rintro k _ ⟨rfl, hk⟩
    change (k.terminals k.currentTerm).screenY = (k.terminals k.visableTerm).screenY
    rw [hk]
  setX := by
    rintro k _ ⟨rfl, hk⟩ x
    refine ⟨?_, hk⟩
    change k.setScreenX k.currentTerm x = k.setScreenX k.visableTerm x
    rw [hk]
  setY := by
    rintro k _ ⟨rfl, hk⟩ y
    refine ⟨?_, hk⟩
    change k.setScreenY k.currentTerm y = k.setScreenY k.visableTerm y
    rw [hk]

/-- **Rendering.** Whatever text page `video_mem` is mapped to, whatever it holds and wherever the
cursor is, `putc` with the cursor of the visible terminal and `terminal_write` with that of the
current one leave the window of the page without end on the screen and their cursor in it, and
write no byte outside its cells. When both terminals are one, the two do the same. -/
theorem console_renders (hm : MapsTo k a) (ha : TextPage a) (l : List UInt8) :
    ((viewOf a k.visableTerm k).InBounds →
      Printed a k.visableTerm l k (l.foldl (fun k c => putc c k) k)) ∧
    ((viewOf a k.currentTerm k).InBounds →
      Printed a k.currentTerm l k (l.foldl (fun k c => putcModified c k) k)) ∧
    (∀ buf nbytes, slice buf 0 nbytes.toNat = l →
      (terminalWrite buf nbytes k).2 = l.foldl (fun k c => putcModified c k) k) ∧
    (k.currentTerm = k.visableTerm →
      l.foldl (fun k c => putcModified c k) k = l.foldl (fun k c => putc c k) k) := by
  refine ⟨fun hin => ?_, fun hin => ?_, ?_, fun hk => ?_⟩
  · exact printed_puts (usesCursor_global k.visableTerm) hm ha (fun _ h => h.visableTerm_eq) hin l
  · exact printed_puts (usesCursor_current k.currentTerm) hm ha (fun _ h => h.currentTerm_eq) hin l
  · rintro buf nbytes rfl
    rfl
  · exact (sim_copies.puts lawful_global l (.inr fun _ => trivial) ⟨rfl, hk⟩).1

/-- The first line of boot, on an arbitrary screen. -/
theorem console_renders_boot : Printed vidStartAddr 0 (chars "Printing in pit") (bootState default)
    ((chars "Printing in pit").foldl (fun k c => putc c k) (bootState default)) :=
  (console_renders (k := bootState default) (a := vidStartAddr)
    ⟨⟨_, pagingOk_changeProcess (pagingOk_boot _) 1⟩, rfl⟩ (.inl rfl) _).1
    ⟨Nat.succ_pos 79, Nat.succ_pos 24⟩

end Print

end Kernel391

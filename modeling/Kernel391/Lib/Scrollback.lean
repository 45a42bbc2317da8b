import Mathlib.Logic.Function.Basic

/-!
# Text on a page without end

Rows of `cols` cells without end, a cursor on them, and a window of `rows` rows of which `top` is
the first. A character goes to the cursor, which moves on, at the right edge to the next row; the
window moves down one row whenever the cursor would leave it.

* `Page.Ok` — the cursor is in the window, and the rows below it are blank.
* `Shows` — what a screen of the size of the window shows of a page. Its lemmas say what becomes
  of a screen that keeps showing one: nothing is lost by keeping only the window.
* `Holds` — a text ends at the cursor, in row-major order. Typing extends it and erasing takes its
  last character away, wherever rows end and however often the window moves.
-/

namespace Scrollback

/-- A page, its cursor, and the first row of the window. -/
structure Page (α : Type*) where
  cells : Nat → Nat → α
  row : Nat
  col : Nat
  top : Nat

namespace Page

variable {α : Type*} (cols rows : Nat) (blank : α)

/-- Write the cell under the cursor. -/
def set (c : α) (p : Page α) : Page α :=
  { p with cells := Function.update p.cells p.row (Function.update (p.cells p.row) p.col c) }

/-- Move to the next row. -/
def lineFeed (p : Page α) : Page α :=
  { p with
    row := p.row + 1
    col := 0
    top := if p.row + 1 < p.top + rows then p.top else p.top + 1 }

/-- A character. -/
def put (c : α) (p : Page α) : Page α :=
  if p.col + 1 < cols then { p.set c with col := p.col + 1 } else (p.set c).lineFeed rows

/-- A character that may end the row. -/
def print (ends : α → Bool) (c : α) (p : Page α) : Page α :=
  if ends c then p.lineFeed rows else p.put cols rows c

/-- A text. -/
def prints (ends : α → Bool) (l : List α) (p : Page α) : Page α :=
  l.foldl (fun p c => p.print cols rows ends c) p

/-- Where erasing takes the cursor: one cell back, but not out of the window. -/
def retreat (p : Page α) : Page α :=
  if p.col ≠ 0 then { p with col := p.col - 1 }
  else if p.top < p.row then { p with row := p.row - 1, col := cols - 1 }
  else p

/-- Erase the cell before the cursor. -/
def back (p : Page α) : Page α := (p.retreat cols).set blank

/-! ## The window -/

/-- The cursor is in the window, and nothing is written below it. -/
structure Ok (p : Page α) : Prop where
  top_le : p.top ≤ p.row
  row_lt : p.row < p.top + rows
  col_lt : p.col < cols
  below : ∀ r x, p.top + rows ≤ r → p.cells r x = blank

section Ok

variable {cols rows : Nat} {blank : α} {p : Page α}

theorem Ok.set (h : p.Ok cols rows blank) (c : α) : (p.set c).Ok cols rows blank where
  top_le := h.top_le
  row_lt := h.row_lt
  col_lt := h.col_lt
  below r x hr := by
    have hne : r ≠ p.row := Nat.ne_of_gt (Nat.lt_of_lt_of_le h.row_lt hr)
    exact (congrFun (Function.update_of_ne hne _ _) x).trans (h.below r x hr)

theorem Ok.lineFeed (h : p.Ok cols rows blank) : (p.lineFeed rows).Ok cols rows blank := by
  obtain ⟨htop, hrow, hcol, hbelow⟩ := h
  have hcols : 0 < cols := Nat.lt_of_le_of_lt (Nat.zero_le _) hcol
  unfold Page.lineFeed
  split
  · exact ⟨Nat.le_succ_of_le htop, ‹_›, hcols, hbelow⟩
  · refine ⟨Nat.succ_le_succ htop, ?_, hcols, fun r x hr => hbelow r x ?_⟩
    · change p.row + 1 < p.top + 1 + rows
      omega
    · change p.top + 1 + rows ≤ r at hr
      omega

theorem Ok.put (h : p.Ok cols rows blank) (c : α) : (p.put cols rows c).Ok cols rows blank := by
  unfold Page.put
  split
  · exact ⟨h.top_le, h.row_lt, ‹_›, (h.set c).below⟩
  · exact (h.set c).lineFeed

theorem Ok.print (h : p.Ok cols rows blank) (ends : α → Bool) (c : α) :
    (p.print cols rows ends c).Ok cols rows blank := by
  unfold Page.print
  split
  · exact h.lineFeed
  · exact h.put c

theorem Ok.retreat (h : p.Ok cols rows blank) : (p.retreat cols).Ok cols rows blank := by
  obtain ⟨htop, hrow, hcol, hbelow⟩ := h
  unfold Page.retreat
  split
  · exact ⟨htop, hrow, by dsimp only; omega, hbelow⟩
  split
  · exact ⟨by dsimp only; omega, by dsimp only; omega, by dsimp only; omega, hbelow⟩
  · exact ⟨htop, hrow, hcol, hbelow⟩

theorem Ok.back (h : p.Ok cols rows blank) : (p.back cols blank).Ok cols rows blank :=
  h.retreat.set blank

end Ok

end Page

/-- A screen that shows `w`, with the cursor at row `y` and column `x`, shows the window of `p`. -/
structure Shows {α : Type*} (cols rows : Nat) (w : Nat → Nat → α) (y x : Nat) (p : Page α) :
    Prop where
  cells : ∀ y' < rows, ∀ x' < cols, w y' x' = p.cells (p.top + y') x'
  row : p.top + y = p.row
  col : x = p.col

namespace Shows

variable {α : Type*} {cols rows : Nat} {blank : α} {w w' : Nat → Nat → α} {y x : Nat} {p : Page α}

/-- Writing the cell under the cursor. -/
theorem set (h : Shows cols rows w y x p) (c : α)
    (hw : ∀ y' < rows, ∀ x' < cols, w' y' x' = if y' = y ∧ x' = x then c else w y' x') :
    Shows cols rows w' y x (p.set c) := by
  refine ⟨fun y' hy x' hx => ?_, h.row, h.col⟩
  change _ = Function.update p.cells p.row _ (p.top + y') x'
  rw [hw y' hy x' hx]
  by_cases hrow : y' = y
  · subst hrow
    rw [h.row, Function.update_self]
    by_cases hcol : x' = x
    · rw [if_pos ⟨rfl, hcol⟩, hcol, h.col, Function.update_self]
    · rw [if_neg fun hc => hcol hc.2, Function.update_of_ne (h.col ▸ hcol), h.cells y' hy x' hx,
        h.row]
  · have hne : p.top + y' ≠ p.row := by
      rw [← h.row]
      omega
    rw [if_neg fun hc => hrow hc.1, Function.update_of_ne hne, h.cells y' hy x' hx]

/-- The next row of the window. -/
theorem down (h : Shows cols rows w y x p) (hy : y + 1 < rows) :
    Shows cols rows w (y + 1) 0 (p.lineFeed rows) := by
  have hlt : p.row + 1 < p.top + rows := by
    rw [← h.row]
    omega
  unfold Page.lineFeed
  rw [if_pos hlt]
  exact ⟨h.cells, by rw [← h.row, Nat.add_assoc], rfl⟩

/-- Below the last row: the screen moves up by one. -/
theorem scroll (h : Shows cols rows w y x p) (hp : p.Ok cols rows blank) (hy : y + 1 = rows)
    (hw : ∀ y' < rows, ∀ x' < cols, w' y' x' = if y' + 1 < rows then w (y' + 1) x' else blank) :
    Shows cols rows w' y 0 (p.lineFeed rows) := by
  have hnot : ¬ p.row + 1 < p.top + rows := by
    rw [← h.row]
    omega
  unfold Page.lineFeed
  rw [if_neg hnot]
  refine ⟨fun y' hy' x' hx => ?_, ?_, rfl⟩
  · change _ = p.cells (p.top + 1 + y') x'
    rw [hw y' hy' x' hx]
    by_cases hlast : y' + 1 < rows
    · rw [if_pos hlast, h.cells _ hlast _ hx, Nat.add_assoc, Nat.add_comm 1 y']
    · rw [if_neg hlast, hp.below]
      omega
  · change p.top + 1 + y = p.row + 1
    rw [← h.row]
    omega

end Shows

/-! ## Row-major order -/

namespace Page

variable {α : Type*} {cols rows : Nat} {blank : α} {p : Page α} {i : Nat}

/-- The place of the cursor. -/
def pos (cols : Nat) (p : Page α) : Nat := cols * p.row + p.col

/-- The cell at place `i`. -/
def cell (cols : Nat) (p : Page α) (i : Nat) : α := p.cells (i / cols) (i % cols)

theorem pos_div (h : p.col < cols) : p.pos cols / cols = p.row := by
  have hcols : 0 < cols := Nat.lt_of_le_of_lt (Nat.zero_le _) h
  rw [pos, Nat.mul_add_div hcols, Nat.div_eq_of_lt h, Nat.add_zero]

theorem pos_mod (h : p.col < cols) : p.pos cols % cols = p.col := by
  rw [pos, Nat.mul_add_mod, Nat.mod_eq_of_lt h]

theorem cell_set (h : p.col < cols) (c : α) (i : Nat) :
    (p.set c).cell cols i = if i = p.pos cols then c else p.cell cols i := by
  change Function.update p.cells p.row (Function.update (p.cells p.row) p.col c)
    (i / cols) (i % cols) = _
  by_cases hi : i = p.pos cols
  · rw [if_pos hi, hi, pos_div h, pos_mod h, Function.update_self, Function.update_self]
  · rw [if_neg hi]
    by_cases hrow : i / cols = p.row
    · have hcol : i % cols ≠ p.col := by
        intro hcol
        have := Nat.div_add_mod i cols
        rw [hrow, hcol] at this
        exact hi this.symm
      rw [hrow, Function.update_self, Function.update_of_ne hcol, cell, hrow]
    · rw [Function.update_of_ne hrow]
      rfl

theorem pos_lineFeed (p : Page α) : (p.lineFeed rows).pos cols = cols * p.row + cols := by
  rw [pos, lineFeed, Nat.mul_succ]
  rfl

/-- A character goes to the place of the cursor. -/
theorem cell_put (h : p.col < cols) (c : α) (i : Nat) :
    (p.put cols rows c).cell cols i = if i = p.pos cols then c else p.cell cols i := by
  rw [← cell_set h]
  unfold put
  split <;> rfl

/-- A character moves the cursor one place on, over the end of the row too. -/
theorem pos_put (h : p.col < cols) (c : α) : (p.put cols rows c).pos cols = p.pos cols + 1 := by
  unfold put
  split
  · rfl
  · rw [pos_lineFeed]
    change cols * p.row + cols = cols * p.row + p.col + 1
    omega

theorem cell_retreat (p : Page α) (i : Nat) : (p.retreat cols).cell cols i = p.cell cols i := by
  unfold retreat
  split
  · rfl
  · split <;> rfl

theorem top_retreat (p : Page α) : (p.retreat cols).top = p.top := by
  unfold retreat
  split
  · rfl
  · split <;> rfl

/-- Erasing moves the cursor one place back, if that is in the window. -/
theorem pos_retreat (h : p.Ok cols rows blank) (hpos : cols * p.top < p.pos cols) :
    (p.retreat cols).pos cols + 1 = p.pos cols := by
  unfold retreat
  by_cases hcol : p.col = 0
  · have htop : p.top < p.row := by
      rw [pos, hcol, Nat.add_zero] at hpos
      exact Nat.lt_of_mul_lt_mul_left hpos
    obtain ⟨r, hr⟩ : ∃ r, p.row = r + 1 := ⟨p.row - 1, by omega⟩
    have hcols := h.col_lt
    rw [if_neg (not_not.2 hcol), if_pos htop, pos, pos, hcol, hr, Nat.mul_succ]
    change cols * (r + 1 - 1) + (cols - 1) + 1 = cols * r + cols + 0
    rw [Nat.add_sub_cancel]
    omega
  · rw [if_pos hcol, pos, pos]
    dsimp only
    omega

theorem pos_back (h : p.Ok cols rows blank) (hpos : cols * p.top < p.pos cols) :
    (p.back cols blank).pos cols + 1 = p.pos cols :=
  pos_retreat h hpos

/-- Erasing blanks the cell before the cursor and no other. -/
theorem cell_back (h : p.Ok cols rows blank) (hpos : cols * p.top < p.pos cols) (i : Nat) :
    (p.back cols blank).cell cols i = if i + 1 = p.pos cols then blank else p.cell cols i := by
  rw [back, cell_set h.retreat.col_lt, cell_retreat, ← pos_retreat h hpos]
  simp only [Nat.add_right_cancel_iff]

end Page

/-! ## A text before the cursor -/

/-- The text that ends at the cursor, and starts at the place `start` of the window. -/
structure Holds {α : Type*} (cols : Nat) (p : Page α) (start : Nat) (text : List α) : Prop where
  pos : p.pos cols = start + text.length
  top : cols * p.top ≤ start
  cells : ∀ (i : Nat) (h : i < text.length), p.cell cols (start + i) = text[i]

namespace Holds

variable {α : Type*} {cols rows : Nat} {blank : α} {p : Page α} {start : Nat} {text : List α}

/-- An empty text. -/
theorem nil (h : p.Ok cols rows blank) : Holds cols p (p.pos cols) [] where
  pos := rfl
  top := Nat.le_trans (Nat.mul_le_mul_left cols h.top_le) (Nat.le_add_right _ _)
  cells _ h := absurd h (Nat.not_lt_zero _)

/-- The window does not leave a text behind that is one row shorter. -/
theorem top_put (h : Holds cols p start text) (hp : p.Ok cols rows blank)
    (hroom : text.length + 1 ≤ cols * (rows - 1)) (c : α) :
    cols * (p.put cols rows c).top ≤ start := by
  unfold Page.put
  split
  · exact h.top
  · rename_i hcol
    unfold Page.lineFeed
    change cols * (if p.row + 1 < p.top + rows then p.top else p.top + 1) ≤ start
    split
    · exact h.top
    · have hrow : p.row + 1 = p.top + 1 + (rows - 1) := by
        have := hp.row_lt
        have := hp.top_le
        omega
      have hpos := h.pos
      have hlt := hp.col_lt
      have hsucc : cols * (p.row + 1) = cols * (p.top + 1) + cols * (rows - 1) := by
        rw [hrow, Nat.mul_add]
      rw [Page.pos] at hpos
      rw [Nat.mul_succ] at hsucc
      omega

/-- **Typing** a character. -/
theorem put (h : Holds cols p start text) (hp : p.Ok cols rows blank)
    (hroom : text.length + 1 ≤ cols * (rows - 1)) (c : α) :
    Holds cols (p.put cols rows c) start (text ++ [c]) := by
  refine ⟨?_, h.top_put hp hroom c, fun i hi => ?_⟩
  · rw [Page.pos_put hp.col_lt, h.pos, List.length_append, List.length_singleton, Nat.add_assoc]
  · rw [Page.cell_put hp.col_lt, h.pos]
    rw [List.length_append, List.length_singleton] at hi
    by_cases hlast : i = text.length
    · subst hlast
      rw [if_pos rfl, List.getElem_concat_length rfl]
    · have hlt : i < text.length := by omega
      rw [if_neg (by omega), h.cells i hlt, List.getElem_append_left hlt]

theorem lt_pos (h : Holds cols p start text) (hne : text ≠ []) : start < p.pos cols := by
  have := List.length_pos_iff.2 hne
  have := h.pos
  omega

/-- **Erasing** the last character. -/
theorem back (h : Holds cols p start text) (hp : p.Ok cols rows blank) (hne : text ≠ []) :
    Holds cols (p.back cols blank) start text.dropLast := by
  have hlen := List.length_pos_iff.2 hne
  have hpos := h.pos
  have hin : cols * p.top < p.pos cols := Nat.lt_of_le_of_lt h.top (h.lt_pos hne)
  have hback := Page.pos_back hp hin
  refine ⟨?_, ?_, fun i hi => ?_⟩
  · rw [List.length_dropLast]
    omega
  · change cols * (p.retreat cols).top ≤ start
    rw [Page.top_retreat]
    exact h.top
  · rw [List.length_dropLast] at hi
    rw [Page.cell_back hp hin, if_neg (by omega), h.cells i (by omega), List.getElem_dropLast]

end Holds

end Scrollback

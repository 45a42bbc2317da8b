import Kernel391.ConsoleProof

/-!
# Two consoles in step

Two consoles whose accessors correspond draw the same text (`Console.Sim`). The correspondence
may be limited to the offsets `ok` of the screen; a cursor within the screen
(`Console.InBounds`) never leaves them, because the console code keeps it there.

* `Lawful.putc_inBounds` — no character moves the cursor off the screen.
* `Sim.putc`, `Sim.puts`, `Sim.clear`, `Sim.handlebackspace` — the console functions keep the
  correspondence.
-/

namespace Kernel391

namespace Console

variable {σ τ : Type*}

/-! ## The cursor stays on the screen -/

/-- The cursor is two cells of its own, which storing a character leaves alone. -/
structure Lawful (C : Console σ) : Prop where
  getX_setX : ∀ x s, C.getX (C.setX x s) = x
  getY_setX : ∀ x s, C.getY (C.setX x s) = C.getY s
  getX_setY : ∀ y s, C.getX (C.setY y s) = C.getX s
  getY_setY : ∀ y s, C.getY (C.setY y s) = y
  getX_store : ∀ i c s, C.getX (C.store i c s) = C.getX s
  getY_store : ∀ i c s, C.getY (C.store i c s) = C.getY s

/-- The cursor is on the screen. -/
def InBounds (C : Console σ) (s : σ) : Prop := C.getX s < numCols ∧ C.getY s < numRows

namespace Lawful

variable {C : Console σ} {s : σ}

theorem getX_putCell (h : C.Lawful) (i : Nat) (c : UInt8) (s : σ) :
    C.getX (C.putCell i c s) = C.getX s := by
  rw [putCell, h.getX_store, h.getX_store]

theorem getY_putCell (h : C.Lawful) (i : Nat) (c : UInt8) (s : σ) :
    C.getY (C.putCell i c s) = C.getY s := by
  rw [putCell, h.getY_store, h.getY_store]

theorem scroll_inBounds (h : C.Lawful) (s : σ) : C.InBounds (C.scroll s) := by
  rw [InBounds, scroll, h.getX_setX, h.getY_setX, h.getY_setY]
  exact ⟨by decide, by decide⟩

theorem ite_inBounds {p : Prop} [Decidable p] {a b : σ} (ha : p → C.InBounds a)
    (hb : ¬ p → C.InBounds b) : C.InBounds (if p then a else b) := by
  split
  · exact ha ‹_›
  · exact hb ‹_›

/-- **A character keeps the cursor on the screen.** -/
theorem putc_inBounds (h : C.Lawful) (c : UInt8) (hs : C.InBounds s) :
    C.InBounds (C.putc c s) := by
  have hx : C.getX s < 80 := hs.1
  have hy : C.getY s < 25 := hs.2
  -- the end of the function, in a state whose cursor is on the screen already
  have last {s : σ} (hs : C.InBounds s) : C.InBounds
      (if ¬ C.getY s < numRows then C.scroll s
        else C.setY ((C.getY s + C.getX s / numCols) % numRows) s) := by
    refine ite_inBounds (fun _ => h.scroll_inBounds s) fun _ => ?_
    rw [InBounds, h.getX_setY, h.getY_setY]
    exact ⟨hs.1, Nat.mod_lt _ (by decide)⟩
  refine ite_inBounds (fun _ => ?_) fun _ => last (ite_inBounds (fun _ => ?_) fun hlt => ?_)
  · dsimp only
    rw [InBounds, h.getX_setX, h.getY_setX]
    refine ⟨by decide, ?_⟩
    split
    · exact (h.scroll_inBounds _).2
    · exact not_not.1 ‹_›
  · refine ite_inBounds (fun _ => h.scroll_inBounds _) fun hlt => ?_
    rw [InBounds, h.getX_setX, h.getY_setX]
    exact ⟨by decide, not_not.1 hlt⟩
  · rw [InBounds, h.getX_setX, h.getY_setX, h.getY_setX, h.getY_putCell]
    exact ⟨Nat.mod_lt _ (by decide), hs.2⟩

theorem foldl_inBounds {α : Type*} {f : σ → α → σ}
    (hf : ∀ s a, C.InBounds s → C.InBounds (f s a)) (l : List α) (hs : C.InBounds s) :
    C.InBounds (l.foldl f s) := by
  induction l generalizing s with
  | nil => exact hs
  | cons a l ih => exact ih (hf _ _ hs)

theorem puts_inBounds (h : C.Lawful) (l : List UInt8) (hs : C.InBounds s) :
    C.InBounds (C.puts l s) :=
  foldl_inBounds (fun _ c hs => h.putc_inBounds c hs) l hs

theorem putCell_inBounds (h : C.Lawful) (i : Nat) (c : UInt8) (hs : C.InBounds s) :
    C.InBounds (C.putCell i c s) := by
  rw [InBounds, h.getX_putCell, h.getY_putCell]
  exact hs

theorem clear_inBounds (h : C.Lawful) (hs : C.InBounds s) : C.InBounds (C.clear s) :=
  foldl_inBounds (fun _ _ hs => h.putCell_inBounds _ _ hs) _ hs

/-- Where the cursor goes for a backspace. -/
theorem backspace_inBounds (h : C.Lawful) (hs : C.InBounds s) : C.InBounds
    (if (C.getX s : Int) - 1 < 0 then
      if C.getY s ≠ 0 then C.setX (numCols - 1) (C.setY (C.getY s - 1) s) else s
    else C.setX (C.getX s - 1) s) := by
  have hx : C.getX s < 80 := hs.1
  have hy : C.getY s < 25 := hs.2
  refine ite_inBounds (fun _ => ite_inBounds (fun _ => ?_) fun _ => hs) fun _ => ?_
  · rw [InBounds, h.getX_setX, h.getY_setX, h.getY_setY, numRows]
    exact ⟨by decide, by omega⟩
  · rw [InBounds, h.getX_setX, h.getY_setX, numCols]
    exact ⟨by omega, hs.2⟩

theorem handlebackspace_inBounds (h : C.Lawful) (hs : C.InBounds s) :
    C.InBounds (C.handlebackspace s) :=
  h.putCell_inBounds _ _ (h.backspace_inBounds hs)

end Lawful

/-! ## Corresponding accessors -/

/-- The accessors of `C` and `D` correspond in states related by `R`, at the offsets `ok`, which
cover the screen. -/
structure Sim (C : Console σ) (D : Console τ) (ok : Nat → Prop) (R : σ → τ → Prop) : Prop where
  screen : ∀ i < 2 * (numCols * numRows), ok i
  load : ∀ {s t}, R s t → ∀ i, ok i → C.load s i = D.load t i
  store : ∀ {s t}, R s t → ∀ i, ok i → ∀ c, R (C.store i c s) (D.store i c t)
  getX : ∀ {s t}, R s t → C.getX s = D.getX t
  getY : ∀ {s t}, R s t → C.getY s = D.getY t
  setX : ∀ {s t}, R s t → ∀ x, R (C.setX x s) (D.setX x t)
  setY : ∀ {s t}, R s t → ∀ y, R (C.setY y s) (D.setY y t)

/-- Whatever the cursor of `t` points at is one of the offsets `ok`. -/
def Reaches (D : Console τ) (ok : Nat → Prop) (t : τ) : Prop := D.InBounds t ∨ ∀ i, ok i

namespace Sim

variable {C : Console σ} {D : Console τ} {ok : Nat → Prop} {R : σ → τ → Prop} {s : σ} {t : τ}

theorem putCell (h : C.Sim D ok R) (hr : R s t) {i : Nat} (h₁ : ok (2 * i)) (h₂ : ok (2 * i + 1))
    (c : UInt8) : R (C.putCell i c s) (D.putCell i c t) :=
  h.store (h.store hr _ h₁ c) _ h₂ attrib

theorem foldl {α : Type*} {f : σ → α → σ} {g : τ → α → τ} {l : List α}
    (hf : ∀ a ∈ l, ∀ s t, R s t → R (f s a) (g t a)) (hr : R s t) :
    R (l.foldl f s) (l.foldl g t) := by
  induction l generalizing s t with
  | nil => exact hr
  | cons a l ih =>
    exact ih (fun b hb => hf b (List.mem_cons_of_mem a hb)) (hf a (List.mem_cons_self ..) s t hr)

theorem ite {p q : Prop} [Decidable p] [Decidable q] (hpq : p ↔ q) {s s' : σ} {t t' : τ}
    (h₁ : q → R s t) (h₂ : ¬ q → R s' t') : R (if p then s else s') (if q then t else t') := by
  by_cases hq : q
  · rw [if_pos (hpq.2 hq), if_pos hq]
    exact h₁ hq
  · rw [if_neg (mt hpq.1 hq), if_neg hq]
    exact h₂ hq

/-- A cell of the screen. -/
theorem cell_ok (h : C.Sim D ok R) {i : Nat} (hi : i < numCols * numRows) :
    ok (2 * i) ∧ ok (2 * i + 1) :=
  ⟨h.screen _ (by omega), h.screen _ (by omega)⟩

theorem scrollCell (h : C.Sim D ok R) {x y : Nat} (hx : x < numCols) (hy : y < numRows)
    (hr : R s t) : R (C.scrollCell y s x) (D.scrollCell y t x) := by
  have hx' : x < 80 := hx
  have hy' : y < 25 := hy
  obtain ⟨h₁, h₂⟩ := h.cell_ok (i := numCols * y + x) (by simp only [numCols, numRows]; omega)
  unfold Console.scrollCell
  dsimp only
  by_cases hlast : y = numRows - 1
  · rw [if_pos hlast, if_pos hlast]
    exact h.putCell hr h₁ h₂ space
  · have hne : y ≠ 24 := hlast
    rw [if_neg hlast, if_neg hlast, h.load hr _ (h.cell_ok
      (i := numCols * (y + 1) + x) (by simp only [numCols, numRows]; omega)).1]
    exact h.putCell hr h₁ h₂ _

theorem scroll (h : C.Sim D ok R) (hr : R s t) : R (C.scroll s) (D.scroll t) := by
  refine h.setX (h.setY (foldl (fun y hy s t hr => ?_) hr) _) _
  refine foldl (fun x hx s t hr => ?_) hr
  exact h.scrollCell (List.mem_range.1 hx) (List.mem_range.1 hy) hr

/-- The cell under the cursor. -/
theorem cursor_ok (h : C.Sim D ok R) (hb : D.Reaches ok t) :
    ok (2 * (numCols * D.getY t + D.getX t)) ∧ ok (2 * (numCols * D.getY t + D.getX t) + 1) := by
  rcases hb with ⟨hx, hy⟩ | hall
  · simp only [numCols, numRows] at hx hy
    exact h.cell_ok (by simp only [numCols, numRows]; omega)
  · exact ⟨hall _, hall _⟩

/-- **Corresponding consoles print a character alike.** -/
theorem putc (h : C.Sim D ok R) (hb : D.Reaches ok t) (hr : R s t) (c : UInt8) :
    R (C.putc c s) (D.putc c t) := by
  -- a line feed in corresponding states
  have down {s : σ} {t : τ} (hr : R s t) :
      R (C.setY (C.getY s + 1) s) (D.setY (D.getY t + 1) t) := by
    rw [h.getY hr]
    exact h.setY hr _
  have atEnd {s : σ} {t : τ} (hr : R s t) : ¬ C.getY s < numRows ↔ ¬ D.getY t < numRows := by
    rw [h.getY hr]
  refine ite Iff.rfl (fun _ => h.setX (ite (atEnd (down hr)) (fun _ => h.scroll (down hr))
    fun _ => down hr) 0) fun _ => ?_
  obtain ⟨h₁, h₂⟩ := h.cursor_ok hb
  have hcell : R (C.putCell (numCols * C.getY s + C.getX s) c s)
      (D.putCell (numCols * D.getY t + D.getX t) c t) := by
    rw [h.getX hr, h.getY hr]
    exact h.putCell hr h₁ h₂ c
  have hnext : R (C.setX (C.getX (C.putCell (numCols * C.getY s + C.getX s) c s) + 1)
        (C.putCell (numCols * C.getY s + C.getX s) c s))
      (D.setX (D.getX (D.putCell (numCols * D.getY t + D.getX t) c t) + 1)
        (D.putCell (numCols * D.getY t + D.getX t) c t)) := by
    rw [h.getX hcell]
    exact h.setX hcell _
  have last {s : σ} {t : τ} (hr : R s t) : R
      (if ¬ C.getY s < numRows then C.scroll s
        else C.setY ((C.getY s + C.getX s / numCols) % numRows) s)
      (if ¬ D.getY t < numRows then D.scroll t
        else D.setY ((D.getY t + D.getX t / numCols) % numRows) t) := by
    refine ite (atEnd hr) (fun _ => h.scroll hr) fun _ => ?_
    rw [h.getX hr, h.getY hr]
    exact h.setY hr _
  refine last (ite (by rw [h.getX hnext]) (fun _ => ?_) fun _ => ?_)
  · exact ite (atEnd (down hnext)) (fun _ => h.scroll (down hnext)) fun _ => h.setX (down hnext) 0
  · rw [h.getX hnext]
    exact h.setX hnext _

theorem puts (h : C.Sim D ok R) (hl : D.Lawful) (l : List UInt8) (hb : D.Reaches ok t)
    (hr : R s t) : R (C.puts l s) (D.puts l t) := by
  induction l generalizing s t with
  | nil => exact hr
  | cons c l ih => exact ih (hb.imp_left (hl.putc_inBounds c)) (h.putc hb hr c)

theorem clear (h : C.Sim D ok R) (hr : R s t) : R (C.clear s) (D.clear t) := by
  unfold Console.clear
  refine foldl (fun i hi s t hr => ?_) hr
  have hcell : i < numCols * numRows := Nat.mul_comm numRows numCols ▸ List.mem_range.1 hi
  obtain ⟨h₁, h₂⟩ := h.cell_ok hcell
  exact h.putCell hr h₁ h₂ space

theorem handlebackspace (h : C.Sim D ok R) (hl : D.Lawful) (hb : D.Reaches ok t) (hr : R s t) :
    R (C.handlebackspace s) (D.handlebackspace t) := by
  have hmove : R
      (if (C.getX s : Int) - 1 < 0 then
        if C.getY s ≠ 0 then C.setX (numCols - 1) (C.setY (C.getY s - 1) s) else s
      else C.setX (C.getX s - 1) s)
      (if (D.getX t : Int) - 1 < 0 then
        if D.getY t ≠ 0 then D.setX (numCols - 1) (D.setY (D.getY t - 1) t) else t
      else D.setX (D.getX t - 1) t) := by
    rw [h.getX hr, h.getY hr]
    exact ite Iff.rfl (fun _ => ite Iff.rfl (fun _ => h.setX (h.setY hr _) _) fun _ => hr)
      fun _ => h.setX hr _
  obtain ⟨h₁, h₂⟩ := h.cursor_ok (hb.imp_left hl.backspace_inBounds)
  unfold Console.handlebackspace
  dsimp only
  rw [h.getX hmove, h.getY hmove]
  exact h.putCell hmove h₁ h₂ space

end Sim

end Console

/-! ## The consoles of the kernel -/

theorem Kernel.store8_eq (va : Nat) (c : UInt8) (k : Kernel) :
    k.store8 va c = { k with phys := (k.store8 va c).phys } := by
  unfold Kernel.store8
  split <;> rfl

theorem lawful_global : globalConsole.Lawful where
  getX_setX x k := by simp [globalConsole, Kernel.setScreenX]
  getY_setX x k := by simp [globalConsole, Kernel.setScreenX]
  getX_setY y k := by simp [globalConsole, Kernel.setScreenY]
  getY_setY y k := by simp [globalConsole, Kernel.setScreenY]
  getX_store i c k := by
    simp only [globalConsole]
    rw [Kernel.store8_eq]
  getY_store i c k := by
    simp only [globalConsole]
    rw [Kernel.store8_eq]

theorem lawful_current : currentConsole.Lawful where
  getX_setX x k := by simp [currentConsole, Kernel.setScreenX]
  getY_setX x k := by simp [currentConsole, Kernel.setScreenX]
  getX_setY y k := by simp [currentConsole, Kernel.setScreenY]
  getY_setY y k := by simp [currentConsole, Kernel.setScreenY]
  getX_store i c k := by
    simp only [currentConsole]
    rw [Kernel.store8_eq]
  getY_store i c k := by
    simp only [currentConsole]
    rw [Kernel.store8_eq]

end Kernel391

import Kernel391.Scheduler
import Mathlib.Tactic.Common

/-!
# The text console: what it leaves alone

The console reaches the kernel only through the accessors of a `Console`, so what the accessors
preserve is preserved by everything written over them (`Console.Closed`). Printing, in
particular, changes nothing but memory and cursors (`SameButScreen`).
-/

namespace Kernel391

/-! ## Preservation -/

namespace Console

variable {σ : Type*}

/-- The writing accessors preserve `P`. -/
structure Closed (C : Console σ) (P : σ → Prop) : Prop where
  store : ∀ i c s, P s → P (C.store i c s)
  setX : ∀ x s, P s → P (C.setX x s)
  setY : ∀ y s, P s → P (C.setY y s)

namespace Closed

variable {C : Console σ} {P : σ → Prop}

theorem putCell (h : C.Closed P) (i : Nat) (c : UInt8) {s : σ} (hs : P s) : P (C.putCell i c s) :=
  h.store _ _ _ (h.store _ _ _ hs)

theorem foldl {α : Type*} {f : σ → α → σ} (hf : ∀ s a, P s → P (f s a)) (l : List α) {s : σ}
    (hs : P s) : P (l.foldl f s) := by
  induction l generalizing s with
  | nil => exact hs
  | cons a l ih => exact ih (hf _ _ hs)

theorem scroll (h : C.Closed P) {s : σ} (hs : P s) : P (C.scroll s) := by
  refine h.setX _ _ (h.setY _ _ (foldl (fun s y hs => ?_) _ hs))
  exact foldl (fun s x hs => h.putCell _ _ hs) _ hs

theorem ite {p : Prop} [Decidable p] {a b : σ} (ha : P a) (hb : P b) :
    P (if p then a else b) := by
  split
  · exact ha
  · exact hb

theorem putc (h : C.Closed P) (c : UInt8) {s : σ} (hs : P s) : P (C.putc c s) := by
  refine ite (h.setX _ _ ?_) ?_
  · have h₁ := h.setY (C.getY s + 1) s hs
    exact ite (h.scroll h₁) h₁
  · have h₁ := h.setX (C.getX (C.putCell (numCols * C.getY s + C.getX s) c s) + 1) _
      (h.putCell (numCols * C.getY s + C.getX s) c hs)
    have h₂ := fun y => h.setY y _ h₁
    have last : ∀ {s : σ}, P s → P (if ¬ C.getY s < numRows then C.scroll s
        else C.setY ((C.getY s + C.getX s / numCols) % numRows) s) :=
      fun hs => ite (h.scroll hs) (h.setY _ _ hs)
    exact last (ite (ite (h.scroll (h₂ _)) (h.setX _ _ (h₂ _))) (h.setX _ _ h₁))

theorem puts (h : C.Closed P) (l : List UInt8) {s : σ} (hs : P s) : P (C.puts l s) :=
  foldl (fun _ c hs => h.putc c hs) l hs

theorem clear (h : C.Closed P) {s : σ} (hs : P s) : P (C.clear s) :=
  foldl (fun _ i hs => h.putCell i _ hs) _ hs

theorem handlebackspace (h : C.Closed P) {s : σ} (hs : P s) : P (C.handlebackspace s) :=
  h.putCell _ _ (ite (ite (h.setX _ _ (h.setY _ _ hs)) hs) (h.setX _ _ hs))

end Closed

end Console

/-! ## Printing -/

/-- `k'` differs from `k` at most in physical memory and in the cursors. -/
structure SameButScreen (k k' : Kernel) : Prop where
  kernel : k' = { k with phys := k'.phys, terminals := k'.terminals }
  terminals : ∀ t, k'.terminals t = { k.terminals t with
    screenX := (k'.terminals t).screenX, screenY := (k'.terminals t).screenY }

namespace SameButScreen

variable {k k₁ k₂ : Kernel}

theorem refl (k : Kernel) : SameButScreen k k := ⟨rfl, fun _ => rfl⟩

theorem trans (h₁ : SameButScreen k k₁) (h₂ : SameButScreen k₁ k₂) : SameButScreen k k₂ where
  kernel := by rw [h₂.kernel, h₁.kernel]
  terminals t := by rw [h₂.terminals, h₁.terminals]

theorem pcbMem_eq (h : SameButScreen k k₁) : k₁.pcbMem = k.pcbMem := by rw [h.kernel]

theorem visableTerm_eq (h : SameButScreen k k₁) : k₁.visableTerm = k.visableTerm := by
  rw [h.kernel]

theorem currentTerm_eq (h : SameButScreen k k₁) : k₁.currentTerm = k.currentTerm := by
  rw [h.kernel]

theorem isOn_eq (h : SameButScreen k k₁) : k₁.isOn = k.isOn := by rw [h.kernel]

theorem running_eq (h : SameButScreen k k₁) : k₁.processesRunning = k.processesRunning := by
  rw [h.kernel]

theorem tssEsp0_eq (h : SameButScreen k k₁) : k₁.tssEsp0 = k.tssEsp0 := by rw [h.kernel]

theorem cpu_eq (h : SameButScreen k k₁) : k₁.cpu = k.cpu := by rw [h.kernel]

theorem paging_eq (h : SameButScreen k k₁) : k₁.paging = k.paging := by rw [h.kernel]

theorem pid_eq (h : SameButScreen k k₁) (t : TermId) :
    (k₁.terminals t).pid = (k.terminals t).pid := by rw [h.terminals]

theorem esp_eq (h : SameButScreen k k₁) (t : TermId) :
    (k₁.terminals t).esp = (k.terminals t).esp := by rw [h.terminals]

theorem store8 (va : Nat) (c : UInt8) (k : Kernel) : SameButScreen k (k.store8 va c) := by
  unfold Kernel.store8
  split
  · exact ⟨rfl, fun _ => rfl⟩
  · exact .refl k

theorem setScreenX (t : TermId) (x : Nat) (k : Kernel) : SameButScreen k (k.setScreenX t x) where
  kernel := rfl
  terminals u := by
    by_cases h : u = t
    · subst h; simp [Kernel.setScreenX]
    · simp [Kernel.setScreenX, h]

theorem setScreenY (t : TermId) (y : Nat) (k : Kernel) : SameButScreen k (k.setScreenY t y) where
  kernel := rfl
  terminals u := by
    by_cases h : u = t
    · subst h; simp [Kernel.setScreenY]
    · simp [Kernel.setScreenY, h]

/-- Both consoles stay within `SameButScreen`. -/
theorem closed_global (k : Kernel) : globalConsole.Closed (SameButScreen k) where
  store _ _ _ h := h.trans (store8 _ _ _)
  setX _ _ h := h.trans (setScreenX _ _ _)
  setY _ _ h := h.trans (setScreenY _ _ _)

theorem closed_current (k : Kernel) : currentConsole.Closed (SameButScreen k) where
  store _ _ _ h := h.trans (store8 _ _ _)
  setX _ _ h := h.trans (setScreenX _ _ _)
  setY _ _ h := h.trans (setScreenY _ _ _)

theorem putc (c : UInt8) (k : Kernel) : SameButScreen k (putc c k) :=
  (closed_global k).putc c (.refl k)

theorem clear (k : Kernel) : SameButScreen k (clear k) := (closed_global k).clear (.refl k)

theorem handlebackspace (k : Kernel) : SameButScreen k (handlebackspace k) :=
  (closed_global k).handlebackspace (.refl k)

theorem printf (s : String) (k : Kernel) : SameButScreen k (printf s k) :=
  (closed_global k).puts _ (.refl k)

theorem setposition (x y : Nat) (k : Kernel) : SameButScreen k (setposition x y k) :=
  (setScreenX _ _ _).trans (setScreenY _ _ _)

/-- Any number of characters written by `terminal_write`. -/
theorem putsModified (l : List UInt8) (k : Kernel) :
    SameButScreen k (l.foldl (fun k c => putcModified c k) k) :=
  (closed_current k).puts l (.refl k)

end SameButScreen

end Kernel391

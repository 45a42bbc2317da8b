import Mathlib.Data.List.Induction

/-!
# The last event of a kind

A history is a list of events, the newest last. `last f h` is what the newest event says that
says anything to `f`.

A register is a part of a state that some events set and the others leave alone: whatever the
state is, after a run it holds what was last written (`register_run`).
-/

namespace History

variable {ε σ β : Type*}

/-- What the last event that `f` reads says. -/
def last (f : ε → Option β) (h : List ε) : Option β := (h.filterMap f).getLast?

variable {f : ε → Option β}

@[simp] theorem last_nil : last f [] = none := rfl

theorem last_append (h h' : List ε) : last f (h ++ h') = (last f h').or (last f h) := by
  rw [last, List.filterMap_append, List.getLast?_append]
  rfl

@[simp] theorem last_concat (h : List ε) (e : ε) : last f (h ++ [e]) = (f e).or (last f h) := by
  rw [last_append]
  congr 1
  rw [last, List.filterMap_cons]
  cases f e <;> rfl

/-! ## Outputs to addresses -/

section Sent

variable {κ : Type*} [DecidableEq κ]

/-- What an output says to the address `a`. -/
def sentTo (a : κ) (out : κ × β) : Option β := if out.1 = a then some out.2 else none

theorem last_sentTo (a : κ) (h : List (κ × β)) (b : κ) (x : β) :
    last (sentTo a) (h ++ [(b, x)]) = if b = a then some x else last (sentTo a) h := by
  rw [last_concat, sentTo]
  split <;> rfl

end Sent

/-! ## Registers -/

/-- **A register holds what was last written**, or what it held before the run. -/
theorem register_run {step : σ → ε → σ} (reg : σ → β) {h : List ε}
    (hstep : ∀ s, ∀ e ∈ h, reg (step s e) = (f e).getD (reg s)) (s : σ) :
    reg (h.foldl step s) = (last f h).getD (reg s) := by
  induction h using List.reverseRecOn with
  | nil => rfl
  | append_singleton h e ih =>
    have hprev := ih fun s e he => hstep s e (List.mem_append_left _ he)
    rw [List.foldl_append, List.foldl_cons, List.foldl_nil,
      hstep _ e (List.mem_append_right _ (List.mem_singleton_self e)), hprev, last_concat]
    cases f e <;> rfl

end History

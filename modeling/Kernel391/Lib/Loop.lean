import Mathlib.Logic.Function.Iterate
import Mathlib.Tactic.Basic

/-!
# While loops

`while c step fuel s` runs `while (c) step` for at most `fuel` rounds. It ends in the first state of
the sequence `s, step s, step (step s), …` that does not satisfy the condition (`while_eq_some`),
so it never ends if all of them do, and the fuel does not matter once it is enough.
-/

namespace Loop

variable {σ : Type*}

/-- The state in which the loop ends, or `none` if `fuel` rounds were not enough. -/
def whileLoop (c : σ → Bool) (step : σ → σ) : ℕ → σ → Option σ
  | 0, _ => none
  | fuel + 1, s => if c s then whileLoop c step fuel (step s) else some s

variable {c : σ → Bool} {step : σ → σ} {fuel : ℕ} {s s' : σ}

/-- **The loop ends in the first state that fails the condition.** -/
theorem while_eq_some : whileLoop c step fuel s = some s' ↔
    ∃ n < fuel, step^[n] s = s' ∧ c s' = false ∧ ∀ m < n, c (step^[m] s) = true := by
  induction fuel generalizing s with
  | zero => exact iff_of_false nofun fun ⟨n, hn, _⟩ => absurd hn (Nat.not_lt_zero n)
  | succ fuel ih =>
    rw [whileLoop]
    split
    · rename_i hc
      rw [ih]
      constructor
      · rintro ⟨n, hn, hs, hend, hbefore⟩
        refine ⟨n + 1, by omega, hs, hend, fun m hm => ?_⟩
        cases m with
        | zero => exact hc
        | succ m => exact hbefore m (by omega)
      · rintro ⟨n, hn, hs, hend, hbefore⟩
        cases n with
        | zero =>
          -- the condition holds in the first state
          rw [Function.iterate_zero, id] at hs
          rw [hs, hend] at hc
          cases hc
        | succ n => exact ⟨n, by omega, hs, hend, fun m hm => hbefore (m + 1) (by omega)⟩
    · rename_i hc
      constructor
      · rintro h
        obtain rfl := Option.some.inj h
        exact ⟨0, by omega, rfl, Bool.not_eq_true _ ▸ hc, fun m hm => absurd hm (Nat.not_lt_zero m)⟩
      · rintro ⟨n, -, hs, -, hbefore⟩
        cases n with
        | zero => exact congrArg some hs
        | succ n => exact absurd (hbefore 0 (by omega)) hc

/-- **The loop never ends** if the condition holds in every state it reaches. -/
theorem while_eq_none (h : ∀ n, c (step^[n] s) = true) : whileLoop c step fuel s = none := by
  by_contra hne
  obtain ⟨s', hs'⟩ := Option.ne_none_iff_exists'.1 hne
  obtain ⟨n, -, hs, hend, -⟩ := while_eq_some.1 hs'
  rw [← hs, h n] at hend
  cases hend

/-- An invariant of the body holds after any number of rounds. -/
theorem iterate_inv {I : σ → Prop} (h0 : I s) (hstep : ∀ s, I s → I (step s)) (n : ℕ) :
    I (step^[n] s) := by
  induction n with
  | zero => exact h0
  | succ n ih =>
    rw [Function.iterate_succ_apply']
    exact hstep _ ih

end Loop

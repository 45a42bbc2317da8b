import Mathlib.Data.Nat.Basic
import Mathlib.Order.Monotone.Basic

/-!
# Machines driven by a sequence of inputs

A machine is a step function `σ → ι → ω × σ`; a sequence `inp : ℕ → ι` of inputs drives it
through the states `stateAt`, with the outputs `outputAt`.

* `stateAt_inv` — an invariant that may depend on how many inputs were read.
* `stateAt_mono` — what no step decreases is monotone.
* `climbs` — a bounded measure that every step increases, until it is at its limit, is at its
  limit after that many steps.
* `states_related`, `outputs_eq` — two machines in related states, with a relation every step
  keeps and no output tells apart, stay related and have the same outputs for ever.
-/

namespace Driven

variable {σ τ ι ω : Type*}

section

variable (step : σ → ι → ω × σ) (s : σ) (inp : ℕ → ι)

/-- The state after `n` inputs. -/
def stateAt : ℕ → σ
  | 0 => s
  | n + 1 => (step (stateAt n) (inp n)).2

/-- The output for input `n`. -/
def outputAt (n : ℕ) : ω := (step (stateAt step s inp n) (inp n)).1

end

variable {step : σ → ι → ω × σ} {s : σ} {inp : ℕ → ι}

@[simp] theorem stateAt_zero : stateAt step s inp 0 = s := rfl

theorem stateAt_succ (n : ℕ) :
    stateAt step s inp (n + 1) = (step (stateAt step s inp n) (inp n)).2 := rfl

/-- **The invariant rule.** -/
theorem stateAt_inv (I : ℕ → σ → Prop) (h0 : I 0 s)
    (hstep : ∀ n a, I n a → I (n + 1) (step a (inp n)).2) (n : ℕ) : I n (stateAt step s inp n) := by
  induction n with
  | zero => exact h0
  | succ n ih => exact hstep n _ ih

/-- What every step of the run keeps or increases. -/
theorem stateAt_mono {α : Type*} [Preorder α] (pos : σ → α) {I : σ → Prop}
    (hI : ∀ n, I (stateAt step s inp n))
    (hstep : ∀ n a, I a → pos a ≤ pos (step a (inp n)).2) :
    Monotone fun n => pos (stateAt step s inp n) :=
  monotone_nat_of_le_succ fun n => hstep n _ (hI n)

/-- **The progress rule.** As long as the measure is below its limit, each step adds to it. -/
theorem climbs (pos : σ → ℕ) (limit : ℕ) {I : σ → Prop} (hI : ∀ n, I (stateAt step s inp n))
    (hstep : ∀ n a, I a → pos a ≤ pos (step a (inp n)).2)
    (hup : ∀ n a, I a → pos a < limit → pos a < pos (step a (inp n)).2) (n : ℕ) :
    min (pos s + n) limit ≤ pos (stateAt step s inp n) := by
  induction n with
  | zero => exact Nat.min_le_left _ _
  | succ n ih =>
    have hle := hstep n _ (hI n)
    rw [stateAt_succ]
    by_cases hlt : pos (stateAt step s inp n) < limit
    · have := hup n _ (hI n) hlt
      omega
    · omega

/-- Two machines whose steps keep a relation between their states. -/
theorem states_related {step' : τ → ι → ω × τ} {t : τ} (R : σ → τ → Prop) (h0 : R s t)
    (hstep : ∀ n a b, R a b →
      (step a (inp n)).1 = (step' b (inp n)).1 ∧ R (step a (inp n)).2 (step' b (inp n)).2)
    (n : ℕ) : R (stateAt step s inp n) (stateAt step' t inp n) := by
  induction n with
  | zero => exact h0
  | succ n ih => exact (hstep n _ _ ih).2

/-- **The two-run rule.** -/
theorem outputs_eq {step' : τ → ι → ω × τ} {t : τ} (R : σ → τ → Prop) (h0 : R s t)
    (hstep : ∀ n a b, R a b →
      (step a (inp n)).1 = (step' b (inp n)).1 ∧ R (step a (inp n)).2 (step' b (inp n)).2)
    (n : ℕ) : outputAt step s inp n = outputAt step' t inp n :=
  (hstep n _ _ (states_related R h0 hstep n)).1

end Driven

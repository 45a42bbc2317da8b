import Kernel391.Lib.Loop
import Mathlib.Order.Filter.AtTopBot.Basic

/-!
# Fuelled computations

A program whose loops may run forever is a function of fuel: `f n` is its result, or `none` if
`n` rounds were not enough for one of them. `Computes f r` means that the program ends with `r`:
from some amount of fuel on, `f` gives `r`.

The rules below follow the program text (sequence, test, loop), so a proof with them never counts
rounds. A result is unique, and what every finished run satisfies holds of it (`Computes.of_run`).
-/

namespace Loop

open Filter

variable {α β σ : Type*} {f : ℕ → Option α} {a r r' : α} {b : β}

/-- The computation ends with `r`. -/
def Computes (f : ℕ → Option α) (r : α) : Prop := ∀ᶠ fuel in atTop, f fuel = some r

theorem Computes.unique (h : Computes f r) (h' : Computes f r') : r = r' := by
  obtain ⟨fuel, hr, hr'⟩ := (Eventually.and h h').exists
  exact Option.some.inj (hr.symm.trans hr')

/-- What holds of the result of every finished run holds of the result. -/
theorem Computes.of_run {P : α → Prop} (h : Computes f r) (hrun : ∀ n r, f n = some r → P r) :
    P r := by
  obtain ⟨fuel, hr⟩ := Eventually.exists h
  exact hrun fuel r hr

theorem computes_some (r : α) : Computes (fun _ => some r) r := Eventually.of_forall fun _ => rfl

theorem Computes.congr {g : ℕ → Option α} (h : Computes f r) (hfg : ∀ n, f n = g n) :
    Computes g r :=
  Eventually.mono h fun n hn => (hfg n).symm.trans hn

/-- One program after another. -/
theorem Computes.bind {g : ℕ → α → Option β} (h : Computes f a)
    (hg : Computes (fun n => g n a) b) : Computes (fun n => (f n).bind (g n)) b := by
  filter_upwards [h, hg] with n hn hb
  rw [hn]
  exact hb

theorem Computes.map (h : Computes f a) (g : α → β) : Computes (fun n => (f n).map g) (g a) :=
  Eventually.mono h fun _ hn => congrArg (Option.map g) hn

/-- A recursive program spends one unit of fuel on a call. -/
theorem Computes.succ (h : Computes (fun n => f (n + 1)) r) : Computes f r := by
  rw [Computes, ← map_add_atTop_eq_nat 1]
  exact h

section While

variable {c : σ → Bool} {step : σ → σ} {s s' : σ}

theorem computes_while_done (h : c s = false) : Computes (whileLoop c step · s) s :=
  .succ <| (computes_some s).congr fun n => by simp [whileLoop, h]

theorem computes_while_step (h : c s = true) (hs : Computes (whileLoop c step · (step s)) s') :
    Computes (whileLoop c step · s) s' :=
  .succ <| hs.congr fun n => by simp [whileLoop, h]

end While

end Loop

import Mathlib.Data.List.Basic

/-!
# Runs of labelled transition relations

A system is a relation `R s e o s'`: in state `s` the event `e` produces the output `o` and
leaves state `s'`. A run is a finite sequence of such steps, kept together with the list of
the labels `(e, o)` it went through, oldest first.

* `Run.invariant` — what every step preserves holds at the end of every run.
* `Run.refines` — if every step of the system is matched by a function on an abstract state,
  then the whole run is matched by the fold of that function over the labels.
* `Run.simulates` — the same, for steps matched by the steps of another system.
* `Run.projects` — the same, along a function on states and a partial function on labels.
* `Run.mono`, `Run.trans` — weakening the relation, and running on.

`Guarded G R` is `R` with its events restricted to those that meet the condition `G` in the
state they arrive in.
-/

namespace Runs

variable {σ τ ε ω : Type*}

/-- What a step adds to the part of a history that `f` picks out. -/
theorem filterMap_concat {α : Type*} (f : ε × ω → Option α) (tr : List (ε × ω)) (l : ε × ω) :
    (tr ++ [l]).filterMap f = tr.filterMap f ++ (f l).toList := by
  rw [List.filterMap_append, List.filterMap_cons]
  cases f l with
  | none => rfl
  | some a => rfl

/-- A labelled transition relation: state, event, output, next state. -/
abbrev System (σ ε ω : Type*) := σ → ε → ω → σ → Prop

/-- `R`, restricted to the events that meet `G` in the state they arrive in. -/
def Guarded (G : σ → ε → Prop) (R : System σ ε ω) : System σ ε ω :=
  fun s e o s' => G s e ∧ R s e o s'

/-- The step of `R` with this label; without a label, no step. -/
def Visible (R : System σ ε ω) (s : σ) : Option (ε × ω) → σ → Prop
  | some (e, o), s' => R s e o s'
  | none, s' => s' = s

/-- `Run R s tr s'`: some sequence of `R`-steps with the labels `tr` leads from `s` to `s'`. -/
inductive Run (R : System σ ε ω) (s : σ) : List (ε × ω) → σ → Prop
  | nil : Run R s [] s
  | snoc {tr : List (ε × ω)} {s₁ s₂ : σ} {e : ε} {o : ω} :
      Run R s tr s₁ → R s₁ e o s₂ → Run R s (tr ++ [(e, o)]) s₂

namespace Run

variable {R : System σ ε ω} {s s₁ s₂ : σ} {tr tr₁ tr₂ : List (ε × ω)}

/-- **The invariant rule.** -/
theorem invariant {I : σ → Prop} (h : Run R s tr s₁) (h0 : I s)
    (hstep : ∀ ⦃a e o b⦄, I a → R a e o b → I b) : I s₁ := by
  induction h with
  | nil => exact h0
  | snoc _ hs ih => exact hstep ih hs

/-- The invariant rule, for an invariant that also reads the history of the run. -/
theorem invariant_history {I : List (ε × ω) → σ → Prop} (h : Run R s tr s₁) (h0 : I [] s)
    (hstep : ∀ ⦃hist a e o b⦄, I hist a → R a e o b → I (hist ++ [(e, o)]) b) : I tr s₁ := by
  induction h with
  | nil => exact h0
  | snoc _ hs ih => exact hstep ih hs

/-- **The refinement rule.** A step matched by `f` on abstract states makes a run matched by
the fold of `f` over its labels. -/
theorem refines {Q : σ → τ → Prop} {f : τ → ε × ω → τ} {t : τ} (h : Run R s tr s₁)
    (h0 : Q s t) (hstep : ∀ ⦃a e o b u⦄, Q a u → R a e o b → Q b (f u (e, o))) :
    Q s₁ (tr.foldl f t) := by
  induction h with
  | nil => exact h0
  | snoc _ hs ih =>
    rw [List.foldl_append]
    exact hstep ih hs

/-- **The simulation rule.** A step matched by a step of the system `A` makes a run matched by a
run of `A` with the same labels. -/
theorem simulates {A : System τ ε ω} {Q : σ → τ → Prop} {t : τ} (h : Run R s tr s₁) (h0 : Q s t)
    (hstep : ∀ ⦃a e o b u⦄, Q a u → R a e o b → ∃ v, A u e o v ∧ Q b v) :
    ∃ u, Run A t tr u ∧ Q s₁ u := by
  induction h with
  | nil => exact ⟨t, .nil, h0⟩
  | snoc _ hs ih =>
    obtain ⟨u, hrun, hQ⟩ := ih
    obtain ⟨v, hv, hQ'⟩ := hstep hQ hs
    exact ⟨v, hrun.snoc hv, hQ'⟩

/-- **The projection rule.** Where each step is seen, through `g` and `f`, as a step of the system
`A` or not at all, a run is seen as a run of `A`. -/
theorem projects {ε' ω' : Type*} {A : System τ ε' ω'} {I : σ → Prop} {L : ε × ω → Prop}
    {g : σ → τ} {f : ε × ω → Option (ε' × ω')} (h : Run R s tr s₁) (hL : ∀ l ∈ tr, L l)
    (h0 : I s) (hstep : ∀ ⦃a e o b⦄, I a → R a e o b → L (e, o) →
      I b ∧ Visible A (g a) (f (e, o)) (g b)) :
    I s₁ ∧ Run A (g s) (tr.filterMap f) (g s₁) := by
  induction h with
  | nil => exact ⟨h0, .nil⟩
  | snoc _ hs ih =>
    obtain ⟨hI, hrun⟩ := ih fun l hl => hL l (List.mem_append_left _ hl)
    obtain ⟨hI', hvis⟩ := hstep hI hs (hL _ (List.mem_append_right _ (List.mem_singleton_self _)))
    refine ⟨hI', ?_⟩
    rw [filterMap_concat]
    revert hvis
    cases f (_, _) with
    | none =>
      intro hvis
      rwa [Option.toList_none, List.append_nil, hvis]
    | some l => exact fun hvis => hrun.snoc hvis

theorem mono {R' : System σ ε ω} (h : Run R s tr s₁)
    (hsub : ∀ ⦃a e o b⦄, R a e o b → R' a e o b) : Run R' s tr s₁ := by
  induction h with
  | nil => exact .nil
  | snoc _ hs ih => exact ih.snoc (hsub hs)

theorem trans (h₁ : Run R s tr₁ s₁) (h₂ : Run R s₁ tr₂ s₂) : Run R s (tr₁ ++ tr₂) s₂ := by
  induction h₂ with
  | nil => simpa using h₁
  | snoc _ hs ih =>
    rw [← List.append_assoc]
    exact ih.snoc hs

theorem single {e : ε} {o : ω} (h : R s e o s₁) : Run R s [(e, o)] s₁ :=
  Run.nil.snoc h

theorem eq_of_nil (h : Run R s [] s₁) : s₁ = s := by
  generalize htr : ([] : List (ε × ω)) = tr at h
  cases h with
  | nil => rfl
  | snoc => simp at htr

/-- A run whose last label is known ends with a step of that label. -/
theorem of_concat {e : ε} {o : ω} (h : Run R s (tr ++ [(e, o)]) s₁) :
    ∃ s₂, Run R s tr s₂ ∧ R s₂ e o s₁ := by
  generalize htr : tr ++ [(e, o)] = tr' at h
  cases h with
  | nil => simp at htr
  | snoc h hs =>
    obtain ⟨rfl, hl⟩ := List.append_inj' htr rfl
    obtain ⟨rfl, rfl⟩ := Prod.mk.inj (List.singleton_inj.1 hl)
    exact ⟨_, h, hs⟩

/-- A guarded run is a run. -/
theorem of_guarded {G : σ → ε → Prop} (h : Run (Guarded G R) s tr s₁) : Run R s tr s₁ :=
  h.mono fun _ _ _ _ hs => hs.2

end Run

end Runs

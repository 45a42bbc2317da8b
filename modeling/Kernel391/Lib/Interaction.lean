import Kernel391.Lib.Run

/-!
# Programs that act on a world

A program is a tree: it ends with a value, or performs an action and goes on with the reply. Loops
are cut off by fuel. A loop that runs out of it is stuck, and so is a program that gets a reply it
does not understand. `Path p tr q` says that `p`
performs the actions in `tr`, gets the replies in `tr`, and has `q` left to do.

A world is what answers: a labelled transition system whose events are actions and whose outputs
are replies. It may have several replies to one action, or none.

`Ensures M B p tr s Q` is the total correctness of `p` in the world `M` after the history `tr`, from
the state `s`: it never gets stuck, `B` holds of the history and the state before each action, and
`p` ends with a history, a state and a value in `Q`.

* `Ensures.bind`, `Ensures.loop` — the rules for programs one after the other, and for loops.
* `Ensures.path` — what is ensured stays ensured as the program goes on.
* `Ensures.finishes` — so every history is the beginning of a finished one.
* `Ensures.advances` — a program goes on as long as its actions can be performed.
-/

namespace Interaction

open Runs

variable {A R α β σ : Type}

/-- A program with actions in `A` and replies in `R`. -/
inductive Prog (A R α : Type)
  | ret (a : α)
  | act (a : A) (next : R → Prog A R α)
  | stuck

namespace Prog

/-- `p`, and then the program that `f` makes of its value. -/
protected def bind (f : α → Prog A R β) : Prog A R α → Prog A R β
  | .ret a => f a
  | .act a next => .act a fun r => (next r).bind f
  | .stuck => .stuck

instance : Monad (Prog A R) where
  pure := .ret
  bind p f := p.bind f

@[simp] theorem pure_eq (a : α) : (pure a : Prog A R α) = .ret a := rfl

@[simp] theorem ret_bind (a : α) (f : α → Prog A R β) : (Prog.ret a >>= f) = f a := rfl

@[simp] theorem act_bind (a : A) (next : R → Prog A R α) (f : α → Prog A R β) :
    (Prog.act a next >>= f) = .act a fun r => next r >>= f := rfl

/-- `body`, as long as it gives a next state and not a value. -/
def loop (body : β → Prog A R (β ⊕ α)) : ℕ → β → Prog A R α
  | 0, _ => .stuck
  | fuel + 1, b => body b >>= fun
    | .inl b => loop body fuel b
    | .inr a => .ret a

end Prog

/-- `p` has performed `tr` and has `q` left to do. -/
inductive Path (p : Prog A R α) : List (A × R) → Prog A R α → Prop
  | here : Path p [] p
  | act {tr : List (A × R)} {a : A} {next : R → Prog A R α} (r : R) :
      Path p tr (.act a next) → Path p (tr ++ [(a, r)]) (next r)

/-- The first action first. -/
theorem Path.cons {a : A} {next : R → Prog A R α} {q : Prog A R α} {tr : List (A × R)} (r : R)
    (h : Path (next r) tr q) : Path (.act a next) ((a, r) :: tr) q := by
  induction h with
  | here => exact .act r .here
  | act r' _ ih => exact .act r' ih

/-! ## Total correctness -/

/-- `p` never gets stuck in the world `M` from the state `s` on, performs only what `B` allows, and
ends in `Q`. -/
def Ensures (M : System σ A R) (B : List (A × R) → σ → A → Prop) :
    Prog A R α → List (A × R) → σ → (List (A × R) → σ → α → Prop) → Prop
  | .ret a, tr, s, Q => Q tr s a
  | .act a next, tr, s, Q => B tr s a ∧ (∃ r s', M s a r s') ∧
      ∀ r s', M s a r s' → Ensures M B (next r) (tr ++ [(a, r)]) s' Q
  | .stuck, _, _, _ => False

namespace Ensures

variable {M : System σ A R} {B : List (A × R) → σ → A → Prop} {p q : Prog A R α} {s s' : σ}
  {tr l : List (A × R)} {Q Q' : List (A × R) → σ → α → Prop}

theorem ret {a : α} (h : Q tr s a) : Ensures M B (.ret a) tr s Q := h

/-- An action with one reply. -/
theorem act {a : A} {r : R} {next : R → Prog A R α} (hB : B tr s a) (hr : M s a r s')
    (honly : ∀ r₁ s₁, M s a r₁ s₁ → r₁ = r ∧ s₁ = s')
    (h : Ensures M B (next r) (tr ++ [(a, r)]) s' Q) : Ensures M B (.act a next) tr s Q := by
  refine ⟨hB, ⟨r, s', hr⟩, fun r₁ s₁ hs => ?_⟩
  obtain ⟨rfl, rfl⟩ := honly r₁ s₁ hs
  exact h

theorem mono (h : Ensures M B p tr s Q) (hQ : ∀ tr s a, Q tr s a → Q' tr s a) :
    Ensures M B p tr s Q' := by
  induction p generalizing tr s with
  | ret a => exact hQ _ _ _ h
  | act a next ih => exact ⟨h.1, h.2.1, fun r s' hs => ih r (h.2.2 r s' hs)⟩
  | stuck => exact h

/-- **One program after the other.** -/
theorem bind {f : α → Prog A R β} {Q : List (A × R) → σ → β → Prop}
    (h : Ensures M B p tr s fun tr s a => Ensures M B (f a) tr s Q) :
    Ensures M B (p >>= f) tr s Q := by
  induction p generalizing tr s with
  | ret a => exact h
  | act a next ih => exact ⟨h.1, h.2.1, fun r s' hs => ih r (h.2.2 r s' hs)⟩
  | stuck => exact h

/-- **Loops.** A round that goes on keeps the invariant, with a smaller measure. -/
theorem loop {body : β → Prog A R (β ⊕ α)} {I : ℕ → β → List (A × R) → σ → Prop}
    (hbody : ∀ n b tr s, I n b tr s → Ensures M B (body b) tr s fun tr' s' r =>
      match r with
      | .inl b' => ∃ m < n, I m b' tr' s'
      | .inr a => Q tr' s' a)
    {n fuel : ℕ} (hfuel : n < fuel) {b : β} (h : I n b tr s) :
    Ensures M B (Prog.loop body fuel b) tr s Q := by
  induction fuel generalizing n b tr s with
  | zero => omega
  | succ fuel ih =>
    refine bind ((hbody n b tr s h).mono fun tr' s' r hr => ?_)
    cases r with
    | inl b' =>
      obtain ⟨m, hm, hI⟩ := hr
      exact ih (by omega) hI
    | inr a => exact hr

/-- **What is ensured stays ensured** as the program goes on. -/
theorem path (h : Ensures M B p tr s Q) (hp : Path p l q) (hrun : Run M s l s') :
    Ensures M B q (tr ++ l) s' Q := by
  induction hp generalizing s' with
  | here =>
    obtain rfl := hrun.eq_of_nil
    rwa [List.append_nil]
  | act r _ ih =>
    obtain ⟨s₁, hrun, hs⟩ := hrun.of_concat
    rw [← List.append_assoc]
    exact (ih hrun).2.2 r s' hs

/-- A correct program can be run to its end. -/
theorem finishes (h : Ensures M B p tr s Q) : ∃ l s' a, Q (tr ++ l) s' a := by
  induction p generalizing tr s with
  | ret a => exact ⟨[], s, a, by rwa [List.append_nil]⟩
  | act a next ih =>
    obtain ⟨-, ⟨r, s₁, hs⟩, hnext⟩ := h
    obtain ⟨l, s', b, hQ⟩ := ih r (hnext r s₁ hs)
    rw [List.append_assoc] at hQ
    exact ⟨_, s', b, hQ⟩
  | stuck => exact h.elim

/-- **A program goes on** as long as its actions are in `N`, if those can be performed where `I`
holds and lead to where `I` holds. -/
theorem advances {N : σ → A → Prop} {I : List (A × R) → σ → Prop}
    (hI : ∀ tr s a, I tr s → N s a → (∃ r s', M s a r s') →
      ∃ r s', M s a r s' ∧ I (tr ++ [(a, r)]) s')
    (h : Ensures M B p tr s Q) (hs : I tr s) :
    ∃ l s' q, Path p l q ∧ I (tr ++ l) s' ∧ Ensures M B q (tr ++ l) s' Q ∧
      ∀ a next, q = .act a next → ¬ N s' a := by
  induction p generalizing tr s with
  | ret a => exact ⟨[], s, _, .here, by rwa [List.append_nil], by rwa [List.append_nil], nofun⟩
  | act a next ih =>
    by_cases ha : N s a
    · obtain ⟨-, hen, hnext⟩ := h
      obtain ⟨r, s₁, hM, hs₁⟩ := hI tr s a hs ha hen
      obtain ⟨l, s', q, hp, hs', hq, hstop⟩ := ih r (hnext r s₁ hM) hs₁
      rw [List.append_assoc] at hs' hq
      exact ⟨_, s', q, hp.cons r, hs', hq, hstop⟩
    · refine ⟨[], s, _, .here, by rwa [List.append_nil], by rwa [List.append_nil], ?_⟩
      rintro a' next' hc
      injection hc with hc
      rwa [← hc]
  | stuck => exact h.elim

/-- What a program performs is allowed. -/
theorem allowed (h : Ensures M B p [] s Q) {a : A} {r : R} (hp : Path p (tr ++ [(a, r)]) q)
    (hrun : Run M s tr s') : B tr s' a := by
  generalize htr : tr ++ [(a, r)] = tr' at hp
  cases hp with
  | here => simp at htr
  | act r' hp =>
    obtain ⟨rfl, hl⟩ := List.append_inj' htr rfl
    obtain ⟨rfl, rfl⟩ := Prod.mk.inj (List.singleton_inj.1 hl)
    exact (h.path hp hrun).1

end Ensures

end Interaction

import Mathlib.Data.List.Induction
import Mathlib.Tactic.Common

/-!
# A mailbox with one slot

A writer puts messages into a slot, a reader takes them out. A message that is still there when
the next is put is overwritten.

* `takes_sublist` — a reader that only takes what is in the slot gets the messages in order, each
  at most once.
-/

namespace Mailbox

variable {α : Type*}

/-- What happens to the slot. -/
inductive Mail (α : Type*)
  | put (x : α)
  | take (x : α)

/-- The messages that were put. -/
def puts (h : List (Mail α)) : List α :=
  h.filterMap fun m => match m with
    | .put x => some x
    | .take _ => none

/-- The messages that were taken. -/
def takes (h : List (Mail α)) : List α :=
  h.filterMap fun m => match m with
    | .put _ => none
    | .take x => some x

/-- What is in the slot: what was put last, unless something was taken since. -/
def slot (h : List (Mail α)) : Option α :=
  match h.getLast? with
  | some (.put x) => some x
  | _ => none

/-- Every take gets what is in the slot. -/
def Faithful (h : List (Mail α)) : Prop :=
  ∀ h₁ x h₂, h = h₁ ++ .take x :: h₂ → slot h₁ = some x

section Concat

variable {h : List (Mail α)} {x : α}

@[simp] theorem puts_put : puts (h ++ [.put x]) = puts h ++ [x] := by simp [puts]

@[simp] theorem puts_take : puts (h ++ [.take x]) = puts h := by simp [puts]

@[simp] theorem takes_put : takes (h ++ [.put x]) = takes h := by simp [takes]

@[simp] theorem takes_take : takes (h ++ [.take x]) = takes h ++ [x] := by simp [takes]

@[simp] theorem slot_nil : slot ([] : List (Mail α)) = none := rfl

@[simp] theorem slot_put : slot (h ++ [.put x]) = some x := by simp [slot]

@[simp] theorem slot_take : slot (h ++ [.take x]) = none := by simp [slot]

theorem faithful_nil : Faithful ([] : List (Mail α)) := by
  intro h₁ x h₂ h
  simp at h

theorem Faithful.of_append {h' : List (Mail α)} (hf : Faithful (h ++ h')) : Faithful h := by
  intro h₁ y h₂ heq
  exact hf h₁ y (h₂ ++ h') (by simp [heq])

/-- Where a message of a history that was just extended is: in the old part, or last. -/
theorem snoc_eq_append_cons {h₁ h₂ : List (Mail α)} {m m' : Mail α}
    (heq : h ++ [m] = h₁ ++ m' :: h₂) :
    (h = h₁ ∧ m = m') ∨ ∃ h₃, h = h₁ ++ m' :: h₃ := by
  rcases List.eq_nil_or_concat h₂ with rfl | ⟨h₃, m₃, rfl⟩
  · obtain ⟨rfl, hm⟩ := List.append_inj' heq rfl
    simp only [List.cons.injEq, and_true] at hm
    exact .inl ⟨rfl, hm⟩
  · rw [List.concat_eq_append, ← List.cons_append, ← List.append_assoc] at heq
    exact .inr ⟨h₃, (List.append_inj' heq rfl).1⟩

theorem Faithful.put (hf : Faithful h) (x : α) : Faithful (h ++ [.put x]) := by
  intro h₁ y h₂ heq
  rcases snoc_eq_append_cons heq with ⟨-, hm⟩ | ⟨h₃, hh⟩
  · cases hm
  · exact hf h₁ y h₃ hh

theorem Faithful.take (hf : Faithful h) (hx : slot h = some x) : Faithful (h ++ [.take x]) := by
  intro h₁ y h₂ heq
  rcases snoc_eq_append_cons heq with ⟨rfl, hm⟩ | ⟨h₃, hh⟩
  · cases hm
    exact hx
  · exact hf h₁ y h₃ hh

theorem Faithful.slot_of_take (hf : Faithful (h ++ [.take x])) : slot h = some x :=
  hf h x [] rfl

end Concat

/-- **No message is taken twice or out of order.** -/
theorem takes_sublist {h : List (Mail α)} (hf : Faithful h) : (takes h).Sublist (puts h) := by
  -- What is in the slot is still to be taken.
  suffices hs : (takes h ++ (slot h).toList).Sublist (puts h) from
    (List.sublist_append_left _ _).trans hs
  induction h using List.reverseRecOn with
  | nil => simp [takes]
  | append_singleton h m ih =>
    have hold := ih hf.of_append
    cases m with
    | put x =>
      simpa using (List.sublist_append_left _ _).trans hold
    | take x =>
      rw [hf.slot_of_take] at hold
      simpa using hold

end Mailbox

import Mathlib.Data.List.Chain
import Mathlib.Logic.Function.Basic
import Mathlib.Logic.Relation
import Mathlib.Tactic.Common

/-!
# Call stacks

Several threads, each with a stack of callers, innermost first. A link leads from a caller to
the one below it, and a caller is on one stack at most.

* `Apart` — no caller is on two stacks, or on one stack twice; replacing one stack keeps it
  (`Apart.update`).
* `mem_iff_reach` — when links are unique and the root has none, a stack is what its top reaches.
* `acyclic` — and then no caller reaches itself.
* `reach_last` — every caller reaches the root.
-/

namespace CallStacks

variable {τ π : Type*}

/-- One stack for each thread. -/
abbrev Stacks (τ π : Type*) := τ → List π

/-- No caller is on two stacks, or on one stack twice. -/
structure Apart (s : Stacks τ π) : Prop where
  nodup : ∀ t, (s t).Nodup
  unique : ∀ t u p, p ∈ s t → p ∈ s u → t = u

/-- Threads with their stacks, and the one that runs. -/
structure Machine (τ π : Type*) where
  stack : Stacks τ π
  current : τ

section Update

variable [DecidableEq τ] {s : Stacks τ π} {t u : τ} {p q : π} {l : List π}

theorem mem_update : q ∈ Function.update s t l u ↔ (u = t ∧ q ∈ l) ∨ (u ≠ t ∧ q ∈ s u) := by
  by_cases h : u = t
  · subst h
    simp
  · simp [h]

/-- Replacing one stack by one that is new, or part of the old. -/
theorem Apart.update (h : Apart s) (hl : l.Nodup) (hnew : ∀ q ∈ l, ∀ u ≠ t, q ∉ s u) :
    Apart (Function.update s t l) where
  nodup u := by
    by_cases hu : u = t
    · rw [hu, Function.update_self]
      exact hl
    · rw [Function.update_of_ne hu]
      exact h.nodup u
  unique u v q hu hv := by
    rcases mem_update.1 hu with ⟨hut, hu⟩ | ⟨hut, hu⟩ <;>
      rcases mem_update.1 hv with ⟨hvt, hv⟩ | ⟨hvt, hv⟩
    · exact hut.trans hvt.symm
    · exact absurd hv (hnew q hu v hvt)
    · exact absurd hu (hnew q hv u hut)
    · exact h.unique u v q hu hv

/-- On some stack: on the one of `t`, or on another. -/
theorem exists_mem_iff (s : Stacks τ π) (t : τ) :
    (∃ u, q ∈ s u) ↔ (∃ u ≠ t, q ∈ s u) ∨ q ∈ s t := by
  constructor
  · rintro ⟨u, hq⟩
    by_cases hu : u = t
    · exact .inr (hu ▸ hq)
    · exact .inl ⟨u, hu, hq⟩
  · rintro (⟨u, -, hq⟩ | hq)
    · exact ⟨u, hq⟩
    · exact ⟨t, hq⟩

/-- A call: `p` goes on top. -/
def push (t : τ) (p : π) (s : Stacks τ π) : Stacks τ π := Function.update s t (p :: s t)

/-- A return. -/
def pop (t : τ) (s : Stacks τ π) : Stacks τ π := Function.update s t (s t).tail

end Update

/-! ## Links -/

section Links

variable {link : π → π → Prop} {p q r : π} {l : List π}

/-- Links are unique, and the last of the list has none. -/
structure Rooted (link : π → π → Prop) (l : List π) : Prop where
  chain : l.IsChain link
  unique : ∀ ⦃a b c⦄, link a b → link a c → b = c
  root : ∀ a, l.getLast? = some a → ∀ b, ¬ link a b

theorem Rooted.tail (h : Rooted link (p :: q :: l)) : Rooted link (q :: l) :=
  ⟨(List.isChain_cons_cons.1 h.chain).2, h.unique, fun a ha => h.root a (by
    rwa [List.getLast?_cons_cons])⟩

/-- What has no link is last. -/
theorem getLast_of_mem (h : l.IsChain link) (hp : p ∈ l) (hroot : ∀ q, ¬ link p q) :
    l.getLast? = some p := by
  induction l with
  | nil => cases hp
  | cons a l ih =>
    cases l with
    | nil => rw [List.mem_singleton.1 hp, List.getLast?_singleton]
    | cons b l =>
      obtain ⟨hab, htail⟩ := List.isChain_cons_cons.1 h
      rw [List.getLast?_cons_cons]
      rcases List.mem_cons.1 hp with rfl | hp
      · exact absurd hab (hroot b)
      · exact ih htail hp

/-- Everything but the last has something below it. -/
theorem exists_below (h : l.IsChain link) (hp : p ∈ l) (hlast : l.getLast? ≠ some p) :
    ∃ q ∈ l, link p q := by
  induction l with
  | nil => cases hp
  | cons a l ih =>
    cases l with
    | nil => exact absurd (by rw [List.mem_singleton.1 hp, List.getLast?_singleton]) hlast
    | cons b l =>
      obtain ⟨hab, htail⟩ := List.isChain_cons_cons.1 h
      rcases List.mem_cons.1 hp with rfl | hp
      · exact ⟨b, by simp, hab⟩
      · obtain ⟨q, hq, hpq⟩ := ih htail hp (by rwa [List.getLast?_cons_cons] at hlast)
        exact ⟨q, List.mem_cons_of_mem a hq, hpq⟩

theorem isChain_and {link' : π → π → Prop} (h : l.IsChain link) (h' : l.IsChain link') :
    l.IsChain fun a b => link a b ∧ link' a b := by
  induction l with
  | nil => exact List.isChain_nil
  | cons a l ih =>
    cases l with
    | nil => exact List.isChain_singleton a
    | cons b l =>
      obtain ⟨hab, htail⟩ := List.isChain_cons_cons.1 h
      obtain ⟨hab', htail'⟩ := List.isChain_cons_cons.1 h'
      exact List.isChain_cons_cons.2 ⟨⟨hab, hab'⟩, ih htail htail'⟩

/-- The last is what everything reaches. -/
theorem reach_last (h : l.IsChain link) (hp : p ∈ l) (hlast : l.getLast? = some q) :
    Relation.ReflTransGen link p q := by
  induction l generalizing p with
  | nil => cases hp
  | cons a l ih =>
    cases l with
    | nil =>
      obtain rfl := List.mem_singleton.1 hp
      obtain rfl := Option.some.inj hlast
      exact .refl
    | cons b l =>
      obtain ⟨hab, htail⟩ := List.isChain_cons_cons.1 h
      rw [List.getLast?_cons_cons] at hlast
      rcases List.mem_cons.1 hp with rfl | hp
      · exact .head hab (ih htail List.mem_cons_self hlast)
      · exact ih htail hp hlast

/-- **A stack is what its top reaches.** -/
theorem mem_iff_reach (h : Rooted link (p :: l)) :
    q ∈ p :: l ↔ Relation.ReflTransGen link p q := by
  induction l generalizing p with
  | nil =>
    rw [List.mem_singleton]
    constructor
    · rintro rfl
      exact .refl
    · intro hr
      rcases hr.cases_head with rfl | ⟨b, hb, -⟩
      · rfl
      · exact absurd hb (h.root p rfl b)
  | cons p' l ih =>
    have hpp' := (List.isChain_cons_cons.1 h.chain).1
    rw [List.mem_cons, ih h.tail]
    constructor
    · rintro (rfl | hr)
      · exact .refl
      · exact .head hpp' hr
    · intro hr
      rcases hr.cases_head with rfl | ⟨b, hb, hr⟩
      · exact .inl rfl
      · exact .inr (h.unique hpp' hb ▸ hr)

/-- **Nothing on a stack reaches itself.** -/
theorem acyclic (h : Rooted link (p :: l)) (hnd : (p :: l).Nodup) (hq : q ∈ p :: l) :
    ¬ Relation.TransGen link q q := by
  induction l generalizing p with
  | nil =>
    obtain rfl := List.mem_singleton.1 hq
    intro hc
    obtain ⟨b, hb, -⟩ := Relation.TransGen.head'_iff.1 hc
    exact h.root q rfl b hb
  | cons p' l ih =>
    have hpp' := (List.isChain_cons_cons.1 h.chain).1
    rw [List.nodup_cons] at hnd
    rcases List.mem_cons.1 hq with rfl | hq
    · intro hc
      obtain ⟨b, hb, hr⟩ := Relation.TransGen.head'_iff.1 hc
      obtain rfl := h.unique hpp' hb
      exact hnd.1 ((mem_iff_reach h.tail).2 hr)
    · exact ih h.tail hnd.2 hq

end Links

end CallStacks

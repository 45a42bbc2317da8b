import Kernel391.SupportProof

/-!
# The history of a process

`History im p c tr k`: in a run of the machine that is in the state `k` now, process `p` was started
with the command `c` and has made the actions `tr` since. Between them is whatever else happened:
ticks, keys, page faults, and the actions of other programs.

* `History.alone` — those actions are a run of `alone`.
* `History.ensures` — so what a program ensures by itself, it ensures on the machine.
-/

namespace Kernel391

open Bytes Runs Interaction User

/-- What process `p` has done in a run of the machine since the command `c` started it. -/
inductive History (im : Image) (p : Nat) (c : CString) : List (Act × Answer) → Kernel → Prop
  | start {k₀ k k' : Kernel} {before : List (OsEvent × Report)} {e : OsEvent} {r : Report} :
      Run (Guarded (Orderly im) (os im)) (entry k₀) before k → Orderly im k e → Commands k c e →
      OsStep im k e r k' → r.answer = .went (.started p) → History im p c [] k'
  | step {tr : List (Act × Answer)} {k k' : Kernel} {e : OsEvent} {r : Report} :
      History im p c tr k → Orderly im k e → AsksOwn p k e → OsStep im k e r k' →
      LivesOn p (e, r) → History im p c (tr ++ (own p (e, r)).toList) k'

section Histories

variable {im : Image} {p : Nat} {c c' : CString} {tr : List (Act × Answer)}
  {k k' : Kernel} {e : OsEvent} {r : Report}

theorem Commands.unique (h : Commands k c e) (h' : Commands k c' e) : c = c' := by
  cases e with
  | act d a =>
    cases a with
    | execute command => exact Option.some.inj (Option.some.inj (h.symm.trans h'))
    | _ => exact h.trans h'.symm
  | _ => exact h.trans h'.symm

namespace History

theorem settled (h : History im p c tr k) :
    ∃ k₀ before, Run (Guarded (Orderly im) (os im)) (entry k₀) before k := by
  induction h with
  | start hrun hord _ hr _ => exact ⟨_, _, hrun.snoc ⟨hord, hr⟩⟩
  | step _ hord _ hr _ ih =>
    obtain ⟨k₀, before, hrun⟩ := ih
    exact ⟨k₀, _, hrun.snoc ⟨hord, hr⟩⟩

/-- **A process is alone**: its actions since its start are a run of `alone`, from what a program
starts with. -/
theorem alone (him : HasShell im) (hok : im.Ok) (h : History im p c tr k) :
    (∃ m, Lives im p k m) ∧ ∃ v, Fresh im c v ∧ Run (alone im) v tr (view p k) := by
  induction h with
  | start hrun hord hc hr hstart =>
    obtain ⟨m, hm, hl⟩ := settled_lines him hrun
    obtain ⟨hlives, c', hc', hfresh⟩ := lives_started him hm hl hord hr hstart
    exact ⟨hlives, _, hc.unique hc' ▸ hfresh, .nil⟩
  | step _ hord hasks hr hl ih =>
    obtain ⟨⟨m, hm⟩, v, hfresh, hrun⟩ := ih
    obtain ⟨hlives, hvis⟩ := hm.step him hok hord hasks hr hl
    refine ⟨hlives, v, hfresh, ?_⟩
    revert hvis
    cases own p (_, _) with
    | none =>
      intro hvis
      rwa [Option.toList_none, List.append_nil, hvis]
    | some l => exact fun hvis => hrun.snoc hvis

/-- What a program ensures by itself, it ensures on the machine. -/
theorem ensures {α : Type} {B : List (Act × Answer) → UserView → Act → Prop} {prog q : User α}
    {Q : List (Act × Answer) → UserView → α → Prop} (him : HasShell im) (hok : im.Ok)
    (h : History im p c tr k) (hp : Path prog tr q)
    (hends : ∀ v, Fresh im c v → Ensures (Kernel391.alone im) B prog [] v Q) :
    Ensures (Kernel391.alone im) B q tr (view p k) Q := by
  obtain ⟨-, v, hfresh, hrun⟩ := h.alone him hok
  simpa using (hends v hfresh).path hp hrun

end History

/-- The first tick starts a shell. -/
theorem history_first (him : HasShell im) (k₀ : Kernel) :
    ∃ k, History im 1 shell [] k ∧ k.process = 1 := by
  have hd : 0 < 0x1FFF := by decide
  obtain ⟨o, k₁, h₁, ho, -, hst⟩ := booting_tick him (booting_boot (sameButScreen_entry k₀))
    (by decide) hd
  have hnext : schedulerNext im ((entry k₀).sp 0) (entry k₀) = some (.started 1, k₁) := ho ▸ h₁.step
  have hproc : k₁.process = 1 := by
    rw [Kernel.process, hst.cpu]
    rfl
  have htick : OsStep im (entry k₀) (.tick 0) ⟨.went (.started 1), (entry k₀).process, 1⟩ k₁ :=
    ⟨hd, ⟨_, hnext, rfl⟩, rfl, hproc.symm⟩
  have hord : Orderly im (entry k₀) (.tick 0) := trivial
  have hc : Commands (entry k₀) shell (.tick 0) := rfl
  exact ⟨k₁, .start .nil hord hc htick rfl, hproc⟩

end Histories

end Kernel391

import Kernel391.AloneProof

/-!
# A program among others

From its start to its end, a process takes part in a run of the machine in which other programs
run, keys are pressed and the clock ticks. What the process has, and what its own actions do, is a
run of `alone` all the same.

* `fresh_started` — what a process has when it starts.
* `Lives.step` — a step of the machine is, for a process that lives on, its own action or nothing.
* `runs_alone` — and so is a run.
-/

namespace Kernel391

open Bytes Runs CallStacks

/-! ## The start -/

section Start

variable {im : Image} {sp pid p : Nat} {prog : Program} {eip : UInt32} {k k' : Kernel}
  {c : CString} {e : OsEvent} {r : Report} {status : UInt8} {m : Machine TermId Nat}

theorem tidy_startedPcb (hidx : 1 ≤ prog.argIdx) (hsize : prog.argSize ≤ 128) (old : Pcb) :
    Tidy im (startedPcb pid sp prog old) where
  pos i h2 h7 hi := by
    rw [(fdInv_started pid sp prog old).2 i h2 h7] at hi
    exact absurd hi inuse_ne_notinuse.symm
  args := by
    obtain ⟨hle, -⟩ := strlenMax_spec (fun i => prog.argArr (prog.argIdx + i))
      (prog.argSize - prog.argIdx)
    have hlt : strlenMax (fun i => prog.argArr (prog.argIdx + i)) (prog.argSize - prog.argIdx) <
        pcbMaxArgs := by
      rw [pcbMaxArgs]
      omega
    refine ⟨_, hlt, ?_⟩
    simp only [startedPcb, newPcb, setUpFdsandargs]
    split <;>
    · dsimp only [setUpStdout, setUpStdin, Pcb.setFd]
      rw [store_of_not (by omega), store_of_lt (by omega) (by omega)]

/-- What `execute` leaves to the new process. -/
theorem fresh_execute (h : execute im sp (some c) k = .started pid eip k') :
    Fresh im c (view pid k') ∧ Tidy im (k'.pcbMem (pcbAddr pid)) := by
  obtain ⟨prog, hlook, -, hroom, hload⟩ := loaded_execute h
  obtain ⟨prog', hlook', hpcb⟩ := execute_pcb h
  obtain rfl := Option.some.inj (hlook.symm.trans hlook')
  obtain ⟨-, h₁, h₆, -⟩ := freeSlot_eq_some.1 (started_of_execute h).free
  have hm : Mapped pid k' := ⟨h₁, h₆, (started_of_execute h).user_entry⟩
  have hlen : strlen c ≤ 128 := by
    rcases execute_cases im sp (some c) k with ⟨_, he, -⟩ | ⟨_, _, _, hc, hlen, -⟩
    · rw [he] at h
      cases h
    · obtain rfl := Option.some.inj hc
      exact hlen
  obtain ⟨hidx, hsize⟩ := lookupProgram_args hlook
  refine ⟨⟨⟨prog, hlook, slice_congr fun n hn => ?_⟩, fun fd => ?_, ?_, fun hlen => ?_⟩, ?_⟩
  · obtain ⟨hlo, hhi⟩ := hload.inPage n hn
    obtain ⟨pa, -, ht, hpa⟩ := hload.contiguous n hn
    have hin : InUserPage (virtualAddressForExecutableData + n) := ⟨hlo, hhi⟩
    rw [hm.translate .user hin] at ht
    rw [Nat.zero_add, ← fileContents_getD hn, ← hpa, ← Option.some.inj ht]
    exact if_pos hin
  · simp only [view]
    split_ifs with hfd
    · rw [openFile_eq_none, hpcb]
      exact (fdInv_started pid sp prog _).2 fd hfd.1 hfd.2
    · rfl
  · rw [← startedPcb_argSize pid sp hlook (k.pcbMem (pcbAddr pid)), ← hpcb]
    rfl
  · rw [storedArguments, ← argString_started pid sp hlen hlook (k.pcbMem (pcbAddr pid)), ← hpcb]
    rfl
  · rw [hpcb]
    exact tidy_startedPcb hidx (by omega) _

/-- A `halt` that starts a program starts the shell. -/
theorem halt_starts (h : halt im sp status k = some (.started p, k')) :
    ∃ eip k₁, execute im sp (some shell) k₁ = .started p eip k' := by
  have hrest {curr : Nat} {k₁ : Kernel} (hr : haltRest curr status k₁ = some (.started p, k')) :
      False := by
    rw [haltRest_eq] at hr
    obtain ⟨_, -, hr⟩ := Option.map_eq_some_iff.1 hr
    cases (Prod.mk.inj hr).1
  unfold halt at h
  dsimp only at h
  split at h
  · split at h
    · rename_i pid eip k₁ he
      obtain ⟨ho, rfl⟩ := Prod.mk.inj (Option.some.inj h)
      injection ho with ho
      subst ho
      exact ⟨eip, _, he⟩
    · exact (hrest h).elim
    · cases h
  · exact (hrest h).elim

/-- **The programs that start** are what `execute` starts with the command of the event. -/
theorem started_by (h : Settled k m) (hord : Orderly im k e) (hr : OsStep im k e r k')
    (hans : r.answer = .went (.started p)) :
    ∃ sp c eip k₁, Commands k c e ∧ execute im sp (some c) k₁ = .started p eip k' := by
  have hs := hr.step
  rw [hans] at hs
  cases e with
  | tick d =>
    obtain ⟨_, hs, ho⟩ := hs
    injection ho with ho
    subst ho
    rcases schedulerNext_cases hs with ⟨-, hc, -⟩ | ⟨-, ⟨pid, eip, he, hc⟩ | ⟨_, -, hc, -⟩ |
      ⟨_, -, hh⟩⟩
    · cases hc
    · injection hc with hc
      subst hc
      exact ⟨_, shell, eip, _, rfl, he⟩
    · cases hc
    · rw [handle14] at hh
      obtain ⟨eip, k₁, he⟩ := halt_starts hh
      exact ⟨_, shell, eip, k₁, rfl, he⟩
  | key ev => cases hs.2
  | act d a =>
    have hcpu := hs.1
    have hs := hord.performs hs
    cases h with
    | idle h => exact absurd h.represents.cpu hcpu
    | sound h =>
      rcases sameThreads_performs h hr.depth hs with ⟨-, -, hc⟩ | ⟨command, rfl⟩ | ⟨status, rfl⟩
      · exact absurd rfl (hc _)
      · obtain ⟨c, _, hc, hs, ho⟩ := hs
        injection ho with ho
        subst ho
        have hturn : InTurn im k (.execute d c) := fun prog hacc => hord.2 c prog hc hacc
        rcases callExecute_completes hturn.completes hs with
          ⟨pid, eip, _, hp, he, _, _, rfl, -⟩ | ⟨hc, -⟩
        · injection hp with hp
          subst hp
          exact ⟨_, _, eip, k, hc, he⟩
        · cases hc
      · obtain ⟨_, hs, ho⟩ := hs
        injection ho with ho
        subst ho
        obtain ⟨eip, k₁, he⟩ := halt_starts hs
        exact ⟨_, shell, eip, k₁, rfl, he⟩
  | fault d address =>
    obtain ⟨-, _, hs, ho⟩ := hs
    injection ho with ho
    subst ho
    obtain ⟨eip, k₁, he⟩ := halt_starts hs
    exact ⟨_, shell, eip, k₁, rfl, he⟩

end Start

/-! ## Lines -/

section Lines

variable {im : Image} {sp curr : Nat} {k k' : Kernel} {m : Machine TermId Nat} {e : OsEvent}
  {r : Report}

theorem LinesOk.same (h : LinesOk k) (hs : k'.numberofchars = k.numberofchars) : LinesOk k' :=
  fun t => (congrFun hs t).trans_le (h t)

theorem LinesOk.frame (h : LinesOk k) (hf : ProcFrame k k') : LinesOk k' :=
  h.same (funext fun t => (hf.input.lines t).count)

theorem LinesOk.screen (h : LinesOk k) (hs : SameButScreen k k') : LinesOk k' :=
  h.frame (.of_screen hs)

/-- A key leaves the finished lines as they are, or finishes the pending one. -/
theorem LinesOk.key {ev : KeyEvent} (h : LinesOk k) (hin : InputOk k)
    (hs : checkInput ev k = some k') : LinesOk k' := by
  have hr := received_checkInput hin hs
  intro t
  by_cases ht : t = k.visableTerm
  · subst ht
    have hlen := congrArg (fun l => l.committed.length) hr.visible
    have hold := h k.visableTerm
    have hpending := hin.noc_le k.visableTerm
    dsimp only [lineOf] at hlen
    rw [length_slice] at hlen
    rw [hlen]
    cases decodeKey k.chararray ev with
    | char c =>
      simp only [TermLine.edit]
      split <;> rwa [length_slice]
    | enter => rwa [TermLine.edit, length_slice]
    | _ => rwa [TermLine.edit, length_slice]
  · rw [(hr.others t ht).count]
    exact h t

theorem LinesOk.read {fd nbytes ret : Int} {b b' : Option Buf} (h : LinesOk k)
    (hs : Reads im curr fd b nbytes k ret b' k') : LinesOk k' := by
  cases hs with
  | refused => exact h
  | line _ _ hread =>
    unfold terminalRead at hread
    dsimp only at hread
    split at hread
    · obtain ⟨-, -, rfl⟩ : _ ∧ _ ∧ _ = k' := by simpa using hread
      intro t
      simp only [clearFlag, clearNumberofchars, clearTerminalBuffer]
      by_cases ht : t = k.currentTerm
      · rw [ht, Function.update_self]
        omega
      · rw [Function.update_of_ne ht]
        exact h t
    · cases hread
  | rtc => exact h
  | dir => exact h
  | file => exact h

/-- The calls leave the finished lines as they are, or take one away. -/
theorem LinesOk.performs {d : Nat} {a : Act} {ans : Answer} (hsound : Sound k m) (h : LinesOk k)
    (hd : d < 0x1FFF) (hs : performs im (k.sp d) k a ans k') : LinesOk k' := by
  have hput {k₁ : Kernel} (h₁ : LinesOk k₁) (va : Nat) (b : Option Buf) :
      LinesOk (k₁.putBuffer va b) := by
    unfold Kernel.putBuffer
    split <;> exact h₁
  cases a with
  | load va =>
    obtain ⟨-, _, -, -, rfl⟩ := hs
    exact h
  | store va c =>
    obtain ⟨-, _, -, -, rfl⟩ := hs
    exact h
  | «open» filename =>
    obtain ⟨_, _, _, -, hs, -⟩ := hs
    rcases sysOpen_pcb hs with rfl | ⟨_, rfl⟩ <;> exact h
  | close fd =>
    obtain ⟨_, hs, -⟩ := hs
    rcases sysClose_pcb hs with rfl | ⟨_, rfl⟩ <;> exact h
  | read fd buf nbytes =>
    obtain ⟨_, _, _, _, -, hs, -, -, rfl⟩ := hs
    exact hput (h.read (reads_of_sysRead (hsound.caller_fdInv hd) hs)) _ _
  | write fd buf nbytes =>
    obtain ⟨_, _, -, -, hs, -⟩ := hs
    rcases sysWrite_cases hs with ⟨-, rfl⟩ | ⟨b, -, rfl⟩
    · exact h
    · exact h.screen (.putsModified _ k)
  | getargs buf nbytes =>
    obtain ⟨_, -, -, -, rfl⟩ := hs
    exact hput h _ _
  | vidmap screenStart =>
    obtain ⟨_, hs, -⟩ := hs
    rcases vidmap_page hsound.mapped hsound.screen hs with ⟨-, -, rfl⟩ | ⟨-, -, -, rfl⟩ <;> exact h
  | setHandler signum handlerAddress =>
    obtain ⟨-, rfl⟩ := hs
    exact h
  | sigreturn =>
    obtain ⟨-, rfl⟩ := hs
    exact h
  | execute command =>
    obtain ⟨_, _, -, hs, -⟩ := hs
    rcases callExecute_some hs with ⟨_, _, -, he⟩ | ⟨-, he⟩ | ⟨_, he, hf⟩
    · exact h.frame (procFrame_started he)
    · exact h.frame (procFrame_failed he)
    · exact (h.frame (procFrame_pageFault he)).frame (procFrame_handle14 hf)
  | executeReturns => exact hs.elim
  | halt status =>
    obtain ⟨_, hs, -⟩ := hs
    exact h.frame (procFrame_halt hs)

/-- Every step keeps the finished lines in their bound. -/
theorem LinesOk.step (hm : Settled k m) (h : LinesOk k) (hord : Orderly im k e)
    (hr : OsStep im k e r k') : LinesOk k' := by
  have hin : InputOk k := by
    cases hm with
    | idle hm => exact hm.input
    | sound hm => exact hm.screen.input
  have hs := hr.step
  cases e with
  | tick d =>
    obtain ⟨_, hs, -⟩ := hs
    refine LinesOk.frame (k := scheduled (k.sp d) k) (h.same ?_) (procFrame_schedulerNext hs)
    rw [scheduled_eq]
    rfl
  | key ev => exact h.key hin hs.1
  | act d a =>
    cases hm with
    | idle hm => exact absurd hm.represents.cpu hs.1
    | sound hm => exact h.performs hm hr.depth (hord.performs hs)
  | fault d address =>
    obtain ⟨-, _, hs, -⟩ := hs
    have hprint := (SameButScreen.printf "Page Fault exception\n" k).trans
      (.printf ("The Exception occurred at:" ++ address) _)
    exact (h.screen hprint).frame (procFrame_halt hs)

end Lines

/-! ## The life of a process -/

/-- Process `p` is on the call stack of a terminal. -/
def OnStack (p : Nat) (m : Machine TermId Nat) : Prop := ∃ t, p ∈ m.stack t

/-- Process `p` lives, and what it has is in order. -/
structure Lives (im : Image) (p : Nat) (k : Kernel) (m : Machine TermId Nat) : Prop where
  sound : Sound k m
  onStack : OnStack p m
  tidy : Tidy im (k.pcbMem (pcbAddr p))
  lines : LinesOk k

section Life

variable {im : Image} {p : Nat} {k k' : Kernel} {m m' : Machine TermId Nat} {e : OsEvent}
  {r : Report}

theorem OnStack.push {t : TermId} {q : Nat} (h : OnStack p m) :
    OnStack p { m with stack := push t q m.stack } := by
  obtain ⟨u, hu⟩ := h
  by_cases htu : u = t
  · subst htu
    exact ⟨u, mem_update.2 (.inl ⟨rfl, List.mem_cons_of_mem _ hu⟩)⟩
  · exact ⟨u, mem_update.2 (.inr ⟨htu, hu⟩)⟩

theorem OnStack.pop (h : OnStack p m) (hne : p ≠ runningPid m) :
    OnStack p { m with stack := pop m.current m.stack } := by
  obtain ⟨u, hu⟩ := h
  by_cases htu : u = m.current
  · subst htu
    refine ⟨m.current, mem_update.2 (.inl ⟨rfl, ?_⟩)⟩
    rw [runningPid] at hne
    cases hstack : m.stack m.current with
    | nil =>
      rw [hstack] at hu
      cases hu
    | cons q l =>
      rw [hstack] at hu hne
      exact (List.mem_cons.1 hu).resolve_left hne
  · exact ⟨u, mem_update.2 (.inr ⟨htu, hu⟩)⟩

/-- Who is not ended stays on a stack. -/
theorem OnStack.step (h : OnStack p m) (hs : OsThread m e r m') (hl : LivesOn p (e, r)) :
    OnStack p m' := by
  cases hs with
  | stay => exact h
  | switch hsw ht hans hcaller hruns =>
    cases ht with
    | switch => exact h
    | shell ho hnil =>
      obtain ⟨u, hu⟩ := h
      refine ⟨u, mem_update.2 (.inr ⟨?_, hu⟩)⟩
      rintro rfl
      rw [hnil] at hu
      cases hu
    | failed => exact h
    | call => exact h.push
    | restart => exact h
    | resume =>
      refine h.pop ?_
      rintro rfl
      obtain ⟨hhalt, hfault⟩ := hl.2 hcaller
      cases hsw with
      | halt => exact hhalt _ _ rfl
      | fault => exact hfault _ _ rfl

/-- Who was just started is on a stack. -/
theorem onStack_started (hs : OsThread m e r m') (hstart : r.answer = .went (.started p)) :
    OnStack p m' := by
  cases hs with
  | stay hans => exact absurd hstart (hans _)
  | switch hsw ht hans hcaller hruns =>
    have ho := Answer.went.inj (hans.symm.trans hstart)
    cases ht with
    | switch hc => cases hc.symm.trans ho
    | shell hc =>
      injection hc.symm.trans ho with hp
      exact ⟨_, mem_update.2 (.inl ⟨rfl, List.mem_singleton.2 hp.symm⟩)⟩
    | failed hc => cases hc.symm.trans ho
    | call hc =>
      injection hc.symm.trans ho with hp
      exact ⟨_, mem_update.2 (.inl ⟨rfl, hp ▸ List.mem_cons_self⟩)⟩
    | restart hc hstack =>
      injection hc.symm.trans ho with hp
      exact ⟨_, hstack ▸ List.mem_singleton.2 hp.symm⟩
    | resume hc => cases hc.symm.trans ho

/-- The start of a process. -/
theorem lives_started (him : HasShell im) (h : Settled k m) (hl : LinesOk k) (hord : Orderly im k e)
    (hr : OsStep im k e r k') (hstart : r.answer = .went (.started p)) :
    (∃ m', Lives im p k' m') ∧ ∃ c, Commands k c e ∧ Fresh im c (view p k') := by
  obtain ⟨m', ht, h'⟩ := h.step him hord hr
  have hon := onStack_started ht hstart
  obtain ⟨sp, c, eip, k₁, hc, he⟩ := started_by h hord hr hstart
  obtain ⟨hfresh, htidy⟩ := fresh_execute he
  refine ⟨⟨m', ?_, hon, htidy, hl.step h hord hr⟩, c, hc, hfresh⟩
  cases h' with
  | sound h' => exact h'
  | idle h' =>
    obtain ⟨t, ht⟩ := hon
    cases ht

theorem Lives.range (h : Lives im p k m) : 1 ≤ p ∧ p ≤ 6 := by
  obtain ⟨tr, hm⟩ := h.sound.made
  obtain ⟨t, ht⟩ := h.onStack
  obtain ⟨_, -, hok⟩ := h.sound.represents.pcbOk hm ht
  exact ⟨hok.ge, hok.le⟩

/-- A step that leaves alone what `p` has: for `p` nothing happens, or its `execute` returns. -/
theorem visible_returned (hsame : SameUser p k k') :
    Visible (alone im) (view p k) (own.returned p r) (view p k') := by
  unfold own.returned
  split
  · split_ifs
    · exact ⟨hsame.view, _, rfl⟩
    · exact hsame.view
  · exact hsame.view

/-- A tick leaves alone what the processes have that it does not start. -/
theorem Lives.tick {d : Nat} (him : HasShell im) (h : Lives im p k m)
    (hr : OsStep im k (.tick d) r k') (ht : OsThread m (.tick d) r m')
    (hstart : r.answer ≠ .went (.started p)) : SameUser p k k' := by
  obtain ⟨o, hs, hans⟩ := hr.step
  have ho : o = .switched ∨ ∃ pid, o = .started pid := by
    cases ht with
    | stay hc => exact absurd hans (hc o)
    | switch hsw ht hans' =>
      have ho := Answer.went.inj (hans.symm.trans hans')
      cases hsw
      cases ht with
      | switch hc => exact .inl (ho.trans hc)
      | shell hc => exact .inr ⟨_, ho.trans hc⟩
  exact sameUser_tick him h.range.1 h.range.2 (fun hc => hstart (hans.trans (by rw [hc]))) ho hs

/-- The actions of other processes. -/
theorem Lives.act {d : Nat} {a : Act} (h : Lives im p k m) (hord : Orderly im k (.act d a))
    (hr : OsStep im k (.act d a) r k') (hne : p ≠ runningPid m)
    (hstart : r.answer ≠ .went (.started p)) : SameUser p k k' := by
  obtain ⟨hp, h₆⟩ := h.range
  have hd : d < 0x1FFF := hr.depth
  have hs := hord.performs hr.step
  by_cases hexec : ∃ command, a = .execute command
  · obtain ⟨command, rfl⟩ := hexec
    obtain ⟨c, o, hc, hs, hans⟩ := hs
    have hturn : InTurn im k (.execute d c) := fun prog hacc => hord.2 c prog hc hacc
    exact sameUser_execute h.sound.screen hp h₆ hturn.completes
      (fun hc => hstart (hans.trans (by rw [hc]))) hs
  by_cases hhalt : ∃ status, a = .halt status
  · obtain ⟨status, rfl⟩ := hhalt
    obtain ⟨o, hs, hans⟩ := hs
    refine sameUser_halt h.sound.screen hp h₆ ?_ (fun hc => hstart (hans.trans (by rw [hc]))) hs
    rw [h.sound.getPcbAddress hd]
    exact fun hc => hne (pcbAddr_inj h₆ h.sound.runningPid_pos.2 hc)
  · exact sameUser_performs h.sound hd hp h₆ hne
      ⟨fun c hc => hexec ⟨c, hc⟩, fun status hc => hhalt ⟨status, hc⟩⟩ hs

/-- **A step** of the machine is, for a process that lives on, its own action or nothing. -/
theorem Lives.step (him : HasShell im) (hok : im.Ok) (h : Lives im p k m)
    (hord : Orderly im k e) (hasks : AsksOwn p k e) (hr : OsStep im k e r k')
    (hl : LivesOn p (e, r)) :
    (∃ m', Lives im p k' m') ∧ Visible (alone im) (view p k) (own p (e, r)) (view p k') := by
  obtain ⟨m', ht, h'⟩ := h.sound.step him hord hr
  have hon := h.onStack.step ht hl
  have hcaller : r.caller = runningPid m := hr.caller.trans h.sound.process
  have hlives (htidy : Tidy im (k'.pcbMem (pcbAddr p))) : ∃ m', Lives im p k' m' :=
    ⟨m', h', hon, htidy, h.lines.step (.sound h.sound) hord hr⟩
  cases e with
  | tick d =>
    have hsame := h.tick him hr ht hl.1
    exact ⟨hlives (h.tidy.same hsame), hsame.view⟩
  | key ev =>
    obtain ⟨hs, -⟩ := hr.step
    have hsame : SameUser p k k' :=
      .of_high (sameHigh_checkInput h.sound.screen hs) (congrFun (checkInput_procs hs).pcbMem _)
    exact ⟨hlives (h.tidy.same hsame), hsame.view⟩
  | act d a =>
    by_cases hp : p = runningPid m
    · have hown : own p (.act d a, r) = some (a, r.answer) := if_pos (hcaller.trans hp.symm)
      rw [hown]
      subst hp
      have hhalt (status : UInt8) (hc : a = .halt status) : False :=
        (hl.2 hcaller).1 d status (congrArg (OsEvent.act d) hc)
      obtain ⟨halone, htidy⟩ :=
        alone_performs hok h.sound hr.depth h.tidy h.lines hord hasks hhalt hl.1
          (hord.performs hr.step)
      exact ⟨hlives htidy, halone⟩
    · have hown : own p (.act d a, r) = own.returned p r :=
        if_neg fun hc => hp (hc.symm.trans hcaller)
      rw [hown]
      have hsame := h.act hord hr hp hl.1
      exact ⟨hlives (h.tidy.same hsame), visible_returned hsame⟩
  | fault d address =>
    obtain ⟨-, o, hs, hans⟩ := hr.step
    obtain ⟨hp, h₆⟩ := h.range
    have hsame : SameUser p k k' := by
      refine sameUser_pageFaultAt h.sound.screen hp h₆ ?_
        (fun hc => hl.1 (hans.trans (by rw [hc]))) hs
      rw [h.sound.getPcbAddress (show d < 0x1FFF from hr.depth)]
      intro hc
      have hrun := pcbAddr_inj h₆ h.sound.runningPid_pos.2 hc
      exact (hl.2 (hcaller.trans hrun.symm)).2 d address rfl
    exact ⟨hlives (h.tidy.same hsame), visible_returned hsame⟩

end Life

/-! ## Runs -/

section Run

variable {im : Image} {p : Nat} {k₀ k k₁ : Kernel} {e : OsEvent} {r : Report}
  {before after : List (OsEvent × Report)}

/-- The machine, with the bound of the finished lines. -/
theorem settled_lines (him : HasShell im)
    (h : Run (Guarded (Orderly im) (os im)) (entry k₀) before k) :
    ∃ m, Settled k m ∧ LinesOk k := by
  have hlines : LinesOk (entry k₀) := fun t => by
    rw [(sameButScreen_entry k₀).kernel]
    exact Nat.zero_le _
  refine h.invariant (I := fun k => ∃ m, Settled k m ∧ LinesOk k)
    ⟨threadStart, .idle (idle_entry k₀), hlines⟩ ?_
  rintro k e r k' ⟨m, hm, hl⟩ hs
  obtain ⟨m', -, hm'⟩ := hm.step him hs.1 hs.2
  exact ⟨m', hm', hl.step hm hs.1 hs.2⟩

theorem imageOk_shellImage : shellImage.Ok where
  dir := dirOk_shellImage
  types := by decide +kernel
  files := filesOk_shellImage

end Run

end Kernel391

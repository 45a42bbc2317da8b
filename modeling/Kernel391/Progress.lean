import Kernel391.ProcessHistory

/-!
# Programs make progress

A process that runs can always go on: the kernel performs an immediate action at once, whatever has
happened before. So a program of immediate actions runs to its end, if it is left alone for long
enough.

* `performs_immediate` — the kernel performs immediate actions.
* `History.advances`, `History.finishes` — so a program goes on, and one of immediate actions
  finishes.
-/

namespace Kernel391

open Bytes Runs CallStacks Interaction User

/-! ## Calls that return -/

section Calls

variable {im : Image} {curr : Nat} {k k' : Kernel} {fd nbytes ret : Int} {b : Buf}
  {ob : Option Buf}

/-- A `read` that is not of the terminal returns. -/
theorem sysRead_returns (im : Image) (h : FdInv (k.pcbMem curr)) (h0 : fd ≠ 0) (b : Buf)
    (nbytes : Int) :
    ∃ ret ob k', sysRead im curr fd (some b) nbytes k = .returned (ret, ob, k') := by
  rcases h.open_or fd with hopen | hbad
  · rcases h.of_open hopen with ⟨rfl, -⟩ | ⟨rfl, -⟩ | ⟨h2, -, -, htab⟩
    · exact absurd rfl h0
    · exact ⟨_, _, _, sysRead_of_bad (.inl rfl)⟩
    · rw [sysRead_of_open b (by simp only [fdStdout]; omega) hopen, htab]
      rcases entry_tableOf ((k.pcbMem curr).fdArray fd.toNat).ftype .read with
        ⟨-, he⟩ | ⟨-, he⟩ | ⟨-, -, he⟩
      · rw [he]
        exact ⟨_, _, _, rfl⟩
      · rw [he]
        exact ⟨_, _, _, rfl⟩
      · rw [he]
        exact ⟨_, _, _, rfl⟩
  · exact ⟨_, _, _, sysRead_of_bad (.inr hbad)⟩

/-- And it keeps to the bytes that it was asked for. -/
theorem keepsTo_reads (him : im.Ok) (ht : Tidy im (k.pcbMem curr)) (h0 : fd ≠ 0)
    (hn : 1 ≤ nbytes ∧ nbytes < 2 ^ 31) (h : Reads im curr fd (some b) nbytes k ret ob k') :
    KeepsTo nbytes.toNat (some b) ob := by
  cases h with
  | refused => exact fun _ _ => rfl
  | line _ hfd => exact absurd hfd h0
  | rtc hb =>
    obtain rfl := Option.some.inj hb
    exact fun _ _ => rfl
  | dir hb h2 hopen htype =>
    obtain rfl := Option.some.inj hb
    have h7 := hopen.2.1
    have hfd : 2 ≤ fd.toNat ∧ fd.toNat ≤ 7 := by omega
    obtain ⟨hpos, hle, -⟩ := ht.pos fd.toNat hfd.1 hfd.2 hopen.2.2
    have h63 := him.dir.count_le
    have hidx := toNat_ofInt hpos (by have := hle htype; omega)
    by_cases hlt : ((k.pcbMem curr).fdArray fd.toNat).filePos.toNat < im.dirEntries.toNat
    · obtain ⟨b', heq, -, hrest⟩ :=
        dirRead_entry hfd hidx hlt (by omega) (him.dir.nonempty _ hlt) hn.1 b
      rw [heq]
      exact fun i hi => hrest i (by omega)
    · rw [dirRead_end hfd hidx (.inl (by omega))]
      exact fun _ _ => rfl
  | file hb h2 hopen htype =>
    obtain rfl := Option.some.inj hb
    have h7 := hopen.2.1
    obtain ⟨hpos, -, hfile⟩ := ht.pos fd.toNat (by omega) (by omega) hopen.2.2
    obtain ⟨hgood, hle⟩ := hfile htype
    obtain ⟨pos, hP⟩ := Int.eq_ofNat_of_zero_le hpos
    rw [fsRead_eq hn htype hgood hP (by omega) rfl]
    exact fun i hi => store_of_not (by omega)

/-- A `write` to the terminal returns. -/
theorem sysWrite_returns (h : FdInv (k.pcbMem curr)) (b : Buf) (nbytes : Int) :
    ∃ ret k', sysWrite curr 1 (some b) nbytes k = .returned (ret, k') := by
  have hopen : (k.pcbMem curr).Open 1 := ⟨by decide, by decide, h.stdout.1⟩
  rw [sysWrite_of_open b (by decide) hopen, show (1 : Int).toNat = 1 from rfl, h.stdout.2]
  exact ⟨_, _, rfl⟩

/-- `open` and `close` return. -/
theorem sysOpen_returns (im : Image) (curr : Nat) (name : Option CString) (d : Dentry)
    (k : Kernel) : ∃ ret k', sysOpen im curr name d k = .returned (ret, k') := by
  rcases sysOpen_cases im curr name d k with h | ⟨_, _, -, -, -, -, -, h⟩
  · exact ⟨_, _, h⟩
  · exact ⟨_, _, h⟩

theorem sysClose_returns (h : FdInv (k.pcbMem curr)) (fd : Int) :
    ∃ ret k', sysClose curr fd k = .returned (ret, k') := by
  by_cases hc : 2 ≤ fd ∧ (k.pcbMem curr).Open fd
  · exact ⟨_, _, (sysClose_eq h fd).1 hc.1 hc.2⟩
  · exact ⟨_, _, (sysClose_eq h fd).2 hc⟩

theorem keepsTo_getargs (b : Buf) (nbytes : Int) (p : Pcb) :
    KeepsTo nbytes.toNat (some b) (getargs (some b) nbytes p).2 := by
  unfold getargs
  dsimp only
  split_ifs
  · exact fun _ _ => rfl
  · exact fun i hi => if_neg (Nat.not_lt.2 hi)

theorem KeepsTo.mono {n m : Nat} {b b' : Option Buf} (h : KeepsTo n b b') (hm : n ≤ m) :
    KeepsTo m b b' := by
  cases b with
  | none => exact trivial
  | some b =>
    cases b' with
    | none => exact trivial
    | some b' => exact fun i hi => h i (hm.trans hi)

end Calls

/-! ## Immediate actions -/

section Immediate

variable {im : Image} {p d : Nat} {c : CString} {tr : List (Act × Answer)} {k : Kernel}
  {m : Machine TermId Nat} {a : Act} {v : UserView}

/-- **The kernel performs immediate actions** of the running program, if they make sense to it. -/
theorem performs_immediate (him : im.Ok) (h : Lives im p k m) (hp : p = runningPid m)
    (hd : d < 0x1FFF) (ha : Immediate (view p k) a) (hen : ∃ ans v', alone im (view p k) a ans v') :
    ∃ ans k', performs im (k.sp d) k a ans k' := by
  subst hp
  have hm := h.sound.mapped
  have hfd := h.sound.caller_fdInv hd
  have htidy : Tidy im (k.pcbMem (getPcbAddress (k.sp d))) := by
    rw [h.sound.getPcbAddress hd]
    exact h.tidy
  have hbuffer {buf : Nat} (hbuf : InUserPage buf) : ∃ b, k.buffer buf = some (some b) := by
    rw [hm.buffer, if_neg (inUserPage_ne_zero hbuf), if_pos hbuf]
    exact ⟨_, rfl⟩
  have hlow {va : Nat} (hva : InUserPage va) : va < 2 ^ 32 := by
    simp only [InUserPage, userPageEnd] at hva
    omega
  cases a with
  | load va => exact ⟨_, _, hlow ha, _, hm.translate .user ha, rfl, rfl⟩
  | store va c => exact ⟨_, _, hlow ha, _, hm.translate .user ha, rfl, rfl⟩
  | «open» filename =>
    obtain ⟨ans, v', name, hname, -⟩ := hen
    obtain ⟨ret, k', hs⟩ := sysOpen_returns im (getPcbAddress (k.sp d)) name default k
    exact ⟨_, k', name, default, ret, (hm.string filename).trans hname, hs, rfl⟩
  | close fd =>
    obtain ⟨ret, k', hs⟩ := sysClose_returns hfd fd
    exact ⟨_, k', ret, hs, rfl⟩
  | read fd buf nbytes =>
    obtain ⟨h0, -, hbuf, hn, hroom⟩ := ha
    obtain ⟨b, hb⟩ := hbuffer hbuf
    obtain ⟨ret, ob, k', hs⟩ := sysRead_returns im hfd h0 b nbytes
    have hlt : nbytes < 2 ^ 31 := by
      simp only [userPageEnd] at hroom
      omega
    have hkeeps := keepsTo_reads him htidy h0 ⟨hn, hlt⟩ (reads_of_sysRead hfd hs)
    exact ⟨_, _, some b, ret, ob, k', hb, hs, hkeeps.mono (by omega), rfl, rfl⟩
  | write fd buf nbytes =>
    obtain ⟨rfl, hbuf, hroom⟩ := ha
    obtain ⟨b, hb⟩ := hbuffer hbuf
    obtain ⟨ret, k', hs⟩ := sysWrite_returns hfd b nbytes
    exact ⟨_, k', some b, ret, hb, .inr (by omega), hs, rfl⟩
  | getargs buf nbytes =>
    obtain ⟨hbuf, hroom⟩ := ha
    obtain ⟨b, hb⟩ := hbuffer hbuf
    have hkeeps := keepsTo_getargs b nbytes (k.pcbMem (getPcbAddress (k.sp d)))
    exact ⟨_, _, some b, hb, hkeeps.mono (by omega), rfl, rfl⟩
  | _ => exact ha.elim

theorem Immediate.startsInTurn (ha : Immediate v a) (im : Image) (k : Kernel) :
    StartsInTurn im k a := by
  cases a with
  | execute command => exact ha.elim
  | _ => exact trivial

theorem Immediate.asksOwn (ha : Immediate v a) (p : Nat) (k : Kernel) (d : Nat) :
    AsksOwn p k (.act d a) := by
  cases a with
  | read fd buf nbytes =>
    obtain ⟨-, -, -, hn, hroom⟩ := ha
    simp only [userPageEnd] at hroom
    exact fun _ => ⟨hn, by omega⟩
  | _ => exact trivial

/-- A process that runs goes on with an immediate action. -/
theorem History.immediate (him : HasShell im) (hok : im.Ok) (h : History im p c tr k)
    (hp : k.process = p) (ha : Immediate (view p k) a)
    (hen : ∃ ans v', Kernel391.alone im (view p k) a ans v') :
    ∃ ans k', History im p c (tr ++ [(a, ans)]) k' ∧ k'.process = p ∧
      Kernel391.alone im (view p k) a ans (view p k') := by
  obtain ⟨⟨m, hm⟩, -⟩ := h.alone him hok
  have hd : 0 < 0x1FFF := by decide
  have hrun : p = runningPid m := hp.symm.trans hm.sound.process
  obtain ⟨ans, k', hs⟩ := performs_immediate hok hm hrun hd ha hen
  obtain ⟨hsame, -, hans⟩ : SameThreads k k' ∧ ScreenInv k' ∧ ∀ o, ans ≠ .went o := by
    rcases sameThreads_performs hm.sound hd hs with hsame | ⟨_, rfl⟩ | ⟨_, rfl⟩
    · exact hsame
    · exact ha.elim
    · exact ha.elim
  have hproc : k'.process = p := by rw [Kernel.process, hsame.cpu, ← Kernel.process, hp]
  have hr : OsStep im k (.act 0 a) ⟨ans, p, p⟩ k' :=
    ⟨hd, ⟨hm.sound.program, .inr hs⟩, hp.symm, hproc.symm⟩
  have hl : LivesOn p (.act 0 a, ⟨ans, p, p⟩) := by
    refine ⟨hans _, fun _ => ⟨?_, fun _ _ hc => by cases hc⟩⟩
    rintro d status hc
    injection hc with _ hc
    rw [hc] at ha
    exact ha
  have hown : own p (.act 0 a, ⟨ans, p, p⟩) = some (a, ans) := if_pos rfl
  have hord : Orderly im k (.act 0 a) := ⟨not_strays hs, ha.startsInTurn im k⟩
  have hstep := h.step hord (ha.asksOwn p k 0) hr hl
  obtain ⟨-, hvis⟩ := hm.step him hok hord (ha.asksOwn p k 0) hr hl
  rw [hown] at hstep hvis
  exact ⟨ans, k', hstep, hproc, hvis⟩

end Immediate

/-! ## Programs that go on -/

section Finish

variable {im : Image} {p : Nat} {c : CString} {tr : List (Act × Answer)} {k : Kernel} {α : Type}
  {B : Allowance} {prog q : User α} {Q : List (Act × Answer) → UserView → α → Prop}

/-- `q` has returned, or its next action is not immediate. -/
def Rests {α : Type} (v : UserView) : User α → Prop
  | .ret _ => True
  | .act a _ => ¬ Immediate v a
  | .stuck => False

/-- **A program goes on** to its next action that is not immediate, if it is left alone. -/
theorem History.advances (him : HasShell im) (hok : im.Ok) (h : History im p c tr k)
    (hp : k.process = p) (hq : Ends im B q tr (view p k) Q) :
    ∃ l k' q', History im p c (tr ++ l) k' ∧ k'.process = p ∧ Path q l q' ∧
      Ends im B q' (tr ++ l) (view p k') Q ∧ Rests (view p k') q' := by
  -- the state of the program is that of its process, which runs
  let I := fun (tr : List (Act × Answer)) v =>
    ∃ k, History im p c tr k ∧ k.process = p ∧ view p k = v
  obtain ⟨l, v, q', hl, ⟨k', h', hp', rfl⟩, hq', hstop⟩ := Ensures.advances (I := I) (by
    rintro tr v a ⟨k, h, hp, rfl⟩ ha hen
    obtain ⟨ans, k', h', hp', hs⟩ := h.immediate him hok hp ha hen
    exact ⟨ans, _, hs, k', h', hp', rfl⟩) hq ⟨k, h, hp, rfl⟩
  refine ⟨l, k', q', h', hp', hl, hq', ?_⟩
  cases q' with
  | ret a => exact trivial
  | act a next => exact hstop a next rfl
  | stuck => exact hq'.elim

/-- **A program of immediate actions finishes.** -/
theorem History.finishes (him : HasShell im) (hok : im.Ok) (h : History im p c tr k)
    (hp : k.process = p) (hq : Ends im (fun _ v a => Immediate v a) q tr (view p k) Q) :
    ∃ l k' a, History im p c (tr ++ l) k' ∧ k'.process = p ∧ Path q l (.ret a) ∧
      Q (tr ++ l) (view p k') a := by
  obtain ⟨l, k', q', h', hp', hl, hq', hstop⟩ := h.advances him hok hp hq
  cases q' with
  | ret a => exact ⟨l, k', a, h', hp', hl, hq'⟩
  | act a next => exact absurd hq'.1 hstop
  | stuck => exact hq'.elim

end Finish

end Kernel391

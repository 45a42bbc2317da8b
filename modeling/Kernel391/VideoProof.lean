import Kernel391.ProcessRun

/-!
# Where the screen is mapped

Two page table entries say where text goes: the one behind `video_mem`, and the one behind the
pointer that `vidmap` hands out. Ticks and keyboard interrupts leave both at the page that shows
the current terminal (`VideoOk`). `vidmap` alone does not: it points its entry at video memory,
whichever terminal is visible.

* `checkInput_screen` — what a keyboard interrupt does on the screen.
* `videoOk_vidmap_iff` — a successful `vidmap` keeps the mapping right exactly when the current
  terminal is the visible one.
* `video_mapping_from_boot` — in runs in which `vidmap` is called only then, every step leaves
  both entries at the page of the current terminal.
-/

namespace Kernel391

open Bytes Runs X86

/-! ## Screen frames -/

/-- Nothing that is shown, or where it is mapped, differs. -/
structure SameScreen (k k' : Kernel) : Prop where
  phys : k'.phys = k.phys
  paging : k'.paging = k.paging
  visableTerm : k'.visableTerm = k.visableTerm
  currentTerm : k'.currentTerm = k.currentTerm
  cursorX : ∀ t, (k'.terminals t).screenX = (k.terminals t).screenX
  cursorY : ∀ t, (k'.terminals t).screenY = (k.terminals t).screenY

namespace SameScreen

variable {k k₁ k' : Kernel} {n : Nat} {c : UInt8}

theorem refl (k : Kernel) : SameScreen k k := ⟨rfl, rfl, rfl, rfl, fun _ => rfl, fun _ => rfl⟩

theorem trans (h₁ : SameScreen k k₁) (h₂ : SameScreen k₁ k') : SameScreen k k' :=
  ⟨h₂.phys.trans h₁.phys, h₂.paging.trans h₁.paging, h₂.visableTerm.trans h₁.visableTerm,
    h₂.currentTerm.trans h₁.currentTerm, fun t => (h₂.cursorX t).trans (h₁.cursorX t),
    fun t => (h₂.cursorY t).trans (h₁.cursorY t)⟩

theorem setKey (i : Nat) (c : UInt8) (k : Kernel) : SameScreen k (k.setKey i c) :=
  ⟨rfl, rfl, rfl, rfl, fun _ => rfl, fun _ => rfl⟩

theorem setLinebuffer (b : Buf) (k : Kernel) : SameScreen k { k with linebuffer := b } :=
  ⟨rfl, rfl, rfl, rfl, fun _ => rfl, fun _ => rfl⟩

theorem setLineChar (h : setLineChar n c k = some k') : SameScreen k k' := by
  unfold Kernel391.setLineChar at h
  split at h
  · cases h
    exact .setLinebuffer _ k
  · cases h

theorem setGlobalBuffer (h : setGlobalBuffer n k = some k') : SameScreen k k' := by
  obtain ⟨lb, -, h⟩ := Option.bind_eq_some_iff.1 h
  cases h
  refine ⟨rfl, rfl, rfl, rfl, fun t => ?_, fun t => ?_⟩ <;>
  · by_cases ht : t = k.visableTerm
    · subst ht
      simp
    · simp [ht]

theorem setTerminalBuffer (h : setTerminalBuffer n k = some k') : SameScreen k k' := by
  obtain ⟨buf, -, h⟩ := Option.bind_eq_some_iff.1 h
  split at h
  · cases h
    exact ⟨rfl, rfl, rfl, rfl, fun _ => rfl, fun _ => rfl⟩
  · cases h

theorem setLineBuffer (h : setLineBuffer k = some k') : SameScreen k k' := by
  obtain ⟨lb, -, h⟩ := Option.bind_eq_some_iff.1 h
  cases h
  exact .setLinebuffer _ k

/-- Setting the cursor to where it is. -/
theorem setposition (k : Kernel) :
    SameScreen k (setposition (globalConsole.getX k) (globalConsole.getY k) k) := by
  refine ⟨rfl, rfl, rfl, rfl, fun t => ?_, fun t => ?_⟩ <;>
  · by_cases ht : t = k.visableTerm
    · subst ht
      simp [Kernel391.setposition, globalConsole, Kernel.setScreenX, Kernel.setScreenY]
    · simp [Kernel391.setposition, globalConsole, Kernel.setScreenX, Kernel.setScreenY]

theorem setWriteToVideomem (h : SameScreen k k') :
    SameScreen k.setWriteToVideomem k'.setWriteToVideomem :=
  ⟨h.phys, congrArg pagingSetWriteToVideomem h.paging, h.visableTerm, h.currentTerm, h.cursorX,
    h.cursorY⟩

end SameScreen

/-! ## Echo -/

/-- What a key shows on a console when the pending line has `n` characters. -/
def Console.echo {σ : Type*} (C : Console σ) (n : Nat) (s : σ) : LineKey → σ
  | .char c => if n < 127 then C.putc c s else s
  | .backspace => if n ≠ 0 then C.handlebackspace s else s
  | .enter => C.putc newline s
  | .clearScreen => C.setY 0 (C.setX 0 (C.clear s))
  | .other => s

theorem Console.Closed.echo {σ : Type*} {C : Console σ} {P : σ → Prop} (h : C.Closed P) (n : Nat)
    {s : σ} (hs : P s) (key : LineKey) : P (C.echo n s key) := by
  cases key with
  | char c => exact Closed.ite (h.putc c hs) hs
  | backspace => exact Closed.ite (h.handlebackspace hs) hs
  | enter => exact h.putc newline hs
  | clearScreen => exact h.setY _ _ (h.setX _ _ (h.clear hs))
  | other => exact hs

/-- `k'` is `k` after the echo of a key. -/
def Echoes (n : Nat) (key : LineKey) (k k' : Kernel) : Prop :=
  ∃ k₁, SameScreen k k₁ ∧ SameScreen (globalConsole.echo n k₁ key) k'

section Keys

variable {k k₁ k' : Kernel} {n : Nat} {ev : KeyEvent} {key : LineKey}

theorem Echoes.of_same (h : SameScreen k k') : Echoes n .other k k' := ⟨k, .refl k, h⟩

theorem echoes_putKey {c : UInt8} (hn : n < 127) (h : putKey c n k = some k') :
    Echoes n (.char c) k k' := by
  obtain ⟨k₁, h₁, h₂⟩ := Option.bind_eq_some_iff.1 h
  refine ⟨k₁, .setLineChar h₁, ?_⟩
  rw [Console.echo, if_pos hn]
  exact .setGlobalBuffer h₂

theorem echoes_append {c : UInt8} (hn : n ≤ 127)
    (h : (if n ≠ keyboardBufferLength - 1 then putKey c n k else some k) = some k') :
    Echoes n (.char c) k k' := by
  by_cases hne : n ≠ keyboardBufferLength - 1
  · have : n ≠ 127 := hne
    exact echoes_putKey (by omega) (by rwa [if_pos hne] at h)
  · have : ¬ n ≠ 127 := hne
    rw [if_neg hne] at h
    cases h
    refine ⟨k, .refl k, ?_⟩
    rw [Console.echo, if_neg (by omega)]
    exact .refl k

theorem echoes_backspace (h : backspaceKey n k = some k') : Echoes n .backspace k k' := by
  unfold backspaceKey at h
  refine ⟨k, .refl k, ?_⟩
  rw [Console.echo]
  split at h
  · rw [if_pos ‹_›]
    obtain ⟨k₁, h₁, h₂⟩ := Option.bind_eq_some_iff.1 h
    exact (SameScreen.setLineChar h₁).trans (.setGlobalBuffer h₂)
  · cases h
    rw [if_neg ‹_›]
    exact .refl k

theorem echoes_enter (hk : k.chararray enter = newline) (h : enterKey n k = some k') :
    Echoes n .enter k k' := by
  obtain ⟨k₁, h₁, h⟩ := Option.bind_eq_some_iff.1 h
  obtain ⟨k₂, h₂, h₃⟩ := Option.bind_eq_some_iff.1 h
  refine ⟨k, .refl k, ?_⟩
  rw [Console.echo, ← hk]
  exact ((SameScreen.setLineChar h₁).trans (.setTerminalBuffer h₂)).trans
    ((SameScreen.setLinebuffer _ k₂).trans (.setGlobalBuffer h₃))

theorem echoes_clear
    (h : setGlobalBuffer 0 (clearLinebuffer (setposition 0 0 (clear k))) = some k') :
    Echoes n .clearScreen k k' :=
  ⟨k, .refl k, (SameScreen.setLinebuffer _ _).trans (.setGlobalBuffer h)⟩

theorem echoes_charKey {c temp : UInt8} (hn : n ≤ 127) (h : charKey c temp n k = some k') :
    Echoes n (decodeChar k.chararray c temp) k k' := by
  have happend (c : UInt8)
      (h : (if n ≠ keyboardBufferLength - 1 then putKey c n k else some k) = some k') :
      Echoes n (.char c) k k' := echoes_append hn h
  unfold charKey Kernel.isDown at h
  unfold decodeChar
  dsimp only at h ⊢
  generalize (if (k.chararray capslock == keyDown && _) = true then c else c - 32) = letter at h ⊢
  split at h
  · rw [if_pos ‹_›]
    split at h
    · rw [if_pos ‹_›]
      exact echoes_clear h
    · rw [if_neg ‹_›]
      exact happend _ h
  · rw [if_neg ‹_›]
    by_cases h0 : c = 0
    · rw [if_pos h0]
      simp only [h0, ne_eq, not_true_eq_false, false_and, if_false, ite_self] at h
      cases h
      exact .of_same (.refl k)
    · simp only [h0, ne_eq, not_false_eq_true, true_and, if_false] at h ⊢
      split at h
      · rw [if_pos ‹_›]
        exact happend _ h
      · rw [if_neg ‹_›]
        exact happend _ h

theorem echoes_default (hk : InputOk k) (hn : n = getCurrentNoc k)
    (h : defaultKey ev n k = some k') :
    Echoes n (decodeChar k.chararray (k.keyAt ev) ev.temp) k k' ∨
      decodeChar k.chararray (k.keyAt ev) ev.temp = .other ∧ ∃ t, k' = switchTerminals t k := by
  have hle : n ≤ 127 := hn ▸ hk.noc_le k.visableTerm
  unfold defaultKey at h
  split at h
  · dsimp only at h
    rcases switchKey_cases ev.code.toNat k with hsw | ⟨hf, t, hsw⟩
    · rw [hsw, ← hn] at h
      exact .inl (echoes_charKey hle h)
    · have hzero : k.keyAt ev = 0 := keyAt_fkey hk hf
      have hsame := SameInput.switchTerminals t k
      rw [hsw, Kernel.keyAt, hsame.chararray, ← Kernel.keyAt, hzero, charKey_zero] at h
      cases h
      refine .inr ⟨?_, t, rfl⟩
      rw [hzero, decodeChar_zero]
  · exact .inl (echoes_charKey hle h)

/-- A key echoes, or switches terminals. -/
theorem handleKey_screen (hk : InputOk k) (hn : n = getCurrentNoc k)
    (h : handleKey ev n k = some k') :
    Echoes n (decodeKey k.chararray ev) k k' ∨
      decodeKey k.chararray ev = .other ∧ ∃ t, k' = switchTerminals t k := by
  unfold handleKey at h
  unfold decodeKey
  by_cases hm : ev.code.toNat ∈ modifierCodes
  · rw [if_pos hm]
    simp only [modifierCodes, List.mem_cons, List.not_mem_nil, or_false] at hm
    refine .inl (.of_same ?_)
    rcases hm with hm | hm | hm | hm | hm | hm | hm | hm | hm <;> rw [hm] at h <;> cases h <;>
      exact .setKey _ _ k
  · rw [if_neg hm]
    simp only [modifierCodes, List.mem_cons, List.not_mem_nil, or_false, not_or] at hm
    obtain ⟨h₁, h₂, h₃, h₄, h₅, h₆, h₇, h₈, h₉⟩ := hm
    simp only [h₁, h₂, h₃, h₄, h₅, h₆, h₇, h₈, h₉, if_false] at h
    split at h
    · rw [if_pos ‹_›]
      exact .inl (echoes_backspace h)
    rw [if_neg ‹_›]
    split at h
    · rw [if_pos ‹_›]
      exact .inl (echoes_enter hk.enter h)
    rw [if_neg ‹_›]
    exact echoes_default hk hn h

/-- **What a keyboard interrupt does on the screen**: with video memory mapped, it echoes the key
or switches terminals, and then maps the screen of the current terminal again. -/
theorem checkInput_screen (hk : InputOk k) (h : checkInput ev k = some k') :
    ∃ k₁ k₂, SameScreen k.setWriteToVideomem k₁ ∧
      (Echoes (getCurrentNoc k) (decodeKey k.chararray ev) k₁ k₂ ∨
        decodeKey k.chararray ev = .other ∧ ∃ t, k₂ = switchTerminals t k₁) ∧
      k' = restoreScreen k₂ := by
  obtain ⟨k₁, hat, heq⟩ := checkInput_eq hk
  rw [heq] at h
  obtain ⟨k₂, h₂, rfl⟩ := Option.map_eq_some_iff.1 h
  have hkey := handleKey_screen (hat.inputOk hk) hat.noc.symm h₂
  rw [hat.chararray] at hkey
  obtain ⟨k₀, hk₀, hk₁⟩ := hat.start
  have hsame := ((SameScreen.setLineBuffer hk₀).trans (.setposition k₀)).setWriteToVideomem
  exact ⟨k₁, k₂, hk₁ ▸ hsame, hkey, rfl⟩

end Keys

/-! ## The two entries -/

/-- The page that holds the logical screen of terminal `t`. -/
def screenPage (k : Kernel) (t : TermId) : Nat :=
  if t = k.visableTerm then vidStartAddr else vidBufs t

/-- Both entries for the screen point at the page `a`. -/
structure MapsScreen (p : Paging) (a : Nat) : Prop where
  low : p.pageTable0M4M vmemPage = a ||| vmemOrMask
  user : p.newPageTable onembPagetable = a ||| umemOrMask

/-- Text goes to the logical screen of the current terminal. -/
def VideoOk (k : Kernel) : Prop := MapsScreen k.paging (screenPage k k.currentTerm)

section Mapping

variable {k k₁ k' : Kernel} {p : Paging} {a : Nat} {t : TermId}

theorem screenPage_congr (h : k₁.visableTerm = k.visableTerm) : screenPage k₁ = screenPage k := by
  funext t
  rw [screenPage, screenPage, h]

theorem termId_cases : ∀ t : TermId, t = 0 ∨ t = 1 ∨ t = 2 := by decide

theorem textPage_screenPage (k : Kernel) (t : TermId) : TextPage (screenPage k t) := by
  unfold screenPage
  split
  · exact .inl rfl
  · rcases termId_cases t with rfl | rfl | rfl
    exacts [.inr (.inl rfl), .inr (.inr (.inl rfl)), .inr (.inr (.inr rfl))]

/-- The pages of two terminals do not overlap. -/
theorem screenPage_apart (k : Kernel) {t u : TermId} (h : t ≠ u) :
    screenPage k t + 4096 ≤ screenPage k u ∨ screenPage k u + 4096 ≤ screenPage k t := by
  unfold screenPage
  generalize k.visableTerm = v
  revert t u v
  decide

theorem mapsScreen_setWrite (a : Nat) (p : Paging) : MapsScreen (pagingSetWrite a p) a :=
  ⟨Function.update_self vmemPage _ p.pageTable0M4M,
    Function.update_self onembPagetable _ p.newPageTable⟩

theorem setWriteToBuffer_eq (t : TermId) (p : Paging) :
    pagingSetWriteToBuffer (t : Nat) p = pagingSetWrite (vidBufs t) p := by
  rcases termId_cases t with rfl | rfl | rfl <;> rfl

theorem MapsScreen.changeProcess (h : MapsScreen p a) (pid : UInt32) :
    MapsScreen (pagingChangeProcess pid p).2 a := by
  unfold pagingChangeProcess
  dsimp only
  split
  · exact h
  · exact ⟨h.low, h.user⟩

theorem MapsScreen.remapped {p' : Paging} (h : MapsScreen p a) (hp : Remapped p p') :
    MapsScreen p' a := by
  obtain ⟨pids, rfl⟩ := hp
  induction pids generalizing p with
  | nil => exact h
  | cons pid pids ih => exact ih (h.changeProcess pid)

theorem VideoOk.frame (h : VideoOk k) (hf : ProcFrame k k') : VideoOk k' := by
  rw [VideoOk, screenPage_congr hf.visableTerm, hf.currentTerm]
  exact MapsScreen.remapped h hf.paging

/-- Mapping the screen of the current terminal. -/
theorem videoOk_setWrite (hp : k.paging = pagingSetWrite (screenPage k k.currentTerm) p) :
    VideoOk k := by
  rw [VideoOk, hp]
  exact mapsScreen_setWrite _ _

theorem videoOk_setWriteToBuffer (h : k.currentTerm ≠ k.visableTerm) :
    VideoOk (k.setWriteToBuffer k.currentTerm) := by
  refine videoOk_setWrite (p := k.paging) ?_
  have hpage : screenPage (k.setWriteToBuffer k.currentTerm) k.currentTerm =
      vidBufs k.currentTerm := if_neg h
  exact (setWriteToBuffer_eq _ _).trans (congrArg (pagingSetWrite · k.paging) hpage.symm)

theorem videoOk_scheduled (sp : Nat) (k : Kernel) : VideoOk (scheduled sp k) := by
  unfold scheduled
  dsimp only
  split
  · refine videoOk_setWrite (p := k.paging) ?_
    rw [screenPage, if_pos ‹_›]
    rfl
  · exact videoOk_setWriteToBuffer (k := { k.saveEspEbp sp with
      currentTerm := k.currentTerm + 1 }) ‹_›

theorem videoOk_restoreScreen
    (h : k.currentTerm = k.visableTerm → MapsScreen k.paging vidStartAddr) :
    VideoOk (restoreScreen k) := by
  unfold restoreScreen
  split
  · exact videoOk_setWriteToBuffer ‹_›
  · rw [VideoOk, screenPage, if_pos (not_not.1 ‹_›)]
    exact h (not_not.1 ‹_›)

theorem copyPage_eq (dst src : Nat) (k : Kernel) :
    k.copyPage dst src = { k with phys := (k.copyPage dst src).phys } := by
  unfold Kernel.copyPage
  split <;> rfl

/-- All of a switch but what it copies. -/
theorem switchTerminals_eq (t : TermId) (k : Kernel) : switchTerminals t k =
    { k with
      phys := (switchTerminals t k).phys
      visableTerm := t
      paging := if t = k.visableTerm then k.paging
        else if k.currentTerm = t then pagingSetWriteToVideomem k.paging
        else
          pagingSetWriteToBuffer (k.currentTerm : Nat) (pagingSetWriteToVideomem k.paging) } := by
  unfold switchTerminals
  dsimp only
  by_cases ht : t = k.visableTerm
  · rw [if_pos ht, if_pos ht, ht]
  · rw [if_neg ht, if_neg ht]
    generalize hk₁ : Kernel.copyPage vidStartAddr (vidBufs t) _ = k₁
    have heq : k₁ = { k with
        visableTerm := t, paging := pagingSetWriteToVideomem k.paging, phys := k₁.phys } := by
      rw [← hk₁, copyPage_eq, copyPage_eq (vidBufs k.visableTerm)]
      rfl
    by_cases hc : k.currentTerm = t
    · rw [if_pos hc, if_neg (by rw [heq]; exact not_not.2 hc)]
      exact heq
    · rw [if_neg hc, if_pos (by rw [heq]; exact hc), heq]
      rfl

theorem mapsScreen_switchTerminals (h : MapsScreen k.paging vidStartAddr)
    (hc : (switchTerminals t k).currentTerm = (switchTerminals t k).visableTerm) :
    MapsScreen (switchTerminals t k).paging vidStartAddr := by
  rw [switchTerminals_eq] at hc ⊢
  dsimp only at hc ⊢
  rw [if_pos hc]
  split
  · exact h
  · exact mapsScreen_setWrite _ _

/-- A keyboard interrupt leaves the current terminal alone. -/
theorem checkInput_currentTerm {ev : KeyEvent} (hk : InputOk k) (h : checkInput ev k = some k') :
    k'.currentTerm = k.currentTerm := by
  obtain ⟨k₁, k₂, h₁, h₂, rfl⟩ := checkInput_screen hk h
  have hcur : k₂.currentTerm = k₁.currentTerm := by
    rcases h₂ with ⟨k₃, h₃, h₄⟩ | ⟨-, t, rfl⟩
    · have hecho := (SameButScreen.closed_global k₃).echo (getCurrentNoc k) (.refl k₃)
        (decodeKey k.chararray ev)
      rw [h₄.currentTerm, hecho.currentTerm_eq, h₃.currentTerm]
    · rw [switchTerminals_eq]
  unfold restoreScreen
  split <;> exact hcur.trans h₁.currentTerm

/-- **A keyboard interrupt** leaves the mapping right, however it was. -/
theorem videoOk_checkInput {ev : KeyEvent} (hk : InputOk k) (h : checkInput ev k = some k') :
    VideoOk k' := by
  obtain ⟨k₁, k₂, h₁, h₂, rfl⟩ := checkInput_screen hk h
  have hvid : MapsScreen k₁.paging vidStartAddr := by
    rw [h₁.paging]
    exact mapsScreen_setWrite _ _
  refine videoOk_restoreScreen fun hc => ?_
  rcases h₂ with ⟨k₃, h₃, h₄⟩ | ⟨-, t, rfl⟩
  · have hecho := (SameButScreen.closed_global k₃).echo (getCurrentNoc k) (.refl k₃)
      (decodeKey k.chararray ev)
    rw [h₄.paging, hecho.kernel]
    change MapsScreen k₃.paging _
    rw [h₃.paging]
    exact hvid
  · exact mapsScreen_switchTerminals hvid hc

/-! ## `vidmap` -/

/-- The check that `vidmap` makes of its pointer. -/
def VidmapAccepts (screenStart : UInt32) : Prop :=
  screenStart ≠ 0 ∧ ((0xFFC00000 &&& screenStart) >>> 22).toNat = checkUserVmem

theorem store32_same {va w : Nat} (h : k.store32 va w = some k') : SameButScreen k k' := by
  unfold Kernel.store32 at h
  split at h
  · cases h
    exact Console.Closed.foldl (fun _ _ hs => hs.trans (.store8 _ _ _)) _ (.refl k)
  · cases h

/-- A `vidmap` that returns has failed, or has built its table and stored the pointer. -/
theorem vidmap_cases {screenStart : UInt32} {ret : Int}
    (h : vidmap screenStart k = some (ret, k')) :
    (¬ VidmapAccepts screenStart ∧ ret = -1 ∧ k' = k) ∨
      (VidmapAccepts screenStart ∧ ret = 0 ∧
        SameButScreen { k with paging := pagingVidmap k.paging } k') := by
  unfold vidmap at h
  by_cases h0 : screenStart = 0
  · rw [if_pos h0] at h
    obtain ⟨h₁, h₂⟩ := Prod.mk.inj (Option.some.inj h)
    exact .inl ⟨fun ha => ha.1 h0, h₁.symm, h₂.symm⟩
  rw [if_neg h0] at h
  dsimp only at h
  split at h
  · obtain ⟨h₁, h₂⟩ := Prod.mk.inj (Option.some.inj h)
    exact .inl ⟨fun ha => ‹_ ≠ _› ha.2, h₁.symm, h₂.symm⟩
  · obtain ⟨k₁, hk₁, h⟩ := Option.bind_eq_some_iff.1 h
    obtain ⟨h₁, rfl⟩ := Prod.mk.inj (Option.some.inj h)
    exact .inr ⟨⟨h0, not_not.1 ‹_›⟩, h₁.symm, store32_same hk₁⟩

/-- The check is for the user page. -/
theorem vidmapAccepts_iff {screenStart : UInt32} :
    VidmapAccepts screenStart ↔ dirIndex screenStart.toNat = userMemLocation := by
  have hidx : ((0xFFC00000 &&& screenStart) >>> 22).toNat = dirIndex screenStart.toNat := by
    rw [UInt32.toNat_shiftRight, UInt32.toNat_and, Nat.shiftRight_and_distrib]
    change 2 ^ 10 - 1 &&& screenStart.toNat >>> 22 = _
    rw [Nat.and_comm, Nat.and_two_pow_sub_one_eq_mod, Nat.shiftRight_eq_div_pow, dirIndex]
  rw [VidmapAccepts, hidx]
  refine ⟨And.right, fun h => ⟨fun h0 => ?_, h⟩⟩
  rw [h0] at h
  exact absurd h (by decide)

/-- A call with room for a pointer in the user page returns. -/
theorem vidmap_returns {pid : Nat} (screenStart : UInt32) (hk : PagingOk k.paging (some pid))
    (h₁ : 0x8000000 ≤ screenStart.toNat) (h₂ : screenStart.toNat + 4 ≤ 0x8400000) :
    ∃ k', vidmap screenStart k = some (0, k') := by
  obtain ⟨h0, hcheck⟩ := vidmapAccepts_iff.2 (show dirIndex screenStart.toNat = userMemLocation by
    simp only [dirIndex, userMemLocation]
    omega)
  have hmapped : (List.range 4).all fun i =>
      ((pagingVidmap k.paging).translate .supervisor (screenStart.toNat + i)).isSome := by
    refine List.all_eq_true.2 fun i hi => ?_
    have hi := List.mem_range.1 hi
    have hd : dirIndex (screenStart.toNat + i) = userMemLocation := by
      simp only [dirIndex, userMemLocation]
      omega
    obtain ⟨ha, hl, -⟩ := userEntry_some (hk.last pid rfl) .supervisor
    have huser := (pagingOk_vidmap hk).user
    rw [Paging.translate, translate_large (by rw [hd, huser]; exact ha)
      (by rw [hd, huser]; exact hl)]
    rfl
  unfold vidmap
  dsimp only
  rw [if_neg h0, if_neg (not_not.2 hcheck), Kernel.store32, if_pos hmapped]
  exact ⟨_, rfl⟩

theorem screenPage_eq_video (k : Kernel) (t : TermId) :
    screenPage k t = vidStartAddr ↔ t = k.visableTerm := by
  unfold screenPage
  split
  · exact iff_of_true rfl ‹_›
  · refine iff_of_false ?_ ‹_›
    rcases termId_cases t with rfl | rfl | rfl <;> decide

/-- The entry determines the page. -/
theorem or_umem_inj {a b : Nat} (ha : TextPage a) (hb : TextPage b)
    (h : a ||| umemOrMask = b ||| umemOrMask) : a = b := by
  rw [← frame4K_or ha.aligned (f := umemOrMask) (by decide), h, frame4K_or hb.aligned (by decide)]

/-- **Where `vidmap` goes wrong.** From a state in which the mapping is right, a successful call
keeps it right exactly when the current terminal is the visible one. -/
theorem videoOk_vidmap_iff {screenStart : UInt32} (hk : VideoOk k)
    (h : vidmap screenStart k = some (0, k')) :
    VideoOk k' ↔ k.currentTerm = k.visableTerm := by
  rcases vidmap_cases h with ⟨-, hret, -⟩ | ⟨-, -, hs⟩
  · exact absurd hret (by decide)
  have hpage : screenPage k' k'.currentTerm = screenPage k k.currentTerm := by
    rw [screenPage_congr hs.visableTerm_eq, hs.kernel]
    rfl
  have hpaging : k'.paging = pagingVidmap k.paging := by rw [hs.kernel]
  rw [VideoOk, hpage, hpaging, ← screenPage_eq_video]
  refine ⟨fun hm => ?_, fun he => ⟨hk.low, ?_⟩⟩
  · exact (or_umem_inj (.inl rfl) (textPage_screenPage _ _) hm.user).symm
  · rw [he]
    rfl

end Mapping

/-! ## The pointer of `vidmap` -/

/-- The directory entry that `vidmap` makes. -/
def VidMapped (p : Paging) : Prop :=
  p.pageDirectory vmem33 = p.layout.newPageTable ||| ptableOrMaskUser

/-- The tables of `k'` come from those of `k` by calls of the paging functions. -/
def Recalled (k k' : Kernel) : Prop :=
  ∃ calls : List PagingCall, k'.paging = calls.foldl PagingCall.apply k.paging

section Pointer

variable {k k₁ k' : Kernel} {p : Paging} {last : Option Nat} {a : Nat}

theorem vidMapped_apply (h : VidMapped p) (c : PagingCall) : VidMapped (c.apply p) := by
  cases c with
  | changeProcess pid =>
    rw [PagingCall.apply, changeProcess_eq]
    split
    · exact (Function.update_of_ne (by decide : vmem33 ≠ userMemLocation)
        (userEntry (some pid.toNat)) p.pageDirectory).trans h
    · exact h
  | vidmap => exact Function.update_self vmem33 _ p.pageDirectory
  | setWriteToVideomem => exact h
  | setWriteToBuffer buffer => exact h

theorem Recalled.trans (h₁ : Recalled k k₁) (h₂ : Recalled k₁ k') : Recalled k k' := by
  obtain ⟨l₁, h₁⟩ := h₁
  obtain ⟨l₂, h₂⟩ := h₂
  exact ⟨l₁ ++ l₂, by rw [h₂, h₁, List.foldl_append]⟩

theorem Recalled.of_eq (h : k'.paging = k.paging) : Recalled k k' := ⟨[], h⟩

theorem Recalled.of_call (c : PagingCall) (h : k'.paging = c.apply k.paging) : Recalled k k' :=
  ⟨[c], h⟩

theorem Recalled.of_remapped (h : Remapped k.paging k'.paging) : Recalled k k' := by
  obtain ⟨pids, h⟩ := h
  exact ⟨pids.map .changeProcess, by rw [h, List.foldl_map]; rfl⟩

theorem Recalled.vidMapped (h : Recalled k k') (hk : VidMapped k.paging) :
    VidMapped k'.paging := by
  obtain ⟨calls, h⟩ := h
  rw [h]
  exact Console.Closed.foldl (P := VidMapped) (fun _ c hp => vidMapped_apply hp c) calls hk

theorem Recalled.pagingOk (h : Recalled k k') (hk : ∃ last, PagingOk k.paging last) :
    ∃ last, PagingOk k'.paging last := by
  obtain ⟨calls, h⟩ := h
  obtain ⟨last, hk⟩ := hk
  exact ⟨_, h ▸ pagingOk_calls hk calls⟩

theorem recalled_restoreScreen (k : Kernel) : Recalled k (restoreScreen k) := by
  unfold restoreScreen
  split
  · exact .of_call (.setWriteToBuffer (k.currentTerm : Nat)) rfl
  · exact .of_eq rfl

theorem recalled_scheduled (sp : Nat) (k : Kernel) : Recalled k (scheduled sp k) := by
  unfold scheduled
  dsimp only
  split
  · exact .of_call .setWriteToVideomem rfl
  · exact .of_call (.setWriteToBuffer ((k.currentTerm + 1 : TermId) : Nat)) rfl

theorem recalled_switchTerminals (t : TermId) (k : Kernel) :
    Recalled k (switchTerminals t k) := by
  rw [switchTerminals_eq]
  by_cases ht : t = k.visableTerm
  · exact .of_eq (if_pos ht)
  · by_cases hc : k.currentTerm = t
    · exact .of_call .setWriteToVideomem ((if_neg ht).trans (if_pos hc))
    · exact ⟨[.setWriteToVideomem, .setWriteToBuffer (k.currentTerm : Nat)],
        (if_neg ht).trans (if_neg hc)⟩

theorem recalled_checkInput {ev : KeyEvent} (hk : InputOk k) (h : checkInput ev k = some k') :
    Recalled k k' := by
  obtain ⟨k₁, k₂, h₁, h₂, rfl⟩ := checkInput_screen hk h
  have hk₁ : Recalled k k₁ := .of_call .setWriteToVideomem h₁.paging
  refine (hk₁.trans ?_).trans (recalled_restoreScreen k₂)
  rcases h₂ with ⟨k₃, h₃, h₄⟩ | ⟨-, t, rfl⟩
  · have hecho := (SameButScreen.closed_global k₃).echo (getCurrentNoc k) (.refl k₃)
      (decodeKey k.chararray ev)
    refine .of_eq ?_
    rw [h₄.paging, hecho.kernel, ← h₃.paging]
  · exact recalled_switchTerminals t k₁

/-- What user code reaches through the directory entry that `vidmap` makes. -/
theorem translate_vidmap (h : PagingOk p last) (hv : VidMapped p) (ha : TextPage a)
    (hu : p.newPageTable onembPagetable = a ||| umemOrMask) :
    (∀ off < 4096, p.translate .user (vmem133MB + off) = some (a + off)) ∧
    ∀ va pa, dirIndex va = vmem33 → p.translate .user va = some pa → a ≤ pa ∧ pa < a + 4096 := by
  have hal := p.layout.aligned1
  have hdir : allowed .user (p.layout.newPageTable ||| ptableOrMaskUser) = true := by
    rw [or_flags (k := 12) hal (by decide), allowed, ptableOrMaskUser,
      show (p.layout.newPageTable + 23) % 2 = 1 by omega,
      show (p.layout.newPageTable + 23) / 4 % 2 = 1 by omega]
    rfl
  have hframe : p.tableAt (frame4K (p.layout.newPageTable ||| ptableOrMaskUser)) =
      p.newPageTable := by
    rw [frame4K_or hal (by decide), tableAt_new]
  have hpage : frame4K (a ||| umemOrMask) = a := frame4K_or ha.aligned (by decide)
  have hzero : ∀ i, i ≠ onembPagetable → p.newPageTable i = 0 := by
    rcases h.vid with hz | ⟨-, -, hz⟩
    · rw [hv] at hz
      rw [hz] at hdir
      exact absurd hdir (by decide)
    · exact hz
  refine ⟨fun off hoff => ?_, fun va pa hva ht => ?_⟩
  · have hd : dirIndex (vmem133MB + off) = vmem33 := by
      simp only [dirIndex, vmem133MB, vmem33]
      omega
    have ht : tableIndex (vmem133MB + off) = onembPagetable := by
      simp only [tableIndex, vmem133MB, onembPagetable]
      omega
    have hpte : allowed .user (a ||| umemOrMask) = true := by
      have := ha.aligned
      rw [or_flags (k := 12) this (by decide), allowed, umemOrMask,
        show (a + 135) % 2 = 1 by omega, show (a + 135) / 4 % 2 = 1 by omega]
      rfl
    rw [Paging.translate, translate_small (by rw [hd, hv]; exact hdir)
      (by rw [hd, hv]; exact large_or hal (by decide))
      (by rw [hd, hv, hframe, ht, hu]; exact hpte), hd, hv, hframe, ht, hu, hpage]
    exact congrArg some (by simp only [vmem133MB]; omega)
  · obtain ⟨-, hcase⟩ := translate_eq_some ht
    rw [hva, hv, large_or hal (by decide), hframe] at hcase
    rcases hcase with ⟨hl, -⟩ | ⟨-, hpte, hpa⟩
    · exact absurd hl (by decide)
    by_cases hi : tableIndex va = onembPagetable
    · rw [hi, hu, hpage] at hpa
      omega
    · rw [hzero _ hi] at hpte
      exact absurd hpte (by decide)

end Pointer

/-! ## Runs -/

/-- A timer tick with the stack pointer it arrives at, a keyboard interrupt, or a `vidmap` by the
process of the current terminal. -/
inductive VideoEvent
  | tick (sp : Nat)
  | key (ev : KeyEvent)
  | vidmap (screenStart : UInt32)

/-- The three as a system. The output is what `vidmap` returns. -/
def videoSystem (im : Image) : System Kernel VideoEvent (Option Int)
  | k, .tick sp, o, k' => o = none ∧ ∃ out, schedulerNext im sp k = some (out, k')
  | k, .key ev, o, k' => o = none ∧ checkInput ev k = some k'
  | k, .vidmap screenStart, o, k' =>
    ∃ ret, o = some ret ∧ Kernel391.vidmap screenStart k = some (ret, k')

/-- A `vidmap` that gets past its check is made while the current terminal is visible. -/
def VidmapInView (k : Kernel) : VideoEvent → Prop
  | .vidmap screenStart => VidmapAccepts screenStart → k.currentTerm = k.visableTerm
  | _ => True

/-- `vidmap` has handed out its pointer. -/
def HasVidmap (tr : List (VideoEvent × Option Int)) : Prop := ∃ e, (e, some 0) ∈ tr

/-- What holds at the end of every step. -/
structure MapInv (tr : List (VideoEvent × Option Int)) (k : Kernel) : Prop where
  input : InputOk k
  tables : ∃ last, PagingOk k.paging last
  video : VideoOk k
  vid : HasVidmap tr → VidMapped k.paging

section Run

variable {im : Image} {sp : Nat} {tr : List (VideoEvent × Option Int)} {k k' : Kernel}
  {e : VideoEvent} {o : Option Int} {out : Output}

theorem hasVidmap_concat (h : HasVidmap (tr ++ [(e, o)])) : HasVidmap tr ∨ o = some 0 := by
  obtain ⟨e', he⟩ := h
  rcases List.mem_append.1 he with he | he
  · exact .inl ⟨e', he⟩
  · rw [List.mem_singleton] at he
    exact .inr (Prod.mk.inj he).2.symm

theorem inputOk_entry (k : Kernel) : InputOk (entry k) :=
  (inputOk_boot k).received (SameInput.of_screen (sameButScreen_entry k)).received

theorem pagingOk_entry (k : Kernel) : PagingOk (entry k).paging (some 1) := by
  rw [(sameButScreen_entry k).kernel]
  exact pagingOk_changeProcess (pagingOk_boot k.paging) 1

/-- A tick needs nothing but well-formed tables. -/
theorem mapInv_tick (hin : InputOk k) (hp : ∃ last, PagingOk k.paging last)
    (h : schedulerNext im sp k = some (out, k')) :
    InputOk k' ∧ (∃ last, PagingOk k'.paging last) ∧ VideoOk k' ∧ Recalled k k' := by
  have hf := procFrame_schedulerNext h
  have hre : Recalled k k' := (recalled_scheduled sp k).trans (.of_remapped hf.paging)
  exact ⟨hin.received ((scheduled_same sp k).trans hf.input).received, hre.pagingOk hp,
    (videoOk_scheduled sp k).frame hf, hre⟩

theorem mapInv_step (h : MapInv tr k) (hs : Guarded VidmapInView (videoSystem im) k e o k') :
    MapInv (tr ++ [(e, o)]) k' := by
  obtain ⟨hg, hs⟩ := hs
  cases e with
  | tick sp =>
    obtain ⟨rfl, out, hs⟩ := hs
    obtain ⟨hin, hp, hv, hre⟩ := mapInv_tick h.input h.tables hs
    exact ⟨hin, hp, hv, fun ht => hre.vidMapped
      (h.vid ((hasVidmap_concat ht).resolve_right (by simp)))⟩
  | key ev =>
    obtain ⟨rfl, hs⟩ := hs
    have hre := recalled_checkInput h.input hs
    have hrec := received_checkInput h.input hs
    exact ⟨h.input.received hrec, hre.pagingOk h.tables, videoOk_checkInput h.input hs,
      fun ht => hre.vidMapped (h.vid ((hasVidmap_concat ht).resolve_right (by simp)))⟩
  | vidmap screenStart =>
    obtain ⟨ret, rfl, hs⟩ := hs
    rcases vidmap_cases hs with ⟨-, rfl, rfl⟩ | ⟨hacc, rfl, hscr⟩
    · exact ⟨h.input, h.tables, h.video, fun ht => h.vid
        ((hasVidmap_concat ht).resolve_right (by decide))⟩
    · have hpaging : k'.paging = pagingVidmap k.paging := by rw [hscr.kernel]
      refine ⟨h.input.received (SameInput.received (.trans ?_ (.of_screen hscr))),
        (Recalled.of_call .vidmap hpaging).pagingOk h.tables,
        (videoOk_vidmap_iff h.video hs).2 (hg hacc), fun _ => ?_⟩
      · exact ⟨fun _ => ⟨rfl, rfl, rfl, rfl, rfl⟩, rfl, rfl⟩
      · rw [hpaging]
        exact Function.update_self vmem33 _ k.paging.pageDirectory

/-- **The mapping of the screen over a run.** After the first timer tick, in every run in which
`vidmap` gets past its check only while the current terminal is visible, both entries point at
the page of the current terminal at the end of every step; what a program draws through the
pointer of `vidmap` lands in that page, and in no other terminal's. -/
theorem video_mapping_from_boot {k₀ k₁ : Kernel}
    (h₀ : schedulerNext im sp (entry k₀) = some (out, k₁))
    (h : Run (Guarded VidmapInView (videoSystem im)) k₁ tr k) :
    MapsScreen k.paging
      (if k.currentTerm = k.visableTerm then vidStartAddr else vidBufs k.currentTerm) ∧
    (HasVidmap tr →
      (∀ off < 4096, k.paging.translate .user (vmem133MB + off) =
        some (screenPage k k.currentTerm + off)) ∧
      ∀ va pa, dirIndex va = vmem33 → k.paging.translate .user va = some pa →
        (screenPage k k.currentTerm ≤ pa ∧ pa < screenPage k k.currentTerm + 4096) ∧
        ∀ t ≠ k.currentTerm, ¬ (screenPage k t ≤ pa ∧ pa < screenPage k t + 4096)) := by
  have hinv : MapInv tr k := by
    obtain ⟨hin, hp, hv, -⟩ := mapInv_tick (inputOk_entry k₀) ⟨_, pagingOk_entry k₀⟩ h₀
    exact h.invariant_history ⟨hin, hp, hv, fun ⟨_, he⟩ => absurd he (by simp)⟩
      fun _ _ _ _ _ hi hs => mapInv_step hi hs
  refine ⟨hinv.video, fun ht => ?_⟩
  obtain ⟨last, hp⟩ := hinv.tables
  obtain ⟨hto, hfrom⟩ := translate_vidmap hp (hinv.vid ht)
    (textPage_screenPage k k.currentTerm) hinv.video.user
  refine ⟨hto, fun va pa hva htr => ⟨hfrom va pa hva htr, fun t hne hin => ?_⟩⟩
  have := hfrom va pa hva htr
  have := screenPage_apart k hne
  omega

/-- The shell that a tick starts has its own page mapped. -/
theorem pagingOk_started {pid : Nat} {t : TermId} (hp : ∃ last, PagingOk k.paging last)
    (hs : Started sp pid ((scheduled sp k).turnOn t) k') : PagingOk k'.paging (some pid) := by
  obtain ⟨last, hp⟩ := (recalled_scheduled sp k).pagingOk hp
  obtain ⟨-, h₁, h₆, -⟩ := freeSlot_eq_some.1 hs.free
  have hlast : lastPid last (.changeProcess (UInt32.ofNat pid)) = some pid := by
    rw [lastPid, toNat_ofNat_pid h₆, if_pos ⟨h₁, h₆⟩]
  rw [hs.paging, ← hlast]
  exact pagingOk_changeProcess hp _

/-- The first two ticks after boot, with terminal 0 visible. -/
theorem first_ticks (him : HasShell im) (k₀ : Kernel) :
    ∃ k₁ k₂, schedulerNext im ((entry k₀).sp 0) (entry k₀) = some (.started 1, k₁) ∧
      schedulerNext im (k₁.sp 0) k₁ = some (.started 2, k₂) ∧
      (k₁.currentTerm = 0 ∧ k₁.visableTerm = 0 ∧ PagingOk k₁.paging (some 1)) ∧
      k₂.currentTerm = 1 ∧ k₂.visableTerm = 0 ∧ PagingOk k₂.paging (some 2) ∧
      Started (k₁.sp 0) 2 ((scheduled (k₁.sp 0) k₁).turnOn (k₁.currentTerm + 1)) k₂ := by
  have hscr := sameButScreen_entry k₀
  obtain ⟨o₁, k₁, h₁, ho₁, hb₁, hs₁⟩ :=
    booting_tick him (booting_boot hscr) (by omega) (by decide : 0 < 0x1FFF)
  obtain ⟨o₂, k₂, h₂, ho₂, hb₂, hs₂⟩ := booting_tick him hb₁ (by omega) (by decide : 0 < 0x1FFF)
  have hp₁ := pagingOk_started ⟨_, pagingOk_entry k₀⟩ hs₁
  have hcur₁ : k₁.currentTerm = 0 := by
    rw [hs₁.currentTerm, turnOn_currentTerm, scheduled_currentTerm, hscr.currentTerm_eq]
    exact (by decide : (2 : TermId) + 1 = 0)
  have hvis₁ : k₁.visableTerm = 0 := by
    rw [hs₁.visableTerm, turnOn_visableTerm, scheduled_visableTerm, hscr.visableTerm_eq]
    rfl
  refine ⟨k₁, k₂, ho₁ ▸ h₁.step, ho₂ ▸ h₂.step, ⟨hcur₁, hvis₁, hp₁⟩, ?_, ?_,
    pagingOk_started ⟨_, hp₁⟩ hs₂, hs₂⟩
  · rw [hs₂.currentTerm, turnOn_currentTerm, scheduled_currentTerm, hcur₁]
    rfl
  · rw [hs₂.visableTerm, turnOn_visableTerm, scheduled_visableTerm, hvis₁]

/-- The shell of terminal 1 calls `vidmap` while terminal 0 is visible, and then draws on the
screen of terminal 0. -/
theorem video_mapping_hidden_vidmap : ∃ out k₁ k,
    schedulerNext shellImage ((entry default).sp 0) (entry default) = some (out, k₁) ∧
    Run (videoSystem shellImage) k₁
      [(.tick (k₁.sp 0), none), (.vidmap 0x8000000, some 0)] k ∧
    k.currentTerm = 1 ∧
    ¬ MapsScreen k.paging (screenPage k k.currentTerm) ∧
    k.paging.translate .user vmem133MB = some (screenPage k 0) := by
  obtain ⟨k₁, k₂, h₁, h₂, -, hcur, hvis₂, hp₂, -⟩ := first_ticks hasShell_shellImage default
  obtain ⟨k₃, h₃⟩ := vidmap_returns 0x8000000 hp₂ (by decide) (by decide)
  have hrun : Run (videoSystem shellImage) k₁
      ([(.tick (k₁.sp 0), none)] ++ [(.vidmap 0x8000000, some 0)]) k₃ :=
    (Run.single (R := videoSystem shellImage) (e := .tick (k₁.sp 0)) (o := none)
      ⟨rfl, _, h₂⟩).snoc ⟨0, rfl, h₃⟩
  have hok₂ : VideoOk k₂ := (videoOk_scheduled (k₁.sp 0) k₁).frame (procFrame_schedulerNext h₂)
  have hbad := mt (videoOk_vidmap_iff hok₂ h₃).1 (by rw [hcur, hvis₂]; decide)
  rcases vidmap_cases h₃ with ⟨-, hret, -⟩ | ⟨-, -, hs⟩
  · exact absurd hret (by decide)
  have hcur₃ : k₃.currentTerm = 1 := by
    rw [hs.kernel]
    exact hcur
  have hvis₃ : k₃.visableTerm = 0 := by
    rw [hs.visableTerm_eq]
    exact hvis₂
  have hpaging : k₃.paging = pagingVidmap k₂.paging := by rw [hs.kernel]
  obtain ⟨hto, -⟩ := translate_vidmap (p := k₃.paging) (a := vidStartAddr)
    (hpaging ▸ pagingOk_vidmap hp₂)
    (hpaging ▸ Function.update_self vmem33 _ k₂.paging.pageDirectory) (.inl rfl)
    (by rw [hpaging]; rfl)
  have h0 := hto 0 (by decide)
  exact ⟨_, k₁, k₃, h₁, hrun, hcur₃, hbad, by rw [screenPage, if_pos hvis₃.symm]; exact h0⟩

/-- With terminal 0 visible its own shell may call `vidmap`. -/
theorem video_mapping_from_boot_vidmap : ∃ k₁ k,
    schedulerNext shellImage ((entry default).sp 0) (entry default) = some (.started 1, k₁) ∧
    Run (Guarded VidmapInView (videoSystem shellImage)) k₁ [(.vidmap 0x8000000, some 0)] k ∧
    k.paging.translate .user vmem133MB = some (screenPage k k.currentTerm) := by
  obtain ⟨k₁, -, h₁, -, ⟨hcur, hvis, hp₁⟩, -⟩ := first_ticks hasShell_shellImage default
  obtain ⟨k₂, h₂⟩ := vidmap_returns 0x8000000 hp₁ (by decide) (by decide)
  have hrun : Run (Guarded VidmapInView (videoSystem shellImage)) k₁
      [(.vidmap 0x8000000, some 0)] k₂ :=
    Run.single (R := Guarded VidmapInView (videoSystem shellImage))
      ⟨fun _ => hcur.trans hvis.symm, 0, rfl, h₂⟩
  obtain ⟨-, hvid⟩ := video_mapping_from_boot h₁ hrun
  exact ⟨k₁, k₂, h₁, hrun, (hvid ⟨_, List.mem_singleton_self _⟩).1 0 (by decide)⟩

end Run

end Kernel391

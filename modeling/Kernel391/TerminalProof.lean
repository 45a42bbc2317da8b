import Kernel391.Lib.Mailbox
import Kernel391.Terminal
import Kernel391.VideoProof

/-!
# Reading lines

Each terminal hands its lines to `terminal_read` through one buffer, one count and one flag: a
mailbox with one slot. Enter puts the pending line in, a read takes it out, one instruction at a
time, while keyboard interrupts keep arriving.

* `read_runs` — a read that is not interrupted is `terminalRead`.
* `readsOk_step` — every step keeps what the buffers say about the mailbox (`ReadsOk`).
* `lines_read` — as long as Enter does not arrive at a terminal while a read is copying from it,
  the lines that reads return are, in order, lines completed on that terminal: each time the one
  completed last.
-/

namespace Kernel391

open Bytes Runs Mailbox

/-! ## Reads under way -/

/-- The kernel, and the `terminal_read` that the process of each terminal is in, if any. -/
structure Reading where
  kernel : Kernel
  reads : TermId → Option ReadState

/-- A timer tick, a keyboard interrupt, a switch, a call of `terminal_read` by the process of the
current terminal, or the next instruction of its call. -/
inductive InputEvent
  | tick (sp : Nat)
  | key (ev : KeyEvent)
  | switch (t : TermId)
  | read (buffer : Buf) (nbytes : Int)
  | step

/-- What is seen of a step: the terminal that a key was for and what it meant, or what a read on
some terminal returned. -/
inductive InputSeen
  | quiet
  | key (t : TermId) (key : LineKey)
  | returned (t : TermId) (retvalue : Int) (buffer : Buf)

/-- Keyboard and reads as a system. -/
inductive InputStep (im : Image) (s : Reading) : InputEvent → InputSeen → Reading → Prop
  | tick {sp : Nat} {o : Output} {k' : Kernel} : schedulerNext im sp s.kernel = some (o, k') →
      InputStep im s (.tick sp) .quiet { s with kernel := k' }
  | key {ev : KeyEvent} {k' : Kernel} : checkInput ev s.kernel = some k' →
      InputStep im s (.key ev)
        (.key s.kernel.visableTerm (decodeKey s.kernel.chararray ev)) { s with kernel := k' }
  | switch {t : TermId} :
      InputStep im s (.switch t) .quiet { s with kernel := switchTerminals t s.kernel }
  | read {buffer : Buf} {nbytes : Int} : s.reads s.kernel.currentTerm = none → 128 ≤ nbytes →
      InputStep im s (.read buffer nbytes) .quiet { s with
        reads := Function.update s.reads s.kernel.currentTerm
          (some (.spin (zeroBuffer buffer nbytes))) }
  | goesOn {st st' : ReadState} {k' : Kernel} : s.reads s.kernel.currentTerm = some st →
      readStep s.kernel.currentTerm s.kernel st = (.goesOn st', k') →
      InputStep im s .step .quiet
        ⟨k', Function.update s.reads s.kernel.currentTerm (some st')⟩
  | returns {st : ReadState} {retvalue : Int} {buffer : Buf} {k' : Kernel} :
      s.reads s.kernel.currentTerm = some st →
      readStep s.kernel.currentTerm s.kernel st = (.returns retvalue buffer, k') →
      InputStep im s .step (.returned s.kernel.currentTerm retvalue buffer)
        ⟨k', Function.update s.reads s.kernel.currentTerm none⟩

/-- The read has not seen the flag, or there is none. -/
def Waits : Option ReadState → Prop
  | none => True
  | some (.spin _) => True
  | _ => False

/-- Enter does not arrive while a read on the visible terminal is past its test of the flag. -/
def ClearOfRead (s : Reading) : InputEvent → Prop
  | .key ev => decodeKey s.kernel.chararray ev = .enter → Waits (s.reads s.kernel.visableTerm)
  | _ => True

/-! ## The mailbox of a terminal -/

/-- What a read of the line `l` gives: the value it returns, and that many bytes. -/
def answer (l : List UInt8) : Int × List UInt8 := (l.length + 1, l ++ [newline])

/-- The pending line of a terminal, and what happened to its slot. -/
structure Inbox where
  pending : List UInt8
  history : List (Mail (Int × List UInt8))

/-- The pending line after a key. -/
def LineKey.edit (p : List UInt8) (key : LineKey) : List UInt8 :=
  ((TermLine.mk p [] false).edit key).pending

/-- The terminal receives a key. -/
def Inbox.key (b : Inbox) (key : LineKey) : Inbox where
  pending := key.edit b.pending
  history := if key = .enter then b.history ++ [.put (answer b.pending)] else b.history

/-- A read on the terminal returns. -/
def Inbox.returned (b : Inbox) (retvalue : Int) (buffer : Buf) : Inbox :=
  { b with history := b.history ++ [.take (retvalue, slice buffer 0 retvalue.toNat)] }

/-- What terminal `t` sees of a step. -/
def Inbox.see (t : TermId) (b : Inbox) : InputSeen → Inbox
  | .quiet => b
  | .key u key => if u = t then b.key key else b
  | .returned u retvalue buffer => if u = t then b.returned retvalue buffer else b

/-- The mailbox of terminal `t` after a run. -/
def inbox (t : TermId) (tr : List (InputEvent × InputSeen)) : Inbox :=
  tr.foldl (fun b l => b.see t l.2) ⟨[], []⟩

/-- The lines completed by Enter while `t` was visible, as a read gives them. -/
def linesCompleted (t : TermId) (tr : List (InputEvent × InputSeen)) : List (Int × List UInt8) :=
  puts (inbox t tr).history

/-- What the reads on `t` returned. -/
def linesReturned (t : TermId) (tr : List (InputEvent × InputSeen)) : List (Int × List UInt8) :=
  takes (inbox t tr).history

/-! ## What the buffers hold -/

/-- No read is copying: the flag says whether the slot is full. -/
def SlotOk (l : TermLine) (slot : Option (Int × List UInt8)) : Prop :=
  slot = if l.flag then some (answer l.committed) else none

/-- What a read has in its hands. -/
def ReadOk (l : TermLine) (slot : Option (Int × List UInt8)) : Option ReadState → Prop
  | none => SlotOk l slot
  | some (.spin _) => SlotOk l slot
  | some (.copy b i) => slot = some (answer l.committed) ∧ i ≤ l.committed.length ∧
      slice b 0 i = l.committed.take i
  | some (.count b) => slot = some (answer l.committed) ∧
      slice b 0 (l.committed.length + 1) = l.committed ++ [newline]
  | some (.clearBuffer b r) => slot = some ((r : Int) + 1, slice b 0 (r + 1))
  | some (.clearCount b r) => slot = some ((r : Int) + 1, slice b 0 (r + 1))
  | some (.clearFlag b r) => slot = some ((r : Int) + 1, slice b 0 (r + 1))

/-- **What the buffers say about the mailboxes.** -/
structure ReadsOk (tr : List (InputEvent × InputSeen)) (s : Reading) : Prop where
  input : InputOk s.kernel
  pending : ∀ t, (lineOf s.kernel t).pending = (inbox t tr).pending
  reads : ∀ t, ReadOk (lineOf s.kernel t) (slot (inbox t tr).history) (s.reads t)
  faithful : ∀ t, Faithful (inbox t tr).history
  lines : ∀ t, ∀ x ∈ linesCompleted t tr, ∃ l, l.length ≤ 127 ∧ x = answer l

section Facts

variable {im : Image} {tr : List (InputEvent × InputSeen)} {s s' : Reading} {e : InputEvent}
  {o : InputSeen} {k k' : Kernel} {t u : TermId} {l l' : TermLine} {st : Option ReadState}
  {key : LineKey} {sl : Option (Int × List UInt8)}

theorem inbox_concat (t : TermId) (tr : List (InputEvent × InputSeen)) (e : InputEvent)
    (o : InputSeen) : inbox t (tr ++ [(e, o)]) = (inbox t tr).see t o := by
  simp [inbox]

@[simp] theorem inbox_quiet : inbox t (tr ++ [(e, .quiet)]) = inbox t tr := by
  simp [inbox_concat, Inbox.see]

/-- The slot and its history grow. -/
theorem inbox_append (t : TermId) (tr tr' : List (InputEvent × InputSeen)) :
    ∃ h, (inbox t (tr ++ tr')).history = (inbox t tr).history ++ h := by
  induction tr' using List.reverseRecOn with
  | nil => exact ⟨[], by simp⟩
  | append_singleton tr' l ih =>
    obtain ⟨h, hh⟩ := ih
    rw [← List.append_assoc, inbox_concat]
    unfold Inbox.see
    split
    · exact ⟨h, hh⟩
    · split
      · simp only [Inbox.key]
        split
        · exact ⟨h ++ [.put _], by rw [hh, List.append_assoc]⟩
        · exact ⟨h, hh⟩
      · exact ⟨h, hh⟩
    · split
      · exact ⟨h ++ [.take _], by simp only [Inbox.returned]; rw [hh, List.append_assoc]⟩
      · exact ⟨h, hh⟩

theorem edit_pending (l : TermLine) (key : LineKey) :
    (l.edit key).pending = key.edit l.pending := by
  cases key with
  | char c =>
    simp only [LineKey.edit, TermLine.edit]
    split <;> rfl
  | _ => rfl

/-- Keys other than Enter leave the slot alone. -/
theorem edit_of_ne_enter (l : TermLine) (h : key ≠ .enter) :
    (l.edit key).committed = l.committed ∧ (l.edit key).flag = l.flag := by
  cases key with
  | char c =>
    simp only [TermLine.edit]
    split <;> exact ⟨rfl, rfl⟩
  | enter => exact absurd rfl h
  | _ => exact ⟨rfl, rfl⟩

theorem ReadOk.congr (h : ReadOk l sl st) (hc : l'.committed = l.committed)
    (hf : l'.flag = l.flag) : ReadOk l' sl st := by
  unfold ReadOk SlotOk at h ⊢
  split at h <;> simp_all

/-- `k'` differs from `k` at most in the slot of terminal `t`. -/
structure SameButSlot (t : TermId) (k k' : Kernel) : Prop where
  lb : ∀ u, (k'.terminals u).lb = (k.terminals u).lb
  noc : ∀ u, (k'.terminals u).noc = (k.terminals u).noc
  others : ∀ u ≠ t, lineOf k' u = lineOf k u
  chararray : k'.chararray = k.chararray

theorem SameButSlot.refl (t : TermId) (k : Kernel) : SameButSlot t k k :=
  ⟨fun _ => rfl, fun _ => rfl, fun _ _ => rfl, rfl⟩

theorem SameButSlot.pending (h : SameButSlot t k k') (u : TermId) :
    (lineOf k' u).pending = (lineOf k u).pending := by
  simp only [lineOf, h.lb, h.noc]

theorem SameButSlot.inputOk (h : SameButSlot t k k') (hk : InputOk k) : InputOk k' :=
  hk.congr h.noc h.chararray

theorem sameButSlot_clearTerminalBuffer (t : TermId) (k : Kernel) :
    SameButSlot t k (clearTerminalBuffer t k) := by
  refine ⟨fun _ => rfl, fun _ => rfl, fun u hu => ?_, rfl⟩
  simp [lineOf, clearTerminalBuffer, hu]

theorem sameButSlot_clearNumberofchars (t : TermId) (k : Kernel) :
    SameButSlot t k (clearNumberofchars t k) := by
  refine ⟨fun _ => rfl, fun _ => rfl, fun u hu => ?_, rfl⟩
  simp [lineOf, clearNumberofchars, hu]

theorem sameButSlot_clearFlag (t : TermId) (k : Kernel) : SameButSlot t k (clearFlag t k) := by
  refine ⟨fun _ => rfl, fun _ => rfl, fun u hu => ?_, rfl⟩
  simp [lineOf, clearFlag, hu]

theorem committed_length (k : Kernel) (t : TermId) :
    (lineOf k t).committed.length = k.numberofchars t :=
  length_slice _ _ _

/-- An instruction of a read that does not return. -/
theorem readStep_goesOn {st st' : ReadState} (h : readStep t k st = (.goesOn st', k'))
    (hr : ReadOk (lineOf k t) sl (some st)) :
    SameButSlot t k k' ∧ ReadOk (lineOf k' t) sl (some st') := by
  cases st with
  | spin b =>
    obtain ⟨hst, rfl⟩ := Prod.mk.inj h
    obtain rfl := ReadStep.goesOn.inj hst
    refine ⟨.refl t k, ?_⟩
    by_cases hf : k.flags t = true
    · rw [if_pos hf]
      have hflag : (lineOf k t).flag = true := hf
      exact ⟨by simpa [ReadOk, SlotOk, hflag] using hr, Nat.zero_le _, by simp⟩
    · rw [if_neg hf]
      exact hr
  | copy b i =>
    obtain ⟨hsl, hi, hb⟩ := hr
    rw [readStep] at h
    split at h <;> obtain ⟨hst, rfl⟩ := Prod.mk.inj h <;> obtain rfl := ReadStep.goesOn.inj hst
    · refine ⟨.refl t k, hsl, by rw [committed_length]; omega, ?_⟩
      have hnext : (lineOf k t).committed[i]? = some (k.terminalbuffer t i) := by
        rw [lineOf, slice_getElem?, if_pos ‹_›, Nat.zero_add]
      rw [slice_succ, slice_update_of_le le_rfl, hb, Nat.zero_add, Function.update_self,
        List.take_add_one, hnext]
      rfl
    · rw [committed_length] at hi
      obtain rfl : i = k.numberofchars t := by omega
      refine ⟨.refl t k, hsl, ?_⟩
      rw [committed_length, slice_succ, slice_update_of_le le_rfl, hb, Nat.zero_add,
        Function.update_self, ← committed_length, List.take_length]
  | count b =>
    obtain ⟨hsl, hb⟩ := hr
    obtain ⟨hst, rfl⟩ := Prod.mk.inj h
    obtain rfl := ReadStep.goesOn.inj hst
    refine ⟨.refl t k, ?_⟩
    rw [ReadOk, hsl, ← committed_length, hb]
    rfl
  | clearBuffer b r =>
    obtain ⟨hst, rfl⟩ := Prod.mk.inj h
    obtain rfl := ReadStep.goesOn.inj hst
    exact ⟨sameButSlot_clearTerminalBuffer t k, hr⟩
  | clearCount b r =>
    obtain ⟨hst, rfl⟩ := Prod.mk.inj h
    obtain rfl := ReadStep.goesOn.inj hst
    exact ⟨sameButSlot_clearNumberofchars t k, hr⟩
  | clearFlag b r => cases (Prod.mk.inj h).1

/-- The instruction that returns. -/
theorem readStep_returns {st : ReadState} {retvalue : Int} {buffer : Buf}
    (h : readStep t k st = (.returns retvalue buffer, k'))
    (hr : ReadOk (lineOf k t) sl (some st)) :
    SameButSlot t k k' ∧ sl = some (retvalue, slice buffer 0 retvalue.toNat) ∧
      (lineOf k' t).flag = false := by
  cases st with
  | copy b i =>
    rw [readStep] at h
    split at h <;> cases (Prod.mk.inj h).1
  | clearFlag b r =>
    obtain ⟨hst, rfl⟩ := Prod.mk.inj h
    obtain ⟨rfl, rfl⟩ := ReadStep.returns.inj hst
    exact ⟨sameButSlot_clearFlag t k, hr, by simp [lineOf, clearFlag]⟩
  | _ => cases (Prod.mk.inj h).1

/-- What `ReadsOk` says about one terminal: its line, its mailbox, its read. -/
structure BoxOk (l : TermLine) (b : Inbox) (st : Option ReadState) : Prop where
  pending : l.pending = b.pending
  reads : ReadOk l (slot b.history) st
  faithful : Faithful b.history
  lines : ∀ x ∈ puts b.history, ∃ l : List UInt8, l.length ≤ 127 ∧ x = answer l

theorem ReadsOk.box (h : ReadsOk tr s) (t : TermId) :
    BoxOk (lineOf s.kernel t) (inbox t tr) (s.reads t) :=
  ⟨h.pending t, h.reads t, h.faithful t, h.lines t⟩

/-- A step that concerns terminal `t` only. -/
theorem ReadsOk.update (h : ReadsOk tr s) (t : TermId) (hi : InputOk s'.kernel)
    (hothers : ∀ u ≠ t, lineOf s'.kernel u = lineOf s.kernel u ∧
      inbox u (tr ++ [(e, o)]) = inbox u tr ∧ s'.reads u = s.reads u)
    (hself : BoxOk (lineOf s'.kernel t) ((inbox t tr).see t o) (s'.reads t)) :
    ReadsOk (tr ++ [(e, o)]) s' := by
  have hbox (u : TermId) : BoxOk (lineOf s'.kernel u) (inbox u (tr ++ [(e, o)])) (s'.reads u) := by
    by_cases hu : u = t
    · rw [hu, inbox_concat]
      exact hself
    · obtain ⟨hline, hinbox, hreads⟩ := hothers u hu
      rw [hline, hinbox, hreads]
      exact h.box u
  exact ⟨hi, fun u => (hbox u).pending, fun u => (hbox u).reads, fun u => (hbox u).faithful,
    fun u => (hbox u).lines⟩

/-- A step that touches no line. -/
theorem ReadsOk.same (h : ReadsOk tr s) (hs : SameInput s.kernel k') :
    ReadsOk (tr ++ [(e, .quiet)]) { s with kernel := k' } :=
  h.update s.kernel.currentTerm (h.input.received hs.received)
    (fun u _ => ⟨(hs.lines u).lineOf_eq, inbox_quiet, rfl⟩)
    ((hs.lines _).lineOf_eq ▸ h.box _)

/-- The slot of the visible terminal takes a key, and Enter fills it. -/
theorem readOk_key (hr : ReadOk l sl st) (hw : key = .enter → Waits st) :
    ReadOk (l.edit key) (if key = .enter then some (answer l.pending) else sl) st := by
  by_cases hk : key = .enter
  · rw [if_pos hk]
    have hst := hw hk
    subst hk
    match st with
    | none => rfl
    | some (.spin _) => rfl
  · rw [if_neg hk]
    obtain ⟨hc, hf⟩ := edit_of_ne_enter l hk
    exact hr.congr hc hf

theorem inbox_key_of_ne (ht : t ≠ u) :
    inbox t (tr ++ [(e, .key u key)]) = inbox t tr := by
  rw [inbox_concat, Inbox.see, if_neg (Ne.symm ht)]

theorem inbox_returned_of_ne {retvalue : Int} {buffer : Buf} (ht : t ≠ u) :
    inbox t (tr ++ [(e, .returned u retvalue buffer)]) = inbox t tr := by
  rw [inbox_concat, Inbox.see, if_neg (Ne.symm ht)]

/-- The terminal that a key is for. -/
theorem BoxOk.received {b : Inbox} (h : BoxOk l b st) (hl : l.pending.length ≤ 127)
    (hw : key = .enter → Waits st) : BoxOk (l.edit key) (b.key key) st where
  pending := by
    rw [edit_pending, h.pending]
    rfl
  reads := by
    have hread := readOk_key h.reads hw
    rw [Inbox.key, ← h.pending]
    split <;> simpa [*] using hread
  faithful := by
    rw [Inbox.key]
    split
    · exact h.faithful.put _
    · exact h.faithful
  lines := by
    rw [Inbox.key]
    dsimp only
    split
    · intro x hx
      rw [puts_put, List.mem_append, List.mem_singleton] at hx
      rcases hx with hx | rfl
      · exact h.lines x hx
      · exact ⟨b.pending, h.pending ▸ hl, rfl⟩
    · exact h.lines

/-- The terminal that a read returns on. -/
theorem BoxOk.returned {b : Inbox} {retvalue : Int} {buffer : Buf} (h : BoxOk l b st)
    (hslot : slot b.history = some (retvalue, slice buffer 0 retvalue.toNat))
    (hp : l'.pending = l.pending) (hf : l'.flag = false) :
    BoxOk l' (b.returned retvalue buffer) none where
  pending := hp.trans h.pending
  reads := by
    rw [Inbox.returned, slot_take, ReadOk, SlotOk, hf]
    rfl
  faithful := h.faithful.take hslot
  lines := by
    rw [Inbox.returned, puts_take]
    exact h.lines

/-- A key. -/
theorem ReadsOk.received (h : ReadsOk tr s) (hr : Received key s.kernel k')
    (hw : key = .enter → Waits (s.reads s.kernel.visableTerm)) :
    ReadsOk (tr ++ [(e, .key s.kernel.visableTerm key)]) { s with kernel := k' } := by
  refine h.update s.kernel.visableTerm (h.input.received hr)
    (fun u hu => ⟨(hr.others u hu).lineOf_eq, inbox_key_of_ne hu, rfl⟩) ?_
  have hlen : (lineOf s.kernel s.kernel.visableTerm).pending.length ≤ 127 := by
    rw [pending_length]
    exact h.input.noc_le s.kernel.visableTerm
  rw [Inbox.see, if_pos rfl, hr.visible]
  exact (h.box s.kernel.visableTerm).received hlen hw

/-- **Every step keeps `ReadsOk`.** -/
theorem readsOk_step (h : ReadsOk tr s) (hs : Guarded ClearOfRead (InputStep im) s e o s') :
    ReadsOk (tr ++ [(e, o)]) s' := by
  obtain ⟨hclear, hs⟩ := hs
  have hold := h.box s.kernel.currentTerm
  cases hs with
  | tick hstep => exact h.same ((scheduled_same _ _).trans (procFrame_schedulerNext hstep).input)
  | @key ev k' hkey =>
    have hrec := received_checkInput h.input hkey
    exact h.received hrec hclear
  | switch => exact h.same (.switchTerminals _ _)
  | @read buffer nbytes hnone hn =>
    refine h.update s.kernel.currentTerm h.input
      (fun u hu => ⟨rfl, inbox_quiet, Function.update_of_ne hu _ _⟩) ?_
    dsimp only
    rw [hnone] at hold
    rw [Function.update_self]
    exact ⟨hold.pending, hold.reads, hold.faithful, hold.lines⟩
  | @goesOn st st' k' hst hstep =>
    rw [hst] at hold
    obtain ⟨hsame, hnew⟩ := readStep_goesOn hstep hold.reads
    refine h.update s.kernel.currentTerm (hsame.inputOk h.input)
      (fun u hu => ⟨hsame.others u hu, inbox_quiet, Function.update_of_ne hu _ _⟩) ?_
    dsimp only
    rw [Function.update_self]
    exact ⟨(hsame.pending _).trans hold.pending, hnew, hold.faithful, hold.lines⟩
  | @returns st retvalue buffer k' hst hstep =>
    rw [hst] at hold
    obtain ⟨hsame, hslot, hflag⟩ := readStep_returns hstep hold.reads
    refine h.update s.kernel.currentTerm (hsame.inputOk h.input)
      (fun u hu => ⟨hsame.others u hu, inbox_returned_of_ne hu, Function.update_of_ne hu _ _⟩) ?_
    dsimp only
    rw [Function.update_self, Inbox.see, if_pos rfl]
    exact hold.returned hslot (hsame.pending _) hflag

theorem readsOk_boot (k₀ : Kernel) : ReadsOk [] ⟨entry k₀, fun _ => none⟩ := by
  have hline (t : TermId) : lineOf (entry k₀) t = ⟨[], [], false⟩ :=
    ((SameInput.of_screen (sameButScreen_entry k₀)).lines t).lineOf_eq
  refine ⟨inputOk_entry k₀, fun t => ?_, fun t => ?_, fun _ => faithful_nil, fun t x hx => ?_⟩
  · rw [hline]
    rfl
  · rw [hline]
    rfl
  · cases hx

end Facts

/-! ## A read without interrupts -/

section Alone

variable {im : Image} {k k' : Kernel} {rs : TermId → Option ReadState} {st st' : ReadState}

/-- The process of the current terminal is at `st` of its read. -/
def inRead (rs : TermId → Option ReadState) (k : Kernel) (st : ReadState) : Reading :=
  ⟨k, Function.update rs k.currentTerm (some st)⟩

/-- The labels of `n` instructions that do not return. -/
def quietSteps (n : Nat) : List (InputEvent × InputSeen) := List.replicate n (.step, .quiet)

/-- One instruction. -/
theorem run_goesOn (h : readStep k.currentTerm k st = (.goesOn st', k'))
    (hcur : k'.currentTerm = k.currentTerm) :
    Run (Guarded ClearOfRead (InputStep im)) (inRead rs k st) (quietSteps 1)
      (inRead rs k' st') := by
  have hst : (inRead rs k st).reads k.currentTerm = some st := Function.update_self _ _ _
  have hstep : InputStep im (inRead rs k st) .step .quiet _ := .goesOn hst h
  simp only [inRead, Function.update_idem] at hstep ⊢
  rw [hcur]
  exact .single ⟨trivial, hstep⟩

theorem store_succ (b src : Buf) (i : Nat) :
    Function.update (store b 0 src i) i (src i) = store b 0 src (i + 1) := by
  funext j
  by_cases hj : j = i
  · subst hj
    rw [Function.update_self, store_of_lt (Nat.zero_le _) (by omega), Nat.sub_zero]
  · rw [Function.update_of_ne hj]
    by_cases hlt : j < i
    · rw [store_of_lt (Nat.zero_le _) (by omega), store_of_lt (Nat.zero_le _) (by omega)]
    · rw [store_of_not (by omega), store_of_not (by omega)]

/-- The copy loop, when `m` bytes are still to come. -/
theorem run_copy (im : Image) (rs : TermId → Option ReadState) (k : Kernel) (b : Buf) (m : Nat) :
    ∀ i, i + m = k.numberofchars k.currentTerm →
    Run (Guarded ClearOfRead (InputStep im))
      (inRead rs k (.copy (store b 0 (k.terminalbuffer k.currentTerm) i) i)) (quietSteps (m + 1))
      (inRead rs k (.count (Function.update (store b 0 (k.terminalbuffer k.currentTerm)
        (k.numberofchars k.currentTerm)) (k.numberofchars k.currentTerm) newline))) := by
  induction m with
  | zero =>
    intro i hi
    obtain rfl : i = k.numberofchars k.currentTerm := by omega
    exact run_goesOn (if_neg (Nat.lt_irrefl _)) rfl
  | succ m ih =>
    intro i hi
    have hstep : readStep k.currentTerm k
        (.copy (store b 0 (k.terminalbuffer k.currentTerm) i) i) =
        (.goesOn (.copy (store b 0 (k.terminalbuffer k.currentTerm) (i + 1)) (i + 1)), k) := by
      rw [readStep, if_pos (by omega), store_succ]
    exact (run_goesOn hstep rfl).trans (ih (i + 1) (by omega))

/-- The last instruction. -/
theorem step_returns (rs : TermId → Option ReadState) (k : Kernel) (buffer : Buf) (r : Nat) :
    Guarded ClearOfRead (InputStep im) (inRead rs k (.clearFlag buffer r)) .step
      (.returned k.currentTerm (r + 1) buffer)
      ⟨clearFlag k.currentTerm k, Function.update rs k.currentTerm none⟩ := by
  have hst : (inRead rs k (.clearFlag buffer r)).reads k.currentTerm =
      some (.clearFlag buffer r) := Function.update_self _ _ _
  have hstep : InputStep im (inRead rs k (.clearFlag buffer r)) .step _ _ := .returns hst rfl
  simp only [inRead, Function.update_idem] at hstep
  exact ⟨trivial, hstep⟩

theorem quietSteps_add (m n : Nat) : quietSteps m ++ quietSteps n = quietSteps (m + n) :=
  List.replicate_append_replicate

/-- **A read that is not interrupted** is the whole call. -/
theorem read_runs (im : Image) (rs : TermId → Option ReadState) {b buffer : Buf}
    {nbytes retvalue : Int}
    (h : terminalRead b nbytes k = some (retvalue, buffer, k')) :
    Run (Guarded ClearOfRead (InputStep im)) (inRead rs k (.spin (zeroBuffer b nbytes)))
      (quietSteps (k.numberofchars k.currentTerm + 5) ++
        [(.step, .returned k.currentTerm retvalue buffer)])
      ⟨k', Function.update rs k.currentTerm none⟩ := by
  unfold terminalRead at h
  dsimp only at h
  split at h
  · have hspin : readStep k.currentTerm k (.spin (zeroBuffer b nbytes)) = (.goesOn
        (.copy (store (zeroBuffer b nbytes) 0 (k.terminalbuffer k.currentTerm) 0) 0), k) := by
      rw [readStep, if_pos ‹_›, store_zero]
    have hcopy := run_copy im rs k (zeroBuffer b nbytes) (k.numberofchars k.currentTerm) 0
      (by omega)
    have hcopied := (run_goesOn hspin rfl).trans hcopy
    simp only [Option.some.injEq, Prod.mk.injEq] at h
    obtain ⟨rfl, hbuffer, hk'⟩ := h
    rw [hbuffer] at hcopied
    -- The three assignments that empty the slot.
    have hcount : Run (Guarded ClearOfRead (InputStep im)) (inRead rs k (.count buffer))
        (quietSteps 1) (inRead rs k (.clearBuffer buffer (k.numberofchars k.currentTerm))) :=
      run_goesOn rfl rfl
    have hclear : Run (Guarded ClearOfRead (InputStep im))
        (inRead rs k (.clearBuffer buffer (k.numberofchars k.currentTerm))) (quietSteps 1)
        (inRead rs (clearTerminalBuffer k.currentTerm k)
          (.clearCount buffer (k.numberofchars k.currentTerm))) := run_goesOn rfl rfl
    have hzero : Run (Guarded ClearOfRead (InputStep im))
        (inRead rs (clearTerminalBuffer k.currentTerm k)
          (.clearCount buffer (k.numberofchars k.currentTerm))) (quietSteps 1)
        (inRead rs (clearNumberofchars k.currentTerm (clearTerminalBuffer k.currentTerm k))
          (.clearFlag buffer (k.numberofchars k.currentTerm))) := run_goesOn rfl rfl
    have hrun := (((hcopied.trans hcount).trans hclear).trans hzero).snoc (step_returns rs
      (clearNumberofchars k.currentTerm (clearTerminalBuffer k.currentTerm k)) buffer
      (k.numberofchars k.currentTerm))
    have hlen (n : Nat) : 1 + (n + 1) + 1 + 1 + 1 = n + 5 := by omega
    rw [quietSteps_add, quietSteps_add, quietSteps_add, quietSteps_add, hlen] at hrun
    exact hk' ▸ hrun
  · cases h

end Alone

/-! ## Whole runs -/

section Lines

variable {im : Image} {tr : List (InputEvent × InputSeen)} {s : Reading} {k₀ : Kernel}

theorem readsOk_run (h : Run (Guarded ClearOfRead (InputStep im)) ⟨entry k₀, fun _ => none⟩ tr s) :
    ReadsOk tr s :=
  h.invariant_history (readsOk_boot k₀) fun _ _ _ _ _ hok hs => readsOk_step hok hs

/-- **Lines are read once and in order.** Ticks, keyboard interrupts, switches and the instructions
of reads by the terminals' processes come in any order, but Enter does not arrive at a terminal
while a read on it is past its test of the flag. Then what the reads on a terminal return is a
subsequence of the lines completed on it, each followed by a newline and with its length plus one;
and each read returns the line completed there last, which no other read has returned. -/
theorem lines_read
    (h : Run (Guarded ClearOfRead (InputStep im)) ⟨entry k₀, fun _ => none⟩ tr s) (t : TermId) :
    (linesReturned t tr).Sublist (linesCompleted t tr) ∧
    (∀ x ∈ linesReturned t tr, ∃ l, l.length ≤ 127 ∧ x = answer l) ∧
    ∀ tr₁ e retvalue buffer tr₂, tr = tr₁ ++ (e, .returned t retvalue buffer) :: tr₂ →
      slot (inbox t tr₁).history = some (retvalue, slice buffer 0 retvalue.toNat) := by
  have hok := readsOk_run h
  have hsub := takes_sublist (hok.faithful t)
  refine ⟨hsub, fun x hx => hok.lines t x (hsub.subset hx), ?_⟩
  rintro tr₁ e retvalue buffer tr₂ rfl
  obtain ⟨h₂, hh⟩ := inbox_append t (tr₁ ++ [(e, .returned t retvalue buffer)]) tr₂
  rw [List.append_assoc, List.singleton_append, inbox_concat, Inbox.see, if_pos rfl] at hh
  refine hok.faithful t _ _ h₂ ?_
  rw [hh, Inbox.returned, List.append_assoc]
  rfl

theorem inbox_quietSteps (t : TermId) (tr : List (InputEvent × InputSeen)) (n : Nat) :
    inbox t (tr ++ quietSteps n) = inbox t tr := by
  induction n with
  | zero => rw [quietSteps, List.replicate_zero, List.append_nil]
  | succ n ih =>
    rw [← quietSteps_add, ← List.append_assoc]
    exact inbox_quiet.trans ih

/-- A key that arrives when nothing reads. -/
theorem key_step (im : Image) {k : Kernel} (hk : InputOk k) (ev : KeyEvent) :
    ∃ k', Guarded ClearOfRead (InputStep im) ⟨k, fun _ => none⟩ (.key ev)
        (.key k.visableTerm (decodeKey k.chararray ev)) ⟨k', fun _ => none⟩ ∧
      Received (decodeKey k.chararray ev) k k' ∧ k'.currentTerm = k.currentTerm := by
  obtain ⟨k', hk', hrec⟩ := checkInput_spec ev hk
  exact ⟨k', ⟨fun _ => trivial, .key hk'⟩, hrec, checkInput_currentTerm hk hk'⟩

/-- Enter on terminal 0. -/
theorem enter_step (im : Image) {k : Kernel} (hk : InputOk k) :
    ∃ k', Run (Guarded ClearOfRead (InputStep im)) ⟨k, fun _ => none⟩
        [(.switch 0, .quiet), (.key { code := 0x1C }, .key 0 .enter)] ⟨k', fun _ => none⟩ ∧
      InputOk k' ∧ k'.currentTerm = k.currentTerm ∧ k'.flags 0 = true := by
  obtain ⟨k', hstep, hrec, hcur⟩ := key_step im (hk.switch 0) { code := 0x1C }
  have hv : (switchTerminals 0 k).visableTerm = 0 := by rw [switchTerminals_eq]
  have hc : (switchTerminals 0 k).currentTerm = k.currentTerm := by rw [switchTerminals_eq]
  have henter (keys : Buf) : decodeKey keys { code := 0x1C } = .enter := rfl
  have hvis := hrec.visible
  rw [henter] at hstep hvis
  rw [hv] at hstep hvis
  refine ⟨k', .snoc (.single ⟨trivial, .switch⟩) hstep, (hk.switch 0).received hrec,
    hcur.trans hc, ?_⟩
  exact congrArg TermLine.flag hvis

/-- The line `a` is completed on terminal 0. -/
theorem one_line : ∃ tr k,
    Run (Guarded ClearOfRead (InputStep shellImage)) ⟨entry default, fun _ => none⟩ tr
      ⟨k, fun _ => none⟩ ∧
    inbox 0 tr = ⟨[], [.put (answer [97])]⟩ ∧ InputOk k ∧ k.currentTerm = 0 ∧
    k.flags 0 = true := by
  obtain ⟨k₁, -, htick, -, ⟨hcur₁, hvis₁, -⟩, -⟩ := first_ticks hasShell_shellImage default
  have hsame : SameInput (entry default) k₁ :=
    (scheduled_same _ _).trans (procFrame_schedulerNext htick).input
  have hk₁ := (inputOk_entry default).received hsame.received
  obtain ⟨k₂, ha, hrec, hcur₂⟩ := key_step shellImage hk₁ { code := 0x1E }
  have hkey : decodeKey k₁.chararray { code := 0x1E } = .char 97 := by
    rw [hsame.chararray, (SameInput.of_screen (sameButScreen_entry default)).chararray]
    decide
  rw [hkey, hvis₁] at ha
  obtain ⟨k₃, hline, hk₃, hcur₃, hflag⟩ := enter_step shellImage (hk₁.received hrec)
  have hfirst : Guarded ClearOfRead (InputStep shellImage) ⟨entry default, fun _ => none⟩
      (.tick ((entry default).sp 0)) .quiet ⟨k₁, fun _ => none⟩ := ⟨trivial, .tick htick⟩
  refine ⟨_, k₃, ((Run.single hfirst).snoc ha).trans hline, rfl, hk₃, ?_, hflag⟩
  rw [hcur₃, hcur₂, hcur₁]

/-- A read of the line that is there. -/
theorem read_next {k : Kernel}
    (h : Run (Guarded ClearOfRead (InputStep im)) ⟨entry k₀, fun _ => none⟩ tr
      ⟨k, fun _ => none⟩) (hcur : k.currentTerm = 0) (hflag : k.flags 0 = true) :
    ∃ tr' s retvalue buffer, Run (Guarded ClearOfRead (InputStep im)) ⟨entry k₀, fun _ => none⟩
        (tr' ++ [(.step, .returned 0 retvalue buffer)]) s ∧ inbox 0 tr' = inbox 0 tr := by
  have hread : Guarded ClearOfRead (InputStep im) ⟨k, fun _ => none⟩
      (.read (fun _ => 0) 128) .quiet (inRead (fun _ => none) k (.spin (zeroBuffer _ 128))) :=
    ⟨trivial, .read rfl le_rfl⟩
  have hret : terminalRead (fun _ => 0) 128 k = some _ := if_pos (hcur.symm ▸ hflag)
  have hrun := (h.snoc hread).trans (read_runs im (fun _ => none) hret)
  rw [← List.append_assoc, hcur] at hrun
  exact ⟨_, _, _, _, hrun, by rw [inbox_quietSteps, inbox_quiet]⟩

/-- The line `a` is overwritten by an empty one before it is read. -/
theorem lines_read_overwritten : ∃ tr s,
    Run (InputStep shellImage) ⟨entry default, fun _ => none⟩ tr s ∧
      ¬ linesReturned 0 tr <+: linesCompleted 0 tr := by
  obtain ⟨tr, k, hline, hbox, hk, hcur, -⟩ := one_line
  obtain ⟨k', hempty, -, hcur', hflag⟩ := enter_step shellImage hk
  obtain ⟨tr', s, retvalue, buffer, hrun, hbox'⟩ :=
    read_next (hline.trans hempty) (hcur'.trans hcur) hflag
  have hboth : inbox 0 tr' = ⟨[], [.put (answer [97]), .put (answer [])]⟩ := by
    rw [hbox', inbox, List.foldl_append, ← inbox, hbox]
    rfl
  refine ⟨_, s, hrun.of_guarded, ?_⟩
  have hfaithful := (readsOk_run hrun).faithful 0
  rw [inbox_concat, Inbox.see, if_pos rfl, Inbox.returned, hboth] at hfaithful
  have hx : answer [] = (retvalue, slice buffer 0 retvalue.toNat) :=
    Option.some.inj hfaithful.slot_of_take
  rw [linesReturned, linesCompleted, inbox_concat, Inbox.see, if_pos rfl, Inbox.returned, hboth,
    ← hx, takes_take, puts_take]
  decide

/-- A read gets the line `a`. -/
theorem lines_read_letter : ∃ tr s retvalue buffer,
    Run (Guarded ClearOfRead (InputStep shellImage)) ⟨entry default, fun _ => none⟩
      (tr ++ [(.step, .returned 0 retvalue buffer)]) s ∧
    linesCompleted 0 tr = [answer [97]] ∧
    (retvalue, slice buffer 0 retvalue.toNat) = (2, [97, newline]) := by
  obtain ⟨tr, k, hline, hbox, -, hcur, hflag⟩ := one_line
  obtain ⟨tr', s, retvalue, buffer, hrun, hbox'⟩ := read_next hline hcur hflag
  rw [hbox] at hbox'
  have hread := (lines_read hrun 0).2.2 tr' .step retvalue buffer [] rfl
  rw [hbox'] at hread
  refine ⟨tr', s, retvalue, buffer, hrun, ?_, (Option.some.inj hread).symm⟩
  rw [linesCompleted, hbox']
  rfl

end Lines

end Kernel391

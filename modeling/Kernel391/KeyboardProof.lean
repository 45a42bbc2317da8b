import Kernel391.ConsoleProof
import Kernel391.Process
import Kernel391.Lib.Run

/-!
# Line editing

Every terminal owns one line under construction and one slot for a finished line
(`TermLine`), and a key edits those of the visible terminal only (`TermLine.edit`). The code
works on a single static `linebuffer` instead, reloaded at every interrupt up to the pending
length; `checkInput_spec` shows that the bytes another terminal left in it never show.

* `checkInput_spec` — one interrupt edits the line of the terminal that was visible, and no
  other; no index leaves its array.
* `lines_from_boot` — over a whole run each terminal's line is the fold of its own keys.
-/

namespace Kernel391

open Bytes Runs

/-! ## Lines -/

/-- What a terminal holds of its input: the line under construction, and the slot that hands a
finished line to `terminal_read`. -/
structure TermLine where
  pending : List UInt8
  committed : List UInt8
  flag : Bool

/-- The line of terminal `t`. -/
def lineOf (k : Kernel) (t : TermId) : TermLine where
  pending := slice (k.terminals t).lb 0 (k.terminals t).noc
  committed := slice (k.terminalbuffer t) 0 (k.numberofchars t)
  flag := k.flags t

/-- What a key means to the line. -/
inductive LineKey
  | char (c : UInt8)
  | backspace
  | enter
  | clearScreen
  | other
  deriving DecidableEq

namespace TermLine

/-- One key. -/
def edit (l : TermLine) : LineKey → TermLine
  | .char c => if l.pending.length < 127 then { l with pending := l.pending ++ [c] } else l
  | .backspace => { l with pending := l.pending.dropLast }
  | .enter => { pending := [], committed := l.pending, flag := true }
  | .clearScreen => { l with pending := [] }
  | .other => l

theorem edit_length_le {l : TermLine} (h : l.pending.length ≤ 127) (key : LineKey) :
    (l.edit key).pending.length ≤ 127 := by
  cases key with
  | char c =>
    simp only [edit]
    split
    · rw [List.length_append]
      exact Nat.succ_le_of_lt ‹_›
    · exact h
  | backspace =>
    have := l.pending.length_dropLast
    simp only [edit]
    omega
  | enter => exact Nat.zero_le _
  | clearScreen => exact Nat.zero_le _
  | other => exact h

end TermLine

/-! ## The meaning of a scan code -/

/-- The character keys: `c` is the key's entry of the table `keys`. -/
def decodeChar (keys : Buf) (c temp : UInt8) : LineKey :=
  let shift := keys leftshift == keyDown || keys rightshift == keyDown
  if (keys capslock == keyDown || shift) ∧ 97 ≤ c ∧ c ≤ 122 then
    let letter := if keys capslock == keyDown && shift then c else c - 32
    if letter = 76 ∧ keys leftcontrolPressed == keyDown then .clearScreen else .char letter
  else if c = 0 then .other
  else if shift then .char (shifted c temp)
  else .char c

/-- The scan codes that only move a modifier. -/
def modifierCodes : List Nat :=
  [leftshift, leftshiftReleased, rightshift, rightshiftReleased, leftcontrolPressed,
    leftcontrolReleased, altPressed, altReleased, capslock]

/-- What the key `ev` means when the table of keys is `keys`. -/
def decodeKey (keys : Buf) (ev : KeyEvent) : LineKey :=
  let a := ev.code.toNat
  if a ∈ modifierCodes then .other
  else if a = Kernel391.backspace then .backspace
  else if a = Kernel391.enter then .enter
  else decodeChar keys (if a < numKeys then keys a else ev.pastTable) ev.temp

/-! ## Frames -/

/-- Terminal `t` has the same line data in `k` and `k'`. -/
structure SameLineAt (k k' : Kernel) (t : TermId) : Prop where
  lb : (k'.terminals t).lb = (k.terminals t).lb
  noc : (k'.terminals t).noc = (k.terminals t).noc
  buffer : k'.terminalbuffer t = k.terminalbuffer t
  count : k'.numberofchars t = k.numberofchars t
  flag : k'.flags t = k.flags t

namespace SameLineAt

variable {k k₁ k₂ : Kernel} {t : TermId}

theorem refl (k : Kernel) (t : TermId) : SameLineAt k k t := ⟨rfl, rfl, rfl, rfl, rfl⟩

theorem trans (h₁ : SameLineAt k k₁ t) (h₂ : SameLineAt k₁ k₂ t) : SameLineAt k k₂ t :=
  ⟨h₂.lb.trans h₁.lb, h₂.noc.trans h₁.noc, h₂.buffer.trans h₁.buffer, h₂.count.trans h₁.count,
    h₂.flag.trans h₁.flag⟩

theorem lineOf_eq (h : SameLineAt k k₁ t) : lineOf k₁ t = lineOf k t := by
  simp only [lineOf, h.lb, h.noc, h.buffer, h.count, h.flag]

end SameLineAt

/-- No line, no key and no byte of `linebuffer` differs. -/
structure SameInput (k k' : Kernel) : Prop where
  lines : ∀ t, SameLineAt k k' t
  linebuffer : k'.linebuffer = k.linebuffer
  chararray : k'.chararray = k.chararray

namespace SameInput

variable {k k₁ k₂ : Kernel}

theorem refl (k : Kernel) : SameInput k k := ⟨fun t => .refl k t, rfl, rfl⟩

theorem trans (h₁ : SameInput k k₁) (h₂ : SameInput k₁ k₂) : SameInput k k₂ :=
  ⟨fun t => (h₁.lines t).trans (h₂.lines t), h₂.linebuffer.trans h₁.linebuffer,
    h₂.chararray.trans h₁.chararray⟩

theorem of_screen (h : SameButScreen k k₁) : SameInput k k₁ := by
  refine ⟨fun t => ?_, by rw [h.kernel], by rw [h.kernel]⟩
  exact ⟨by rw [h.terminals], by rw [h.terminals], by rw [h.kernel], by rw [h.kernel],
    by rw [h.kernel]⟩

theorem setWriteToVideomem (k : Kernel) : SameInput k k.setWriteToVideomem :=
  ⟨fun _ => ⟨rfl, rfl, rfl, rfl, rfl⟩, rfl, rfl⟩

theorem setWriteToBuffer (t : TermId) (k : Kernel) : SameInput k (k.setWriteToBuffer t) :=
  ⟨fun _ => ⟨rfl, rfl, rfl, rfl, rfl⟩, rfl, rfl⟩

theorem copyPage (dst src : Nat) (k : Kernel) : SameInput k (k.copyPage dst src) := by
  unfold Kernel.copyPage
  split
  · exact ⟨fun _ => ⟨rfl, rfl, rfl, rfl, rfl⟩, rfl, rfl⟩
  · exact .refl k

theorem switchTerminals (t : TermId) (k : Kernel) : SameInput k (switchTerminals t k) := by
  unfold Kernel391.switchTerminals
  dsimp only
  split
  · exact .refl k
  · have h : SameInput k { k with visableTerm := t } :=
      ⟨fun _ => ⟨rfl, rfl, rfl, rfl, rfl⟩, rfl, rfl⟩
    have h' := ((h.trans (setWriteToVideomem _)).trans
      (copyPage (vidBufs k.visableTerm) vidStartAddr _)).trans
      (copyPage vidStartAddr (vidBufs t) _)
    split
    · exact h'.trans (setWriteToBuffer _ _)
    · exact h'

end SameInput

/-! ## Writing the line back -/

/-- `k'` is `k` with the line of the visible terminal replaced by `l`. -/
structure Sets (l : TermLine) (k k' : Kernel) : Prop where
  visible : lineOf k' k.visableTerm = l
  others : ∀ t ≠ k.visableTerm, SameLineAt k k' t
  chararray : k'.chararray = k.chararray

/-- The bytes of `linebuffer` are the pending line of the visible terminal. -/
def Loaded (k : Kernel) : Prop :=
  slice k.linebuffer 0 (getCurrentNoc k) = (lineOf k k.visableTerm).pending

section Handlers

variable {k k₁ k' : Kernel} {l : TermLine} {n : Nat}

theorem pending_length (k : Kernel) (t : TermId) :
    (lineOf k t).pending.length = (k.terminals t).noc := length_slice _ _ _

theorem sets_self (k : Kernel) : Sets (lineOf k k.visableTerm) k k :=
  ⟨rfl, fun t _ => .refl k t, rfl⟩

/-- A step that touches no line may come first. -/
theorem Sets.after (h : Sets l k₁ k') (hs : SameInput k k₁)
    (hv : k₁.visableTerm = k.visableTerm) : Sets l k k' where
  visible := by rw [← hv]; exact h.visible
  others t ht := (hs.lines t).trans (h.others t (by rw [hv]; exact ht))
  chararray := h.chararray.trans hs.chararray

theorem Loaded.mono (h : Loaded k) (hs : SameInput k k₁) (hv : k₁.visableTerm = k.visableTerm) :
    Loaded k₁ := by
  rw [Loaded, getCurrentNoc, hv, (hs.lines _).noc, (hs.lines _).lineOf_eq, hs.linebuffer]
  exact h

theorem copyLine_of_le {dest src : Buf} (hn : n ≤ 128) :
    copyLine dest src n = some (store dest 0 src n) := if_pos hn

theorem setGlobalBuffer_spec (hn : n ≤ 128) :
    ∃ k', setGlobalBuffer n k = some k' ∧
      Sets { lineOf k k.visableTerm with pending := slice k.linebuffer 0 n } k k' := by
  simp only [setGlobalBuffer, copyLine_of_le hn, Option.bind_eq_bind, Option.bind_some]
  refine ⟨_, rfl, ?_, fun t ht => ?_, rfl⟩
  · simp only [lineOf, Function.update_self, slice_store]
  · exact ⟨by simp [ht], by simp [ht], rfl, rfl, rfl⟩

theorem setLineBuffer_spec (hn : getCurrentNoc k ≤ 128) :
    ∃ k', setLineBuffer k = some k' ∧ (∀ t, SameLineAt k k' t) ∧
      k' = { k with linebuffer := k'.linebuffer } ∧ Loaded k' := by
  have hn' : (k.terminals k.visableTerm).noc ≤ 128 := hn
  simp only [setLineBuffer, copyLine_of_le hn', Option.bind_eq_bind, Option.bind_some]
  refine ⟨_, rfl, fun t => ⟨rfl, rfl, rfl, rfl, rfl⟩, rfl, ?_⟩
  exact slice_store _ _ _ _

theorem setLineChar_of_lt {c : UInt8} (hn : n < 128) :
    setLineChar n c k = some { k with linebuffer := Function.update k.linebuffer n c } :=
  if_pos hn

/-- A byte stored past the first `m` of `linebuffer` does not show in them. -/
theorem slice_update_of_le {b : Buf} {c : UInt8} {m : Nat} (h : m ≤ n) :
    slice (Function.update b n c) 0 m = slice b 0 m :=
  slice_congr fun i hi => Function.update_of_ne (by omega) _ _

theorem Sets.trans {l' : TermLine} (h : Sets l' k₁ k') (h₁ : Sets l k k₁)
    (hv : k₁.visableTerm = k.visableTerm) : Sets l' k k' where
  visible := by rw [← hv]; exact h.visible
  others t ht := (h₁.others t ht).trans (h.others t (by rw [hv]; exact ht))
  chararray := h.chararray.trans h₁.chararray

/-- Neither the bytes of `linebuffer` nor the screen are part of a line. -/
theorem Sets.setLinebuffer (h : Sets l k k₁) (b : Buf) :
    Sets l k { k₁ with linebuffer := b } where
  visible := h.visible
  others t ht := ⟨(h.others t ht).lb, (h.others t ht).noc, (h.others t ht).buffer,
    (h.others t ht).count, (h.others t ht).flag⟩
  chararray := h.chararray

theorem Sets.screen (h : Sets l k k₁) (hs : SameButScreen k₁ k') : Sets l k k' where
  visible := by rw [((SameInput.of_screen hs).lines _).lineOf_eq]; exact h.visible
  others t ht := (h.others t ht).trans ((SameInput.of_screen hs).lines t)
  chararray := by rw [(SameInput.of_screen hs).chararray]; exact h.chararray

/-- Appending a character. -/
theorem putKey_spec (c : UInt8) (hl : Loaded k) (hn : getCurrentNoc k < 127) :
    ∃ k', putKey c (getCurrentNoc k) k = some k' ∧
      Sets ((lineOf k k.visableTerm).edit (.char c)) k k' := by
  have hlen : (lineOf k k.visableTerm).pending.length < 127 :=
    (pending_length k k.visableTerm).trans_lt hn
  let k₁ : Kernel :=
    { k with linebuffer := Function.update k.linebuffer (getCurrentNoc k) c }
  have hscr := SameButScreen.putc c k₁
  have hvis : (putc c k₁).visableTerm = k.visableTerm := hscr.visableTerm_eq
  have hecho : Sets (lineOf k k.visableTerm) k (putc c k₁) :=
    ((sets_self k).setLinebuffer _).screen hscr
  have hpend : slice (putc c k₁).linebuffer 0 (getCurrentNoc k + 1) =
      (lineOf k k.visableTerm).pending ++ [c] := by
    rw [(SameInput.of_screen hscr).linebuffer, slice_succ, ← hl]
    exact congrArg₂ _ (slice_update_of_le (Nat.le_refl _)) (by simp [k₁])
  obtain ⟨k', hk', hset⟩ :=
    setGlobalBuffer_spec (k := putc c k₁) (n := getCurrentNoc k + 1) (by omega)
  rw [hvis, hecho.visible, hpend] at hset
  refine ⟨k', ?_, ?_⟩
  · simp only [putKey, setLineChar_of_lt (show getCurrentNoc k < 128 by omega),
      Option.bind_eq_bind, Option.bind_some]
    exact hk'
  · simp only [TermLine.edit, if_pos hlen]
    exact hset.trans hecho hvis

/-- Backspace. -/
theorem backspaceKey_spec (hl : Loaded k) (hn : getCurrentNoc k ≤ 127) :
    ∃ k', backspaceKey (getCurrentNoc k) k = some k' ∧
      Sets ((lineOf k k.visableTerm).edit .backspace) k k' := by
  by_cases h0 : getCurrentNoc k = 0
  · refine ⟨k, by simp [backspaceKey, h0], ?_⟩
    have hnil : (lineOf k k.visableTerm).pending = [] :=
      List.eq_nil_of_length_eq_zero ((pending_length k _).trans h0)
    have : (lineOf k k.visableTerm).edit .backspace = lineOf k k.visableTerm := by
      simp only [TermLine.edit, hnil, List.dropLast_nil]
      rw [← hnil]
    rw [this]
    exact sets_self k
  · have hscr := SameButScreen.handlebackspace k
    have hi := SameInput.of_screen hscr
    let k₁ : Kernel := { handlebackspace k with
      linebuffer := Function.update (handlebackspace k).linebuffer (getCurrentNoc k) 0 }
    have hvis : k₁.visableTerm = k.visableTerm := hscr.visableTerm_eq
    have h₁ : Sets (lineOf k k.visableTerm) k k₁ :=
      ((sets_self k).screen hscr).setLinebuffer _
    obtain ⟨m, hm⟩ : ∃ m, getCurrentNoc k = m + 1 := ⟨getCurrentNoc k - 1, by omega⟩
    have hpend : slice k₁.linebuffer 0 (getCurrentNoc k - 1) =
        (lineOf k k.visableTerm).pending.dropLast := by
      rw [show k₁.linebuffer = Function.update k.linebuffer (getCurrentNoc k) 0 by
        rw [← hi.linebuffer], slice_update_of_le (by omega), ← hl, hm, dropLast_slice]
      rfl
    obtain ⟨k', hk', hset⟩ :=
      setGlobalBuffer_spec (k := k₁) (n := getCurrentNoc k - 1) (by omega)
    rw [hvis, h₁.visible, hpend] at hset
    refine ⟨k', ?_, hset.trans h₁ hvis⟩
    simp only [backspaceKey, if_pos h0, setLineChar_of_lt (show getCurrentNoc k < 128 by omega),
      Option.bind_eq_bind, Option.bind_some]
    exact hk'

/-- Enter. -/
theorem setTerminalBuffer_spec (hn : n < 128) :
    ∃ k', setTerminalBuffer n k = some k' ∧ k'.visableTerm = k.visableTerm ∧
      Sets { pending := (lineOf k k.visableTerm).pending
             committed := slice k.linebuffer 0 n
             flag := true } k k' := by
  simp only [setTerminalBuffer, copyLine_of_le (Nat.le_of_lt hn), Option.bind_eq_bind,
    Option.bind_some, keyboardBufferLength]
  refine ⟨_, if_pos hn, rfl, ?_, fun t ht => ?_, rfl⟩
  · simp only [lineOf, Function.update_self, slice_update_of_le (Nat.le_refl n), slice_store]
  · exact ⟨rfl, rfl, by simp [ht], by simp [ht], by simp [ht]⟩

theorem enterKey_spec (hl : Loaded k) (hn : getCurrentNoc k ≤ 127) :
    ∃ k', enterKey (getCurrentNoc k) k = some k' ∧
      Sets ((lineOf k k.visableTerm).edit .enter) k k' := by
  have hscr := SameButScreen.putc (k.chararray enter) k
  have hi := SameInput.of_screen hscr
  let k₁ : Kernel := { putc (k.chararray enter) k with
    linebuffer := Function.update (putc (k.chararray enter) k).linebuffer (getCurrentNoc k)
      newline }
  have hvis : k₁.visableTerm = k.visableTerm := hscr.visableTerm_eq
  have h₁ : Sets (lineOf k k.visableTerm) k k₁ := ((sets_self k).screen hscr).setLinebuffer _
  have hpend : slice k₁.linebuffer 0 (getCurrentNoc k) = (lineOf k k.visableTerm).pending := by
    rw [show k₁.linebuffer = Function.update k.linebuffer (getCurrentNoc k) newline by
      rw [← hi.linebuffer], slice_update_of_le (Nat.le_refl _)]
    exact hl
  obtain ⟨k₂, hk₂, hvis₂, hset₂⟩ :=
    setTerminalBuffer_spec (k := k₁) (n := getCurrentNoc k) (by omega)
  obtain ⟨k', hk', hset⟩ :=
    setGlobalBuffer_spec (k := clearLinebuffer k₂) (n := 0) (by omega)
  have hv₂ : (clearLinebuffer k₂).visableTerm = k₁.visableTerm := hvis₂
  have hclear := hset₂.setLinebuffer (clearLine k₂.linebuffer)
  change Sets _ k₁ (clearLinebuffer k₂) at hclear
  rw [hv₂, hclear.visible, hpend] at hset
  refine ⟨k', ?_, (hset.trans hclear hv₂).trans h₁ hvis⟩
  simp only [enterKey, setLineChar_of_lt (show getCurrentNoc k < 128 by omega),
    Option.bind_eq_bind, Option.bind_some]
  change (setTerminalBuffer (getCurrentNoc k) k₁).bind _ = _
  rw [hk₂]
  exact hk'

/-- A character key appends if the line has room. -/
theorem appendKey_spec (c : UInt8) (hl : Loaded k) (hn : getCurrentNoc k ≤ 127) :
    ∃ k', (if getCurrentNoc k ≠ keyboardBufferLength - 1 then putKey c (getCurrentNoc k) k
        else some k) = some k' ∧ Sets ((lineOf k k.visableTerm).edit (.char c)) k k' := by
  by_cases h : getCurrentNoc k ≠ keyboardBufferLength - 1
  · rw [if_pos h]
    have hlt : getCurrentNoc k ≠ 127 := h
    exact putKey_spec c hl (by omega)
  · have hfull : (lineOf k k.visableTerm).pending.length = 127 :=
      (pending_length k _).trans (not_not.1 h)
    refine ⟨k, if_neg h, ?_⟩
    rw [TermLine.edit, if_neg (by omega)]
    exact sets_self k

/-- Clearing the line, after the screen was cleared. -/
theorem clearKey_spec (hscr : SameButScreen k k₁) :
    ∃ k', setGlobalBuffer 0 (clearLinebuffer k₁) = some k' ∧
      Sets ((lineOf k k.visableTerm).edit .clearScreen) k k' := by
  have h₁ := ((sets_self k).screen hscr).setLinebuffer (clearLine k₁.linebuffer)
  change Sets _ k (clearLinebuffer k₁) at h₁
  have hv : (clearLinebuffer k₁).visableTerm = k.visableTerm := hscr.visableTerm_eq
  obtain ⟨k', hk', hset⟩ := setGlobalBuffer_spec (k := clearLinebuffer k₁) (n := 0) (by omega)
  rw [hv, h₁.visible] at hset
  exact ⟨k', hk', hset.trans h₁ hv⟩

/-- The character keys do to the line what `decodeChar` says. -/
theorem charKey_spec (c temp : UInt8) (hl : Loaded k) (hn : getCurrentNoc k ≤ 127) :
    ∃ k', charKey c temp (getCurrentNoc k) k = some k' ∧
      Sets ((lineOf k k.visableTerm).edit (decodeChar k.chararray c temp)) k k' := by
  have happend := fun c => appendKey_spec (k := k) c hl hn
  unfold charKey decodeChar Kernel.isDown
  dsimp only
  generalize (if (k.chararray capslock == keyDown && _) = true then c else c - 32) = letter
  split
  · split
    · exact clearKey_spec ((SameButScreen.clear k).trans (.setposition 0 0 _))
    · exact happend _
  · by_cases h0 : c = 0
    · refine ⟨k, by simp [h0], ?_⟩
      rw [if_pos h0]
      exact sets_self k
    · simp only [h0, ne_eq, not_false_eq_true, true_and, if_false]
      split
      · exact happend _
      · exact happend _

end Handlers

/-! ## One interrupt -/

/-- The entries of `chararray` for F1, F2, F3 and Enter are as they were at boot, and no line is
longer than 127. -/
structure InputOk (k : Kernel) : Prop where
  noc_le : ∀ t, (k.terminals t).noc ≤ 127
  enter : k.chararray enter = newline
  f1 : k.chararray 0x3B = 0
  f2 : k.chararray 0x3C = 0
  f3 : k.chararray 0x3D = 0

/-- `k'` is `k` after a key that the terminal visible in `k` received. -/
structure Received (key : LineKey) (k k' : Kernel) : Prop where
  visible : lineOf k' k.visableTerm = (lineOf k k.visableTerm).edit key
  others : ∀ t ≠ k.visableTerm, SameLineAt k k' t
  keys : ∀ i, i ∉ modifierCodes → k'.chararray i = k.chararray i

section Interrupt

variable {k k₁ k' : Kernel} {key : LineKey}

theorem Sets.received (h : Sets ((lineOf k k.visableTerm).edit key) k k') : Received key k k' :=
  ⟨h.visible, h.others, fun i _ => by rw [h.chararray]⟩

/-- A modifier key. -/
theorem received_setKey {i : Nat} (c : UInt8) (hi : i ∈ modifierCodes) :
    Received .other k (k.setKey i c) where
  visible := rfl
  others _ _ := ⟨rfl, rfl, rfl, rfl, rfl⟩
  keys _ hj := Function.update_of_ne (ne_of_mem_of_not_mem hi hj).symm _ _

theorem InputOk.congr (h : InputOk k) (hnoc : ∀ t, (k'.terminals t).noc = (k.terminals t).noc)
    (hc : k'.chararray = k.chararray) : InputOk k' where
  noc_le t := by
    rw [hnoc]
    exact h.noc_le t
  enter := by rw [hc, h.enter]
  f1 := by rw [hc, h.f1]
  f2 := by rw [hc, h.f2]
  f3 := by rw [hc, h.f3]

theorem InputOk.received (h : InputOk k) (hr : Received key k k') : InputOk k' where
  noc_le t := by
    by_cases ht : t = k.visableTerm
    · subst ht
      rw [← pending_length, hr.visible]
      exact TermLine.edit_length_le ((pending_length k _).trans_le (h.noc_le _)) _
    · rw [(hr.others t ht).noc]
      exact h.noc_le t
  enter := by rw [hr.keys _ (by decide), h.enter]
  f1 := by rw [hr.keys _ (by decide), h.f1]
  f2 := by rw [hr.keys _ (by decide), h.f2]
  f3 := by rw [hr.keys _ (by decide), h.f3]

/-- A key that is no character leaves the line alone, whatever the visible terminal is by now. -/
theorem charKey_zero (temp : UInt8) (n : Nat) (k : Kernel) : charKey 0 temp n k = some k := by
  have h : ¬ (97 : UInt8) ≤ 0 := by decide
  simp [charKey, h]

/-- Alt with one of the three function keys switches. -/
theorem switchKey_cases (a : Nat) (k : Kernel) :
    switchKey a k = k ∨
      (a = 0x3B ∨ a = 0x3C ∨ a = 0x3D) ∧ ∃ t, switchKey a k = switchTerminals t k := by
  unfold switchKey
  split
  · exact .inr ⟨.inr (.inl ‹_›), 1, rfl⟩
  split
  · exact .inr ⟨.inr (.inr ‹_›), 2, rfl⟩
  split
  · exact .inr ⟨.inl ‹_›, 0, rfl⟩
  · exact .inl rfl

theorem SameInput.received (h : SameInput k k') : Received .other k k' :=
  ⟨(h.lines _).lineOf_eq, fun t _ => h.lines t, fun i _ => by rw [h.chararray]⟩

/-- Frames before and after a key. -/
theorem Received.before (h : Received key k₁ k') (hl : ∀ t, SameLineAt k k₁ t)
    (hv : k₁.visableTerm = k.visableTerm) (hc : k₁.chararray = k.chararray) :
    Received key k k' where
  visible := by rw [← (hl _).lineOf_eq, ← hv]; exact h.visible
  others t ht := (hl t).trans (h.others t (by rw [hv]; exact ht))
  keys i hi := by rw [h.keys i hi, hc]

theorem Received.after (h : Received key k k₁) (hs : SameInput k₁ k') : Received key k k' where
  visible := by rw [(hs.lines _).lineOf_eq]; exact h.visible
  others t ht := (h.others t ht).trans (hs.lines t)
  keys i hi := by rw [hs.chararray]; exact h.keys i hi

/-- The entry of a function key is no character. -/
theorem keyAt_fkey {ev : KeyEvent} (h : InputOk k)
    (hf : ev.code.toNat = 0x3B ∨ ev.code.toNat = 0x3C ∨ ev.code.toNat = 0x3D) :
    k.keyAt ev = 0 := by
  have hlt : ev.code.toNat < numKeys := by
    have : numKeys = 255 := rfl
    omega
  rw [Kernel.keyAt, if_pos hlt]
  rcases hf with hf | hf | hf <;> rw [hf]
  exacts [h.f1, h.f2, h.f3]

theorem decodeChar_zero (keys : Buf) (temp : UInt8) : decodeChar keys 0 temp = .other := by
  have h97 : ¬ (97 : UInt8) ≤ 0 := by decide
  simp [decodeChar, h97]

/-- The `default` case. Alt with F1, F2 or F3 switches terminals, and then yields no character
for the terminal it switched to. -/
theorem defaultKey_spec (ev : KeyEvent) (h : InputOk k) (hl : Loaded k) :
    ∃ k', defaultKey ev (getCurrentNoc k) k = some k' ∧
      Received (decodeChar k.chararray (k.keyAt ev) ev.temp) k k' ∧
      k'.chararray = k.chararray := by
  have hchar := charKey_spec (k.keyAt ev) ev.temp hl (h.noc_le _)
  unfold defaultKey
  split
  · dsimp only
    rcases switchKey_cases ev.code.toNat k with hsw | ⟨hf, t, hsw⟩
    · rw [hsw]
      exact hchar.imp fun k' hk' => ⟨hk'.1, hk'.2.received, hk'.2.chararray⟩
    · have hsame := SameInput.switchTerminals t k
      have hzero := keyAt_fkey h hf
      have hzero' : (switchTerminals t k).keyAt ev = 0 := by
        rw [← hzero, Kernel.keyAt, Kernel.keyAt, hsame.chararray]
      refine ⟨switchTerminals t k, ?_, ?_, hsame.chararray⟩
      · rw [hsw, hzero']
        exact charKey_zero _ _ _
      · rw [hzero, decodeChar_zero]
        exact hsame.received
  · exact hchar.imp fun k' hk' => ⟨hk'.1, hk'.2.received, hk'.2.chararray⟩

/-- A key that is no modifier leaves the table alone. -/
theorem lineKey_spec (ev : KeyEvent) (h : InputOk k) (hl : Loaded k)
    (hm : ev.code.toNat ∉ modifierCodes) :
    ∃ k', handleKey ev (getCurrentNoc k) k = some k' ∧
      Received (decodeKey k.chararray ev) k k' ∧ k'.chararray = k.chararray := by
  unfold handleKey decodeKey
  rw [if_neg hm]
  simp only [modifierCodes, List.mem_cons, List.not_mem_nil, or_false, not_or] at hm
  obtain ⟨h₁, h₂, h₃, h₄, h₅, h₆, h₇, h₈, h₉⟩ := hm
  simp only [h₁, h₂, h₃, h₄, h₅, h₆, h₇, h₈, h₉, if_false]
  split
  · exact (backspaceKey_spec hl (h.noc_le _)).imp fun k' hk' =>
      ⟨hk'.1, hk'.2.received, hk'.2.chararray⟩
  · split
    · exact (enterKey_spec hl (h.noc_le _)).imp fun k' hk' =>
        ⟨hk'.1, hk'.2.received, hk'.2.chararray⟩
    · exact defaultKey_spec ev h hl

theorem handleKey_spec (ev : KeyEvent) (h : InputOk k) (hl : Loaded k) :
    ∃ k', handleKey ev (getCurrentNoc k) k = some k' ∧
      Received (decodeKey k.chararray ev) k k' := by
  by_cases hm : ev.code.toNat ∈ modifierCodes
  · have hset : ∃ i c, i ∈ modifierCodes ∧
        handleKey ev (getCurrentNoc k) k = some (k.setKey i c) := by
      simp only [modifierCodes, List.mem_cons, List.not_mem_nil, or_false] at hm
      unfold handleKey
      rcases hm with hm | hm | hm | hm | hm | hm | hm | hm | hm <;> rw [hm] <;>
        exact ⟨_, _, by decide, rfl⟩
    obtain ⟨i, c, hi, hk⟩ := hset
    have hdecode : decodeKey k.chararray ev = .other := if_pos hm
    rw [hdecode]
    exact ⟨_, hk, received_setKey c hi⟩
  · exact (lineKey_spec ev h hl hm).imp fun k' hk' => ⟨hk'.1, hk'.2.1⟩

/-- The end of `check_input`: map the screen of the current terminal again. -/
def restoreScreen (k : Kernel) : Kernel :=
  if k.currentTerm ≠ k.visableTerm then k.setWriteToBuffer k.currentTerm else k

theorem restoreScreen_same (k : Kernel) : SameInput k (restoreScreen k) := by
  unfold restoreScreen
  split
  · exact .setWriteToBuffer _ _
  · exact .refl _

/-- `k₁` is `k` when the handler comes to the key: the line is loaded, and video memory is
mapped. -/
structure AtKey (k k₁ : Kernel) : Prop where
  lines : ∀ t, SameLineAt k k₁ t
  visableTerm : k₁.visableTerm = k.visableTerm
  chararray : k₁.chararray = k.chararray
  loaded : Loaded k₁
  start : ∃ k₀, setLineBuffer k = some k₀ ∧
    k₁ = (setposition (globalConsole.getX k₀) (globalConsole.getY k₀) k₀).setWriteToVideomem

theorem AtKey.noc (h : AtKey k k₁) : getCurrentNoc k₁ = getCurrentNoc k := by
  rw [getCurrentNoc, getCurrentNoc, h.visableTerm, (h.lines _).noc]

theorem AtKey.inputOk (h : AtKey k k₁) (hk : InputOk k) : InputOk k₁ :=
  hk.congr (fun t => (h.lines t).noc) h.chararray

theorem checkInput_eq (h : InputOk k) :
    ∃ k₁, AtKey k k₁ ∧
      ∀ ev, checkInput ev k = (handleKey ev (getCurrentNoc k) k₁).map restoreScreen := by
  obtain ⟨k₀, hk₀, hlines, heq, hl⟩ :=
    setLineBuffer_spec (k := k) ((h.noc_le k.visableTerm).trans (by decide))
  have hv : k₀.visableTerm = k.visableTerm := by rw [heq]
  have hc : k₀.chararray = k.chararray := by rw [heq]
  have hscr := SameButScreen.setposition (globalConsole.getX k₀) (globalConsole.getY k₀) k₀
  have hs := (SameInput.of_screen hscr).trans (.setWriteToVideomem _)
  refine ⟨_, ⟨fun t => (hlines t).trans (hs.lines t), hscr.visableTerm_eq.trans hv,
    hs.chararray.trans hc, hl.mono hs hscr.visableTerm_eq, k₀, hk₀, rfl⟩, fun ev => ?_⟩
  simp only [checkInput, hk₀, Option.bind_eq_bind, Option.bind_some]
  exact Option.map_eq_bind.symm

/-- **One interrupt.** No index leaves its array; the key edits the line of the terminal that
was visible when it arrived, and no other terminal's. -/
theorem checkInput_spec (ev : KeyEvent) (h : InputOk k) :
    ∃ k', checkInput ev k = some k' ∧ Received (decodeKey k.chararray ev) k k' := by
  obtain ⟨k₁, hat, heq⟩ := checkInput_eq h
  obtain ⟨k₂, hk₂, hrec⟩ := handleKey_spec ev (hat.inputOk h) hat.loaded
  rw [hat.noc] at hk₂
  rw [hat.chararray] at hrec
  refine ⟨restoreScreen k₂, ?_, ?_⟩
  · rw [heq, hk₂]
    rfl
  · exact (hrec.before hat.lines hat.visableTerm hat.chararray).after (restoreScreen_same k₂)

theorem received_checkInput {ev : KeyEvent} (h : InputOk k) (hs : checkInput ev k = some k') :
    Received (decodeKey k.chararray ev) k k' := by
  obtain ⟨k₁, hk₁, hrec⟩ := checkInput_spec ev h
  obtain rfl : k' = k₁ := Option.some.inj (hs.symm.trans hk₁)
  exact hrec

end Interrupt

/-! ## Runs -/

/-- A keyboard interrupt, or a terminal switch. -/
inductive LineEvent
  | key (ev : KeyEvent)
  | switch (t : TermId)

/-- The keyboard as a system. The output of a key is the terminal that was visible and what the
key meant. -/
def lineSystem : System Kernel LineEvent (Option (TermId × LineKey))
  | k, .key ev, o, k' =>
    checkInput ev k = some k' ∧ o = some (k.visableTerm, decodeKey k.chararray ev)
  | k, .switch t, o, k' => k' = switchTerminals t k ∧ o = none

/-- The keys that terminal `t` received in a run. -/
def keysOf (t : TermId) (tr : List (LineEvent × Option (TermId × LineKey))) : List LineKey :=
  tr.filterMap fun l => l.2.bind fun o => if o.1 = t then some o.2 else none

theorem keysOf_concat (t : TermId) (tr : List (LineEvent × Option (TermId × LineKey)))
    (e : LineEvent) (o : Option (TermId × LineKey)) :
    keysOf t (tr ++ [(e, o)]) =
      keysOf t tr ++ (o.bind fun o => if o.1 = t then some o.2 else none).toList :=
  filterMap_concat _ tr (e, o)

theorem inputOk_boot (k : Kernel) : InputOk (bootState k) :=
  ⟨fun _ => Nat.zero_le _, rfl, rfl, rfl, rfl⟩

theorem lineOf_boot (k : Kernel) (t : TermId) :
    lineOf (bootState k) t = { pending := [], committed := [], flag := false } := rfl

theorem InputOk.switch {k : Kernel} (h : InputOk k) (t : TermId) :
    InputOk (switchTerminals t k) :=
  h.received (SameInput.switchTerminals t k).received

/-- **Line editing is per terminal and in bounds.** In every state a run from boot reaches: every
pending length is at most 127; an interrupt completes, without an index outside the arrays,
and touches no line but the visible terminal's; and each terminal's line is the fold of the
keys it received. -/
theorem lines_from_boot {k₀ k : Kernel} {tr : List (LineEvent × Option (TermId × LineKey))}
    (h : Run lineSystem (bootState k₀) tr k) :
    (∀ t, (k.terminals t).noc ≤ 127) ∧
    (∀ ev, ∃ k', checkInput ev k = some k' ∧ ∀ t ≠ k.visableTerm, SameLineAt k k' t) ∧
    ∀ t, lineOf k t = (keysOf t tr).foldl TermLine.edit
      { pending := [], committed := [], flag := false } := by
  have hinv : InputOk k ∧ ∀ t, lineOf k t = (keysOf t tr).foldl TermLine.edit
      { pending := [], committed := [], flag := false } := by
    refine h.invariant_history (I := fun tr k => InputOk k ∧ ∀ t, lineOf k t =
      (keysOf t tr).foldl TermLine.edit { pending := [], committed := [], flag := false })
      ⟨inputOk_boot k₀, lineOf_boot k₀⟩ ?_
    rintro tr a e o b ⟨hok, hline⟩ hstep
    cases e with
    | key ev =>
      obtain ⟨hb, rfl⟩ := hstep
      have hrec := received_checkInput hok hb
      refine ⟨hok.received hrec, fun t => ?_⟩
      rw [keysOf_concat, List.foldl_append, ← hline]
      by_cases ht : t = a.visableTerm
      · subst ht
        simpa using hrec.visible
      · simpa [Ne.symm ht] using (hrec.others t ht).lineOf_eq
    | switch u =>
      obtain ⟨rfl, rfl⟩ := hstep
      refine ⟨hok.switch u, fun t => ?_⟩
      rw [keysOf_concat, ((SameInput.switchTerminals u a).lines t).lineOf_eq, hline]
      simp
  refine ⟨hinv.1.noc_le, fun ev => ?_, hinv.2⟩
  exact (checkInput_spec ev hinv.1).imp fun k' hk' => ⟨hk'.1, hk'.2.others⟩

/-- The key `a` on terminal 0, then a switch to terminal 1. -/
theorem lines_from_boot_a : ∃ tr k, Run lineSystem (bootState default) tr k ∧
    (lineOf k 0).pending = [97] ∧ (lineOf k 1).pending = [] ∧ (k.terminals 0).noc ≤ 127 := by
  obtain ⟨k₁, hk₁, -⟩ := checkInput_spec { code := 0x1E } (inputOk_boot default)
  have hrun : Run lineSystem (bootState default)
      ([(.key { code := 0x1E }, some (0, .char 97))] ++ [(.switch 1, none)])
      (switchTerminals 1 k₁) :=
    (Run.single (R := lineSystem) (e := .key { code := 0x1E }) (o := some (0, .char 97))
      ⟨hk₁, by decide⟩).snoc ⟨rfl, rfl⟩
  obtain ⟨hnoc, -, hline⟩ := lines_from_boot hrun
  exact ⟨_, _, hrun, by rw [hline]; rfl, by rw [hline]; rfl, hnoc 0⟩

end Kernel391

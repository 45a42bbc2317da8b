import Kernel391.ScreenProof

/-!
# Typed characters

The states of the modifier keys are entries of `chararray`, the table that holds the characters
too. `Typist` keeps them apart: the modifiers that a sequence of scan codes leaves on, and from
them and a key alone its character, `typedKey`. The table agrees with it after any sequence of
scan codes (`KeysAre`), since the entries that hold characters never change.

* `decodeKey_typed` — the handler has the character of the typist.
* `typed_characters` — it does so for every scan code but 255, which `chararray` has no entry for,
  and the space bar with shift held, for which the character is never set.
* `typed_characters_undefined` — after left shift, the space bar types whatever was on the stack.
-/

namespace Kernel391

open Bytes Runs Console

/-! ## The modifiers -/

/-- The modifier keys: which are held down, and whether caps lock is on. -/
structure Modifiers where
  leftShift : Bool := false
  rightShift : Bool := false
  control : Bool := false
  capsLock : Bool := false
  deriving DecidableEq

namespace Modifiers

def shift (m : Modifiers) : Bool := m.leftShift || m.rightShift

/-- One scan code. -/
def press (m : Modifiers) (code : UInt8) : Modifiers :=
  let a := code.toNat
  if a = leftshift then { m with leftShift := true }
  else if a = leftshiftReleased then { m with leftShift := false }
  else if a = rightshift then { m with rightShift := true }
  else if a = rightshiftReleased then { m with rightShift := false }
  else if a = leftcontrolPressed then { m with control := true }
  else if a = leftcontrolReleased then { m with control := false }
  else if a = capslock then { m with capsLock := !m.capsLock }
  else m

theorem press_other {m : Modifiers} {code : UInt8} (h : code.toNat ∉ modifierCodes) :
    m.press code = m := by
  simp only [modifierCodes, List.mem_cons, List.not_mem_nil, or_false, not_or] at h
  obtain ⟨h₁, h₂, h₃, h₄, h₅, h₆, -, -, h₉⟩ := h
  simp only [press, h₁, h₂, h₃, h₄, h₅, h₆, h₉, if_false]

end Modifiers

/-! ## The keys -/

/-- The character printed on a key. -/
def plainChar (a : Nat) : UInt8 := chararrayInit.getD a 0

/-- The keys with a second symbol on them, and that symbol. -/
def symbolKeys : List UInt8 := chars "1234567890-=[]`\\;',./"

def symbols : List UInt8 := chars "!@#$%^&*()_+\x7b\x7d~|:\"<>?"

/-- The character of a key with shift held, if it is no letter. -/
def symbolOf (c : UInt8) : UInt8 := ((symbolKeys.zip symbols).lookup c).getD c

/-- The character that a key types: upper case if one of shift and caps lock is on, the second
symbol if shift is held. -/
def typedChar (m : Modifiers) (c : UInt8) : UInt8 :=
  if 97 ≤ c ∧ c ≤ 122 then if m.capsLock != m.shift then c - 32 else c
  else if m.shift then symbolOf c
  else c

/-- What a scan code means to the line. Control and a capital L clear the screen. -/
def typedKey (m : Modifiers) (code : UInt8) : LineKey :=
  let a := code.toNat
  if a ∈ modifierCodes then .other
  else if a = Kernel391.backspace then .backspace
  else if a = Kernel391.enter then .enter
  else if plainChar a = 0 then .other
  else if typedChar m (plainChar a) = 76 ∧ m.control then .clearScreen
  else .char (typedChar m (plainChar a))

/-- What a key types that neither moves a modifier nor ends or shortens the line. -/
theorem plain_cases (a : Nat) (hm : a ∉ modifierCodes) (he : a ≠ enter) :
    plainChar a = 0 ∨ plainChar a = space ∨ (97 ≤ plainChar a ∧ plainChar a ≤ 122) ∨
      plainChar a ∈ symbolKeys := by
  have htable : ∀ i ∈ List.range chararrayInit.length, i ∉ modifierCodes → i ≠ enter →
      plainChar i = 0 ∨ plainChar i = space ∨ (97 ≤ plainChar i ∧ plainChar i ≤ 122) ∨
        plainChar i ∈ symbolKeys := by
    decide +kernel
  by_cases ha : a < chararrayInit.length
  · exact htable a (List.mem_range.2 ha) hm he
  · exact .inl (List.getD_eq_default _ _ (Nat.le_of_not_lt ha))

/-- The nested branches of the shift case have a symbol for every key that has one. -/
theorem shifted_symbol (temp : UInt8) : ∀ c ∈ symbolKeys, shifted c temp = symbolOf c :=
  List.map_inj_left.1 (rfl : symbolKeys.map (shifted · temp) = symbolKeys.map symbolOf)

theorem symbol_facts : ∀ c ∈ symbolKeys,
    ¬ (97 ≤ c ∧ c ≤ 122) ∧ c ≠ 0 ∧ c ≠ 76 ∧ symbolOf c ≠ 76 := by
  decide +kernel

/-! ## The table -/

/-- The table of keys, with the modifiers `m`. -/
structure KeysAre (m : Modifiers) (keys : Buf) : Prop where
  leftShift : (keys leftshift == keyDown) = m.leftShift
  rightShift : (keys rightshift == keyDown) = m.rightShift
  control : (keys leftcontrolPressed == keyDown) = m.control
  capsLock : keys capslock = if m.capsLock then keyDown else keyUp
  plain : ∀ i ∉ modifierCodes, keys i = plainChar i

/-- The handler has a character for `code` in `k`. -/
def HasCharacter (k : Kernel) (code : UInt8) : Prop :=
  code ≠ 0xFF ∧ ¬ ((k.isDown leftshift ∨ k.isDown rightshift) ∧ plainChar code.toNat = space ∧
    getCurrentNoc k < 127)

section Decode

variable {m : Modifiers} {keys : Buf} {c temp : UInt8}

theorem KeysAre.shift (h : KeysAre m keys) :
    (keys leftshift == keyDown || keys rightshift == keyDown) = m.shift := by
  rw [h.leftShift, h.rightShift, Modifiers.shift]

theorem KeysAre.caps (h : KeysAre m keys) : (keys capslock == keyDown) = m.capsLock := by
  rw [h.capsLock]
  cases m.capsLock <;> rfl

/-- A letter. -/
theorem decodeChar_letter (h : KeysAre m keys) (hc : 97 ≤ c ∧ c ≤ 122) :
    decodeChar keys c temp =
      if typedChar m c = 76 ∧ m.control then .clearScreen else .char (typedChar m c) := by
  have h0 : c ≠ 0 := by
    rintro rfl
    exact absurd hc.1 (by decide)
  have h76 : c ≠ 76 := by
    rintro rfl
    exact absurd hc.1 (by decide)
  simp only [decodeChar, h.shift, h.caps, h.control, typedChar, hc, and_self, and_true, if_true]
  cases m.capsLock <;> cases m.shift <;> simp [h0, h76]

/-- A digit or a punctuation mark. -/
theorem decodeChar_symbol (h : KeysAre m keys) (hc : c ∈ symbolKeys) :
    decodeChar keys c temp =
      if typedChar m c = 76 ∧ m.control then .clearScreen else .char (typedChar m c) := by
  obtain ⟨hletter, h0, h76, hsym⟩ := symbol_facts c hc
  simp only [decodeChar, h.shift, typedChar, hletter, and_false, if_false, h0,
    shifted_symbol temp c hc]
  cases m.shift <;> simp [h76, hsym]

/-- The space, without shift. -/
theorem decodeChar_space (h : KeysAre m keys) (hs : m.shift = false) :
    decodeChar keys space temp = .char space := by
  have hletter : ¬ (97 ≤ space ∧ space ≤ 122) := by decide
  have h0 : space ≠ 0 := by decide
  simp only [decodeChar, h.shift, hs, hletter, and_false, if_false, h0, Bool.false_eq_true]

theorem decodeChar_space_shift (h : KeysAre m keys) (hs : m.shift = true) :
    decodeChar keys space temp = .char temp := by
  have hletter : ¬ (97 ≤ space ∧ space ≤ 122) := by decide
  have h0 : space ≠ 0 := by decide
  simp only [decodeChar, h.shift, hs, hletter, and_false, if_false, h0, if_true]
  rfl

theorem typedChar_space (m : Modifiers) : typedChar m space = space := by
  have hletter : ¬ (97 ≤ space ∧ space ≤ 122) := by decide
  have hsym : symbolOf space = space := by decide
  rw [typedChar, if_neg hletter, hsym, ite_self]

/-- **The handler has the character of the typist**, whatever bytes lie past the table and on the
stack. -/
theorem decodeKey_typed (h : KeysAre m keys) {ev : KeyEvent} (hcode : ev.code ≠ 0xFF)
    (hspace : ¬ (m.shift = true ∧ plainChar ev.code.toNat = space)) :
    decodeKey keys ev = typedKey m ev.code := by
  have hlt : ev.code.toNat < numKeys := by
    have hne : ev.code.toNat ≠ 255 := fun h => hcode (UInt8.toNat_inj.1 h)
    have := ev.code.toNat_lt
    simp only [numKeys]
    omega
  unfold decodeKey typedKey
  dsimp only
  split
  · rfl
  split
  · rfl
  split
  · rfl
  rename_i hm _ he
  rw [h.plain _ hm]
  rcases plain_cases ev.code.toNat hm he with h0 | hsp | hletter | hsym
  · rw [h0, decodeChar_zero, if_pos rfl]
  · have hs : m.shift = false := by
      by_contra hs
      exact hspace ⟨Bool.eq_true_of_not_eq_false hs, hsp⟩
    rw [hsp, decodeChar_space h hs, typedChar_space]
    rfl
  · have h0 : plainChar ev.code.toNat ≠ 0 := by
      intro h0
      rw [h0] at hletter
      exact absurd hletter.1 (by decide)
    rw [decodeChar_letter h hletter, if_neg h0]
  · rw [decodeChar_symbol h hsym, if_neg (symbol_facts _ hsym).2.1]

/-- The space bar with shift held types what was on the stack. -/
theorem decodeKey_space_shift (h : KeysAre m keys) (ev : KeyEvent) (hs : m.shift = true)
    (hsp : plainChar ev.code.toNat = space) :
    decodeKey keys ev = .char ev.temp ∧ typedKey m ev.code = .char space := by
  have hcode : ∀ a ∈ List.range 256, plainChar a = space →
      a ∉ modifierCodes ∧ a ≠ Kernel391.backspace ∧ a ≠ Kernel391.enter ∧ a < numKeys := by
    decide +kernel
  obtain ⟨hm, hb, he, hlt⟩ := hcode _ (List.mem_range.2 ev.code.toNat_lt) hsp
  constructor
  · unfold decodeKey
    dsimp only
    rw [if_neg hm, if_neg hb, if_neg he, if_pos hlt, h.plain _ hm, hsp,
      decodeChar_space_shift h hs]
  · unfold typedKey
    dsimp only
    rw [if_neg hm, if_neg hb, if_neg he, hsp, typedChar_space]
    rfl

end Decode

/-! ## One scan code -/

section Press

variable {m : Modifiers} {ev : KeyEvent} {k k' : Kernel}

/-- A modifier key. -/
theorem KeysAre.modifier (h : KeysAre m k.chararray) (hm : ev.code.toNat ∈ modifierCodes) (n : Nat)
    (hs : handleKey ev n k = some k') : KeysAre (m.press ev.code) k'.chararray := by
  have hplain {i : Nat} {c : UInt8} (hi : i ∈ modifierCodes) :
      ∀ j ∉ modifierCodes, (k.setKey i c).chararray j = plainChar j := fun j hj =>
    (Function.update_of_ne (ne_of_mem_of_not_mem hi hj).symm _ _).trans (h.plain j hj)
  obtain ⟨hleft, hright, hcontrol, hcaps, -⟩ := h
  simp only [modifierCodes, List.mem_cons, List.not_mem_nil, or_false] at hm
  unfold handleKey at hs
  unfold Modifiers.press
  rcases hm with hm | hm | hm | hm | hm | hm | hm | hm | hm <;> rw [hm] at hs ⊢ <;> cases hs
  · exact ⟨rfl, hright, hcontrol, hcaps, hplain (by decide)⟩
  · exact ⟨rfl, hright, hcontrol, hcaps, hplain (by decide)⟩
  · exact ⟨hleft, rfl, hcontrol, hcaps, hplain (by decide)⟩
  · exact ⟨hleft, rfl, hcontrol, hcaps, hplain (by decide)⟩
  · exact ⟨hleft, hright, rfl, hcaps, hplain (by decide)⟩
  · exact ⟨hleft, hright, rfl, hcaps, hplain (by decide)⟩
  · exact ⟨hleft, hright, hcontrol, hcaps, hplain (by decide)⟩
  · exact ⟨hleft, hright, hcontrol, hcaps, hplain (by decide)⟩
  · refine ⟨hleft, hright, hcontrol, ?_, hplain (by decide)⟩
    change (if k.chararray capslock = keyUp then keyDown else keyUp) = _
    rw [hcaps]
    cases m.capsLock <;> rfl

/-- **One scan code** moves the modifiers as it moves the typist's. -/
theorem keysAre_checkInput (hin : InputOk k) (h : KeysAre m k.chararray)
    (hs : checkInput ev k = some k') : KeysAre (m.press ev.code) k'.chararray := by
  obtain ⟨k₁, hat, heq⟩ := checkInput_eq hin
  rw [heq] at hs
  obtain ⟨k₂, hk₂, rfl⟩ := Option.map_eq_some_iff.1 hs
  rw [(restoreScreen_same k₂).chararray]
  by_cases hm : ev.code.toNat ∈ modifierCodes
  · rw [← hat.chararray] at h
    exact h.modifier hm _ hk₂
  · obtain ⟨k₃, hk₃, -, hkeys⟩ := lineKey_spec ev (hat.inputOk hin) hat.loaded hm
    rw [hat.noc] at hk₃
    obtain rfl : k₂ = k₃ := Option.some.inj (hk₂.symm.trans hk₃)
    rw [Modifiers.press_other hm, hkeys, hat.chararray]
    exact h

end Press

/-! ## What a key may do -/

/-- The places where the handler reads `chararray`. -/
def chararrayReads (code : UInt8) : List Nat :=
  let a := code.toNat
  [leftshift, rightshift, leftcontrolPressed, altPressed, capslock] ++
    if a ∈ modifierCodes ∨ a = backspace then [] else [a]

/-- The places where it reads `shiftarray`: for a digit but zero, if shift is held. -/
def shiftarrayReads (ev : KeyEvent) (k : Kernel) : List Nat :=
  let c := k.keyAt ev
  if (k.isDown leftshift ∨ k.isDown rightshift) ∧ 49 ≤ c ∧ c ≤ 57 then [c.toNat - 48] else []

def numbersOnKeyboard : Nat := 10

/-- The scan code `code` gets a well-defined character in `k`: both tables are read inside, and
what the line of the visible terminal and its screen get is the character of the typist,
whatever bytes the source leaves open. -/
structure WellTyped (m : Modifiers) (k : Kernel) (code : UInt8) : Prop where
  chararray : ∀ i ∈ chararrayReads code, i < numKeys
  shiftarray : ∀ ev : KeyEvent, ev.code = code → ∀ i ∈ shiftarrayReads ev k, i < numbersOnKeyboard
  line : ∀ (ev : KeyEvent) (k' : Kernel), ev.code = code → checkInput ev k = some k' →
    lineOf k' k.visableTerm = (lineOf k k.visableTerm).edit (typedKey m code)
  echo : ∀ (ev : KeyEvent) (k' : Kernel), ev.code = code → checkInput ev k = some k' →
    Draws k.visableTerm
      (fun s => screenConsole.echo (getCurrentNoc k) s (typedKey m code)) k k'

/-- What the keyboard keeps. -/
structure LineInv (k : Kernel) : Prop where
  input : InputOk k
  paging : ∃ last, PagingOk k.paging last
  cursors : CursorsOk k

section WellTyped

variable {m : Modifiers} {k k' : Kernel} {code : UInt8}

theorem lineInv_boot (k : Kernel) : LineInv (bootState k) where
  input := inputOk_boot k
  paging := ⟨_, pagingOk_changeProcess (pagingOk_boot k.paging) 1⟩
  cursors _ := ⟨(by decide : 0 < numCols), (by decide : 0 < numRows)⟩

/-- **A step of the keyboard** keeps its invariant, and draws the echo of a key. -/
theorem LineInv.step (h : LineInv k) {e : LineEvent} {o : Option (TermId × LineKey)}
    (hs : lineSystem k e o k') : LineInv k' := by
  obtain ⟨hin, hp, hc⟩ := h
  cases e with
  | key ev =>
    obtain ⟨hin', ⟨hp', -⟩, hc'⟩ := screenInv_checkInput hin hp hc hs.1
    exact ⟨hin', hp', hc'⟩
  | switch t =>
    obtain ⟨rfl, -⟩ := hs
    obtain ⟨last, hlast⟩ := hp
    refine ⟨hin.switch t, (recalled_switchTerminals t k).pagingOk ⟨last, hlast⟩, fun u => ?_⟩
    rw [screenOf_switchTerminals hlast]
    exact hc u

theorem reads_shiftarray (ev : KeyEvent) (k : Kernel) :
    ∀ i ∈ shiftarrayReads ev k, i < numbersOnKeyboard := by
  intro i hi
  unfold shiftarrayReads at hi
  dsimp only at hi
  split at hi
  · rename_i hc
    have h₂ : (k.keyAt ev).toNat ≤ 57 := UInt8.le_iff_toNat_le.1 hc.2.2
    rw [List.mem_singleton.1 hi, numbersOnKeyboard]
    omega
  · exact absurd hi List.not_mem_nil

theorem reads_chararray (code : UInt8) :
    (∀ i ∈ chararrayReads code, i < numKeys) ↔ code ≠ 0xFF := by
  constructor
  · rintro h rfl
    exact absurd (h 255 (by decide)) (by decide)
  · intro hcode i hi
    have hne : code.toNat ≠ 255 := fun h => hcode (UInt8.toNat_inj.1 h)
    have hlt := code.toNat_lt
    rcases List.mem_append.1 hi with hi | hi
    · exact (by decide : ∀ i ∈ [leftshift, rightshift, leftcontrolPressed, altPressed, capslock],
        i < numKeys) i hi
    · split at hi
      · exact absurd hi List.not_mem_nil
      · rw [List.mem_singleton.1 hi, numKeys]
        omega

theorem KeysAre.shift_iff (h : KeysAre m k.chararray) :
    (k.isDown leftshift ∨ k.isDown rightshift) ↔ m.shift = true := by
  rw [← h.shift, Bool.or_eq_true]
  rfl

/-- A full line takes no character. -/
theorem edit_full {l : TermLine} (h : ¬ l.pending.length < 127) (c : UInt8) :
    l.edit (.char c) = l := if_neg h

theorem echo_full {n : Nat} (h : ¬ n < 127) (s : Screen) (c : UInt8) :
    screenConsole.echo n s (.char c) = s := if_neg h

/-- The key of the handler has the effect of the typist's. -/
theorem HasCharacter.same_effect (hc : HasCharacter k code) (h : KeysAre m k.chararray)
    {ev : KeyEvent} (hev : ev.code = code) :
    (lineOf k k.visableTerm).edit (decodeKey k.chararray ev) =
        (lineOf k k.visableTerm).edit (typedKey m code) ∧
      ∀ s, screenConsole.echo (getCurrentNoc k) s (decodeKey k.chararray ev) =
        screenConsole.echo (getCurrentNoc k) s (typedKey m code) := by
  subst hev
  obtain ⟨hcode, hspace⟩ := hc
  by_cases hs : m.shift = true ∧ plainChar ev.code.toNat = space
  · have hfull : ¬ getCurrentNoc k < 127 := fun hlt =>
      hspace ⟨h.shift_iff.2 hs.1, hs.2, hlt⟩
    have hlen : ¬ (lineOf k k.visableTerm).pending.length < 127 := by
      rw [pending_length]
      exact hfull
    obtain ⟨hdecode, htyped⟩ := decodeKey_space_shift h ev hs.1 hs.2
    rw [hdecode, htyped, edit_full hlen, edit_full hlen]
    exact ⟨rfl, fun s => by rw [echo_full hfull, echo_full hfull]⟩
  · rw [decodeKey_typed h hcode hs]
    exact ⟨rfl, fun _ => rfl⟩

/-- **When a scan code gets a well-defined character.** -/
theorem wellTyped_iff (hk : LineInv k) (h : KeysAre m k.chararray) :
    WellTyped m k code ↔ HasCharacter k code := by
  constructor
  · intro hw
    refine ⟨(reads_chararray code).1 hw.chararray, ?_⟩
    rintro ⟨hshift, hsp, hlt⟩
    -- the two bytes that a stack may hold, of which one is no space
    obtain ⟨k', hk', hrec⟩ := checkInput_spec { code := code, temp := 0 } hk.input
    have hline := hw.line _ k' rfl hk'
    obtain ⟨hdecode, htyped⟩ := decodeKey_space_shift h { code := code, temp := 0 }
      (h.shift_iff.1 hshift) hsp
    have hlen : (lineOf k k.visableTerm).pending.length < 127 := by
      rw [pending_length]
      exact hlt
    rw [hrec.visible, hdecode, htyped] at hline
    simp only [TermLine.edit, if_pos hlen] at hline
    have := congrArg TermLine.pending hline
    simp [space] at this
  · intro hc
    refine ⟨(reads_chararray code).2 hc.1, fun ev _ => reads_shiftarray ev k, ?_, ?_⟩
    · intro ev k' hev hs
      have hrec := received_checkInput hk.input hs
      rw [hrec.visible, (hc.same_effect h hev).1]
    · intro ev k' hev hs
      have hdraws := draws_checkInput hk.input hk.paging hk.cursors hs
      rwa [funext (hc.same_effect h hev).2] at hdraws

end WellTyped

/-! ## Runs -/

/-- A typist: the modifiers, and the line of every terminal. -/
structure Typist where
  mods : Modifiers := {}
  lines : TermId → TermLine := fun _ => { pending := [], committed := [], flag := false }

/-- A step of the keyboard. Of its output only the terminal that received the key is used. -/
def Typist.step (s : Typist) : LineEvent × Option (TermId × LineKey) → Typist
  | (.key ev, some (t, _)) =>
    { mods := s.mods.press ev.code
      lines := Function.update s.lines t ((s.lines t).edit (typedKey s.mods ev.code)) }
  | _ => s

/-- The keys of a run all have a character. -/
def Typeable (k : Kernel) : LineEvent → Prop
  | .key ev => HasCharacter k ev.code
  | .switch _ => True

section Run

variable {k₀ k k' : Kernel} {tr : List (LineEvent × Option (TermId × LineKey))} {s : Typist}
  {e : LineEvent} {o : Option (TermId × LineKey)}

theorem keysAre_boot (k : Kernel) : KeysAre {} (bootState k).chararray where
  leftShift := rfl
  rightShift := rfl
  control := rfl
  capsLock := rfl
  plain i hi := by
    have hne {j : Nat} (hj : j ∈ modifierCodes) : i ≠ j := (ne_of_mem_of_not_mem hj hi).symm
    have h₁ := hne (j := altPressed) (by decide)
    have h₂ := hne (j := leftshift) (by decide)
    have h₃ := hne (j := capslock) (by decide)
    have htable : (bootState k).chararray = Function.update (Function.update
        (Function.update (fun i => chararrayInit.getD i 0) capslock keyUp) leftshift keyUp)
          altPressed keyUp := rfl
    rw [htable, Function.update_of_ne h₁, Function.update_of_ne h₂, Function.update_of_ne h₃,
      plainChar]

/-- The modifiers follow the scan codes, whatever is typed. -/
theorem keysAre_step (hk : LineInv k) (h : KeysAre s.mods k.chararray)
    (hs : lineSystem k e o k') : KeysAre (s.step (e, o)).mods k'.chararray := by
  cases e with
  | key ev =>
    obtain ⟨hs, rfl⟩ := hs
    exact keysAre_checkInput hk.input h hs
  | switch t =>
    obtain ⟨rfl, rfl⟩ := hs
    rw [(SameInput.switchTerminals t k).chararray]
    exact h

/-- Lines of keys that have a character. -/
theorem lines_step (hk : LineInv k) (h : KeysAre s.mods k.chararray)
    (hl : ∀ t, lineOf k t = s.lines t) (hs : Guarded Typeable lineSystem k e o k') (t : TermId) :
    lineOf k' t = (s.step (e, o)).lines t := by
  obtain ⟨hg, hs⟩ := hs
  cases e with
  | key ev =>
    obtain ⟨hs, rfl⟩ := hs
    have hrec := received_checkInput hk.input hs
    change _ = Function.update s.lines k.visableTerm _ t
    by_cases ht : t = k.visableTerm
    · subst ht
      rw [hrec.visible, (HasCharacter.same_effect hg h rfl).1, Function.update_self, hl]
    · rw [(hrec.others t ht).lineOf_eq, Function.update_of_ne ht, hl]
  | switch u =>
    obtain ⟨rfl, rfl⟩ := hs
    rw [((SameInput.switchTerminals u k).lines t).lineOf_eq]
    exact hl t

theorem keys_of_run (h : Run lineSystem (bootState k₀) tr k) :
    LineInv k ∧ KeysAre (tr.foldl Typist.step {}).mods k.chararray := by
  refine h.refines (Q := fun k (s : Typist) => LineInv k ∧ KeysAre s.mods k.chararray)
    ⟨lineInv_boot k₀, keysAre_boot k₀⟩ ?_
  rintro a e o b u ⟨hk, hkeys⟩ hs
  exact ⟨hk.step hs, keysAre_step hk hkeys hs⟩

/-- **Typed characters.** After any run from boot, a scan code gets a well-defined character, the
one its key has with the modifiers that the run left on, if and only if it is not 255 and not
that of a space with shift held and room in the line. If every key of a run is of that kind,
every line holds the typist's. -/
theorem typed_characters (k₀ : Kernel) :
    (∀ tr k, Run lineSystem (bootState k₀) tr k → ∀ code,
      (WellTyped (tr.foldl Typist.step {}).mods k code ↔ HasCharacter k code)) ∧
    ∀ tr k, Run (Guarded Typeable lineSystem) (bootState k₀) tr k →
      ∀ t, lineOf k t = (tr.foldl Typist.step {}).lines t := by
  refine ⟨fun tr k h code => ?_, fun tr k h => ?_⟩
  · obtain ⟨hk, hkeys⟩ := keys_of_run h
    exact wellTyped_iff hk hkeys
  · refine (h.refines (Q := fun k (s : Typist) => LineInv k ∧ KeysAre s.mods k.chararray ∧
      ∀ t, lineOf k t = s.lines t) ⟨lineInv_boot k₀, keysAre_boot k₀, lineOf_boot k₀⟩ ?_).2.2
    rintro a e o b u ⟨hk, hkeys, hl⟩ hs
    exact ⟨hk.step hs.2, keysAre_step hk hkeys hs.2, lines_step hk hkeys hl hs⟩

/-- Left shift and the key `a` type a capital letter. -/
theorem typed_characters_shift : ∃ tr k,
    Run (Guarded Typeable lineSystem) (bootState default) tr k ∧
    (∃ t, (lineOf k t).pending = [65]) ∧
    (WellTyped (tr.foldl Typist.step {}).mods k 0x1E ↔ HasCharacter k 0x1E) := by
  obtain ⟨k₁, hk₁, hrec₁⟩ := checkInput_spec { code := 0x2A } (inputOk_boot default)
  obtain ⟨k₂, hk₂, -⟩ := checkInput_spec { code := 0x1E } ((inputOk_boot default).received hrec₁)
  have hchar (k : Kernel) : HasCharacter k 0x2A ∧ HasCharacter k 0x1E :=
    ⟨⟨by decide, fun h => absurd h.2.1 (by decide)⟩, by decide, fun h => absurd h.2.1 (by decide)⟩
  have hshift : Guarded Typeable lineSystem (bootState default) (.key { code := 0x2A })
      (some (0, decodeKey (bootState default).chararray { code := 0x2A })) k₁ :=
    ⟨(hchar _).1, hk₁, rfl⟩
  have ha : Guarded Typeable lineSystem k₁ (.key { code := 0x1E })
      (some (k₁.visableTerm, decodeKey k₁.chararray { code := 0x1E })) k₂ :=
    ⟨(hchar _).2, hk₂, rfl⟩
  have hrun := (Run.single hshift).snoc ha
  refine ⟨_, k₂, hrun, ⟨k₁.visableTerm, ?_⟩, ?_⟩
  · rw [(typed_characters default).2 _ _ hrun]
    rcases termId_cases k₁.visableTerm with h | h | h <;> rw [h] <;> rfl
  · exact (typed_characters default).1 _ _ hrun.of_guarded _

/-- After left shift the space bar types the byte on the stack, and scan code 255 reads past the
end of `chararray`. -/
theorem typed_characters_undefined : ∃ tr k, Run lineSystem (bootState default) tr k ∧
    (∀ temp, ∃ k', checkInput { code := 0x39, temp := temp } k = some k' ∧
      (lineOf k' k.visableTerm).pending = [temp]) ∧
    255 ∈ chararrayReads 0xFF ∧ ¬ 255 < numKeys := by
  obtain ⟨k₁, hk₁, hrec₁⟩ := checkInput_spec { code := 0x2A } (inputOk_boot default)
  have hrun : Run lineSystem (bootState default)
      [(.key { code := 0x2A }, some (0, decodeKey (bootState default).chararray
        { code := 0x2A }))] k₁ := .single ⟨hk₁, rfl⟩
  have hkeys := (keys_of_run hrun).2
  have hempty (t : TermId) : lineOf k₁ t = { pending := [], committed := [], flag := false } := by
    by_cases ht : t = 0
    · subst ht
      exact hrec₁.visible
    · exact (hrec₁.others t ht).lineOf_eq
  have hspace : plainChar 0x39 = space := by decide
  refine ⟨_, k₁, hrun, fun temp => ?_, by decide, by decide⟩
  obtain ⟨k₂, hk₂, hrec₂⟩ := checkInput_spec { code := 0x39, temp := temp }
    ((inputOk_boot default).received hrec₁)
  have hdecode := (decodeKey_space_shift hkeys { code := 0x39, temp := temp } rfl hspace).1
  refine ⟨k₂, hk₂, ?_⟩
  rw [hrec₂.visible, hempty, hdecode]
  rfl

end Run

end Kernel391

import Mathlib.Data.List.GetD
import Mathlib.Data.UInt

/-!
# A 32-bit byte memory

Memory is a function of addresses, and addresses wrap. What a loop that writes bytes in order has
left behind is a `patch`: from offset `lo` to offset `hi` of `a` the bytes of `f`, everything else
as before. A patch grows at either end by what is written there (`patch_append`,
`patch_prepend`), and reads as the old memory wherever it was not written (`patch_of_not`).
Bytes that are known as a list are `put` at an address.

Offsets are counted from a base address: `off a b` is how far `b` lies behind `a`, around the end
of memory if need be.
-/

namespace Memory

/-- Memory: a byte at every address. -/
abbrev Mem := UInt32 → UInt8

/-! ## Offsets -/

/-- How far `b` lies behind `a`. -/
def off (a b : UInt32) : ℕ := (b - a).toNat

/-- The address at offset `i` of `a`. -/
def addr (a : UInt32) (i : ℕ) : UInt32 := a + UInt32.ofNat i

variable {m : Mem} {a b w : UInt32} {c : UInt8} {i j n lo hi : ℕ} {f g : ℕ → UInt8}
  {l l' : List UInt8}

theorem off_lt (a b : UInt32) : off a b < 2 ^ 32 := (b - a).toNat_lt

theorem off_addr_self (h : i < 2 ^ 32) : off a (addr a i) = i := by
  simpa [off, addr] using h

theorem addr_off (a b : UInt32) : addr a (off a b) = b := by
  simp [off, addr]

/-- The same offset from another base. -/
theorem addr_off_of (a a' b : UInt32) : addr a' (off a b) = a' + (b - a) := by
  simp [off, addr]

@[simp] theorem addr_zero (a : UInt32) : addr a 0 = a := by
  simp [addr]

theorem addr_addr (a : UInt32) (i j : ℕ) : addr (addr a i) j = addr a (i + j) := by
  simp [addr, UInt32.add_assoc]

theorem addr_add_one (a : UInt32) (i : ℕ) : addr a i + 1 = addr a (i + 1) := addr_addr a i 1

theorem addr_one_add (a : UInt32) (i : ℕ) : addr (a + 1) i = addr a (i + 1) := by
  rw [show a + 1 = addr a 1 from rfl, addr_addr, Nat.add_comm]

/-- Below the end of memory an offset is a difference of addresses. -/
theorem toNat_addr (h : a.toNat + i < 2 ^ 32) : (addr a i).toNat = a.toNat + i := by
  simp only [addr, UInt32.toNat_add, UInt32.toNat_ofNat']
  omega

theorem off_lt_iff (h : a.toNat + n ≤ 2 ^ 32) :
    off a b < n ↔ a.toNat ≤ b.toNat ∧ b.toNat < a.toNat + n := by
  have hb := b.toNat_lt
  simp only [off, UInt32.toNat_sub]
  omega

/-- Offsets from a later base. -/
theorem off_addr (h : i ≤ 2 ^ 32) :
    off (addr a i) b = if i ≤ off a b then off a b - i else off a b + 2 ^ 32 - i := by
  have ha := a.toNat_lt
  have hb := b.toNat_lt
  simp only [off, addr, UInt32.toNat_sub, UInt32.toNat_add, UInt32.toNat_ofNat']
  split <;> omega

/-! ## Patches -/

/-- Memory `m` with the bytes of `f` at the offsets from `lo` to `hi` of `a`. -/
def patch (m : Mem) (a : UInt32) (lo hi : ℕ) (f : ℕ → UInt8) : Mem :=
  fun b => if lo ≤ off a b ∧ off a b < hi then f (off a b) else m b

theorem patch_of_mem (h : lo ≤ off a b ∧ off a b < hi) : patch m a lo hi f b = f (off a b) :=
  if_pos h

theorem patch_of_not (h : ¬ (lo ≤ off a b ∧ off a b < hi)) : patch m a lo hi f b = m b :=
  if_neg h

/-- Bytes at another base that the patch does not reach. -/
theorem patch_unread (h : ∀ j, lo ≤ j → j < hi → addr a j ≠ b) : patch m a lo hi f b = m b :=
  patch_of_not fun ⟨hlo, hhi⟩ => h (off a b) hlo hhi (addr_off a b)

theorem patch_range (h : a.toNat + n ≤ 2 ^ 32) : patch m a 0 n f b =
    if a.toNat ≤ b.toNat ∧ b.toNat < a.toNat + n then f (off a b) else m b := by
  simp only [patch, Nat.zero_le, true_and, off_lt_iff h]

theorem patch_self (m : Mem) (a : UInt32) (i : ℕ) (f : ℕ → UInt8) : patch m a i i f = m := by
  funext b
  exact patch_of_not (by omega)

/-- A patch depends only on the bytes it writes. -/
theorem patch_congr (h : ∀ i, lo ≤ i → i < hi → f i = g i) :
    patch m a lo hi f = patch m a lo hi g := by
  funext b
  by_cases hb : lo ≤ off a b ∧ off a b < hi
  · rw [patch_of_mem hb, patch_of_mem hb, h _ hb.1 hb.2]
  · rw [patch_of_not hb, patch_of_not hb]

/-- Writing on at the upper end. -/
theorem patch_append (hlo : lo ≤ hi) (hn : hi + n ≤ 2 ^ 32) (hg : ∀ j < n, g j = f (hi + j)) :
    patch (patch m a lo hi f) (addr a hi) 0 n g = patch m a lo (hi + n) f := by
  funext b
  have hoff := off_addr (a := a) (b := b) (i := hi) (by omega)
  have hlt := off_lt a b
  by_cases h : hi ≤ off a b ∧ off a b < hi + n
  · have h' : lo ≤ off a b ∧ off a b < hi + n := ⟨hlo.trans h.1, h.2⟩
    rw [if_pos h.1] at hoff
    rw [patch_of_mem (by omega), patch_of_mem h', hg _ (by omega), hoff, Nat.add_sub_cancel' h.1]
  · rw [patch_of_not (by split at hoff <;> omega)]
    by_cases h' : lo ≤ off a b ∧ off a b < hi
    · rw [patch_of_mem h', patch_of_mem (by omega)]
    · rw [patch_of_not h', patch_of_not (by omega)]

theorem update_eq_patch (m : Mem) (b : UInt32) (c : UInt8) :
    Function.update m b c = patch m b 0 1 fun _ => c := by
  funext b'
  by_cases h : b' = b
  · subst h
    rw [Function.update_self, patch_of_mem (by simp [off])]
  · have hne : off b b' ≠ 0 := fun h0 => h (by rw [← addr_off b b', h0, addr_zero])
    rw [Function.update_of_ne h, patch_of_not (by omega)]

/-- Writing one byte at the upper end. -/
theorem update_patch_hi (hlo : lo ≤ hi) (hn : hi < 2 ^ 32) (hc : c = f hi) :
    Function.update (patch m a lo hi f) (addr a hi) c = patch m a lo (hi + 1) f := by
  rw [update_eq_patch]
  refine patch_append hlo hn fun j hj => ?_
  obtain rfl : j = 0 := by omega
  exact hc

/-- Writing one byte at the lower end. -/
theorem update_patch_lo (hlo : lo < hi) (hn : hi ≤ 2 ^ 32) (hc : c = f lo) :
    Function.update (patch m a (lo + 1) hi f) (addr a lo) c = patch m a lo hi f := by
  funext b
  by_cases hb : b = addr a lo
  · have hoff : off a (addr a lo) = lo := off_addr_self (by omega)
    subst hb
    rw [Function.update_self, patch_of_mem (by omega), hoff, hc]
  · have hne : off a b ≠ lo := fun h => hb (h ▸ (addr_off a b).symm)
    rw [Function.update_of_ne hb]
    by_cases h : lo + 1 ≤ off a b ∧ off a b < hi
    · rw [patch_of_mem h, patch_of_mem (by omega)]
    · rw [patch_of_not h, patch_of_not (by omega)]

/-! ## Words -/

/-- Byte `i` of a word. -/
def byteOf (w : UInt32) (i : ℕ) : UInt8 := (w >>> UInt32.ofNat (8 * i)).toUInt8

/-- The word of four bytes, high byte first. -/
def join (b₃ b₂ b₁ b₀ : UInt8) : UInt32 :=
  b₃.toUInt32 <<< 24 ||| b₂.toUInt32 <<< 16 ||| b₁.toUInt32 <<< 8 ||| b₀.toUInt32

/-- The word at `a`, low byte first. -/
def load32 (m : Mem) (a : UInt32) : UInt32 :=
  join (m (addr a 3)) (m (addr a 2)) (m (addr a 1)) (m a)

/-- Memory `m` with the word `w` at `a`, low byte first. -/
def store32 (m : Mem) (a w : UInt32) : Mem := patch m a 0 4 (byteOf w)

theorem toNat_byteOf (w : UInt32) (h : i < 4) :
    (byteOf w i).toNat = w.toNat / 2 ^ (8 * i) % 256 := by
  have h8 : 8 * i < 32 := by omega
  rw [byteOf, UInt32.toNat_toUInt8, UInt32.toNat_shiftRight, UInt32.toNat_ofNat',
    Nat.shiftRight_eq_div_pow, Nat.mod_eq_of_lt (by omega : 8 * i < 2 ^ 32), Nat.mod_eq_of_lt h8]

theorem toNat_join (b₃ b₂ b₁ b₀ : UInt8) : (join b₃ b₂ b₁ b₀).toNat =
    2 ^ 24 * b₃.toNat + 2 ^ 16 * b₂.toNat + 2 ^ 8 * b₁.toNat + b₀.toNat := by
  have h₃ := b₃.toNat_lt
  have h₂ := b₂.toNat_lt
  have h₁ := b₁.toNat_lt
  have h₀ := b₀.toNat_lt
  have e₃ : (b₃.toUInt32 <<< 24).toNat = 2 ^ 24 * b₃.toNat := by
    simp [Nat.shiftLeft_eq]; omega
  have e₂ : (b₂.toUInt32 <<< 16).toNat = 2 ^ 16 * b₂.toNat := by
    simp [Nat.shiftLeft_eq]; omega
  have e₁ : (b₁.toUInt32 <<< 8).toNat = 2 ^ 8 * b₁.toNat := by
    simp [Nat.shiftLeft_eq]; omega
  -- the bytes stand at different places, so joining them is adding them
  rw [join, UInt32.toNat_or, UInt32.toNat_or, UInt32.toNat_or, e₃, e₂, e₁, UInt8.toNat_toUInt32,
    ← Nat.two_pow_add_eq_or_of_lt (by omega),
    show 2 ^ 24 * b₃.toNat + 2 ^ 16 * b₂.toNat = 2 ^ 16 * (2 ^ 8 * b₃.toNat + b₂.toNat) by omega,
    ← Nat.two_pow_add_eq_or_of_lt (by omega),
    show 2 ^ 16 * (2 ^ 8 * b₃.toNat + b₂.toNat) + 2 ^ 8 * b₁.toNat =
      2 ^ 8 * (2 ^ 16 * b₃.toNat + 2 ^ 8 * b₂.toNat + b₁.toNat) by omega,
    ← Nat.two_pow_add_eq_or_of_lt (by omega)]

theorem byteOf_join (b₃ b₂ b₁ b₀ : UInt8) :
    byteOf (join b₃ b₂ b₁ b₀) 0 = b₀ ∧ byteOf (join b₃ b₂ b₁ b₀) 1 = b₁ ∧
      byteOf (join b₃ b₂ b₁ b₀) 2 = b₂ ∧ byteOf (join b₃ b₂ b₁ b₀) 3 = b₃ := by
  have h₃ := b₃.toNat_lt
  have h₂ := b₂.toNat_lt
  have h₁ := b₁.toNat_lt
  have h₀ := b₀.toNat_lt
  refine ⟨?_, ?_, ?_, ?_⟩ <;>
  · rw [← UInt8.toNat_inj, toNat_byteOf _ (by decide), toNat_join]
    omega

theorem toUInt8_join (b₃ b₂ b₁ b₀ : UInt8) : (join b₃ b₂ b₁ b₀).toUInt8 = b₀ := by
  rw [← UInt8.toNat_inj, UInt32.toNat_toUInt8, toNat_join]
  have h₀ := b₀.toNat_lt
  omega

theorem byteOf_load32 (m : Mem) (a : UInt32) (h : i < 4) :
    byteOf (load32 m a) i = m (addr a i) := by
  obtain ⟨h₀, h₁, h₂, h₃⟩ := byteOf_join (m (addr a 3)) (m (addr a 2)) (m (addr a 1)) (m a)
  match i, h with
  | 0, _ => rwa [addr_zero]
  | 1, _ => exact h₁
  | 2, _ => exact h₂
  | 3, _ => exact h₃

theorem load32_store32 (m : Mem) (a w : UInt32) : load32 (store32 m a w) a = w := by
  have hread : ∀ i < 4, store32 m a w (addr a i) = byteOf w i := fun i hi => by
    have hoff : off a (addr a i) = i := off_addr_self (by omega)
    rw [store32, patch_of_mem (by omega), hoff]
  have h₀ := hread 0 (by decide)
  rw [addr_zero] at h₀
  rw [← UInt32.toNat_inj, load32, hread 3 (by decide), hread 2 (by decide), hread 1 (by decide), h₀,
    toNat_join, toNat_byteOf w (by decide), toNat_byteOf w (by decide), toNat_byteOf w (by decide),
    toNat_byteOf w (by decide)]
  have hw := w.toNat_lt
  omega

/-- A word is its four bytes. -/
theorem load32_congr {m' : Mem} (h : ∀ b, off a b < 4 → m' b = m b) : load32 m' a = load32 m a := by
  have hread : ∀ i < 4, m' (addr a i) = m (addr a i) := fun i hi =>
    h _ (by rw [off_addr_self (by omega)]; exact hi)
  have h₀ := hread 0 (by decide)
  rw [addr_zero] at h₀
  rw [load32, load32, hread 3 (by decide), hread 2 (by decide), hread 1 (by decide), h₀]

/-! ## Words in a row -/

/-- The words `ws` stand at `a`, one behind the other. -/
def WordsAt (m : Mem) : UInt32 → List UInt32 → Prop
  | _, [] => True
  | a, w :: ws => load32 m a = w ∧ WordsAt m (a + 4) ws

/-- Words depend on the bytes they take up. -/
theorem WordsAt.congr {m' : Mem} {ws : List UInt32} (h : WordsAt m a ws)
    (hm : ∀ b, off a b < 4 * ws.length → m' b = m b) : WordsAt m' a ws := by
  induction ws generalizing a with
  | nil => trivial
  | cons w ws ih =>
    rw [List.length_cons] at hm
    refine ⟨(load32_congr fun b hb => hm b (by omega)).trans h.1, ih h.2 fun b hb => hm b ?_⟩
    have hoff := off_addr (a := a) (b := b) (i := 4) (by decide)
    rw [show addr a 4 = a + 4 from rfl] at hoff
    split at hoff <;> omega

theorem add_four_mul_succ (a : UInt32) (n : ℕ) :
    a + 4 * UInt32.ofNat (n + 1) = a + 4 + 4 * UInt32.ofNat n := by
  rw [UInt32.ofNat_add]
  grind

/-- Where the same words stand, the same bytes stand. -/
theorem WordsAt.bytes {m' : Mem} {ws : List UInt32} (h : WordsAt m a ws) (h' : WordsAt m' a ws)
    (hb : off a b < 4 * ws.length) : m b = m' b := by
  induction ws generalizing a with
  | nil => simp at hb
  | cons w ws ih =>
    rw [List.length_cons] at hb
    by_cases h4 : off a b < 4
    · have hload : load32 m a = load32 m' a := h.1.trans h'.1.symm
      rw [← addr_off a b, ← byteOf_load32 m a h4, ← byteOf_load32 m' a h4, hload]
    · have hoff := off_addr (a := a) (b := b) (i := 4) (by decide)
      rw [if_pos (by omega), show addr a 4 = a + 4 from rfl] at hoff
      exact ih h.2 h'.2 (by omega)

/-- Words behind the first few. -/
theorem WordsAt.drop {ws : List UInt32} (h : WordsAt m a ws) (n : ℕ) :
    WordsAt m (a + 4 * UInt32.ofNat n) (ws.drop n) := by
  induction n generalizing a ws with
  | zero => simpa using h
  | succ n ih =>
    cases ws with
    | nil => trivial
    | cons w ws =>
      rw [add_four_mul_succ]
      exact ih h.2

theorem WordsAt.append {ws ws' : List UInt32} (h : WordsAt m a ws)
    (h' : WordsAt m (a + 4 * UInt32.ofNat ws.length) ws') : WordsAt m a (ws ++ ws') := by
  induction ws generalizing a with
  | nil => simpa using h'
  | cons w ws ih =>
    rw [List.length_cons, add_four_mul_succ] at h'
    exact ⟨h.1, ih h.2 h'⟩

/-- Some words stand anywhere. -/
theorem exists_wordsAt (m : Mem) (a : UInt32) (n : ℕ) : ∃ ws, ws.length = n ∧ WordsAt m a ws := by
  induction n generalizing a with
  | zero => exact ⟨[], rfl, trivial⟩
  | succ n ih =>
    obtain ⟨ws, hlen, hws⟩ := ih (a + 4)
    exact ⟨load32 m a :: ws, by simp [hlen], rfl, hws⟩

theorem WordsAt.getElem? {ws : List UInt32} {n : ℕ} (h : WordsAt m a ws) (hw : ws[n]? = some w) :
    load32 m (a + 4 * UInt32.ofNat n) = w := by
  have hdrop := h.drop n
  rw [List.getElem?_eq_some_iff] at hw
  obtain ⟨hn, rfl⟩ := hw
  rw [List.drop_eq_getElem_cons hn] at hdrop
  exact hdrop.1

/-- One word more in front. -/
theorem WordsAt.cons {ws : List UInt32} (h : WordsAt m a ws) (hlen : 4 * ws.length + 4 ≤ 2 ^ 32)
    (w : UInt32) : WordsAt (store32 m (a - 4) w) (a - 4) (w :: ws) := by
  refine ⟨load32_store32 .., ?_⟩
  rw [UInt32.sub_add_cancel]
  refine h.congr fun b hb => patch_of_not ?_
  have hoff := off_addr (a := a - 4) (b := b) (i := 4) (by decide)
  rw [show addr (a - 4) 4 = a from UInt32.sub_add_cancel a 4] at hoff
  have hlt := off_lt (a - 4) b
  split at hoff <;> omega

/-! ## Lists of bytes -/

/-- Memory `m` with the bytes of `l` at `a`. -/
def put (m : Mem) (a : UInt32) (l : List UInt8) : Mem := patch m a 0 l.length fun i => l.getD i 0

theorem put_addr (hi : i < l.length) (hl : l.length ≤ 2 ^ 32) :
    put m a l (addr a i) = l[i] := by
  have hoff : off a (addr a i) = i := off_addr_self (by omega)
  rw [put, patch_of_mem (by omega), hoff, List.getD_eq_getElem _ _ hi]

theorem put_of_not (h : l.length ≤ off a b) : put m a l b = m b := patch_of_not (by omega)

@[simp] theorem put_nil (m : Mem) (a : UInt32) : put m a [] = m := patch_self ..

/-- Writing on behind the list. -/
theorem put_append (h : l.length + l'.length ≤ 2 ^ 32) :
    put (put m a l) (addr a l.length) l' = put m a (l ++ l') := by
  rw [put, put, put, List.length_append,
    patch_congr fun i _ hi => (List.getD_append l l' 0 i hi).symm]
  refine patch_append (Nat.zero_le _) h fun j hj => ?_
  rw [List.getD_append_right _ _ _ _ (Nat.le_add_right ..), Nat.add_sub_cancel_left]

/-- Writing in front of the list. -/
theorem put_prepend (h : l.length + l'.length ≤ 2 ^ 32) :
    put (put m (addr a l.length) l') a l = put m a (l ++ l') := by
  rw [← put_append h]
  funext b
  have hoff := off_addr (a := a) (b := b) (i := l.length) (by omega)
  by_cases hb : off a b < l.length
  · have hfar : l'.length ≤ off (addr a l.length) b := by
      rw [if_neg (by omega)] at hoff
      omega
    rw [put_of_not hfar, put, patch_of_mem (by omega), put, patch_of_mem (by omega)]
  · rw [put_of_not (by omega)]
    by_cases hb' : off (addr a l.length) b < l'.length
    · rw [put, patch_of_mem (by omega), put, patch_of_mem (by omega)]
    · rw [put_of_not (by omega), put_of_not (by omega), put_of_not (by omega)]

/-- Bytes put over as many others. -/
theorem put_put (h : l.length = l'.length) : put (put m a l) a l' = put m a l' := by
  funext b
  by_cases hb : off a b < l'.length
  · rw [put, patch_of_mem (by omega), put, patch_of_mem (by omega)]
  · rw [put_of_not (by omega), put_of_not (by omega), put_of_not (by omega)]

theorem update_eq_put (m : Mem) (b : UInt32) (c : UInt8) : Function.update m b c = put m b [c] := by
  rw [update_eq_patch, put]
  refine patch_congr fun i _ hi => ?_
  obtain rfl : i = 0 := by simpa using hi
  rfl

/-- Writing a byte behind the list. -/
theorem update_put (h : l.length < 2 ^ 32) :
    Function.update (put m a l) (addr a l.length) c = put m a (l ++ [c]) := by
  rw [update_eq_put, put_append (by rw [List.length_singleton]; omega)]

/-- Writing a byte of the list. -/
theorem update_put_set (hi : i < l.length) (hl : l.length ≤ 2 ^ 32) :
    Function.update (put m a l) (addr a i) c = put m a (l.set i c) := by
  funext b
  by_cases hb : b = addr a i
  · subst hb
    rw [Function.update_self, put_addr (by simpa using hi) (by simpa using hl)]
    simp
  · have hne : off a b ≠ i := fun h => hb (h ▸ (addr_off a b).symm)
    rw [Function.update_of_ne hb]
    by_cases h : off a b < l.length
    · rw [← addr_off a b, put_addr h hl, put_addr (by simpa using h) (by simpa using hl),
        List.getElem_set_ne hne.symm]
    · rw [put_of_not (by omega), put_of_not (by simpa using h)]

/-! ## Strings -/

/-- The NUL-terminated string `l` stands at `a`. -/
def StringAt (m : Mem) : UInt32 → List UInt8 → Prop
  | a, [] => m a = 0
  | a, c :: l => m a = c ∧ c ≠ 0 ∧ StringAt m (a + 1) l

theorem StringAt.nonzero (h : StringAt m a l) : ∀ c ∈ l, c ≠ 0 := by
  induction l generalizing a with
  | nil => exact nofun
  | cons c l ih =>
    obtain ⟨-, hc, hl⟩ := h
    exact List.forall_mem_cons.2 ⟨hc, ih hl⟩

/-- A string is the bytes at its address and a zero behind them. -/
theorem stringAt_iff : StringAt m a l ↔
    (∀ i (hi : i < l.length), m (addr a i) = l[i] ∧ l[i] ≠ 0) ∧ m (addr a l.length) = 0 := by
  induction l generalizing a with
  | nil => simp [StringAt]
  | cons c l ih =>
    rw [StringAt, ih]
    simp only [addr_one_add, List.length_cons]
    constructor
    · rintro ⟨hm, hc, hl, hend⟩
      refine ⟨fun i hi => ?_, hend⟩
      cases i with
      | zero => exact ⟨by simpa using hm, hc⟩
      | succ i => exact hl i (by omega)
    · rintro ⟨hl, hend⟩
      have h0 := hl 0 (by omega)
      exact ⟨by simpa using h0.1, h0.2, fun i hi => hl (i + 1) (by omega), hend⟩

/-- There is one string at an address. -/
theorem StringAt.unique (h : StringAt m a l) (h' : StringAt m a l') : l = l' := by
  induction l generalizing a l' with
  | nil =>
    cases l' with
    | nil => rfl
    | cons c l' => exact absurd (h'.1.symm.trans h) h'.2.1
  | cons c l ih =>
    cases l' with
    | nil => exact absurd (h.1.symm.trans h') h.2.1
    | cons c' l' => rw [← h.1, ← h'.1, ih h.2.2 h'.2.2]

/-- A string fits into memory. -/
theorem StringAt.length_lt (h : StringAt m a l) : l.length < 2 ^ 32 := by
  by_contra hlen
  obtain ⟨hl, hend⟩ := stringAt_iff.1 h
  -- the terminator would stand where a byte of the string stands
  have hwrap : addr a (l.length % 2 ^ 32) = addr a l.length := by
    rw [addr, addr, ← UInt32.toNat_inj]
    simp
  obtain ⟨hm, hne⟩ := hl (l.length % 2 ^ 32) (by omega)
  rw [hwrap, hend] at hm
  exact hne hm.symm

theorem stringAt_put (hl : l.length < 2 ^ 32) (h0 : ∀ c ∈ l, c ≠ 0) :
    StringAt (put m a (l ++ [0])) a l := by
  have hlen : (l ++ [0]).length = l.length + 1 := List.length_append
  rw [stringAt_iff]
  constructor
  · intro i hi
    rw [put_addr (by omega) (by omega), List.getElem_append_left hi]
    exact ⟨rfl, h0 _ (List.getElem_mem hi)⟩
  · rw [put_addr (by omega) (by omega), List.getElem_concat_length rfl]

/-- A string put where it already stands. -/
theorem StringAt.put_self (h : StringAt m a l) : put m a (l ++ [0]) = m := by
  have hlt := h.length_lt
  have hlen : (l ++ [0]).length = l.length + 1 := List.length_append
  obtain ⟨hl, hend⟩ := stringAt_iff.1 h
  funext b
  rcases lt_trichotomy (off a b) l.length with hb | hb | hb
  · rw [← addr_off a b, put_addr (by omega) (by omega), List.getElem_append_left hb, (hl _ hb).1]
  · rw [← addr_off a b, hb, put_addr (by omega) (by omega), List.getElem_concat_length rfl, hend]
  · exact put_of_not (by omega)

end Memory

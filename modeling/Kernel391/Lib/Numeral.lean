import Mathlib.Data.Nat.Digits.Lemmas

/-!
# Numerals

The numeral of a number in a base: its digits, most significant first, written with a given
alphabet; zero is one digit. Reading a numeral back gives the number (`value_text`), so numbers
with one numeral are equal. No numeral of a positive number starts with the zero digit
(`head?_text`), and its length is what the size of the number allows (`length_text_le`).
-/

namespace Numeral

variable {α : Type*} (digit : ℕ → α) (val : α → ℕ) {b n k : ℕ}

/-- The numeral of `n` in base `b`. -/
def text (b n : ℕ) : List α :=
  if n = 0 then [digit 0] else (Nat.digits b n).reverse.map digit

/-- The number a list of digits stands for in base `b`. -/
def value (b : ℕ) (l : List α) : ℕ := l.foldl (fun acc c => acc * b + val c) 0

theorem text_zero : text digit b 0 = [digit 0] := if_pos rfl

theorem text_of_ne (h : n ≠ 0) : text digit b n = (Nat.digits b n).reverse.map digit := if_neg h

theorem text_ne_nil (n : ℕ) : text digit b n ≠ [] := by
  by_cases h : n = 0
  · simp [h, text_zero]
  · simpa [text_of_ne digit h, Nat.digits_eq_nil_iff_eq_zero] using h

/-- The digits of a numeral are smaller than the base. -/
theorem mem_text (hb : 1 < b) {c : α} (h : c ∈ text digit b n) : ∃ d < b, c = digit d := by
  by_cases hn : n = 0
  · rw [hn, text_zero, List.mem_singleton] at h
    exact ⟨0, by omega, h⟩
  · rw [text_of_ne digit hn, List.mem_map] at h
    obtain ⟨d, hd, rfl⟩ := h
    exact ⟨d, Nat.digits_lt_base hb (List.mem_reverse.1 hd), rfl⟩

/-- A numeral starts with a digit that is not zero, unless it is the numeral of zero. -/
theorem head?_text (hb : 1 < b) (hn : n ≠ 0) :
    ∃ d, 0 < d ∧ d < b ∧ (text digit b n).head? = some (digit d) := by
  have hne : Nat.digits b n ≠ [] := Nat.digits_ne_nil_iff_ne_zero.2 hn
  refine ⟨(Nat.digits b n).getLast hne, Nat.pos_of_ne_zero (Nat.getLast_digit_ne_zero b hn),
    Nat.digits_lt_base hb (List.getLast_mem hne), ?_⟩
  rw [text_of_ne digit hn, List.head?_map, List.head?_reverse,
    List.getLast?_eq_getLast_of_ne_nil hne]
  rfl

theorem value_append (l : List α) (c : α) : value val b (l ++ [c]) = value val b l * b + val c := by
  simp [value]

/-- Digits least significant first, read as a number. -/
theorem value_reverse (l : List α) : value val b l.reverse = Nat.ofDigits b (l.map val) := by
  induction l with
  | nil => rfl
  | cons c l ih =>
    rw [List.reverse_cons, value_append, ih, List.map_cons, Nat.ofDigits_cons]
    ring

variable {digit val}

/-- **A numeral reads back as its number.** -/
theorem value_text (hb : 1 < b) (h : ∀ d < b, val (digit d) = d) (n : ℕ) :
    value val b (text digit b n) = n := by
  by_cases hn : n = 0
  · rw [hn, text_zero]
    simp [value, h 0 (by omega)]
  · have hmap : ((Nat.digits b n).map digit).map val = Nat.digits b n := by
      rw [List.map_map]
      exact (List.map_congr_left fun d hd => h d (Nat.digits_lt_base hb hd)).trans (List.map_id _)
    rw [text_of_ne digit hn, List.map_reverse, value_reverse, hmap, Nat.ofDigits_digits]

theorem text_injective (hb : 1 < b) (h : ∀ d < b, val (digit d) = d) :
    Function.Injective (text digit b) :=
  Function.LeftInverse.injective (value_text hb h)

theorem length_text_le (hb : 1 < b) (hk : 0 < k) (hn : n < b ^ k) :
    (text digit b n).length ≤ k := by
  by_cases h : n = 0
  · rw [h, text_zero]
    exact hk
  · rw [text_of_ne digit h, List.length_map, List.length_reverse]
    exact (Nat.digits_length_le_iff hb n).2 hn

end Numeral

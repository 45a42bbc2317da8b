import Mathlib.Data.List.Basic

/-!
# Byte buffers

A buffer is read as a function from offsets to bytes, so that a pointer into memory and a
caller's array are the same kind of thing. `store` is what a block copy leaves behind, and
`slice` the list of bytes a range of a buffer holds.
-/

namespace Bytes

variable {α : Type*}

/-- Bytes by offset. -/
abbrev Buf := Nat → UInt8

/-- The buffer after `n` bytes of `src` were copied to offset `off`. -/
def store (b : Nat → α) (off : Nat) (src : Nat → α) (n : Nat) : Nat → α :=
  fun i => if off ≤ i ∧ i < off + n then src (i - off) else b i

/-- The bytes at `off`, `off + 1`, … `off + n - 1`. -/
def slice (b : Nat → α) (off n : Nat) : List α :=
  (List.range n).map fun i => b (off + i)

/-! ## Stores -/

theorem store_zero (b : Nat → α) (off : Nat) (src : Nat → α) : store b off src 0 = b := by
  funext i
  exact if_neg (by omega)

theorem store_of_lt {b src : Nat → α} {off n i : Nat} (h₁ : off ≤ i) (h₂ : i < off + n) :
    store b off src n i = src (i - off) :=
  if_pos ⟨h₁, h₂⟩

theorem store_of_not {b src : Nat → α} {off n i : Nat} (h : i < off ∨ off + n ≤ i) :
    store b off src n i = b i :=
  if_neg (by omega)

/-- A store depends only on the bytes it copies. -/
theorem store_congr {b src src' : Nat → α} {off n : Nat} (h : ∀ i < n, src i = src' i) :
    store b off src n = store b off src' n := by
  funext i
  by_cases hi : off ≤ i ∧ i < off + n
  · rw [store_of_lt hi.1 hi.2, store_of_lt hi.1 hi.2, h _ (by omega)]
  · rw [store_of_not (by omega), store_of_not (by omega)]

/-- The later of two stores to one place counts. -/
theorem store_store_same (b : Nat → α) (off : Nat) (src src' : Nat → α) (n : Nat) :
    store (store b off src n) off src' n = store b off src' n := by
  funext i
  by_cases hi : off ≤ i ∧ i < off + n
  · rw [store_of_lt hi.1 hi.2, store_of_lt hi.1 hi.2]
  · rw [store_of_not (by omega), store_of_not (by omega), store_of_not (by omega)]

/-- A store, byte by byte. -/
theorem update_store (b : Nat → α) (off : Nat) (src : Nat → α) (n : Nat) :
    Function.update (store b off src n) (off + n) (src n) = store b off src (n + 1) := by
  funext i
  by_cases hi : i = off + n
  · subst hi
    rw [Function.update_self, store_of_lt (by omega) (by omega), Nat.add_sub_cancel_left]
  · rw [Function.update_of_ne hi]
    by_cases hlt : off ≤ i ∧ i < off + n
    · rw [store_of_lt hlt.1 hlt.2, store_of_lt hlt.1 (by omega)]
    · rw [store_of_not (by omega), store_of_not (by omega)]

/-- Two stores that meet are one store of the joined bytes. -/
theorem store_store {b src src' : Nat → α} {off off' n m : Nat} (h : off' = off + n) :
    store (store b off src n) off' src' m =
      store b off (fun i => if i < n then src i else src' (i - n)) (n + m) := by
  subst h
  funext i
  by_cases h₁ : off + n ≤ i ∧ i < off + n + m
  · rw [store_of_lt h₁.1 h₁.2, store_of_lt (by omega) (by omega), if_neg (by omega)]
    congr 1
    omega
  · rw [store_of_not (by omega)]
    by_cases h₂ : off ≤ i ∧ i < off + n
    · rw [store_of_lt h₂.1 h₂.2, store_of_lt (by omega) (by omega), if_pos (by omega)]
    · rw [store_of_not (by omega), store_of_not (by omega)]

/-! ## Slices -/

@[simp] theorem slice_zero (b : Nat → α) (off : Nat) : slice b off 0 = [] := rfl

@[simp] theorem length_slice (b : Nat → α) (off n : Nat) : (slice b off n).length = n := by
  simp [slice]

theorem slice_succ (b : Nat → α) (off n : Nat) :
    slice b off (n + 1) = slice b off n ++ [b (off + n)] := by
  simp [slice, List.range_succ]

theorem slice_cons (b : Nat → α) (off n : Nat) :
    slice b off (n + 1) = b off :: slice b (off + 1) n := by
  simp only [slice, List.range_succ_eq_map, List.map_cons, List.map_map, Nat.add_zero]
  congr 1
  exact List.map_congr_left fun i _ => congrArg b (by simp only [Nat.succ_eq_add_one]; omega)

theorem slice_congr {b b' : Nat → α} {off off' n : Nat}
    (h : ∀ i < n, b (off + i) = b' (off' + i)) : slice b off n = slice b' off' n :=
  List.map_congr_left fun i hi => h i (List.mem_range.1 hi)

theorem slice_inj {b b' : Nat → α} {n : Nat} :
    slice b 0 n = slice b' 0 n ↔ ∀ i < n, b i = b' i := by
  simp [slice, List.map_inj_left]

theorem slice_add (b : Nat → α) (off n m : Nat) :
    slice b off (n + m) = slice b off n ++ slice b (off + n) m := by
  simp only [slice, List.range_add, List.map_append, List.map_map]
  congr 1
  exact List.map_congr_left fun i _ => by simp [Nat.add_assoc]

theorem slice_getElem? (b : Nat → α) (off n i : Nat) :
    (slice b off n)[i]? = if i < n then some (b (off + i)) else none := by
  by_cases h : i < n
  · simp [slice, h]
  · simp [slice, h]

theorem slice_drop (b : Nat → α) (off n k : Nat) :
    (slice b off n).drop k = slice b (off + k) (n - k) := by
  apply List.ext_getElem?
  intro i
  rw [List.getElem?_drop, slice_getElem?, slice_getElem?]
  by_cases h : k + i < n
  · rw [if_pos h, if_pos (by omega), Nat.add_assoc]
  · rw [if_neg h, if_neg (by omega)]

theorem slice_take (b : Nat → α) (off n k : Nat) :
    (slice b off n).take k = slice b off (min k n) := by
  apply List.ext_getElem?
  intro i
  rw [List.getElem?_take, slice_getElem?, slice_getElem?]
  by_cases h : i < k
  · rw [if_pos h]
    simp only [Nat.lt_min, h, true_and]
  · rw [if_neg h, if_neg (by omega)]

/-- Dropping the last byte of a slice. -/
theorem dropLast_slice (b : Nat → α) (off n : Nat) :
    (slice b off (n + 1)).dropLast = slice b off n := by
  rw [slice_succ, List.dropLast_concat]

/-- A store reads back as what it stored. -/
theorem slice_store (b src : Nat → α) (off n : Nat) :
    slice (store b off src n) off n = slice src 0 n :=
  slice_congr fun i hi => by
    rw [store_of_lt (by omega) (by omega)]
    congr 1
    omega

end Bytes

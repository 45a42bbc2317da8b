import Kernel391.Itoa
import Kernel391.Lib.Numeral
import Mathlib.Data.List.Induction

/-!
# `itoa` and `strrev`: correctness

The division loop of `itoa` writes the digits of the value, lowest place first: after any number of
rounds the bytes written and the digits of what is left are together the digits of the value.
`strrev` then swaps the ends of the string and goes inwards; outside its two indices the string is
reversed, inside it is as at the start, and the induction takes one byte off either end.

* `strrev_reverses` — every string shorter than an `int32_t` counts is reversed in place.
* `itoa_roundTrip` — `itoa` leaves the numeral of the value, and the numeral reads back as it.
-/

namespace Kernel391.LibC

open Memory Loop

variable {m : Mem} {a s buf : UInt32} {l : List UInt8}

/-! ## `strlen` -/

theorem strlen_loop {i : ℕ} (h : StringAt m (addr s i) l) :
    Computes (whileLoop (fun len => m (s + len) != 0) (· + 1) · (UInt32.ofNat i))
      (UInt32.ofNat (i + l.length)) := by
  induction l generalizing i with
  | nil =>
    have h0 : m (s + UInt32.ofNat i) = 0 := h
    exact computes_while_done (by simp [h0])
  | cons c l ih =>
    obtain ⟨hc, hne, hl⟩ := h
    have h0 : m (s + UInt32.ofNat i) = c := hc
    rw [addr_add_one] at hl
    refine computes_while_step (by simp [h0, hne]) ?_
    have hnext : UInt32.ofNat i + 1 = UInt32.ofNat (i + 1) := by simp
    rw [hnext, List.length_cons, Nat.add_comm l.length, ← Nat.add_assoc]
    exact ih hl

theorem strlen_computes (h : StringAt m s l) :
    Computes (strlen · m s) (UInt32.ofNat l.length) := by
  rw [← addr_zero s] at h
  have hloop := strlen_loop h
  rwa [Nat.zero_add] at hloop

/-! ## `strrev` -/

theorem toInt_ofNat {i : ℕ} (h : i < 2 ^ 31) : (Int32.ofNat i).toInt = i :=
  Int32.toInt_ofNat_of_lt h

/-- The index one before `i`, which is `-1` for `i = 0`. -/
theorem toInt_ofNat_sub_one {i : ℕ} (h : i < 2 ^ 31) : (Int32.ofNat i - 1).toInt = i - 1 := by
  rw [Int32.toInt_sub, toInt_ofNat h, Int32.toInt_one]
  exact Int.bmod_eq_of_le (by omega) (by omega)

theorem ofNat_succ_sub_one (i : ℕ) : Int32.ofNat (i + 1) - 1 = Int32.ofNat i := by
  rw [Int32.ofNat_add]
  exact Int32.add_sub_cancel _ 1

/-- One round swaps two bytes. -/
theorem strrevStep_put {i j : ℕ} {x y : UInt8} (hx : l[i]? = some x) (hy : l[j]? = some y)
    (hl : l.length ≤ 2 ^ 32) :
    strrevStep s { mem := put m s l, beg := Int32.ofNat i, end_ := Int32.ofNat j } =
      { mem := put m s ((l.set j x).set i y)
        beg := Int32.ofNat (i + 1)
        end_ := Int32.ofNat j - 1 } := by
  obtain ⟨hi, rfl⟩ := List.getElem?_eq_some_iff.1 hx
  obtain ⟨hj, rfl⟩ := List.getElem?_eq_some_iff.1 hy
  have hbeg : s + (Int32.ofNat i).toUInt32 = addr s i := rfl
  have hend : s + (Int32.ofNat j).toUInt32 = addr s j := rfl
  simp only [strrevStep, hbeg, hend, put_addr hi hl, put_addr hj hl, update_put_set hj hl]
  rw [update_put_set (by simpa using hi) (by simpa using hl), Int32.ofNat_add]
  rfl

/-- The two ends of the middle part of a list. -/
theorem ends_get (pre mid post : List UInt8) (x y : UInt8) :
    (pre ++ (x :: (mid ++ [y])) ++ post)[pre.length]? = some x ∧
      (pre ++ (x :: (mid ++ [y])) ++ post)[pre.length + mid.length + 1]? = some y := by
  have h : pre.length + mid.length + 1 - pre.length = mid.length + 1 := by omega
  have h' : ¬ pre.length + mid.length + 1 < pre.length := by omega
  simp [List.getElem?_append, h, h']

theorem ends_swap (pre mid post : List UInt8) (x y : UInt8) :
    ((pre ++ (x :: (mid ++ [y])) ++ post).set (pre.length + mid.length + 1) x).set pre.length y =
      pre ++ [y] ++ mid ++ (x :: post) := by
  have h : pre.length + mid.length + 1 - pre.length = mid.length + 1 := by omega
  have h' : ¬ pre.length + mid.length + 1 < pre.length := by omega
  simp [List.set_append, h, h']

theorem strrev_loop (mid : List UInt8) (pre post : List UInt8)
    (h : pre.length + mid.length < 2 ^ 31)
    (hall : pre.length + mid.length + post.length ≤ 2 ^ 31) :
    ∃ r, Computes (whileLoop (fun r => decide (r.beg < r.end_)) (strrevStep s) ·
        { mem := put m s (pre ++ mid ++ post)
          beg := Int32.ofNat pre.length
          end_ := Int32.ofNat (pre.length + mid.length) - 1 }) r ∧
      r.mem = put m s (pre ++ mid.reverse ++ post) := by
  induction mid using List.bidirectionalRec generalizing pre post with
  | nil =>
    refine ⟨_, computes_while_done ?_, rfl⟩
    rw [decide_eq_false_iff_not, Int32.lt_iff_toInt_lt, toInt_ofNat_sub_one (by simp; omega),
      toInt_ofNat (by omega)]
    simp
  | singleton x =>
    refine ⟨_, computes_while_done ?_, rfl⟩
    rw [List.length_singleton] at h
    rw [decide_eq_false_iff_not, Int32.lt_iff_toInt_lt, toInt_ofNat_sub_one (by simp; omega),
      toInt_ofNat (by omega)]
    simp
  | cons_append x mid y ih =>
    have hmid : (x :: (mid ++ [y])).length = mid.length + 2 := by simp
    rw [hmid] at h hall ⊢
    obtain ⟨r, hr, hmem⟩ := ih (pre ++ [y]) (x :: post) (by simp; omega) (by simp; omega)
    refine ⟨r, computes_while_step ?_ ?_, ?_⟩
    · rw [decide_eq_true_iff, Int32.lt_iff_toInt_lt, toInt_ofNat_sub_one (by omega),
        toInt_ofNat (by omega)]
      omega
    · have hend : Int32.ofNat (pre.length + (mid.length + 2)) - 1 =
          Int32.ofNat (pre.length + mid.length + 1) :=
        ofNat_succ_sub_one (pre.length + mid.length + 1)
      obtain ⟨hx, hy⟩ := ends_get pre mid post x y
      rw [hend, strrevStep_put hx hy (by simp; omega), ends_swap]
      have hbeg : (pre ++ [y]).length = pre.length + 1 := List.length_append
      rw [hbeg, Nat.add_right_comm] at hr
      exact hr
    · rw [hmem]
      simp

/-- **`strrev` reverses a string in place**, of even or odd length. -/
theorem strrev_reverses (h : StringAt m s l) (hl : l.length < 2 ^ 31) :
    Computes (strrev · s m) (s, put m s (l.reverse ++ [0])) := by
  obtain ⟨r, hr, hmem⟩ := strrev_loop (m := m) (s := s) l [] [0] (by simpa using hl)
    (by simp; omega)
  have hend : (UInt32.ofNat l.length - 1).toInt32 =
      Int32.ofNat (([] : List UInt8).length + l.length) - 1 := by
    rw [List.length_nil, Nat.zero_add]
    rfl
  rw [List.nil_append, h.put_self, ← hend] at hr
  rw [List.nil_append] at hmem
  rw [← hmem]
  exact (strlen_computes h).bind (hr.map fun r => (s, r.mem))

/-! ## `itoa` -/

/-- The digits `0` to `9`, `A` to `Z`, by value. -/
def digitChar (d : ℕ) : UInt8 := UInt8.ofNat (if d < 10 then 48 + d else 65 + (d - 10))

/-- The value of a digit. -/
def digitValue (c : UInt8) : ℕ := if c ≤ 57 then c.toNat - 48 else c.toNat - 65 + 10

/-- A digit, as a byte of a numeral. -/
def IsDigit (c : UInt8) : Prop := 48 ≤ c ∧ c ≤ 57 ∨ 65 ≤ c ∧ c ≤ 90

instance (c : UInt8) : Decidable (IsDigit c) := inferInstanceAs (Decidable (_ ∨ _))

theorem digitChar_spec : ∀ d < 36, lookup d = digitChar d ∧ IsDigit (digitChar d) ∧
    digitValue (digitChar d) = d ∧ digitChar d ≠ 0 := by
  decide

/-- The numeral of `n`. -/
def numeral (radix n : ℕ) : List UInt8 := Numeral.text digitChar radix n

theorem itoa_loop (m : Mem) (buf : UInt32) {radix v : UInt32} (hr : 2 ≤ radix.toNat)
    (hr' : radix.toNat ≤ 36)
    (h : l.length + (Nat.digits radix.toNat v.toNat).length < 2 ^ 32) :
    ∃ r, Computes (whileLoop (fun r => decide (0 < r.newval)) (itoaStep radix) ·
        { mem := put m buf l, newbuf := addr buf l.length, newval := v }) r ∧
      r.mem = put m buf (l ++ (Nat.digits radix.toNat v.toNat).map digitChar) ∧
      r.newbuf = addr buf (l.length + (Nat.digits radix.toNat v.toNat).length) := by
  induction hv : v.toNat using Nat.strong_induction_on generalizing v l with
  | _ n ih =>
    subst hv
    rcases Nat.eq_zero_or_pos v.toNat with hv | hv
    · have hdone : decide (0 < v) = false := by
        rw [decide_eq_false_iff_not, UInt32.lt_iff_toNat_lt, hv]
        exact lt_irrefl 0
      exact ⟨_, computes_while_done hdone, by simp [hv], by simp [hv]⟩
    · have hgo : decide (0 < v) = true := by
        rwa [decide_eq_true_iff, UInt32.lt_iff_toNat_lt]
      have hmod : (v % radix).toNat < 36 := by
        rw [UInt32.toNat_mod]
        exact (Nat.mod_lt _ (by omega)).trans_le hr'
      rw [Nat.digits_def' hr hv, List.length_cons] at h ⊢
      have hstep : itoaStep radix
          { mem := put m buf l, newbuf := addr buf l.length, newval := v } =
          { mem := put m buf (l ++ [digitChar (v % radix).toNat])
            newbuf := addr buf (l ++ [digitChar (v % radix).toNat]).length
            newval := v / radix } := by
        rw [itoaStep]
        simp only [(digitChar_spec _ hmod).1, update_put (show l.length < 2 ^ 32 by omega),
          addr_add_one, List.length_append, List.length_singleton]
      have hdiv : (v / radix).toNat = v.toNat / radix.toNat := UInt32.toNat_div ..
      obtain ⟨r, hr, hmem, hbuf⟩ := ih (v / radix).toNat
        (by rw [hdiv]; exact Nat.div_lt_self hv hr)
        (v := v / radix) (l := l ++ [digitChar (v % radix).toNat])
        (by rw [hdiv, List.length_append, List.length_singleton]; omega) rfl
      refine ⟨r, computes_while_step hgo (hstep ▸ hr), ?_, ?_⟩
      · rw [hmem, hdiv, UInt32.toNat_mod]
        simp
      · rw [hbuf, hdiv, List.length_append, List.length_singleton]
        congr 1
        omega

theorem toNat_radix {radix : Int32} (h2 : 2 ≤ radix) (h36 : radix ≤ 36) :
    radix.toUInt32.toNat = radix.toInt.toNat ∧ 2 ≤ radix.toInt.toNat ∧
      radix.toInt.toNat ≤ 36 := by
  rw [Int32.le_iff_toInt_le] at h2 h36
  have h2' : (2 : Int32).toInt = 2 := by decide
  have h36' : (36 : Int32).toInt = 36 := by decide
  have h0 : (0 : Int32) ≤ radix := by
    rw [Int32.le_iff_toInt_le, Int32.toInt_zero]
    omega
  refine ⟨Int32.toNat_toUInt32_of_le h0, by omega, by omega⟩

theorem numeral_nonzero {radix n : ℕ} (h2 : 2 ≤ radix) (h36 : radix ≤ 36) :
    ∀ c ∈ numeral radix n, c ≠ 0 := by
  intro c hc
  obtain ⟨d, hd, rfl⟩ := Numeral.mem_text digitChar h2 hc
  exact (digitChar_spec d (by omega)).2.2.2

/-- A numeral of 32 bits has at most 32 digits. -/
theorem length_numeral_le {radix : ℕ} (h2 : 2 ≤ radix) (value : UInt32) :
    (numeral radix value.toNat).length ≤ 32 := by
  refine Numeral.length_text_le h2 (by decide) ?_
  exact value.toNat_lt.trans_le (Nat.pow_le_pow_left h2 32)

theorem itoa_zero (fuel : ℕ) (buf : UInt32) (radix : Int32) (m : Mem) :
    itoa fuel 0 buf radix m = some (buf, put m buf (numeral radix.toInt.toNat 0 ++ [0])) := by
  have hzero : numeral radix.toInt.toNat 0 = [48] := Numeral.text_zero ..
  have htwo : Function.update (Function.update m buf 48) (buf + 1) 0 = put m buf [48, 0] := by
    rw [update_eq_put m]
    exact update_put (by decide)
  rw [itoa, if_pos rfl, htwo, hzero]
  rfl

/-- The numeral of a positive number is its digits, lowest place first, turned round. -/
theorem numeral_of_ne {radix n : ℕ} (hn : n ≠ 0) :
    numeral radix n = ((Nat.digits radix n).map digitChar).reverse := by
  rw [numeral, Numeral.text_of_ne digitChar hn, List.map_reverse]

/-- **`itoa` leaves the numeral of the value in the buffer**, and its terminator. -/
theorem itoa_computes {radix : Int32} (h2 : 2 ≤ radix) (h36 : radix ≤ 36) (value buf : UInt32)
    (m : Mem) : Computes (itoa · value buf radix m)
      (buf, put m buf (numeral radix.toInt.toNat value.toNat ++ [0])) := by
  obtain ⟨hradix, hr2, hr36⟩ := toNat_radix h2 h36
  by_cases hv : value = 0
  · subst hv
    exact (computes_some _).congr fun fuel => (itoa_zero fuel buf radix m).symm
  · have hne : radix ≠ 0 := by
      rintro rfl
      exact absurd h2 (by decide)
    have hn : value.toNat ≠ 0 := fun h => hv (UInt32.toNat_inj.1 h)
    have hlen := length_numeral_le hr2 value
    have hnz := numeral_nonzero (n := value.toNat) hr2 hr36
    rw [numeral_of_ne hn] at hlen hnz ⊢
    obtain ⟨r, hr, hmem, hbuf⟩ := itoa_loop m buf (l := []) (v := value)
      (hradix ▸ hr2) (hradix ▸ hr36) (by
        rw [List.length_reverse, List.length_map] at hlen
        rw [hradix, List.length_nil]
        omega)
    rw [hradix, List.nil_append] at hmem
    rw [hradix, List.length_nil, Nat.zero_add, ← List.length_map digitChar] at hbuf
    generalize (Nat.digits radix.toInt.toNat value.toNat).map digitChar = ds at *
    rw [List.length_reverse] at hlen
    have hterm : Function.update r.mem r.newbuf 0 = put m buf (ds ++ [0]) := by
      rw [hmem, hbuf, update_put (by omega)]
    have hstr : StringAt (put m buf (ds ++ [0])) buf ds :=
      stringAt_put (by omega) fun c hc => hnz c (List.mem_reverse.2 hc)
    have hrev := strrev_reverses hstr (by omega)
    rw [put_put (by simp)] at hrev
    rw [put_nil, List.length_nil, addr_zero] at hr
    refine (hr.bind (g := fun n r => strrev n buf (Function.update r.mem r.newbuf 0)) ?_).congr
      fun n => ?_
    · rw [hterm]
      exact hrev
    · rw [itoa, if_neg hv, if_neg hne]

/-- `l` is the number `n` written in base `radix`. -/
structure IsNumeral (radix n : ℕ) (l : List UInt8) : Prop where
  digits : ∀ c ∈ l, IsDigit c ∧ digitValue c < radix
  noLeadingZero : n ≠ 0 → l.head? ≠ some 48
  nonempty : l ≠ []
  value : Numeral.value digitValue radix l = n

theorem isNumeral_numeral {radix : ℕ} (h2 : 2 ≤ radix) (h36 : radix ≤ 36) (n : ℕ) :
    IsNumeral radix n (numeral radix n) where
  digits c hc := by
    obtain ⟨d, hd, rfl⟩ := Numeral.mem_text digitChar h2 hc
    obtain ⟨-, hdigit, hval, -⟩ := digitChar_spec d (by omega)
    exact ⟨hdigit, hval.symm ▸ hd⟩
  noLeadingZero hn hhead := by
    obtain ⟨d, hpos, hd, hfirst⟩ := Numeral.head?_text digitChar h2 hn
    have hzero : digitChar d = 48 := Option.some.inj (hfirst.symm.trans hhead)
    have hval := (digitChar_spec d (by omega)).2.2.1
    rw [hzero] at hval
    exact absurd hval (by simp [digitValue]; omega)
  nonempty := Numeral.text_ne_nil digitChar n
  value := Numeral.value_text h2 (fun d hd => (digitChar_spec d (by omega)).2.2.1) n

/-- **The round trip of `itoa`.** Every value has its text in the radix; `itoa` always ends, leaves
the text with its terminator at the buffer and every other byte as it was; the text is the numeral
of the value, and no two values share one. -/
theorem itoa_roundTrip (radix : Int32) (h2 : 2 ≤ radix) (h36 : radix ≤ 36) :
    ∃ text : UInt32 → List UInt8, Function.Injective text ∧
      ∀ (value buf : UInt32) (m : Mem), ∃ m', Computes (itoa · value buf radix m) (buf, m') ∧
        StringAt m' buf (text value) ∧
        IsNumeral radix.toInt.toNat value.toNat (text value) ∧
        ∀ b, (text value).length < off buf b → m' b = m b := by
  obtain ⟨-, hr2, hr36⟩ := toNat_radix h2 h36
  refine ⟨fun value => numeral radix.toInt.toNat value.toNat, ?_, fun value buf m => ?_⟩
  · intro v v' h
    have hinj := Numeral.text_injective hr2 fun d hd => (digitChar_spec d (by omega)).2.2.1
    exact UInt32.toNat_inj.1 (hinj h)
  · have hlen := length_numeral_le hr2 value
    refine ⟨_, itoa_computes h2 h36 value buf m,
      stringAt_put (by omega) (numeral_nonzero hr2 hr36),
      isNumeral_numeral hr2 hr36 value.toNat, fun b hb => put_of_not ?_⟩
    rw [List.length_append, List.length_singleton]
    exact hb

/-- Decimal. -/
theorem itoa_roundTrip_ten : ∃ text : UInt32 → List UInt8, Function.Injective text ∧
    ∀ (value buf : UInt32) (m : Mem), ∃ m', Computes (itoa · value buf 10 m) (buf, m') ∧
      StringAt m' buf (text value) ∧
      IsNumeral (10 : Int32).toInt.toNat value.toNat (text value) ∧
      ∀ b, (text value).length < off buf b → m' b = m b :=
  itoa_roundTrip 10 (by decide) (by decide)

end Kernel391.LibC

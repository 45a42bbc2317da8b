import Kernel391.Rtc
import Kernel391.Lib.History
import Kernel391.DescriptorProof

/-!
# The rate of the clock

* `rtc_write_rate` — for which values `rtc_write` terminates and programs the rate it was given.
* `rtcWrite_pow` — what it programs instead.

The guard lets 0 and the smallest number pass, and `INIT_RATE` is one too small.
-/

namespace Kernel391.Rtc

open History Loop

/-! ## The guard -/

section Guard

variable {w : Int32}

theorem toInt_eq (w : Int32) : w.toInt =
    if 2 * w.toBitVec.toNat < 2 ^ 32 then (w.toBitVec.toNat : Int)
    else (w.toBitVec.toNat : Int) - 2 ^ 32 := BitVec.toInt_eq_toNat_cond w.toBitVec

/-- The bits of `w - 1` below the lowest one of `w` are set: only a power of two has no bit in
common with it. -/
theorem toNat_of_and (h : w &&& (w - 1) = 0) :
    w.toBitVec.toNat = 0 ∨ ∃ k < 32, w.toBitVec.toNat = 2 ^ k := by
  by_cases h0 : w.toBitVec.toNat = 0
  · exact .inl h0
  have hlt : w.toBitVec.toNat < 2 ^ 32 := w.toBitVec.isLt
  have hpred : (w - 1).toBitVec.toNat = w.toBitVec.toNat - 1 := by
    have hone : (1 : Int32).toBitVec.toNat = 1 := by decide
    rw [Int32.toBitVec_sub, BitVec.toNat_sub, hone]
    omega
  have hand : w.toBitVec.toNat &&& (w.toBitVec.toNat - 1) = 0 := by
    rw [← hpred, ← BitVec.toNat_and, ← Int32.toBitVec_and, h]
    decide
  obtain ⟨k, hk⟩ := (Nat.and_sub_one_eq_zero_iff_isPowerOfTwo h0).1 hand
  refine .inr ⟨k, ?_, hk⟩
  rw [hk] at hlt
  exact (Nat.pow_lt_pow_iff_right (by decide)).1 hlt

theorem eq_pow {j : Nat} (hj : j ≤ 10) (h : w.toInt = 2 ^ j) : w = Int32.ofNat (2 ^ j) := by
  have hpow : ∀ j : Fin 11, (Int32.ofNat (2 ^ j.val)).toInt = 2 ^ j.val := by decide
  exact Int32.toInt_inj.1 (h.trans (hpow ⟨j, Nat.lt_succ_of_le hj⟩).symm)

/-- **What the guard lets through.** -/
theorem accepted_iff : ¬ (w &&& (w - 1) ≠ 0 ∨ w > maxFreq) ↔
    w = 0 ∨ w = Int32.minValue ∨ ∃ j ≤ 10, w.toInt = 2 ^ j := by
  rw [not_or, not_not]
  constructor
  · rintro ⟨hand, hle⟩
    have hmax : w.toInt ≤ 1024 := Int.not_lt.1 fun hlt => hle (Int32.lt_iff_toInt_lt.2 hlt)
    rcases toNat_of_and hand with h0 | ⟨k, hk, hpow⟩
    · exact .inl (Int32.toBitVec_inj.1 (BitVec.eq_of_toNat_eq h0))
    · rw [toInt_eq, hpow] at hmax
      by_cases h31 : k = 31
      · refine .inr (.inl (Int32.toBitVec_inj.1 (BitVec.eq_of_toNat_eq ?_)))
        rw [hpow, h31]
        decide
      · have hlt : 2 * 2 ^ k < 2 ^ 32 := by
          rw [← Nat.pow_succ']
          exact Nat.pow_lt_pow_right (by decide) (by omega)
        rw [if_pos hlt] at hmax
        refine .inr (.inr ⟨k, ?_, ?_⟩)
        · have hle : 2 ^ k ≤ 2 ^ 10 := by exact_mod_cast hmax
          exact (Nat.pow_le_pow_iff_right (by decide)).1 hle
        · rw [toInt_eq, hpow, if_pos hlt]
          rfl
  · rintro (rfl | rfl | ⟨j, hj, hpow⟩)
    · decide
    · decide
    · have hpass : ∀ j : Fin 11, Int32.ofNat (2 ^ j.val) &&& (Int32.ofNat (2 ^ j.val) - 1) = 0 ∧
          ¬ Int32.ofNat (2 ^ j.val) > maxFreq := by decide
      rw [eq_pow hj hpow]
      exact hpass ⟨j, Nat.lt_succ_of_le hj⟩

end Guard

/-! ## The loop -/

theorem rateLoop_zero : rateLoop 0 12 = some { tmp := 0, rate := 16 } := by decide

theorem rateLoop_pow : ∀ j : Fin 11, rateLoop (Int32.ofNat (2 ^ j.val)) 12 =
    some { tmp := Int32.ofNat (2 ^ j.val), rate := Int8.ofNat (15 - j.val) } := by decide

/-- What `tmp` can be. -/
def halves : List Int32 := [1024, 512, 256, 128, 64, 32, 16, 8, 4, 2, 1, 0]

/-- The loop never meets a negative number. -/
theorem rateLoop_min (fuel : Nat) : rateLoop Int32.minValue fuel = none := by
  refine while_eq_none fun n => ?_
  -- a test of the list, not of every `Int32` that may be in it
  have hall : (halves.all fun x => x >>> 1 ∈ halves && x ≠ Int32.minValue) = true := by decide
  have hfacts (x : Int32) (hx : x ∈ halves) : x >>> 1 ∈ halves ∧ x ≠ Int32.minValue := by
    have := List.all_eq_true.1 hall x hx
    rwa [Bool.and_eq_true, decide_eq_true_eq, decide_eq_true_eq] at this
  have hinv : (halve^[n] { tmp := maxFreq, rate := initRate }).tmp ∈ halves :=
    iterate_inv (I := fun l : Locals => l.tmp ∈ halves) (by decide)
      (fun l hl => (hfacts l.tmp hl).1) n
  exact decide_eq_true (hfacts _ hinv).2

/-! ## `rtc_write` -/

section Write

variable {w : Int32} {fuel j : Nat} {prev : UInt8}

theorem rtcWrite_rejects (h : w &&& (w - 1) ≠ 0 ∨ w > maxFreq) :
    rtcWrite fuel (some w) prev = some (-1, []) := if_pos h

theorem rtcWrite_accepts (h : w = 0 ∨ w = Int32.minValue ∨ ∃ j ≤ 10, w.toInt = 2 ^ j) :
    rtcWrite fuel (some w) prev = (rateLoop w fuel).map fun l => (0, setRate l.rate prev) :=
  if_neg (accepted_iff.2 h)

/-- What is programmed for a power of two. -/
theorem rtcWrite_pow (prev : UInt8) (hj : j ≤ 10) (h : w.toInt = 2 ^ j) :
    rtcWrite 12 (some w) prev = some (0, setRate (Int8.ofNat (15 - j)) prev) := by
  rw [rtcWrite_accepts (.inr (.inr ⟨j, hj, h⟩)), eq_pow hj h,
    rateLoop_pow ⟨j, Nat.lt_succ_of_le hj⟩]
  rfl

/-- The byte written to register A. -/
theorem last_setRate (rate : Int8) (prev : UInt8) :
    last (sentTo rtcDataPort) (setRate rate prev) = some ((prev &&& maskLower) ||| rate.toUInt8) :=
  (last_sentTo rtcDataPort [_, _] rtcDataPort _).trans (if_pos rfl)

/-- A rate below 16 becomes the low nibble, and the high one stays. -/
theorem nibbles (prev : UInt8) {r : UInt8} (hr : r.toNat < 16) :
    ((prev &&& maskLower) ||| r).toNat % 16 = r.toNat ∧
      ((prev &&& maskLower) ||| r).toNat / 16 = prev.toNat / 16 := by
  have hprev : prev.toNat < 256 := prev.toNat_lt
  have hmask : maskLower.toNat = 240 := rfl
  rw [UInt8.toNat_or, UInt8.toNat_and, hmask, show 16 = 2 ^ 4 from rfl]
  constructor
  · rw [Nat.or_mod_two_pow, Nat.and_mod_two_pow, show 240 % 2 ^ 4 = 0 from rfl, Nat.and_zero,
      Nat.zero_or, Nat.mod_eq_of_lt hr]
  · rw [Nat.or_div_two_pow, Nat.and_div_two_pow, show 240 / 2 ^ 4 = 2 ^ 4 - 1 from rfl,
      Nat.and_two_pow_sub_one_eq_mod, Nat.div_eq_of_lt hr, Nat.or_zero]
    exact Nat.mod_eq_of_lt (by omega)

/-- The rate for a power of two is that of its double. -/
theorem rate_pow : ∀ j : Fin 11, (Int8.ofNat (15 - j.val)).toUInt8.toNat = 15 - j.val ∧
    32768 >>> (15 - j.val - 1) = 2 * 2 ^ j.val := by decide

end Write

/-- The clock interrupts `v` times a second with rate `r` in the low nibble, and the high nibble
is what it was. -/
structure Programs (v : Int) (prev b : UInt8) : Prop where
  low : 1 ≤ b.toNat % 16
  rate : ((32768 >>> (b.toNat % 16 - 1) : Nat) : Int) = v
  high : b.toNat / 16 = prev.toNat / 16

/-- `rtc_write` terminates, refuses what is no rate, and programs what it accepts. -/
structure RtcWriteLaw (w : Int32) (prev : UInt8) : Prop where
  terminates : ∃ fuel r, rtcWrite fuel (some w) prev = some r
  refuses : ¬ (∃ j ≤ 10, w.toInt = 2 ^ j) → ∀ fuel r, rtcWrite fuel (some w) prev = some r →
    r = (-1, [])
  programs : ∀ fuel outs, rtcWrite fuel (some w) prev = some (0, outs) →
    ∃ b, last (sentTo rtcDataPort) outs = some b ∧ Programs w.toInt prev b

/-- **`rtc_write` is right exactly for what it refuses.** -/
theorem rtc_write_rate (w : Int32) (prev : UInt8) :
    RtcWriteLaw w prev ↔
      ¬ (w = 0 ∨ w = Int32.minValue ∨ ∃ j ≤ 10, w.toInt = 2 ^ j) := by
  constructor
  · rintro h (rfl | rfl | ⟨j, hj, hpow⟩)
    · have hrun : rtcWrite 12 (some 0) prev = some (0, setRate 16 prev) := by
        rw [rtcWrite_accepts (.inl rfl), rateLoop_zero]
        rfl
      have hnot : ¬ ∃ j ≤ 10, (0 : Int32).toInt = 2 ^ j := by
        rintro ⟨j, -, hj⟩
        exact absurd hj.symm (pow_ne_zero j (by decide))
      have := h.refuses hnot 12 _ hrun
      exact absurd (Prod.mk.inj this).1 (by decide)
    · obtain ⟨fuel, r, hr⟩ := h.terminates
      rw [rtcWrite_accepts (.inr (.inl rfl)), rateLoop_min] at hr
      cases hr
    · obtain ⟨b, hb, hlaw⟩ := h.programs 12 _ (rtcWrite_pow prev hj hpow)
      rw [last_setRate] at hb
      obtain rfl := Option.some.inj hb
      obtain ⟨hrate, hdouble⟩ := rate_pow ⟨j, Nat.lt_succ_of_le hj⟩
      dsimp only at hrate hdouble
      have hr := hlaw.rate
      rw [(nibbles prev (by rw [hrate]; omega)).1, hrate, hdouble, hpow] at hr
      have hpos : 0 < 2 ^ j := Nat.two_pow_pos j
      have heq : 2 * 2 ^ j = 2 ^ j := by exact_mod_cast hr
      omega
  · intro h
    have hrej : w &&& (w - 1) ≠ 0 ∨ w > maxFreq := by
      by_contra hacc
      exact h (accepted_iff.1 hacc)
    refine ⟨⟨0, _, rtcWrite_rejects hrej⟩, fun _ fuel r hr => ?_, fun fuel outs hr => ?_⟩
    · rw [rtcWrite_rejects hrej] at hr
      exact (Option.some.inj hr).symm
    · rw [rtcWrite_rejects hrej] at hr
      exact absurd (Prod.mk.inj (Option.some.inj hr)).1 (by decide)

/-- Three is refused. -/
theorem rtc_write_rate_three : RtcWriteLaw 3 0x26 := by
  refine (rtc_write_rate 3 0x26).2 (mt accepted_iff.2 ?_)
  decide

/-- `rtc_open` asks for 2 Hz and programs rate 14, which is 4 Hz; 0 sets the high nibble; the
smallest number is halved towards for ever. -/
theorem rtc_write_rate_wrong :
    (rtcOpen 12 0x26 = some (0, setRate 14 0x26) ∧ ¬ RtcWriteLaw 2 0x26) ∧
    (rtcWrite 12 (some 0) 0x20 = some (0, setRate 16 0x20) ∧ ¬ RtcWriteLaw 0 0x20) ∧
    ∀ fuel, rtcWrite fuel (some Int32.minValue) 0x26 = none := by
  refine ⟨⟨by decide, fun h => ?_⟩, ⟨by decide, fun h => ?_⟩, fun fuel => ?_⟩
  · obtain ⟨b, hb, hlaw⟩ := h.programs 12 (setRate 14 0x26) (by decide)
    rw [last_setRate] at hb
    obtain rfl := Option.some.inj hb
    exact absurd hlaw.rate (by decide)
  · obtain ⟨b, hb, hlaw⟩ := h.programs 12 (setRate 16 0x20) (by decide)
    rw [last_setRate] at hb
    obtain rfl := Option.some.inj hb
    exact absurd hlaw.high (by decide)
  · rw [rtcWrite_accepts (.inr (.inl rfl)), rateLoop_min]
    rfl

/-! ## As a system call -/

theorem guard_iff (w : UInt32) : w &&& (w - 1) ≠ 0 ∨ toSigned w > Kernel391.maxFreq ↔
    w.toInt32 &&& (w.toInt32 - 1) ≠ 0 ∨ w.toInt32 > maxFreq := by
  have hand : w.toInt32 &&& (w.toInt32 - 1) = (w &&& (w - 1)).toInt32 := rfl
  rw [hand, gt_iff_lt, gt_iff_lt, Int32.lt_iff_toInt_lt]
  refine or_congr (not_congr ⟨fun h => ?_, fun h => ?_⟩) Iff.rfl
  · exact congrArg UInt32.toInt32 h
  · exact congrArg Int32.toUInt32 h

/-- Both loops end for 0 and the powers of two, and not for the smallest number. -/
theorem loops_agree {w : UInt32} (h : w.toInt32 = 0 ∨ w.toInt32 = Int32.minValue ∨
    ∃ j ≤ 10, w.toInt32.toInt = 2 ^ j) :
    ((List.range 12).any fun i => (1024 : UInt32) >>> UInt32.ofNat i = w) = true ↔
      ∃ fuel l, rateLoop w.toInt32 fuel = some l := by
  rcases h with h | h | ⟨j, hj, h⟩
  · obtain rfl : w = 0 := congrArg Int32.toUInt32 h
    exact iff_of_true (by decide) ⟨12, _, rateLoop_zero⟩
  · obtain rfl : w = 0x80000000 := congrArg Int32.toUInt32 h
    refine iff_of_false (by decide) ?_
    rintro ⟨fuel, l, hl⟩
    rw [h, rateLoop_min] at hl
    cases hl
  · have hj' : j < 11 := Nat.lt_succ_of_le hj
    obtain rfl : w = UInt32.ofNat (2 ^ j) := congrArg Int32.toUInt32 (eq_pow hj h)
    have hany : ∀ j : Fin 11, ((List.range 12).any fun i =>
        (1024 : UInt32) >>> UInt32.ofNat i = UInt32.ofNat (2 ^ j.val)) = true := by decide
    exact iff_of_true (hany ⟨j, hj'⟩) ⟨12, _, rateLoop_pow ⟨j, hj'⟩⟩

/-- The system calls' `rtcWrite` says how this one ends. -/
theorem rtcWrite_returned (w : UInt32) (prev : UInt8) (ret : Int) :
    Kernel391.rtcWrite (some w) = .returned ret ↔
      ∃ fuel outs, rtcWrite fuel (some w.toInt32) prev = some (ret, outs) := by
  by_cases hrej : w &&& (w - 1) ≠ 0 ∨ toSigned w > Kernel391.maxFreq
  · rw [Kernel391.rtcWrite, if_pos hrej]
    simp only [rtcWrite_rejects ((guard_iff w).1 hrej)]
    constructor
    · intro h
      injection h with h
      exact ⟨0, [], by rw [h]⟩
    · rintro ⟨-, outs, h⟩
      exact congrArg Outcome.returned (Prod.mk.inj (Option.some.inj h)).1
  · have hacc := accepted_iff.1 (mt (guard_iff w).2 hrej)
    rw [Kernel391.rtcWrite, if_neg hrej]
    simp only [rtcWrite_accepts hacc]
    constructor
    · intro h
      split at h
      · injection h with h
        obtain ⟨fuel, l, hl⟩ := (loops_agree hacc).1 ‹_›
        exact ⟨fuel, setRate l.rate prev, by rw [hl, ← h]; rfl⟩
      · cases h
    · rintro ⟨fuel, outs, h⟩
      obtain ⟨l, hl, hret⟩ := Option.map_eq_some_iff.1 h
      rw [if_pos ((loops_agree hacc).2 ⟨fuel, l, hl⟩)]
      exact congrArg Outcome.returned (Prod.mk.inj hret).1

end Kernel391.Rtc

import Kernel391.MemoryOps

/-!
# Block memory operations: correctness

`memset` and `memcpy` go through the same three phases: single bytes until the destination is
aligned or nothing is left, double words, and the bytes that remain. The phases are counted once
(`WordLoop.run`), for any program whose blocks each move a progress relation `P k` on, `k` the
number of bytes done. For `memset` progress is that `k` bytes are filled, for `memcpy` that `k`
bytes are copied; each block of the two programs is run once, line by line.

* `memset_memcpy_bytewise` — both routines end, and have written what a byte loop writes.
-/

namespace Kernel391.LibC

open Memory Asm Loop

/-! ## The three phases -/

/-- A program whose blocks move `P k`, the progress after `k` of `n` bytes. -/
structure WordLoop (p : List (Instr WordLabel)) (n : ℕ) (P : ℕ → Cpu → Prop) : Prop where
  topDone : ∀ k s, P k s → s.pc = 0 → s.ecx = 0 →
    ∃ t, Steps p s t ∧ P k t ∧ t.pc = p.length
  topByte : ∀ k s, P k s → s.pc = 0 → s.ecx ≠ 0 → s.edi &&& 3 ≠ 0 → k < n →
    ∃ t, Steps p s t ∧ P (k + 1) t ∧ t.pc = 0 ∧ t.ecx = s.ecx - 1
  words : ∀ k s, P k s → s.pc = 0 → s.ecx ≠ 0 → s.edi &&& 3 = 0 →
    k + 4 * (s.ecx.toNat / 4) ≤ n →
    ∃ t, Steps p s t ∧ P (k + 4 * (s.ecx.toNat / 4)) t ∧ t.pc = target p .bottom ∧
      t.edx = s.ecx &&& 3
  bottomDone : ∀ k s, P k s → s.pc = target p .bottom → s.edx = 0 →
    ∃ t, Steps p s t ∧ P k t ∧ t.pc = p.length
  bottomByte : ∀ k s, P k s → s.pc = target p .bottom → s.edx ≠ 0 → k < n →
    ∃ t, Steps p s t ∧ P (k + 1) t ∧ t.pc = target p .bottom ∧ t.edx = s.edx - 1

theorem toNat_pos_of_ne {x : UInt32} (h : x ≠ 0) : 0 < x.toNat :=
  Nat.pos_of_ne_zero fun h0 => h (UInt32.toNat_inj.1 h0)

theorem toNat_sub_one {x : UInt32} (h : x ≠ 0) : (x - 1).toNat = x.toNat - 1 := by
  have hx := toNat_pos_of_ne h
  have hlt := x.toNat_lt
  rw [UInt32.toNat_sub, UInt32.toNat_one]
  omega

theorem toNat_and_three (x : UInt32) : (x &&& 3).toNat = x.toNat % 4 := by
  rw [UInt32.toNat_and]
  exact Nat.and_two_pow_sub_one_eq_mod x.toNat 2

theorem toNat_shiftRight_two (x : UInt32) : (x >>> 2).toNat = x.toNat / 4 := by
  simp [Nat.shiftRight_eq_div_pow]

section WordLoop

variable {p : List (Instr WordLabel)} {n k : ℕ} {P : ℕ → Cpu → Prop} {s : Cpu}

theorem WordLoop.bottom (w : WordLoop p n P) (h : P k s) (hpc : s.pc = target p .bottom)
    (hk : k + s.edx.toNat = n) : ∃ t, Steps p s t ∧ P n t ∧ t.pc = p.length := by
  induction hm : s.edx.toNat generalizing s k with
  | zero =>
    obtain ⟨t, hst, ht, hend⟩ := w.bottomDone k s h hpc (UInt32.toNat_inj.1 hm)
    obtain rfl : k = n := by omega
    exact ⟨t, hst, ht, hend⟩
  | succ j ih =>
    have hne : s.edx ≠ 0 := fun h0 => by simp [h0] at hm
    obtain ⟨t, hst, ht, hpt, hedx⟩ := w.bottomByte k s h hpc hne (by omega)
    have hj : t.edx.toNat = j := by rw [hedx, toNat_sub_one hne, hm]; rfl
    obtain ⟨u, htu, hu⟩ := ih ht hpt (by omega) hj
    exact ⟨u, hst.trans htu, hu⟩

/-- **The phases together do all `n` bytes**, whatever the alignment. -/
theorem WordLoop.run (w : WordLoop p n P) (h : P k s) (hpc : s.pc = 0)
    (hk : k + s.ecx.toNat = n) : ∃ t, Steps p s t ∧ P n t ∧ t.pc = p.length := by
  induction hm : s.ecx.toNat generalizing s k with
  | zero =>
    obtain ⟨t, hst, ht, hend⟩ := w.topDone k s h hpc (UInt32.toNat_inj.1 hm)
    obtain rfl : k = n := by omega
    exact ⟨t, hst, ht, hend⟩
  | succ j ih =>
    have hne : s.ecx ≠ 0 := fun h0 => by simp [h0] at hm
    by_cases ha : s.edi &&& 3 = 0
    · obtain ⟨t, hst, ht, hpt, hedx⟩ := w.words k s h hpc hne ha (by omega)
      have hrest : t.edx.toNat = s.ecx.toNat % 4 := by rw [hedx, toNat_and_three]
      obtain ⟨u, htu, hu⟩ := w.bottom ht hpt (by omega)
      exact ⟨u, hst.trans htu, hu⟩
    · obtain ⟨t, hst, ht, hpt, hecx⟩ := w.topByte k s h hpc hne ha (by omega)
      have hj : t.ecx.toNat = j := by rw [hecx, toNat_sub_one hne, hm]; rfl
      obtain ⟨u, htu, hu⟩ := ih ht hpt (by omega) hj
      exact ⟨u, hst.trans htu, hu⟩

end WordLoop

/-! ## `memset` -/

theorem zf_of_ne {x : UInt32} (h : x ≠ 0) : (x &&& x == 0) = false := by simpa using h

theorem zf_of_eq : ((0 : UInt32) &&& 0 == 0) = true := by decide

section MemsetBlocks

variable {s : Cpu}

theorem memset_topDone (hpc : s.pc = 0) (hn : s.ecx = 0) :
    ∃ zf cf, Steps memsetCode s { s with zf := zf, cf := cf, pc := memsetCode.length } := by
  obtain ⟨eax, ecx, edx, esi, edi, ds, es, zf, cf, df, mem, pc⟩ := s
  subst hpc hn
  exact ⟨_, _, .next rfl <| .next rfl <| .jz_taken rfl zf_of_eq <| .next rfl <| .refl _⟩

theorem memset_topByte (hpc : s.pc = 0) (hn : s.ecx ≠ 0) (ha : s.edi &&& 3 ≠ 0) :
    ∃ zf cf, Steps memsetCode s { s with
      mem := Function.update s.mem s.edi s.eax.toUInt8
      edi := s.edi + 1
      ecx := s.ecx - 1
      zf := zf
      cf := cf } := by
  obtain ⟨eax, ecx, edx, esi, edi, ds, es, zf, cf, df, mem, pc⟩ := s
  subst hpc
  have hz' : (edi &&& 3 == 0) = false := by simpa using ha
  exact ⟨_, _, .next rfl <| .next rfl <| .jz_not rfl (zf_of_ne hn) <| .next rfl <|
    .jz_not rfl hz' <| .next rfl <| .next rfl <| .next rfl <| .next rfl <| .refl _⟩

/-- The way to `rep stosl`, with the counts of double words and of bytes behind them. -/
theorem memset_words (hpc : s.pc = 0) (hn : s.ecx ≠ 0) (ha : s.edi &&& 3 = 0) :
    ∃ t : Cpu, Steps memsetCode s (t.rep Cpu.stosl).next ∧ t.mem = s.mem ∧ t.edi = s.edi ∧
      t.eax = s.eax ∧ t.ecx = s.ecx >>> 2 ∧ t.edx = s.ecx &&& 3 ∧ t.df = false ∧ t.pc = 16 := by
  obtain ⟨eax, ecx, edx, esi, edi, ds, es, zf, cf, df, mem, pc⟩ := s
  subst hpc
  have hz' : (edi &&& 3 == 0) = true := by simpa using ha
  exact ⟨_, .next rfl <| .next rfl <| .jz_not rfl (zf_of_ne hn) <| .next rfl <|
    .jz_taken rfl hz' <| .next rfl <| .next rfl <| .next rfl <| .next rfl <| .next rfl <|
    .next rfl <| .next rfl <| .next rfl <| .refl _, rfl, rfl, rfl, rfl, rfl, rfl, rfl⟩

theorem memset_bottomDone (hpc : s.pc = 17) (hn : s.edx = 0) :
    ∃ zf cf, Steps memsetCode s { s with zf := zf, cf := cf, pc := memsetCode.length } := by
  obtain ⟨eax, ecx, edx, esi, edi, ds, es, zf, cf, df, mem, pc⟩ := s
  subst hpc hn
  exact ⟨_, _, .next rfl <| .next rfl <| .jz_taken rfl zf_of_eq <| .next rfl <| .refl _⟩

theorem memset_bottomByte (hpc : s.pc = 17) (hn : s.edx ≠ 0) :
    ∃ zf cf, Steps memsetCode s { s with
      mem := Function.update s.mem s.edi s.eax.toUInt8
      edi := s.edi + 1
      edx := s.edx - 1
      zf := zf
      cf := cf } := by
  obtain ⟨eax, ecx, edx, esi, edi, ds, es, zf, cf, df, mem, pc⟩ := s
  subst hpc
  exact ⟨_, _, .next rfl <| .next rfl <| .jz_not rfl (zf_of_ne hn) <| .next rfl <| .next rfl <|
    .next rfl <| .next rfl <| .refl _⟩

end MemsetBlocks

/-- The first `k` bytes at `a` are filled with `c`, nothing else was written, and the registers
are ready for the next byte. -/
structure Filled (m : Mem) (a : UInt32) (c : UInt8) (k : ℕ) (s : Cpu) : Prop where
  mem : s.mem = patch m a 0 k fun _ => c
  edi : s.edi = addr a k
  eax : s.eax = join c c c c

section Filled

variable {m : Mem} {a : UInt32} {c : UInt8} {k n : ℕ} {s : Cpu}

theorem Filled.byte (h : Filled m a c k s) (hk : k < 2 ^ 32) :
    Function.update s.mem s.edi s.eax.toUInt8 = patch m a 0 (k + 1) fun _ => c := by
  rw [h.mem, h.edi]
  refine update_patch_hi (Nat.zero_le k) hk ?_
  rw [h.eax]
  exact toUInt8_join ..

/-- `rep stosl` upwards: `j` double words are `4 * j` bytes. -/
theorem Filled.stosl (h : Filled m a c k s) (hdf : s.df = false) {j : ℕ}
    (hj : k + 4 * j ≤ 2 ^ 32) :
    Cpu.stosl^[j] s =
      { s with mem := patch m a 0 (k + 4 * j) fun _ => c, edi := addr a (k + 4 * j) } := by
  induction j with
  | zero => rw [Function.iterate_zero, id, Nat.mul_zero, Nat.add_zero, ← h.mem, ← h.edi]
  | succ j ih =>
    rw [Function.iterate_succ_apply', ih (by omega), Cpu.stosl, Cpu.stride, hdf]
    have hword : ∀ i < 4, byteOf (join c c c c) i = c := by
      obtain ⟨h₀, h₁, h₂, h₃⟩ := byteOf_join c c c c
      intro i hi
      match i, hi with
      | 0, _ => exact h₀
      | 1, _ => exact h₁
      | 2, _ => exact h₂
      | 3, _ => exact h₃
    have hmem : store32 (patch m a 0 (k + 4 * j) fun _ => c) (addr a (k + 4 * j)) s.eax =
        patch m a 0 (k + 4 * j + 4) fun _ => c := by
      rw [h.eax]
      exact patch_append (Nat.zero_le _) (by omega) hword
    have hedi : addr a (k + 4 * j) + 4 = addr a (k + 4 * j + 4) := addr_addr a _ 4
    simp only [hmem, hedi, Bool.false_eq_true, if_false, Nat.mul_add, Nat.mul_one, Nat.add_assoc]

theorem memset_wordLoop (hn : n ≤ 2 ^ 32) : WordLoop memsetCode n (Filled m a c) where
  topDone k s h hpc hecx := by
    obtain ⟨zf, cf, hst⟩ := memset_topDone hpc hecx
    exact ⟨_, hst, ⟨h.mem, h.edi, h.eax⟩, rfl⟩
  topByte k s h hpc hecx ha hk := by
    obtain ⟨zf, cf, hst⟩ := memset_topByte hpc hecx ha
    have hedi : s.edi + 1 = addr a (k + 1) := by rw [h.edi, addr_add_one]
    exact ⟨_, hst, ⟨h.byte (by omega), hedi, h.eax⟩, hpc, rfl⟩
  words k s h hpc hecx ha hk := by
    obtain ⟨t, hst, hmem, hedi, heax, htcx, hedx, hdf, hpt⟩ := memset_words hpc hecx ha
    have ht : Filled m a c k t := ⟨hmem.trans h.mem, hedi.trans h.edi, heax.trans h.eax⟩
    have hq : t.ecx.toNat = s.ecx.toNat / 4 := by rw [htcx, toNat_shiftRight_two]
    rw [Cpu.rep, ht.stosl hdf (by omega), hq] at hst
    exact ⟨_, hst, ⟨rfl, rfl, ht.eax⟩, congrArg (· + 1) hpt, hedx⟩
  bottomDone k s h hpc hedx := by
    obtain ⟨zf, cf, hst⟩ := memset_bottomDone hpc hedx
    exact ⟨_, hst, ⟨h.mem, h.edi, h.eax⟩, rfl⟩
  bottomByte k s h hpc hedx hk := by
    obtain ⟨zf, cf, hst⟩ := memset_bottomByte hpc hedx
    have hedi : s.edi + 1 = addr a (k + 1) := by rw [h.edi, addr_add_one]
    exact ⟨_, hst, ⟨h.byte (by omega), hedi, h.eax⟩, hpc, rfl⟩

end Filled

/-- The fill word has the low byte of `c` four times. -/
theorem fillWord_eq (c : Int32) : (fillWord c).toUInt32 =
    join c.toUInt32.toUInt8 c.toUInt32.toUInt8 c.toUInt32.toUInt8 c.toUInt32.toUInt8 := by
  have hc : (c &&& 0xFF).toUInt32 = c.toUInt32.toUInt8.toUInt32 := by
    rw [Int32.toUInt32_and, ← UInt32.toNat_inj, UInt32.toNat_and, UInt8.toNat_toUInt32,
      UInt32.toNat_toUInt8]
    exact Nat.and_two_pow_sub_one_eq_mod c.toUInt32.toNat 8
  have h24 (x : Int32) : (x <<< 24).toUInt32 = x.toUInt32 <<< 24 := rfl
  have h16 (x : Int32) : (x <<< 16).toUInt32 = x.toUInt32 <<< 16 := rfl
  have h8 (x : Int32) : (x <<< 8).toUInt32 = x.toUInt32 <<< 8 := rfl
  simp only [fillWord, join, Int32.toUInt32_or, h24, h16, h8, hc]

/-- The byte loop `for (i = 0; i < n; i++) s[i] = c;`. -/
def fillBytes (m : Mem) (s : UInt32) (c : UInt8) (n : ℕ) : Mem :=
  (List.range n).foldl (fun m i => Function.update m (addr s i) c) m

theorem fillBytes_eq (m : Mem) (s : UInt32) (c : UInt8) {n : ℕ} (hn : n ≤ 2 ^ 32) :
    fillBytes m s c n = patch m s 0 n fun _ => c := by
  induction n with
  | zero => exact (patch_self m s 0 _).symm
  | succ n ih =>
    rw [fillBytes, List.range_succ, List.foldl_append, ← fillBytes, ih (by omega)]
    exact update_patch_hi (Nat.zero_le n) (by omega) rfl

theorem memset_fills (s : UInt32) (c : Int32) (n : UInt32) (cpu : Cpu) :
    ∃ r, Computes (memset · s c n cpu) (s, r) ∧
      r.mem = fillBytes cpu.mem s c.toUInt32.toUInt8 n.toNat := by
  have hn : n.toNat ≤ 2 ^ 32 := n.toNat_lt.le
  let start : Cpu := { cpu with eax := (fillWord c).toUInt32, edi := s, ecx := n, pc := 0 }
  have h0 : Filled cpu.mem s c.toUInt32.toUInt8 0 start :=
    ⟨(patch_self ..).symm, (addr_zero s).symm, fillWord_eq c⟩
  obtain ⟨t, hst, ht, hend⟩ := (memset_wordLoop hn).run h0 rfl (Nat.zero_add _)
  refine ⟨t, (Steps.computes hst hend).map _, ?_⟩
  rw [ht.mem, fillBytes_eq _ _ _ hn]

/-! ## `memcpy` -/

section MemcpyBlocks

variable {s : Cpu}

theorem memcpy_topDone (hpc : s.pc = 0) (hn : s.ecx = 0) :
    ∃ zf cf, Steps memcpyCode s { s with zf := zf, cf := cf, pc := memcpyCode.length } := by
  obtain ⟨eax, ecx, edx, esi, edi, ds, es, zf, cf, df, mem, pc⟩ := s
  subst hpc hn
  exact ⟨_, _, .next rfl <| .next rfl <| .jz_taken rfl zf_of_eq <| .next rfl <| .refl _⟩

theorem memcpy_topByte (hpc : s.pc = 0) (hn : s.ecx ≠ 0) (ha : s.edi &&& 3 ≠ 0) :
    ∃ zf cf, Steps memcpyCode s { s with
      eax := (s.setAl (s.mem s.esi)).eax
      mem := Function.update s.mem s.edi (s.setAl (s.mem s.esi)).eax.toUInt8
      edi := s.edi + 1
      esi := s.esi + 1
      ecx := s.ecx - 1
      zf := zf
      cf := cf } := by
  obtain ⟨eax, ecx, edx, esi, edi, ds, es, zf, cf, df, mem, pc⟩ := s
  subst hpc
  have hz' : (edi &&& 3 == 0) = false := by simpa using ha
  exact ⟨_, _, .next rfl <| .next rfl <| .jz_not rfl (zf_of_ne hn) <| .next rfl <|
    .jz_not rfl hz' <| .next rfl <| .next rfl <| .next rfl <| .next rfl <| .next rfl <|
    .next rfl <| .refl _⟩

/-- The way to `rep movsl`, with the counts of double words and of bytes behind them. -/
theorem memcpy_words (hpc : s.pc = 0) (hn : s.ecx ≠ 0) (ha : s.edi &&& 3 = 0) :
    ∃ t : Cpu, Steps memcpyCode s (t.rep Cpu.movsl).next ∧ t.mem = s.mem ∧ t.edi = s.edi ∧
      t.esi = s.esi ∧ t.ecx = s.ecx >>> 2 ∧ t.edx = s.ecx &&& 3 ∧ t.df = false ∧ t.pc = 18 := by
  obtain ⟨eax, ecx, edx, esi, edi, ds, es, zf, cf, df, mem, pc⟩ := s
  subst hpc
  have hz' : (edi &&& 3 == 0) = true := by simpa using ha
  exact ⟨_, .next rfl <| .next rfl <| .jz_not rfl (zf_of_ne hn) <| .next rfl <|
    .jz_taken rfl hz' <| .next rfl <| .next rfl <| .next rfl <| .next rfl <| .next rfl <|
    .next rfl <| .next rfl <| .next rfl <| .refl _, rfl, rfl, rfl, rfl, rfl, rfl, rfl⟩

theorem memcpy_bottomDone (hpc : s.pc = 19) (hn : s.edx = 0) :
    ∃ zf cf, Steps memcpyCode s { s with zf := zf, cf := cf, pc := memcpyCode.length } := by
  obtain ⟨eax, ecx, edx, esi, edi, ds, es, zf, cf, df, mem, pc⟩ := s
  subst hpc hn
  exact ⟨_, _, .next rfl <| .next rfl <| .jz_taken rfl zf_of_eq <| .next rfl <| .refl _⟩

theorem memcpy_bottomByte (hpc : s.pc = 19) (hn : s.edx ≠ 0) :
    ∃ zf cf, Steps memcpyCode s { s with
      eax := (s.setAl (s.mem s.esi)).eax
      mem := Function.update s.mem s.edi (s.setAl (s.mem s.esi)).eax.toUInt8
      edi := s.edi + 1
      esi := s.esi + 1
      edx := s.edx - 1
      zf := zf
      cf := cf } := by
  obtain ⟨eax, ecx, edx, esi, edi, ds, es, zf, cf, df, mem, pc⟩ := s
  subst hpc
  exact ⟨_, _, .next rfl <| .next rfl <| .jz_not rfl (zf_of_ne hn) <| .next rfl <| .next rfl <|
    .next rfl <| .next rfl <| .next rfl <| .next rfl <| .refl _⟩

end MemcpyBlocks

/-- Going upwards, no source byte is overwritten before it is read. -/
def ReadsAhead (dest src : UInt32) (n : ℕ) : Prop :=
  ∀ i j, j < i → i < n → addr dest j ≠ addr src i

/-- The first `k` bytes are copied to `dest`, nothing else was written, and the registers are ready
for the next byte. -/
structure Copied (m : Mem) (dest src : UInt32) (k : ℕ) (s : Cpu) : Prop where
  mem : s.mem = patch m dest 0 k fun i => m (addr src i)
  edi : s.edi = addr dest k
  esi : s.esi = addr src k

section Copied

variable {m : Mem} {dest src : UInt32} {k n : ℕ} {s : Cpu}

/-- The bytes still to be copied are the original ones. -/
theorem ReadsAhead.unread (h : ReadsAhead dest src n) {i : ℕ} (hk : k ≤ i) (hi : i < n)
    (f : ℕ → UInt8) : patch m dest 0 k f (addr src i) = m (addr src i) :=
  patch_unread fun j _ hj => h i j (by omega) hi

theorem toUInt8_setAl (s : Cpu) (c : UInt8) : (s.setAl c).eax.toUInt8 = c := by
  have hmask : (0xFFFFFF00 : UInt32).toUInt8 = 0 := by decide
  rw [Cpu.setAl, UInt32.toUInt8_or, UInt32.toUInt8_and, UInt8.toUInt8_toUInt32, hmask]
  simp

theorem Copied.byte (h : Copied m dest src k s) (hr : ReadsAhead dest src n) (hk : k < n)
    (hn : n ≤ 2 ^ 32) : Function.update s.mem s.edi (s.mem s.esi) =
      patch m dest 0 (k + 1) fun i => m (addr src i) := by
  rw [h.mem, h.edi, h.esi, hr.unread le_rfl hk]
  exact update_patch_hi (Nat.zero_le k) (by omega) rfl

/-- `rep movsl` upwards: `j` double words are `4 * j` bytes. -/
theorem Copied.movsl (h : Copied m dest src k s) (hr : ReadsAhead dest src n) (hn : n ≤ 2 ^ 32)
    (hdf : s.df = false) {j : ℕ} (hj : k + 4 * j ≤ n) :
    Cpu.movsl^[j] s =
      { s with
        mem := patch m dest 0 (k + 4 * j) fun i => m (addr src i)
        edi := addr dest (k + 4 * j)
        esi := addr src (k + 4 * j) } := by
  induction j with
  | zero => rw [Function.iterate_zero, id, Nat.mul_zero, Nat.add_zero, ← h.mem, ← h.edi, ← h.esi]
  | succ j ih =>
    rw [Function.iterate_succ_apply', ih (by omega), Cpu.movsl, Cpu.stride, hdf]
    have hword : ∀ i < 4, byteOf (load32 (patch m dest 0 (k + 4 * j) fun i => m (addr src i))
        (addr src (k + 4 * j))) i = m (addr src (k + 4 * j + i)) := by
      intro i hi
      rw [byteOf_load32 _ _ hi, addr_addr, hr.unread (by omega) (by omega)]
    have hmem : store32 (patch m dest 0 (k + 4 * j) fun i => m (addr src i))
        (addr dest (k + 4 * j)) (load32 (patch m dest 0 (k + 4 * j) fun i => m (addr src i))
          (addr src (k + 4 * j))) =
        patch m dest 0 (k + 4 * j + 4) fun i => m (addr src i) :=
      patch_append (Nat.zero_le _) (by omega) hword
    have hedi : addr dest (k + 4 * j) + 4 = addr dest (k + 4 * j + 4) := addr_addr dest _ 4
    have hesi : addr src (k + 4 * j) + 4 = addr src (k + 4 * j + 4) := addr_addr src _ 4
    simp only [hmem, hedi, hesi, Bool.false_eq_true, if_false, Nat.mul_add, Nat.mul_one,
      Nat.add_assoc]

theorem memcpy_wordLoop (hr : ReadsAhead dest src n) (hn : n ≤ 2 ^ 32) :
    WordLoop memcpyCode n (Copied m dest src) where
  topDone k s h hpc hecx := by
    obtain ⟨zf, cf, hst⟩ := memcpy_topDone hpc hecx
    exact ⟨_, hst, ⟨h.mem, h.edi, h.esi⟩, rfl⟩
  topByte k s h hpc hecx ha hk := by
    obtain ⟨zf, cf, hst⟩ := memcpy_topByte hpc hecx ha
    rw [toUInt8_setAl, h.byte hr hk hn, h.edi, h.esi, addr_add_one, addr_add_one] at hst
    exact ⟨_, hst, ⟨rfl, rfl, rfl⟩, hpc, rfl⟩
  words k s h hpc hecx ha hk := by
    obtain ⟨t, hst, hmem, hedi, hesi, htcx, hedx, hdf, hpt⟩ := memcpy_words hpc hecx ha
    have ht : Copied m dest src k t := ⟨hmem.trans h.mem, hedi.trans h.edi, hesi.trans h.esi⟩
    have hq : t.ecx.toNat = s.ecx.toNat / 4 := by rw [htcx, toNat_shiftRight_two]
    rw [Cpu.rep, ht.movsl hr hn hdf (by omega), hq] at hst
    exact ⟨_, hst, ⟨rfl, rfl, rfl⟩, congrArg (· + 1) hpt, hedx⟩
  bottomDone k s h hpc hedx := by
    obtain ⟨zf, cf, hst⟩ := memcpy_bottomDone hpc hedx
    exact ⟨_, hst, ⟨h.mem, h.edi, h.esi⟩, rfl⟩
  bottomByte k s h hpc hedx hk := by
    obtain ⟨zf, cf, hst⟩ := memcpy_bottomByte hpc hedx
    rw [toUInt8_setAl, h.byte hr hk hn, h.edi, h.esi, addr_add_one, addr_add_one] at hst
    exact ⟨_, hst, ⟨rfl, rfl, rfl⟩, hpc, rfl⟩

end Copied

/-- The byte loop `for (i = 0; i < n; i++) dest[i] = src[i];`. -/
def copyBytes (m : Mem) (dest src : UInt32) (n : ℕ) : Mem :=
  (List.range n).foldl (fun m i => Function.update m (addr dest i) (m (addr src i))) m

theorem copyBytes_eq {m : Mem} {dest src : UInt32} {k n : ℕ} (hr : ReadsAhead dest src n)
    (hn : n ≤ 2 ^ 32) (hk : k ≤ n) :
    copyBytes m dest src k = patch m dest 0 k fun i => m (addr src i) := by
  induction k with
  | zero => exact (patch_self m dest 0 _).symm
  | succ k ih =>
    rw [copyBytes, List.range_succ, List.foldl_append, ← copyBytes, ih (by omega)]
    refine update_patch_hi (Nat.zero_le k) (by omega) ?_
    exact hr.unread le_rfl hk _

theorem memcpy_copies {dest src n : UInt32} (hr : ReadsAhead dest src n.toNat) (cpu : Cpu) :
    ∃ r, Computes (memcpy · dest src n cpu) (dest, r) ∧
      r.mem = copyBytes cpu.mem dest src n.toNat := by
  have hn : n.toNat ≤ 2 ^ 32 := n.toNat_lt.le
  let start : Cpu := { cpu with esi := src, edi := dest, ecx := n, pc := 0 }
  have h0 : Copied cpu.mem dest src 0 start :=
    ⟨(patch_self ..).symm, (addr_zero dest).symm, (addr_zero src).symm⟩
  obtain ⟨t, hst, ht, hend⟩ := (memcpy_wordLoop hr hn).run h0 rfl (Nat.zero_add _)
  refine ⟨t, (Steps.computes hst hend).map _, ?_⟩
  rw [ht.mem, copyBytes_eq hr hn le_rfl]

/-- Ranges that do not meet. -/
theorem readsAhead_of_disjoint {dest src : UInt32} {n : ℕ} (hd : dest.toNat + n ≤ 2 ^ 32)
    (hs : src.toNat + n ≤ 2 ^ 32)
    (h : src.toNat + n ≤ dest.toNat ∨ dest.toNat + n ≤ src.toNat) : ReadsAhead dest src n := by
  intro i j hji hi heq
  have h' := congrArg UInt32.toNat heq
  rw [toNat_addr (by omega), toNat_addr (by omega)] at h'
  omega

/-- **`memset` and `memcpy` do what byte loops do.** They end for every address, alignment and
count, and change exactly the bytes of the destination. -/
theorem memset_memcpy_bytewise :
    (∀ (s : UInt32) (c : Int32) (n : UInt32) (cpu : Cpu), s.toNat + n.toNat ≤ 2 ^ 32 →
      ∃ r, Computes (memset · s c n cpu) (s, r) ∧
        r.mem = fillBytes cpu.mem s c.toUInt32.toUInt8 n.toNat ∧
        ∀ b, r.mem b = if s.toNat ≤ b.toNat ∧ b.toNat < s.toNat + n.toNat
          then c.toUInt32.toUInt8 else cpu.mem b) ∧
    (∀ (dest src n : UInt32) (cpu : Cpu), dest.toNat + n.toNat ≤ 2 ^ 32 →
      src.toNat + n.toNat ≤ 2 ^ 32 →
      (src.toNat + n.toNat ≤ dest.toNat ∨ dest.toNat + n.toNat ≤ src.toNat) →
      ∃ r, Computes (memcpy · dest src n cpu) (dest, r) ∧
        r.mem = copyBytes cpu.mem dest src n.toNat ∧
        ∀ b, r.mem b = if dest.toNat ≤ b.toNat ∧ b.toNat < dest.toNat + n.toNat
          then cpu.mem (src + (b - dest)) else cpu.mem b) := by
  constructor
  · intro s c n cpu hs
    obtain ⟨r, hr, hmem⟩ := memset_fills s c n cpu
    refine ⟨r, hr, hmem, fun b => ?_⟩
    rw [hmem, fillBytes_eq _ _ _ n.toNat_lt.le, patch_range hs]
  · intro dest src n cpu hd hs hdisj
    have hahead := readsAhead_of_disjoint hd hs hdisj
    obtain ⟨r, hr, hmem⟩ := memcpy_copies hahead cpu
    refine ⟨r, hr, hmem, fun b => ?_⟩
    rw [hmem, copyBytes_eq hahead n.toNat_lt.le le_rfl, patch_range hd, addr_off_of]

/-- A processor whose memory holds at every address the low byte of the address. -/
def counting : Cpu where
  eax := 0
  ecx := 0
  edx := 0
  esi := 0
  edi := 0
  ds := 0x18
  es := 0x18
  zf := false
  cf := false
  df := true
  mem := UInt32.toUInt8
  pc := 0

/-- Nine bytes at an odd address, a fill value beyond a byte; nine bytes between odd addresses. -/
theorem bytewise_nine :
    (∃ r, Computes (memset · 5 0x1FF 9 counting) (5, r) ∧ r.mem 13 = 0xFF ∧ r.mem 14 = 14) ∧
      ∃ r, Computes (memcpy · 5 33 9 counting) (5, r) ∧ r.mem 13 = 41 ∧ r.mem 14 = 14 := by
  obtain ⟨r, hr, -, hmem⟩ := memset_memcpy_bytewise.1 5 0x1FF 9 counting (by decide)
  obtain ⟨r', hr', -, hmem'⟩ := memset_memcpy_bytewise.2 5 33 9 counting (by decide) (by decide)
    (by decide)
  refine ⟨⟨r, hr, ?_, ?_⟩, r', hr', ?_, ?_⟩
  · rw [hmem]
    decide
  · rw [hmem]
    decide
  · rw [hmem']
    decide
  · rw [hmem']
    decide

end Kernel391.LibC

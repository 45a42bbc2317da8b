import Kernel391.MemoryOpsProof

/-!
# `memmove`: both directions, and the direction flag

`memmove` compares the two addresses. With the source at or above the destination it copies
upwards, else downwards from the last byte; in either direction a source byte is read before it can
be overwritten, so the copy is right for every overlap (`memmove_moves`). To go downwards it sets
the direction flag, and nothing behind the copy clears it again.

* `memmove_clean_iff` — the bytes are always moved; the flag is clear on return exactly if the
  copy went upwards.
-/

namespace Kernel391.LibC

open Memory Asm Loop

/-! ## The two ways to `rep movsb` -/

section MemmoveBlocks

variable {s : Cpu}

theorem memmove_up (hpc : s.pc = 0) (h : s.edi ≤ s.esi) :
    ∃ t : Cpu, Steps memmoveCode s (t.rep Cpu.movsb).next ∧ t.mem = s.mem ∧ t.edi = s.edi ∧
      t.esi = s.esi ∧ t.ecx = s.ecx ∧ t.df = false ∧ t.pc = 9 := by
  obtain ⟨eax, ecx, edx, esi, edi, ds, es, zf, cf, df, mem, pc⟩ := s
  subst hpc
  have hc : decide (esi < edi) = false := by simpa using h
  exact ⟨_, .next rfl <| .next rfl <| .next rfl <| .next rfl <| .jae_taken rfl hc <|
    .next rfl <| .next rfl <| .refl _, rfl, rfl, rfl, rfl, rfl, rfl⟩

theorem memmove_down (hpc : s.pc = 0) (h : s.esi < s.edi) :
    ∃ t : Cpu, Steps memmoveCode s (t.rep Cpu.movsb).next ∧ t.mem = s.mem ∧
      t.edi = s.edi + s.ecx - 1 ∧ t.esi = s.esi + s.ecx - 1 ∧ t.ecx = s.ecx ∧ t.df = true ∧
      t.pc = 9 := by
  obtain ⟨eax, ecx, edx, esi, edi, ds, es, zf, cf, df, mem, pc⟩ := s
  subst hpc
  have hc : decide (esi < edi) = true := by simpa using h
  exact ⟨_, .next rfl <| .next rfl <| .next rfl <| .next rfl <| .jae_not rfl hc <|
    .next rfl <| .next rfl <| .next rfl <| .next rfl <| .next rfl <| .refl _, rfl,
    (UInt32.sub_eq_add_neg ..).symm, (UInt32.sub_eq_add_neg ..).symm, rfl, rfl, rfl⟩

end MemmoveBlocks

/-! ## Copying upwards and downwards -/

/-- Going downwards, no source byte is overwritten before it is read. -/
def ReadsBehind (dest src : UInt32) (n : ℕ) : Prop :=
  ∀ i j, i < j → j < n → addr dest j ≠ addr src i

section Directions

variable {m : Mem} {dest src : UInt32} {k n : ℕ} {s : Cpu}

theorem Copied.movsb (h : Copied m dest src 0 s) (hr : ReadsAhead dest src n) (hn : n ≤ 2 ^ 32)
    (hdf : s.df = false) {j : ℕ} (hj : j ≤ n) :
    Cpu.movsb^[j] s =
      { s with
        mem := patch m dest 0 j fun i => m (addr src i)
        edi := addr dest j
        esi := addr src j } := by
  induction j with
  | zero => rw [Function.iterate_zero, id, ← h.mem, ← h.edi, ← h.esi]
  | succ j ih =>
    rw [Function.iterate_succ_apply', ih (by omega), Cpu.movsb, Cpu.stride, hdf]
    have hmem : Function.update (patch m dest 0 j fun i => m (addr src i)) (addr dest j)
        (patch m dest 0 j (fun i => m (addr src i)) (addr src j)) =
        patch m dest 0 (j + 1) fun i => m (addr src i) :=
      update_patch_hi (Nat.zero_le j) (by omega) (hr.unread le_rfl hj _)
    simp only [hmem, Bool.false_eq_true, if_false, addr_add_one]

theorem addr_sub_one (a : UInt32) {i : ℕ} (h : 0 < i) : addr a i - 1 = addr a (i - 1) := by
  obtain ⟨i, rfl⟩ := Nat.exists_eq_succ_of_ne_zero h.ne'
  rw [Nat.succ_eq_add_one, ← addr_add_one, UInt32.add_sub_cancel, Nat.add_sub_cancel]

/-- From the last byte down: after `j` rounds the last `j` bytes are copied. -/
theorem movsb_down (hmem : s.mem = m) (hedi : s.edi = addr dest n - 1)
    (hesi : s.esi = addr src n - 1) (hr : ReadsBehind dest src n) (hn : n ≤ 2 ^ 32)
    (hdf : s.df = true) {j : ℕ} (hj : j ≤ n) :
    Cpu.movsb^[j] s =
      { s with
        mem := patch m dest (n - j) n fun i => m (addr src i)
        edi := addr dest (n - j) - 1
        esi := addr src (n - j) - 1 } := by
  induction j with
  | zero => rw [Function.iterate_zero, id, Nat.sub_zero, patch_self, ← hmem, ← hedi, ← hesi]
  | succ j ih =>
    obtain ⟨i, hi⟩ : ∃ i, n - j = i + 1 := ⟨n - j - 1, by omega⟩
    have hi' : n - (j + 1) = i := by omega
    rw [Function.iterate_succ_apply', ih (by omega), Cpu.movsb, Cpu.stride, hdf, hi, hi',
      addr_sub_one dest (by omega), addr_sub_one src (by omega), Nat.add_sub_cancel]
    have hread : patch m dest (i + 1) n (fun i => m (addr src i)) (addr src i) =
        m (addr src i) :=
      patch_unread fun j hj => hr i j (by omega)
    have hnew : Function.update (patch m dest (i + 1) n fun i => m (addr src i)) (addr dest i)
        (patch m dest (i + 1) n (fun i => m (addr src i)) (addr src i)) =
        patch m dest i n fun i => m (addr src i) :=
      update_patch_lo (by omega) hn hread
    simp only [hnew, if_true, ← UInt32.sub_eq_add_neg]

end Directions

/-! ## The routine -/

variable {dest src n : UInt32}

/-- The copy upwards ends with the direction flag clear. -/
theorem memmove_up_moves (hr : ReadsAhead dest src n.toNat) (h : dest ≤ src) (cpu : Cpu) :
    ∃ r, Computes (memmove · dest src n cpu) (dest, r) ∧
      r.mem = patch cpu.mem dest 0 n.toNat (fun i => cpu.mem (addr src i)) ∧ r.df = false := by
  obtain ⟨t, hst, hmem, hedi, hesi, hecx, hdf, hpc⟩ :=
    memmove_up (s := { cpu with edi := dest, esi := src, ecx := n, pc := 0 }) rfl h
  have ht : Copied cpu.mem dest src 0 t :=
    ⟨hmem.trans (patch_self ..).symm, hedi.trans (addr_zero dest).symm,
      hesi.trans (addr_zero src).symm⟩
  have hn : t.ecx.toNat = n.toNat := congrArg UInt32.toNat hecx
  rw [Cpu.rep, hn, ht.movsb hr n.toNat_lt.le hdf le_rfl] at hst
  have hrun := Steps.computes (s := { cpu with edi := dest, esi := src, ecx := n }) hst
    (congrArg (· + 1) hpc)
  exact ⟨_, hrun.map (dest, ·), rfl, hdf⟩

/-- The copy downwards leaves the direction flag set. -/
theorem memmove_down_moves (hr : ReadsBehind dest src n.toNat) (h : src < dest) (cpu : Cpu) :
    ∃ r, Computes (memmove · dest src n cpu) (dest, r) ∧
      r.mem = patch cpu.mem dest 0 n.toNat (fun i => cpu.mem (addr src i)) ∧ r.df = true := by
  obtain ⟨t, hst, hmem, hedi, hesi, hecx, hdf, hpc⟩ :=
    memmove_down (s := { cpu with edi := dest, esi := src, ecx := n, pc := 0 }) rfl h
  have hlast (a : UInt32) : a + n - 1 = addr a n.toNat - 1 := by rw [addr, UInt32.ofNat_toNat]
  have hn : t.ecx.toNat = n.toNat := congrArg UInt32.toNat hecx
  rw [Cpu.rep, hn, movsb_down hmem (hedi.trans (hlast dest)) (hesi.trans (hlast src)) hr
    n.toNat_lt.le hdf le_rfl, Nat.sub_self] at hst
  have hrun := Steps.computes (s := { cpu with edi := dest, esi := src, ecx := n }) hst
    (congrArg (· + 1) hpc)
  exact ⟨_, hrun.map (dest, ·), rfl, hdf⟩

theorem readsAhead_of_le (hs : src.toNat + n.toNat ≤ 2 ^ 32) (h : dest ≤ src) :
    ReadsAhead dest src n.toNat := by
  intro i j hji hi heq
  have h' := congrArg UInt32.toNat heq
  rw [UInt32.le_iff_toNat_le] at h
  rw [toNat_addr (by omega), toNat_addr (by omega)] at h'
  omega

theorem readsBehind_of_lt (hd : dest.toNat + n.toNat ≤ 2 ^ 32) (h : src < dest) :
    ReadsBehind dest src n.toNat := by
  intro i j hij hj heq
  have h' := congrArg UInt32.toNat heq
  rw [UInt32.lt_iff_toNat_lt] at h
  rw [toNat_addr (by omega), toNat_addr (by omega)] at h'
  omega

/-- `r` has at `dest` what `m` had at `src`, and is as `m` elsewhere. -/
def Moved (m : Mem) (dest src n : UInt32) (r : Mem) : Prop :=
  ∀ b, r b = if dest.toNat ≤ b.toNat ∧ b.toNat < dest.toNat + n.toNat
    then m (src + (b - dest)) else m b

/-- **`memmove` is right for every overlap**, and leaves the direction flag set exactly if it
copied downwards. -/
theorem memmove_moves (hs : src.toNat + n.toNat ≤ 2 ^ 32) (hd : dest.toNat + n.toNat ≤ 2 ^ 32)
    (cpu : Cpu) : ∃ r, Computes (memmove · dest src n cpu) (dest, r) ∧
      Moved cpu.mem dest src n r.mem ∧ r.df = decide (src < dest) := by
  have hmoved {r : Mem} (h : r = patch cpu.mem dest 0 n.toNat fun i => cpu.mem (addr src i)) :
      Moved cpu.mem dest src n r := by
    intro b
    rw [h, patch_range hd, addr_off_of]
  by_cases h : dest ≤ src
  · obtain ⟨r, hr, hmem, hdf⟩ := memmove_up_moves (readsAhead_of_le hs h) h cpu
    exact ⟨r, hr, hmoved hmem, by rw [hdf, decide_eq_false (UInt32.not_lt.2 h)]⟩
  · have h : src < dest := UInt32.not_le.1 h
    obtain ⟨r, hr, hmem, hdf⟩ := memmove_down_moves (readsBehind_of_lt hd h) h cpu
    exact ⟨r, hr, hmoved hmem, by rw [hdf, decide_eq_true h]⟩

/-- The bytes are moved and the direction flag is clear on return, as compiled code and the string
instructions that follow expect. -/
def MovesClean (dest src n : UInt32) (cpu : Cpu) : Prop :=
  ∃ r, Computes (memmove · dest src n cpu) (dest, r) ∧ Moved cpu.mem dest src n r.mem ∧
    r.df = false

theorem movesClean_iff (hs : src.toNat + n.toNat ≤ 2 ^ 32) (hd : dest.toNat + n.toNat ≤ 2 ^ 32)
    (cpu : Cpu) : MovesClean dest src n cpu ↔ dest ≤ src := by
  obtain ⟨r, hr, hmoved, hdf⟩ := memmove_moves hs hd cpu
  constructor
  · rintro ⟨r', hr', -, hdf'⟩
    obtain rfl : r = r' := congrArg Prod.snd (hr.unique hr')
    rw [hdf, decide_eq_false_iff_not] at hdf'
    exact UInt32.not_lt.1 hdf'
  · intro h
    exact ⟨r, hr, hmoved, by rw [hdf, decide_eq_false (UInt32.not_lt.2 h)]⟩

/-- The bytes are moved whatever the overlap; with a clear direction flag on return exactly if the
destination is not above the source. -/
theorem memmove_clean_iff (dest src n : UInt32) (cpu : Cpu)
    (hs : src.toNat + n.toNat ≤ 2 ^ 32) (hd : dest.toNat + n.toNat ≤ 2 ^ 32) :
    (∃ r, Computes (memmove · dest src n cpu) (dest, r) ∧ Moved cpu.mem dest src n r.mem) ∧
      (MovesClean dest src n cpu ↔ dest ≤ src) := by
  obtain ⟨r, hr, hmoved, -⟩ := memmove_moves hs hd cpu
  exact ⟨⟨r, hr, hmoved⟩, movesClean_iff hs hd cpu⟩

/-- Nine bytes moved down by three addresses. -/
theorem memmove_clean_nine : MovesClean 2 5 9 counting :=
  (memmove_clean_iff 2 5 9 counting (by decide) (by decide)).2.2 (by decide)

/-- Nine bytes moved up by three addresses: the bytes arrive, the flag stays set. -/
theorem memmove_up_by_three : ¬ MovesClean 5 2 9 counting := fun h =>
  absurd ((movesClean_iff (by decide) (by decide) counting).1 h) (by decide)

end Kernel391.LibC

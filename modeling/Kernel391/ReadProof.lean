import Kernel391.DirectoryProof
import Kernel391.ReadDataProof

/-!
# Reads and the caller's buffer

A read of `nbytes` may store into `buf[0 .. nbytes)` only, may return at most `nbytes`, and what
it returns is the number of bytes it delivered (`ReadContract`).

`read_contract` says for every descriptor when it does so. `dir_read` always does. `terminal_read`
computes how much of the line fits and then copies all of it; `fs_read` passes a negative count on
to `read_data`, which takes it for one above 2^31.
-/

namespace Kernel391

open Bytes

/-- What there is to read through `fd`: the line at the keyboard and its newline, the rest of the
file, or the name of the directory entry. -/
def readSource (im : Image) (curr : Nat) (fd : Int) (k : Kernel) : List UInt8 :=
  let d := (k.pcbMem curr).fdArray fd.toNat
  if fd = 0 then
    slice (k.terminalbuffer k.currentTerm) 0 (k.numberofchars k.currentTerm) ++ [newline]
  else if d.ftype = ftypeRegular then
    slice (fileByte im d.inodeNum) d.filePos.toNat (readLimit im d.inodeNum - d.filePos.toNat)
  else if d.ftype = 1 then im.entryName (UInt32.ofInt d.filePos).toNat
  else []

/-- A read that keeps to the caller's buffer. -/
structure ReadContract (source : List UInt8) (b b' : Buf) (nbytes ret : Int) : Prop where
  stores : ∀ i : Nat, nbytes ≤ i → b' i = b i
  bounded : ret ≤ max nbytes 0
  data : 0 < ret → ret.toNat ≤ source.length ∧ slice b' 0 ret.toNat = source.take ret.toNat

/-- When it does: a line fits with its newline, and what is left of a file is not asked for with a
negative count. -/
def BufferFits (im : Image) (curr : Nat) (fd nbytes : Int) (k : Kernel) : Prop :=
  let d := (k.pcbMem curr).fdArray fd.toNat
  (fd = 0 → k.numberofchars k.currentTerm + 1 ≤ nbytes) ∧
  (2 ≤ fd → d.ftype = ftypeRegular →
    0 ≤ nbytes ∨ ¬ (0 ≤ d.filePos ∧ d.filePos < readLimit im d.inodeNum))

variable {source : List UInt8} {b : Buf} {nbytes ret : Int}

/-- A read that stores nothing and returns no count. -/
theorem ReadContract.nothing (h : ret ≤ 0) : ReadContract source b b nbytes ret where
  stores _ _ := rfl
  bounded := by omega
  data hpos := absurd hpos (by omega)

/-- A read that stores a prefix of what there is, and returns its length. -/
theorem ReadContract.prefix_ {src : Buf} {n m : Nat} (hsrc : source = slice src 0 n)
    (hn : m ≤ n) (hm : (m : Int) ≤ max nbytes 0) :
    ReadContract source b (store b 0 src m) nbytes m where
  stores i hi := store_of_not (.inr (by omega))
  bounded := hm
  data hpos := by
    rw [Int.toNat_natCast, hsrc, length_slice, slice_store, slice_take, Nat.min_eq_left hn]
    exact ⟨hn, rfl⟩

/-! ## The keyboard -/

/-- `terminal_read` of a line of `n` characters writes `n + 1` bytes, however long the buffer
is. -/
theorem terminalRead_contract {k : Kernel} (hflag : k.flags k.currentTerm = true)
    (hn : nbytes < 2 ^ 31) :
    ∃ ret b' k', terminalRead b nbytes k = some (ret, b', k') ∧
      (ReadContract (slice (k.terminalbuffer k.currentTerm) 0 (k.numberofchars k.currentTerm) ++
        [newline]) b b' nbytes ret ↔ k.numberofchars k.currentTerm + 1 ≤ nbytes) := by
  refine ⟨_, _, _, if_pos hflag, fun h => ?_, fun h => ⟨fun i hi => ?_, ?_, fun _ => ?_⟩⟩
  · have := h.bounded
    omega
  · have hzero : (UInt32.ofInt nbytes).toNat = nbytes.toNat := toNat_ofInt (by omega) hn
    rw [Function.update_of_ne (by omega), store_of_not (.inr (by omega)), zeroBuffer,
      store_of_not (.inr (by omega))]
  · omega
  · have hret : ((k.numberofchars k.currentTerm : Int) + 1).toNat =
        k.numberofchars k.currentTerm + 1 := by omega
    rw [hret, List.take_of_length_le (by simp), slice_succ, Nat.zero_add, Function.update_self]
    refine ⟨by simp, congrArg (· ++ [newline]) (slice_congr fun i hi => ?_)⟩
    rw [Function.update_of_ne (by omega), store_of_lt (by omega) (by omega)]
    rfl

/-! ## Files -/

/-- `read_data` as `fs_read` calls it, at a position before the end of the file. It takes the
position and the count as unsigned numbers. -/
theorem readData_contract {im : Image} {inode : UInt32} {pos : Int}
    (hpos : -2 ^ 31 ≤ pos ∧ pos < 2 ^ 31) (hn : -2 ^ 31 ≤ nbytes ∧ nbytes < 2 ^ 31)
    (h0 : nbytes ≠ 0) (hend : pos < getFilesize im inode) :
    ∃ ret b', readData im inode (UInt32.ofInt pos) (some b) (UInt32.ofInt nbytes) =
        (ret, some b') ∧
      (ReadContract (slice (fileByte im inode) pos.toNat (readLimit im inode - pos.toNat)) b b'
        nbytes ret ↔ (0 ≤ nbytes ∨ ¬ (0 ≤ pos ∧ pos < readLimit im inode))) := by
  have hne := ofInt_ne_zero hn.1 hn.2 h0
  have hmax := readable_le im inode
  by_cases hoff : (UInt32.ofInt pos).toNat ≤ readable im inode
  · have hnonneg : 0 ≤ pos := by
      by_contra hc
      have := toNat_ofInt_neg hpos.1 (Int.not_le.1 hc)
      omega
    have hidx := toNat_ofInt hnonneg hpos.2
    rcases getFilesize_cases im inode with ⟨hino, -, -, hl⟩ | ⟨hneg, -⟩
    · have hsrc (n : Nat) : slice (fileByte im inode) pos.toNat n =
          slice (fun i => im.byte (byteAddr im inode ((UInt32.ofInt pos).toNat + i))) 0 n :=
        slice_congr fun i _ => by
          rw [hidx, Nat.zero_add]
          rfl
      refine ⟨_, _, readData_accepted hne hino hoff, fun h => ?_, fun h =>
        ReadContract.prefix_ (hsrc _) ?_ ?_⟩
      · have hb := h.bounded
        simp only [wanted, hidx] at hb
        by_contra hc
        have := toNat_ofInt_neg hn.1 (by omega)
        omega
      · simp only [wanted, hidx]
        omega
      · simp only [wanted, hidx]
        rcases h with h | h
        · have := toNat_ofInt h hn.2
          omega
        · omega
    · omega
  · -- a position that `read_data` refuses: negative, or past what can be read
    refine ⟨_, _, readData_refused (.inr (.inr (by omega))),
      iff_of_true (.nothing (by omega)) (.inr fun hc => ?_)⟩
    have := toNat_ofInt hc.1 hpos.2
    have := readLimit_le im inode
    omega

/-- `fs_read` with a negative count reads all that is left. -/
theorem fsRead_contract {im : Image} {fd : Nat} {p : Pcb}
    (ht : (p.fdArray fd).ftype = ftypeRegular)
    (hpos : -2 ^ 31 ≤ (p.fdArray fd).filePos ∧ (p.fdArray fd).filePos < 2 ^ 31)
    (hn : -2 ^ 31 ≤ nbytes ∧ nbytes < 2 ^ 31) :
    ∃ ret b' p', fsRead im fd (some b) nbytes p = (ret, some b', p') ∧
      (ReadContract (slice (fileByte im (p.fdArray fd).inodeNum) (p.fdArray fd).filePos.toNat
        (readLimit im (p.fdArray fd).inodeNum - (p.fdArray fd).filePos.toNat)) b b' nbytes ret ↔
      (0 ≤ nbytes ∨ ¬ (0 ≤ (p.fdArray fd).filePos ∧
        (p.fdArray fd).filePos < readLimit im (p.fdArray fd).inodeNum))) := by
  by_cases h0 : nbytes = 0
  · exact ⟨_, _, _, fsRead_stops ht (.inl h0),
      iff_of_true (.nothing (by omega)) (.inl (by omega))⟩
  by_cases hend : getFilesize im (p.fdArray fd).inodeNum ≤ (p.fdArray fd).filePos
  · have hlim : (readLimit im (p.fdArray fd).inodeNum : Int) ≤
        max (getFilesize im (p.fdArray fd).inodeNum) 0 := by
      have hread : readable im (p.fdArray fd).inodeNum ≤
        fileSize im (p.fdArray fd).inodeNum := Nat.min_le_left _ _
      rcases getFilesize_cases im (p.fdArray fd).inodeNum with ⟨-, -, hget, hl⟩ | ⟨-, hl⟩ <;> omega
    exact ⟨_, _, _, fsRead_stops ht (.inr hend),
      iff_of_true (.nothing (by omega)) (.inr (by omega))⟩
  obtain ⟨ret, b', hread, hiff⟩ := @readData_contract b nbytes im (p.fdArray fd).inodeNum
    (p.fdArray fd).filePos hpos hn h0 (Int.not_le.1 hend)
  exact ⟨ret, b', _, fsRead_reads ht h0 (Int.not_le.1 hend) hread, hiff⟩

/-! ## Directories -/

/-- `dir_read` keeps to the buffer: its loop counts to `nbytes` as a signed number. -/
theorem dirRead_contract {im : Image} {fd : Nat} {p : Pcb} (hfd : 2 ≤ fd ∧ fd ≤ 7) :
    ∃ ret b' p', dirRead im fd b nbytes p = (ret, b', p') ∧
      ReadContract (im.entryName (UInt32.ofInt (p.fdArray fd).filePos).toNat) b b' nbytes ret := by
  generalize hidx : (UInt32.ofInt (p.fdArray fd).filePos).toNat = pos
  by_cases hin : pos < im.dirEntries.toNat ∧ pos < 63
  · rcases Int.lt_or_le 0 nbytes with hn | hn
    · by_cases hname : im.entryName pos = []
      · -- an empty name: one byte is stored, none is counted
        obtain ⟨n, hn'⟩ : ∃ n, nbytes.toNat = n + 1 := ⟨nbytes.toNat - 1, by omega⟩
        rw [dirRead_found hfd hidx hin.1 hin.2, hname, hn', List.length_nil, dirCopy,
          if_pos (by omega)]
        refine ⟨_, _, _, rfl, ⟨fun i hi => ?_, ?_, fun h => absurd h (Int.lt_irrefl 0)⟩⟩
        · exact Function.update_of_ne (by omega) _ _
        · exact Int.le_max_right nbytes 0
      · obtain ⟨b', hread, hslice, hrest⟩ := dirRead_entry hfd hidx hin.1 hin.2 hname hn b
        refine ⟨_, _, _, hread, ⟨fun i hi => hrest i (by omega), by omega, fun _ => ?_⟩⟩
        have hret : (min nbytes ((im.entryName pos).length : Int)).toNat =
            min nbytes.toNat (im.entryName pos).length := by omega
        rw [hret, hslice, List.take_eq_take_iff]
        omega
    · rw [dirRead_found hfd hidx hin.1 hin.2, Int.toNat_of_nonpos hn]
      exact ⟨_, _, _, rfl, .nothing hn⟩
  · exact ⟨_, _, _, dirRead_end hfd hidx (by omega) b, .nothing (by omega)⟩

/-! ## The system call -/

/-- **When a read keeps to the caller's buffer.** -/
theorem read_contract {im : Image} {curr : Nat} {fd nbytes : Int} {b : Buf} {k : Kernel}
    (h : FdInv (k.pcbMem curr)) (hopen : (k.pcbMem curr).Open fd)
    (hline : fd = 0 → k.flags k.currentTerm = true)
    (hpos : -2 ^ 31 ≤ ((k.pcbMem curr).fdArray fd.toNat).filePos ∧
      ((k.pcbMem curr).fdArray fd.toNat).filePos < 2 ^ 31)
    (hn : -2 ^ 31 ≤ nbytes ∧ nbytes < 2 ^ 31) :
    ∃ ret b' k', sysRead im curr fd (some b) nbytes k = .returned (ret, some b', k') ∧
      (ReadContract (readSource im curr fd k) b b' nbytes ret ↔
        BufferFits im curr fd nbytes k) := by
  rcases h.of_open hopen with ⟨rfl, htab⟩ | ⟨rfl, -⟩ | ⟨h2, h7, ht, htab⟩
  · rw [sysRead_of_open _ (by decide) hopen, htab]
    obtain ⟨ret, b', k', hread, hiff⟩ := terminalRead_contract (b := b) (hline rfl) hn.2
    refine ⟨ret, b', k', ?_, ?_⟩
    · change callRead im curr 0 b nbytes k (some (.terminal .read)) = _
      rw [callRead, hread]
    · rw [readSource, if_pos rfl, hiff]
      exact ⟨fun h => ⟨fun _ => h, fun h2 => absurd h2 (by decide)⟩, fun h => h.1 rfl⟩
  · refine ⟨-1, b, k, sysRead_of_bad (.inl rfl), iff_of_true (.nothing (by omega))
      ⟨fun hc => absurd hc (by decide), fun hc => absurd hc (by decide)⟩⟩
  · have hne : fd ≠ fdStdout := by
      rw [fdStdout]
      omega
    have h0 : fd ≠ 0 := by omega
    have hfd : 2 ≤ fd.toNat ∧ fd.toNat ≤ 7 := by omega
    rw [sysRead_of_open _ hne hopen, htab]
    rcases entry_tableOf ((k.pcbMem curr).fdArray fd.toNat).ftype .read with
      ⟨hty, hent⟩ | ⟨hty, hent⟩ | ⟨hn0, hn1, hent⟩ <;> rw [hent]
    · refine ⟨0, b, k, rfl, iff_of_true (.nothing (by omega))
        ⟨fun hc => absurd hc h0, fun _ hc => ?_⟩⟩
      rw [hty] at hc
      exact absurd hc (by decide)
    · obtain ⟨ret, b', p', hread, hcon⟩ :=
        @dirRead_contract b nbytes im fd.toNat (k.pcbMem curr) hfd
      refine ⟨ret, b', k.setPcb curr p', ?_, iff_of_true ?_
        ⟨fun hc => absurd hc h0, fun _ hc => ?_⟩⟩
      · rw [callRead, hread]
      · rw [readSource, if_neg h0, if_neg (by rw [hty]; decide), if_pos hty]
        exact hcon
      · rw [hty] at hc
        exact absurd hc (by decide)
    · have hreg : ((k.pcbMem curr).fdArray fd.toNat).ftype = ftypeRegular := by
        apply UInt8.toNat_inj.1
        have h₀ := mt UInt8.toNat_inj.1 hn0
        have h₁ := mt UInt8.toNat_inj.1 hn1
        have h₂ : ((k.pcbMem curr).fdArray fd.toNat).ftype.toNat ≤ 2 := UInt8.le_iff_toNat_le.1 ht
        change _ = 2
        change ¬ _ = 0 at h₀
        change ¬ _ = 1 at h₁
        omega
      obtain ⟨ret, b', p', hread, hiff⟩ := fsRead_contract (b := b) hreg hpos hn
      refine ⟨ret, b', k.setPcb curr p', ?_, ?_⟩
      · rw [callRead, hread]
      · rw [readSource, if_neg h0, if_pos hreg, hiff]
        exact ⟨fun h => ⟨fun hc => absurd hc h0, fun _ _ => h⟩, fun h => h.2 h2 hreg⟩

/-- A process with only standard input and output, and `aaaaa` entered at its terminal. -/
def lineKernel : Kernel :=
  { (default : Kernel) with
    pcbMem := fun _ => setUpStdout (setUpStdin default)
    flags := fun _ => true
    numberofchars := fun _ => 5
    terminalbuffer := fun _ _ => 97 }

theorem fdInv_lineKernel : FdInv (lineKernel.pcbMem 0) where
  stdin := ⟨rfl, rfl⟩
  stdout := ⟨rfl, rfl⟩
  slots i h2 _ := .inl (by
    change ((setUpStdout (setUpStdin default)).fdArray i).inUse = notinuse
    rw [setUpStdout, Pcb.setFd_of_ne (by omega), setUpStdin, Pcb.setFd_of_ne (by omega)]
    rfl)

/-- A read of the line into 128 bytes keeps to the contract. -/
theorem read_contract_line : ∃ ret b' k',
    sysRead shellImage 0 0 (some fun _ => 1) 128 lineKernel = .returned (ret, some b', k') ∧
    ReadContract [97, 97, 97, 97, 97, 10] (fun _ => 1) b' 128 ret := by
  obtain ⟨ret, b', k', hread, hiff⟩ := @read_contract shellImage 0 0 128 (fun _ => 1) lineKernel
    fdInv_lineKernel ⟨by decide, by decide, rfl⟩ (fun _ => rfl) (by decide) (by decide)
  exact ⟨ret, b', k', hread, hiff.2
    ⟨fun _ => by decide, fun hc => absurd hc (by decide)⟩⟩

/-- A read of it into two bytes returns 6, and stores six. -/
theorem read_contract_short : ∃ b' k',
    sysRead shellImage 0 0 (some fun _ => 1) 2 lineKernel = .returned (6, some b', k') ∧
    b' 5 = newline ∧ ¬ ReadContract [97, 97, 97, 97, 97, 10] (fun _ => 1) b' 2 6 := by
  refine ⟨_, _, rfl, rfl, fun h => ?_⟩
  have hb := h.bounded
  exact absurd hb (by decide)

end Kernel391

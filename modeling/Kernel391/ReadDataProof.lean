import Kernel391.Lib.Driven
import Kernel391.StreamProof

/-!
# `read_data` and `fs_read`, on good and on bad images

* `read_data_slice` — on a good file, `read_data` stores exactly a slice of the concatenation
  of its blocks.
* `StaysInside`, `read_data_stays_inside` — when `read_data` keeps to the inodes and the data
  blocks the header announces: the code compares the inode number with the constant 64, lets 64
  itself pass, and never looks at the number of data blocks. `inodeWords` lists the words it loads,
  and `readData_congr` says that the list is complete.
* `reads_end` — on any image whatever, reading a file from its first byte on comes to an end.
-/

namespace Kernel391

open Bytes Driven

/-! ## The contents of a file -/

/-- The concatenation of the data blocks that cover the file, in the order the inode lists
them. -/
def fileContents (im : Image) (inode : UInt32) : List UInt8 :=
  (List.range ((fileSize im inode + 4095) / 4096)).flatMap fun j =>
    slice (blockData im inode (UInt32.ofNat j)) 0 4096

theorem blocks_eq_slice (im : Image) (inode : UInt32) (n : Nat) :
    ((List.range n).flatMap fun j => slice (blockData im inode (UInt32.ofNat j)) 0 4096) =
      slice (fileByte im inode) 0 (4096 * n) := by
  induction n with
  | zero => simp
  | succ n ih =>
    have hlast : slice (blockData im inode (UInt32.ofNat n)) 0 4096 =
        slice (fileByte im inode) (0 + 4096 * n) 4096 := by
      apply slice_congr
      intro i hi
      rw [fileByte, show (0 + 4096 * n + i) / 4096 = n by omega,
        show (0 + 4096 * n + i) % 4096 = 0 + i by omega]
    rw [List.range_succ, List.flatMap_append, ih, List.flatMap_singleton, hlast, ← slice_add]
    congr 1

theorem fileContents_slice (im : Image) (inode : UInt32) {off n : Nat}
    (h : off + n ≤ fileSize im inode) :
    ((fileContents im inode).drop off).take n = slice (fileByte im inode) off n := by
  rw [fileContents, blocks_eq_slice, slice_drop, slice_take, Nat.zero_add]
  congr 1
  omega

/-- **`read_data` returns the exact slice.** Past the end of the file it fails and stores
nothing; otherwise it returns the smaller of what was asked for and what is left, stores that
part of the file's blocks, and nothing else. -/
theorem read_data_slice {im : Image} {inode offset length : UInt32} {buf : Buf}
    (hfile : im.GoodFile inode) (hlen : 1 ≤ length.toNat) :
    (fileSize im inode < offset.toNat →
      readData im inode offset (some buf) length = (-1, some buf)) ∧
    (offset.toNat ≤ fileSize im inode → ∃ buf' : Buf,
      let n := min length.toNat (fileSize im inode - offset.toNat)
      readData im inode offset (some buf) length = (↑n, some buf') ∧
      slice buf' 0 n = ((fileContents im inode).drop offset.toNat).take n ∧
      ∀ i, n ≤ i → buf' i = buf i) := by
  have hne : length ≠ 0 := by
    rintro rfl
    exact absurd hlen (by decide)
  have hlt := hfile.lt_max
  have hread := readData_eq im inode offset length buf (by omega) hfile.size_le hne
  refine ⟨fun hoff => ?_, fun hoff => ?_⟩
  · rw [hread, if_neg (Nat.not_le.2 hoff)]
  · rw [if_pos hoff] at hread
    refine ⟨_, hread, ?_, fun i hi => store_of_not (.inr (by omega))⟩
    rw [fileContents_slice im inode (by omega), slice_store]
    exact slice_congr fun i _ => by rw [Nat.zero_add]

theorem goodFile_shellImage : shellImage.GoodFile 1 := by
  have htype : (shellImage.entryType 1).toUInt8 = ftypeRegular := by decide +kernel
  have hname : shellImage.entryName 1 ≠ [] := by decide +kernel
  have hinode : shellImage.entryInode 1 = 1 := by decide +kernel
  exact hinode ▸ filesOk_shellImage 1 (by decide) hname htype

/-- The last four of forty bytes. -/
theorem read_data_slice_shell : ∃ buf' : Buf,
    readData shellImage 1 36 (some fun _ => 1) 100 = (4, some buf') ∧
    slice buf' 0 4 = ((fileContents shellImage 1).drop 36).take 4 ∧ buf' 4 = 1 := by
  have hsize : fileSize shellImage 1 = 40 := by decide +kernel
  obtain ⟨buf', h₁, h₂, h₃⟩ := (@read_data_slice shellImage 1 36 100 (fun _ => 1)
    goodFile_shellImage (by decide)).2 (by rw [hsize]; decide)
  rw [hsize] at h₁ h₂ h₃
  exact ⟨buf', h₁, h₂, h₃ 4 (by decide)⟩

/-! ## Which inodes and blocks are read -/

/-- Where byte `k` of a file lies. -/
def byteAddr (im : Image) (inode : UInt32) (k : Nat) : Nat :=
  blockAddr im (blockIndex im inode (UInt32.ofNat (k / 4096))) + k % 4096

/-- The word at `p` belongs to one of the inodes the header announces. -/
def Image.InInodes (im : Image) (p : Nat) : Prop :=
  ∃ i : UInt32, i.toNat < im.numInodes.toNat ∧ inodeAddr i ≤ p ∧ p + 4 ≤ inodeAddr i + 4096

/-- The byte at `p` belongs to one of the data blocks the header announces. -/
def Image.InDblocks (im : Image) (p : Nat) : Prop :=
  ∃ b : UInt32, b.toNat < im.numDblocks.toNat ∧ blockAddr im b ≤ p ∧ p < blockAddr im b + 4096

/-- How many bytes there are to copy. -/
def wanted (im : Image) (inode offset length : UInt32) : Nat :=
  min length.toNat (readable im inode - offset.toNat)

/-- A call that never leaves the image. -/
structure StaysInside (im : Image) (inode offset length : UInt32) (buf : Buf) : Prop where
  /-- An inode, or a block to copy from, that the image does not have makes the call fail. -/
  refuses : im.numInodes.toNat ≤ inode.toNat ∨
    (∃ k, offset.toNat ≤ k ∧ k < offset.toNat + wanted im inode offset length ∧
      im.numDblocks.toNat ≤ (blockIndex im inode (UInt32.ofNat (k / 4096))).toNat) →
    (readData im inode offset (some buf) length).1 = -1
  /-- The bytes copied lie in data blocks of the image. -/
  copies : ∀ n : Nat, (readData im inode offset (some buf) length).1 = n →
    (readData im inode offset (some buf) length).2 =
      some (store buf 0 (fun i => im.byte (byteAddr im inode (offset.toNat + i))) n) ∧
    ∀ i < n, im.InDblocks (byteAddr im inode (offset.toNat + i))
  /-- The words loaded lie in inodes of the image, also when the call fails. -/
  words : ∀ p ∈ inodeWords im inode offset length, im.InInodes p

/-- The calls that do: those the code refuses before it looks at the inode, and those on an inode
the image has, which are refused for their offset or whose listed blocks it has too. A range that
ends with the last byte of the format makes the code look one word past the inode, which must be
another inode. -/
def RangeInside (im : Image) (inode offset length : UInt32) : Prop :=
  length = 0 ∨ 64 < inode.toNat ∨ 1023 * 4096 < offset.toNat ∨
  (inode.toNat < im.numInodes.toNat ∧ (fileSize im inode < offset.toNat ∨
    (∀ k, offset.toNat ≤ k → k < offset.toNat + wanted im inode offset length →
      (blockIndex im inode (UInt32.ofNat (k / 4096))).toNat < im.numDblocks.toNat) ∧
    (offset.toNat + wanted im inode offset length = 1023 * 4096 →
      inode.toNat + 1 < im.numInodes.toNat)))

variable {im im' : Image} {inode offset length : UInt32} {buf : Buf}

/-- What the code refuses. -/
theorem readData_refused (h : length = 0 ∨ 64 < inode.toNat ∨ readable im inode < offset.toNat) :
    readData im inode offset (some buf) length = (-1, some buf) := by
  by_cases hlen : length = 0
  · simp [readData, hlen]
  · have hcond : ¬ (inode.toNat ≤ 64 ∧ offset.toNat ≤ readable im inode) := by
      rcases h with h | h | h
      · exact absurd h hlen
      · exact fun hc => absurd hc.1 (Nat.not_le.2 h)
      · exact fun hc => absurd hc.2 (Nat.not_le.2 h)
    rw [readData_spec _ _ _ _ _ hlen, if_neg hcond]

/-- What it does otherwise. -/
theorem readData_accepted (hlen : length ≠ 0) (hinode : inode.toNat ≤ 64)
    (hoff : offset.toNat ≤ readable im inode) :
    readData im inode offset (some buf) length = (↑(wanted im inode offset length),
      some (store buf 0 (fun i => im.byte (byteAddr im inode (offset.toNat + i)))
        (wanted im inode offset length))) := by
  rw [readData_spec _ _ _ _ _ hlen, if_pos ⟨hinode, hoff⟩]
  rfl

theorem readable_le (im : Image) (inode : UInt32) : readable im inode ≤ 1023 * 4096 :=
  Nat.min_le_right _ _

/-- The block list is loaded from the first to the last block of the range. -/
theorem mem_blockWords {len : UInt32} {p : Nat} (h : offset.toNat + len.toNat < 4294967296) :
    p ∈ blockWords inode offset len ↔ ∃ j, offset.toNat / 4096 ≤ j ∧
      j ≤ (offset.toNat + len.toNat) / 4096 ∧ p = inodeAddr inode + 4 + 4 * j := by
  have hstart := toNat_div_fsBlockSize offset
  have hend : ((offset + len) / fsBlockSize).toNat = (offset.toNat + len.toNat) / 4096 := by
    rw [toNat_div_fsBlockSize, toNat_add_of_lt h]
  have hle : offset.toNat / 4096 ≤ (offset.toNat + len.toNat) / 4096 :=
    Nat.div_le_div_right (Nat.le_add_right _ _)
  simp only [blockWords, List.mem_append, List.mem_cons, List.not_mem_nil, or_false, hstart, hend]
  split_ifs with hone
  · have heq : offset.toNat / 4096 = (offset.toNat + len.toNat) / 4096 := by
      rw [← hstart, hone, hend]
    rw [List.mem_nil_iff, or_false, ← heq, or_self]
    constructor
    · rintro rfl
      exact ⟨_, le_rfl, le_rfl, rfl⟩
    · rintro ⟨j, h₁, h₂, rfl⟩
      rw [le_antisymm h₂ h₁]
  · have hsub : ((offset + len) / fsBlockSize - offset / fsBlockSize).toNat =
        (offset.toNat + len.toNat) / 4096 - offset.toNat / 4096 := by
      rw [toNat_sub_of_le (by rw [hstart, hend]; exact hle), hstart, hend]
    have hindex {n : Nat} (hn : offset.toNat / 4096 + n ≤ (offset.toNat + len.toNat) / 4096) :
        (offset / fsBlockSize + UInt32.ofNat n).toNat = offset.toNat / 4096 + n := by
      have hnat : (UInt32.ofNat n).toNat = n := toNat_ofNat_of_lt (by omega)
      rw [toNat_add_of_lt (by rw [hstart, hnat]; omega), hstart, hnat]
    rw [List.mem_map, hsub]
    constructor
    · rintro ((rfl | rfl) | ⟨n, hn, rfl⟩)
      · exact ⟨_, le_rfl, hle, rfl⟩
      · exact ⟨_, hle, le_rfl, rfl⟩
      · rw [List.mem_range] at hn
        exact ⟨offset.toNat / 4096 + n, by omega, by omega, by rw [hindex (by omega)]⟩
    · rintro ⟨j, h₁, h₂, rfl⟩
      refine .inr ⟨j - offset.toNat / 4096, List.mem_range.2 (by omega), ?_⟩
      rw [hindex (by omega)]
      omega

/-- What the code refuses at once. -/
theorem inodeWords_early (h : length = 0 ∨ 64 < inode.toNat ∨ 1023 * 4096 < offset.toNat) :
    inodeWords im inode offset length = [] := by
  unfold inodeWords
  by_cases hlen : length = 0
  · rw [if_pos hlen]
  by_cases hoff : offset > maxFileSize
  · rw [if_neg hlen, if_pos hoff]
  · rw [if_neg hlen, if_neg hoff, if_pos]
    rw [gt_numInodesMax]
    rw [gt_maxFileSize] at hoff
    rcases h with h | h | h
    · exact absurd h hlen
    · omega
    · omega

theorem inodeWords_size (hlen : length ≠ 0) (hinode : inode.toNat ≤ 64)
    (hmax : offset.toNat ≤ 1023 * 4096) (hoff : fileSize im inode < offset.toNat) :
    inodeWords im inode offset length = [inodeAddr inode] := by
  have hmax' : ¬ offset > maxFileSize := mt gt_maxFileSize.1 (Nat.not_lt.2 hmax)
  have hinode' : ¬ inode > numInodesMax := mt gt_numInodesMax.1 (not_not_intro hinode)
  have hsize : im.word (inodeAddr inode) < offset := UInt32.lt_iff_toNat_lt.2 hoff
  simp only [inodeWords, if_neg hlen, if_neg hmax', if_neg hinode', if_pos hsize]

theorem mem_inodeWords (hlen : length ≠ 0) (hinode : inode.toNat ≤ 64)
    (hoff : offset.toNat ≤ readable im inode) {p : Nat} :
    p ∈ inodeWords im inode offset length ↔ p = inodeAddr inode ∨
      ∃ j, offset.toNat / 4096 ≤ j ∧ j ≤ (offset.toNat + wanted im inode offset length) / 4096 ∧
        p = inodeAddr inode + 4 + 4 * j := by
  have hread : readable im inode = min (im.word (inodeAddr inode)).toNat 4190208 := rfl
  have hmax : ¬ offset > maxFileSize := mt gt_maxFileSize.1 (by omega)
  have hinode' : ¬ inode > numInodesMax := mt gt_numInodesMax.1 (not_not_intro hinode)
  have hsize : ¬ im.word (inodeAddr inode) < offset := mt UInt32.lt_iff_toNat_lt.1 (by omega)
  have hclip := @clip_eq (im.word (inodeAddr inode)) offset length (by omega) (by omega)
  simp only [inodeWords, if_neg hlen, if_neg hmax, if_neg hinode', if_neg hsize, List.mem_cons]
  rw [mem_blockWords (by rw [hclip]; omega), hclip]
  rfl

/-- A word of the block list of an inode of the image. -/
theorem inInodes_block {j : Nat} (hlt : inode.toNat < im.numInodes.toNat) (hj : j ≤ 1023)
    (hlast : j = 1023 → inode.toNat + 1 < im.numInodes.toNat) :
    im.InInodes (inodeAddr inode + 4 + 4 * j) := by
  have hN := im.numInodes.toNat_lt
  by_cases h : j = 1023
  · have hnext : (inode + 1).toNat = inode.toNat + 1 :=
      toNat_add_of_lt (by have := hlast h; rw [show (1 : UInt32).toNat = 1 from rfl]; omega)
    refine ⟨inode + 1, by rw [hnext]; exact hlast h, ?_, ?_⟩ <;> simp only [inodeAddr, hnext] <;>
      omega
  · exact ⟨inode, hlt, by omega, by omega⟩

/-- **`read_data` depends on nothing else**: on the number of inodes, on the words of
`inodeWords`, and on the bytes that it copies. -/
theorem readData_congr (hN : im'.numInodes = im.numInodes)
    (hwords : ∀ p ∈ inodeWords im inode offset length, im'.word p = im.word p)
    (hbytes : ∀ i < wanted im inode offset length,
      im'.byte (byteAddr im inode (offset.toNat + i)) =
        im.byte (byteAddr im inode (offset.toNat + i))) :
    readData im' inode offset (some buf) length = readData im inode offset (some buf) length := by
  by_cases hearly : length = 0 ∨ 64 < inode.toNat ∨ 1023 * 4096 < offset.toNat
  · rw [readData_refused (hearly.imp_right (.imp_right (readable_le im' inode).trans_lt)),
      readData_refused (hearly.imp_right (.imp_right (readable_le im inode).trans_lt))]
  simp only [not_or, Nat.not_lt] at hearly
  obtain ⟨hlen, hinode, hmax⟩ := hearly
  have hsize : fileSize im' inode = fileSize im inode := by
    refine congrArg UInt32.toNat (hwords _ ?_)
    by_cases hoff : fileSize im inode < offset.toNat
    · rw [inodeWords_size hlen hinode hmax hoff]
      exact List.mem_singleton_self _
    · exact (mem_inodeWords hlen hinode (le_min (Nat.not_lt.1 hoff) hmax)).2 (.inl rfl)
  have hread : readable im' inode = readable im inode := by rw [readable, hsize, readable]
  by_cases hoff : readable im inode < offset.toNat
  · rw [readData_refused (.inr (.inr hoff)), readData_refused (.inr (.inr (hread ▸ hoff)))]
  · have hoff := Nat.not_lt.1 hoff
    have hwanted : wanted im' inode offset length = wanted im inode offset length := by
      rw [wanted, hread, wanted]
    rw [readData_accepted hlen hinode hoff, readData_accepted hlen hinode (hread ▸ hoff), hwanted]
    refine congrArg (fun b => (_, some b)) (store_congr fun i hi => ?_)
    rw [← hbytes i (by omega)]
    -- the block of the byte is listed in one of the words
    have hmax' := readable_le im inode
    have hw : offset.toNat + wanted im inode offset length ≤ readable im inode := by
      unfold wanted
      omega
    have hindex : blockIndex im' inode (UInt32.ofNat ((offset.toNat + (0 + i)) / 4096)) =
        blockIndex im inode (UInt32.ofNat ((offset.toNat + (0 + i)) / 4096)) := by
      refine hwords _ ((mem_inodeWords hlen hinode hoff).2 (.inr ⟨_, ?_, ?_, rfl⟩)) <;>
        rw [toNat_ofNat_of_lt (by omega)] <;> omega
    simp only [byteAddr, blockAddr, hN]
    simp only [Nat.zero_add] at hindex
    rw [hindex]

/-- The size word of an inode that the image has. -/
theorem inInodes_size : im.InInodes (inodeAddr inode) ↔ inode.toNat < im.numInodes.toNat := by
  constructor
  · rintro ⟨i, hi, h₁, h₂⟩
    simp only [inodeAddr] at h₁ h₂
    omega
  · exact fun hlt => ⟨inode, hlt, Nat.le_refl _, by omega⟩

/-- A call that the code accepts. -/
theorem staysInside_accepted (hlen : length ≠ 0) (hinode : inode.toNat ≤ 64)
    (hoff : offset.toNat ≤ readable im inode) :
    StaysInside im inode offset length buf ↔ inode.toNat < im.numInodes.toNat ∧
      (∀ k, offset.toNat ≤ k → k < offset.toNat + wanted im inode offset length →
        (blockIndex im inode (UInt32.ofNat (k / 4096))).toNat < im.numDblocks.toNat) ∧
      (offset.toNat + wanted im inode offset length = 1023 * 4096 →
        inode.toNat + 1 < im.numInodes.toNat) := by
  have hread := @readData_accepted im inode offset length buf hlen hinode hoff
  have hmax := readable_le im inode
  have hw : offset.toNat + wanted im inode offset length ≤ readable im inode := by
    unfold wanted
    omega
  constructor
  · intro h
    have hne : ¬ ((readData im inode offset (some buf) length).1 = -1) := by
      rw [hread]
      exact fun hc => by omega
    refine ⟨Nat.not_le.1 fun hc => hne (h.refuses (.inl hc)), fun k h₁ h₂ => Nat.not_le.1 fun hc =>
      hne (h.refuses (.inr ⟨k, h₁, h₂, hc⟩)), fun hend => ?_⟩
    -- the word after the inode's block list is the size word of the next inode
    obtain ⟨i, hi, h₁, h₂⟩ := h.words _ ((mem_inodeWords hlen hinode hoff).2
      (.inr ⟨1023, by omega, by omega, rfl⟩))
    simp only [inodeAddr] at h₁ h₂
    omega
  · rintro ⟨hlt, hblk, hend⟩
    refine ⟨fun hout => ?_, fun n hn => ?_, fun p hp => ?_⟩
    · rcases hout with h | ⟨k, h₁, h₂, h₃⟩
      · omega
      · exact absurd (hblk k h₁ h₂) (Nat.not_lt.2 h₃)
    · obtain rfl : wanted im inode offset length = n := by
        rw [hread] at hn
        exact Int.ofNat.inj hn
      refine ⟨by rw [hread], fun i hi => ⟨_, hblk (offset.toNat + i) (by omega) (by omega),
        Nat.le_add_right _ _, ?_⟩⟩
      exact Nat.add_lt_add_left (Nat.mod_lt _ (by decide)) _
    · rcases (mem_inodeWords hlen hinode hoff).1 hp with rfl | ⟨j, h₁, h₂, rfl⟩
      · exact inInodes_size.2 hlt
      · exact inInodes_block hlt (by omega) fun hj => hend (by omega)

/-- **`read_data` stays inside the image exactly when** it refuses the call before it looks at the
inode, or the inode and the listed blocks of the range exist. -/
theorem read_data_stays_inside (im : Image) (inode offset length : UInt32) (buf : Buf) :
    StaysInside im inode offset length buf ↔ RangeInside im inode offset length := by
  have hrefused (hread : (readData im inode offset (some buf) length).1 = -1) :
      StaysInside im inode offset length buf ↔
        ∀ p ∈ inodeWords im inode offset length, im.InInodes p := by
    refine ⟨fun h => h.words, fun h => ⟨fun _ => hread, fun n hn => ?_, h⟩⟩
    rw [hread] at hn
    omega
  by_cases hearly : length = 0 ∨ 64 < inode.toNat ∨ 1023 * 4096 < offset.toNat
  · have hread : readData im inode offset (some buf) length = (-1, some buf) :=
      readData_refused (hearly.imp_right (.imp_right (readable_le im inode).trans_lt))
    rw [hrefused (by rw [hread]), inodeWords_early hearly]
    refine iff_of_true (fun p hp => absurd hp List.not_mem_nil) ?_
    rcases hearly with h | h | h
    · exact .inl h
    · exact .inr (.inl h)
    · exact .inr (.inr (.inl h))
  · simp only [not_or, Nat.not_lt] at hearly
    obtain ⟨hlen, hinode, hmax⟩ := hearly
    rw [RangeInside, or_iff_right hlen, or_iff_right (Nat.not_lt.2 hinode),
      or_iff_right (Nat.not_lt.2 hmax)]
    by_cases hoff : fileSize im inode < offset.toNat
    · have hread : readData im inode offset (some buf) length = (-1, some buf) :=
        readData_refused (.inr (.inr (min_lt_of_left_lt hoff)))
      rw [hrefused (by rw [hread]), inodeWords_size hlen hinode hmax hoff,
        List.forall_mem_singleton, inInodes_size]
      exact (and_iff_left (.inl hoff)).symm
    · rw [staysInside_accepted hlen hinode (le_min (Nat.not_lt.1 hoff) hmax),
        or_iff_right hoff]

/-- Inode 64 of a file system with the inodes 0 to 63: the read takes the first data block for
an inode, and succeeds. -/
theorem read_data_leaves_image : shellImage.numInodes = 64 ∧
    (readData shellImage 64 0 (some fun _ => 0) 4).1 = 4 ∧
    ¬ StaysInside shellImage 64 0 4 fun _ => 0 := by
  have hread : (readData shellImage 64 0 (some fun _ => 0) 4).1 = 4 := by decide +kernel
  have hN : shellImage.numInodes = 64 := by decide +kernel
  refine ⟨hN, hread, fun h => ?_⟩
  have hbad := h.refuses (.inl (by rw [hN]))
  rw [hread] at hbad
  exact absurd hbad (by decide)

/-! ## Reading to the end -/

/-- `fs_read` through descriptor `fd`, as a machine: a read gives a buffer and a size, and gets
the returned value and the buffer back. -/
def fsReader (im : Image) (fd : Nat) (p : Pcb) (call : Buf × Int) : (Int × Option Buf) × Pcb :=
  let (ret, buf, p) := fsRead im fd (some call.1) call.2 p
  ((ret, buf), p)

/-- The position of a descriptor of the regular file `inode` is within the limit. -/
structure ReadingFile (im : Image) (fd : Nat) (inode : UInt32) (p : Pcb) : Prop where
  regular : (p.fdArray fd).ftype = ftypeRegular
  ofInode : (p.fdArray fd).inodeNum = inode
  nonneg : 0 ≤ (p.fdArray fd).filePos
  le_limit : (p.fdArray fd).filePos.toNat ≤ readLimit im inode

section

variable {fd : Nat} {p : Pcb} {call : Buf × Int}

/-- One read adds what it returns to the position: all that is left, or as much as was asked
for. -/
theorem fsReader_step (h : ReadingFile im fd inode p) (hn : 1 ≤ call.2 ∧ call.2 < 2 ^ 31) :
    ∃ m : Nat, m = min call.2.toNat (readLimit im inode - (p.fdArray fd).filePos.toNat) ∧
      (fsReader im fd p call).1.1 = m ∧
      ((fsReader im fd p call).2.fdArray fd).filePos = (p.fdArray fd).filePos + m ∧
      ReadingFile im fd inode (fsReader im fd p call).2 := by
  obtain ⟨pos, hpos⟩ := Int.eq_ofNat_of_zero_le h.nonneg
  have hle : pos ≤ readLimit im (p.fdArray fd).inodeNum := by
    have := h.le_limit
    rw [h.ofInode]
    omega
  have hread := fsRead_spec (b := call.1) hn h.regular hpos hle rfl
  rw [h.ofInode] at hread hle
  refine ⟨_, rfl, ?_⟩
  rw [hpos, Int.toNat_natCast]
  simp only [fsReader, hread]
  rw [Pcb.setFd_self]
  refine ⟨trivial, Int.natCast_add _ _, ⟨?_, ?_, ?_, ?_⟩⟩ <;> rw [Pcb.setFd_self]
  · exact h.regular
  · exact h.ofInode
  · exact Int.natCast_nonneg _
  · rw [Int.toNat_natCast]
    omega

end

/-- **Reading a file always ends.** Whatever the image holds, reads from position 0 on never fail,
never move the position back or past what the format allows, and return 0 once there is nothing
left, which is after as many reads as there are bytes at the latest. -/
theorem reads_end (im : Image) (fd : Nat) (p : Pcb) (calls : ℕ → Buf × Int)
    (hreg : (p.fdArray fd).ftype = ftypeRegular) (hpos : (p.fdArray fd).filePos = 0)
    (hcalls : ∀ n, 1 ≤ (calls n).2 ∧ (calls n).2 < 2 ^ 31) :
    let pos n := ((stateAt (fsReader im fd) p calls n).fdArray fd).filePos
    let ret n := (outputAt (fsReader im fd) p calls n).1
    let limit := min (fileSize im (p.fdArray fd).inodeNum) (1023 * 4096)
    (∀ m n, m ≤ n → pos m ≤ pos n) ∧ (∀ n, 0 ≤ pos n ∧ pos n ≤ limit) ∧ (∀ n, 0 ≤ ret n) ∧
      ∀ n, limit ≤ n → ret n = 0 := by
  intro pos ret limit
  have h0 : ReadingFile im fd (p.fdArray fd).inodeNum p :=
    ⟨hreg, rfl, by omega, by rw [hpos]; exact Nat.zero_le _⟩
  have hI : ∀ n, ReadingFile im fd (p.fdArray fd).inodeNum
      (stateAt (fsReader im fd) p calls n) := by
    apply stateAt_inv (fun _ => ReadingFile im fd (p.fdArray fd).inodeNum) h0
    intro n a ha
    obtain ⟨m, -, -, -, h⟩ := fsReader_step ha (hcalls n)
    exact h
  have hlim : readLimit im (p.fdArray fd).inodeNum ≤ limit := readLimit_le im _
  have hpos' (n) : 0 ≤ pos n ∧ (pos n).toNat ≤ readLimit im (p.fdArray fd).inodeNum :=
    ⟨(hI n).nonneg, (hI n).le_limit⟩
  refine ⟨?_, fun n => ?_, fun n => ?_, fun n hn => ?_⟩
  · intro m n hmn
    refine stateAt_mono (fun q : Pcb => (q.fdArray fd).filePos) hI (fun n a ha => ?_) hmn
    obtain ⟨m, -, -, hmove, -⟩ := fsReader_step ha (hcalls n)
    rw [hmove]
    omega
  · have := hpos' n
    omega
  · obtain ⟨m, -, hret, -, -⟩ := fsReader_step (hI n) (hcalls n)
    have hret' : ret n = m := hret
    omega
  · -- every read before the limit moved the position
    have hclimb := climbs (fun q => (q.fdArray fd).filePos.toNat)
      (readLimit im (p.fdArray fd).inodeNum) hI
      (fun k a ha => by
        obtain ⟨m, -, -, hmove, -⟩ := fsReader_step ha (hcalls k)
        have := ha.nonneg
        rw [hmove]
        omega)
      (fun k a ha hlt => by
        obtain ⟨m, hm, -, hmove, -⟩ := fsReader_step ha (hcalls k)
        have := ha.nonneg
        have := (hcalls k).1
        rw [hmove]
        omega) n
    obtain ⟨m, hm, hret, -, -⟩ := fsReader_step (hI n) (hcalls n)
    have hret' : ret n = m := hret
    rw [hpos, Int.toNat_zero, Nat.zero_add] at hclimb
    omega

/-- A read-until-zero loop over the forty bytes of `shell`, seven at a time. -/
theorem reads_end_shell :
    let p : Pcb := (default : Pcb).setFd 2 (openedFd default 2 1)
    ∀ n, 40 ≤ n → (outputAt (fsReader shellImage 2) p (fun _ => (fun _ => 0, 7)) n).1 = 0 := by
  intro p n hn
  have hsize : fileSize shellImage 1 = 40 := by decide +kernel
  have hends := (reads_end shellImage 2 p (fun _ => (fun _ => 0, 7)) rfl rfl
    (fun _ => by decide)).2.2.2 n
  exact hends (Nat.le_trans (Nat.min_le_left _ _) (Nat.le_trans (Nat.le_of_eq hsize) hn))

end Kernel391

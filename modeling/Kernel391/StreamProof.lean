import Kernel391.DescriptorProof

/-!
# Open files are streams

Reads through a descriptor deliver its file from the first byte on, in order and without gaps,
whatever calls on other descriptors come in between.

* `fsRead_spec`, `fsRead_eq` — one read returns and stores exactly the next bytes of the file.
* `StreamsOk`, `streamsOk_step` — between the `open` and the `close` of a descriptor, what its
  reads delivered is the part of the file before its position.
* `streams` — the result for all runs of a started process.
-/

namespace Kernel391

open Bytes Runs

/-! ## Well-formed files -/

/-- A regular file that `read_data` handles: its inode exists, its size is within the limit, and the
blocks that hold its bytes exist. -/
structure Image.GoodFile (im : Image) (inode : UInt32) : Prop where
  lt_numInodes : inode.toNat < im.numInodes.toNat
  lt_max : inode.toNat < 64
  size_le : fileSize im inode ≤ 1023 * 4096
  blocks : ∀ j, 4096 * j < fileSize im inode →
    (blockIndex im inode (UInt32.ofNat j)).toNat < im.numDblocks.toNat

/-- Every named directory entry of the type of a regular file is one. -/
def Image.FilesOk (im : Image) : Prop :=
  ∀ i < 63, im.entryName i ≠ [] → (im.entryType i).toUInt8 = ftypeRegular →
    im.GoodFile (im.entryInode i)

theorem word_toUInt8 (im : Image) (p : Nat) : (im.word p).toUInt8 = im.byte p := by
  apply UInt8.toNat_inj.1
  have h0 := (im.byte p).toNat_lt
  rw [UInt32.toNat_toUInt8, toNat_word]
  omega

/-- Only one byte gives the type of a regular file. -/
theorem signExtend_eq_two : ∀ n : Fin 256, signExtend (UInt8.ofNat n) = 2 → n = 2 := by
  decide +kernel

/-- A regular file that a lookup finds is a good one. -/
theorem goodFile_of_lookup {im : Image} (h : im.FilesOk) {name : CString} {d : Dentry}
    (hne : strlen name ≠ 0) (hfound : (readDentryByName im name d).1 ≠ -1)
    (ht : (readDentryByName im name d).2.fileType = 2) :
    im.GoodFile (readDentryByName im name d).2.inodeNum := by
  unfold readDentryByName at *
  split at ht
  · exact absurd ht (show (1 : UInt32) ≠ 2 by decide)
  · rename_i hdot
    rw [if_neg hdot] at hfound ⊢
    cases hfind : (List.range maxFileNum).find? (entryMatches im name) with
    | none =>
      rw [hfind] at hfound
      exact absurd rfl hfound
    | some j =>
      rw [hfind] at ht
      simp only [fileEntry_eq] at ht ⊢
      rw [List.find?_range_eq_some, List.mem_range] at hfind
      have hj : j < 62 := hfind.2.1
      have hname := (entryMatches_iff im name j).1 hfind.1
      have hbyte : im.byte (Image.entryAddr (j + 1) + 32) = 2 := by
        have := signExtend_eq_two ⟨(im.byte (Image.entryAddr (j + 1) + 32)).toNat,
          UInt8.toNat_lt _⟩ (by simpa using ht)
        apply UInt8.toNat_inj.1
        simpa using congrArg Fin.val this
      have hgood := h (j + 1) (by omega)
        (by rw [hname]; exact fun hc => hne (by simp [strlen, hc]))
        (by rw [Image.entryType, word_toUInt8, hbyte]; rfl)
      have hlt := hgood.lt_max
      rw [signExtend_byte (by simp only [Image.entryInode] at hlt; omega)]
      exact hgood

/-! ## One read -/

theorem toNat_ofInt {x : Int} (h₁ : 0 ≤ x) (h₂ : x < 2 ^ 31) :
    (UInt32.ofInt x).toNat = x.toNat := by
  rw [UInt32.ofInt, Int.emod_eq_of_lt h₁ (by omega)]
  exact toNat_ofNat_of_lt (by omega)

theorem toNat_ofInt_neg {x : Int} (h₁ : -2 ^ 31 ≤ x) (h₂ : x < 0) :
    2 ^ 31 ≤ (UInt32.ofInt x).toNat := by
  rw [UInt32.ofInt, toNat_ofNat_of_lt (by omega)]
  omega

theorem ofInt_ne_zero {x : Int} (h₁ : -2 ^ 31 ≤ x) (h₂ : x < 2 ^ 31) (h : x ≠ 0) :
    UInt32.ofInt x ≠ 0 := by
  intro hc
  have hz : (UInt32.ofInt x).toNat = 0 := by
    rw [hc]
    rfl
  rcases Int.lt_or_le x 0 with hx | hx
  · have := toNat_ofInt_neg h₁ hx
    omega
  · have := toNat_ofInt hx h₂
    omega

theorem toSigned_eq {x : UInt32} (h : x.toNat < 2 ^ 31) : toSigned x = x.toNat :=
  BitVec.toInt_eq_toNat_of_lt (x := x.toBitVec) (by
    rw [UInt32.toNat_toBitVec]
    omega)

theorem toSigned_neg {x : UInt32} (h : 2 ^ 31 ≤ x.toNat) : toSigned x < 0 := by
  have hlt := x.toNat_lt
  have hint : toSigned x = (x.toBitVec).toInt := rfl
  rw [hint, BitVec.toInt_eq_toNat_cond, UInt32.toNat_toBitVec]
  split <;> omega

/-- How far reads through a descriptor can get: a size word with the top bit set, read as a
negative number, and an inode past the limit are no file at all. -/
def readLimit (im : Image) (inode : UInt32) : Nat :=
  if inode.toNat ≤ 64 ∧ fileSize im inode < 2 ^ 31 then readable im inode else 0

theorem readLimit_le (im : Image) (inode : UInt32) : readLimit im inode ≤ readable im inode := by
  unfold readLimit
  split
  · exact Nat.le_refl _
  · exact Nat.zero_le _

/-- `get_filesize`, in the three ways it can come out. -/
theorem getFilesize_cases (im : Image) (inode : UInt32) :
    (inode.toNat ≤ 64 ∧ fileSize im inode < 2 ^ 31 ∧
      getFilesize im inode = fileSize im inode ∧ readLimit im inode = readable im inode) ∨
    (getFilesize im inode < 0 ∧ readLimit im inode = 0) := by
  unfold getFilesize readLimit
  by_cases hinode : inode.toNat ≤ 64
  · rw [if_neg (mt gt_numInodesMax.1 (not_not_intro hinode))]
    by_cases hsize : fileSize im inode < 2 ^ 31
    · rw [if_pos ⟨hinode, hsize⟩]
      exact .inl ⟨hinode, hsize, toSigned_eq hsize, rfl⟩
    · rw [if_neg fun h => hsize h.2]
      exact .inr ⟨toSigned_neg (Nat.not_lt.1 hsize), rfl⟩
  · rw [if_pos (gt_numInodesMax.2 hinode), if_neg fun h => hinode h.1]
    exact .inr ⟨by decide, rfl⟩

section Branches

variable {im : Image} {fd : Nat} {b : Buf} {nbytes : Int} {p : Pcb}

/-- Nothing is asked for, or nothing is left. -/
theorem fsRead_stops (ht : (p.fdArray fd).ftype = ftypeRegular)
    (h : nbytes = 0 ∨ getFilesize im (p.fdArray fd).inodeNum ≤ (p.fdArray fd).filePos) :
    fsRead im fd (some b) nbytes p = (0, some b, p) := by
  unfold fsRead
  dsimp only
  by_cases h0 : nbytes = 0
  · rw [if_pos h0]
  · rw [if_neg h0, if_neg (by simp), if_neg (by simp [ht]), if_pos (h.resolve_left h0)]

/-- Otherwise `read_data` says what is read. -/
theorem fsRead_reads (ht : (p.fdArray fd).ftype = ftypeRegular) (h0 : nbytes ≠ 0)
    (h : (p.fdArray fd).filePos < getFilesize im (p.fdArray fd).inodeNum) {ret : Int}
    {b' : Option Buf} (hread : readData im (p.fdArray fd).inodeNum
      (UInt32.ofInt (p.fdArray fd).filePos) (some b) (UInt32.ofInt nbytes) = (ret, b')) :
    fsRead im fd (some b) nbytes p =
      (ret, b', p.setFd fd { p.fdArray fd with filePos := (p.fdArray fd).filePos + ret }) := by
  unfold fsRead
  dsimp only
  rw [if_neg h0, if_neg (by simp), if_neg (by simp [ht]), if_neg (Int.not_le.2 h), hread]

end Branches

/-- **One read**, on any image. `fs_read` at a position within the limit returns the smaller of
what was asked for and what is left, stores exactly these bytes, and moves the position past
them. -/
theorem fsRead_spec {im : Image} {fd : Nat} {b : Buf} {nbytes : Int} {p : Pcb} {pos : Nat}
    (hn : 1 ≤ nbytes ∧ nbytes < 2 ^ 31) (ht : (p.fdArray fd).ftype = ftypeRegular)
    (hpos : (p.fdArray fd).filePos = pos) (hle : pos ≤ readLimit im (p.fdArray fd).inodeNum)
    {m : Nat} (hm : m = min nbytes.toNat (readLimit im (p.fdArray fd).inodeNum - pos)) :
    fsRead im fd (some b) nbytes p =
      (↑m, some (store b 0 (fun i => fileByte im (p.fdArray fd).inodeNum (pos + i)) m),
        p.setFd fd { p.fdArray fd with filePos := ↑(pos + m) }) := by
  -- where nothing is left, nothing is stored and the position stays
  have hend (h0 : m = 0) : (((0 : Int), some b, p) : Int × Option Buf × Pcb) =
      (↑m, some (store b 0 (fun i => fileByte im (p.fdArray fd).inodeNum (pos + i)) m),
        p.setFd fd { p.fdArray fd with filePos := ↑(pos + m) }) := by
    subst h0
    rw [store_zero, Nat.add_zero, ← hpos]
    simp [Pcb.setFd]
  rcases getFilesize_cases im (p.fdArray fd).inodeNum with ⟨hino, hsize, hget, hlim⟩ | ⟨hneg, hlim⟩
  · have hread : readable im (p.fdArray fd).inodeNum =
        min (fileSize im (p.fdArray fd).inodeNum) 4190208 := rfl
    rw [hlim] at hle hm
    by_cases hge : fileSize im (p.fdArray fd).inodeNum ≤ pos
    · rw [fsRead_stops ht (.inr (by omega))]
      exact hend (by omega)
    · have hoff : (UInt32.ofInt (pos : Int)).toNat = pos := by
        rw [toNat_ofInt (by omega) (by omega), Int.toNat_natCast]
      have hlen : (UInt32.ofInt nbytes).toNat = nbytes.toNat := toNat_ofInt (by omega) hn.2
      have hne := ofInt_ne_zero (by omega) hn.2 (show nbytes ≠ 0 by omega)
      have hcond : (p.fdArray fd).inodeNum.toNat ≤ 64 ∧ (UInt32.ofInt (pos : Int)).toNat ≤
          readable im (p.fdArray fd).inodeNum := ⟨hino, by omega⟩
      have hdata := readData_spec im (p.fdArray fd).inodeNum (UInt32.ofInt (pos : Int))
        (UInt32.ofInt nbytes) b hne
      rw [if_pos hcond, hoff, hlen, ← hm, ← hpos] at hdata
      rw [fsRead_reads ht (by omega) (by omega) hdata, hpos, Int.natCast_add]
  · rw [hlim] at hle hm
    rw [fsRead_stops ht (.inr (by omega))]
    exact hend (by omega)

theorem readLimit_eq {im : Image} {inode : UInt32} (h : im.GoodFile inode) :
    readLimit im inode = fileSize im inode := by
  have hsize := h.size_le
  have hlt := h.lt_max
  have hread : readable im inode = fileSize im inode := Nat.min_eq_left hsize
  rw [readLimit, if_pos ⟨by omega, by omega⟩, hread]

/-- One read of a good file: its limit is its size. -/
theorem fsRead_eq {im : Image} {fd : Nat} {b : Buf} {nbytes : Int} {p : Pcb} {pos : Nat}
    (hn : 1 ≤ nbytes ∧ nbytes < 2 ^ 31) (ht : (p.fdArray fd).ftype = ftypeRegular)
    (hfile : im.GoodFile (p.fdArray fd).inodeNum) (hpos : (p.fdArray fd).filePos = pos)
    (hle : pos ≤ fileSize im (p.fdArray fd).inodeNum) {m : Nat}
    (hm : m = min nbytes.toNat (fileSize im (p.fdArray fd).inodeNum - pos)) :
    fsRead im fd (some b) nbytes p =
      (↑m, some (store b 0 (fun i => fileByte im (p.fdArray fd).inodeNum (pos + i)) m),
        p.setFd fd { p.fdArray fd with filePos := ↑(pos + m) }) := by
  rw [← readLimit_eq hfile] at hle hm
  exact fsRead_spec hn ht hpos hle hm

/-! ## What the reads delivered -/

/-- The bytes that reads through `fd` delivered since it was opened. -/
def delivered (fd : Nat) (tr : List (FileCall × (Int × Option Buf))) : List UInt8 :=
  tr.foldl (fun acc l =>
    match l with
    | (.open _ _, o) => if o.1 = fd then [] else acc
    | (.close c, o) => if c = fd ∧ o.1 = 0 then [] else acc
    | (.read c _ _, (ret, some b)) => if c = fd then acc ++ slice b 0 ret.toNat else acc
    | _ => acc) []

/-- The state of open files after the calls `tr`: every regular file is a good one, and what was
delivered of it is its bytes up to the position. -/
structure StreamsOk (im : Image) (tr : List (FileCall × (Int × Option Buf))) (p : Pcb) :
    Prop where
  inv : FdInv p
  stream : ∀ fd : Nat, 2 ≤ fd → p.Open fd → (p.fdArray fd).ftype = ftypeRegular →
    im.GoodFile (p.fdArray fd).inodeNum ∧
    ∃ pos : Nat, (p.fdArray fd).filePos = pos ∧ pos ≤ fileSize im (p.fdArray fd).inodeNum ∧
      delivered fd tr = slice (fileByte im (p.fdArray fd).inodeNum) 0 pos

/-- The reads that ask for at least one byte. -/
def AsksForBytes (_ : Kernel) : FileCall → Prop
  | .read _ _ nbytes => 1 ≤ nbytes ∧ nbytes < 2 ^ 31
  | _ => True

/-- The descriptor a call is made on. -/
def FileCall.target : FileCall → Option Int
  | .close fd => some fd
  | .read fd _ _ => some fd
  | _ => none

section Step

variable {im : Image} {curr : Nat} {k k' : Kernel} {e : FileCall} {o : Int × Option Buf}
  {tr : List (FileCall × (Int × Option Buf))}

/-- **Isolation.** A call leaves every open descriptor alone but the one it is made on. -/
theorem fd_unchanged (h : FdInv (k.pcbMem curr)) (hs : fileSystem im curr k e o k') {fd : Nat}
    (hopen : (k.pcbMem curr).Open fd) (hne : e.target ≠ some (fd : Int)) :
    (k'.pcbMem curr).fdArray fd = (k.pcbMem curr).fdArray fd := by
  cases e with
  | «open» name d =>
    rcases open_step hs with ⟨-, rfl⟩ | ⟨n, fd₀, hfree, -, -, -, -, heq⟩
    · rfl
    · rw [heq]
      refine Pcb.setFd_of_ne fun hc => inuse_ne_notinuse ?_
      rw [← hfree.free, ← hc, ← hopen.2.2, Int.toNat_natCast]
  | close c =>
    rcases close_step h hs with ⟨-, rfl⟩ | ⟨h2, -, -, heq⟩
    · rfl
    · rw [heq]
      refine Pcb.setFd_of_ne fun hc => hne ?_
      rw [FileCall.target, hc, Int.toNat_of_nonneg (by omega)]
  | read c buf nbytes =>
    rcases ((sysRead_ok h buf).of_eq hs).eq with heq | ⟨pos, h2, h7, heq⟩
    · rw [heq]
    · rw [heq]
      refine Pcb.setFd_of_ne fun hc => hne ?_
      rw [FileCall.target, hc, Int.toNat_of_nonneg (by omega)]
  | write c buf nbytes => rw [(sysWrite_ok h buf).of_eq hs]
  | other => rw [show k'.pcbMem curr = k.pcbMem curr from hs]

/-- A read through an open descriptor of a good regular file. -/
theorem sysRead_stream (h : FdInv (k.pcbMem curr)) {fd : Nat} (h2 : 2 ≤ fd)
    (hopen : (k.pcbMem curr).Open fd)
    (ht : ((k.pcbMem curr).fdArray fd).ftype = ftypeRegular)
    (hfile : im.GoodFile ((k.pcbMem curr).fdArray fd).inodeNum) {pos : Nat}
    (hpos : ((k.pcbMem curr).fdArray fd).filePos = pos)
    (hle : pos ≤ fileSize im ((k.pcbMem curr).fdArray fd).inodeNum) (b : Buf) {nbytes : Int}
    (hn : 1 ≤ nbytes ∧ nbytes < 2 ^ 31) {m : Nat}
    (hm : m = min nbytes.toNat (fileSize im ((k.pcbMem curr).fdArray fd).inodeNum - pos)) :
    sysRead im curr fd (some b) nbytes k = .returned (↑m,
      some (store b 0 (fun i => fileByte im ((k.pcbMem curr).fdArray fd).inodeNum (pos + i)) m),
      k.setPcb curr ((k.pcbMem curr).setFd fd
        { (k.pcbMem curr).fdArray fd with filePos := ↑(pos + m) })) := by
  have hne : (fd : Int) ≠ fdStdout := by
    simp only [fdStdout]
    omega
  rcases h.of_open hopen with ⟨h0, -⟩ | ⟨h1, -⟩ | ⟨-, -, -, htab⟩
  · omega
  · omega
  · rw [Int.toNat_natCast] at htab
    have hentry : (((k.pcbMem curr).fdArray fd).operationstable).entry .read =
        some (.fs .read) := by
      rw [htab, ht]
      rfl
    rw [sysRead_of_open b hne hopen, Int.toNat_natCast, hentry, callRead, Int.toNat_natCast,
      fsRead_eq hn ht hfile hpos hle hm]

theorem delivered_concat (tr : List (FileCall × (Int × Option Buf))) (fd : Nat) (e : FileCall)
    (o : Int × Option Buf) :
    delivered fd (tr ++ [(e, o)]) =
      match (e, o) with
      | (.open _ _, o) => if o.1 = fd then [] else delivered fd tr
      | (.close c, o) => if c = fd ∧ o.1 = 0 then [] else delivered fd tr
      | (.read c _ _, (ret, some b)) =>
        if c = fd then delivered fd tr ++ slice b 0 ret.toNat else delivered fd tr
      | _ => delivered fd tr := by
  rw [delivered, List.foldl_append]
  rfl

theorem Pcb.open_congr {p p' : Pcb} {fd : Nat} (h : p'.fdArray fd = p.fdArray fd) :
    p'.Open fd ↔ p.Open fd := by
  rw [Pcb.Open, Pcb.Open, Int.toNat_natCast, h]

/-- A slot that did not change, and through which nothing was delivered. -/
theorem StreamsOk.same {p p' : Pcb} (h : StreamsOk im tr p) {fd : Nat}
    (hfd : p'.fdArray fd = p.fdArray fd)
    (hdel : delivered fd (tr ++ [(e, o)]) = delivered fd tr) :
    2 ≤ fd → p'.Open fd → (p'.fdArray fd).ftype = ftypeRegular →
    im.GoodFile (p'.fdArray fd).inodeNum ∧
    ∃ pos : Nat, (p'.fdArray fd).filePos = pos ∧
      pos ≤ fileSize im (p'.fdArray fd).inodeNum ∧
      delivered fd (tr ++ [(e, o)]) = slice (fileByte im (p'.fdArray fd).inodeNum) 0 pos := by
  rw [hdel, Pcb.open_congr hfd, hfd]
  exact h.stream fd

theorem regular_of_toUInt8 {t : UInt32} (ht : t = 0 ∨ t = 1 ∨ t = 2)
    (h : t.toUInt8 = ftypeRegular) : t = 2 := by
  rcases ht with rfl | rfl | rfl
  · exact absurd h (by decide)
  · exact absurd h (by decide)
  · rfl

theorem streamsOk_open (him : im.FilesOk) (h : StreamsOk im tr (k.pcbMem curr))
    {name : Option CString} {d : Dentry} (hs : fileSystem im curr k (.open name d) o k') :
    StreamsOk im (tr ++ [(.open name d, o)]) (k'.pcbMem curr) := by
  refine ⟨fdInv_step h.inv hs, fun fd => ?_⟩
  have hdel : delivered fd (tr ++ [(.open name d, o)]) =
      if o.1 = fd then [] else delivered fd tr := delivered_concat tr fd _ o
  rcases open_step hs with ⟨ho, rfl⟩ | ⟨n, fd₀, hfree, ht, hne, hfound, ho, heq⟩
  · exact h.same rfl (by rw [hdel, if_neg (by omega)])
  · rw [heq]
    by_cases hfd : fd = fd₀
    · subst hfd
      intro h2 _ hreg
      rw [Pcb.setFd_self] at hreg ⊢
      refine ⟨goodFile_of_lookup him hne hfound ?_, 0, rfl, Nat.zero_le _, ?_⟩
      · exact regular_of_toUInt8 ht hreg
      · rw [hdel, if_pos ho, slice_zero]
    · exact h.same (Pcb.setFd_of_ne hfd) (by rw [hdel, if_neg (by omega)])

theorem streamsOk_close (h : StreamsOk im tr (k.pcbMem curr)) {c : Int}
    (hs : fileSystem im curr k (.close c) o k') :
    StreamsOk im (tr ++ [(.close c, o)]) (k'.pcbMem curr) := by
  refine ⟨fdInv_step h.inv hs, fun fd => ?_⟩
  have hdel : delivered fd (tr ++ [(.close c, o)]) =
      if c = fd ∧ o.1 = 0 then [] else delivered fd tr := delivered_concat tr fd _ o
  rcases close_step h.inv hs with ⟨ho, rfl⟩ | ⟨h2, -, ho, heq⟩
  · exact h.same rfl (by rw [hdel, if_neg (by omega)])
  · rw [heq]
    by_cases hfd : fd = c.toNat
    · subst hfd
      intro _ hopen
      have huse := hopen.2.2
      rw [Int.toNat_natCast, Pcb.setFd_self] at huse
      exact absurd huse (by decide)
    · exact h.same (Pcb.setFd_of_ne hfd) (by rw [hdel, if_neg (by omega)])

theorem streamsOk_read (h : StreamsOk im tr (k.pcbMem curr)) {c nbytes : Int}
    {buf : Option Buf} (hn : 1 ≤ nbytes ∧ nbytes < 2 ^ 31)
    (hs : fileSystem im curr k (.read c buf nbytes) o k') :
    StreamsOk im (tr ++ [(.read c buf nbytes, o)]) (k'.pcbMem curr) := by
  refine ⟨fdInv_step h.inv hs, fun fd => ?_⟩
  obtain ⟨ret, out⟩ := o
  have hs' : sysRead im curr c buf nbytes k = .returned (ret, out, k') := hs
  have hmoved := ((sysRead_ok h.inv buf).of_eq hs').eq
  have hdel := delivered_concat tr fd (.read c buf nbytes) (ret, out)
  by_cases hc : c = fd
  · subst hc
    intro h2 hopen' hreg'
    -- the slot that was read is the same but for its position
    have hslot : (k.pcbMem curr).Open fd ∧ ((k.pcbMem curr).fdArray fd).ftype = ftypeRegular := by
      rcases hmoved with heq | ⟨pos, -, -, heq⟩
      · rw [heq] at hopen' hreg'
        exact ⟨hopen', hreg'⟩
      · rw [heq, Int.toNat_natCast, Pcb.setFd_self] at hreg'
        rw [heq, Pcb.Open, Int.toNat_natCast, Pcb.setFd_self] at hopen'
        exact ⟨by rw [Pcb.Open, Int.toNat_natCast]; exact hopen', hreg'⟩
    obtain ⟨hfile, pos, hpos, hle, hacc⟩ := h.stream fd h2 hslot.1 hslot.2
    rcases buf with _ | b
    · rw [sysRead_of_null] at hs'
      injection hs' with hret
      obtain ⟨-, hout⟩ := Prod.mk.inj hret
      obtain ⟨rfl, rfl⟩ := Prod.mk.inj hout
      exact ⟨hfile, pos, hpos, hle, hdel.trans hacc⟩
    · rw [sysRead_stream h.inv h2 hslot.1 hslot.2 hfile hpos hle b hn rfl] at hs'
      injection hs' with hret
      obtain ⟨rfl, hout⟩ := Prod.mk.inj hret
      obtain ⟨rfl, rfl⟩ := Prod.mk.inj hout
      rw [Kernel.setPcb_self, Pcb.setFd_self]
      refine ⟨hfile, _, rfl, by dsimp only; omega, ?_⟩
      dsimp only at hdel
      rw [hdel, if_pos rfl, hacc, Int.toNat_natCast, slice_store, slice_add, Nat.zero_add]
      exact congrArg _ (slice_congr fun i _ => by rw [Nat.zero_add])
  · refine h.same ?_ ?_
    · rcases hmoved with heq | ⟨pos, h2, -, heq⟩
      · rw [heq]
      · rw [heq]
        exact Pcb.setFd_of_ne (by omega)
    · rw [hdel]
      rcases out with _ | b
      · rfl
      · exact if_neg hc

/-- Every step keeps `StreamsOk`. -/
theorem streamsOk_step (him : im.FilesOk) (h : StreamsOk im tr (k.pcbMem curr))
    (hs : Guarded AsksForBytes (fileSystem im curr) k e o k') :
    StreamsOk im (tr ++ [(e, o)]) (k'.pcbMem curr) := by
  obtain ⟨hn, hs⟩ := hs
  cases e with
  | «open» name d => exact streamsOk_open him h hs
  | close c => exact streamsOk_close h hs
  | read c buf nbytes => exact streamsOk_read h hn hs
  | write c buf nbytes =>
    refine ⟨fdInv_step h.inv hs, fun fd => ?_⟩
    have hp := (sysWrite_ok h.inv buf).of_eq hs
    exact h.same (by rw [hp]) (delivered_concat tr fd _ o)
  | other =>
    refine ⟨fdInv_step h.inv hs, fun fd => ?_⟩
    have hp : k'.pcbMem curr = k.pcbMem curr := hs
    exact h.same (by rw [hp]) (delivered_concat tr fd _ o)

end Step

/-! ## Runs -/

/-- What `streams` says of a state reached by the calls `tr`. -/
structure Streams (im : Image) (curr : Nat) (tr : List (FileCall × (Int × Option Buf)))
    (k : Kernel) : Prop where
  /-- What a descriptor delivered is the file up to its position; and its next read returns, and
  stores, the next bytes, as many as were asked for or are left. -/
  stream : ∀ fd : Nat, 2 ≤ fd → (k.pcbMem curr).Open fd →
    ((k.pcbMem curr).fdArray fd).ftype = ftypeRegular →
    ∃ pos : Nat, ((k.pcbMem curr).fdArray fd).filePos = pos ∧
      pos ≤ fileSize im ((k.pcbMem curr).fdArray fd).inodeNum ∧
      delivered fd tr = slice (fileByte im ((k.pcbMem curr).fdArray fd).inodeNum) 0 pos ∧
      ∀ (b : Buf) (nbytes : Int), 1 ≤ nbytes → nbytes < 2 ^ 31 →
        let m := min nbytes.toNat
          (fileSize im ((k.pcbMem curr).fdArray fd).inodeNum - pos)
        sysRead im curr fd (some b) nbytes k = .returned (↑m,
          some (store b 0
            (fun i => fileByte im ((k.pcbMem curr).fdArray fd).inodeNum (pos + i)) m),
          k.setPcb curr ((k.pcbMem curr).setFd fd
            { (k.pcbMem curr).fdArray fd with filePos := ↑(pos + m) }))
  /-- No call on one descriptor changes another one that is open. -/
  isolated : ∀ e o k', fileSystem im curr k e o k' → ∀ fd : Nat, (k.pcbMem curr).Open fd →
    e.target ≠ some (fd : Int) → (k'.pcbMem curr).fdArray fd = (k.pcbMem curr).fdArray fd

/-- **Open files are streams.** On a well-formed image, after any sequence of calls by a process
that `execute` started, whose reads ask for at least one byte. -/
theorem streams {im : Image} {sp pid : Nat} {cmd : Option CString} {eip : UInt32}
    {k₀ k₁ k : Kernel} {tr : List (FileCall × (Int × Option Buf))} (him : im.FilesOk)
    (hstart : execute im sp cmd k₀ = .started pid eip k₁)
    (hrun : Run (Guarded AsksForBytes (fileSystem im (pcbAddr pid))) k₁ tr k) :
    Streams im (pcbAddr pid) tr k := by
  obtain ⟨prog, hpcb⟩ := pcbMem_started hstart
  have h : StreamsOk im tr (k.pcbMem (pcbAddr pid)) := by
    refine hrun.invariant_history (I := fun tr k => StreamsOk im tr (k.pcbMem (pcbAddr pid))) ?_
      fun _ _ _ _ _ h hs => streamsOk_step him h hs
    rw [hpcb]
    obtain ⟨hinv, hfree⟩ := fdInv_started pid sp prog (k₀.pcbMem (pcbAddr pid))
    refine ⟨hinv, fun fd h2 hopen _ => ?_⟩
    have huse := hopen.2.2
    rw [Int.toNat_natCast, hfree fd h2 (by have := hopen.2.1; omega)] at huse
    exact absurd huse (by decide)
  refine ⟨fun fd h2 hopen ht => ?_, fun e o k' hs fd hopen => fd_unchanged h.inv hs hopen⟩
  obtain ⟨hfile, pos, hpos, hle, hacc⟩ := h.stream fd h2 hopen ht
  exact ⟨pos, hpos, hle, hacc, fun b nbytes h₁ h₂ =>
    sysRead_stream h.inv h2 hopen ht hfile hpos hle b ⟨h₁, h₂⟩ rfl⟩

theorem filesOk_shellImage : shellImage.FilesOk := by
  intro i hi hname ht
  have hcount : shellImage.dirEntries.toNat = 2 := by decide +kernel
  have hi2 : i < 2 := by
    by_contra hc
    exact hname (dirOk_shellImage.entriesOk.entryName_unused (by omega) hi)
  have hsize : fileSize shellImage 1 = 40 := by decide +kernel
  rcases i with _ | _ | i
  · exact absurd ht (by decide +kernel)
  · have hino : shellImage.entryInode (0 + 1) = 1 := by decide +kernel
    rw [hino]
    refine ⟨by decide +kernel, by decide, by omega, fun j hj => ?_⟩
    obtain rfl : j = 0 := by omega
    decide +kernel
  · omega

/-- The first shell reads its own file, which has forty bytes. -/
theorem streams_shell : ∃ eip k₁ k₂,
    execute shellImage 0x7FFF00 (some shell) (bootState default) = .started 1 eip k₁ ∧
    fileSystem shellImage (pcbAddr 1) k₁ (.open (some shell) default) (2, none) k₂ ∧
    Streams shellImage (pcbAddr 1) [(.open (some shell) default, (2, none))] k₂ ∧
    ∀ b, ∃ out k₃, sysRead shellImage (pcbAddr 1) 2 (some b) 100 k₂ =
      .returned (40, out, k₃) := by
  obtain ⟨eip, k₁, hstart, hopen⟩ := shell_opens_shell
  have hstreams := streams filesOk_shellImage hstart
    (Run.single (R := Guarded AsksForBytes (fileSystem shellImage (pcbAddr 1)))
      (e := .open (some shell) default) ⟨trivial, hopen⟩)
  refine ⟨eip, k₁, _, hstart, hopen, hstreams, fun b => ?_⟩
  have hsize : fileSize shellImage 1 = 40 := by decide +kernel
  obtain ⟨pos, hpos, -, -, hread⟩ := hstreams.stream 2 (by omega)
    (by rw [Kernel.setPcb_self, Pcb.Open]; exact ⟨by omega, by omega, by simp; rfl⟩)
    (by rw [Kernel.setPcb_self, Pcb.setFd_self]; rfl)
  rw [Kernel.setPcb_self, Pcb.setFd_self] at hpos hread
  obtain rfl : pos = 0 := by
    simp only [openedFd] at hpos
    omega
  have hsz : fileSize shellImage (openedFd ((k₁.pcbMem (pcbAddr 1)).fdArray 2) 2 1).inodeNum = 40 :=
    hsize
  have h := hread b 100 (by omega) (by omega)
  rw [hsz] at h
  exact ⟨_, _, h⟩

end Kernel391

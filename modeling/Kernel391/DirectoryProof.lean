import Kernel391.Lib.Driven
import Kernel391.StreamProof

/-!
# The directory

* `lookup_exact` — a lookup by name finds exactly the names that are there.
* `LookupsAgree`, `lookups_agree` — when the lookup by index and the lookup by name tell the
  same: the terminator that the lookup by index writes behind the 32 bytes of the name clears
  the low byte of the type.
* `directory_listing` — reads of `.` deliver each name once, and then nothing.
-/

namespace Kernel391

open Bytes Driven

/-! ## Lookups by name -/

/-- **Lookup by name is exact.** It succeeds for the names of the entries, whatever their
lengths, and fills in the entry's type and inode number; otherwise it fails and leaves the
dentry alone. -/
theorem lookup_exact {im : Image} (h : im.DirOk)
    (htype : ∀ i < im.dirEntries.toNat, (im.entryType i).toNat < 64) {fname : CString}
    (hne : strlen fname ≠ 0) (d : Dentry) :
    ((readDentryByName im fname d).1 = 0 ↔
      ∃ i < im.dirEntries.toNat, im.entryName i = fname.bytes) ∧
    (∀ i < im.dirEntries.toNat, im.entryName i = fname.bytes →
      (readDentryByName im fname d).2.fileType = im.entryType i ∧
      (readDentryByName im fname d).2.inodeNum = im.entryInode i) ∧
    ((∀ i < im.dirEntries.toNat, im.entryName i ≠ fname.bytes) →
      readDentryByName im fname d = (-1, d)) := by
  have hfound (i) (hi : i < im.dirEntries.toNat) (hname : im.entryName i = fname.bytes) :=
    readDentryByName_found h.entriesOk hne d hi (Nat.lt_of_lt_of_le hi h.count_le) hname
  have hmissing (hnone : ∀ i < im.dirEntries.toNat, im.entryName i ≠ fname.bytes) :=
    readDentryByName_missing h.entriesOk hne d fun i hi _ => hnone i hi
  refine ⟨⟨fun hret => ?_, fun ⟨i, hi, hname⟩ => (hfound i hi hname).1⟩, fun i hi hname => ?_,
    hmissing⟩
  · by_contra hnone
    rw [hmissing fun i hi hname => hnone ⟨i, hi, hname⟩] at hret
    exact absurd hret (show (-1 : Int) ≠ 0 by decide)
  · obtain ⟨-, hinode, hft⟩ := hfound i hi hname
    have := htype i hi
    exact ⟨hft (by omega), hinode⟩

/-- The name `shell` is found, with type 2 and inode 1. -/
theorem lookup_exact_shell : (readDentryByName shellImage shell default).1 = 0 ∧
    (readDentryByName shellImage shell default).2.fileType = 2 ∧
    (readDentryByName shellImage shell default).2.inodeNum = 1 := by
  have hcount : shellImage.dirEntries.toNat = 2 := by decide +kernel
  have htype : ∀ i < shellImage.dirEntries.toNat, (shellImage.entryType i).toNat < 64 := by
    rw [hcount]
    decide +kernel
  have hname : shellImage.entryName 1 = shell.bytes := by decide +kernel
  have ht : shellImage.entryType 1 = 2 := by decide +kernel
  have hi : shellImage.entryInode 1 = 1 := by decide +kernel
  obtain ⟨hfound, hfields, -⟩ :=
    lookup_exact dirOk_shellImage htype (show strlen shell ≠ 0 by decide) default
  obtain ⟨h₁, h₂⟩ := hfields 1 (by rw [hcount]; decide) hname
  exact ⟨hfound.2 ⟨1, by rw [hcount]; decide, hname⟩, h₁.trans ht, h₂.trans hi⟩

/-! ## Lookups by index -/

/-- A copied name has the length of the name. -/
theorem strlenMax_strncpy (dest src : Buf) (n : Nat) :
    strlenMax (strncpy dest src n) n = strlenMax src n := by
  obtain ⟨h₁, h₂, h₃⟩ := strlenMax_spec src n
  refine strlenMax_unique h₁ (fun i hi => ?_) fun hlt => ?_
  · rw [strncpy_of_lt (by omega) fun j hj => h₂ j (by omega)]
    exact h₂ i hi
  · exact strncpy_of_nul hlt (Nat.le_refl _) (h₃ hlt)

/-- And its bytes. -/
theorem slice_strncpy (dest src : Buf) {n m : Nat} (hm : m ≤ strlenMax src n) :
    slice (strncpy dest src n) 0 m = slice src 0 m := by
  obtain ⟨h₁, h₂, -⟩ := strlenMax_spec src n
  apply slice_congr
  intro i hi
  exact strncpy_of_lt (by omega) fun j hj => h₂ j (by omega)

section

variable {im : Image} {i : Nat}

theorem readDentryByIndex_found {index : UInt32} (hi : index.toNat < im.dirEntries.toNat)
    (h63 : index.toNat < 63) (d : Dentry) :
    readDentryByIndex im index d =
      (0, { fname := strncpy d.fname (im.from_ (Image.entryAddr index.toNat)) fileNameSize
            fileType := im.entryType index.toNat - im.entryType index.toNat % 256
            inodeNum := im.entryInode index.toNat }) := by
  rw [readDentryByIndex, if_neg]
  · rfl
  · rw [ge_iff_le, UInt32.le_iff_toNat_le, bootBlockDirEntries]
    omega

theorem readDentryByIndex_missing {index : UInt32}
    (h : im.dirEntries.toNat ≤ index.toNat ∨ 63 ≤ index.toNat) (d : Dentry) :
    readDentryByIndex im index d = (-1, d) := by
  rw [readDentryByIndex, if_pos]
  rw [ge_iff_le, UInt32.le_iff_toNat_le, bootBlockDirEntries]
  omega

/-- The two lookups tell the same about entry `i`: its name, its type and its inode number. -/
structure LookupsAgree (im : Image) (i : Nat) : Prop where
  index : ∀ d, ∃ d', readDentryByIndex im (UInt32.ofNat i) d = (0, d') ∧
    slice d'.fname 0 (strlenMax d'.fname fileNameSize) = im.entryName i ∧
    d'.fileType = im.entryType i ∧ d'.inodeNum = im.entryInode i
  name : ∀ (fname : CString) d, fname.bytes = im.entryName i →
    ∃ d', readDentryByName im fname d = (0, d') ∧
      d'.fileType = im.entryType i ∧ d'.inodeNum = im.entryInode i

/-- Of the three types, only 0 survives the terminator. -/
theorem cleared_type {t : UInt32} (h : t.toNat ≤ 2) : t - t % 256 = t ↔ t = 0 := by
  rcases fileType_cases h with rfl | rfl | rfl <;> decide

/-- **When the two lookups agree.** On entry `i` they do exactly when it is one of the 63
entries there is room for and its type is 0. What the lookup by name finds is the name of an
entry, but for the empty string, which it takes for `.`. -/
theorem lookups_agree {im : Image} (h : im.EntriesOk)
    (htype : ∀ i < im.dirEntries.toNat, (im.entryType i).toNat ≤ 2) :
    (∀ i < im.dirEntries.toNat, LookupsAgree im i ↔ i < 63 ∧ im.entryType i = 0) ∧
    (∀ (fname : CString) d, ((readDentryByName im fname d).1 = 0 →
      ∃ i < im.dirEntries.toNat, im.entryName i = fname.bytes) ↔ strlen fname ≠ 0) := by
  refine ⟨fun i hi => ⟨fun hagree => ?_, fun ⟨h63, h0⟩ => ?_⟩, fun fname d =>
    ⟨fun hsome hempty => ?_, fun hne hret => ?_⟩⟩
  · have hlt := im.dirEntries.toNat_lt
    have hidx : (UInt32.ofNat i).toNat = i := toNat_ofNat_of_lt (by omega)
    obtain ⟨d', hread, -, hft, -⟩ := hagree.index default
    have h63 : i < 63 := by
      by_contra hc
      rw [readDentryByIndex_missing (.inr (by omega))] at hread
      exact absurd (congrArg Prod.fst hread) (show (-1 : Int) ≠ 0 by decide)
    rw [readDentryByIndex_found (by rw [hidx]; exact hi) (by rw [hidx]; exact h63), hidx] at hread
    obtain rfl := (Prod.mk.inj hread).2
    exact ⟨h63, (cleared_type (htype i hi)).1 hft⟩
  · have hidx : (UInt32.ofNat i).toNat = i := toNat_ofNat_of_lt (by omega)
    refine ⟨fun d => ?_, fun fname d hname => ?_⟩
    · refine ⟨_, readDentryByIndex_found (by rw [hidx]; exact hi) (by rw [hidx]; exact h63) d,
        ?_, ?_, ?_⟩ <;> simp only [hidx]
      · rw [strlenMax_strncpy, slice_strncpy _ _ (Nat.le_refl _)]
        rfl
      · exact (cleared_type (htype i hi)).2 h0
    · have hne : strlen fname ≠ 0 := fun hc =>
        h.nonempty i hi (hname ▸ List.length_eq_zero_iff.1 hc)
      obtain ⟨h₁, h₂, h₃⟩ := readDentryByName_found h hne d hi h63 hname.symm
      have := htype i hi
      exact ⟨_, Prod.ext h₁ rfl, h₃ (by omega), h₂⟩
  · have hbytes : fname.bytes = [] := List.length_eq_zero_iff.1 hempty
    obtain ⟨i, hi, hname⟩ := hsome (by
      rw [readDentryByName, hempty]
      rfl)
    exact h.nonempty i hi (hname.trans hbytes)
  · by_contra hnone
    rw [readDentryByName_missing h hne d fun i hi _ hname => hnone ⟨i, hi, hname⟩] at hret
    exact absurd hret (show (-1 : Int) ≠ 0 by decide)

/-- Entry 1 of a directory with the regular file `shell`: the lookup by name tells type 2, the
lookup by index type 0. -/
theorem lookups_disagree : shellImage.entryType 1 = 2 ∧
    (readDentryByName shellImage shell default).2.fileType = 2 ∧
    (readDentryByIndex shellImage 1 default).2.fileType = 0 ∧ ¬ LookupsAgree shellImage 1 := by
  have ht : shellImage.entryType 1 = 2 := by decide +kernel
  have hname : (readDentryByName shellImage shell default).2.fileType = 2 := by decide +kernel
  have hindex : (readDentryByIndex shellImage 1 default).2.fileType = 0 := by decide +kernel
  refine ⟨ht, hname, hindex, fun h => ?_⟩
  obtain ⟨d', hread, -, hft, -⟩ := h.index default
  have hread' : readDentryByIndex shellImage 1 default = (0, d') := hread
  rw [hread', hft, ht] at hindex
  exact absurd hindex (by decide)

/-- The directory `.` and the device `rtc`, whose type is 0. -/
def deviceImage : Image := sparseImage
  [(0, 2), (4, 64), (8, 1), (64, 46), (96, 1), (128, 114), (129, 116), (130, 99)]

theorem entriesOk_deviceImage : deviceImage.EntriesOk where
  count_pos := by decide +kernel
  dot := by decide +kernel
  nonempty := by decide +kernel
  distinct := by decide +kernel
  inode_lt := by decide +kernel
  unused := sparseImage_unused (show deviceImage.dirEntries.toNat = 2 by decide +kernel) (by decide)

/-- The two lookups agree on the device, and not on `.`. -/
theorem lookups_agree_device : LookupsAgree deviceImage 1 ∧ ¬ LookupsAgree deviceImage 0 := by
  have hcount : deviceImage.dirEntries.toNat = 2 := by decide +kernel
  have htype : ∀ i < deviceImage.dirEntries.toNat, (deviceImage.entryType i).toNat ≤ 2 := by
    rw [hcount]
    decide +kernel
  have h0 : deviceImage.entryType 0 = 1 := by decide +kernel
  have h1 : deviceImage.entryType 1 = 0 := by decide +kernel
  have hagree := (lookups_agree entriesOk_deviceImage htype).1
  refine ⟨(hagree 1 (by rw [hcount]; decide)).2 ⟨by decide, h1⟩, fun h => ?_⟩
  have := ((hagree 0 (by rw [hcount]; decide)).1 h).2
  rw [h0] at this
  exact absurd this (by decide)

end

/-! ## Listing the directory -/

/-- The copy loop of `dir_read` copies the name, as far as the buffer reaches, and notes when it
came to the end of the name. -/
theorem dirCopy_eq (fname : Buf) (fileSize : Nat) (n : Nat) : ∀ (j : Nat) (buf : Buf),
    j < fileSize → dirCopy fname fileSize n j buf =
      (store buf j (fun i => fname (j + i)) (min n (fileSize - j)),
        if fileSize - j ≤ n then some fileSize else none) := by
  induction n with
  | zero =>
    intro j buf hj
    rw [dirCopy, Nat.zero_min, store_zero, if_neg (by omega)]
  | succ n ih =>
    intro j buf hj
    have hone : Function.update buf j (fname j) = store buf j (fun i => fname (j + i)) 1 := by
      funext i
      by_cases hi : i = j
      · rw [hi, Function.update_self, store_of_lt (Nat.le_refl _) (by omega), Nat.sub_self,
          Nat.add_zero]
      · rw [Function.update_of_ne hi, store_of_not (by omega)]
    rw [dirCopy, hone]
    by_cases hend : j + 1 ≥ fileSize
    · -- the last byte of the name
      rw [if_pos hend, if_pos (by omega), show min (n + 1) (fileSize - j) = 1 by omega]
    · rw [if_neg hend, ih (j + 1) _ (by omega), store_store rfl,
        show 1 + min n (fileSize - (j + 1)) = min (n + 1) (fileSize - j) by omega]
      rw [Prod.mk.injEq]
      refine ⟨store_congr fun i hi => ?_, ?_⟩
      · split
        · rw [show i = 0 by omega]
        · congr 1
          omega
      · by_cases hfit : fileSize - j ≤ n + 1
        · rw [if_pos hfit, if_pos (by omega)]
        · rw [if_neg hfit, if_neg (by omega)]

section

variable {im : Image} {fd : Nat} {p : Pcb} {pos : Nat} {nbytes : Int}

/-- `dir_read` at an entry: its copy loop, and on to the next entry. -/
theorem dirRead_found (hfd : 2 ≤ fd ∧ fd ≤ 7)
    (hidx : (UInt32.ofInt (p.fdArray fd).filePos).toNat = pos)
    (hlt : pos < im.dirEntries.toNat) (h63 : pos < 63) (buf : Buf) :
    dirRead im fd buf nbytes p =
      let copied := dirCopy (strncpy (default : Dentry).fname (im.from_ (Image.entryAddr pos))
        fileNameSize) (im.entryName pos).length nbytes.toNat 0 buf
      (copied.2.elim nbytes fun n => ↑n, copied.1,
        p.setFd fd { p.fdArray fd with filePos := (p.fdArray fd).filePos + 1 }) := by
  unfold dirRead
  dsimp only
  rw [if_neg (by omega), readDentryByIndex_found (by rw [hidx]; exact hlt)
    (by rw [hidx]; exact h63), if_neg (show ¬ (0 : Int) = -1 by decide)]
  dsimp only
  rw [hidx, strlenMax_strncpy, ← entryName_length]
  refine Prod.ext ?_ rfl
  dsimp only
  split <;> rename_i h <;> rw [h] <;> rfl

/-- The prefix of the name that fits is stored, and nothing else. -/
theorem dirRead_entry (hfd : 2 ≤ fd ∧ fd ≤ 7)
    (hidx : (UInt32.ofInt (p.fdArray fd).filePos).toNat = pos)
    (hlt : pos < im.dirEntries.toNat) (h63 : pos < 63) (hname : im.entryName pos ≠ [])
    (hn : 1 ≤ nbytes) (buf : Buf) : ∃ buf',
    dirRead im fd buf nbytes p = (min nbytes (im.entryName pos).length, buf',
      p.setFd fd { p.fdArray fd with filePos := (p.fdArray fd).filePos + 1 }) ∧
    slice buf' 0 (min nbytes.toNat (im.entryName pos).length) =
      (im.entryName pos).take nbytes.toNat ∧
    ∀ j, min nbytes.toNat (im.entryName pos).length ≤ j → buf' j = buf j := by
  have hlen := entryName_length im pos
  have hpos' : 0 < (im.entryName pos).length := List.length_pos_iff.2 hname
  rw [dirRead_found hfd hidx hlt h63, dirCopy_eq _ _ _ _ _ hpos', Nat.sub_zero]
  refine ⟨store buf 0 (fun i => strncpy (default : Dentry).fname
    (im.from_ (Image.entryAddr pos)) fileNameSize (0 + i))
      (min nbytes.toNat (im.entryName pos).length), Prod.ext ?_ rfl, ?_, fun j hj => ?_⟩
  · by_cases hfit : (im.entryName pos).length ≤ nbytes.toNat
    · simp only [if_pos hfit, Option.elim_some]
      omega
    · simp only [if_neg hfit, Option.elim_none]
      omega
  · have htake : (im.entryName pos).take nbytes.toNat = slice (im.from_ (Image.entryAddr pos)) 0
        (min nbytes.toNat (im.entryName pos).length) := by
      rw [hlen]
      exact slice_take _ _ _ _
    rw [slice_store, htake]
    simp only [Nat.zero_add]
    exact slice_strncpy _ _ (by omega)
  · exact store_of_not (.inr (by omega))

/-- A `dir_read` past the last entry does nothing. -/
theorem dirRead_end (hfd : 2 ≤ fd ∧ fd ≤ 7)
    (hidx : (UInt32.ofInt (p.fdArray fd).filePos).toNat = pos)
    (hle : im.dirEntries.toNat ≤ pos ∨ 63 ≤ pos) (buf : Buf) :
    dirRead im fd buf nbytes p = (0, buf, p) := by
  unfold dirRead
  dsimp only
  rw [if_neg (by omega), readDentryByIndex_missing (by rw [hidx]; exact hle), if_pos rfl]

end

/-- `read` through descriptor `fd`, as a machine: a call gives a buffer and a size, and gets the
returned value and the buffer back if it returns. -/
def reader (im : Image) (curr : Nat) (fd : Int) (k : Kernel) (call : Buf × Int) :
    Option (Int × Option Buf) × Kernel :=
  match sysRead im curr fd (some call.1) call.2 k with
  | .returned (ret, buf, k) => (some (ret, buf), k)
  | _ => (none, k)

/-- `fd` is open on the directory, at entry `pos`. -/
structure ListingDir (curr fd pos : Nat) (k : Kernel) : Prop where
  ge : 2 ≤ fd
  le : fd ≤ 7
  opened : (k.pcbMem curr).Open fd
  table : ((k.pcbMem curr).fdArray fd).operationstable = .directorytable
  pos : ((k.pcbMem curr).fdArray fd).filePos = pos

/-- Opening `.` gives a descriptor at entry 0. -/
theorem listingDir_open {im : Image} {curr : Nat} {dot : CString} {d : Dentry} {k k₁ : Kernel}
    {fd : Int} (h0 : im.entryName 0 = [46]) (hdot : dot.bytes = [46])
    (hopen : sysOpen im curr (some dot) d k = .returned (fd, k₁)) (hfd : fd ≠ -1) :
    ∃ n : Nat, fd = n ∧ ListingDir curr n 0 k₁ := by
  rcases sysOpen_cases im curr (some dot) d k with h | ⟨n, m, hn, hfree, -, -, -, h⟩
  · rw [h] at hopen
    obtain ⟨rfl, -⟩ := Prod.mk.inj (Outcome.returned.inj hopen)
    exact absurd rfl hfd
  · obtain rfl := Option.some.inj hn
    rw [h, readDentryByName_dot h0 hdot] at hopen
    obtain ⟨rfl, rfl⟩ := Prod.mk.inj (Outcome.returned.inj hopen)
    have h7 := hfree.le
    refine ⟨m, rfl, ⟨hfree.ge, hfree.le, ?_, ?_, ?_⟩⟩ <;> rw [Kernel.setPcb_self]
    · exact ⟨by omega, by omega, by rw [Int.toNat_natCast, Pcb.setFd_self]; rfl⟩
    · rw [Pcb.setFd_self]
      rfl
    · rw [Pcb.setFd_self]
      rfl

/-- A read through it is a `dir_read`. -/
theorem reader_eq {im : Image} {curr fd pos : Nat} {k : Kernel} {call : Buf × Int}
    (h : ListingDir curr fd pos k) : reader im curr fd k call =
      (some ((dirRead im fd call.1 call.2 (k.pcbMem curr)).1,
          some (dirRead im fd call.1 call.2 (k.pcbMem curr)).2.1),
        k.setPcb curr (dirRead im fd call.1 call.2 (k.pcbMem curr)).2.2) := by
  have hge := h.ge
  have hne : (fd : Int) ≠ fdStdout := by
    rw [fdStdout]
    omega
  rw [reader, sysRead_of_open _ hne h.opened, Int.toNat_natCast, h.table]
  rfl

/-- What the read number `i` of a listing gives back: the prefix of name `i` that fits, or
nothing once all names were read. -/
def Lists (im : Image) (i : Nat) (call : Buf × Int) (out : Option (Int × Option Buf)) : Prop :=
  if i < im.dirEntries.toNat then ∃ buf' : Buf,
    out = some (min call.2 (im.entryName i).length, some buf') ∧
    slice buf' 0 (min call.2.toNat (im.entryName i).length) =
      (im.entryName i).take call.2.toNat ∧
    ∀ j, min call.2.toNat (im.entryName i).length ≤ j → buf' j = call.1 j
  else out = some (0, some call.1)

theorem lists_step {im : Image} {curr fd i : Nat} {k : Kernel} {call : Buf × Int}
    (h63 : im.dirEntries.toNat ≤ 63)
    (hname : ∀ j < im.dirEntries.toNat, im.entryName j ≠ [])
    (h : ListingDir curr fd (min i im.dirEntries.toNat) k) (hn : 1 ≤ call.2) :
    Lists im i call (reader im curr fd k call).1 ∧
    ListingDir curr fd (min (i + 1) im.dirEntries.toNat) (reader im curr fd k call).2 := by
  have hidx : (UInt32.ofInt ((k.pcbMem curr).fdArray fd).filePos).toNat =
      min i im.dirEntries.toNat := by
    rw [h.pos, toNat_ofInt (by omega) (by omega), Int.toNat_natCast]
  have hpos := h.pos
  rw [reader_eq h, Lists]
  by_cases hi : i < im.dirEntries.toNat
  · rw [Nat.min_eq_left (Nat.le_of_lt hi)] at hidx hpos
    obtain ⟨buf', hread, hslice, hrest⟩ := dirRead_entry ⟨h.ge, h.le⟩ hidx hi
      (Nat.lt_of_lt_of_le hi h63) (hname i hi) hn call.1
    rw [if_pos hi, hread, Nat.min_eq_left hi]
    refine ⟨⟨buf', rfl, hslice, hrest⟩, ⟨h.ge, h.le, ?_, ?_, ?_⟩⟩ <;>
      dsimp only <;> rw [Kernel.setPcb_self]
    · obtain ⟨h₁, h₂, h₃⟩ := h.opened
      exact ⟨h₁, h₂, by rw [Int.toNat_natCast, Pcb.setFd_self]; exact h₃⟩
    · rw [Pcb.setFd_self]
      exact h.table
    · rw [Pcb.setFd_self, hpos]
      rfl
  · rw [Nat.min_eq_right (Nat.not_lt.1 hi)] at hidx hpos
    have hread := @dirRead_end im fd (k.pcbMem curr) im.dirEntries.toNat call.2 ⟨h.ge, h.le⟩ hidx
      (.inl (Nat.le_refl _)) call.1
    rw [if_neg hi, hread, Nat.min_eq_right (by omega)]
    refine ⟨rfl, ⟨h.ge, h.le, ?_, ?_, ?_⟩⟩ <;> dsimp only <;> rw [Kernel.setPcb_self]
    · exact h.opened
    · exact h.table
    · exact hpos

/-- **Listing enumerates every entry once.** After `.` was opened, read number `i` gives the
prefix of name `i` that fits into the buffer, and nothing else; once all names were read, every
read returns 0 and stores nothing. -/
theorem directory_listing {im : Image} {curr : Nat} {dot : CString} {d : Dentry}
    {k k₁ : Kernel} {fd : Int} {calls : ℕ → Buf × Int}
    (hcount : 1 ≤ im.dirEntries.toNat ∧ im.dirEntries.toNat ≤ 63)
    (h0 : im.entryName 0 = [46]) (hname : ∀ j < im.dirEntries.toNat, im.entryName j ≠ [])
    (hdot : dot.bytes = [46]) (hopen : sysOpen im curr (some dot) d k = .returned (fd, k₁))
    (hfd : fd ≠ -1) (hcalls : ∀ i, 1 ≤ (calls i).2) (i : Nat) :
    Lists im i (calls i) (outputAt (reader im curr fd) k₁ calls i) := by
  obtain ⟨n, rfl, h⟩ := listingDir_open h0 hdot hopen hfd
  have hI : ListingDir curr n (min i im.dirEntries.toNat)
      (stateAt (reader im curr n) k₁ calls i) := by
    apply stateAt_inv (fun i => ListingDir curr n (min i im.dirEntries.toNat))
    · rw [Nat.zero_min]
      exact h
    · intro i a ha
      exact (lists_step hcount.2 hname ha (hcalls i)).2
  exact (lists_step hcount.2 hname hI (hcalls i)).1

/-- The name of the directory. -/
def dot : CString := ⟨[46], by simp⟩

/-- Reads of eight bytes in a directory with the entries `.` and `rtc`: the second gives the three
bytes of `rtc`, the third nothing. -/
theorem directory_listing_device : ∃ k₁ : Kernel,
    sysOpen deviceImage 0 (some dot) default default = .returned (2, k₁) ∧
    (∃ buf' : Buf, outputAt (reader deviceImage 0 2) k₁ (fun _ => (fun _ => 1, 8)) 1 =
      some (3, some buf') ∧ slice buf' 0 3 = [114, 116, 99] ∧ buf' 3 = 1) ∧
    outputAt (reader deviceImage 0 2) k₁ (fun _ => (fun _ => 1, 8)) 2 =
      some (0, some fun _ => 1) := by
  have hcount : deviceImage.dirEntries.toNat = 2 := by decide +kernel
  have hname : deviceImage.entryName 1 = [114, 116, 99] := by decide +kernel
  have hfound := readDentryByName_dot entriesOk_deviceImage.dot.1 (show dot.bytes = [46] from rfl)
    default
  have hfree : ((default : Kernel).pcbMem 0).LeastFree 2 :=
    ⟨by omega, by omega, rfl, fun i _ _ => by omega⟩
  have hopen := @sysOpen_of_free deviceImage 0 dot default default 2 (show strlen dot ≠ 0 by decide)
    (by rw [hfound]; exact show (0 : Int) ≠ -1 by decide) (by rw [hfound]; exact .inr (.inl rfl))
    hfree
  have hlist := @directory_listing deviceImage 0 dot default default _ 2
    (fun _ => (fun _ => 1, 8)) (by rw [hcount]; decide) entriesOk_deviceImage.dot.1
    entriesOk_deviceImage.nonempty rfl hopen (by decide) (fun _ => by decide)
  refine ⟨_, hopen, ?_, ?_⟩
  · have h := hlist 1
    rw [Lists, if_pos (by rw [hcount]; decide), hname] at h
    obtain ⟨buf', h₁, h₂, h₃⟩ := h
    exact ⟨buf', h₁, h₂, h₃ 3 (by decide)⟩
  · have h := hlist 2
    rw [Lists, if_neg (by rw [hcount]; decide)] at h
    exact h

end Kernel391

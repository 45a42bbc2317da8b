import Kernel391.SupportProof
import Mathlib.Algebra.Order.BigOperators.Group.List

/-!
# What the programs do

`cat`, `ls`, `hello` and `testprint` in the machine of one program: each ends, and prints what its
comment and its name promise.

* `readsFile_cases` — a read brings the next bytes of what is left of an open file.
* `ends_cat`, `ends_ls`, `ends_hello`, `ends_testprint` — the programs.
-/

namespace Kernel391

open Bytes Interaction User

/-! ## What is left of an open file -/

/-- What reads of `n` bytes at most bring in all. -/
def Image.left (im : Image) (n : Nat) : OpenFile → List UInt8
  | .rtc => []
  | .dir pos => (List.range' pos (im.dirEntries.toNat - pos)).flatMap fun i =>
      (im.entryName i).take n
  | .file inode pos => (im.contents inode).drop pos

/-- The names from entry `pos` on, a line each. -/
def Image.listing (im : Image) (pos : Nat) : List UInt8 :=
  (List.range' pos (im.dirEntries.toNat - pos)).flatMap fun i => im.entryName i ++ [newline]

section Files

variable {im : Image} {v : UserView} {fd n pos : Nat} {f : OpenFile} {l : List UInt8}

theorem UserView.put_nil (buf : Nat) (v : UserView) : v.put buf [] = v := by
  simp only [UserView.put, List.length_nil, Nat.zero_min, store_zero]

theorem UserView.setFile_self (hf : v.files fd = some f) : v.setFile fd (some f) = v := by
  rw [UserView.setFile, ← hf, Function.update_eq_self]

theorem left_dir (h : pos < im.dirEntries.toNat) :
    im.left n (.dir pos) = (im.entryName pos).take n ++ im.left n (.dir (pos + 1)) := by
  obtain ⟨m, hm⟩ : ∃ m, im.dirEntries.toNat - pos = m + 1 :=
    ⟨im.dirEntries.toNat - pos - 1, by omega⟩
  simp only [Image.left]
  rw [hm, List.range'_succ, List.flatMap_cons, show im.dirEntries.toNat - (pos + 1) = m by omega]

theorem listing_of_lt {pos : Nat} (h : pos < im.dirEntries.toNat) :
    im.listing pos = im.entryName pos ++ [newline] ++ im.listing (pos + 1) := by
  obtain ⟨m, hm⟩ : ∃ m, im.dirEntries.toNat - pos = m + 1 :=
    ⟨im.dirEntries.toNat - pos - 1, by omega⟩
  rw [Image.listing, hm, List.range'_succ, List.flatMap_cons, Image.listing,
    show im.dirEntries.toNat - (pos + 1) = m by omega]

/-- **A read brings the next bytes** of what is left, if anything is left. -/
theorem readsFile_cases (hok : im.Ok) (hn : 0 < n) (hf : v.files fd = some f) (buf : Nat) :
    (im.left n f = [] ∧ readsFile im fd buf n v f = ([], v)) ∨
    ∃ l f', f' ≠ .rtc ∧ l ≠ [] ∧ l.length ≤ n ∧ im.left n f = l ++ im.left n f' ∧
      readsFile im fd buf n v f = (l, (v.put buf l).setFile fd (some f')) := by
  cases f with
  | rtc => exact .inl ⟨rfl, rfl⟩
  | dir pos =>
    by_cases hpos : pos < im.dirEntries.toNat
    · refine .inr ⟨(im.entryName pos).take n, .dir (pos + 1), by simp, ?_,
        List.length_take_le _ _, left_dir hpos, if_pos hpos⟩
      have hne := hok.dir.nonempty pos hpos
      intro hc
      rcases List.take_eq_nil_iff.1 hc with h | h
      · omega
      · exact hne h
    · refine .inl ⟨?_, if_neg hpos⟩
      simp only [Image.left]
      rw [Nat.sub_eq_zero_of_le (Nat.not_lt.1 hpos)]
      rfl
  | file inode pos =>
    by_cases hnil : (im.contents inode).drop pos = []
    · refine .inl ⟨hnil, ?_⟩
      simp only [readsFile, hnil, List.take_nil, List.length_nil, Nat.add_zero, UserView.put_nil,
        UserView.setFile_self hf]
    · refine .inr ⟨((im.contents inode).drop pos).take n, .file inode _, by simp, ?_,
        List.length_take_le _ _, ?_, rfl⟩
      · intro hc
        rcases List.take_eq_nil_iff.1 hc with h | h
        · omega
        · exact hnil h
      · simp only [Image.left]
        rw [List.length_take, ← List.drop_drop]
        conv_lhs => rw [← List.take_append_drop n ((im.contents inode).drop pos)]
        congr 1
        rcases Nat.le_total n ((im.contents inode).drop pos).length with h | h
        · rw [Nat.min_eq_left h]
        · rw [Nat.min_eq_right h, List.drop_of_length_le h, List.drop_length]

/-- What is left of a file that was just opened. -/
theorem left_opened_length (hok : im.Ok) (h : im.opened l = some f) :
    (im.left n f).length < 2 ^ 22 := by
  obtain ⟨i, hi, -, rfl⟩ := opened_eq_some h
  split_ifs with h₀ h₁
  · exact Nat.two_pow_pos 22
  · have hname (j : Nat) : ((im.entryName j).take n).length ≤ 32 :=
      (List.length_take_le' _ _).trans ((entryName_length im j).trans_le (strlenMax_spec _ _).1)
    have hcount := hok.dir.count_le
    simp only [Image.left, List.length_flatMap]
    refine (List.sum_le_card_nsmul _ 32 ?_).trans_lt ?_
    · intro m hm
      obtain ⟨j, -, rfl⟩ := List.mem_map.1 hm
      exact hname j
    · rw [List.length_map, List.length_range', nsmul_eq_mul, Nat.cast_id]
      omega
  · have hcount := hok.dir.count_le
    have h₂ : im.entryType i = 2 := by
      have hle := hok.types i hi
      have hne₀ : (im.entryType i).toNat ≠ 0 := fun hc => h₀ (UInt32.toNat_inj.1 hc)
      have hne₁ : (im.entryType i).toNat ≠ 1 := fun hc => h₁ (UInt32.toNat_inj.1 hc)
      refine UInt32.toNat_inj.1 ?_
      show (im.entryType i).toNat = 2
      omega
    have hsize := (hok.files i (by omega) (hok.dir.nonempty i hi) (h₂ ▸ rfl)).size_le
    simp only [Image.left, Image.contents, List.drop_zero, length_slice]
    omega

theorem file_of_two_le {fd : Int} (h2 : 2 ≤ fd) (h7 : fd ≤ 7) : v.file fd = v.files fd.toNat :=
  if_pos ⟨h2, h7⟩

theorem leastFree_fresh (hfiles : ∀ fd, v.files fd = none) : v.leastFree = some 2 := by
  simp [UserView.leastFree, hfiles, List.range']

theorem opened_dot (hok : im.Ok) : im.opened (chars ".") = some (.dir 0) := by
  obtain ⟨hname, htype, -⟩ := hok.dir.dot
  have hpos := hok.dir.count_pos
  have hfind : (List.range im.dirEntries.toNat).find? (fun i => im.entryName i = chars ".") =
      some 0 := by
    rw [List.find?_range_eq_some]
    exact ⟨decide_eq_true hname, List.mem_range.2 hpos, fun i hi => absurd hi (Nat.not_lt_zero i)⟩
  rw [Image.opened, hfind, Option.map_some, htype]
  rfl

end Files

/-! ## Constants and buffers -/

/-- `v'` has the page of `v`, but for the `n` bytes from `buf` on. -/
def SameOutside (buf n : Nat) (v v' : UserView) : Prop :=
  ∀ x, x < buf ∨ buf + n ≤ x → v'.page x = v.page x

/-- The constant string `s` is in the page, and not in the `n` bytes from `buf` on. -/
structure Constant (lit : String → Nat) (buf n : Nat) (s : String) (v : UserView) : Prop where
  string : StringAt v (lit s) (chars s)
  room : lit s + 4 ≤ userPageEnd
  apart : buf + n ≤ lit s ∨ lit s + (chars s).length < buf

section Constants

variable {lit : String → Nat} {buf n : Nat} {s : String} {v v' v₁ : UserView} {m : List UInt8}

theorem SameOutside.refl (buf n : Nat) (v : UserView) : SameOutside buf n v v := fun _ _ => rfl

theorem SameOutside.trans (h : SameOutside buf n v v₁) (h' : SameOutside buf n v₁ v') :
    SameOutside buf n v v' := fun x hx => (h' x hx).trans (h x hx)

theorem sameOutside_put {va : Nat} (hlo : buf ≤ va) (hhi : va + m.length ≤ buf + n) :
    SameOutside buf n v (v.put va m) := fun x hx => page_put va m v x (by omega)

theorem Constant.outside (h : Constant lit buf n s v) (hs : SameOutside buf n v v') :
    Constant lit buf n s v' where
  string := h.string.congr fun x h₁ h₂ => hs x (by
    have := h.apart
    omega)
  room := h.room
  apart := h.apart

/-- A string and its NUL among the bytes of the page. -/
theorem stringAt_of_slice {l t : List UInt8} (hlo : userPageStart ≤ buf)
    (hhi : buf + n ≤ userPageEnd) (hs : slice v.page buf n = l ++ 0 :: t)
    (hnul : ∀ b ∈ l, b ≠ 0) : StringAt v buf l := by
  have hn := congrArg List.length hs
  rw [length_slice, List.length_append, List.length_cons] at hn
  rw [hn, slice_add, slice_cons] at hs
  obtain ⟨hbytes, htail⟩ := List.append_inj hs (length_slice _ _ _)
  exact ⟨hlo, by omega, hbytes, (List.cons.inj htail).1, hnul⟩

theorem terminated (l : List UInt8) : ∃ t, l ++ [0] = l.takeWhile (· ≠ 0) ++ 0 :: t := by
  induction l with
  | nil => exact ⟨[], rfl⟩
  | cons c l ih =>
    by_cases hc : c = 0
    · exact ⟨l ++ [0], by simp [hc]⟩
    · obtain ⟨t, ht⟩ := ih
      refine ⟨t, ?_⟩
      rw [List.takeWhile_cons_of_pos (by simpa using hc), List.cons_append, List.cons_append, ht]

/-- Bytes filled up with NULs. -/
theorem padded {l : List UInt8} (h : l.length < n) :
    ∃ t, (l ++ List.replicate n 0).take n = l ++ 0 :: t := by
  obtain ⟨m, hm⟩ : ∃ m, n - l.length = m + 1 := ⟨n - l.length - 1, by omega⟩
  refine ⟨List.replicate m 0, ?_⟩
  rw [List.take_append, List.take_of_length_le h.le, List.take_replicate, hm,
    Nat.min_eq_left (by omega), List.replicate_succ]

/-- Bytes and a NUL after them: the string ends at the first NUL. -/
theorem stringAt_terminated {l : List UInt8} (hlo : userPageStart ≤ buf)
    (hhi : buf + l.length < userPageEnd) (hl : slice v.page buf l.length = l)
    (hend : v.page (buf + l.length) = 0) : StringAt v buf (l.takeWhile (· ≠ 0)) := by
  obtain ⟨t, ht⟩ := terminated l
  have hs : slice v.page buf (l.length + 1) = l.takeWhile (· ≠ 0) ++ 0 :: t := by
    rw [slice_succ, hl, hend, ht]
  exact stringAt_of_slice hlo (by omega) hs fun b hb => by simpa using List.mem_takeWhile_imp hb

/-- A byte stored behind others. -/
theorem slice_put_put {l : List UInt8} (c : UInt8) (hroom : buf + l.length < userPageEnd) :
    slice ((v.put buf l).put (buf + l.length) [c]).page buf (l.length + 1) = l ++ [c] := by
  rw [slice_succ, page_put_of_lt le_rfl (by simp) hroom, Nat.sub_self]
  congr 1
  refine (slice_congr fun i hi => ?_).trans (slice_put v hroom.le)
  exact page_put _ _ _ _ (by omega)

/-- A line that was read, with a NUL stored at its end or before its newline. -/
theorem stringAt_line {line l : List UInt8} {n : Nat} (hl : l <+: line ++ [newline])
    (hlo : userPageStart ≤ buf) (hline : line.length + 1 ≤ n)
    (hhi : buf + n < userPageEnd) :
    StringAt ((readsLine buf n line v).put (buf + l.length) [0]) buf (l.takeWhile (· ≠ 0)) := by
  have hlen := hl.length_le
  rw [List.length_append, List.length_singleton] at hlen
  refine stringAt_terminated hlo (by omega) ?_ ?_
  · refine (slice_congr fun i hi => page_put _ _ _ _ (by omega)).trans ?_
    have hs : slice (readsLine buf n line v).page buf (line ++ [newline]).length =
        line ++ [newline] := slice_put _ (by simp; omega)
    have htake := congrArg (List.take l.length) hs
    rwa [slice_take, List.length_append, List.length_singleton, Nat.min_eq_left hlen,
      ← List.prefix_iff_eq_take.1 hl] at htake
  · rw [page_put_of_lt le_rfl (by simp) (by simp; omega), Nat.sub_self]
    rfl

/-- The buffer of a `read` from the terminal holds whatever line comes. -/
theorem sameOutside_line {line l : List UInt8} {n m : Nat} (hn : n ≤ m)
    (hline : line.length + 1 ≤ m) (hl : l.length < m) :
    SameOutside buf m v ((readsLine buf n line v).put (buf + l.length) [0]) := by
  refine ((sameOutside_put le_rfl ?_).trans (sameOutside_put le_rfl ?_)).trans
    (sameOutside_put (by omega) ?_)
  · rw [List.length_replicate]
    omega
  · rw [List.length_append, List.length_singleton]
    omega
  · rw [List.length_singleton]
    omega

end Constants

/-! ## The programs -/

section Programs

variable {im : Image} {B : Allowance} {tr : List (Act × Answer)} {v : UserView}
  {lit : String → Nat} {buf fuel : Nat} {fd : Int} {f : OpenFile} {s : String}

variable (hB : Permits B)

include hB

theorem ends_message {n : Nat} (h : Constant lit buf n s v) (hfuel : (chars s).length < fuel) :
    Ends im B (ece391Fdputs fuel 1 (lit s)) tr v fun tr' v' r =>
      Said (chars s) tr tr' ∧ v' = v ∧ r = () := ends_fdputs hB h.string h.room hfuel

/-- The loop of `cat` prints what is left of the file. Only for the clock it waits. -/
theorem ends_catLoop (hok : im.Ok) (hclock : f = .rtc → ∀ tr v a, B tr v a)
    (hlo : userPageStart ≤ buf) (hhi : buf + 1024 ≤ userPageEnd) (h2 : 2 ≤ fd) (h7 : fd ≤ 7)
    (hf : v.file fd = some f) (hfuel : (im.left 1024 f).length < fuel) :
    Ends im B (catLoop lit buf fuel fd) tr v fun tr' _ ret =>
      Said (im.left 1024 f) tr tr' ∧ ret = 0 := by
  -- what was printed, and what is left, make up what was left at the start
  let I := fun n (_ : Unit) tr' (v' : UserView) => ∃ done g, v'.file fd = some g ∧
    (g = .rtc → f = .rtc) ∧ n = (im.left 1024 g).length ∧
    im.left 1024 f = done ++ im.left 1024 g ∧ Said done tr tr'
  refine Ensures.loop (I := I) ?_ hfuel ⟨[], f, hf, id, rfl, rfl, .refl tr⟩
  rintro n - tr₁ v₁ ⟨done, g, hg, hkind, rfl, hleft, hs⟩
  have hin : InUserPage buf := ⟨hlo, by omega⟩
  have hread : B tr₁ v₁ (.read fd buf 1024) := by
    by_cases hrtc : g = .rtc
    · exact hclock (hkind hrtc) _ _ _
    · refine hB _ _ _ ⟨by omega, ?_, hin, by decide, hhi⟩
      rw [hg]
      exact fun hc => hrtc (Option.some.inj hc)
  refine Ends.next (ends_read hread hin (by omega) hg) fun tr₂ hs₂ => ?_
  have hs := hs.trans hs₂
  rw [file_of_two_le h2 h7] at hg
  rcases readsFile_cases (n := 1024) hok (by decide) hg buf with
    ⟨hnil, hread⟩ | ⟨l, g', hrtc, hne, hlen, hnext, hread⟩
  · simp only [Int.reduceToNat, hread]
    rw [hnil, List.append_nil] at hleft
    rw [hleft]
    exact ⟨by simpa using hs, rfl⟩
  · have hpos := List.length_pos_iff.2 hne
    simp only [Int.reduceToNat, hread]
    rw [if_neg (by omega), if_neg (by omega)]
    refine Ends.next (ends_write hB hin _ (by omega)) fun tr₃ hs₃ => ?_
    rw [UserView.setFile_page, Int.toNat_natCast, slice_put v₁ (by omega)] at hs₃
    refine ⟨(im.left 1024 g').length, ?_, done ++ l, g', ?_, fun hc => absurd hc hrtc, rfl, ?_, ?_⟩
    · rw [hnext, List.length_append]
      omega
    · rw [file_of_two_le h2 h7]
      exact Function.update_self _ _ _
    · rw [hleft, hnext, List.append_assoc]
    · simpa using hs.trans hs₃

/-- What `cat` prints, and its status, by what it opens. -/
def catOutcome (im : Image) : Option OpenFile → List UInt8 × Int
  | none => (chars "file not found\n", 2)
  | some f => (im.left 1024 f, 0)

/-- **`cat`** prints the file that its arguments name. -/
theorem ends_cat (hok : im.Ok) (hclock : im.opened v.args = some .rtc → ∀ tr v a, B tr v a)
    (hlo : userPageStart ≤ buf) (hhi : buf + 1024 ≤ userPageEnd)
    (hfiles : ∀ fd, v.files fd = none) (hsize : v.argSize < 1024) (hlen : v.args.length < 1024)
    (hnul : ∀ b ∈ v.args, b ≠ 0) (hmsg : Constant lit buf 1024 "file not found\n" v)
    (hfuel : 2 ^ 22 ≤ fuel) :
    Ends im B (cat lit buf fuel) tr v fun tr' _ ret =>
      Said (catOutcome im (im.opened v.args)).1 tr tr' ∧
        ret = (catOutcome im (im.opened v.args)).2 := by
  have hin : InUserPage buf := ⟨hlo, by omega⟩
  refine Ends.next (ends_getargs hB hin hhi (by omega)) fun tr₁ hs₁ => ?_
  simp only [Int.reduceToNat, ne_eq, not_true, if_false]
  obtain ⟨t, ht⟩ := padded hlen
  rw [ht]
  generalize hm : v.args ++ 0 :: t = m at *
  have hmlen : m.length = 1024 := by
    rw [← ht, List.length_take, List.length_append, List.length_replicate]
    omega
  have hargs : StringAt (v.put buf m) buf v.args :=
    stringAt_of_slice hlo (by omega) ((slice_put v (by omega)).trans hm.symm) hnul
  have hout : SameOutside buf 1024 v (v.put buf m) := sameOutside_put le_rfl (by omega)
  have hmsg := hmsg.outside hout
  cases hopen : im.opened v.args with
  | none =>
    refine Ends.next (ends_open_missing hB hargs hopen) fun tr₂ hs₂ => ?_
    rw [if_pos rfl]
    refine Ends.next (ends_message hB hmsg ?_) fun tr₃ hs₃ => ?_
    · exact lt_of_lt_of_le (by decide) hfuel
    · exact ⟨(hs₁.trans hs₂).trans hs₃, rfl⟩
  | some f =>
    have hfree : (v.put buf m).leastFree = some 2 := leastFree_fresh hfiles
    refine Ends.next (ends_open hB hargs hopen hfree) fun tr₂ hs₂ => ?_
    rw [if_neg (by omega)]
    have hf : ((v.put buf m).setFile 2 (some f)).file (2 : Nat) = some f := by
      rw [file_of_two_le (by omega) (by omega)]
      simp [UserView.setFile]
    have hclock (hf : f = .rtc) : ∀ tr v a, B tr v a := hclock (hf ▸ hopen)
    refine (ends_catLoop hB hok hclock hlo hhi (by omega) (by omega) hf
      ((left_opened_length hok hopen).trans_le hfuel)).mono ?_
    rintro tr₃ _ ret ⟨hs₃, hret⟩
    exact ⟨(hs₁.trans hs₂).trans hs₃, hret⟩

/-! ### `ls` -/

/-- The loop of `ls`. -/
theorem ends_lsLoop (hok : im.Ok) (hlo : userPageStart ≤ buf) (hhi : buf + 33 ≤ userPageEnd)
    (h2 : 2 ≤ fd) (h7 : fd ≤ 7) (hf : v.file fd = some (.dir 0)) (hfuel : 64 ≤ fuel) :
    Ends im B (lsLoop lit buf fuel fd) tr v fun tr' _ ret =>
      Said (im.listing 0) tr tr' ∧ ret = 0 := by
  let I := fun n (_ : Unit) tr' (v' : UserView) => ∃ done pos, v'.file fd = some (.dir pos) ∧
    n = im.dirEntries.toNat - pos ∧ im.listing 0 = done ++ im.listing pos ∧ Said done tr tr'
  have hcount := hok.dir.count_le
  refine Ensures.loop (I := I) (n := im.dirEntries.toNat) ?_ (by omega)
    ⟨[], 0, hf, rfl, rfl, .refl tr⟩
  rintro n - tr₁ v₁ ⟨done, pos, hg, rfl, hlist, hs⟩
  have hin : InUserPage buf := ⟨hlo, by omega⟩
  have hn : ((sbufsize : Int) - 1).toNat = 32 := rfl
  have hread : B tr₁ v₁ (.read fd buf (sbufsize - 1)) := by
    refine hB _ _ _ ⟨by omega, ?_, hin, by decide, by omega⟩
    rw [hg]
    simp
  refine Ends.next (ends_read hread hin (by omega) hg) fun tr₂ hs₂ => ?_
  have hs := hs.trans hs₂
  have hlen : (im.entryName pos).length ≤ 32 :=
    (entryName_length im pos).trans_le (strlenMax_spec _ _).1
  rw [hn, readsFile, List.take_of_length_le hlen]
  by_cases hpos : pos < im.dirEntries.toNat
  · have hne := List.length_pos_iff.2 (hok.dir.nonempty pos hpos)
    simp only [if_pos hpos]
    rw [if_neg (by omega), if_neg (by omega), Int.toNat_natCast]
    have hend : InUserPage (buf + (im.entryName pos).length) := ⟨by omega, by omega⟩
    refine Ends.next (ends_store hB hend newline) fun tr₃ hs₃ => ?_
    refine Ends.next (ends_write hB hin _ (by omega)) fun tr₄ hs₄ => ?_
    have hslice : slice (((v₁.put buf (im.entryName pos)).setFile fd.toNat
        (some (.dir (pos + 1)))).put (buf + (im.entryName pos).length) [newline]).page buf
        ((im.entryName pos).length + 1) = im.entryName pos ++ [newline] :=
      slice_put_put newline (by omega)
    rw [show (((im.entryName pos).length : Int) + 1).toNat = (im.entryName pos).length + 1 by omega,
      hslice] at hs₄
    refine ⟨im.dirEntries.toNat - (pos + 1), by omega, done ++ (im.entryName pos ++ [newline]),
      pos + 1, ?_, rfl, ?_, ?_⟩
    · rw [file_of_two_le h2 h7]
      simp [UserView.setFile]
    · simp only [hlist, listing_of_lt hpos, List.append_assoc]
    · simpa using (hs.trans hs₃).trans hs₄
  · simp only [if_neg hpos, List.length_nil, Nat.cast_zero, if_true]
    have hnil : im.listing pos = [] := by
      rw [Image.listing, Nat.sub_eq_zero_of_le (Nat.not_lt.1 hpos)]
      rfl
    rw [hlist, hnil, List.append_nil]
    exact ⟨by simpa using hs, rfl⟩

/-- **`ls`** prints the names in the directory. -/
theorem ends_ls (hok : im.Ok) (hlo : userPageStart ≤ buf) (hhi : buf + 33 ≤ userPageEnd)
    (hfiles : ∀ fd, v.files fd = none) (hdot : Constant lit buf 33 "." v) (hfuel : 64 ≤ fuel) :
    Ends im B (ls lit buf fuel) tr v fun tr' _ ret =>
      Said (im.listing 0) tr tr' ∧ ret = 0 := by
  refine Ends.next (ends_open hB hdot.string (opened_dot hok) (leastFree_fresh hfiles))
    fun tr₁ hs₁ => ?_
  rw [if_neg (by omega)]
  have hf : (v.setFile 2 (some (.dir 0))).file (2 : Nat) = some (.dir 0) := by
    rw [file_of_two_le (by omega) (by omega)]
    simp [UserView.setFile]
  refine (ends_lsLoop hB hok hlo hhi (by omega) (by omega) hf hfuel).mono ?_
  rintro tr₂ _ ret ⟨hs₂, h⟩
  exact ⟨hs₁.trans hs₂, h⟩

/-! ### `hello` and `testprint` -/

/-- **`hello`** greets with the line it reads. -/
theorem ends_hello (hlo : userPageStart ≤ buf) (hhi : buf + 1024 ≤ userPageEnd)
    (hask : Constant lit buf 1024 "Hi, what's your name? " v)
    (hgreet : Constant lit buf 1024 "Hello, " v)
    (hread : ∀ tr v nbytes, B tr v (.read 0 buf nbytes)) (hfuel : 129 ≤ fuel) :
    Ends im B (hello lit buf fuel) tr v fun tr' _ ret => ∃ line : List UInt8, line.length ≤ 127 ∧
      linesRead tr' = linesRead tr ++ [line ++ [newline]] ∧
      printed tr' = printed tr ++ chars "Hi, what's your name? " ++ chars "Hello, " ++
        (line ++ [newline]).takeWhile (· ≠ 0) ∧ ret = 0 := by
  have hin : InUserPage buf := ⟨hlo, by omega⟩
  refine Ends.next (ends_message hB hask (lt_of_lt_of_le (by decide) hfuel)) fun tr₁ hs₁ => ?_
  refine Ensures.bind ((ends_readLine hin (hread _ _ _)).mono ?_)
  rintro tr₂ _ _ ⟨line, hlen, hprint, hlines, -, rfl, rfl⟩
  have hn : ((bufsize : Int) - 1).toNat = 1023 := rfl
  rw [hn, if_neg (by omega), show ((line.length : Int) + 1).toNat = line.length + 1 by omega]
  refine Ends.next (ends_store hB ⟨by omega, by omega⟩ 0) fun tr₃ hs₃ => ?_
  have hlast : (line ++ [newline]).length = line.length + 1 := by
    rw [List.length_append, List.length_singleton]
  have hlen' : ((line ++ [newline]).takeWhile (· ≠ 0)).length ≤ line.length + 1 :=
    hlast ▸ (List.takeWhile_sublist _).length_le
  have hstr := stringAt_line (v := v) (n := 1023) List.prefix_rfl hlo
    (show line.length + 1 ≤ 1023 by omega) (by omega)
  have hgreet := hgreet.outside (sameOutside_line (v := v) (l := line ++ [newline])
    (show 1023 ≤ 1024 by decide) (show line.length + 1 ≤ 1024 by omega) (by omega))
  rw [hlast] at hstr hgreet
  refine Ends.next (ends_message hB hgreet (lt_of_lt_of_le (by decide) hfuel)) fun tr₄ hs₄ => ?_
  refine Ends.next (ends_fdputs hB hstr (by omega) (by omega)) fun tr₅ hs₅ => ?_
  have hrest := (hs₃.trans hs₄).trans hs₅
  refine ⟨line, hlen, ?_, ?_, rfl⟩
  · rw [hrest.reads, hlines, hs₁.reads]
  · rw [hrest.prints, hprint, hs₁.prints, List.nil_append, List.append_assoc _ (chars "Hello, ")]

def testprintMessage : String := "Hello, if this ran, the program was correct. Yay!\n"

/-- **`testprint`**. -/
theorem ends_testprint (hmsg : Constant lit 0 0 testprintMessage v) (hfuel : 51 ≤ fuel) :
    Ends im B (testprint lit fuel) tr v fun tr' _ ret =>
      Said (chars testprintMessage) tr tr' ∧ ret = 0 := by
  refine Ends.next (ends_message hB hmsg (lt_of_lt_of_le (by decide) hfuel)) fun tr₁ hs₁ => ?_
  exact ⟨hs₁, rfl⟩

end Programs

/-! ## The shell -/

/-- The commands in the lines that the shell reads: each line up to its newline or a NUL, but for
empty ones and `exit`. -/
def commandsIn (lines : List (List UInt8)) : List (List UInt8) :=
  (lines.map fun line => line.dropLast.takeWhile (· ≠ 0)).filter fun c => c ≠ [] ∧ c ≠ chars "exit"

/-- The next command of the shell: when it has read the commands `past ++ [c]` and executed as many
as there are in `past`, it executes `c`. -/
def NextCommand (tr : List (Act × Answer)) (v : UserView) (va : Nat) : Prop :=
  ∃ past c, commandsIn (linesRead tr) = past ++ [c] ∧ executes tr = past.length ∧
    v.string va = some (some (.ofList c))

/-- What the shell does that is not immediate: it reads a line when it has executed all commands,
executes the next command, and goes on when that returns. -/
def ShellMay : Allowance
  | tr, _, .read fd _ _ => fd = 0 ∧ executes tr = (commandsIn (linesRead tr)).length
  | tr, v, .execute va => NextCommand tr v va
  | _, _, .executeReturns => True
  | _, _, _ => False

def shellAllowance : Allowance := fun tr v a => Immediate v a ∨ ShellMay tr v a

/-- The constants of the shell that it uses. -/
def shellConstants : List String :=
  ["Starting 391 Shell\n", "391OS> ", "exit", "no such command\n",
    "program terminated by exception\n", "program terminated abnormally\n"]

section Shell

variable {im : Image} {tr : List (Act × Answer)} {v v' : UserView}
  {lit : String → Nat} {buf fuel : Nat} {lines : List (List UInt8)} {line : List UInt8}

theorem permits_shell : Permits shellAllowance := fun _ _ _ => .inl

theorem commandsIn_concat (lines : List (List UInt8)) (line : List UInt8) :
    commandsIn (lines ++ [line ++ [newline]]) = commandsIn lines ++
      if line.takeWhile (· ≠ 0) ≠ [] ∧ line.takeWhile (· ≠ 0) ≠ chars "exit"
      then [line.takeWhile (· ≠ 0)] else [] := by
  rw [commandsIn, List.map_append, List.filter_append, List.map_singleton, List.dropLast_concat,
    List.filter_cons, List.filter_nil]
  simp only [commandsIn, decide_eq_true_eq]

/-- The constants are where they are, as long as nothing but the buffer is written. -/
theorem constants_outside (h : ∀ s ∈ shellConstants, Constant lit buf 1024 s v)
    (hs : SameOutside buf 1024 v v') : ∀ s ∈ shellConstants, Constant lit buf 1024 s v' :=
  fun s hmem => (h s hmem).outside hs

/-- What the shell says about a command. -/
theorem ends_shellReport (rval : Int) (h : ∀ s ∈ shellConstants, Constant lit buf 1024 s v)
    (hfuel : 129 ≤ fuel) : Ends im shellAllowance (shellReport lit fuel rval) tr v fun tr' v' _ =>
      linesRead tr' = linesRead tr ∧ executes tr' = executes tr ∧ v' = v := by
  have hsay {s : String} (hs : s ∈ shellConstants) (hlen : (chars s).length < 129) :
      Ends im shellAllowance (ece391Fdputs fuel 1 (lit s)) tr v fun tr' v' _ =>
        linesRead tr' = linesRead tr ∧ executes tr' = executes tr ∧ v' = v :=
    (ends_message permits_shell (h s hs) (hlen.trans_le hfuel)).mono
      fun _ _ _ hm => ⟨hm.1.reads, hm.1.runs, hm.2.1⟩
  unfold shellReport
  split_ifs
  · exact hsay (by decide) (by decide)
  · exact hsay (by decide) (by decide)
  · exact hsay (by decide) (by decide)
  · exact ⟨rfl, rfl, rfl⟩

/-- The shell cuts the newline off. -/
theorem ends_cutNewline {n : Nat} (hlo : userPageStart ≤ buf) (hhi : buf + n ≤ userPageEnd)
    (hline : line.length + 1 ≤ n) :
    Ends im shellAllowance (cutNewline buf ((line.length : Int) + 1)) tr (readsLine buf n line v)
      fun tr' v' cnt => Said [] tr tr' ∧ v' = readsLine buf n line v ∧ cnt = line.length := by
  have hlen : (line ++ [newline]).length = line.length + 1 := by
    rw [List.length_append, List.length_singleton]
  have hbyte : (readsLine buf n line v).page (buf + line.length) = newline := by
    rw [readsLine, page_put_of_lt (by omega) (by omega) (by omega), Nat.add_sub_cancel_left]
    simp
  rw [cutNewline, if_pos (by omega),
    show ((line.length : Int) + 1 - 1).toNat = line.length by omega]
  refine Ends.next (ends_load permits_shell ⟨by omega, by omega⟩) fun tr₁ hs₁ => ?_
  rw [if_pos hbyte]
  exact ⟨hs₁, rfl, by omega⟩

/-- **A round of the shell**: it executes the line that it reads, if that is a command, and ends on
`exit`. -/
theorem ends_shellRound (hlo : userPageStart ≤ buf) (hhi : buf + 1024 ≤ userPageEnd)
    (hconst : ∀ s ∈ shellConstants, Constant lit buf 1024 s v) (hfuel : 129 ≤ fuel)
    (hcount : executes tr = (commandsIn (linesRead tr)).length) :
    Ends im shellAllowance (shellRound lit buf fuel) tr v fun tr' v' _ =>
      SameOutside buf 1024 v v' ∧ executes tr' = (commandsIn (linesRead tr')).length := by
  have hin : InUserPage buf := ⟨hlo, by omega⟩
  have hprompt := hconst "391OS> " (by decide)
  have hlen : (chars "391OS> ").length < fuel := lt_of_lt_of_le (by decide) hfuel
  refine Ends.next (ends_message permits_shell hprompt hlen) fun tr₁ hs₁ => ?_
  have hcount₁ : executes tr₁ = (commandsIn (linesRead tr₁)).length := by
    rw [hs₁.runs, hs₁.reads, hcount]
  refine Ensures.bind ((ends_readLine hin (.inr ⟨rfl, hcount₁⟩)).mono ?_)
  rintro tr₂ _ _ ⟨line, hlen, -, hlines, hexec, rfl, rfl⟩
  have hn : ((bufsize : Int) - 1).toNat = 1023 := rfl
  rw [hn, if_neg (by omega)]
  refine Ends.next (ends_cutNewline hlo (by omega) (by omega)) fun tr₃ hs₃ => ?_
  rw [Int.toNat_natCast]
  refine Ends.next (ends_store permits_shell ⟨by omega, by omega⟩ 0) fun tr₄ hs₄ => ?_
  have hs := hs₃.trans hs₄
  have hstr := stringAt_line (v := v) (n := 1023) (List.prefix_append line [newline]) hlo
    (show line.length + 1 ≤ 1023 by omega) (by omega)
  have hout : SameOutside buf 1024 v ((readsLine buf 1023 line v).put (buf + line.length) [0]) :=
    sameOutside_line (by decide) (by omega) (by omega)
  have hconst := constants_outside hconst hout
  generalize (readsLine buf 1023 line v).put (buf + line.length) [0] = v₁ at *
  have hread : commandsIn (linesRead tr₄) = commandsIn (linesRead tr) ++
      if line.takeWhile (· ≠ 0) ≠ [] ∧ line.takeWhile (· ≠ 0) ≠ chars "exit"
      then [line.takeWhile (· ≠ 0)] else [] := by
    rw [hs.reads, hlines, hs₁.reads, commandsIn_concat]
  have hruns : executes tr₄ = (commandsIn (linesRead tr)).length := by
    rw [hs.runs, hexec, hs₁.runs, hcount]
  have hclen : (line.takeWhile (· ≠ 0)).length ≤ line.length := (List.takeWhile_sublist _).length_le
  generalize line.takeWhile (· ≠ 0) = c at hread hstr hclen
  have hexit := hconst "exit" (by decide)
  refine Ensures.bind ((ends_strcmp permits_shell hstr hexit.string (by omega)).mono ?_)
  rintro tr₅ v₂ cmp ⟨hs₅, rfl, hcmp⟩
  split_ifs with h0
  · have hskip : ¬ (c ≠ [] ∧ c ≠ chars "exit") := fun h => h.2 (hcmp.1 h0)
    rw [if_neg hskip, List.append_nil] at hread
    exact ⟨hout, by rw [hs₅.runs, hs₅.reads, hruns, hread]⟩
  · refine Ends.next (ends_load permits_shell hin) fun tr₆ hs₆ => ?_
    have hs := hs₅.trans hs₆
    have hfirst : v₂.page buf = c.getD 0 0 := hstr.byte (Nat.zero_le _)
    by_cases hc : c = []
    · rw [hc, List.getD_nil] at hfirst
      rw [if_pos hfirst]
      rw [if_neg (fun h => h.1 hc), List.append_nil] at hread
      exact ⟨hout, by rw [hs.runs, hs.reads, hruns, hread]⟩
    · have hpos := List.length_pos_iff.2 hc
      have hne : v₂.page buf ≠ 0 := hstr.byte_ne_zero hpos
      rw [if_neg hne]
      rw [if_pos ⟨hc, fun h => h0 (hcmp.2 h)⟩] at hread
      have hnext : NextCommand tr₆ v₂ buf :=
        ⟨_, c, by rw [hs.reads, hread], by rw [hs.runs, hruns], hstr.string⟩
      refine Ensures.bind ((ends_execute (.inr hnext) (fun _ => .inr trivial) hstr.string).mono ?_)
      rintro tr₇ _ rval ⟨hlines₇, hruns₇, rfl⟩
      refine Ensures.bind ((ends_shellReport rval hconst hfuel).mono ?_)
      rintro tr₈ _ _ ⟨hlines₈, hruns₈, rfl⟩
      refine ⟨hout, ?_⟩
      rw [hruns₈, hruns₇, hs.runs, hruns, hlines₈, hlines₇, hs.reads, hread, List.length_append,
        List.length_singleton]

/-- The rounds. -/
theorem ends_shellLoop (rounds : Nat) (hlo : userPageStart ≤ buf) (hhi : buf + 1024 ≤ userPageEnd)
    (hconst : ∀ s ∈ shellConstants, Constant lit buf 1024 s v) (hfuel : 129 ≤ fuel)
    (hcount : executes tr = (commandsIn (linesRead tr)).length) :
    Ends im shellAllowance (shellLoop lit buf fuel rounds) tr v fun tr' _ _ =>
      executes tr' = (commandsIn (linesRead tr')).length := by
  induction rounds generalizing tr v with
  | zero => exact hcount
  | succ rounds ih =>
    refine Ensures.bind ((ends_shellRound hlo hhi hconst hfuel hcount).mono ?_)
    rintro tr₁ v₁ r ⟨hout, hcount₁⟩
    cases r with
    | none => exact ih (constants_outside hconst hout) hcount₁
    | some ret => exact hcount₁

/-- **The shell** executes the commands that it reads, each once and in their order. -/
theorem ends_shell (rounds : Nat) (hlo : userPageStart ≤ buf) (hhi : buf + 1024 ≤ userPageEnd)
    (hconst : ∀ s ∈ shellConstants, Constant lit buf 1024 s v) (hfuel : 129 ≤ fuel) :
    Ends im shellAllowance (User.shell lit buf fuel rounds) [] v fun tr' _ _ =>
      executes tr' = (commandsIn (linesRead tr')).length := by
  have hmsg := hconst "Starting 391 Shell\n" (by decide)
  have hlen : (chars "Starting 391 Shell\n").length < fuel := lt_of_lt_of_le (by decide) hfuel
  refine Ends.next (ends_message permits_shell hmsg hlen) fun tr₁ hs₁ => ?_
  refine ends_shellLoop rounds hlo hhi hconst hfuel ?_
  rw [hs₁.runs, hs₁.reads]
  rfl

end Shell

end Kernel391

import Kernel391.Programs
import Kernel391.AloneRun

/-!
# The library of the programs

What a program prints and which lines it reads are functions of its history. A call of the library
that only prints `l` is described by `Said l`.

**Strings.** `StringAt v va l`: the string `l` is at `va` in the page of `v`, with its NUL. It stays
there when something is stored elsewhere (`StringAt.put`).

* `ends_strlen`, `ends_fdputs`, `ends_strcmp` — the library.
* `ends_open`, `ends_read`, `ends_readLine`, `ends_write`, `ends_execute` — the system calls.
-/

namespace Kernel391

open Bytes Interaction User

/-! ## Histories -/

/-- What a program printed. -/
def printed (tr : List (Act × Answer)) : List UInt8 :=
  tr.flatMap fun
    | (_, .wrote _ bytes) => bytes
    | _ => []

/-- The lines a program read from its terminal, with their newlines. -/
def linesRead (tr : List (Act × Answer)) : List (List UInt8) :=
  tr.filterMap fun
    | (.read 0 _ _, .got _ bytes) => some bytes
    | _ => none

/-- How often a program called `execute`. -/
def executes (tr : List (Act × Answer)) : Nat :=
  tr.countP fun
    | (.execute _, _) => true
    | _ => false

/-- From `tr` to `tr'`, the program printed `l`, read no line and executed no command. -/
structure Said (l : List UInt8) (tr tr' : List (Act × Answer)) : Prop where
  prints : printed tr' = printed tr ++ l
  reads : linesRead tr' = linesRead tr
  runs : executes tr' = executes tr

section Histories

variable {l l' : List UInt8} {tr tr' tr₁ : List (Act × Answer)} {a : Act} {ans : Answer}

theorem printed_append (tr tr' : List (Act × Answer)) :
    printed (tr ++ tr') = printed tr ++ printed tr' := List.flatMap_append

theorem linesRead_append (tr tr' : List (Act × Answer)) :
    linesRead (tr ++ tr') = linesRead tr ++ linesRead tr' := List.filterMap_append

theorem executes_append (tr tr' : List (Act × Answer)) :
    executes (tr ++ tr') = executes tr + executes tr' := List.countP_append

theorem Said.refl (tr : List (Act × Answer)) : Said [] tr tr :=
  ⟨(List.append_nil _).symm, rfl, rfl⟩

theorem Said.trans (h : Said l tr tr₁) (h' : Said l' tr₁ tr') : Said (l ++ l') tr tr' where
  prints := by rw [h'.prints, h.prints, List.append_assoc]
  reads := h'.reads.trans h.reads
  runs := h'.runs.trans h.runs

/-- One action that prints `l`. -/
theorem Said.act (hp : printed [(a, ans)] = l) (hl : linesRead [(a, ans)] = [])
    (hx : executes [(a, ans)] = 0) : Said l tr (tr ++ [(a, ans)]) where
  prints := by rw [printed_append, hp]
  reads := by rw [linesRead_append, hl, List.append_nil]
  runs := by rw [executes_append, hx, Nat.add_zero]

end Histories

/-! ## Strings -/

/-- The string `l` is at `va`. -/
structure StringAt (v : UserView) (va : Nat) (l : List UInt8) : Prop where
  start : userPageStart ≤ va
  room : va + l.length < userPageEnd
  bytes : slice v.page va l.length = l
  nul : v.page (va + l.length) = 0
  nonzero : ∀ b ∈ l, b ≠ 0

section Strings

variable {v v' : UserView} {va buf i : Nat} {l m : List UInt8}

namespace StringAt

theorem inPage (h : StringAt v va l) (hi : i ≤ l.length) : InUserPage (va + i) := by
  have := h.start
  have := h.room
  exact ⟨by omega, by omega⟩

/-- The bytes one by one, the NUL included. -/
theorem byte (h : StringAt v va l) (hi : i ≤ l.length) : v.page (va + i) = l.getD i 0 := by
  rcases Nat.lt_or_eq_of_le hi with hlt | rfl
  · have hget := congrArg (fun l => l[i]?) h.bytes
    rw [slice_getElem?, if_pos hlt] at hget
    rw [List.getD_eq_getElem?_getD, ← hget]
    rfl
  · rw [h.nul, List.getD_eq_default _ _ le_rfl]

theorem byte_ne_zero (h : StringAt v va l) (hi : i < l.length) : v.page (va + i) ≠ 0 := by
  rw [h.byte hi.le, List.getD_eq_getElem _ _ hi]
  exact h.nonzero _ (List.getElem_mem hi)

/-- As a string that the kernel reads. -/
theorem string (h : StringAt v va l) : v.string va = some (some (.ofList l)) := by
  have hin : InUserPage va := h.inPage (Nat.zero_le _)
  have hroom := h.room
  have h0 : va ≠ 0 := by
    have := h.start
    simp only [userPageStart] at this
    omega
  have hsplit : slice v.page va (userPageEnd - va) =
      l ++ 0 :: slice v.page (va + l.length + 1) (userPageEnd - va - (l.length + 1)) := by
    rw [show userPageEnd - va = l.length + (userPageEnd - va - l.length) by omega, slice_add,
      h.bytes, show l.length + (userPageEnd - va - l.length) - (l.length + 1) =
        userPageEnd - va - l.length - 1 by omega]
    obtain ⟨n, hn⟩ : ∃ n, userPageEnd - va - l.length = n + 1 :=
      ⟨userPageEnd - va - l.length - 1, by omega⟩
    rw [hn, slice_cons, h.nul, Nat.add_sub_cancel]
  have htake {m : List UInt8} : (l ++ 0 :: m).takeWhile (· ≠ 0) = l.takeWhile (· ≠ 0) := by
    rw [List.takeWhile_append_of_pos fun b hb => by simpa using h.nonzero b hb,
      List.takeWhile_cons_of_neg (by simp), List.append_nil]
    exact (List.takeWhile_eq_self_iff.2 fun b hb => by simpa using h.nonzero b hb).symm
  rw [UserView.string, if_neg h0, if_pos hin]
  dsimp only
  rw [hsplit, if_pos (by simp)]
  refine congrArg (fun c => some (some c)) ?_
  simp only [CString.ofList, htake]

/-- A string that no byte of was changed. -/
theorem congr (h : StringAt v va l)
    (hpage : ∀ x, va ≤ x → x ≤ va + l.length → v'.page x = v.page x) : StringAt v' va l where
  start := h.start
  room := h.room
  bytes := by
    rw [← h.bytes, length_slice]
    exact slice_congr fun i hi => hpage _ (by omega) (by omega)
  nul := (hpage _ (by omega) le_rfl).trans h.nul
  nonzero := h.nonzero

end StringAt

theorem page_put (buf : Nat) (m : List UInt8) (v : UserView) (x : Nat)
    (hx : x < buf ∨ buf + m.length ≤ x) : (v.put buf m).page x = v.page x := by
  dsimp only [UserView.put]
  rw [store_of_not (by omega)]

/-- What was stored is there. -/
theorem page_put_of_lt {x : Nat} (h₁ : buf ≤ x) (h₂ : x < buf + m.length)
    (hroom : buf + m.length ≤ userPageEnd) : (v.put buf m).page x = m.getD (x - buf) 0 := by
  dsimp only [UserView.put]
  rw [store_of_lt h₁ (by omega)]

theorem slice_put (v : UserView) (hroom : buf + m.length ≤ userPageEnd) :
    slice (v.put buf m).page buf m.length = m := by
  refine List.ext_getElem? fun i => ?_
  rw [slice_getElem?]
  split_ifs with hi
  · rw [page_put_of_lt (by omega) (by omega) hroom, Nat.add_sub_cancel_left,
      List.getD_eq_getElem _ _ hi, List.getElem?_eq_getElem hi]
  · exact (List.getElem?_eq_none (Nat.not_lt.1 hi)).symm

/-- A string apart from what is stored. -/
theorem StringAt.put (h : StringAt v va l)
    (hapart : buf + m.length ≤ va ∨ va + l.length < buf) : StringAt (v.put buf m) va l :=
  h.congr fun x h₁ h₂ => page_put buf m v x (by omega)

@[simp] theorem UserView.put_files (buf : Nat) (m : List UInt8) (v : UserView) :
    (v.put buf m).files = v.files := rfl

@[simp] theorem UserView.setFile_page (fd : Nat) (f : Option OpenFile) (v : UserView) :
    (v.setFile fd f).page = v.page := rfl

theorem StringAt.setFile (h : StringAt v va l) (fd : Nat) (f : Option OpenFile) :
    StringAt (v.setFile fd f) va l := h.congr fun _ _ _ => rfl

end Strings

/-! ## Actions -/

/-- An action that waits for nothing, with its pointers in the page and room behind its buffer. A
`read` waits if it is of the terminal, for a line, or of the clock, for an interrupt. -/
def Immediate (v : UserView) : Act → Prop
  | .load va => InUserPage va
  | .store va _ => InUserPage va
  | .open _ => True
  | .close _ => True
  | .read fd buf nbytes => fd ≠ 0 ∧ v.file fd ≠ some .rtc ∧ InUserPage buf ∧ 1 ≤ nbytes ∧
    buf + nbytes.toNat ≤ userPageEnd
  | .write fd buf nbytes => fd = 1 ∧ InUserPage buf ∧ buf + max nbytes.toNat 4 ≤ userPageEnd
  | .getargs buf nbytes => InUserPage buf ∧ buf + nbytes.toNat ≤ userPageEnd
  | _ => False

/-- What a program may do, by its history and its state. -/
abbrev Allowance := List (Act × Answer) → UserView → Act → Prop

/-- Immediate actions are allowed. -/
def Permits (B : Allowance) : Prop := ∀ tr v a, Immediate v a → B tr v a

/-- `p`, in the machine of one program, ends in `Q`, and does only what `B` allows. -/
abbrev Ends {α : Type} (im : Image) (B : Allowance) (p : User α) (tr : List (Act × Answer))
    (v : UserView) (Q : List (Act × Answer) → UserView → α → Prop) : Prop :=
  Ensures (alone im) B p tr v Q

section Actions

variable {α β : Type} {im : Image} {B : Allowance} {tr : List (Act × Answer)} {v v₁ : UserView}
  {va buf fuel : Nat} {l : List UInt8}

/-- After a call that prints `l`, with one outcome. -/
theorem Ends.next {p : User α} {f : α → User β} {a : α}
    {Q : List (Act × Answer) → UserView → β → Prop}
    (h : Ends im B p tr v fun tr' v' b => Said l tr tr' ∧ v' = v₁ ∧ b = a)
    (hf : ∀ tr', Said l tr tr' → Ends im B (f a) tr' v₁ Q) : Ends im B (p >>= f) tr v Q :=
  Ensures.bind (h.mono fun tr' _ _ ⟨hs, hv, ha⟩ => by
    rw [hv, ha]
    exact hf tr' hs)

theorem inUserPage_ne_zero (h : InUserPage va) : va ≠ 0 := by
  have := h.1
  simp only [userPageStart] at this
  omega

variable (hB : Permits B)

include hB

theorem ends_load (hva : InUserPage va) : Ends im B (load va) tr v fun tr' v' c =>
    Said [] tr tr' ∧ v' = v ∧ c = v.page va := by
  have hload : alone im v (.load va) (.byte (v.page va)) v := ⟨rfl, fun _ => rfl⟩
  refine Ensures.act (hB _ _ _ hva) hload (fun _ _ h => ⟨h.2 hva, h.1⟩) ?_
  exact ⟨.act rfl rfl rfl, rfl, rfl⟩

theorem ends_store (hva : InUserPage va) (c : UInt8) : Ends im B (User.store va c) tr v
    fun tr' v' r => Said [] tr tr' ∧ v' = v.put va [c] ∧ r = () := by
  have hstore : alone im v (.store va c) .done (v.put va [c]) := ⟨rfl, (if_pos hva).symm⟩
  refine Ensures.act (hB _ _ _ hva) hstore (fun _ _ h => ⟨h.1, h.2.trans (if_pos hva)⟩) ?_
  exact ⟨.act rfl rfl rfl, rfl, rfl⟩

/-- `write` to the terminal. -/
theorem ends_write (hbuf : InUserPage buf) (nbytes : Int)
    (hroom : buf + max nbytes.toNat 4 ≤ userPageEnd) :
    Ends im B (ece391Write 1 buf nbytes) tr v fun tr' v' ret =>
      Said (slice v.page buf nbytes.toNat) tr tr' ∧ v' = v ∧ ret = 0 := by
  have h0 := inUserPage_ne_zero hbuf
  have hone {ans : Answer} {v' : UserView} : alone im v (.write 1 buf nbytes) ans v' ↔
      ans = .wrote 0 (slice v.page buf nbytes.toNat) ∧ v' = v := by
    simp only [alone, if_neg h0, if_true, or_iff_right h0]
    tauto
  refine Ensures.act (hB _ _ _ ⟨rfl, hbuf, hroom⟩) (hone.2 ⟨rfl, rfl⟩) (fun _ _ h => hone.1 h) ?_
  exact ⟨.act (List.append_nil _) rfl rfl, rfl, rfl⟩

/-- `open` of a name that is in the directory, with a free descriptor. -/
theorem ends_open {name : List UInt8} {f : OpenFile} {fd : Nat} (h : StringAt v va name)
    (hf : im.opened name = some f) (hfd : v.leastFree = some fd) :
    Ends im B (ece391Open va) tr v fun tr' v' ret =>
      Said [] tr tr' ∧ v' = v.setFile fd (some f) ∧ ret = fd := by
  have hname : (CString.ofList name).bytes = name :=
    List.takeWhile_eq_self_iff.2 fun b hb => by simpa using h.nonzero b hb
  have hone {ans : Answer} {v' : UserView} : alone im v (.open va) ans v' ↔
      ans = .value fd ∧ v' = v.setFile fd (some f) := by
    simp [alone, h.string, hname, hf, hfd]
  refine Ensures.act (hB _ _ _ trivial) (hone.2 ⟨rfl, rfl⟩) (fun _ _ h => hone.1 h) ?_
  exact ⟨.act rfl rfl rfl, rfl, rfl⟩

/-- `open` of a name that is not. -/
theorem ends_open_missing {name : List UInt8} (h : StringAt v va name)
    (hf : im.opened name = none) :
    Ends im B (ece391Open va) tr v fun tr' v' ret => Said [] tr tr' ∧ v' = v ∧ ret = -1 := by
  have hname : (CString.ofList name).bytes = name :=
    List.takeWhile_eq_self_iff.2 fun b hb => by simpa using h.nonzero b hb
  have hone {ans : Answer} {v' : UserView} : alone im v (.open va) ans v' ↔
      ans = .value (-1) ∧ v' = v := by
    simp [alone, h.string, hname, hf]
  refine Ensures.act (hB _ _ _ trivial) (hone.2 ⟨rfl, rfl⟩) (fun _ _ h => hone.1 h) ?_
  exact ⟨.act rfl rfl rfl, rfl, rfl⟩

omit hB in
/-- `read` from a file, where it is allowed. -/
theorem ends_read {fd nbytes : Int} {f : OpenFile} (hread : B tr v (.read fd buf nbytes))
    (hbuf : InUserPage buf) (hfd : fd ≠ 0) (hf : v.file fd = some f) :
    Ends im B (ece391Read fd buf nbytes) tr v fun tr' v' ret =>
      Said [] tr tr' ∧ v' = (readsFile im fd.toNat buf nbytes.toNat v f).2 ∧
        ret = (readsFile im fd.toNat buf nbytes.toNat v f).1.length := by
  have h0 := inUserPage_ne_zero hbuf
  have hone {ans : Answer} {v' : UserView} : alone im v (.read fd buf nbytes) ans v' ↔
      ans = .got (readsFile im fd.toNat buf nbytes.toNat v f).1.length
        (readsFile im fd.toNat buf nbytes.toNat v f).1 ∧
      v' = (readsFile im fd.toNat buf nbytes.toNat v f).2 := by
    simp [alone, if_neg h0, if_neg hfd, hf, hbuf]
  refine Ensures.act hread (hone.2 ⟨rfl, rfl⟩) (fun _ _ h => hone.1 h) ?_
  refine ⟨.act rfl ?_ rfl, rfl, rfl⟩
  cases fd with
  | ofNat n =>
    cases n with
    | zero => exact absurd rfl hfd
    | succ n => rfl
  | negSucc n => rfl

omit hB in
/-- `read` from the terminal. -/
theorem ends_readLine {nbytes : Int} (hbuf : InUserPage buf) (hread : B tr v (.read 0 buf nbytes)) :
    Ends im B (ece391Read 0 buf nbytes) tr v fun tr' v' ret => ∃ line : List UInt8,
      line.length ≤ 127 ∧ printed tr' = printed tr ∧
      linesRead tr' = linesRead tr ++ [line ++ [newline]] ∧ executes tr' = executes tr ∧
      v' = readsLine buf nbytes.toNat line v ∧ ret = line.length + 1 := by
  have h0 := inUserPage_ne_zero hbuf
  have hone {ans : Answer} {v' : UserView} : alone im v (.read 0 buf nbytes) ans v' ↔
      ∃ line : List UInt8, line.length ≤ 127 ∧ ans = .got (line.length + 1) (line ++ [newline]) ∧
        v' = readsLine buf nbytes.toNat line v := by
    simp [alone, if_neg h0, hbuf]
  refine ⟨hread, ⟨_, _, hone.2 ⟨[], Nat.zero_le _, rfl, rfl⟩⟩, fun ans v' h => ?_⟩
  obtain ⟨line, hlen, rfl, rfl⟩ := hone.1 h
  refine ⟨line, hlen, ?_, ?_, ?_, rfl, rfl⟩
  · rw [printed_append]
    exact List.append_nil _
  · rw [linesRead_append]
    rfl
  · rw [executes_append]
    rfl

/-- `getargs` with room for the arguments. -/
theorem ends_getargs {nbytes : Int} (hbuf : InUserPage buf)
    (hroom : buf + nbytes.toNat ≤ userPageEnd) (hn : v.argSize < nbytes) :
    Ends im B (ece391Getargs buf nbytes) tr v fun tr' v' ret =>
      Said [] tr tr' ∧
      v' = v.put buf ((v.args ++ List.replicate nbytes.toNat 0).take nbytes.toNat) ∧ ret = 0 := by
  have h0 := inUserPage_ne_zero hbuf
  have hsmall : ¬ (buf = 0 ∨ nbytes ≤ v.argSize) := by omega
  have hone {ans : Answer} {v' : UserView} : alone im v (.getargs buf nbytes) ans v' ↔
      ans = .value 0 ∧
      v' = v.put buf ((v.args ++ List.replicate nbytes.toNat 0).take nbytes.toNat) := by
    simp only [alone, if_neg hsmall, and_iff_right (Or.inr hbuf)]
  refine Ensures.act (hB _ _ _ ⟨hbuf, hroom⟩) (hone.2 ⟨rfl, rfl⟩) (fun _ _ h => hone.1 h) ?_
  exact ⟨.act rfl rfl rfl, rfl, rfl⟩

omit hB in
/-- `execute`, where it is allowed. -/
theorem ends_execute {c : Option CString} (hexecute : B tr v (.execute va))
    (hreturns : ∀ tr, B tr v .executeReturns) (hc : v.string va = some c) :
    Ends im B (ece391Execute va) tr v fun tr' v' _ =>
      linesRead tr' = linesRead tr ∧ executes tr' = executes tr + 1 ∧ v' = v := by
  have hexec (ans : Answer) : linesRead (tr ++ [(.execute va, ans)]) = linesRead tr ∧
      executes (tr ++ [(.execute va, ans)]) = executes tr + 1 := by
    rw [linesRead_append, executes_append]
    exact ⟨List.append_nil _, rfl⟩
  refine ⟨hexecute, ⟨.went .failed, v, rfl, c, hc, .inl rfl⟩, ?_⟩
  rintro ans v₁ ⟨rfl, _, -, rfl | ⟨pid, _, _, rfl, -⟩⟩
  · exact ⟨(hexec _).1, (hexec _).2, rfl⟩
  · refine ⟨hreturns _, ⟨.value 0, v₁, rfl, 0, rfl⟩, ?_⟩
    rintro ans v₂ ⟨rfl, value, rfl⟩
    obtain ⟨hlines, hcount⟩ := hexec (.went (.started pid))
    have hback : Said [] _ (tr ++ [(.execute va, .went (.started pid))] ++
        [(.executeReturns, .value value)]) := .act rfl rfl rfl
    exact ⟨hback.reads.trans hlines, hback.runs.trans hcount, rfl⟩

/-! ## The library -/

/-- **`ece391_strlen`**. -/
theorem ends_strlen (h : StringAt v va l) (hfuel : l.length < fuel) :
    Ends im B (ece391Strlen fuel va) tr v fun tr' v' n =>
      Said [] tr tr' ∧ v' = v ∧ n = l.length := by
  refine Ensures.loop (I := fun n i tr' v' => n + i = l.length ∧ Said [] tr tr' ∧ v' = v) ?_ hfuel
    ⟨rfl, .refl tr, rfl⟩
  rintro n i tr₁ v₁ ⟨hn, hs, rfl⟩
  refine Ends.next (ends_load hB (h.inPage (by omega))) fun tr₂ hs₂ => ?_
  have hs := hs.trans hs₂
  by_cases hi : i < l.length
  · rw [if_pos (h.byte_ne_zero hi)]
    exact ⟨n - 1, by omega, by omega, hs, rfl⟩
  · obtain rfl : i = l.length := by omega
    rw [if_neg (not_not.2 h.nul)]
    exact ⟨hs, rfl, rfl⟩

/-- **`ece391_fdputs`** prints its string. -/
theorem ends_fdputs (h : StringAt v va l) (hroom : va + 4 ≤ userPageEnd)
    (hfuel : l.length < fuel) :
    Ends im B (ece391Fdputs fuel 1 va) tr v fun tr' v' r =>
      Said l tr tr' ∧ v' = v ∧ r = () := by
  have hin : InUserPage va := h.inPage (Nat.zero_le _)
  have hend := h.room
  refine Ends.next (ends_strlen hB h hfuel) fun tr₁ h₁ => ?_
  refine Ends.next (ends_write hB hin _ (by omega)) fun tr₂ h₂ => ?_
  rw [Int.toNat_natCast, h.bytes] at h₂
  exact ⟨h₁.trans h₂, rfl, rfl⟩

/-- **`ece391_strcmp`** is 0 on equal strings only. -/
theorem ends_strcmp {va' : Nat} {l' : List UInt8} (h : StringAt v va l) (h' : StringAt v va' l')
    (hfuel : l.length < fuel) :
    Ends im B (ece391Strcmp fuel va va') tr v fun tr' v' ret =>
      Said [] tr tr' ∧ v' = v ∧ (ret = 0 ↔ l = l') := by
  refine Ensures.loop (I := fun n i tr' v' => n + i = l.length ∧ i ≤ l'.length ∧
    l.take i = l'.take i ∧ Said [] tr tr' ∧ v' = v) ?_ hfuel
    ⟨rfl, Nat.zero_le _, rfl, .refl tr, rfl⟩
  rintro n i tr₁ v₁ ⟨hn, hi', htake, hs, rfl⟩
  have hi : i ≤ l.length := by omega
  refine Ends.next (ends_load hB (h.inPage hi)) fun tr₂ hs₂ => ?_
  refine Ends.next (ends_load hB (h'.inPage hi')) fun tr₃ hs₃ => ?_
  have hs := hs.trans (hs₂.trans hs₃)
  have hb := h.byte hi
  have hb' := h'.byte hi'
  by_cases heq : v₁.page (va + i) = v₁.page (va' + i)
  · rw [if_pos heq]
    by_cases h0 : v₁.page (va + i) = 0
    · -- both strings end here
      rw [if_pos h0]
      have hend : i = l.length := by
        by_contra hc
        exact h.byte_ne_zero (by omega) h0
      have hend' : i = l'.length := by
        by_contra hc
        exact h'.byte_ne_zero (by omega) (heq ▸ h0)
      refine ⟨hs, rfl, iff_of_true rfl ?_⟩
      rwa [hend, List.take_length, ← hend, hend', List.take_length] at htake
    · rw [if_neg h0]
      have hlt : i < l.length := by
        by_contra hc
        obtain rfl : i = l.length := by omega
        exact h0 h.nul
      have hlt' : i < l'.length := by
        by_contra hc
        obtain rfl : i = l'.length := by omega
        exact h0 (heq.trans h'.nul)
      refine ⟨n - 1, by omega, by omega, hlt', ?_, hs, rfl⟩
      rw [hb, hb', List.getD_eq_getElem _ _ hlt, List.getD_eq_getElem _ _ hlt'] at heq
      rw [List.take_add_one, List.take_add_one, htake, List.getElem?_eq_getElem hlt,
        List.getElem?_eq_getElem hlt', heq]
  · rw [if_neg heq]
    refine ⟨hs, rfl, iff_of_false (fun hc => heq ?_) ?_⟩
    · exact UInt8.toNat_inj.1 (by omega)
    · rintro rfl
      exact heq (hb.trans hb'.symm)

end Actions

end Kernel391

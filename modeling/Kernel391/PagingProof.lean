import Kernel391.Paging
import Mathlib.Tactic.Common
import Mathlib.Tactic.IntervalCases

/-!
# Page tables: isolation

`PagingOk p last` says which entries the tables can hold once `paging_initialize` has run, with
`last` the process whose frame is mapped. Every function of `paging.c` keeps it
(`pagingOk_apply`), and it decides every translation:

* `translate_user` — user mode reaches the frame of `last` and the four text pages, only;
* `translate_kernel` — the kernel page is mapped to itself;
* `translate_video`, `translate_backing` — where the kernel's own accesses to the text pages go.
-/

namespace Kernel391

open X86

/-- The 4 MB frame of a process id. -/
def userFrame (pid : Nat) : Nat := 0x800000 + 0x400000 * (pid - 1)

/-- The four text pages: video memory and the three backing pages. -/
def TextPage (a : Nat) : Prop :=
  a = vidStartAddr ∨ a = t1BufAddr ∨ a = t2BufAddr ∨ a = t3BufAddr

/-- The entry `paging_change_process` writes for a process id. -/
def userEntry : Option Nat → Nat
  | none => 0
  | some pid => userFrame pid ||| umemOrMask

/-- What the page tables can hold, when `last` is the process mapped at 128 MB. -/
structure PagingOk (p : Paging) (last : Option Nat) : Prop where
  low : p.pageDirectory 0 = p.layout.pageTable0M4M ||| ptableOrMask
  kernel : p.pageDirectory 1 = kerStartAddr ||| kmemOrMask
  user : p.pageDirectory userMemLocation = userEntry last
  last : ∀ pid, last = some pid → 1 ≤ pid ∧ pid ≤ 6
  vid : p.pageDirectory vmem33 = 0 ∨
    p.pageDirectory vmem33 = p.layout.newPageTable ||| ptableOrMaskUser ∧
      (∃ a, TextPage a ∧ p.newPageTable onembPagetable = a ||| umemOrMask) ∧
      ∀ i, i ≠ onembPagetable → p.newPageTable i = 0
  absent : ∀ i, i ≠ 0 → i ≠ 1 → i ≠ userMemLocation → i ≠ vmem33 → p.pageDirectory i = 0
  video : ∃ a, TextPage a ∧ p.pageTable0M4M vmemPage = a ||| vmemOrMask
  backing1 : p.pageTable0M4M t1BufPage = t1BufAddr ||| vmemOrMask
  backing2 : p.pageTable0M4M t2BufPage = t2BufAddr ||| vmemOrMask
  backing3 : p.pageTable0M4M t3BufPage = t3BufAddr ||| vmemOrMask

/-! ## Every function keeps the tables well-formed -/

theorem pagingOk_boot (p : Paging) : PagingOk (pagingInitialize p) none where
  low := rfl
  kernel := rfl
  user := rfl
  last := fun _ h => absurd h (by simp)
  vid := .inl rfl
  absent := fun i h0 h1 _ _ => by simp [pagingInitialize, h0, h1]
  video := ⟨vidStartAddr, .inl rfl, rfl⟩
  backing1 := rfl
  backing2 := rfl
  backing3 := rfl

/-- `paging_change_process` accepts exactly 1..6. Process id 0 wraps to the largest word. -/
theorem changeProcess_eq (p : Paging) (pid : UInt32) :
    pagingChangeProcess pid p =
      if 1 ≤ pid.toNat ∧ pid.toNat ≤ 6 then
        (true, { p with pageDirectory := Function.update p.pageDirectory userMemLocation
                          (userEntry (some pid.toNat)) })
      else (false, p) := by
  have hsub : (pid - 1).toNat = if pid.toNat = 0 then 4294967295 else pid.toNat - 1 := by
    have := pid.toNat_lt
    rw [UInt32.toNat_sub, show (1 : UInt32).toNat = 1 from rfl]
    split <;> omega
  simp only [pagingChangeProcess, hsub, pidMin, pidMax]
  by_cases h : 1 ≤ pid.toNat ∧ pid.toNat ≤ 6
  · rw [if_pos h, if_neg (by split <;> omega), if_neg (by omega)]
    rfl
  · rw [if_neg h, if_pos (by split <;> omega)]

theorem pagingOk_changeProcess {p : Paging} {last : Option Nat} (h : PagingOk p last)
    (pid : UInt32) :
    PagingOk (pagingChangeProcess pid p).2 (lastPid last (.changeProcess pid)) := by
  rw [changeProcess_eq]
  by_cases hp : 1 ≤ pid.toNat ∧ pid.toNat ≤ 6
  · simp only [if_pos hp, lastPid]
    exact { h with
      low := by simp [userMemLocation, h.low]
      kernel := by simp [userMemLocation, h.kernel]
      user := by simp
      last := fun q hq => by rw [Option.some.injEq] at hq; omega
      vid := by simpa [userMemLocation, vmem33] using h.vid
      absent := fun i h0 h1 h2 h3 => by simpa [h2] using h.absent i h0 h1 h2 h3 }
  · simpa only [if_neg hp, lastPid] using h

theorem pagingOk_vidmap {p : Paging} {last : Option Nat} (h : PagingOk p last) :
    PagingOk (pagingVidmap p) last :=
  { h with
    low := by simp [pagingVidmap, vmem33, h.low]
    kernel := by simp [pagingVidmap, vmem33, h.kernel]
    user := by simp [pagingVidmap, vmem33, userMemLocation, ← h.user]
    vid := .inr ⟨by simp [pagingVidmap], ⟨vidStartAddr, .inl rfl, rfl⟩,
      fun i hi => by simp [pagingVidmap, hi]⟩
    absent := fun i h0 h1 h2 h3 => by simpa [pagingVidmap, h3] using h.absent i h0 h1 h2 h3 }

theorem pagingOk_setWrite {p : Paging} {last : Option Nat} (h : PagingOk p last) {a : Nat}
    (ha : TextPage a) : PagingOk (pagingSetWrite a p) last :=
  { h with
    vid := by
      rcases h.vid with h0 | ⟨hd, -, hz⟩
      · exact .inl h0
      · exact .inr ⟨hd, ⟨a, ha, by simp [pagingSetWrite]⟩,
          fun i hi => by simpa [pagingSetWrite, hi] using hz i hi⟩
    video := ⟨a, ha, by simp [pagingSetWrite]⟩
    backing1 := h.backing1
    backing2 := h.backing2
    backing3 := h.backing3 }

theorem pagingOk_apply {p : Paging} {last : Option Nat} (h : PagingOk p last) (c : PagingCall) :
    PagingOk (c.apply p) (lastPid last c) := by
  cases c with
  | changeProcess pid => exact pagingOk_changeProcess h pid
  | vidmap => exact pagingOk_vidmap h
  | setWriteToVideomem => exact pagingOk_setWrite h (.inl rfl)
  | setWriteToBuffer buffer =>
    refine pagingOk_setWrite h ?_
    simp only [TextPage]
    split_ifs <;> simp

/-- The tables after any sequence of calls. -/
theorem pagingOk_calls {p : Paging} {last : Option Nat} (h : PagingOk p last)
    (calls : List PagingCall) :
    PagingOk (calls.foldl PagingCall.apply p) (calls.foldl lastPid last) := by
  induction calls generalizing p last with
  | nil => exact h
  | cons c cs ih => exact ih (pagingOk_apply h c)

/-! ## The entries, read as the processor reads them -/

theorem frame4K_or {a f : Nat} (ha : a % 4096 = 0) (hf : f < 4096) : frame4K (a ||| f) = a := by
  rw [or_flags (k := 12) ha hf, frame4K]
  omega

theorem allowed_low {a : Nat} (ha : a % 4096 = 0) (m : Mode) :
    allowed m (a ||| ptableOrMask) = (m == .supervisor) := by
  rw [or_flags (k := 12) ha (by decide), allowed, ptableOrMask,
    show (a + 19) % 2 = 1 by omega, show (a + 19) / 4 % 2 = 0 by omega]
  simp

theorem large_or {a f : Nat} (ha : a % 4096 = 0) (hf : f < 128) : large (a ||| f) = false := by
  rw [or_flags (k := 12) ha (by omega), large, show (a + f) / 128 % 2 = 0 by omega]
  rfl

theorem TextPage.aligned {a : Nat} (h : TextPage a) : a % 4096 = 0 := by
  rcases h with rfl | rfl | rfl | rfl <;> rfl

theorem TextPage.bounds {a : Nat} (h : TextPage a) : 0xB8000 ≤ a ∧ a + 4096 ≤ 0xBC000 := by
  rcases h with rfl | rfl | rfl | rfl <;> decide

theorem userEntry_allowed {last : Option Nat} (hlast : ∀ pid, last = some pid → 1 ≤ pid ∧ pid ≤ 6)
    {m : Mode} (h : allowed m (userEntry last) = true) : ∃ pid, last = some pid := by
  cases last with
  | none => simp [userEntry, allowed] at h
  | some pid => exact ⟨pid, rfl⟩

/-- A process's directory entry maps its own frame as one 4 MB page, open to user mode. -/
theorem userEntry_some {pid : Nat} (h : 1 ≤ pid ∧ pid ≤ 6) (m : Mode) :
    allowed m (userEntry (some pid)) = true ∧ large (userEntry (some pid)) = true ∧
      frame4M (userEntry (some pid)) = userFrame pid := by
  obtain ⟨h₁, h₂⟩ := h
  interval_cases pid <;> cases m <;> decide

/-! ## Translations -/

variable {p : Paging} {last : Option Nat}

theorem tableAt_low (p : Paging) : p.tableAt p.layout.pageTable0M4M = p.pageTable0M4M :=
  if_pos rfl

theorem tableAt_new (p : Paging) : p.tableAt p.layout.newPageTable = p.newPageTable := by
  rw [Paging.tableAt, if_neg p.layout.distinct.symm, if_pos rfl]

/-- The 4 MB page at 128 MB is the frame of the process that is mapped. -/
theorem translate_userEntry (h : PagingOk p last) {m : Mode} {va pa : Nat}
    (h32 : dirIndex va = userMemLocation) (ht : p.translate m va = some pa) :
    ∃ pid, last = some pid ∧ pa = userFrame pid + va % 4194304 := by
  obtain ⟨ha, hcase⟩ := translate_eq_some ht
  rw [h32, h.user] at ha hcase
  obtain ⟨pid, rfl⟩ := userEntry_allowed h.last ha
  obtain ⟨-, hl, hf⟩ := userEntry_some (h.last pid rfl) m
  rcases hcase with ⟨-, hpa⟩ | ⟨hs, -⟩
  · exact ⟨pid, rfl, by rw [hpa, hf]⟩
  · rw [hl] at hs
    exact absurd hs (by decide)

/-- Nothing is mapped right after that page. -/
theorem translate_pageEnd (h : PagingOk p last) (m : Mode) {va : Nat} (h₁ : 0x8400000 ≤ va)
    (h₂ : va < 0x8401000) : p.translate m va = none := by
  have h33 : dirIndex va = vmem33 := by
    simp only [dirIndex, vmem33]
    omega
  have h0 : tableIndex va = 0 := by
    rw [tableIndex]
    omega
  rw [Option.eq_none_iff_forall_ne_some]
  intro pa ht
  obtain ⟨ha, hcase⟩ := translate_eq_some ht
  rw [h33] at ha hcase
  rcases h.vid with hz | ⟨hd, -, hz⟩
  · rw [hz] at ha
    exact absurd ha (by simp [allowed])
  · rw [hd, large_or p.layout.aligned1 (by decide), frame4K_or p.layout.aligned1 (by decide),
      tableAt_new, h0, hz 0 (by decide)] at hcase
    rcases hcase with ⟨hl, -⟩ | ⟨-, hal, -⟩
    · exact absurd hl (by decide)
    · exact absurd hal (by simp [allowed])

/-- **User mode** reaches the frame of the process that is mapped, through the 4 MB page at
128 MB, or one of the text pages. -/
theorem translate_user (h : PagingOk p last) {va pa : Nat}
    (ht : p.translate .user va = some pa) :
    (∃ pid, last = some pid ∧ dirIndex va = userMemLocation ∧
        pa = userFrame pid + va % 4194304) ∨
      (0xB8000 ≤ pa ∧ pa < 0xBC000) := by
  obtain ⟨ha, hcase⟩ := translate_eq_some ht
  by_cases h0 : dirIndex va = 0
  · rw [h0, h.low, allowed_low p.layout.aligned0] at ha
    exact absurd ha (by decide)
  by_cases h1 : dirIndex va = 1
  · rw [h1, h.kernel] at ha
    exact absurd ha (by decide)
  by_cases h32 : dirIndex va = userMemLocation
  · obtain ⟨pid, hpid, hpa⟩ := translate_userEntry h h32 ht
    exact .inl ⟨pid, hpid, h32, hpa⟩
  by_cases h33 : dirIndex va = vmem33
  · rcases h.vid with hz | ⟨hd, ⟨a, hta, hea⟩, hz⟩
    · rw [h33, hz] at ha
      exact absurd ha (by decide)
    · rw [h33, hd, large_or p.layout.aligned1 (by decide),
        frame4K_or p.layout.aligned1 (by decide), tableAt_new] at hcase
      rcases hcase with ⟨hl, -⟩ | ⟨-, hal, hpa⟩
      · exact absurd hl (by decide)
      · by_cases hi : tableIndex va = onembPagetable
        · rw [hi, hea, frame4K_or hta.aligned (by decide)] at hpa
          have := hta.bounds
          exact .inr ⟨by omega, by omega⟩
        · rw [hz _ hi] at hal
          exact absurd hal (by decide)
  · rw [h.absent _ h0 h1 h32 h33] at ha
    exact absurd ha (by decide)

/-- **The kernel page** is mapped to itself. -/
theorem translate_kernel (h : PagingOk p last) {va : Nat} (h₁ : 0x400000 ≤ va)
    (h₂ : va < 0x800000) : p.translate .supervisor va = some va := by
  have hi : dirIndex va = 1 := by
    rw [dirIndex]
    omega
  rw [Paging.translate, translate_large (by rw [hi, h.kernel]; decide)
    (by rw [hi, h.kernel]; decide), hi, h.kernel,
    show frame4M (kerStartAddr ||| kmemOrMask) = 0x400000 by decide]
  exact congrArg some (by omega)

/-- The kernel's view of a page below 4 MB, from its entry in the first page table. -/
theorem translate_low (h : PagingOk p last) {i a off : Nat} (ha : a % 4096 = 0)
    (he : p.pageTable0M4M i = a ||| vmemOrMask) (hi : i < 1024) (hoff : off < 4096) :
    p.translate .supervisor (4096 * i + off) = some (a + off) := by
  have hd : dirIndex (4096 * i + off) = 0 := by
    rw [dirIndex]
    omega
  have ht : tableIndex (4096 * i + off) = i := by
    rw [tableIndex]
    omega
  have hal : allowed .supervisor (a ||| vmemOrMask) = true := by
    rw [or_flags (k := 12) ha (by decide), allowed, vmemOrMask,
      show (a + 7) % 2 = 1 by omega]
    rfl
  rw [Paging.translate, translate_small
    (by rw [hd, h.low, allowed_low p.layout.aligned0]; rfl)
    (by rw [hd, h.low, large_or p.layout.aligned0 (by decide)])
    (by rw [hd, h.low, frame4K_or p.layout.aligned0 (by decide), tableAt_low, ht, he, hal]),
    hd, h.low, frame4K_or p.layout.aligned0 (by decide), tableAt_low, ht, he,
    frame4K_or ha (by decide)]
  exact congrArg some (by omega)

/-! ## Isolation -/

/-- A physical address in the frame of process `pid`. -/
def InFrame (pid pa : Nat) : Prop := userFrame pid ≤ pa ∧ pa < userFrame pid + processSize

/-- **Memory isolation.** After `paging_initialize` and any sequence of calls, a user-mode
access faults, or lands in the frame of the last process id that `paging_change_process`
accepted, or in a text page; so it never lands in the kernel page or in another process's
frame. The kernel page stays mapped to itself. -/
theorem memory_isolation (p₀ : Paging) (calls : List PagingCall) (va : UInt32) :
    let p := calls.foldl PagingCall.apply (pagingInitialize p₀)
    let last := calls.foldl lastPid none
    (∀ pid, (pagingChangeProcess pid p).1 = true ↔ 1 ≤ pid.toNat ∧ pid.toNat ≤ 6) ∧
    (∀ pa, p.translate .user va.toNat = some pa →
      ((∃ pid, last = some pid ∧ 1 ≤ pid ∧ pid ≤ 6 ∧ InFrame pid pa) ∨
        (0xB8000 ≤ pa ∧ pa < 0xBC000)) ∧
      ¬ (0x400000 ≤ pa ∧ pa < 0x800000) ∧
      ∀ q, 1 ≤ q → q ≤ 6 → last ≠ some q → ¬ InFrame q pa) ∧
    (0x400000 ≤ va.toNat → va.toNat < 0x800000 →
      p.translate .supervisor va.toNat = some va.toNat) := by
  intro p last
  have h : PagingOk p last := pagingOk_calls (pagingOk_boot p₀) calls
  refine ⟨fun pid => ?_, fun pa ht => ?_, translate_kernel h⟩
  · rw [changeProcess_eq]
    split_ifs with hp <;> simp [hp]
  · simp only [InFrame, processSize]
    rcases translate_user h ht with ⟨pid, hlast, -, rfl⟩ | htext
    · have hpid := h.last pid hlast
      refine ⟨.inl ⟨pid, hlast, hpid.1, hpid.2, by omega, by omega⟩, ?_, fun q h₁ h₂ hne => ?_⟩
      · simp only [userFrame]
        omega
      · have : pid ≠ q := fun hc => hne (hc ▸ hlast)
        simp only [userFrame]
        omega
    · refine ⟨.inr htext, by omega, fun q h₁ h₂ _ => ?_⟩
      simp only [userFrame]
      omega

end Kernel391

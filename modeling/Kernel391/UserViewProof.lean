import Kernel391.UserView
import Kernel391.UserModeProof

/-!
# Every program runs as if it were alone

What a process has changes only through its own actions, and through these exactly as `alone` says,
whatever other programs, keys and ticks do in between.

The proof is in three parts. Drawing stores below the frames of processes (`SameHigh`). What other
processes do, and the process machinery, leaves the page, the files and the arguments of a process
alone (`SameUser`). And the calls of the process itself are those of `alone` (`alone_performs`).

* `runs_alone` — the run of a process among others is a run of `alone`.
-/

namespace Kernel391

open Bytes Runs CallStacks

/-! ## Frames -/

/-- The two agree on the memory of processes. -/
def SameHigh (k k' : Kernel) : Prop := ∀ b, 0xBC000 ≤ b → k'.phys b = k.phys b

/-- The page of process `p`, its open files and its arguments are the same. -/
structure SameUser (p : Nat) (k k' : Kernel) : Prop where
  page : ∀ b, InFrame p b → k'.phys b = k.phys b
  files : ∀ i, 2 ≤ i → i ≤ 7 →
    (k'.pcbMem (pcbAddr p)).fdArray i = (k.pcbMem (pcbAddr p)).fdArray i
  args : KeepsArgs (k.pcbMem (pcbAddr p)) (k'.pcbMem (pcbAddr p))

section Frames

variable {p q a : Nat} {k k₁ k' : Kernel} {b : Nat}

theorem InFrame.high (h : InFrame p b) : 0x800000 ≤ b := by
  have := h.1
  simp only [userFrame] at this
  omega

/-- The frames of two processes do not meet. -/
theorem InFrame.apart (hp : 1 ≤ p) (hq : 1 ≤ q) (h : InFrame p b) (h' : InFrame q b) : p = q := by
  simp only [InFrame, userFrame, processSize] at h h'
  omega

theorem inFrame_page {va : Nat} (h : InUserPage va) :
    InFrame p (userFrame p + (va - userPageStart)) := by
  simp only [InUserPage, userPageStart, userPageEnd, InFrame, processSize] at h ⊢
  omega

theorem SameHigh.refl (k : Kernel) : SameHigh k k := fun _ _ => rfl

theorem SameHigh.trans (h₁ : SameHigh k k₁) (h₂ : SameHigh k₁ k') : SameHigh k k' :=
  fun b hb => (h₂ b hb).trans (h₁ b hb)

theorem SameHigh.of_eq (h : k'.phys = k.phys) : SameHigh k k' := fun b _ => congrFun h b

namespace SameUser

theorem refl (p : Nat) (k : Kernel) : SameUser p k k :=
  ⟨fun _ _ => rfl, fun _ _ _ => rfl, .refl _⟩

theorem trans (h₁ : SameUser p k k₁) (h₂ : SameUser p k₁ k') : SameUser p k k' where
  page b hb := (h₂.page b hb).trans (h₁.page b hb)
  files i h2 h7 := (h₂.files i h2 h7).trans (h₁.files i h2 h7)
  args := h₁.args.trans h₂.args

/-- Steps that store elsewhere, and leave the PCB alone. -/
theorem of_high (hphys : SameHigh k k')
    (hpcb : k'.pcbMem (pcbAddr p) = k.pcbMem (pcbAddr p)) : SameUser p k k' where
  page b hb := hphys b (by have := hb.high; omega)
  files i _ _ := by rw [hpcb]
  args := .of_eq hpcb

/-- Steps that store in the page of another process, and leave the PCB alone. -/
theorem of_other (hp : 1 ≤ p) (hq : 1 ≤ q) (hne : p ≠ q)
    (hphys : ∀ b, 0xBC000 ≤ b → ¬ InFrame q b → k'.phys b = k.phys b)
    (hpcb : k'.pcbMem (pcbAddr p) = k.pcbMem (pcbAddr p)) : SameUser p k k' where
  page b hb := hphys b (by have := hb.high; omega) fun hc => hne (hb.apart hp hq hc)
  files i _ _ := by rw [hpcb]
  args := .of_eq hpcb

/-- **What a process has** stays. -/
theorem view (h : SameUser p k k') : view p k' = view p k := by
  have hpage : (Kernel391.view p k').page = (Kernel391.view p k).page := by
    funext va
    simp only [Kernel391.view]
    split_ifs with hva
    · exact h.page _ (inFrame_page hva)
    · rfl
  have hfiles : (Kernel391.view p k').files = (Kernel391.view p k).files := by
    funext i
    simp only [Kernel391.view]
    split_ifs with hi
    · rw [h.files i hi.1 hi.2]
    · rfl
  have hargs : argString (k'.pcbMem (pcbAddr p)) = argString (k.pcbMem (pcbAddr p)) := by
    rw [argString, argString, h.args.argArr]
  simp only [Kernel391.view, UserView.mk.injEq] at hpage hfiles ⊢
  exact ⟨hpage, hfiles, h.args.argSize, hargs⟩

end SameUser

end Frames

/-! ## Drawing -/

section Drawing

variable {t : TermId} {k k₁ k' : Kernel} {a : Nat}

theorem OnPage.sameHigh (h : OnPage a t k k') (ha : TextPage a) : SameHigh k k' := fun b hb =>
  h.phys b (.inr (by have := ha.bounds; omega))

theorem sameHigh_printf (h : ScreenInv k) (s : String) : SameHigh k (printf s k) :=
  have ha := textPage_screenPage k k.currentTerm
  (view_printf h.mapped ha h.cursors s).1.sameHigh ha

theorem sameHigh_terminalWrite (h : ScreenInv k) (buf : Buf) (nbytes : Int) :
    SameHigh k (terminalWrite buf nbytes k).2 := by
  have ha := textPage_screenPage k k.currentTerm
  obtain ⟨hpage, -⟩ := (sim_page (usesCursor_current k.currentTerm) h.mapped ha
    fun k' hk' => hk'.currentTerm_eq).puts lawful_screen (slice buf 0 nbytes.toNat)
    (.inl (h.cursors k.currentTerm)) ⟨.refl _ _ k, rfl⟩
  exact hpage.sameHigh ha

theorem sameHigh_echo (hm : MapsTo k (screenPage k k.visableTerm))
    (hin : (screenOf k k.visableTerm).InBounds) (n : Nat) (key : LineKey) :
    SameHigh k (globalConsole.echo n k key) := by
  have ha := textPage_screenPage k k.visableTerm
  obtain ⟨hpage, -⟩ := (sim_page (usesCursor_global k.visableTerm) hm ha
    fun k' hk' => hk'.visableTerm_eq).echo lawful_screen (.inl hin) ⟨.refl _ _ k, rfl⟩ n key
  exact hpage.sameHigh ha

theorem sameHigh_switchTerminals {last : Option Nat} (hp : PagingOk k.paging last) (t : TermId) :
    SameHigh k (switchTerminals t k) := by
  by_cases ht : t = k.visableTerm
  · refine .of_eq ?_
    rw [switchTerminals, if_pos ht]
  · intro b hb
    have hv := k.visableTerm.isLt
    rw [switchTerminals_phys hp ht, store_of_not, store_of_not]
    · rw [vidBufs_eq]
      simp only [vmemSize]
      omega
    · simp only [vidStartAddr, vmemSize]
      omega

/-- **A key** stores in the pages of the screens. -/
theorem sameHigh_checkInput {ev : KeyEvent} (h : ScreenInv k) (hs : checkInput ev k = some k') :
    SameHigh k k' := by
  obtain ⟨k₁, k₂, h₁, h₂, rfl⟩ := checkInput_screen h.input hs
  obtain ⟨last, hp⟩ := h.mapped.tables
  have hp₁ : PagingOk k₁.paging last := by
    rw [h₁.paging]
    exact pagingOk_setWrite hp (.inl rfl)
  have hk₁ : SameHigh k k₁ := .of_eq h₁.phys
  have hrestore : SameHigh k₂ (restoreScreen k₂) := by
    unfold restoreScreen
    split
    · exact .of_eq rfl
    · exact .refl k₂
  refine hk₁.trans (.trans ?_ hrestore)
  rcases h₂ with ⟨k₃, h₃, h₄⟩ | ⟨-, t, rfl⟩
  · -- the key is echoed, with video memory mapped
    have hlow : k₃.paging.pageTable0M4M vmemPage = vidStartAddr ||| vmemOrMask := by
      rw [h₃.paging, h₁.paging]
      exact (mapsScreen_setWrite vidStartAddr k.paging).low
    have hmaps : MapsTo k₃ (screenPage k₃ k₃.visableTerm) := by
      refine ⟨⟨last, h₃.paging ▸ hp₁⟩, ?_⟩
      rw [screenPage, if_pos rfl, hlow]
    have hvid : SameShown k k.setWriteToVideomem :=
      ⟨fun _ _ _ => rfl, rfl, fun _ => rfl, fun _ => rfl⟩
    have hbounds : (screenOf k₃ k₃.visableTerm).InBounds := by
      rw [h₃.shown.screenOf, h₁.shown.screenOf, hvid.screenOf]
      exact h.cursors _
    have hecho := sameHigh_echo hmaps hbounds (getCurrentNoc k) (decodeKey k.chararray ev)
    exact (SameHigh.of_eq h₃.phys).trans (hecho.trans (.of_eq h₄.phys))
  · exact sameHigh_switchTerminals hp₁ t

end Drawing

/-! ## Starting and ending other programs -/

section Others

variable {im : Image} {sp pid p q curr : Nat} {eip : UInt32} {status : UInt8} {k k₁ k' : Kernel}
  {cmd : Option CString} {o : Output} {a : Nat}

/-- A program is loaded into its own page. -/
theorem sameUser_started (hp : 1 ≤ p) (h₆ : p ≤ 6) (hne : p ≠ pid)
    (h : execute im sp cmd k = .started pid eip k') : SameUser p k k' := by
  obtain ⟨c, _, rfl, -, hfree, -⟩ := execute_started h
  obtain ⟨-, hpid, -⟩ := freeSlot_eq_some.1 hfree
  obtain ⟨prog, -, -, -, hload⟩ := loaded_execute h
  refine .of_other hp hpid hne (fun b _ hb => hload.untouched b fun n hn ht => ?_)
    ((started_of_execute h).pcbMem_of_ne h₆ hne)
  obtain ⟨pa, hpa, ht', -⟩ := hload.contiguous n hn
  exact hb (Option.some.inj (ht'.symm.trans ht) ▸ hpa)

theorem sameUser_printf (hinv : ScreenInv k) (s : String) : SameUser p k (printf s k) :=
  .of_high (sameHigh_printf hinv s) (congrFun (SameButScreen.printf s k).pcbMem_eq _)

theorem SameUser.setRunning (pid : Nat) (b : Bool) (k : Kernel) :
    SameUser p k (k.setRunning pid b) := ⟨fun _ _ => rfl, fun _ _ _ => rfl, .refl _⟩

/-- An `execute` that returns -1 may have printed why. -/
theorem sameUser_failed (hinv : ScreenInv k) (h : execute im sp cmd k = .failed k') :
    SameUser p k k' := by
  rcases execute_failed_cases h with rfl | ⟨-, s, rfl⟩
  · exact .refl p k'
  · exact sameUser_printf hinv s

/-- `close` changes the PCB at `curr` at most. -/
theorem sysClose_pcb {fd ret : Int} (h : sysClose curr fd k = .returned (ret, k')) :
    k' = k ∨ ∃ p, k' = k.setPcb curr p := by
  unfold sysClose at h
  dsimp only at h
  split at h
  · cases h
    exact .inl rfl
  split at h
  · cases h
    exact .inl rfl
  split at h
  · cases h
    exact .inl rfl
  split at h
  · cases h
    exact .inl rfl
  split at h
  · cases h
  · simp only [Outcome.returned.injEq, Prod.mk.injEq] at h
    exact .inr ⟨_, h.2.symm⟩

theorem closeAll_pcbMem {fds : List Nat} (h : closeAll curr fds k = some k') (ha : a ≠ curr) :
    k'.pcbMem a = k.pcbMem a := by
  induction fds generalizing k with
  | nil =>
    cases h
    rfl
  | cons i fds ih =>
    rw [closeAll] at h
    split at h
    · split at h
      · rename_i hclose
        rw [ih h]
        rcases sysClose_pcb hclose with rfl | ⟨p, rfl⟩
        · rfl
        · exact Kernel.setPcb_of_ne ha
      · cases h
    · exact ih h

/-- The end of another program: of the PCB of `p`, at most the status changes. -/
theorem sameUser_haltRest (hne : pcbAddr p ≠ curr) (h : haltRest curr status k = some (o, k')) :
    SameUser p k k' := by
  rw [haltRest_eq] at h
  obtain ⟨k₁, hclose, h⟩ := Option.map_eq_some_iff.1 h
  have hpcb := closeAll_pcbMem hclose hne
  have hphys : k₁.phys = k.phys := by
    rw [(closeAll_frame hclose).kernel]
    rfl
  dsimp only [restoreParent] at h
  obtain ⟨-, rfl⟩ := Prod.mk.inj h
  have hwrite : SameUser p k₁ (writeStatus ((k.pcbMem curr).processId > numTerminals)
      (k₁.pcbMem curr).parent status k₁) := by
    unfold writeStatus
    split
    · refine ⟨fun _ _ => rfl, fun i _ _ => ?_, ?_⟩
      · by_cases ha : pcbAddr p = (k₁.pcbMem curr).parent
        · rw [ha, Kernel.setPcb_self]
        · rw [Kernel.setPcb_of_ne ha]
      · by_cases ha : pcbAddr p = (k₁.pcbMem curr).parent
        · rw [ha, Kernel.setPcb_self]
          exact ⟨rfl, rfl⟩
        · exact .of_eq (Kernel.setPcb_of_ne ha)
    · exact .refl p k₁
  exact (SameUser.of_high (.of_eq hphys) hpcb).trans (hwrite.trans ⟨fun _ _ => rfl,
    fun _ _ _ => rfl, .refl _⟩)

/-- **`halt` by another process**, if it does not start `p`. -/
theorem sameUser_halt (hinv : ScreenInv k) (hp : 1 ≤ p) (h₆ : p ≤ 6)
    (hne : pcbAddr p ≠ getPcbAddress sp) (hstart : o ≠ .started p)
    (h : halt im sp status k = some (o, k')) : SameUser p k k' := by
  have hclosed : SameUser p k (closedBase (k.pcbMem (getPcbAddress sp)).processId k) :=
    (sameUser_printf hinv "Cannot close base process -- ").trans (.setRunning _ false _)
  have hinv' := (contained_closedBase hinv (k.pcbMem (getPcbAddress sp)).processId).inv
  unfold halt at h
  dsimp only at h
  split at h
  · split at h
    · rename_i pid eip k₁ he
      obtain ⟨rfl, rfl⟩ := Prod.mk.inj (Option.some.inj h)
      have hpid : p ≠ pid := fun hc => hstart (hc ▸ rfl)
      exact hclosed.trans (sameUser_started hp h₆ hpid he)
    · rename_i k₁ he
      exact hclosed.trans ((sameUser_failed hinv' he).trans (sameUser_haltRest hne h))
    · cases h
  · exact sameUser_haltRest hne h

theorem sameUser_pageFaultAt {address : String} (hinv : ScreenInv k) (hp : 1 ≤ p) (h₆ : p ≤ 6)
    (hne : pcbAddr p ≠ getPcbAddress sp) (hstart : o ≠ .started p)
    (h : pageFaultAt im sp address k = some (o, k')) : SameUser p k k' := by
  have h₁ := (contained_printf hinv "Page Fault exception\n").inv
  have h₂ := (contained_printf h₁ ("The Exception occurred at:" ++ address)).inv
  exact (sameUser_printf hinv _).trans ((sameUser_printf h₁ _).trans
    (sameUser_halt h₂ hp h₆ hne hstart h))

/-- An `execute` that completes starts a program or returns -1. -/
theorem callExecute_completes {d : Nat} (hc : Completes im k (.execute d cmd))
    (h : callExecute im sp cmd k = some (o, k')) :
    (∃ pid eip prog, o = .started pid ∧ execute im sp cmd k = .started pid eip k' ∧
      Accepts im k cmd prog) ∨ o = .failed ∧ execute im sp cmd k = .failed k' := by
  rcases callExecute_some h with ⟨pid, eip, ho, he⟩ | hfail | ⟨k₁, he, -⟩
  · rcases execute_cases im sp cmd k with ⟨_, he', -⟩ | ⟨c, prog, pid', hcmd, hlen, hlook, hf, -⟩
    · rw [he] at he'
      cases he'
    · exact .inl ⟨pid, eip, prog, ho, he, c, pid', hcmd, hlen, hlook, hf⟩
  · exact .inr hfail
  · obtain ⟨c, prog, pid, hcmd, hlook, hf, hstart⟩ := execute_pageFault he
    exfalso
    rcases execute_cases im sp cmd k with
      ⟨_, he', -⟩ | ⟨c', prog', pid', hcmd', hlen, hlook', hf', he'⟩
    · rw [he] at he'
      cases he'
    · obtain ⟨-, h₁, h₆, -⟩ := freeSlot_eq_some.1 hf'
      obtain ⟨k₂, hk₂⟩ := startProgram_of_fits sp k h₁ h₆
        (hc prog' ⟨c', pid', hcmd', hlen, hlook', hf'⟩)
      rw [he, hk₂] at he'
      cases he'

/-- **An `execute`** that completes, if it does not start `p`. -/
theorem sameUser_execute {d : Nat} (hinv : ScreenInv k) (hp : 1 ≤ p) (h₆ : p ≤ 6)
    (hc : Completes im k (.execute d cmd)) (hstart : o ≠ .started p)
    (h : callExecute im sp cmd k = some (o, k')) : SameUser p k k' := by
  rcases callExecute_completes hc h with ⟨pid, eip, prog, rfl, he, -⟩ | ⟨-, he⟩
  · exact sameUser_started hp h₆ (fun hc => hstart (hc ▸ rfl)) he
  · exact sameUser_failed hinv he

/-- **A tick** that switches, or starts a shell other than `p`. -/
theorem sameUser_tick (him : HasShell im) (hp : 1 ≤ p) (h₆ : p ≤ 6) (hstart : o ≠ .started p)
    (ho : o = .switched ∨ ∃ pid, o = .started pid) (h : schedulerNext im sp k = some (o, k')) :
    SameUser p k k' := by
  have hsched : SameUser p k (scheduled sp k) := by
    rw [scheduled_eq]
    exact ⟨fun _ _ => rfl, fun _ _ _ => rfl, .refl _⟩
  rcases schedulerNext_cases h with ⟨-, -, rfl⟩ | ⟨-, ⟨pid, eip, he, rfl⟩ | ⟨_, -, rfl, -⟩ |
    ⟨_, he, -⟩⟩
  · exact hsched.trans ⟨fun _ _ => rfl, fun _ _ _ => rfl, .refl _⟩
  · have hon : SameUser p (scheduled sp k) ((scheduled sp k).turnOn (k.currentTerm + 1)) :=
      ⟨fun _ _ => rfl, fun _ _ _ => rfl, .refl _⟩
    have hpid : p ≠ pid := fun hc => hstart (hc ▸ rfl)
    exact hsched.trans (hon.trans (sameUser_started hp h₆ hpid he))
  · rcases ho with ho | ⟨_, ho⟩
    · cases ho
    · cases ho
  · exact absurd he (execute_shell_ne_pageFault him)

end Others

/-! ## The page of the running process -/

section Page

variable {p q va : Nat} {b : Buf} {buf : Option Buf} {k k₁ : Kernel} {m : Machine TermId Nat}

/-- Process `q` is the one whose page is mapped. -/
structure Mapped (q : Nat) (k : Kernel) : Prop where
  ge : 1 ≤ q
  le : q ≤ 6
  user : k.paging.pageDirectory userMemLocation = userEntry (some q)

theorem Sound.mapped (h : Sound k m) : Mapped (runningPid m) k :=
  ⟨h.runningPid_pos.1, h.runningPid_pos.2, h.user⟩

namespace Mapped

variable (h : Mapped q k)
include h

theorem congr (hk : k₁.paging = k.paging) : Mapped q k₁ := ⟨h.ge, h.le, hk ▸ h.user⟩

theorem translate (mode : X86.Mode) (hva : InUserPage va) :
    k.paging.translate mode va = some (userFrame q + (va - userPageStart)) := by
  obtain ⟨ha, hl, hf⟩ := userEntry_some ⟨h.ge, h.le⟩ mode
  simp only [InUserPage, userPageStart, userPageEnd] at hva ⊢
  have hdir : X86.dirIndex va = userMemLocation := by
    simp only [X86.dirIndex, userMemLocation]
    omega
  have hoff : va % 4194304 = va - 0x8000000 := by omega
  rw [Paging.translate, X86.translate_large (by rw [hdir, h.user]; exact ha)
    (by rw [hdir, h.user]; exact hl), hdir, h.user, hf, hoff]

theorem pointer (va : Nat) : k.pointer va =
    if InUserPage va then some (userFrame q + (va - userPageStart)) else none := by
  unfold Kernel.pointer
  split
  · exact h.translate .supervisor ‹_›
  · rfl

omit h in
/-- A byte of the page, where it is in memory. -/
theorem page {i : Nat} (hva : InUserPage va) (hi : i < userPageEnd - va) :
    (view q k).page (va + i) = k.phys (userFrame q + (va - userPageStart) + i) := by
  simp only [InUserPage] at hva
  have hin : InUserPage (va + i) := ⟨by omega, by omega⟩
  have hoff : va + i - userPageStart = va - userPageStart + i := by omega
  simp only [view, if_pos hin, hoff, Nat.add_assoc]

theorem buffer (va : Nat) : k.buffer va =
    if va = 0 then some none
    else if InUserPage va then
      some (some fun i => k.phys (userFrame q + (va - userPageStart) + i))
    else none := by
  unfold Kernel.buffer
  rw [h.pointer]
  split_ifs <;> rfl

theorem string (va : Nat) : k.string va = (view q k).string va := by
  unfold Kernel.string UserView.string
  rw [h.pointer]
  split_ifs with h0 hva
  · rfl
  · have hbytes : ((List.range (userPageEnd - va)).map fun i =>
        k.phys (userFrame q + (va - userPageStart) + i)) =
        slice (view q k).page va (userPageEnd - va) :=
      List.map_congr_left fun i hi => (page hva (List.mem_range.1 hi)).symm
    simp only [Option.bind_eq_bind, Option.bind_some, hbytes]
  · rfl

/-- A buffer that was filled in is in the page of `q`. -/
theorem putBuffer_phys (hva : InUserPage va) (b : Buf) : k.putBuffer va (some b) =
    { k with phys := store k.phys (userFrame q + (va - userPageStart)) b (userPageEnd - va) } := by
  unfold Kernel.putBuffer
  rw [h.pointer, if_pos hva]

/-- There is nowhere else to put one. -/
theorem putBuffer_cases (va : Nat) (buf : Option Buf) :
    k.putBuffer va buf = k ∨ ∃ b, buf = some b ∧ InUserPage va := by
  unfold Kernel.putBuffer
  rw [h.pointer]
  by_cases hva : InUserPage va
  · cases buf with
    | none => exact .inl (by rw [if_pos hva])
    | some b => exact .inr ⟨b, rfl, hva⟩
  · exact .inl (by rw [if_neg hva])

theorem sameUser_putBuffer (hp : 1 ≤ p) (hne : p ≠ q) (va : Nat) (buf : Option Buf) :
    SameUser p k (k.putBuffer va buf) := by
  rcases h.putBuffer_cases va buf with hk | ⟨b, rfl, hva⟩
  · rw [hk]
    exact .refl p k
  · rw [h.putBuffer_phys hva]
    refine ⟨fun x hx => ?_, fun _ _ _ => rfl, .refl _⟩
    have hge := h.ge
    simp only [InFrame, userFrame, processSize, InUserPage, userPageStart, userPageEnd] at hx hva
    dsimp only
    rw [store_of_not]
    simp only [userFrame, userPageStart, userPageEnd]
    omega

omit h in
/-- **What is stored in the page** of a process. -/
theorem view_store {l : List UInt8} {n : Nat} (hva : InUserPage va) (hn : n ≤ userPageEnd - va)
    (hl : l.length ≤ n ∨ n = userPageEnd - va)
    (hb : ∀ i < n, b i = if i < l.length then l.getD i 0 else (view q k).page (va + i)) :
    view q { k with phys := store k.phys (userFrame q + (va - userPageStart)) b n } =
      (view q k).put va l := by
  simp only [view, UserView.put, UserView.mk.injEq, and_self, and_true]
  funext x
  simp only [InUserPage] at hva
  by_cases hx : va ≤ x ∧ x < va + n
  · have hin : InUserPage x := ⟨by omega, by omega⟩
    have hx₁ : userFrame q + (va - userPageStart) ≤ userFrame q + (x - userPageStart) := by omega
    have hx₂ : userFrame q + (x - userPageStart) < userFrame q + (va - userPageStart) + n := by
      omega
    have hsub : userFrame q + (x - userPageStart) - (userFrame q + (va - userPageStart)) =
        x - va := by omega
    rw [if_pos hin, store_of_lt hx₁ hx₂, hsub, hb _ (by omega)]
    split_ifs with hlen
    · rw [store_of_lt hx.1 (by omega)]
    · rw [store_of_not (by omega)]
      simp only [view]
      rw [show va + (x - va) = x by omega]
  · rw [store_of_not (b := fun va => if InUserPage va then
      k.phys (userFrame q + (va - userPageStart)) else 0) (by omega)]
    split_ifs with hin
    · simp only [InUserPage] at hin
      exact store_of_not (by omega)
    · rfl

theorem view_putBuffer {l : List UInt8} (hva : InUserPage va)
    (hb : ∀ i < userPageEnd - va, b i =
      if i < l.length then l.getD i 0 else (view q k).page (va + i)) :
    view q (k.putBuffer va (some b)) = (view q k).put va l := by
  rw [h.putBuffer_phys hva]
  exact view_store hva le_rfl (.inr rfl) hb

/-- A store of the running program. -/
theorem store_cases (hscr : ScreenInv k) {pa : Nat} (hva : va < 2 ^ 32)
    (ht : k.paging.translate .user va = some pa) :
    (InUserPage va ∧ pa = userFrame q + (va - userPageStart)) ∨
      (¬ InUserPage va ∧ pa < 0xBC000) := by
  by_cases hin : InUserPage va
  · rw [h.translate .user hin] at ht
    exact .inl ⟨hin, (Option.some.inj ht).symm⟩
  · obtain ⟨last, hp⟩ := hscr.mapped.tables
    rcases translate_user hp ht with ⟨pid, -, hdir, -⟩ | ⟨-, hlow⟩
    · refine absurd ?_ hin
      simp only [X86.dirIndex, userMemLocation, InUserPage, userPageStart, userPageEnd] at hdir ⊢
      omega
    · exact .inr ⟨hin, hlow⟩

/-- A later call overwrites what an earlier one left. -/
theorem putBuffer_putBuffer (hva : InUserPage va) (b b' : Buf) :
    (k.putBuffer va (some b)).putBuffer va (some b') = k.putBuffer va (some b') := by
  have hk : Mapped q (k.putBuffer va (some b)) := by
    rw [h.putBuffer_phys hva]
    exact h.congr rfl
  rw [hk.putBuffer_phys hva, h.putBuffer_phys hva, h.putBuffer_phys hva]
  dsimp only
  rw [store_store_same]

/-- A buffer that is as it was. -/
theorem view_same (hva : InUserPage va)
    (hb : ∀ i < userPageEnd - va, b i = (view q k).page (va + i)) :
    view q (k.putBuffer va (some b)) = view q k := by
  rw [h.view_putBuffer (l := []) hva fun i hi => hb i hi]
  simp [UserView.put, store_zero]

/-- A buffer with `n` bytes stored at its start. -/
theorem view_filled (hva : InUserPage va)
    (hb : ∀ i < userPageEnd - va, b i = (view q k).page (va + i)) (src : Buf) (n : Nat) :
    view q (k.putBuffer va (some (store b 0 src n))) = (view q k).put va (slice src 0 n) := by
  refine h.view_putBuffer hva fun i hi => ?_
  rw [length_slice]
  split_ifs with hn
  · rw [store_of_lt (by omega) (by omega), List.getD_eq_getElem?_getD, slice_getElem?, if_pos hn,
      Nat.zero_add]
    rfl
  · rw [store_of_not (by omega), hb i hi]

/-- The buffers a program can name. -/
theorem buffer_cases {buf : Option Buf} (hbuf : k.buffer va = some buf) :
    (va = 0 ∧ buf = none) ∨ (va ≠ 0 ∧ InUserPage va ∧
      ∃ b, buf = some b ∧ ∀ i < userPageEnd - va, b i = (view q k).page (va + i)) := by
  rw [h.buffer] at hbuf
  split_ifs at hbuf with h0 hva
  · exact .inl ⟨h0, (Option.some.inj hbuf).symm⟩
  · exact .inr ⟨h0, hva, _, (Option.some.inj hbuf).symm, fun i hi => (page hva hi).symm⟩

end Mapped

end Page

/-! ## Calls of other programs -/

section OtherCalls

variable {im : Image} {p q curr d : Nat} {k k₁ k' : Kernel} {m : Machine TermId Nat} {a : Act}
  {ans : Answer}

theorem sameUser_files (h : SameButFiles k k') (hne : pcbAddr p ≠ curr)
    (hpcb : ∀ a ≠ curr, k'.pcbMem a = k.pcbMem a) : SameUser p k k' := by
  refine .of_high (.of_eq ?_) (hpcb _ hne)
  rw [h]

theorem sysOpen_pcb {name : Option CString} {dir : Dentry} {ret : Int}
    (h : sysOpen im curr name dir k = .returned (ret, k')) :
    k' = k ∨ ∃ p, k' = k.setPcb curr p := by
  rcases sysOpen_cases im curr name dir k with heq | ⟨_, _, -, -, -, -, -, heq⟩ <;>
    rw [heq] at h <;> simp only [Outcome.returned.injEq, Prod.mk.injEq] at h
  · exact .inl h.2.symm
  · exact .inr ⟨_, h.2.symm⟩

theorem reads_pcb {fd nbytes ret : Int} {buf buf' : Option Buf}
    (h : Reads im curr fd buf nbytes k ret buf' k') :
    k'.pcbMem = k.pcbMem ∨ ∃ p, k' = k.setPcb curr p := by
  cases h with
  | refused => exact .inl rfl
  | line _ _ hread => exact .inl (terminalRead_pcbMem hread)
  | rtc => exact .inl rfl
  | dir => exact .inr ⟨_, rfl⟩
  | file => exact .inr ⟨_, rfl⟩

theorem sameUser_read (h : Sound k m) (hd : d < 0x1FFF) {fd nbytes ret : Int}
    {buf buf' : Option Buf} (hne : pcbAddr p ≠ getPcbAddress (k.sp d))
    (hs : sysRead im (getPcbAddress (k.sp d)) fd buf nbytes k = .returned (ret, buf', k')) :
    SameUser p k k' ∧ k'.paging = k.paging := by
  have hfiles := sameButFiles_read hs
  refine ⟨sameUser_files hfiles hne fun a ha => ?_, by rw [hfiles]⟩
  rcases reads_pcb (reads_of_sysRead (h.caller_fdInv hd) hs) with hk | ⟨_, rfl⟩
  · rw [hk]
  · exact Kernel.setPcb_of_ne ha

/-- Bytes stored one by one, where the pages are one piece of memory. -/
theorem foldl_store8 {va pa : Nat} (f : Nat → UInt8) (n : Nat)
    (ht : ∀ i < n, k.paging.translate .supervisor (va + i) = some (pa + i)) :
    (List.range n).foldl (fun k i => k.store8 (va + i) (f i)) k =
      { k with phys := store k.phys pa f n } := by
  induction n with
  | zero => simp [store_zero]
  | succ n ih =>
    rw [List.range_succ, List.foldl_append, ih fun i hi => ht i (by omega)]
    simp only [List.foldl_cons, List.foldl_nil, Kernel.store8, ht n (by omega), update_store]

/-- **`vidmap`** stores its pointer in the page of the caller, or refuses. -/
theorem vidmap_page {screenStart : UInt32} {ret : Int} (h : Mapped q k) (hscr : ScreenInv k)
    (hs : vidmap screenStart k = some (ret, k')) :
    (¬ InUserPage screenStart.toNat ∧ ret = -1 ∧ k' = k) ∨
    (InUserPage screenStart.toNat ∧ 4 ≤ userPageEnd - screenStart.toNat ∧ ret = 0 ∧
      k' = { k with
        paging := pagingVidmap k.paging
        phys := store k.phys (userFrame q + (screenStart.toNat - userPageStart))
          (fun i => [0x00, 0x00, 0x50, 0x08].getD i 0) 4 }) := by
  have hlt := screenStart.toNat_lt
  have hin : VidmapAccepts screenStart ↔ InUserPage screenStart.toNat := by
    rw [vidmapAccepts_iff]
    simp only [X86.dirIndex, userMemLocation, InUserPage, userPageStart, userPageEnd]
    omega
  unfold vidmap at hs
  by_cases h0 : screenStart = 0
  · rw [if_pos h0] at hs
    obtain ⟨hret, hk⟩ := Prod.mk.inj (Option.some.inj hs)
    exact .inl ⟨fun hc => (hin.2 hc).1 h0, hret.symm, hk.symm⟩
  rw [if_neg h0] at hs
  dsimp only at hs
  split at hs
  · rename_i hidx
    obtain ⟨hret, hk⟩ := Prod.mk.inj (Option.some.inj hs)
    exact .inl ⟨fun hc => hidx (hin.2 hc).2, hret.symm, hk.symm⟩
  rename_i hidx
  have hva := hin.1 ⟨h0, not_not.1 hidx⟩
  obtain ⟨k₁, hk₁, hs⟩ := Option.bind_eq_some_iff.1 hs
  obtain ⟨hret, rfl⟩ := Prod.mk.inj (Option.some.inj hs)
  unfold Kernel.store32 at hk₁
  split at hk₁
  swap
  · cases hk₁
  rename_i hall
  obtain ⟨last, hp⟩ := hscr.mapped.tables
  have hmap : Mapped q { k with paging := pagingVidmap k.paging } := ⟨h.ge, h.le, h.user⟩
  -- the four bytes are in the page, or the store faults
  have hfit : 4 ≤ userPageEnd - screenStart.toNat := by
    by_contra hc
    simp only [InUserPage, userPageStart, userPageEnd] at hva hc
    have hend : (pagingVidmap k.paging).translate .supervisor (screenStart.toNat + 3) = none :=
      translate_pageEnd (pagingOk_vidmap hp) .supervisor (by omega) (by omega)
    have h3 := List.all_eq_true.1 hall 3 (by decide)
    rw [hend] at h3
    cases h3
  have ht (i : Nat) (hi : i < 4) : (pagingVidmap k.paging).translate .supervisor
      (screenStart.toNat + i) = some (userFrame q + (screenStart.toNat - userPageStart) + i) := by
    simp only [InUserPage, userPageEnd] at hva hfit
    have hoff : screenStart.toNat + i - userPageStart = screenStart.toNat - userPageStart + i := by
      omega
    have hin : InUserPage (screenStart.toNat + i) := by
      simp only [InUserPage, userPageEnd]
      omega
    rw [hmap.translate .supervisor hin, hoff, Nat.add_assoc]
  refine .inr ⟨hva, hfit, hret.symm, ?_⟩
  have hbytes : ∀ i < 4, UInt8.ofNat (vmem133MB / 256 ^ i) =
      [0x00, 0x00, 0x50, 0x08].getD i 0 := by decide
  injection hk₁ with hk₁
  rw [← hk₁, foldl_store8 _ 4 ht]
  dsimp only
  rw [store_congr hbytes]

/-- **What other programs do** leaves a process alone. -/
theorem sameUser_performs (h : Sound k m) (hd : d < 0x1FFF) (hp : 1 ≤ p) (h₆ : p ≤ 6)
    (hne : p ≠ runningPid m) (hact : (∀ c, a ≠ .execute c) ∧ ∀ status, a ≠ .halt status)
    (hs : performs im (k.sp d) k a ans k') : SameUser p k k' := by
  have hpcb : pcbAddr p ≠ getPcbAddress (k.sp d) := by
    rw [h.getPcbAddress hd]
    exact fun hc => hne (pcbAddr_inj h₆ h.runningPid_pos.2 hc)
  have hmap := h.mapped
  cases a with
  | load va =>
    obtain ⟨-, pa, -, -, rfl⟩ := hs
    exact .refl p k'
  | store va c =>
    obtain ⟨hva, pa, ht, -, rfl⟩ := hs
    refine ⟨fun b hb => Function.update_of_ne ?_ _ _, fun _ _ _ => rfl, .refl _⟩
    intro hc
    rcases hmap.store_cases h.screen hva ht with ⟨hin, hpa⟩ | ⟨-, hlow⟩
    · have hq : InFrame (runningPid m) b := by
        rw [hc, hpa]
        exact inFrame_page hin
      exact hne (hb.apart hp hmap.ge hq)
    · have := hb.high
      omega
  | «open» filename =>
    obtain ⟨name, dir, ret, -, hs, -⟩ := hs
    refine sameUser_files (sameButFiles_open hs) hpcb fun a ha => ?_
    rcases sysOpen_pcb hs with rfl | ⟨_, rfl⟩
    · rfl
    · exact Kernel.setPcb_of_ne ha
  | close fd =>
    obtain ⟨ret, hs, -⟩ := hs
    refine sameUser_files (sameButFiles_close hs) hpcb fun a ha => ?_
    rcases sysClose_pcb hs with rfl | ⟨_, rfl⟩
    · rfl
    · exact Kernel.setPcb_of_ne ha
  | read fd buf nbytes =>
    obtain ⟨b, ret, b', k₁, -, hs, -, -, rfl⟩ := hs
    obtain ⟨hsame, hpaging⟩ := sameUser_read h hd hpcb hs
    exact hsame.trans ((hmap.congr hpaging).sameUser_putBuffer hp hne buf b')
  | write fd buf nbytes =>
    obtain ⟨b, ret, -, -, hs, -⟩ := hs
    rcases sysWrite_cases hs with ⟨-, rfl⟩ | ⟨b, -, rfl⟩
    · exact .refl p k'
    · exact .of_high (sameHigh_terminalWrite h.screen b nbytes)
        (congrFun (SameButScreen.putsModified _ k).pcbMem_eq _)
  | getargs buf nbytes =>
    obtain ⟨b, -, -, -, rfl⟩ := hs
    exact hmap.sameUser_putBuffer hp hne buf _
  | vidmap screenStart =>
    obtain ⟨ret, hs, -⟩ := hs
    rcases vidmap_page hmap h.screen hs with ⟨-, -, rfl⟩ | ⟨hin, hfit, -, rfl⟩
    · exact .refl p k'
    · refine ⟨fun x hx => ?_, fun _ _ _ => rfl, .refl _⟩
      have hge := hmap.ge
      simp only [InFrame, userFrame, processSize, InUserPage, userPageStart, userPageEnd] at hx hin
      dsimp only
      rw [store_of_not]
      simp only [userFrame, userPageStart, userPageEnd] at hfit ⊢
      omega
  | setHandler signum handlerAddress =>
    obtain ⟨-, rfl⟩ := hs
    exact .refl p k'
  | sigreturn =>
    obtain ⟨-, rfl⟩ := hs
    exact .refl p k'
  | execute command => exact absurd rfl (hact.1 command)
  | executeReturns => exact hs.elim
  | halt status => exact absurd rfl (hact.2 status)

end OtherCalls

end Kernel391

import Kernel391.UserMode
import Kernel391.BlindProof

/-!
# The invariant of the machine

What holds in every state that the machine can reach, whatever programs do: the call stacks of
`SchedulerProof`, the descriptor tables of `DescriptorProof` and the screens of `ScreenProof`.
`Sound k m` puts them together, `m` being the call stacks.

Most of what programs do leaves the call stacks alone (`SameThreads`): keys, stores and the calls
on files do, and `execute`, `halt`, page faults and ticks are the steps of `procSystem`.

* `Sound.step` — every step keeps the invariant.
* `system_invariant` — what it says of every state that is reached.
-/

namespace Kernel391

open Bytes Runs CallStacks

/-! ## Keys and the terminals' processes -/

/-- No terminal has another process or another saved stack pointer. -/
def SamePids (k k' : Kernel) : Prop :=
  ∀ t, (k'.terminals t).pid = (k.terminals t).pid ∧ (k'.terminals t).esp = (k.terminals t).esp

/-- A step that may index out of bounds, and otherwise keeps the processes of terminals. -/
def KeepsPids (k : Kernel) (o : Option Kernel) : Prop := ∀ k', o = some k' → SamePids k k'

section Keys

variable {k k₁ k' : Kernel}

theorem SamePids.refl (k : Kernel) : SamePids k k := fun _ => ⟨rfl, rfl⟩

theorem SamePids.trans (h₁ : SamePids k k₁) (h₂ : SamePids k₁ k') : SamePids k k' := fun t =>
  ⟨(h₂ t).1.trans (h₁ t).1, (h₂ t).2.trans (h₁ t).2⟩

theorem SamePids.of_screen (h : SameButScreen k k') : SamePids k k' := fun t =>
  ⟨h.pid_eq t, h.esp_eq t⟩

namespace KeepsPids

theorem some (h : SamePids k k') : KeepsPids k (some k') := fun _ hk =>
  Option.some.inj hk ▸ h

theorem none : KeepsPids k none := nofun

theorem ite {p : Prop} [Decidable p] {x y : Option Kernel} (hx : KeepsPids k x)
    (hy : KeepsPids k y) : KeepsPids k (if p then x else y) := by
  split
  · exact hx
  · exact hy

theorem after {x : Option Kernel} (h : SamePids k k₁) (hx : KeepsPids k₁ x) : KeepsPids k x :=
  fun k' hk => h.trans (hx k' hk)

theorem bind {x : Option Kernel} {f : Kernel → Option Kernel} (hx : KeepsPids k x)
    (hf : ∀ k, KeepsPids k (f k)) : KeepsPids k (x >>= f) := fun k' hk => by
  obtain ⟨k₁, hk₁, hk'⟩ := Option.bind_eq_some_iff.1 hk
  exact (hx k₁ hk₁).trans (hf k₁ k' hk')

theorem index {α : Type} (o : Option α) {f : α → Option Kernel} (hf : ∀ a, KeepsPids k (f a)) :
    KeepsPids k (o >>= f) := fun k' hk => by
  obtain ⟨a, -, hk'⟩ := Option.bind_eq_some_iff.1 hk
  exact hf a k' hk'

theorem setLineBuffer (k : Kernel) : KeepsPids k (setLineBuffer k) :=
  index _ fun _ => some (.refl k)

theorem setLineChar (i : Nat) (c : UInt8) (k : Kernel) : KeepsPids k (setLineChar i c k) :=
  ite (some (.refl k)) none

theorem setTerminalBuffer (n : Nat) (k : Kernel) : KeepsPids k (setTerminalBuffer n k) :=
  index _ fun _ => ite (some (.refl k)) none

theorem setGlobalBuffer (n : Nat) (k : Kernel) : KeepsPids k (setGlobalBuffer n k) := by
  refine index _ fun lb => some fun t => ?_
  by_cases ht : t = k.visableTerm
  · subst ht
    simp
  · simp [ht]

theorem putKey (c : UInt8) (n : Nat) (k : Kernel) : KeepsPids k (putKey c n k) :=
  (setLineChar n c k).bind fun k => after (.of_screen (.putc c k)) (setGlobalBuffer _ _)

theorem backspaceKey (n : Nat) (k : Kernel) : KeepsPids k (backspaceKey n k) :=
  ite (after (.of_screen (.handlebackspace k))
    ((setLineChar n 0 _).bind fun k => setGlobalBuffer _ k)) (some (.refl k))

theorem enterKey (n : Nat) (k : Kernel) : KeepsPids k (enterKey n k) :=
  after (.of_screen (.putc _ k)) ((setLineChar n newline _).bind fun k =>
    (setTerminalBuffer n k).bind fun k => setGlobalBuffer 0 (clearLinebuffer k))

theorem charKey (c temp : UInt8) (n : Nat) (k : Kernel) : KeepsPids k (charKey c temp n k) := by
  have hput (c : UInt8) : KeepsPids k (Kernel391.putKey c n k) := putKey c n k
  have hclear : KeepsPids k
      (Kernel391.setGlobalBuffer 0 (clearLinebuffer (setposition 0 0 (clear k)))) := by
    have hpos := (SameButScreen.clear k).trans (.setposition 0 0 (clear k))
    generalize setposition 0 0 (clear k) = k₁ at hpos
    have hline : SamePids k (clearLinebuffer k₁) := fun t => SamePids.of_screen hpos t
    exact after hline (setGlobalBuffer 0 _)
  exact ite (ite hclear (ite (hput _) (some (.refl k))))
    (ite (ite (hput _) (some (.refl k))) (ite (hput _) (some (.refl k))))

theorem switchTerminals (t : TermId) (k : Kernel) : SamePids k (switchTerminals t k) := by
  have hterm : (Kernel391.switchTerminals t k).terminals = k.terminals := by
    rw [switchTerminals_eq]
  intro u
  rw [hterm]
  exact ⟨rfl, rfl⟩

theorem switchKey (a : Nat) (k : Kernel) : SamePids k (switchKey a k) := by
  unfold Kernel391.switchKey
  split_ifs
  · exact switchTerminals 1 k
  · exact switchTerminals 2 k
  · exact switchTerminals 0 k
  · exact .refl k

theorem handleKey (ev : KeyEvent) (n : Nat) (k : Kernel) : KeepsPids k (handleKey ev n k) := by
  have hkey (i : Nat) (c : UInt8) : KeepsPids k (Option.some (k.setKey i c)) := some (.refl k)
  have hdefault : KeepsPids k (defaultKey ev n k) :=
    ite (after (switchKey ev.code.toNat k) (charKey _ _ _ _)) (charKey _ _ _ k)
  exact ite (hkey _ _) <| ite (hkey _ _) <| ite (hkey _ _) <| ite (hkey _ _) <|
    ite (hkey _ _) <| ite (hkey _ _) <| ite (hkey _ _) <| ite (hkey _ _) <|
    ite (backspaceKey n k) <| ite (enterKey n k) <| ite (hkey _ _) hdefault

end KeepsPids

/-- **A key** changes the process of no terminal. -/
theorem samePids_checkInput {ev : KeyEvent} (h : checkInput ev k = some k') : SamePids k k' := by
  refine ((KeepsPids.setLineBuffer k).bind fun k₁ => ?_) k' h
  have hpos : SamePids k₁ (setposition (globalConsole.getX k₁) (globalConsole.getY k₁)
      k₁).setWriteToVideomem := fun t => SamePids.of_screen (.setposition _ _ k₁) t
  refine .after hpos ((KeepsPids.handleKey ev _ _).bind fun k₂ => .some ?_)
  split
  · exact fun _ => ⟨rfl, rfl⟩
  · exact .refl k₂

/-- A key leaves the page directory alone. -/
theorem pageDirectory_checkInput {ev : KeyEvent} (hin : InputOk k)
    (h : checkInput ev k = some k') : k'.paging.pageDirectory = k.paging.pageDirectory := by
  obtain ⟨k₁, k₂, h₁, h₂, rfl⟩ := checkInput_screen hin h
  have hrestore : (restoreScreen k₂).paging.pageDirectory = k₂.paging.pageDirectory := by
    unfold restoreScreen
    split
    · rfl
    · rfl
  have hdir : k₁.paging.pageDirectory = k.paging.pageDirectory := by
    rw [h₁.paging]
    rfl
  rw [hrestore, ← hdir]
  rcases h₂ with ⟨k₃, h₃, h₄⟩ | ⟨-, t, rfl⟩
  · have hecho := (SameButScreen.closed_global k₃).echo (getCurrentNoc k) (.refl k₃)
      (decodeKey k.chararray ev)
    rw [h₄.paging, hecho.paging_eq, h₃.paging]
  · rw [switchTerminals_eq]
    dsimp only
    split_ifs
    · rfl
    · rfl
    · rfl

end Keys

/-! ## What a `read` does -/

/-- The ways in which a `read` returns, for a descriptor table as `execute` sets it up. -/
inductive Reads (im : Image) (curr : Nat) (fd : Int) (buf : Option Buf) (nbytes : Int)
    (k : Kernel) : Int → Option Buf → Kernel → Prop
  | refused : buf = none ∨ fd = fdStdout ∨ ¬ (k.pcbMem curr).Open fd →
      Reads im curr fd buf nbytes k (-1) buf k
  | line {b b' : Buf} {ret : Int} {k' : Kernel} : buf = some b → fd = 0 →
      terminalRead b nbytes k = some (ret, b', k') → Reads im curr fd buf nbytes k ret (some b') k'
  | rtc {b : Buf} : buf = some b → 2 ≤ fd → (k.pcbMem curr).Open fd →
      ((k.pcbMem curr).fdArray fd.toNat).ftype = 0 → Reads im curr fd buf nbytes k 0 (some b) k
  | dir {b : Buf} : buf = some b → 2 ≤ fd → (k.pcbMem curr).Open fd →
      ((k.pcbMem curr).fdArray fd.toNat).ftype = 1 →
      Reads im curr fd buf nbytes k (dirRead im fd.toNat b nbytes (k.pcbMem curr)).1
        (some (dirRead im fd.toNat b nbytes (k.pcbMem curr)).2.1)
        (k.setPcb curr (dirRead im fd.toNat b nbytes (k.pcbMem curr)).2.2)
  | file {b : Buf} : buf = some b → 2 ≤ fd → (k.pcbMem curr).Open fd →
      ((k.pcbMem curr).fdArray fd.toNat).ftype = 2 →
      Reads im curr fd buf nbytes k (fsRead im fd.toNat buf nbytes (k.pcbMem curr)).1
        (fsRead im fd.toNat buf nbytes (k.pcbMem curr)).2.1
        (k.setPcb curr (fsRead im fd.toNat buf nbytes (k.pcbMem curr)).2.2)

section Calls

variable {im : Image} {curr sp : Nat} {fd nbytes ret : Int} {buf buf' : Option Buf}
  {k k₁ k' : Kernel} {a : Nat}

theorem eq_two_of_le {t : UInt8} (h : t ≤ 2) (h0 : t ≠ 0) (h1 : t ≠ 1) : t = 2 := by
  have h : t.toNat ≤ 2 := h
  have h0 : t.toNat ≠ 0 := fun hc => h0 (UInt8.toNat_inj.1 hc)
  have h1 : t.toNat ≠ 1 := fun hc => h1 (UInt8.toNat_inj.1 hc)
  exact UInt8.toNat_inj.1 (show t.toNat = 2 by omega)

theorem reads_of_sysRead (h : FdInv (k.pcbMem curr))
    (hs : sysRead im curr fd buf nbytes k = .returned (ret, buf', k')) :
    Reads im curr fd buf nbytes k ret buf' k' := by
  have hrefused (hr : sysRead im curr fd buf nbytes k = .returned (-1, buf, k))
      (hwhy : buf = none ∨ fd = fdStdout ∨ ¬ (k.pcbMem curr).Open fd) :
      Reads im curr fd buf nbytes k ret buf' k' := by
    rw [hr] at hs
    simp only [Outcome.returned.injEq, Prod.mk.injEq] at hs
    obtain ⟨rfl, rfl, rfl⟩ := hs
    exact .refused hwhy
  by_cases hfd : fd = fdStdout
  · exact hrefused (sysRead_of_bad (.inl hfd)) (.inr (.inl hfd))
  rcases h.open_or fd with hopen | hbad
  swap
  · exact hrefused (sysRead_of_bad (.inr hbad)) (.inr (.inr fun hc => hbad
      ⟨hc.1, hc.2.1, hc.2.2.trans_ne inuse_ne_notinuse⟩))
  cases hbuf : buf with
  | none =>
    subst hbuf
    exact hrefused sysRead_of_null (.inl rfl)
  | some b =>
    subst hbuf
    rw [sysRead_of_open b hfd hopen] at hs
    rcases h.of_open hopen with ⟨h0, htab⟩ | ⟨h1, -⟩ | ⟨h2, -, ht, htab⟩
    · rw [htab] at hs
      simp only [OpsPtr.entry, callRead] at hs
      split at hs
      · cases hs
      · rename_i hread
        simp only [Outcome.returned.injEq, Prod.mk.injEq] at hs
        obtain ⟨rfl, rfl, rfl⟩ := hs
        exact .line rfl h0 hread
    · exact absurd h1 hfd
    · rw [htab] at hs
      rcases entry_tableOf ((k.pcbMem curr).fdArray fd.toNat).ftype .read with
        ⟨ht0, he⟩ | ⟨ht1, he⟩ | ⟨ht0, ht1, he⟩ <;> rw [he, callRead] at hs <;>
        simp only [Outcome.returned.injEq, Prod.mk.injEq] at hs <;> obtain ⟨rfl, rfl, rfl⟩ := hs
      · exact .rtc rfl h2 hopen ht0
      · exact .dir rfl h2 hopen ht1
      · exact .file rfl h2 hopen (eq_two_of_le ht ht0 ht1)

/-! ## What leaves the call stacks alone -/

/-- The processes are those of `k`, called as in `k`; only lines, screens, files, memory and the
mapping of the screen differ. -/
structure SameThreads (k k' : Kernel) : Prop where
  running : k'.processesRunning = k.processesRunning
  isOn : k'.isOn = k.isOn
  currentTerm : k'.currentTerm = k.currentTerm
  cpu : k'.cpu = k.cpu
  tss : k'.tssEsp0 = k.tssEsp0
  pids : SamePids k k'
  user : k'.paging.pageDirectory userMemLocation = k.paging.pageDirectory userMemLocation
  links : ∀ a, SameLinks (k.pcbMem a) (k'.pcbMem a)
  fds : ∀ a, FdInv (k.pcbMem a) → FdInv (k'.pcbMem a)

namespace SameThreads

theorem refl (k : Kernel) : SameThreads k k :=
  ⟨rfl, rfl, rfl, rfl, rfl, .refl k, rfl, fun _ => .refl _, fun _ h => h⟩

theorem of_screen (h : SameButScreen k k') : SameThreads k k' where
  running := h.running_eq
  isOn := h.isOn_eq
  currentTerm := h.currentTerm_eq
  cpu := h.cpu_eq
  tss := h.tssEsp0_eq
  pids := .of_screen h
  user := by rw [h.paging_eq]
  links a := by
    rw [h.pcbMem_eq]
    exact .refl _
  fds a hf := by
    rw [h.pcbMem_eq]
    exact hf

/-- A call that changes at most the descriptors of the PCB at `curr`. -/
theorem of_files (h : SameButFiles k k') {p : Pcb}
    (hp : k'.pcbMem = Function.update k.pcbMem curr p) (hlinks : SameLinks (k.pcbMem curr) p)
    (hfds : FdInv (k.pcbMem curr) → FdInv p) : SameThreads k k' := by
  have hpcb (a : Nat) : SameLinks (k.pcbMem a) (k'.pcbMem a) ∧
      (FdInv (k.pcbMem a) → FdInv (k'.pcbMem a)) := by
    rw [hp]
    by_cases ha : a = curr
    · subst ha
      rw [Function.update_self]
      exact ⟨hlinks, hfds⟩
    · rw [Function.update_of_ne ha]
      exact ⟨.refl _, id⟩
  have hk : k' = { k with
      pcbMem := k'.pcbMem
      terminalbuffer := k'.terminalbuffer
      flags := k'.flags
      numberofchars := k'.numberofchars } := h
  refine ⟨?_, ?_, ?_, ?_, ?_, ?_, ?_, fun a => (hpcb a).1, fun a => (hpcb a).2⟩ <;> rw [hk]
  exact .refl k

theorem of_read (h : Reads im curr fd buf nbytes k ret buf' k') : SameThreads k k' := by
  have hmoved {p : Pcb} (h2 : 2 ≤ fd) (hm : Moved fd (k.pcbMem curr) p) :
      SameThreads k (k.setPcb curr p) := by
    refine of_files (SameButFiles.setPcb k curr p) rfl ?_ fun hf => hf.moved hm
    rcases hm.eq with rfl | ⟨_, -, -, rfl⟩
    · exact .refl _
    · exact ⟨rfl, rfl, rfl, rfl⟩
  cases h with
  | refused => exact .refl k
  | line _ _ hread =>
    have hpcb : k'.pcbMem = Function.update k.pcbMem curr (k.pcbMem curr) := by
      rw [terminalRead_pcbMem hread, Function.update_eq_self]
    exact of_files (sameButFiles_terminalRead hread) hpcb (.refl _) id
  | rtc => exact .refl k
  | dir _ h2 hopen => exact hmoved h2 (dirRead_moved _ _ h2 hopen.2.1)
  | file _ h2 hopen => exact hmoved h2 (fsRead_moved _ _ h2 hopen.2.1)

theorem of_open {name : Option CString} {d : Dentry}
    (h : sysOpen im curr name d k = .returned (ret, k')) : SameThreads k k' := by
  rcases sysOpen_cases im curr name d k with heq | ⟨n, i, -, hfree, ht, -, -, heq⟩ <;>
    rw [heq] at h <;> injection h with h <;> obtain ⟨-, rfl⟩ := Prod.mk.inj h
  · exact .refl k
  · refine of_files (SameButFiles.setPcb k curr _) rfl ⟨rfl, rfl, rfl, rfl⟩ fun hf => ?_
    exact hf.setFd hfree.ge (.inr ⟨rfl, toUInt8_le ht, rfl⟩)

theorem of_close (hf : FdInv (k.pcbMem curr))
    (h : sysClose curr fd k = .returned (ret, k')) : SameThreads k k' := by
  by_cases hc : 2 ≤ fd ∧ (k.pcbMem curr).Open fd
  · rw [(sysClose_eq hf fd).1 hc.1 hc.2] at h
    injection h with h
    obtain ⟨-, rfl⟩ := Prod.mk.inj h
    refine of_files (SameButFiles.setPcb k curr _) rfl ⟨rfl, rfl, rfl, rfl⟩ fun hf => ?_
    exact hf.setFd (by omega) (.inl rfl)
  · rw [(sysClose_eq hf fd).2 hc] at h
    injection h with h
    obtain ⟨-, rfl⟩ := Prod.mk.inj h
    exact .refl k

theorem of_write (h : sysWrite curr fd buf nbytes k = .returned (ret, k')) :
    SameThreads k k' := by
  rcases sysWrite_cases h with ⟨-, rfl⟩ | ⟨b, -, rfl⟩
  · exact .refl k'
  · exact .of_screen (.putsModified _ k)

theorem of_vidmap {screenStart : UInt32}
    (hs : vidmap screenStart k = some (ret, k')) : SameThreads k k' := by
  unfold vidmap at hs
  split at hs
  · obtain ⟨-, rfl⟩ := Prod.mk.inj (Option.some.inj hs)
    exact .refl k
  dsimp only at hs
  split at hs
  · obtain ⟨-, rfl⟩ := Prod.mk.inj (Option.some.inj hs)
    exact .refl k
  obtain ⟨k₁, hk₁, hs⟩ := Option.bind_eq_some_iff.1 hs
  obtain ⟨-, rfl⟩ := Prod.mk.inj (Option.some.inj hs)
  have hk : k₁ =
      { ({ k with paging := pagingVidmap k.paging } : Kernel) with phys := k₁.phys } := by
    unfold Kernel.store32 at hk₁
    split at hk₁
    · injection hk₁ with hk₁
      rw [← hk₁]
      refine List.foldlRecOn (motive := fun k₂ : Kernel => k₂ =
        { ({ k with paging := pagingVidmap k.paging } : Kernel) with phys := k₂.phys }) _ _ rfl ?_
      intro k₂ hk₂ i hi
      unfold Kernel.store8
      split
      · rw [hk₂]
      · exact hk₂
    · cases hk₁
  rw [hk]
  exact ⟨rfl, rfl, rfl, rfl, rfl, .refl k, rfl, fun _ => .refl _, fun _ h => h⟩

/-- What is stored in memory is no part of the call stacks. -/
theorem phys (h : SameThreads k k') (phys : Nat → UInt8) :
    SameThreads k { k' with phys := phys } :=
  ⟨h.running, h.isOn, h.currentTerm, h.cpu, h.tss, h.pids, h.user, h.links, h.fds⟩

theorem putBuffer (h : SameThreads k k') (va : Nat) (b : Option Buf) :
    SameThreads k (k'.putBuffer va b) := by
  unfold Kernel.putBuffer
  split
  · exact h.phys _
  · exact h

/-- A key. -/
theorem of_key {ev : KeyEvent} (hin : InputOk k) (hs : checkInput ev k = some k') :
    SameThreads k k' := by
  have hprocs := checkInput_procs hs
  have heq := checkInput_withProcs k ev k
  rw [show k.withProcs k = k from rfl, hs] at heq
  have hk : k' = k'.withProcs k := Option.some.inj heq
  refine ⟨hprocs.running, hprocs.isOn, checkInput_currentTerm hin hs, by rw [hk]; rfl,
    by rw [hk]; rfl, samePids_checkInput hs, by rw [pageDirectory_checkInput hin hs],
    fun a => hprocs.pcbMem ▸ .refl _, fun a hf => hprocs.pcbMem ▸ hf⟩

end SameThreads

end Calls

/-! ## The invariant -/

/-- The machine in good order while a program runs, with the call stacks `m`. -/
structure Sound (k : Kernel) (m : Machine TermId Nat) : Prop where
  made : ∃ tr, Made tr k
  represents : Represents k m
  program : k.cpu ≠ pcbAddr 0
  screen : ScreenInv k

section Threads

variable {tr : List (ProcEvent × Seen)} {k k' : Kernel} {m : Machine TermId Nat}

theorem Made.same (h : Made tr k) (hs : SameThreads k k') : Made tr k' where
  pcb p l hl := by
    obtain ⟨hge, hle, hid, hframe, hfds⟩ := h.pcb p l hl
    exact ⟨hge, hle, (hs.links _).processId.trans hid, (hs.links _).parentEsp.trans hframe,
      hs.fds _ hfds⟩
  parent p hp h₃ := by
    obtain ⟨q, hq, haddr, hid⟩ := h.parent p hp h₃
    exact ⟨q, hq, (hs.links _).parent.trans haddr, (hs.links _).parentProcessId.trans hid⟩
  running p hp := h.running p (hs.running ▸ hp)
  terms t := by
    have ht := h.terms t
    unfold TermOk at ht ⊢
    rw [hs.isOn, (hs.pids t).1]
    exact ht
  stack := by
    rw [hs.cpu, hs.tss, hs.isOn, hs.currentTerm]
    exact h.stack

theorem Represents.same (h : Represents k m) (hs : SameThreads k k') : Represents k' m where
  current := hs.currentTerm.trans h.current
  chain t := (h.chain t).imp fun a b hab => hab.of_same (hs.links _)
  root := h.root
  top t p hp := (hs.pids t).1.trans (h.top t p hp)
  apart := h.apart
  running p := by
    rw [hs.running]
    exact h.running p
  on t := by
    rw [hs.isOn]
    exact h.on t
  saved t ht p hp := by
    rw [(hs.pids t).2]
    exact h.saved t ht p hp
  cpu := hs.cpu.trans h.cpu
  tss := hs.tss.trans h.tss
  user hp := hs.user.trans (h.user hp)
  order := h.order

theorem Represents.process (h : Represents k m) (h₆ : runningPid m ≤ 6) :
    k.process = runningPid m := by
  rw [Kernel.process, h.cpu, parentId_eq h₆]

namespace Sound

theorem same (h : Sound k m) (hs : SameThreads k k') (hscr : ScreenInv k') : Sound k' m where
  made := by
    obtain ⟨tr, hm⟩ := h.made
    exact ⟨tr, hm.same hs⟩
  represents := h.represents.same hs
  program := hs.cpu ▸ h.program
  screen := hscr

variable (h : Sound k m)
include h

theorem current_ne_nil : m.stack m.current ≠ [] := h.represents.current_ne_nil h.program

/-- The running process. -/
theorem runningPid_pos : 1 ≤ runningPid m ∧ runningPid m ≤ 6 := by
  obtain ⟨tr, hm⟩ := h.made
  exact h.represents.runningPid_pos hm h.current_ne_nil

theorem fdInv {t : TermId} {p : Nat} (hp : p ∈ m.stack t) : FdInv (k.pcbMem (pcbAddr p)) := by
  obtain ⟨tr, hm⟩ := h.made
  obtain ⟨l, -, hok⟩ := h.represents.pcbOk hm hp
  exact hok.fds

theorem process : k.process = runningPid m := by
  have := h.runningPid_pos
  exact h.represents.process (by omega)

theorem getPcbAddress {depth : Nat} (hd : depth < 0x1FFF) :
    getPcbAddress (k.sp depth) = pcbAddr (runningPid m) := by
  obtain ⟨tr, hm⟩ := h.made
  exact h.represents.caller_pcb hm h.current_ne_nil hd

theorem caller_fdInv {depth : Nat} (hd : depth < 0x1FFF) :
    FdInv (k.pcbMem (Kernel391.getPcbAddress (k.sp depth))) := by
  rw [h.getPcbAddress hd]
  exact h.fdInv (runningPid_mem h.current_ne_nil)

/-- The page of the running process is mapped. -/
theorem user : k.paging.pageDirectory userMemLocation = userEntry (some (runningPid m)) := by
  have := h.runningPid_pos
  exact h.represents.user (by omega)

end Sound

/-- A state that a step of `procSystem` leads to, with a process started. -/
theorem sound_of_started {im : Image} {e : ProcEvent} {o : Seen} {m' : Machine TermId Nat}
    (him : HasShell im) (hm : Made tr k)
    (hs : Guarded (Completes im) (procSystem im) k e o k') (hrep : Represents k' m')
    (hscr : ScreenInv k') (hstarted : ∃ q, lastStart (tr ++ [(e, o)]) q ≠ none) :
    Sound k' m' := by
  have hm' := made_step him hm hs
  refine ⟨⟨_, hm'⟩, hrep, fun hc => ?_, hscr⟩
  obtain ⟨q, hq⟩ := hstarted
  rcases hm'.stack with ⟨-, -, hnone⟩ | ⟨_, -, -, hon⟩
  · exact hq (hnone q)
  · have hne : m'.stack m'.current ≠ [] := hrep.current ▸ (hrep.on _).1 hon
    have hpos := hrep.runningPid_pos hm' hne
    rw [hrep.cpu] at hc
    have := pcbAddr_inj hpos.2 (by omega) hc
    omega

/-- A state that a step of `procSystem` leads to, from one in good order. -/
theorem sound_of_proc {im : Image} {e : ProcEvent} {o : Seen} {m' : Machine TermId Nat}
    (him : HasShell im) (h : Sound k m) (hs : Guarded (Completes im) (procSystem im) k e o k')
    (hrep : Represents k' m') (hscr : ScreenInv k') : Sound k' m' := by
  obtain ⟨tr, hm⟩ := h.made
  refine sound_of_started him hm hs hrep hscr ?_
  -- some process was started before, and still is
  rcases hm.stack with ⟨hcpu, -⟩ | ⟨q, hq, -⟩
  · exact absurd hcpu h.program
  · refine ⟨q, ?_⟩
    by_cases ho : ∃ pid, o.output = .started pid
    · obtain ⟨pid, ho⟩ := ho
      rw [lastStart_concat_started ho]
      by_cases hqp : q = pid
      · rw [hqp, Function.update_self]
        exact Option.some_ne_none _
      · rwa [Function.update_of_ne hqp]
    · rwa [lastStart_concat_of_ne fun pid hc => ho ⟨pid, hc⟩]

end Threads

/-! ## Steps -/

/-- The process machinery that an event sets in motion. -/
inductive Switches : OsEvent → ProcEvent → Prop
  | tick (d : Nat) : Switches (.tick d) (.tick d)
  | execute (d command : Nat) (c : Option CString) :
      Switches (.act d (.execute command)) (.execute d c)
  | halt (d : Nat) (status : UInt8) : Switches (.act d (.halt status)) (.halt d status)
  | fault (d : Nat) (address : String) : Switches (.fault d address) (.halt d 80)

/-- **The machine of call stacks.** Its events are those of the whole machine: some change the
stacks as `ThreadStep` says, and all others leave them as they are. -/
inductive OsThread (m : Machine TermId Nat) : OsEvent → Report → Machine TermId Nat → Prop
  | switch {e : OsEvent} {r : Report} {pe : ProcEvent} {o : Seen} {m' : Machine TermId Nat} :
      Switches e pe → ThreadStep m pe o m' → r.answer = .went o.output →
      r.caller = runningPid m → r.runs = runningPid m' → OsThread m e r m'
  | stay {e : OsEvent} {r : Report} : (∀ o, r.answer ≠ .went o) → r.caller = runningPid m →
      r.runs = runningPid m → OsThread m e r m

section Steps

variable {im : Image} {k k₁ k' : Kernel} {m : Machine TermId Nat} {e : OsEvent} {r : Report}

/-- A step of `procSystem`, as the machine makes it. -/
theorem procStep_of (pe : ProcEvent) {d : Nat} {o : Output} (hd : pe.depth = d) (hlt : d < 0x1FFF)
    (hs : procStep im k pe = some (o, k')) :
    procSystem im k pe ⟨o, k'.currentTerm, (k.pcbMem k.cpu).processId, k.sp d⟩ k' :=
  ⟨hd ▸ hlt, hs, rfl, rfl, by rw [hd]⟩

/-- What an action other than `execute` and `halt` does to the call stacks: nothing. -/
theorem sameThreads_performs {d : Nat} {a : Act} {ans : Answer} (h : Sound k m)
    (hd : d < 0x1FFF) (hs : performs im (k.sp d) k a ans k') :
    (SameThreads k k' ∧ ScreenInv k' ∧ ∀ o, ans ≠ .went o) ∨
    (∃ command, a = .execute command) ∨ ∃ status, a = .halt status := by
  have hfd := h.caller_fdInv hd
  have hscr {k₁ : Kernel} (h₁ : ScreenInv k₁) (phys : Nat → UInt8) :
      ScreenInv { k₁ with phys := phys } :=
    ⟨⟨h₁.input.noc_le, h₁.input.enter, h₁.input.f1, h₁.input.f2, h₁.input.f3⟩,
      ⟨h₁.mapped.tables, h₁.mapped.low⟩, h₁.cursors.congr (fun _ => rfl) fun _ => rfl⟩
  have hput {k₁ : Kernel} (h₁ : ScreenInv k₁) (va : Nat) (b : Option Buf) :
      ScreenInv (k₁.putBuffer va b) := by
    unfold Kernel.putBuffer
    split
    · exact hscr h₁ _
    · exact h₁
  cases a with
  | load va =>
    obtain ⟨-, pa, -, rfl, rfl⟩ := hs
    exact .inl ⟨.refl k', h.screen, nofun⟩
  | store va c =>
    obtain ⟨-, pa, -, rfl, rfl⟩ := hs
    exact .inl ⟨(SameThreads.refl k).phys _, hscr h.screen _, nofun⟩
  | «open» filename =>
    obtain ⟨name, d, ret, -, hs, rfl⟩ := hs
    exact .inl ⟨.of_open hs, (contained_files h.screen (sameButFiles_open hs)).inv, nofun⟩
  | close fd =>
    obtain ⟨ret, hs, rfl⟩ := hs
    exact .inl ⟨.of_close hfd hs, (contained_files h.screen (sameButFiles_close hs)).inv, nofun⟩
  | read fd buf nbytes =>
    obtain ⟨b, ret, b', k₁, -, hs, -, rfl, rfl⟩ := hs
    refine .inl ⟨(SameThreads.of_read (reads_of_sysRead hfd hs)).putBuffer _ _, ?_, nofun⟩
    exact hput (contained_files h.screen (sameButFiles_read hs)).inv _ _
  | write fd buf nbytes =>
    obtain ⟨b, ret, -, -, hs, rfl⟩ := hs
    refine .inl ⟨.of_write hs, ?_, nofun⟩
    have hcall : sysCall im (k.sp d) k (.write fd b nbytes) k' := ⟨ret, hs⟩
    exact (contained_sysCall h.screen hcall).inv
  | getargs buf nbytes =>
    obtain ⟨b, -, -, rfl, rfl⟩ := hs
    exact .inl ⟨(SameThreads.refl k).putBuffer _ _, hput h.screen _ _, nofun⟩
  | vidmap screenStart =>
    obtain ⟨ret, hs, rfl⟩ := hs
    exact .inl ⟨.of_vidmap hs, (contained_vidmap h.screen hs).1.inv, nofun⟩
  | setHandler signum handlerAddress =>
    obtain ⟨rfl, rfl⟩ := hs
    exact .inl ⟨.refl k', h.screen, nofun⟩
  | sigreturn =>
    obtain ⟨rfl, rfl⟩ := hs
    exact .inl ⟨.refl k', h.screen, nofun⟩
  | execute command => exact .inr (.inl ⟨command, rfl⟩)
  | executeReturns => exact hs.elim
  | halt status => exact .inr (.inr ⟨status, rfl⟩)

/-- A step that leaves the call stacks alone. -/
theorem Sound.stay (h : Sound k m) (hr : OsStep im k e r k') (hs : SameThreads k k')
    (hscr : ScreenInv k') (hans : ∀ o, r.answer ≠ .went o) : OsThread m e r m ∧ Sound k' m := by
  have h' := h.same hs hscr
  exact ⟨.stay hans (hr.caller.trans h.process) (hr.runs.trans h'.process), h'⟩

/-- A step that is one of `procSystem`, from `k` or from a state with the same threads. -/
theorem Sound.switch {pe : ProcEvent} {o : Seen} {m' : Machine TermId Nat} (him : HasShell im)
    (h : Sound k m) (h₁ : Sound k₁ m) (hr : OsStep im k e r k') (hsw : Switches e pe)
    (hs : Guarded (Completes im) (procSystem im) k₁ pe o k') (ht : ThreadStep m pe o m')
    (hrep : Represents k' m') (hscr : ScreenInv k') (hans : r.answer = .went o.output) :
    OsThread m e r m' ∧ Sound k' m' := by
  have h' := sound_of_proc him h₁ hs hrep hscr
  exact ⟨.switch hsw ht hans (hr.caller.trans h.process) (hr.runs.trans h'.process), h'⟩

/-- **Every step keeps the invariant**, and is a step of the machine of call stacks. -/
theorem Sound.step (him : HasShell im) (h : Sound k m) (hord : Orderly im k e)
    (hr : OsStep im k e r k') : ∃ m', OsThread m e r m' ∧ Sound k' m' := by
  obtain ⟨tr, hm⟩ := h.made
  have hd := hr.depth
  have hstep := hr.step
  cases e with
  | tick d =>
    obtain ⟨o, hs, hans⟩ := hstep
    have hp := procStep_of (.tick d) rfl hd hs
    obtain ⟨m', ht, hrep⟩ := represents_tick him hm h.represents hp
    exact ⟨m', h.switch him h hr (.tick d) ⟨trivial, hp⟩ ht hrep
      (screenInv_next h.screen.input h.screen.mapped.tables h.screen.cursors hs) hans⟩
  | key ev =>
    obtain ⟨hs, hans⟩ := hstep
    have hscr := screenInv_checkInput h.screen.input h.screen.mapped.tables h.screen.cursors hs
    exact ⟨m, h.stay hr (.of_key h.screen.input hs) hscr fun o => by rw [hans]; nofun⟩
  | act d a =>
    have hcpu := hstep.1
    have hs := hord.performs hstep
    rcases sameThreads_performs h hd hs with ⟨hsame, hscr, hans⟩ | ⟨command, rfl⟩ | ⟨status, rfl⟩
    · exact ⟨m, h.stay hr hsame hscr hans⟩
    · obtain ⟨c, o, hc, hs, hans⟩ := hs
      have hp := procStep_of (.execute d c) rfl hd ((if_neg hcpu).trans hs)
      have hturn : InTurn im k (.execute d c) := fun prog hacc => hord.2 c prog hc hacc
      obtain ⟨m', ht, hrep⟩ := represents_execute hm h.represents hturn hp
      exact ⟨m', h.switch him h hr (.execute d command c) ⟨hturn.completes, hp⟩ ht hrep
        (contained_callExecute h.screen hs).inv hans⟩
    · obtain ⟨o, hs, hans⟩ := hs
      have hp := procStep_of (.halt d status) rfl hd ((if_neg hcpu).trans hs)
      obtain ⟨m', ht, hrep⟩ := represents_halt him hm h.represents hp
      exact ⟨m', h.switch him h hr (.halt d status) ⟨trivial, hp⟩ ht hrep
        (contained_halt h.screen hs).inv hans⟩
  | fault d address =>
    obtain ⟨hcpu, o, hs, hans⟩ := hstep
    have hprint := (SameButScreen.printf "Page Fault exception\n" k).trans
      (.printf ("The Exception occurred at:" ++ address) _)
    have hscr₁ := (contained_printf h.screen "Page Fault exception\n").inv
    have h₁ := h.same (.of_screen hprint)
      (contained_printf hscr₁ ("The Exception occurred at:" ++ address)).inv
    obtain ⟨tr₁, hm₁⟩ := h₁.made
    have hsp : k.sp d = Kernel.sp _ d := congrArg (· - (d + 1)) hprint.tssEsp0_eq.symm
    rw [pageFaultAt, hsp] at hs
    have hp := procStep_of (.halt d 80) rfl hd ((if_neg h₁.program).trans hs)
    obtain ⟨m', ht, hrep⟩ := represents_halt him hm₁ h₁.represents hp
    exact ⟨m', h.switch him h₁ hr (.fault d address) ⟨trivial, hp⟩ ht hrep
      (contained_halt h₁.screen hs).inv hans⟩

/-! ## Before the first program -/

/-- The kernel after boot, while it waits for the first tick. -/
structure Idle (k : Kernel) : Prop where
  made : Made [] k
  represents : Represents k threadStart
  input : InputOk k
  tables : ∃ last, PagingOk k.paging last
  cursors : CursorsOk k

theorem idle_entry (k₀ : Kernel) : Idle (entry k₀) where
  made := made_boot (sameButScreen_entry k₀)
  represents := represents_boot (sameButScreen_entry k₀)
  input := inputOk_entry k₀
  tables := ⟨_, pagingOk_entry k₀⟩
  cursors := cursorsOk_entry k₀

namespace Idle

variable (h : Idle k)
include h

theorem process : k.process = runningPid threadStart :=
  h.represents.process (by decide)

theorem key {ev : KeyEvent} (hs : checkInput ev k = some k') : Idle k' := by
  have hsame := SameThreads.of_key h.input hs
  have hscr := screenInv_checkInput h.input h.tables h.cursors hs
  exact ⟨h.made.same hsame, h.represents.same hsame, hscr.input, hscr.mapped.tables, hscr.cursors⟩

/-- The first tick starts a shell. -/
theorem tick {d : Nat} {o : Output} (him : HasShell im) (hd : d < 0x1FFF)
    (hs : schedulerNext im (k.sp d) k = some (o, k')) :
    ∃ seen m', seen.output = o ∧ ThreadStep threadStart (.tick d) seen m' ∧ Sound k' m' := by
  have hp := procStep_of (.tick d) rfl hd hs
  obtain ⟨m', ht, hrep⟩ := represents_tick him h.made h.represents hp
  refine ⟨_, m', rfl, ht, sound_of_started (e := .tick d) him h.made ⟨trivial, hp⟩ hrep
    (screenInv_next h.input h.tables h.cursors hs) ?_⟩
  cases ht with
  | switch _ hne => exact absurd rfl hne
  | shell ho =>
    refine ⟨(threadStart.current + 1 : TermId) + 1, ?_⟩
    rw [lastStart_concat_started ho, Function.update_self]
    exact Option.some_ne_none _

end Idle

/-- The machine, before the first program and after. -/
inductive Settled (k : Kernel) : Machine TermId Nat → Prop
  | idle : Idle k → Settled k threadStart
  | sound {m : Machine TermId Nat} : Sound k m → Settled k m

namespace Settled

theorem represents (h : Settled k m) : Represents k m := by
  cases h with
  | idle h => exact h.represents
  | sound h => exact h.represents

theorem step (him : HasShell im) (h : Settled k m) (hord : Orderly im k e)
    (hr : OsStep im k e r k') : ∃ m', OsThread m e r m' ∧ Settled k' m' := by
  cases h with
  | sound h =>
    obtain ⟨m', ht, h'⟩ := h.step him hord hr
    exact ⟨m', ht, .sound h'⟩
  | idle h =>
    have hstep := hr.step
    have hcpu : k.cpu = pcbAddr 0 := h.represents.cpu
    cases e with
    | tick d =>
      obtain ⟨o, hs, hans⟩ := hstep
      obtain ⟨_, m', rfl, ht, h'⟩ := h.tick him hr.depth hs
      exact ⟨m', .switch (.tick d) ht hans (hr.caller.trans h.process)
        (hr.runs.trans h'.process), .sound h'⟩
    | key ev =>
      obtain ⟨hs, hans⟩ := hstep
      have h' := h.key hs
      exact ⟨threadStart, .stay (fun o => by rw [hans]; nofun) (hr.caller.trans h.process)
        (hr.runs.trans h'.process), .idle h'⟩
    | act d a => exact absurd hcpu hstep.1
    | fault d address => exact absurd hcpu hstep.1

end Settled

end Steps

/-! ## Runs -/

section Run

variable {im : Image} {tr : List (OsEvent × Report)} {k₀ k : Kernel}

/-- **The machine refines the machine of call stacks.** -/
theorem settled_run (him : HasShell im)
    (h : Run (Guarded (Orderly im) (os im)) (entry k₀) tr k) :
    ∃ m, Run OsThread threadStart tr m ∧ Settled k m :=
  h.simulates (.idle (idle_entry k₀)) fun _ _ _ _ _ hk hs => hk.step him hs.1 hs.2

/-- **What holds of the machine.** Whatever programs do in an orderly run, with ticks, keys and
faults in between: the machine makes the steps of the machine of call stacks, and its state
represents that of the call stacks. Every running process has a descriptor table in order. Once a
program runs, the screens and the lines of the terminals are in order, and once all three shells do,
the records of the scheduler agree. -/
theorem system_invariant (him : HasShell im)
    (h : Run (Guarded (Orderly im) (os im)) (entry k₀) tr k) :
    ∃ m, Run OsThread threadStart tr m ∧ Represents k m ∧
      (∀ p, k.processesRunning p = true → FdInv (k.pcbMem (pcbAddr p))) ∧
      (k.cpu ≠ pcbAddr 0 → ScreenInv k) ∧
      ((∀ t, k.isOn t = true) → SchedulingContext k) := by
  obtain ⟨m, hrun, hk⟩ := settled_run him h
  refine ⟨m, hrun, hk.represents, ?_⟩
  cases hk with
  | idle hk =>
    refine ⟨fun p hp => absurd rfl (hk.made.running p hp), fun hc => absurd hk.represents.cpu hc,
      fun hall => absurd rfl ((hk.represents.on 0).1 (hall 0))⟩
  | sound hk =>
    obtain ⟨_, hm⟩ := hk.made
    refine ⟨fun p hp => ?_, fun _ => hk.screen, hk.represents.schedulingContext hm⟩
    obtain ⟨t, ht⟩ := (hk.represents.running p).1 hp
    exact hk.fdInv ht

/-- The first two ticks. -/
theorem system_invariant_ticks : ∃ (tr : List (OsEvent × Report)) (k : Kernel),
    tr.map Prod.fst = [.tick 0, .tick 0] ∧
    Run (Guarded (Orderly shellImage) (os shellImage)) (entry default) tr k ∧
    (∃ m, Run OsThread threadStart tr m ∧ Represents k m) ∧ ScreenInv k := by
  obtain ⟨o₁, k₁, h₁, -, hb, -⟩ := booting_tick hasShell_shellImage
    (booting_boot (sameButScreen_entry default)) (by decide) (by decide : 0 < 0x1FFF)
  obtain ⟨o₂, k₂, h₂, -, -, hst⟩ := booting_tick hasShell_shellImage hb (by decide)
    (by decide : 0 < 0x1FFF)
  have hs₁ : OsStep shellImage (entry default) (.tick 0)
      ⟨.went o₁.output, (entry default).process, k₁.process⟩ k₁ :=
    ⟨by decide, ⟨_, h₁.step, rfl⟩, rfl, rfl⟩
  have hs₂ : OsStep shellImage k₁ (.tick 0) ⟨.went o₂.output, k₁.process, k₂.process⟩ k₂ :=
    ⟨by decide, ⟨_, h₂.step, rfl⟩, rfl, rfl⟩
  have htick (k : Kernel) : Orderly shellImage k (.tick 0) := trivial
  have hrun : Run (Guarded (Orderly shellImage) (os shellImage)) (entry default) _ k₂ :=
    (Run.single ⟨htick _, hs₁⟩).snoc ⟨htick _, hs₂⟩
  obtain ⟨m, hthreads, hrep, -, hscr, -⟩ := system_invariant hasShell_shellImage hrun
  refine ⟨_, k₂, rfl, hrun, ⟨m, hthreads, hrep⟩, hscr ?_⟩
  rw [hst.cpu]
  decide

end Run

end Kernel391

import Kernel391.ConsoleSim
import Kernel391.Terminal

/-!
# What does not look at the process table

The console, the line buffers and the keyboard handler work on the same kernel as the processes
do, but never look at the part of it that belongs to processes. Each of them gives the same
result, step for step, when that part is replaced (`Kernel.withProcs`); with its own part for the
replacement, this says that they leave it alone.

* `checkInput_withProcs` — a keyboard interrupt does not look at the process table.
* `checkInput_procs` — and does not change it.
-/

namespace Kernel391

open Bytes Console

/-- `k` with the process table of `k₀`. -/
def Kernel.withProcs (k k₀ : Kernel) : Kernel :=
  { k with
    processesRunning := k₀.processesRunning
    pcbMem := k₀.pcbMem
    isOn := k₀.isOn
    tssEsp0 := k₀.tssEsp0
    cpu := k₀.cpu }

section Blind

variable (k₀ : Kernel)

theorem Kernel.store8_withProcs (va : Nat) (c : UInt8) (k : Kernel) :
    (k.withProcs k₀).store8 va c = (k.store8 va c).withProcs k₀ := by
  unfold Kernel.store8
  rw [show (k.withProcs k₀).paging = k.paging from rfl]
  cases k.paging.translate .supervisor va <;> rfl

theorem sim_global : globalConsole.Sim globalConsole (fun _ => True)
    (fun k k' => k' = k.withProcs k₀) where
  screen _ _ := trivial
  load h _ _ := by subst h; rfl
  store h _ _ _ := by subst h; exact Kernel.store8_withProcs k₀ ..
  getX h := by subst h; rfl
  getY h := by subst h; rfl
  setX h _ := by subst h; rfl
  setY h _ := by subst h; rfl

theorem sim_current : currentConsole.Sim currentConsole (fun _ => True)
    (fun k k' => k' = k.withProcs k₀) where
  screen _ _ := trivial
  load h _ _ := by subst h; rfl
  store h _ _ _ := by subst h; exact Kernel.store8_withProcs k₀ ..
  getX h := by subst h; rfl
  getY h := by subst h; rfl
  setX h _ := by subst h; rfl
  setY h _ := by subst h; rfl

theorem putc_withProcs (c : UInt8) (k : Kernel) :
    putc c (k.withProcs k₀) = (putc c k).withProcs k₀ :=
  (sim_global k₀).putc (.inr fun _ => trivial) rfl c

theorem clear_withProcs (k : Kernel) : clear (k.withProcs k₀) = (clear k).withProcs k₀ :=
  (sim_global k₀).clear rfl

theorem handlebackspace_withProcs (k : Kernel) :
    handlebackspace (k.withProcs k₀) = (handlebackspace k).withProcs k₀ :=
  (sim_global k₀).handlebackspace lawful_global (.inr fun _ => trivial) rfl

theorem terminalWrite_withProcs (buf : Buf) (nbytes : Int) (k : Kernel) :
    terminalWrite buf nbytes (k.withProcs k₀) =
      ((terminalWrite buf nbytes k).1, (terminalWrite buf nbytes k).2.withProcs k₀) :=
  congrArg (Prod.mk 0)
    ((sim_current k₀).puts lawful_current (slice buf 0 nbytes.toNat) (.inr fun _ => trivial) rfl)

theorem copyPage_withProcs (dst src : Nat) (k : Kernel) :
    (k.withProcs k₀).copyPage dst src = (k.copyPage dst src).withProcs k₀ := by
  unfold Kernel.copyPage
  rw [show (k.withProcs k₀).paging = k.paging from rfl]
  cases k.paging.translate .supervisor dst <;> cases k.paging.translate .supervisor src <;> rfl

theorem ite_withProcs {p : Prop} [Decidable p] {k₁ k₂ k₁' k₂' : Kernel} (h₁ : k₁' = k₁.withProcs k₀)
    (h₂ : k₂' = k₂.withProcs k₀) :
    (if p then k₁' else k₂') = (if p then k₁ else k₂).withProcs k₀ := by
  split
  · exact h₁
  · exact h₂

theorem switchTerminals_withProcs (t : TermId) (k : Kernel) :
    switchTerminals t (k.withProcs k₀) = (switchTerminals t k).withProcs k₀ := by
  unfold switchTerminals
  dsimp only
  refine ite_withProcs k₀ rfl ?_
  rw [show ({ k.withProcs k₀ with visableTerm := t } : Kernel).setWriteToVideomem =
    ({ k with visableTerm := t } : Kernel).setWriteToVideomem.withProcs k₀ from rfl,
    copyPage_withProcs, copyPage_withProcs]
  exact ite_withProcs k₀ rfl rfl

/-! ## Keyboard interrupts -/

/-- The outcome of a step that may index out of bounds, with other PCBs in memory. -/
def Copies (x x' : Option Kernel) : Prop := x' = x.map (·.withProcs k₀)

namespace Copies

variable {k₀} {x x' y y' : Option Kernel} {k : Kernel}

theorem ite {p : Prop} [Decidable p] (hx : Copies k₀ x x') (hy : Copies k₀ y y') :
    Copies k₀ (if p then x else y) (if p then x' else y') := by
  split
  · exact hx
  · exact hy

theorem bind {f f' : Kernel → Option Kernel} (hx : Copies k₀ x x')
    (hf : ∀ k, Copies k₀ (f k) (f' (k.withProcs k₀))) : Copies k₀ (x >>= f) (x' >>= f') := by
  rw [hx]
  cases x with
  | none => rfl
  | some k => exact hf k

theorem some {k' : Kernel} (h : k' = k.withProcs k₀) : Copies k₀ (Option.some k) (Option.some k') :=
  congrArg Option.some h

/-- A check of an index. -/
theorem index {α : Type} (o : Option α) {f f' : α → Option Kernel}
    (hf : ∀ a, Copies k₀ (f a) (f' a)) :
    Copies k₀ (o >>= f) (o >>= f') := by
  cases o with
  | none => rfl
  | some a => exact hf a

theorem setLineBuffer (k : Kernel) :
    Copies k₀ (setLineBuffer k) (setLineBuffer (k.withProcs k₀)) :=
  index _ fun _ => some rfl

theorem setGlobalBuffer (n : Nat) (k : Kernel) :
    Copies k₀ (setGlobalBuffer n k) (setGlobalBuffer n (k.withProcs k₀)) :=
  index _ fun _ => some rfl

theorem setTerminalBuffer (n : Nat) (k : Kernel) :
    Copies k₀ (setTerminalBuffer n k) (setTerminalBuffer n (k.withProcs k₀)) :=
  index _ fun _ => ite (some rfl) rfl

theorem setLineChar (i : Nat) (c : UInt8) (k : Kernel) :
    Copies k₀ (setLineChar i c k) (setLineChar i c (k.withProcs k₀)) :=
  ite (some rfl) rfl

theorem putKey (c : UInt8) (n : Nat) (k : Kernel) :
    Copies k₀ (putKey c n k) (putKey c n (k.withProcs k₀)) := by
  refine (setLineChar n c k).bind fun k => ?_
  dsimp only
  rw [putc_withProcs]
  exact setGlobalBuffer _ _

theorem backspaceKey (n : Nat) (k : Kernel) :
    Copies k₀ (backspaceKey n k) (backspaceKey n (k.withProcs k₀)) := by
  refine ite ?_ (some rfl)
  dsimp only
  rw [handlebackspace_withProcs]
  exact (setLineChar n 0 _).bind fun k => setGlobalBuffer _ k

theorem enterKey (n : Nat) (k : Kernel) :
    Copies k₀ (enterKey n k) (enterKey n (k.withProcs k₀)) := by
  unfold Kernel391.enterKey
  dsimp only
  rw [show (k.withProcs k₀).chararray = k.chararray from rfl, putc_withProcs]
  exact (setLineChar n newline _).bind fun k => (setTerminalBuffer n k).bind fun k =>
    setGlobalBuffer 0 (clearLinebuffer k)

/-- What Ctrl+L does to the cursor and the line. -/
theorem home (k : Kernel) :
    Copies k₀ (Kernel391.setGlobalBuffer 0 (clearLinebuffer (setposition 0 0 k)))
    (Kernel391.setGlobalBuffer 0 (clearLinebuffer (setposition 0 0 (k.withProcs k₀)))) :=
  setGlobalBuffer 0 (clearLinebuffer (setposition 0 0 k))

theorem charKey (c temp : UInt8) (n : Nat) (k : Kernel) :
    Copies k₀ (charKey c temp n k) (charKey c temp n (k.withProcs k₀)) := by
  have hput (c : UInt8) : Copies k₀ (Kernel391.putKey c n k)
      (Kernel391.putKey c n (k.withProcs k₀)) := putKey c n k
  have hdown (i : Nat) : (k.withProcs k₀).isDown i = k.isDown i := rfl
  unfold Kernel391.charKey
  simp only [hdown]
  refine ite (ite ?_ (ite (hput _) (some rfl))) (ite (ite (hput _) (some rfl))
    (ite (hput _) (some rfl)))
  rw [clear_withProcs]
  exact home (clear k)

theorem switchKey (a : Nat) (k : Kernel) :
    Kernel391.switchKey a (k.withProcs k₀) = (Kernel391.switchKey a k).withProcs k₀ :=
  ite_withProcs k₀ (switchTerminals_withProcs k₀ 1 k) (ite_withProcs k₀
    (switchTerminals_withProcs k₀ 2 k) (ite_withProcs k₀ (switchTerminals_withProcs k₀ 0 k) rfl))

theorem handleKey (ev : KeyEvent) (n : Nat) (k : Kernel) :
    Copies k₀ (handleKey ev n k) (handleKey ev n (k.withProcs k₀)) := by
  have hdefault : Copies k₀ (defaultKey ev n k) (defaultKey ev n (k.withProcs k₀)) := by
    refine ite ?_ (charKey _ _ _ k)
    dsimp only
    rw [switchKey]
    exact charKey _ _ _ _
  exact ite (some rfl) <| ite (some rfl) <| ite (some rfl) <| ite (some rfl) <| ite (some rfl) <|
    ite (some rfl) <| ite (some rfl) <| ite (some rfl) <| ite (backspaceKey n k) <|
    ite (enterKey n k) <| ite (some rfl) hdefault

end Copies

/-- **A keyboard interrupt does not look at the PCBs.** -/
theorem checkInput_withProcs (ev : KeyEvent) (k : Kernel) :
    checkInput ev (k.withProcs k₀) = (checkInput ev k).map (·.withProcs k₀) := by
  refine (Copies.setLineBuffer k).bind fun k => ?_
  refine (Copies.handleKey ev _ _).bind fun k => Copies.some ?_
  exact ite_withProcs k₀ rfl rfl

theorem terminalRead_withProcs (buffer : Buf) (nbytes : Int) (k : Kernel) :
    terminalRead buffer nbytes (k.withProcs k₀) =
      (terminalRead buffer nbytes k).map fun r => (r.1, r.2.1, r.2.2.withProcs k₀) := by
  unfold terminalRead
  dsimp only
  rw [show (k.withProcs k₀).flags = k.flags from rfl,
    show (k.withProcs k₀).currentTerm = k.currentTerm from rfl]
  split <;> rfl

end Blind

/-- The process table is the same. -/
structure SameProcs (k k' : Kernel) : Prop where
  pcbMem : k'.pcbMem = k.pcbMem
  running : k'.processesRunning = k.processesRunning
  isOn : k'.isOn = k.isOn

/-- **A keyboard interrupt leaves the process table alone.** -/
theorem checkInput_procs {ev : KeyEvent} {k k' : Kernel} (h : checkInput ev k = some k') :
    SameProcs k k' := by
  have heq := checkInput_withProcs k ev k
  rw [show k.withProcs k = k from rfl, h] at heq
  injection heq with heq
  rw [heq]
  exact ⟨rfl, rfl, rfl⟩

end Kernel391

import Kernel391.BlindProof
import Kernel391.VideoProof

/-!
# Private screens

The logical screen of a terminal (`screenOf`) is the video page while the terminal is visible and
its backing page otherwise, with the terminal's cursor. Everything that is drawn is drawn by one
of two consoles, through the one page that `video_mem` is mapped to; when that page is the
logical screen of the terminal whose cursor the console uses, drawing is what a console of its own
would do there (`Draws`).

* `draws_putsModified`, `draws_checkInput` — what a write and a key do to the logical screens.
* `screenOf_switchTerminals`, `quiet_schedulerNext` — a switch and a tick do nothing to them.
* `private_screens` — over a whole run each logical screen is the fold of what its terminal wrote
  and received, on a screen of its own.
-/

namespace Kernel391

open Bytes Runs Console

/-! ## A screen of one's own -/

/-- The bytes of a text page, and a cursor. -/
@[ext] structure Screen where
  cells : Nat → UInt8
  x : Nat
  y : Nat

/-- The console of a program that has the screen to itself. -/
def screenConsole : Console Screen where
  load s off := s.cells off
  store off c s := { s with cells := Function.update s.cells off c }
  getX s := s.x
  getY s := s.y
  setX x s := { s with x := x }
  setY y s := { s with y := y }

theorem lawful_screen : screenConsole.Lawful :=
  ⟨fun _ _ => rfl, fun _ _ => rfl, fun _ _ => rfl, fun _ _ => rfl, fun _ _ _ => rfl,
    fun _ _ _ => rfl⟩

/-- The text page at `a` with the cursor of terminal `t`. -/
def viewOf (a : Nat) (t : TermId) (k : Kernel) : Screen where
  cells off := if off < vmemSize then k.phys (a + off) else 0
  x := (k.terminals t).screenX
  y := (k.terminals t).screenY

/-- The logical screen of terminal `t`. -/
def screenOf (k : Kernel) (t : TermId) : Screen := viewOf (screenPage k t) t k

/-- A screen whose cursor is on it. -/
def Screen.InBounds (s : Screen) : Prop := screenConsole.InBounds s

section View

variable {a : Nat} {t : TermId} {k k' : Kernel}

theorem viewOf_cells {off : Nat} (h : off < 4096) :
    (viewOf a t k).cells off = k.phys (a + off) := if_pos h

theorem viewOf_outside {off : Nat} (h : ¬ off < 4096) : (viewOf a t k).cells off = 0 := if_neg h

theorem viewOf_congr (hphys : ∀ b, a ≤ b → b < a + 4096 → k'.phys b = k.phys b)
    (hx : (k'.terminals t).screenX = (k.terminals t).screenX)
    (hy : (k'.terminals t).screenY = (k.terminals t).screenY) : viewOf a t k' = viewOf a t k := by
  refine Screen.ext (funext fun off => ?_) hx hy
  by_cases hoff : off < 4096
  · rw [viewOf_cells hoff, viewOf_cells hoff]
    exact hphys _ (by omega) (by omega)
  · rw [viewOf_outside hoff, viewOf_outside hoff]

/-- Nothing that is shown on any terminal differs. -/
structure SameShown (k k' : Kernel) : Prop where
  phys : ∀ b, 0xB8000 ≤ b → b < 0xBC000 → k'.phys b = k.phys b
  visableTerm : k'.visableTerm = k.visableTerm
  cursorX : ∀ t, (k'.terminals t).screenX = (k.terminals t).screenX
  cursorY : ∀ t, (k'.terminals t).screenY = (k.terminals t).screenY

theorem SameShown.screenOf (h : SameShown k k') (t : TermId) : screenOf k' t = screenOf k t := by
  have hb := (textPage_screenPage k t).bounds
  rw [Kernel391.screenOf, Kernel391.screenOf, screenPage_congr h.visableTerm]
  exact viewOf_congr (fun b h₁ h₂ => h.phys b (by omega) (by omega)) (h.cursorX t) (h.cursorY t)

theorem SameShown.refl (k : Kernel) : SameShown k k :=
  ⟨fun _ _ _ => rfl, rfl, fun _ => rfl, fun _ => rfl⟩

theorem SameShown.trans {k₁ : Kernel} (h₁ : SameShown k k₁) (h₂ : SameShown k₁ k') :
    SameShown k k' where
  phys b hb hb' := (h₂.phys b hb hb').trans (h₁.phys b hb hb')
  visableTerm := h₂.visableTerm.trans h₁.visableTerm
  cursorX t := (h₂.cursorX t).trans (h₁.cursorX t)
  cursorY t := (h₂.cursorY t).trans (h₁.cursorY t)

theorem SameScreen.shown (h : SameScreen k k') : SameShown k k' :=
  ⟨fun b _ _ => by rw [h.phys], h.visableTerm, h.cursorX, h.cursorY⟩

end View

/-! ## Drawing through the mapped page -/

/-- The kernel's accesses to `video_mem` go to the page `a`. -/
structure MapsTo (k : Kernel) (a : Nat) : Prop where
  tables : ∃ last, PagingOk k.paging last
  low : k.paging.pageTable0M4M vmemPage = a ||| vmemOrMask

/-- `k'` is `k` after something was drawn on the page `a`, with the cursor of terminal `t`. -/
structure OnPage (a : Nat) (t : TermId) (k k' : Kernel) : Prop where
  same : SameButScreen k k'
  phys : ∀ b, b < a ∨ a + 4096 ≤ b → k'.phys b = k.phys b
  cursorX : ∀ u, u ≠ t → (k'.terminals u).screenX = (k.terminals u).screenX
  cursorY : ∀ u, u ≠ t → (k'.terminals u).screenY = (k.terminals u).screenY

/-- The console `C` draws with the cursor of terminal `t`, as long as `P`. -/
structure UsesCursor (C : Console Kernel) (P : Kernel → Prop) (t : TermId) : Prop where
  load : ∀ k i, C.load k i = k.load8 (video + i)
  store : ∀ i c k, C.store i c k = k.store8 (video + i) c
  getX : ∀ k, P k → C.getX k = (k.terminals t).screenX
  getY : ∀ k, P k → C.getY k = (k.terminals t).screenY
  setX : ∀ x k, P k → C.setX x k = k.setScreenX t x
  setY : ∀ y k, P k → C.setY y k = k.setScreenY t y

theorem usesCursor_global (t : TermId) :
    UsesCursor globalConsole (fun k => k.visableTerm = t) t where
  load _ _ := rfl
  store _ _ _ := rfl
  getX _ h := by subst h; rfl
  getY _ h := by subst h; rfl
  setX _ _ h := by subst h; rfl
  setY _ _ h := by subst h; rfl

theorem usesCursor_current (t : TermId) :
    UsesCursor currentConsole (fun k => k.currentTerm = t) t where
  load _ _ := rfl
  store _ _ _ := rfl
  getX _ h := by subst h; rfl
  getY _ h := by subst h; rfl
  setX _ _ h := by subst h; rfl
  setY _ _ h := by subst h; rfl

section Draw

variable {C : Console Kernel} {P : Kernel → Prop} {a : Nat} {t : TermId} {k₀ k k' : Kernel}

theorem MapsTo.translate (h : MapsTo k a) (ha : TextPage a) {off : Nat} (hoff : off < 4096) :
    k.paging.translate .supervisor (video + off) = some (a + off) := by
  obtain ⟨last, hp⟩ := h.tables
  have hvideo : video = 4096 * vmemPage := rfl
  rw [hvideo]
  exact @translate_low _ _ hp vmemPage a off ha.aligned h.low (by decide) hoff

theorem OnPage.refl (a : Nat) (t : TermId) (k : Kernel) : OnPage a t k k :=
  ⟨.refl k, fun _ _ => rfl, fun _ _ => rfl, fun _ _ => rfl⟩

theorem OnPage.trans {k₁ : Kernel} (h₁ : OnPage a t k k₁) (h₂ : OnPage a t k₁ k') :
    OnPage a t k k' where
  same := h₁.same.trans h₂.same
  phys b hb := (h₂.phys b hb).trans (h₁.phys b hb)
  cursorX u hu := (h₂.cursorX u hu).trans (h₁.cursorX u hu)
  cursorY u hu := (h₂.cursorY u hu).trans (h₁.cursorY u hu)

theorem onPage_setScreenX (a : Nat) (t : TermId) (x : Nat) (k : Kernel) :
    OnPage a t k (k.setScreenX t x) := by
  refine ⟨.setScreenX t x k, fun _ _ => rfl, fun u hu => ?_, fun u hu => ?_⟩ <;>
  simp [Kernel.setScreenX, Function.update_of_ne hu]

theorem onPage_setScreenY (a : Nat) (t : TermId) (y : Nat) (k : Kernel) :
    OnPage a t k (k.setScreenY t y) := by
  refine ⟨.setScreenY t y k, fun _ _ => rfl, fun u hu => ?_, fun u hu => ?_⟩ <;>
  simp [Kernel.setScreenY, Function.update_of_ne hu]

theorem MapsTo.store8 (h : MapsTo k a) (ha : TextPage a) {off : Nat} (hoff : off < 4096)
    (c : UInt8) : k.store8 (video + off) c =
      { k with phys := Function.update k.phys (a + off) c } := by
  rw [Kernel.store8, h.translate ha hoff]

theorem MapsTo.onPage (h : MapsTo k a) (hk : OnPage a t k k') : MapsTo k' a := by
  obtain ⟨hp, hl⟩ := h
  rw [← hk.same.paging_eq] at hp hl
  exact ⟨hp, hl⟩

/-- **Drawing through the page is drawing on a screen of one's own.** -/
theorem sim_page (hC : UsesCursor C P t) (hm : MapsTo k₀ a) (ha : TextPage a)
    (hP : ∀ k, SameButScreen k₀ k → P k) : C.Sim screenConsole (· < 4096)
      (fun k s => OnPage a t k₀ k ∧ s = viewOf a t k) where
  screen i hi := by
    simp only [numCols, numRows] at hi
    omega
  load := by
    rintro k _ ⟨hk, rfl⟩ i hi
    rw [hC.load, Kernel.load8, (hm.onPage hk).translate ha hi]
    exact (@viewOf_cells a t k i hi).symm
  store := by
    rintro k _ ⟨hk, rfl⟩ i hi c
    rw [hC.store, (hm.onPage hk).store8 ha hi]
    refine ⟨hk.trans ⟨⟨rfl, fun _ => rfl⟩, fun b hb => ?_, fun _ _ => rfl, fun _ _ => rfl⟩, ?_⟩
    · exact Function.update_of_ne (by omega) _ _
    · refine Screen.ext (funext fun off => ?_) rfl rfl
      change Function.update (viewOf a t k).cells i c off = _
      by_cases hoff : off < 4096
      · rw [viewOf_cells hoff]
        by_cases hi : off = i
        · rw [hi, Function.update_self]
          exact (Function.update_self (a + i) c k.phys).symm
        · have hne : a + off ≠ a + i := by omega
          rw [Function.update_of_ne hi, viewOf_cells hoff]
          exact (Function.update_of_ne hne c k.phys).symm
      · have : off ≠ i := fun h => hoff (h ▸ hi)
        rw [Function.update_of_ne this, viewOf_outside hoff, viewOf_outside hoff]
  getX := by
    rintro k _ ⟨hk, rfl⟩
    exact hC.getX k (hP k hk.same)
  getY := by
    rintro k _ ⟨hk, rfl⟩
    exact hC.getY k (hP k hk.same)
  setX := by
    rintro k _ ⟨hk, rfl⟩ x
    rw [hC.setX x k (hP k hk.same)]
    refine ⟨hk.trans (onPage_setScreenX a t x k), Screen.ext rfl ?_ ?_⟩ <;>
    simp [screenConsole, viewOf, Kernel.setScreenX]
  setY := by
    rintro k _ ⟨hk, rfl⟩ y
    rw [hC.setY y k (hP k hk.same)]
    refine ⟨hk.trans (onPage_setScreenY a t y k), Screen.ext rfl ?_ ?_⟩ <;>
    simp [screenConsole, viewOf, Kernel.setScreenY]

/-- The logical screen of terminal `t` becomes what `f` makes of it, and no other changes. -/
structure Draws (t : TermId) (f : Screen → Screen) (k k' : Kernel) : Prop where
  own : screenOf k' t = f (screenOf k t)
  others : ∀ u, u ≠ t → screenOf k' u = screenOf k u

theorem Draws.of_shown (h : SameShown k k') (t : TermId) : Draws t id k k' :=
  ⟨h.screenOf t, fun u _ => h.screenOf u⟩

theorem Draws.before {f : Screen → Screen} {k₁ : Kernel} (h : SameShown k k₁)
    (h' : Draws t f k₁ k') : Draws t f k k' where
  own := h'.own.trans (congrArg f (h.screenOf t))
  others u hu := (h'.others u hu).trans (h.screenOf u)

theorem Draws.after {f : Screen → Screen} {k₁ : Kernel} (h : Draws t f k k₁)
    (h' : SameShown k₁ k') : Draws t f k k' where
  own := (h'.screenOf t).trans h.own
  others u hu := (h'.screenOf u).trans (h.others u hu)

/-- Drawing on the page of terminal `t`, with its cursor. -/
theorem draws_of_page {f : Screen → Screen} (h : OnPage (screenPage k t) t k k')
    (hv : f (screenOf k t) = viewOf (screenPage k t) t k') : Draws t f k k' where
  own := by
    rw [hv, screenOf, screenPage_congr h.same.visableTerm_eq]
  others u hu := by
    have hap := screenPage_apart k hu
    rw [screenOf, screenPage_congr h.same.visableTerm_eq]
    exact viewOf_congr (fun b h₁ h₂ => h.phys b (by omega)) (h.cursorX u hu) (h.cursorY u hu)

theorem draws_puts (hC : UsesCursor C P t) (hm : MapsTo k (screenPage k t))
    (hP : ∀ k', SameButScreen k k' → P k') (hin : (screenOf k t).InBounds) (l : List UInt8) :
    Draws t (screenConsole.puts l) k (C.puts l k) := by
  obtain ⟨hpage, hv⟩ := (sim_page hC hm (textPage_screenPage k t) hP).puts lawful_screen l
    (.inl hin) ⟨.refl _ t k, rfl⟩
  exact draws_of_page hpage hv

end Draw

/-! ## Echo -/

namespace Console

variable {σ τ : Type*} {C : Console σ} {D : Console τ} {ok : Nat → Prop} {R : σ → τ → Prop}
  {s : σ} {t : τ}

theorem Lawful.echo_inBounds (h : C.Lawful) (n : Nat) (hs : C.InBounds s) (key : LineKey) :
    C.InBounds (C.echo n s key) := by
  cases key with
  | char c => exact ite_inBounds (fun _ => h.putc_inBounds c hs) fun _ => hs
  | backspace => exact ite_inBounds (fun _ => h.handlebackspace_inBounds hs) fun _ => hs
  | enter => exact h.putc_inBounds newline hs
  | clearScreen =>
    rw [InBounds, Console.echo, h.getX_setY, h.getX_setX, h.getY_setY]
    exact ⟨by decide, by decide⟩
  | other => exact hs

theorem Sim.echo (h : C.Sim D ok R) (hl : D.Lawful) (hb : D.Reaches ok t) (hr : R s t) (n : Nat)
    (key : LineKey) : R (C.echo n s key) (D.echo n t key) := by
  cases key with
  | char c => exact ite Iff.rfl (fun _ => h.putc hb hr c) fun _ => hr
  | backspace => exact ite Iff.rfl (fun _ => h.handlebackspace hl hb hr) fun _ => hr
  | enter => exact h.putc hb hr newline
  | clearScreen => exact h.setY (h.setX (h.clear hr) 0) 0
  | other => exact hr

end Console

theorem draws_echo {k : Kernel} (hm : MapsTo k (screenPage k k.visableTerm))
    (hin : (screenOf k k.visableTerm).InBounds) (n : Nat) (key : LineKey) :
    Draws k.visableTerm (fun s => screenConsole.echo n s key) k (globalConsole.echo n k key) := by
  obtain ⟨hpage, hv⟩ := (sim_page (usesCursor_global k.visableTerm) hm (textPage_screenPage k _)
    fun k' hk' => hk'.visableTerm_eq).echo lawful_screen (.inl hin) ⟨.refl _ _ k, rfl⟩ n key
  exact draws_of_page hpage hv

/-! ## Switching terminals -/

section Switch

variable {last : Option Nat} {k : Kernel} {t u : TermId}

theorem vidBufs_eq (t : TermId) : vidBufs t = 0xB9000 + 4096 * (t : Nat) := rfl

theorem vidBufs_inj (h : t ≠ u) : (t : Nat) < u ∨ (u : Nat) < t := by
  have := mt (@Fin.ext 3 t u) h
  omega

/-- The kernel reaches every backing page under its own address. -/
theorem translate_backing (h : PagingOk k.paging last) (t : TermId) :
    k.paging.translate .supervisor (vidBufs t) = some (vidBufs t) := by
  rcases termId_cases t with rfl | rfl | rfl
  · exact @translate_low _ _ h t1BufPage t1BufAddr 0 rfl h.backing1 (by decide) (by decide)
  · exact @translate_low _ _ h t2BufPage t2BufAddr 0 rfl h.backing2 (by decide) (by decide)
  · exact @translate_low _ _ h t3BufPage t3BufAddr 0 rfl h.backing3 (by decide) (by decide)

theorem copyPage_of {d s dst src : Nat} (hd : k.paging.translate .supervisor dst = some d)
    (hs : k.paging.translate .supervisor src = some s) :
    k.copyPage dst src = { k with phys := store k.phys d (fun i => k.phys (s + i)) vmemSize } := by
  rw [Kernel.copyPage, hd, hs]

/-- The two copies of a switch. -/
theorem switchTerminals_phys (hp : PagingOk k.paging last) (ht : t ≠ k.visableTerm) :
    (switchTerminals t k).phys =
      store (store k.phys (vidBufs k.visableTerm) (fun i => k.phys (vidStartAddr + i)) vmemSize)
        vidStartAddr (fun i => store k.phys (vidBufs k.visableTerm)
          (fun i => k.phys (vidStartAddr + i)) vmemSize (vidBufs t + i)) vmemSize := by
  have hp' : PagingOk (pagingSetWriteToVideomem k.paging) last := pagingOk_setWrite hp (.inl rfl)
  have hvid : (pagingSetWriteToVideomem k.paging).translate .supervisor vidStartAddr =
      some vidStartAddr :=
    @translate_low _ _ hp' vmemPage vidStartAddr 0 rfl
      (mapsScreen_setWrite vidStartAddr k.paging).low (by decide) (by decide)
  have hcopy (k₁ : Kernel) (hk₁ : k₁.paging = pagingSetWriteToVideomem k.paging) :
      ((k₁.copyPage (vidBufs k.visableTerm) vidStartAddr).copyPage vidStartAddr
        (vidBufs t)).phys = store (store k₁.phys (vidBufs k.visableTerm)
          (fun i => k₁.phys (vidStartAddr + i)) vmemSize) vidStartAddr
          (fun i => store k₁.phys (vidBufs k.visableTerm)
            (fun i => k₁.phys (vidStartAddr + i)) vmemSize (vidBufs t + i)) vmemSize := by
    have hb (t : TermId) : k₁.paging.translate .supervisor (vidBufs t) = some (vidBufs t) :=
      translate_backing (hk₁ ▸ hp') t
    rw [← hk₁] at hvid
    rw [copyPage_of (hb k.visableTerm) hvid]
    exact congrArg Kernel.phys (copyPage_of (k := { k₁ with
      phys := store k₁.phys (vidBufs k.visableTerm) (fun i => k₁.phys (vidStartAddr + i))
        vmemSize }) hvid (hb t))
  have hmain := hcopy ({ k with visableTerm := t } : Kernel).setWriteToVideomem rfl
  unfold switchTerminals
  dsimp only
  rw [if_neg ht]
  split
  · exact hmain
  · exact hmain

/-- **A switch changes no logical screen and no cursor.** -/
theorem screenOf_switchTerminals (hp : PagingOk k.paging last) (t u : TermId) :
    screenOf (switchTerminals t k) u = screenOf k u := by
  by_cases ht : t = k.visableTerm
  · rw [switchTerminals, if_pos ht]
  have hvis : (switchTerminals t k).visableTerm = t := by rw [switchTerminals_eq]
  have hterm : (switchTerminals t k).terminals = k.terminals := by rw [switchTerminals_eq]
  refine Screen.ext (funext fun off => ?_) (by rw [screenOf, viewOf, hterm]; rfl)
    (by rw [screenOf, viewOf, hterm]; rfl)
  by_cases hoff : off < 4096
  swap
  · exact (viewOf_outside hoff).trans (viewOf_outside hoff).symm
  rw [screenOf, screenOf, viewOf_cells hoff, viewOf_cells hoff, switchTerminals_phys hp ht,
    screenPage, screenPage, hvis]
  have hv : vidStartAddr = 0xB8000 := rfl
  have hsize : vmemSize = 4096 := rfl
  have htv := vidBufs_inj ht
  simp only [vidBufs_eq, hv, hsize]
  by_cases hut : u = t
  · -- the screen that comes into view: the second copy brings it from its backing page
    rw [if_pos hut, if_neg (hut ▸ ht), store_of_lt (by omega) (by omega), store_of_not (by omega),
      hut]
    exact congrArg k.phys (by omega)
  rw [if_neg hut]
  have hbelow : 0xB8000 + 4096 ≤ 0xB9000 + 4096 * (u : Nat) + off := by omega
  rw [store_of_not (.inr hbelow)]
  by_cases huv : u = k.visableTerm
  · -- the screen that goes out of view: the first copy took it to its backing page
    rw [if_pos huv, huv, store_of_lt (by omega) (by omega)]
    exact congrArg k.phys (by omega)
  · have := vidBufs_inj huv
    rw [if_neg huv, store_of_not (by omega)]

end Switch

/-! ## Starting programs -/

section Quiet

variable {im : Image} {sp pid pid' : Nat} {prog : Program} {eip : UInt32} {k k' : Kernel}
  {cmd : Option CString}

/-- A program is loaded above 8 MB. -/
theorem loadProgram_phys (inode : UInt32) (h₁ : 1 ≤ pid) (h₆ : pid ≤ 6) {b : Nat}
    (hb : b < 0x800000) :
    (loadProgram im inode (((k.setRunning pid true).setPid pid).changeProcess pid)).2.phys b =
      k.phys b := by
  have ht := translate_program (k := (k.setRunning pid true).setPid pid) h₁ h₆
  have hpa : b < userFrame pid + 0x48000 := by
    simp only [userFrame]
    omega
  unfold loadProgram
  rw [ht]
  dsimp only
  split
  · exact store_of_not (.inl hpa)
  · exact store_of_not (.inl hpa)

theorem startProgram_phys (h₁ : 1 ≤ pid) (h₆ : pid ≤ 6)
    (h : startProgram im sp prog pid k = .started pid' eip k') {b : Nat} (hb : b < 0x800000) :
    k'.phys b = k.phys b := by
  have hload := @loadProgram_phys im pid k prog.inodeNum h₁ h₆ b hb
  unfold startProgram at h
  dsimp only at h
  split at h
  · injection h with _ _ h
    rw [contextSwitch_eq] at h
    rw [← h]
    exact hload
  · cases h

theorem setPid_cursor (pid : Nat) (k : Kernel) (t : TermId) :
    ((k.setPid pid).terminals t).screenX = (k.terminals t).screenX ∧
      ((k.setPid pid).terminals t).screenY = (k.terminals t).screenY := by
  by_cases h : t = k.currentTerm
  · subst h
    simp [Kernel.setPid]
  · simp [Kernel.setPid, h]

/-- **An `execute` that succeeds** shows nothing. -/
theorem shown_started (h : execute im sp cmd k = .started pid eip k') : SameShown k k' := by
  obtain ⟨_, prog, rfl, hlook, hfree, hstart⟩ := execute_started h
  obtain ⟨-, h₁, h₆, -⟩ := freeSlot_eq_some.1 hfree
  have hs := started_of_execute h
  exact ⟨fun b _ hb => startProgram_phys h₁ h₆ hstart (by omega), hs.visableTerm,
    fun t => by rw [hs.terminals]; exact (setPid_cursor pid k t).1,
    fun t => by rw [hs.terminals]; exact (setPid_cursor pid k t).2⟩

theorem shown_scheduled (sp : Nat) (k : Kernel) : SameShown k (scheduled sp k) := by
  have hcur (t : TermId) : ((k.saveEspEbp sp).terminals t).screenX = (k.terminals t).screenX ∧
      ((k.saveEspEbp sp).terminals t).screenY = (k.terminals t).screenY := by
    by_cases h : t = k.currentTerm
    · subst h
      simp [Kernel.saveEspEbp]
    · simp [Kernel.saveEspEbp, h]
  rw [scheduled_eq]
  exact ⟨fun _ _ _ => rfl, rfl, fun t => (hcur t).1, fun t => (hcur t).2⟩

theorem shown_turnOn (t : TermId) (k : Kernel) : SameShown k (k.turnOn t) :=
  ⟨fun _ _ _ => rfl, rfl, fun _ => rfl, fun _ => rfl⟩

theorem freeSlot_scheduled (sp : Nat) (t : TermId) (k : Kernel) :
    freeSlot ((scheduled sp k).turnOn t) = freeSlot k := by
  unfold freeSlot
  rw [turnOn_running, scheduled_running]

/-- **A tick** with a slot for the shell that it may have to start shows nothing. -/
theorem shown_tick {o : Output} (him : HasShell im)
    (hfree : k.isOn (k.currentTerm + 1) = false → ∃ pid, freeSlot k = some pid)
    (h : schedulerNext im sp k = some (o, k')) : SameShown k k' := by
  have hs := shown_scheduled sp k
  rcases schedulerNext_cases h with ⟨-, -, rfl⟩ | ⟨hoff, hcases⟩
  · exact hs.trans ⟨fun _ _ _ => rfl, rfl, fun _ => rfl, fun _ => rfl⟩
  obtain ⟨pid, hpid⟩ := hfree hoff
  rw [← freeSlot_scheduled sp (k.currentTerm + 1) k] at hpid
  obtain ⟨prog, k₁, -, he, -⟩ := execute_shell sp him hpid
  have hon := hs.trans (shown_turnOn (k.currentTerm + 1) (scheduled sp k))
  rcases hcases with ⟨pid', eip', he', -⟩ | ⟨k₂, he', -⟩ | ⟨k₂, he', -⟩
  · exact hon.trans (shown_started he')
  · cases he'.symm.trans he
  · cases he'.symm.trans he

end Quiet

/-! ## Cursors -/

/-- Every cursor is on its screen. -/
def CursorsOk (k : Kernel) : Prop := ∀ t, (screenOf k t).InBounds

section Cursors

variable {k k' : Kernel}

theorem CursorsOk.shown (h : CursorsOk k) (hs : SameShown k k') : CursorsOk k' := fun t => by
  rw [hs.screenOf]
  exact h t

/-- What the console of the visible terminal does not touch: the cursors of the others. -/
theorem closed_cursor {v u : TermId} (hu : u ≠ v) (x y : Nat) :
    globalConsole.Closed fun k => k.visableTerm = v ∧ (k.terminals u).screenX = x ∧
      (k.terminals u).screenY = y where
  store i c k h := by
    rw [show globalConsole.store i c k = k.store8 (video + i) c from rfl, Kernel.store8_eq]
    exact h
  setX x k h := by
    obtain ⟨rfl, hx, hy⟩ := h
    refine ⟨rfl, ?_, ?_⟩ <;> simpa [globalConsole, Kernel.setScreenX, hu]
  setY y k h := by
    obtain ⟨rfl, hx, hy⟩ := h
    refine ⟨rfl, ?_, ?_⟩ <;> simpa [globalConsole, Kernel.setScreenY, hu]

theorem inBounds_congr {t : TermId} (h : (screenOf k t).InBounds)
    (hx : (k'.terminals t).screenX = (k.terminals t).screenX)
    (hy : (k'.terminals t).screenY = (k.terminals t).screenY) : (screenOf k' t).InBounds := by
  rw [Screen.InBounds, InBounds] at h ⊢
  change (k'.terminals t).screenX < numCols ∧ (k'.terminals t).screenY < numRows
  rw [hx, hy]
  exact h

/-- What was drawn with the cursor of the visible terminal. -/
theorem cursorsOk_global (h : CursorsOk k) (hs : SameButScreen k k')
    (hin : globalConsole.InBounds k')
    (hothers : ∀ u, u ≠ k.visableTerm → k'.visableTerm = k.visableTerm ∧
      (k'.terminals u).screenX = (k.terminals u).screenX ∧
      (k'.terminals u).screenY = (k.terminals u).screenY) : CursorsOk k' := fun t => by
  by_cases ht : t = k.visableTerm
  · rw [ht, ← hs.visableTerm_eq]
    exact hin
  · obtain ⟨-, hx, hy⟩ := hothers t ht
    exact inBounds_congr (h t) hx hy

theorem cursorsOk_printf (h : CursorsOk k) (s : String) : CursorsOk (printf s k) :=
  cursorsOk_global h (.printf s k) (lawful_global.puts_inBounds _ (h k.visableTerm))
    fun _ hu => (closed_cursor hu _ _).puts _ ⟨rfl, rfl, rfl⟩

theorem cursorsOk_clear (h : CursorsOk k) : CursorsOk (clear k) := by
  have hin : globalConsole.InBounds k := h k.visableTerm
  have hscr := SameButScreen.clear k
  rw [Kernel391.clear] at hscr ⊢
  refine cursorsOk_global h hscr (lawful_global.clear_inBounds hin) fun u hu => ?_
  have hc := closed_cursor hu (k.terminals u).screenX (k.terminals u).screenY
  exact @Closed.clear _ _ _ hc k ⟨rfl, rfl, rfl⟩

theorem cursorsOk_home (h : CursorsOk k) : CursorsOk (setposition 0 0 k) := by
  refine cursorsOk_global h (.setposition 0 0 k) ?_ fun _ hu =>
    (closed_cursor hu _ _).setY 0 _ ((closed_cursor hu _ _).setX 0 _ ⟨rfl, rfl, rfl⟩)
  rw [InBounds, setposition, lawful_global.getX_setY, lawful_global.getX_setX,
    lawful_global.getY_setY]
  exact ⟨by decide, by decide⟩

theorem cursorsOk_entry (k : Kernel) : CursorsOk (entry k) := by
  have hboot : CursorsOk (bootState k) := fun _ =>
    ⟨(by decide : 0 < numCols), (by decide : 0 < numRows)⟩
  exact cursorsOk_home (cursorsOk_clear (cursorsOk_printf (cursorsOk_printf hboot _) _))

/-- The cursor after boot. -/
theorem home_entry (k : Kernel) :
    (screenOf (entry k) (entry k).visableTerm).x = 0 ∧
      (screenOf (entry k) (entry k).visableTerm).y = 0 := by
  change globalConsole.getX (setposition 0 0 _) = 0 ∧ globalConsole.getY (setposition 0 0 _) = 0
  rw [setposition, lawful_global.getX_setY, lawful_global.getX_setX, lawful_global.getY_setY]
  exact ⟨rfl, rfl⟩

end Cursors

/-! ## What holds after every step -/

/-- The kernel draws on the page of the current terminal, and every cursor is on its screen. -/
structure ScreenInv (k : Kernel) : Prop where
  input : InputOk k
  mapped : MapsTo k (screenPage k k.currentTerm)
  cursors : CursorsOk k

section Steps

variable {im : Image} {sp : Nat} {ev : KeyEvent} {o : Output} {k k' : Kernel} {t : TermId}
  {f : Screen → Screen}

theorem Draws.cursors (h : Draws t f k k') (hk : CursorsOk k)
    (hf : ∀ s : Screen, s.InBounds → (f s).InBounds) : CursorsOk k' := fun u => by
  by_cases hu : u = t
  · rw [hu, h.own]
    exact hf _ (hk t)
  · rw [h.others u hu]
    exact hk u

/-- **A write** draws on the screen of the current terminal. -/
theorem draws_terminalWrite (h : ScreenInv k) (buf : Buf) (nbytes : Int) :
    Draws k.currentTerm (screenConsole.puts (slice buf 0 nbytes.toNat)) k
      (terminalWrite buf nbytes k).2 :=
  draws_puts (usesCursor_current k.currentTerm) h.mapped (fun _ hs => hs.currentTerm_eq)
    (h.cursors _) _

theorem screenInv_terminalWrite (h : ScreenInv k) (buf : Buf) (nbytes : Int) :
    ScreenInv (terminalWrite buf nbytes k).2 := by
  have hs : SameButScreen k (terminalWrite buf nbytes k).2 := .putsModified _ k
  obtain ⟨htab, hlow⟩ := h.mapped
  refine ⟨h.input.received (SameInput.of_screen hs).received, ⟨?_, ?_⟩,
    (draws_terminalWrite h buf nbytes).cursors h.cursors fun s hin =>
      lawful_screen.puts_inBounds _ hin⟩
  · rwa [hs.paging_eq]
  · rwa [hs.paging_eq, screenPage_congr hs.visableTerm_eq, hs.currentTerm_eq]

/-- **A key** draws its echo on the screen of the visible terminal, whatever page was mapped. -/
theorem draws_checkInput (hin : InputOk k) (hp : ∃ last, PagingOk k.paging last)
    (hc : CursorsOk k) (hs : checkInput ev k = some k') :
    Draws k.visableTerm
      (fun s => screenConsole.echo (getCurrentNoc k) s (decodeKey k.chararray ev)) k k' := by
  obtain ⟨k₁, k₂, h₁, h₂, rfl⟩ := checkInput_screen hin hs
  obtain ⟨last, hp⟩ := hp
  have hp₁ : PagingOk k₁.paging last := by
    rw [h₁.paging]
    exact pagingOk_setWrite hp (.inl rfl)
  have hvid : SameShown k k.setWriteToVideomem :=
    ⟨fun _ _ _ => rfl, rfl, fun _ => rfl, fun _ => rfl⟩
  have hk₁ : SameShown k k₁ := hvid.trans h₁.shown
  have hrestore : SameShown k₂ (restoreScreen k₂) := by
    unfold restoreScreen
    split
    · exact ⟨fun _ _ _ => rfl, rfl, fun _ => rfl, fun _ => rfl⟩
    · exact .refl k₂
  refine .before hk₁ (.after ?_ hrestore)
  rcases h₂ with ⟨k₃, h₃, h₄⟩ | ⟨hkey, t, rfl⟩
  · -- the key is echoed, with video memory mapped
    have hv : k₃.visableTerm = k.visableTerm := h₃.visableTerm.trans hk₁.visableTerm
    have hlow : k₃.paging.pageTable0M4M vmemPage = vidStartAddr ||| vmemOrMask := by
      rw [h₃.paging, h₁.paging]
      exact (mapsScreen_setWrite vidStartAddr k.paging).low
    have hmaps : MapsTo k₃ (screenPage k₃ k₃.visableTerm) := by
      refine ⟨⟨last, h₃.paging ▸ hp₁⟩, ?_⟩
      rw [screenPage, if_pos rfl, hlow]
    have hbounds : (screenOf k₃ k₃.visableTerm).InBounds := by
      rw [hv, h₃.shown.screenOf, hk₁.screenOf]
      exact hc k.visableTerm
    have hecho := draws_echo hmaps hbounds (getCurrentNoc k) (decodeKey k.chararray ev)
    rw [hv] at hecho
    exact .before h₃.shown (.after hecho h₄.shown)
  · -- the key switches terminals
    rw [hkey]
    exact ⟨screenOf_switchTerminals hp₁ t _, fun u _ => screenOf_switchTerminals hp₁ t u⟩

theorem screenInv_checkInput (hin : InputOk k) (hp : ∃ last, PagingOk k.paging last)
    (hc : CursorsOk k) (hs : checkInput ev k = some k') : ScreenInv k' := by
  have hrec := received_checkInput hin hs
  exact ⟨hin.received hrec,
    ⟨(recalled_checkInput hin hs).pagingOk hp, (videoOk_checkInput hin hs).low⟩,
    (draws_checkInput hin hp hc hs).cursors hc fun s hin => lawful_screen.echo_inBounds _ hin _⟩

/-- **A tick** leaves the mapping right, however it was. -/
theorem screenInv_tick (hin : InputOk k) (hp : ∃ last, PagingOk k.paging last)
    (hs : schedulerNext im sp k = some (o, k')) (hc : CursorsOk k') : ScreenInv k' := by
  obtain ⟨hin, hp, hv, -⟩ := mapInv_tick hin hp hs
  exact ⟨hin, ⟨hp, hv.low⟩, hc⟩

end Steps

/-! ## Terminals that know of no others -/

/-- A terminal of one's own: the screen, and the line at the keyboard, whose length decides
whether a key is echoed. -/
structure OwnTerminal where
  screen : Screen
  line : TermLine

/-- What reaches a terminal: a write of its process, or a key. -/
inductive Drawn
  | write (bytes : List UInt8)
  | key (key : LineKey)

def OwnTerminal.draw (s : OwnTerminal) : Drawn → OwnTerminal
  | .write bytes => { s with screen := screenConsole.puts bytes s.screen }
  | .key key =>
    { screen := screenConsole.echo s.line.pending.length s.screen key, line := s.line.edit key }

/-- What the kernel shows and keeps of terminal `t`. -/
def terminalOf (k : Kernel) (t : TermId) : OwnTerminal := ⟨screenOf k t, lineOf k t⟩

/-! ## Runs -/

/-- A timer tick with the stack pointer it arrives at, a `terminal_write` by the process of the
current terminal, or a keyboard interrupt. -/
inductive ScreenEvent
  | tick (sp : Nat)
  | write (buf : Buf) (nbytes : Int)
  | key (ev : KeyEvent)

/-- The three as a system. The output is the terminal that an event belongs to, the current one
for a write and the visible one for a key, and what it brings there. -/
def screenSystem (im : Image) : System Kernel ScreenEvent (Option (TermId × Drawn))
  | k, .tick sp, o, k' => o = none ∧ ∃ out, schedulerNext im sp k = some (out, k')
  | k, .write buf nbytes, o, k' =>
    o = some (k.currentTerm, .write (slice buf 0 nbytes.toNat)) ∧
      (terminalWrite buf nbytes k).2 = k'
  | k, .key ev, o, k' =>
    o = some (k.visableTerm, .key (decodeKey k.chararray ev)) ∧ checkInput ev k = some k'

/-- What a run brings to terminal `t`. -/
def drawnOn (t : TermId) (tr : List (ScreenEvent × Option (TermId × Drawn))) : List Drawn :=
  tr.filterMap fun l => l.2.bind fun o => if o.1 = t then some o.2 else none

/-- The terminals that are on are the first ones, and no other process runs. -/
def ShellsOnly (k : Kernel) : Prop :=
  ∃ n ≤ 3, (∀ p, k.processesRunning p = true → p ≤ n) ∧
    (∀ t, k.isOn t = true ↔ (t : Nat) < n) ∧
    (n < 3 → ((k.currentTerm + 1 : TermId) : Nat) = n)

section Run

variable {im : Image} {sp pid : Nat} {k k' : Kernel} {t : TermId} {o : Output}
  {tr : List (ScreenEvent × Option (TermId × Drawn))}

theorem drawnOn_concat (t : TermId) (tr : List (ScreenEvent × Option (TermId × Drawn)))
    (e : ScreenEvent) (o : Option (TermId × Drawn)) :
    drawnOn t (tr ++ [(e, o)]) =
      drawnOn t tr ++ (o.bind fun o => if o.1 = t then some o.2 else none).toList :=
  filterMap_concat _ tr (e, o)

/-- There is a slot for a shell that is still missing. -/
theorem ShellsOnly.freeSlot (h : ShellsOnly k) (hoff : k.isOn (k.currentTerm + 1) = false) :
    ∃ pid, freeSlot k = some pid := by
  obtain ⟨n, hn, hrun, hon, hnext⟩ := h
  rw [← Option.ne_none_iff_exists', Ne, freeSlot_eq_none]
  intro hall
  have hlt : ¬ ((k.currentTerm + 1 : TermId) : Nat) < n := fun hlt => by
    rw [(hon _).2 hlt] at hoff
    cases hoff
  have := (k.currentTerm + 1).isLt
  have := hrun (n + 1) (hall (n + 1) (by omega) (by omega))
  omega

theorem ShellsOnly.congr (h : ShellsOnly k) (hr : k'.processesRunning = k.processesRunning)
    (ho : k'.isOn = k.isOn) (hc : k'.currentTerm = k.currentTerm) : ShellsOnly k' := by
  unfold ShellsOnly
  rwa [hr, ho, hc]

theorem shellsOnly_tick (him : HasShell im) (h : ShellsOnly k)
    (hs : schedulerNext im sp k = some (o, k')) : ShellsOnly k' := by
  obtain ⟨n, hn, hrun, hon, hnext⟩ := id h
  rcases schedulerNext_cases hs with ⟨hison, -, rfl⟩ | ⟨hoff, -⟩
  · -- a terminal that is on is switched to only when all of them are
    have hlt := (hon _).1 hison
    refine ⟨n, hn, fun p hp => ?_, fun t => ?_, fun h3 => ?_⟩
    · rw [switchTo_running, scheduled_running] at hp
      exact hrun p hp
    · rw [switchTo_isOn, scheduled_isOn]
      exact hon t
    · have := hnext h3
      omega
  · obtain ⟨pid, hfree⟩ := h.freeSlot hoff
    obtain ⟨k₁, hk₁, hst⟩ := schedulerNext_shell sp him hoff hfree
    rw [hs] at hk₁
    obtain rfl : k' = k₁ := (Prod.mk.inj (Option.some.inj hk₁)).2
    have hge : ¬ ((k.currentTerm + 1 : TermId) : Nat) < n := fun hlt => by
      rw [(hon _).2 hlt] at hoff
      cases hoff
    have h3 : n < 3 := by
      have := (k.currentTerm + 1).isLt
      omega
    have hcur := hnext h3
    have hpid : pid ≤ n + 1 := by
      obtain ⟨-, -, -, hleast⟩ := freeSlot_eq_some.1 hfree
      by_contra hlt
      have := hrun (n + 1) (hleast (n + 1) (by omega) (by omega))
      omega
    refine ⟨n + 1, h3, fun p hp => ?_, fun t => ?_, fun h3' => ?_⟩
    · rw [hst.processesRunning, turnOn_running, scheduled_running] at hp
      by_cases hpp : p = pid
      · omega
      · rw [Function.update_of_ne hpp] at hp
        have := hrun p hp
        omega
    · rw [hst.isOn, turnOn_isOn, scheduled_isOn]
      by_cases ht : t = k.currentTerm + 1
      · rw [ht, Function.update_self]
        exact iff_of_true rfl (by omega)
      · have : (t : Nat) ≠ n := fun hc => ht (Fin.ext (hc.trans hcur.symm))
        rw [Function.update_of_ne ht, hon]
        omega
    · rw [hst.currentTerm, turnOn_currentTerm, scheduled_currentTerm, Fin.val_add, hcur]
      exact Nat.mod_eq_of_lt h3'

theorem shellsOnly_entry (k : Kernel) : ShellsOnly (entry k) := by
  have hb := booting_boot (sameButScreen_entry k)
  refine ⟨0, by omega, fun p hp => ?_, hb.isOn, fun _ => hb.next⟩
  have := (hb.running p).1 hp
  omega

/-- The first tick, and what holds after it. -/
theorem first_tick {k₀ : Kernel} (h₀ : schedulerNext im sp (entry k₀) = some (.started pid, k)) :
    HasShell im ∧ ScreenInv k ∧ ShellsOnly k := by
  have him := hasShell_of_next h₀
  have hshells := shellsOnly_entry k₀
  have hshown := shown_tick him hshells.freeSlot h₀
  exact ⟨him, screenInv_tick (inputOk_entry k₀) ⟨_, pagingOk_entry k₀⟩ h₀
    ((cursorsOk_entry k₀).shown hshown), shellsOnly_tick him hshells h₀⟩

/-- A step that brings something to terminal `u` only. -/
theorem terminalOf_drawn {u : TermId} {x : Drawn}
    (hself : terminalOf k' u = (terminalOf k u).draw x)
    (hothers : ∀ t ≠ u, terminalOf k' t = terminalOf k t) (t : TermId) :
    terminalOf k' t =
      ((some (u, x)).bind fun o => if o.1 = t then some o.2 else none).toList.foldl
        OwnTerminal.draw (terminalOf k t) := by
  rw [Option.bind_some]
  by_cases ht : u = t
  · subst ht
    rw [if_pos rfl]
    exact hself
  · rw [if_neg ht]
    exact hothers t (Ne.symm ht)

/-- A key, on the terminal that is visible and on the others. -/
theorem terminalOf_key {ev : KeyEvent} (hin : InputOk k) (hp : ∃ last, PagingOk k.paging last)
    (hc : CursorsOk k) (hs : checkInput ev k = some k') :
    terminalOf k' k.visableTerm =
        (terminalOf k k.visableTerm).draw (.key (decodeKey k.chararray ev)) ∧
      ∀ t ≠ k.visableTerm, terminalOf k' t = terminalOf k t := by
  have hdraw := draws_checkInput hin hp hc hs
  have hrec := received_checkInput hin hs
  refine ⟨?_, fun t ht => ?_⟩
  · rw [terminalOf, hdraw.own, hrec.visible]
    simp only [OwnTerminal.draw, terminalOf, pending_length]
    rfl
  · rw [terminalOf, hdraw.others t ht, (hrec.others t ht).lineOf_eq]
    rfl

/-- **What one step does to each terminal**: it draws what the step brings to it. -/
theorem terminalOf_step (him : HasShell im) (h : ScreenInv k) (hsh : ShellsOnly k)
    {e : ScreenEvent} {o : Option (TermId × Drawn)} (hs : screenSystem im k e o k') :
    ScreenInv k' ∧ ShellsOnly k' ∧ ∀ t, terminalOf k' t =
      (o.bind fun o => if o.1 = t then some o.2 else none).toList.foldl OwnTerminal.draw
        (terminalOf k t) := by
  cases e with
  | tick sp =>
    obtain ⟨rfl, out, hs⟩ := hs
    have hshown := shown_tick him hsh.freeSlot hs
    have hline := (scheduled_same sp k).trans (procFrame_schedulerNext hs).input
    refine ⟨screenInv_tick h.input h.mapped.tables hs (h.cursors.shown hshown),
      shellsOnly_tick him hsh hs, fun t => ?_⟩
    rw [terminalOf, hshown.screenOf, (hline.lines t).lineOf_eq]
    rfl
  | write buf nbytes =>
    obtain ⟨rfl, rfl⟩ := hs
    have hscr : SameButScreen k (terminalWrite buf nbytes k).2 := .putsModified _ k
    have hdraw := draws_terminalWrite h buf nbytes
    have hline (t : TermId) : lineOf (terminalWrite buf nbytes k).2 t = lineOf k t :=
      ((SameInput.of_screen hscr).lines t).lineOf_eq
    refine ⟨screenInv_terminalWrite h buf nbytes,
      hsh.congr hscr.running_eq hscr.isOn_eq hscr.currentTerm_eq,
      terminalOf_drawn ?_ fun t ht => ?_⟩
    · rw [terminalOf, hdraw.own, hline]
      rfl
    · rw [terminalOf, hdraw.others t ht, hline]
      rfl
  | key ev =>
    obtain ⟨rfl, hs⟩ := hs
    have hprocs := checkInput_procs hs
    obtain ⟨hself, hothers⟩ := terminalOf_key h.input h.mapped.tables h.cursors hs
    exact ⟨screenInv_checkInput h.input h.mapped.tables h.cursors hs,
      hsh.congr hprocs.running hprocs.isOn (checkInput_currentTerm h.input hs),
      terminalOf_drawn hself hothers⟩

/-- A run, from any state with the invariant. -/
theorem terminalOf_run {k₁ : Kernel} (him : HasShell im) (hinv : ScreenInv k₁) (hsh : ShellsOnly k₁)
    (h : Run (screenSystem im) k₁ tr k) :
    ScreenInv k ∧
      ∀ t, terminalOf k t = (drawnOn t tr).foldl OwnTerminal.draw (terminalOf k₁ t) := by
  obtain ⟨hinv, -, hterm⟩ := h.invariant_history (I := fun tr k => ScreenInv k ∧ ShellsOnly k ∧
      ∀ t, terminalOf k t = (drawnOn t tr).foldl OwnTerminal.draw (terminalOf k₁ t))
    ⟨hinv, hsh, fun _ => rfl⟩ (by
      rintro hist a e o b ⟨hinv, hsh, hterm⟩ hs
      obtain ⟨hinv', hsh', hstep⟩ := terminalOf_step him hinv hsh hs
      refine ⟨hinv', hsh', fun t => ?_⟩
      rw [drawnOn_concat, List.foldl_append, ← hterm, hstep])
  exact ⟨hinv, hterm⟩

/-- **Virtual terminals are private screens.** After a first tick that started a shell, whatever
ticks, writes and keys follow: the logical screen, the cursor and the line of each terminal are
what its own writes and keys make of them, one after the other, on a terminal that knows of no
others; and a switch of the visible terminal would change no logical screen and no cursor. -/
theorem private_screens {k₀ k₁ : Kernel}
    (h₀ : schedulerNext im sp (entry k₀) = some (.started pid, k₁))
    (h : Run (screenSystem im) k₁ tr k) :
    (∀ t, terminalOf k t = (drawnOn t tr).foldl OwnTerminal.draw (terminalOf k₁ t)) ∧
    ∀ t u, screenOf (switchTerminals t k) u = screenOf k u := by
  obtain ⟨him, hinv, hsh⟩ := first_tick h₀
  obtain ⟨hinv, hterm⟩ := terminalOf_run him hinv hsh h
  obtain ⟨last, hp⟩ := hinv.mapped.tables
  exact ⟨hterm, fun t u => screenOf_switchTerminals hp t u⟩

/-- The shell of terminal 1 writes an `a` while terminal 0 is visible. -/
theorem private_screens_write : ∃ k₁ k,
    schedulerNext shellImage ((entry default).sp 0) (entry default) = some (.started 1, k₁) ∧
    Run (screenSystem shellImage) k₁
      [(.tick (k₁.sp 0), none), (.write (fun _ => 97) 1, some (1, .write [97]))] k ∧
    terminalOf k 0 = terminalOf k₁ 0 ∧
    screenOf k 1 = screenConsole.putc 97 (screenOf k₁ 1) := by
  obtain ⟨k₁, k₂, h₁, h₂, -, hcur, -, -⟩ := first_ticks hasShell_shellImage default
  have hrun : Run (screenSystem shellImage) k₁
      ([(.tick (k₁.sp 0), none)] ++ [(.write (fun _ => 97) 1, some (1, .write [97]))])
      (terminalWrite (fun _ => 97) 1 k₂).2 :=
    (Run.single (R := screenSystem shellImage) (e := .tick (k₁.sp 0)) (o := none)
      ⟨rfl, _, h₂⟩).snoc ⟨by rw [hcur]; rfl, rfl⟩
  obtain ⟨hterm, -⟩ := private_screens h₁ hrun
  exact ⟨k₁, _, h₁, hrun, hterm 0, congrArg OwnTerminal.screen (hterm 1)⟩

end Run

/-! ## A kernel without a shell -/

section NoShell

variable {im : Image} {k : Kernel}

/-- A character that is no line end, away from the last column. -/
theorem screen_putc {c : UInt8} {s : Screen} (hc : ¬ (c = newline ∨ c = carriageReturn))
    (hx : s.x + 1 < 80) (hy : s.y < 25) :
    (screenConsole.putc c s).x = s.x + 1 ∧ (screenConsole.putc c s).y = s.y := by
  have hx' : ¬ ¬ s.x + 1 < numCols := not_not.2 hx
  have hy' : ¬ ¬ s.y < numRows := not_not.2 hy
  have hmod : (s.x + 1) % numCols = s.x + 1 := Nat.mod_eq_of_lt hx
  unfold Console.putc
  simp only [if_neg hc, Console.putCell, screenConsole, if_neg hx', if_neg hy', hmod,
    Nat.div_eq_of_lt (show s.x + 1 < numCols from hx), Nat.add_zero]
  exact ⟨trivial, Nat.mod_eq_of_lt hy⟩

/-- A line that fits in its row moves the cursor by its length. -/
theorem screen_puts {l : List UInt8} (hl : ∀ c ∈ l, ¬ (c = newline ∨ c = carriageReturn))
    {s : Screen} (hx : s.x + l.length < 80) (hy : s.y < 25) :
    (screenConsole.puts l s).x = s.x + l.length ∧ (screenConsole.puts l s).y = s.y := by
  induction l generalizing s with
  | nil => exact ⟨rfl, rfl⟩
  | cons c l ih =>
    rw [List.length_cons] at hx ⊢
    obtain ⟨h₁, h₂⟩ := screen_putc (hl c (List.mem_cons_self ..)) (by omega) hy
    obtain ⟨h₃, h₄⟩ := ih (s := screenConsole.putc c s)
      (fun d hd => hl d (List.mem_cons_of_mem c hd)) (by omega) (by omega)
    exact ⟨by rw [← Nat.add_assoc, Nat.add_right_comm, ← h₁]; exact h₃, h₄.trans h₂⟩

/-- What `printf` prints, whatever page is mapped: its cursor is the one of the visible
terminal. -/
theorem view_printf {a : Nat} (hm : MapsTo k a) (ha : TextPage a) (hc : CursorsOk k) (s : String) :
    OnPage a k.visableTerm k (printf s k) ∧
      viewOf a k.visableTerm (printf s k) =
        screenConsole.puts (chars s) (viewOf a k.visableTerm k) := by
  have hin : screenConsole.InBounds (viewOf a k.visableTerm k) := hc k.visableTerm
  obtain ⟨hpage, hv⟩ := (sim_page (usesCursor_global k.visableTerm) hm ha
    fun k' hk' => hk'.visableTerm_eq).puts lawful_screen (chars s) (.inl hin) ⟨.refl a _ k, rfl⟩
  exact ⟨hpage, hv.symm⟩

/-- A line that fits moves the cursor of the visible terminal by its length. -/
theorem printf_cursor {a : Nat} (hm : MapsTo k a) (ha : TextPage a) (hc : CursorsOk k) {s : String}
    (hl : ∀ c ∈ chars s, ¬ (c = newline ∨ c = carriageReturn))
    (hx : (screenOf k k.visableTerm).x + (chars s).length < 80) :
    (screenOf (printf s k) k.visableTerm).x =
      (screenOf k k.visableTerm).x + (chars s).length := by
  obtain ⟨-, hv⟩ := view_printf hm ha hc s
  obtain ⟨hputs, -⟩ := @screen_puts (chars s) hl (viewOf a k.visableTerm k) hx
    (hc k.visableTerm).2
  rw [← hv] at hputs
  exact hputs

/-- A tick that finds no shell for the next terminal. -/
theorem tick_failed (hlook : lookupProgram im shell = none) (sp : Nat)
    (hoff : k.isOn (k.currentTerm + 1) = false) : schedulerNext im sp k =
      some (.failed, printf "failed" ((scheduled sp k).turnOn (k.currentTerm + 1))) := by
  have he : execute im sp (some shell) ((scheduled sp k).turnOn (k.currentTerm + 1)) =
      .failed ((scheduled sp k).turnOn (k.currentTerm + 1)) := by
    have hlen : ¬ strlen shell > maxBufSizeExecute := Nat.not_lt.2 strlen_shell
    unfold execute
    dsimp only
    rw [if_neg hlen, hlook]
  rw [schedulerNext_off hoff, he]

/-- It prints with the cursor of the visible terminal. -/
theorem tick_failed_cursor (hlook : lookupProgram im shell = none) (sp : Nat)
    (hoff : k.isOn (k.currentTerm + 1) = false) (hp : ∃ last, PagingOk k.paging last)
    (hc : CursorsOk k) (hx : (screenOf k k.visableTerm).x + 6 < 80) :
    ∃ k', schedulerNext im sp k = some (.failed, k') ∧
      SameButScreen ((scheduled sp k).turnOn (k.currentTerm + 1)) k' ∧ CursorsOk k' ∧
      (screenOf k' k.visableTerm).x = (screenOf k k.visableTerm).x + 6 := by
  have hs := (shown_scheduled sp k).trans (shown_turnOn (k.currentTerm + 1) (scheduled sp k))
  have hm : MapsTo ((scheduled sp k).turnOn (k.currentTerm + 1))
      (screenPage (scheduled sp k) (scheduled sp k).currentTerm) :=
    ⟨(recalled_scheduled sp k).pagingOk hp, (videoOk_scheduled sp k).low⟩
  have hscreen := hs.screenOf k.visableTerm
  refine ⟨_, tick_failed hlook sp hoff, .printf "failed" _,
    cursorsOk_printf (hc.shown hs) "failed", ?_⟩
  generalize (scheduled sp k).turnOn (k.currentTerm + 1) = k₁ at hs hm hscreen
  rw [← hs.visableTerm] at hx hscreen ⊢
  rw [← hscreen] at hx ⊢
  exact printf_cursor hm (textPage_screenPage _ _) (hc.shown hs)
    (show ∀ c ∈ chars "failed", ¬ (c = newline ∨ c = carriageReturn) by decide +kernel) hx

end NoShell

/-- An image without files: the second tick moves the cursor of terminal 0, on which nothing was
written and no key was received. -/
theorem private_screens_no_shell : ∃ k₁ k₂,
    schedulerNext (sparseImage []) 0 (entry default) = some (.failed, k₁) ∧
    Run (screenSystem (sparseImage [])) k₁ [(.tick 0, none)] k₂ ∧
    drawnOn 0 [(.tick 0, none)] = [] ∧ terminalOf k₂ 0 ≠ terminalOf k₁ 0 := by
  have hlook : lookupProgram (sparseImage []) shell = none := by decide +kernel
  have hboot := sameButScreen_entry default
  have hvis : (entry default).visableTerm = 0 := hboot.visableTerm_eq
  have hcur : (entry default).currentTerm = 2 := hboot.currentTerm_eq
  have hon : (entry default).isOn = fun _ => false := hboot.isOn_eq
  obtain ⟨hhome, -⟩ := home_entry default
  obtain ⟨k₁, h₁, hs₁, hc₁, hx₁⟩ := tick_failed_cursor hlook 0 (by rw [hon])
    ⟨_, pagingOk_entry default⟩ (cursorsOk_entry default) (by rw [hhome]; decide)
  obtain ⟨-, hp₁, -, -⟩ := mapInv_tick (inputOk_entry default) ⟨_, pagingOk_entry default⟩ h₁
  have hvis₁ : k₁.visableTerm = 0 := by
    rw [hs₁.visableTerm_eq, turnOn_visableTerm, scheduled_visableTerm, hvis]
  have hcur₁ : k₁.currentTerm = 0 := by
    rw [hs₁.currentTerm_eq, turnOn_currentTerm, scheduled_currentTerm, hcur]
    rfl
  have hon₁ : k₁.isOn (k₁.currentTerm + 1) = false := by
    rw [hcur₁, hs₁.isOn_eq, turnOn_isOn, scheduled_isOn, hon, hcur]
    rfl
  rw [hhome, hvis] at hx₁
  obtain ⟨k₂, h₂, -, -, hx₂⟩ := tick_failed_cursor hlook 0 hon₁ hp₁ hc₁
    (by rw [hvis₁, hx₁]; decide)
  rw [hvis₁, hx₁] at hx₂
  refine ⟨k₁, k₂, h₁, Run.single ⟨rfl, _, h₂⟩, rfl, fun heq => ?_⟩
  have hxx : (screenOf k₂ 0).x = (screenOf k₁ 0).x := congrArg (fun s => s.screen.x) heq
  rw [hx₁, hx₂] at hxx
  exact absurd hxx (by decide)

end Kernel391

import Kernel391.RenderingProof
import Kernel391.TypingProof

/-!
# Echo

What the visible terminal shows of the line that is typed on it. The screen keeps showing the
window of a page without end (`Renders`), and on that page the line stays where it is: it starts
at a fixed place (`OwnPage.start`) and ends at the cursor (`Holds`), however often it wraps and
the window moves.

* `Follows.pressed` — a key keeps the screen, the line and the page together.
* `terminal_lineRun` — over a run each terminal is the fold of its own keys.
* `echo_matches` — at every moment of a run the cells before the cursor show the pending line.
-/

namespace Kernel391

open Bytes Runs Console Scrollback

/-! ## A line on a page -/

/-- A page, the line that is typed on it, and the place where that line starts. -/
structure OwnPage where
  page : Page UInt8
  start : Nat
  line : TermLine

/-- One key. -/
def OwnPage.key (e : OwnPage) : LineKey → OwnPage
  | .char c =>
    { page := if e.line.pending.length < 127 then e.page.put numCols numRows c else e.page
      start := e.start
      line := e.line.edit (.char c) }
  | .backspace =>
    { page := if e.line.pending ≠ [] then e.page.back numCols space else e.page
      start := e.start
      line := e.line.edit .backspace }
  | .enter =>
    { page := e.page.lineFeed numRows
      start := (e.page.lineFeed numRows).pos numCols
      line := e.line.edit .enter }
  | .clearScreen => { e with line := e.line.edit .clearScreen }
  | .other => { e with line := e.line.edit .other }

/-- A character that does not end a row, backspace, Enter, or a key that means nothing to the
line. -/
def EchoedKey : LineKey → Prop
  | .char c => endsRow c = false
  | .clearScreen => False
  | _ => True

/-- The terminal shows the page, and its line is on it. -/
structure Follows (o : OwnTerminal) (e : OwnPage) : Prop where
  renders : Renders o.screen e.page
  line : e.line = o.line
  holds : Holds numCols e.page e.start o.line.pending
  length : o.line.pending.length ≤ 127

/-- A terminal with an empty line. -/
def ownPage (o : OwnTerminal) : OwnPage where
  page := o.screen.page
  start := o.screen.page.pos numCols
  line := o.line

section Follows

variable {o : OwnTerminal} {e : OwnPage} {key : LineKey}

theorem follows_ownPage (hin : o.screen.InBounds) (h : o.line.pending = []) :
    Follows o (ownPage o) where
  renders := renders_page hin
  line := rfl
  holds := by
    rw [h]
    exact .nil (renders_page hin).page
  length := by
    rw [h]
    exact Nat.zero_le _

/-- A character that does not end the row. -/
theorem Follows.char (h : Follows o e) {c : UInt8} (hc : endsRow c = false) :
    Follows (o.draw (.key (.char c))) (e.key (.char c)) := by
  obtain ⟨hrenders, hline, hholds, hlen⟩ := h
  have hlen' := TermLine.edit_length_le hlen (.char c)
  have hline' : e.line.edit (.char c) = o.line.edit (.char c) := by rw [hline]
  have hecho := hrenders.putc c
  rw [Page.print, hc, if_neg Bool.false_ne_true] at hecho
  by_cases hroom : o.line.pending.length < 127
  · have hfits : o.line.pending.length + 1 ≤ numCols * (numRows - 1) := by
      simp only [numCols, numRows]
      omega
    refine ⟨?_, hline', ?_, hlen'⟩
    · simp only [OwnTerminal.draw, Console.echo, OwnPage.key, hline, if_pos hroom]
      exact hecho
    · simp only [OwnTerminal.draw, TermLine.edit, OwnPage.key, hline, if_pos hroom]
      exact hholds.put hrenders.page hfits c
  · -- neither stored nor echoed
    refine ⟨?_, hline', ?_, hlen'⟩
    · simp only [OwnTerminal.draw, Console.echo, OwnPage.key, hline, if_neg hroom]
      exact hrenders
    · simp only [OwnTerminal.draw, TermLine.edit, OwnPage.key, hline, if_neg hroom]
      exact hholds

theorem Follows.erase (h : Follows o e) :
    Follows (o.draw (.key .backspace)) (e.key .backspace) := by
  obtain ⟨hrenders, hline, hholds, hlen⟩ := h
  have hlen' := TermLine.edit_length_le hlen .backspace
  have hline' : e.line.edit .backspace = o.line.edit .backspace := by rw [hline]
  by_cases hne : o.line.pending = []
  · refine ⟨?_, hline', ?_, hlen'⟩
    · simp only [OwnTerminal.draw, Console.echo, OwnPage.key, hline, hne, ne_eq,
        not_true_eq_false, if_false, List.length_nil]
      exact hrenders
    · simp only [OwnTerminal.draw, TermLine.edit, OwnPage.key, hline, hne, ne_eq,
        not_true_eq_false, if_false, List.dropLast_nil]
      rwa [hne] at hholds
  · have hpos : o.line.pending.length ≠ 0 := fun h0 => hne (List.eq_nil_of_length_eq_zero h0)
    refine ⟨?_, hline', ?_, hlen'⟩
    · simp only [OwnTerminal.draw, Console.echo, OwnPage.key, hline, if_pos hne, if_pos hpos]
      exact hrenders.handlebackspace
    · simp only [OwnTerminal.draw, TermLine.edit, OwnPage.key, hline, if_pos hne]
      exact hholds.back hrenders.page hne

/-- **One key** on the terminal is the key on the page. -/
theorem Follows.pressed (h : Follows o e) (hkey : EchoedKey key) :
    Follows (o.draw (.key key)) (e.key key) := by
  have hline : e.line.edit key = o.line.edit key := by rw [h.line]
  cases key with
  | char c => exact h.char hkey
  | backspace => exact h.erase
  | enter =>
    have hecho := h.renders.putc newline
    exact ⟨hecho, hline, .nil hecho.page, Nat.zero_le _⟩
  | clearScreen => exact hkey.elim
  | other => exact ⟨h.renders, hline, h.holds, h.length⟩

/-- Any number of keys. -/
theorem Follows.keys (h : Follows o e) {keys : List LineKey} (hkeys : ∀ key ∈ keys, EchoedKey key) :
    Follows (keys.foldl (fun o key => o.draw (.key key)) o) (keys.foldl OwnPage.key e) := by
  induction keys generalizing o e with
  | nil => exact h
  | cons key keys ih =>
    exact ih (h.pressed (hkeys key (List.mem_cons_self ..)))
      fun k hk => hkeys k (List.mem_cons_of_mem key hk)

/-! ## What the screen shows -/

/-- The cell before the cursor is blank now, with the cursor on it, and no other cell differs. -/
structure Blanked (s s' : Screen) : Prop where
  cursor : numCols * s'.y + s'.x + 1 = numCols * s.y + s.x
  cells : ∀ y < numRows, ∀ x < numCols,
    s'.chars y x = if y = s'.y ∧ x = s'.x then space else s.chars y x

/-- The keys of a text, and as many backspaces. -/
def typedAndErased (cs : List UInt8) : List LineKey :=
  cs.map LineKey.char ++ List.replicate cs.length LineKey.backspace

/-- The line of terminal `o` on its screen, and on the page `e` that the screen is a window of.

* `start`, `shown` — it starts in the window, at a place that the cursor is not before, and the
  cells between that place and the cursor are the pending line.
* `backspace` — a backspace blanks the last of them.
* `prompt` — whatever is typed, the cursor stays behind the place where the line starts, and the
  cells before that place never change.
* `undo` — as many backspaces as characters that were accepted lead back to the same place. -/
structure EchoLaw (o : OwnTerminal) (e : OwnPage) : Prop where
  renders : Renders o.screen e.page
  start : numCols * e.page.top ≤ e.start ∧
    e.start + o.line.pending.length = e.page.pos numCols
  shown : o.line.pending.length ≤ numCols * o.screen.y + o.screen.x ∧
    ∀ (i : Nat) (hi : i < o.line.pending.length), o.screen.cells
      (2 * (numCols * o.screen.y + o.screen.x - o.line.pending.length + i)) = o.line.pending[i]
  backspace : o.line.pending ≠ [] → Blanked o.screen (o.draw (.key .backspace)).screen
  prompt : ∀ keys : List LineKey, (∀ key ∈ keys, EchoedKey key) →
    let e' := keys.foldl OwnPage.key e
    e.start ≤ e'.start ∧ e'.start ≤ e'.page.pos numCols ∧
      ∀ i < e.start, e'.page.cell numCols i = e.page.cell numCols i
  undo : ∀ cs : List UInt8, (∀ c ∈ cs, endsRow c = false) →
    o.line.pending.length + cs.length ≤ 127 →
    let e' := (typedAndErased cs).foldl OwnPage.key e
    e'.page.pos numCols = e.page.pos numCols ∧ e'.start = e.start ∧
      e'.line.pending = e.line.pending

/-- A cell of the screen is a place of the page. -/
theorem Renders.cell {s : Screen} {p : Page UInt8} (h : Renders s p) {j : Nat} (hj : j < 2000) :
    s.cells (2 * j) = p.cell numCols (numCols * p.top + j) := by
  have hcols : 0 < numCols := Nat.succ_pos 79
  have hrow : j / numCols < numRows := by
    simp only [numCols, numRows]
    omega
  have hshown := h.shown.cells (j / numCols) hrow (j % numCols) (Nat.mod_lt _ hcols)
  rw [Screen.chars, Nat.div_add_mod] at hshown
  rw [hshown, Page.cell, Nat.mul_add_div hcols, Nat.mul_add_mod]

theorem Renders.pos {s : Screen} {p : Page UInt8} (h : Renders s p) :
    p.pos numCols = numCols * p.top + (numCols * s.y + s.x) := by
  rw [Page.pos, ← h.shown.row, ← h.shown.col, Nat.mul_add, Nat.add_assoc]

/-- A backspace that is not at the top left. -/
theorem blanked_handlebackspace {s : Screen} (hin : s.InBounds)
    (hpos : 0 < numCols * s.y + s.x) : Blanked s (screenConsole.handlebackspace s) := by
  have hx : s.x < 80 := hin.1
  rw [handlebackspace_eq]
  have hback : (stepBack s).x < 80 ∧ 80 * (stepBack s).y + (stepBack s).x + 1 = 80 * s.y + s.x ∧
      (stepBack s).cells = s.cells := by
    simp only [numCols] at hpos
    unfold stepBack
    by_cases hx0 : s.x = 0
    · have hy : s.y ≠ 0 := by
        rintro hy
        rw [hy, hx0] at hpos
        exact absurd hpos (Nat.lt_irrefl 0)
      rw [if_neg (not_not.2 hx0), if_pos hy]
      exact ⟨Nat.lt_succ_self 79, by dsimp only; omega, rfl⟩
    · rw [if_pos hx0]
      exact ⟨by dsimp only; omega, by dsimp only; omega, rfl⟩
  obtain ⟨hlt, hcursor, hcells⟩ := hback
  refine ⟨hcursor, fun y _ x hx => ?_⟩
  rw [chars_writeCell hlt hx]
  simp only [Screen.chars, hcells]
  rfl

section Law

variable {o : OwnTerminal} {e : OwnPage}

/-- A key leaves the cells before the line alone, and moves its start only forward. -/
theorem Follows.before_line (h : Follows o e) (key : LineKey) :
    e.start ≤ (e.key key).start ∧
      ∀ i < e.start, (e.key key).page.cell numCols i = e.page.cell numCols i := by
  have hpos := h.holds.pos
  have hok := h.renders.page
  cases key with
  | char c =>
    refine ⟨Nat.le_refl _, fun i hi => ?_⟩
    simp only [OwnPage.key]
    split
    · rw [Page.cell_put hok.col_lt, if_neg (by omega)]
    · rfl
  | backspace =>
    refine ⟨Nat.le_refl _, fun i hi => ?_⟩
    simp only [OwnPage.key, h.line]
    split
    · have hlt := h.holds.lt_pos ‹_›
      rw [Page.cell_back hok (Nat.lt_of_le_of_lt h.holds.top hlt), if_neg (by omega)]
    · rfl
  | enter =>
    refine ⟨?_, fun i _ => rfl⟩
    have hcol := hok.col_lt
    change e.start ≤ (e.page.lineFeed numRows).pos numCols
    rw [Page.pos_lineFeed]
    rw [Page.pos] at hpos
    omega
  | clearScreen => exact ⟨Nat.le_refl _, fun _ _ => rfl⟩
  | other => exact ⟨Nat.le_refl _, fun _ _ => rfl⟩

theorem Follows.prompt (h : Follows o e) (keys : List LineKey)
    (hkeys : ∀ key ∈ keys, EchoedKey key) :
    e.start ≤ (keys.foldl OwnPage.key e).start ∧
      ∀ i < e.start, (keys.foldl OwnPage.key e).page.cell numCols i = e.page.cell numCols i := by
  induction keys generalizing o e with
  | nil => exact ⟨Nat.le_refl _, fun _ _ => rfl⟩
  | cons key keys ih =>
    obtain ⟨hstart, hcells⟩ := h.before_line key
    obtain ⟨hstart', hcells'⟩ := ih (h.pressed (hkeys key (List.mem_cons_self ..)))
      fun k hk => hkeys k (List.mem_cons_of_mem key hk)
    refine ⟨Nat.le_trans hstart hstart', fun i hi => ?_⟩
    rw [List.foldl_cons, hcells' i (Nat.lt_of_lt_of_le hi hstart), hcells i hi]

/-- The line after characters that have room. -/
theorem edit_chars (l : TermLine) (cs : List UInt8) (h : l.pending.length + cs.length ≤ 127) :
    (cs.map LineKey.char).foldl TermLine.edit l = { l with pending := l.pending ++ cs } := by
  induction cs generalizing l with
  | nil => rw [List.append_nil]; rfl
  | cons c cs ih =>
    rw [List.length_cons] at h
    have hroom : l.pending.length < 127 := by omega
    rw [List.map_cons, List.foldl_cons, TermLine.edit, if_pos hroom, ih]
    · simp only [List.append_assoc, List.singleton_append]
    · rw [List.length_append, List.length_singleton]
      omega

/-- The line after backspaces. -/
theorem edit_backspaces (l : TermLine) (n : Nat) :
    ((List.replicate n LineKey.backspace).foldl TermLine.edit l).pending =
      l.pending.take (l.pending.length - n) := by
  induction n generalizing l with
  | zero => rw [Nat.sub_zero, List.take_length]; rfl
  | succ n ih =>
    rw [List.replicate_succ, List.foldl_cons, ih]
    simp only [TermLine.edit, List.length_dropLast]
    rw [List.dropLast_eq_take, List.take_take, Nat.min_eq_left (Nat.sub_le _ _),
      Nat.sub_sub, Nat.add_comm 1 n]

theorem edit_typedAndErased (l : TermLine) (cs : List UInt8)
    (h : l.pending.length + cs.length ≤ 127) :
    ((typedAndErased cs).foldl TermLine.edit l).pending = l.pending := by
  rw [typedAndErased, List.foldl_append, edit_chars l cs h, edit_backspaces]
  simp only [List.length_append, Nat.add_sub_cancel, List.take_left']

theorem OwnPage.line_keys (e : OwnPage) (keys : List LineKey) :
    (keys.foldl OwnPage.key e).line = keys.foldl TermLine.edit e.line := by
  induction keys generalizing e with
  | nil => rfl
  | cons key keys ih =>
    rw [List.foldl_cons, ih, List.foldl_cons]
    cases key <;> rfl

/-- Only Enter starts a line. -/
theorem OwnPage.start_keys (e : OwnPage) {keys : List LineKey} (h : ∀ key ∈ keys, key ≠ .enter) :
    (keys.foldl OwnPage.key e).start = e.start := by
  induction keys generalizing e with
  | nil => rfl
  | cons key keys ih =>
    have hne := h key (List.mem_cons_self ..)
    rw [List.foldl_cons, ih _ fun k hk => h k (List.mem_cons_of_mem key hk)]
    cases key with
    | enter => exact absurd rfl hne
    | _ => rfl

theorem mem_typedAndErased {cs : List UInt8} {key : LineKey} (h : key ∈ typedAndErased cs) :
    (∃ c ∈ cs, key = .char c) ∨ key = .backspace := by
  rcases List.mem_append.1 h with h | h
  · obtain ⟨c, hc, rfl⟩ := List.mem_map.1 h
    exact .inl ⟨c, hc, rfl⟩
  · exact .inr (List.eq_of_mem_replicate h)

theorem Follows.undo (h : Follows o e) {cs : List UInt8} (hcs : ∀ c ∈ cs, endsRow c = false)
    (hroom : o.line.pending.length + cs.length ≤ 127) :
    let e' := (typedAndErased cs).foldl OwnPage.key e
    e'.page.pos numCols = e.page.pos numCols ∧ e'.start = e.start ∧
      e'.line.pending = e.line.pending := by
  have hkeys : ∀ key ∈ typedAndErased cs, EchoedKey key := by
    intro key hkey
    rcases mem_typedAndErased hkey with ⟨c, hc, rfl⟩ | rfl
    · exact hcs c hc
    · trivial
  have hnot : ∀ key ∈ typedAndErased cs, key ≠ .enter := by
    intro key hkey
    rcases mem_typedAndErased hkey with ⟨c, -, rfl⟩ | rfl
    · exact LineKey.noConfusion
    · exact LineKey.noConfusion
  have hline : ((typedAndErased cs).foldl OwnPage.key e).line.pending = e.line.pending := by
    rw [e.line_keys, edit_typedAndErased]
    rw [h.line]
    exact hroom
  have hstart := e.start_keys hnot
  have hafter := h.keys hkeys
  have hpos := hafter.holds.pos
  rw [← hafter.line, hline, hstart, h.line, ← h.holds.pos] at hpos
  exact ⟨hpos, hstart, hline⟩

/-- **The law of the echo.** -/
theorem Follows.law (h : Follows o e) : EchoLaw o e := by
  have hpos := h.holds.pos
  have htop := h.holds.top
  have hscreen := h.renders.pos
  have hin := h.renders.inBounds
  have hx : o.screen.x < 80 := hin.1
  have hy : o.screen.y < 25 := hin.2
  have hcursor : numCols * o.screen.y + o.screen.x < 2000 := by
    simp only [numCols]
    omega
  refine ⟨h.renders, ⟨htop, hpos.symm⟩, ⟨by omega, fun i hi => ?_⟩, fun hne => ?_,
    fun keys hkeys => ?_, fun cs hcs hroom => h.undo hcs hroom⟩
  · rw [h.renders.cell (by omega), ← h.holds.cells i hi]
    congr 1
    omega
  · have hlen := List.length_pos_iff.2 hne
    have hn : o.line.pending.length ≠ 0 := Nat.ne_of_gt hlen
    simp only [OwnTerminal.draw, Console.echo, if_pos hn]
    exact blanked_handlebackspace hin (by omega)
  · obtain ⟨hstart, hcells⟩ := h.prompt keys hkeys
    exact ⟨hstart, (h.keys hkeys).holds.pos ▸ Nat.le_add_right _ _, hcells⟩

end Law

end Follows

/-! ## Runs -/

section Run

variable {k k' k₀ : Kernel} {t : TermId}

/-- **One step of the keyboard** on each terminal. -/
theorem terminal_lineStep (hk : LineInv k) {e : LineEvent} {o : Option (TermId × LineKey)}
    (hs : lineSystem k e o k') (t : TermId) :
    terminalOf k' t =
      (o.bind fun o => if o.1 = t then some o.2 else none).toList.foldl
        (fun s key => s.draw (.key key)) (terminalOf k t) := by
  obtain ⟨hin, hp, hc⟩ := hk
  cases e with
  | key ev =>
    obtain ⟨hs, rfl⟩ := hs
    obtain ⟨hself, hothers⟩ := terminalOf_key hin hp hc hs
    rw [Option.bind_some]
    by_cases ht : k.visableTerm = t
    · subst ht
      rw [if_pos rfl]
      exact hself
    · rw [if_neg ht]
      exact hothers t (Ne.symm ht)
  | switch u =>
    obtain ⟨rfl, rfl⟩ := hs
    obtain ⟨last, hlast⟩ := hp
    have hline := ((SameInput.switchTerminals u k).lines t).lineOf_eq
    rw [terminalOf, screenOf_switchTerminals hlast, hline]
    rfl

/-- A run of the keyboard, from any state. -/
theorem terminal_lineRun {tr : List (LineEvent × Option (TermId × LineKey))} (hk : LineInv k₀)
    (h : Run lineSystem k₀ tr k) (t : TermId) :
    terminalOf k t =
      (keysOf t tr).foldl (fun s key => s.draw (.key key)) (terminalOf k₀ t) := by
  refine (h.invariant_history (I := fun tr k => LineInv k ∧ terminalOf k t =
    (keysOf t tr).foldl (fun s key => s.draw (.key key)) (terminalOf k₀ t)) ⟨hk, rfl⟩ ?_).2
  rintro tr a e o b ⟨hk, hterm⟩ hs
  refine ⟨hk.step hs, ?_⟩
  rw [keysOf_concat, List.foldl_append, ← hterm]
  exact terminal_lineStep hk hs t

/-- **The echo matches the pending line.** From any state of the screens, wherever the cursor of
terminal `t` is, if its line is empty: after any keys for it, with switches and keys for other
terminals in between, or ticks and the writes of other terminals, its screen shows its line as
`EchoLaw` says. -/
theorem echo_matches (t : TermId) :
    (∀ k₀ tr k, LineInv k₀ → (lineOf k₀ t).pending = [] → Run lineSystem k₀ tr k →
      (∀ key ∈ keysOf t tr, EchoedKey key) →
      EchoLaw (terminalOf k t) ((keysOf t tr).foldl OwnPage.key (ownPage (terminalOf k₀ t)))) ∧
    ∀ im k₀ tr k (keys : List LineKey), HasShell im → ScreenInv k₀ → ShellsOnly k₀ →
      (lineOf k₀ t).pending = [] → Run (screenSystem im) k₀ tr k →
      drawnOn t tr = keys.map Drawn.key → (∀ key ∈ keys, EchoedKey key) →
      EchoLaw (terminalOf k t) (keys.foldl OwnPage.key (ownPage (terminalOf k₀ t))) := by
  constructor
  · intro k₀ tr k hk hempty hrun hkeys
    rw [terminal_lineRun hk hrun t]
    exact ((follows_ownPage (hk.cursors t) hempty).keys hkeys).law
  · intro im k₀ tr k keys him hinv hsh hempty hrun hdrawn hkeys
    rw [(terminalOf_run him hinv hsh hrun).2 t, hdrawn, List.foldl_map]
    exact ((follows_ownPage (hinv.cursors t) hempty).keys hkeys).law

/-- The key `a` after boot, and nothing after the first tick. -/
theorem echo_matches_a :
    (∃ k, Run lineSystem (bootState default) [(.key { code := 0x1E }, some (0, .char 97))] k ∧
      EchoLaw (terminalOf k 0)
        ([.char 97].foldl OwnPage.key (ownPage (terminalOf (bootState default) 0)))) ∧
    ∃ k₁, schedulerNext shellImage ((entry default).sp 0) (entry default) =
        some (.started 1, k₁) ∧ EchoLaw (terminalOf k₁ 0) (ownPage (terminalOf k₁ 0)) := by
  constructor
  · obtain ⟨k₁, hk₁, -⟩ := checkInput_spec { code := 0x1E } (inputOk_boot default)
    have hrun : Run lineSystem (bootState default)
        [(.key { code := 0x1E }, some (0, .char 97))] k₁ := .single ⟨hk₁, by decide⟩
    refine ⟨k₁, hrun, (echo_matches 0).1 _ _ _ (lineInv_boot default) rfl hrun fun key hkey => ?_⟩
    obtain rfl : key = .char 97 := List.mem_singleton.1 hkey
    exact (by decide : endsRow 97 = false)
  · obtain ⟨k₁, -, h₁, -⟩ := first_ticks hasShell_shellImage default
    obtain ⟨him, hinv, hsh⟩ := first_tick h₁
    have hline : lineOf k₁ 0 = lineOf (entry default) 0 := by
      have hin := (scheduled_same ((entry default).sp 0) (entry default)).trans
        (procFrame_schedulerNext h₁).input
      exact (hin.lines 0).lineOf_eq
    have hempty : (lineOf k₁ 0).pending = [] := by
      rw [hline, ((SameInput.of_screen (sameButScreen_entry default)).lines 0).lineOf_eq]
      rfl
    exact ⟨k₁, h₁, (echo_matches 0).2 _ k₁ [] k₁ [] him hinv hsh hempty .nil rfl fun _ h =>
      absurd h List.not_mem_nil⟩

end Run

end Kernel391

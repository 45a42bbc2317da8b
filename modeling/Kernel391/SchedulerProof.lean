import Kernel391.Lib.CallStacks
import Kernel391.ProcessRun

/-!
# The scheduler and the process tree

The process table, the terminals' process ids, the PCBs' parent fields, the page directory and
the TSS are five records of one thing: three call stacks of processes, one for each terminal,
of which one is running (`Machine`). `Represents k m` says that the kernel's five records
describe the machine `m`.

* `represents_step` — every step of the kernel is a step of the machine, as long as programs
  are started by users only after all three terminals have their shells.
* `process_parentage` — over every run from boot in which that holds, process ids up to 3 belong
  to the root shells, and every other process returns to the one that called `execute` for it.
* `scheduling_context` — once the three shells run, the five records agree in every state.
-/

namespace Kernel391

open Bytes Runs X86 CallStacks

/-! ## The machine -/

/-- Before the first tick. -/
def threadStart : Machine TermId Nat := ⟨fun _ => [], 2⟩

/-- The process that runs, 0 before the first tick. -/
def runningPid (m : Machine TermId Nat) : Nat := (m.stack m.current).headD 0

/-- The steps of the three call stacks. -/
inductive ThreadStep (m : Machine TermId Nat) : ProcEvent → Seen → Machine TermId Nat → Prop
  /-- A tick goes to the next terminal. -/
  | switch {d : Nat} {o : Seen} : o.output = .switched → m.stack (m.current + 1) ≠ [] →
      ThreadStep m (.tick d) o { m with current := m.current + 1 }
  /-- A tick starts the shell of the next terminal. -/
  | shell {d : Nat} {o : Seen} : o.output = .started (((m.current + 1 : TermId) : Nat) + 1) →
      m.stack (m.current + 1) = [] → o.term = m.current + 1 →
      ThreadStep m (.tick d) o
        ⟨Function.update m.stack (m.current + 1) [((m.current + 1 : TermId) : Nat) + 1],
          m.current + 1⟩
  /-- An `execute` returns -1. -/
  | failed {d : Nat} {cmd : Option CString} {o : Seen} : o.output = .failed →
      ThreadStep m (.execute d cmd) o m
  /-- The running process calls a new one. -/
  | call {d : Nat} {cmd : Option CString} {o : Seen} {p : Nat} : o.output = .started p → 3 < p →
      (∀ t, p ∉ m.stack t) → m.stack m.current ≠ [] → o.term = m.current →
      o.caller = runningPid m →
      ThreadStep m (.execute d cmd) o { m with stack := push m.current p m.stack }
  /-- The shell of a terminal ends and is started again. -/
  | restart {d : Nat} {status : UInt8} {o : Seen} : o.output = .started ((m.current : Nat) + 1) →
      m.stack m.current = [(m.current : Nat) + 1] → o.term = m.current →
      o.caller = (m.current : Nat) + 1 →
      ThreadStep m (.halt d status) o m
  /-- The running process ends, and the one that called it goes on. -/
  | resume {d : Nat} {status : UInt8} {o : Seen} {value : UInt32} :
      o.output = .resumed value → 3 < runningPid m → m.stack m.current ≠ [] →
      ThreadStep m (.halt d status) o { m with stack := pop m.current m.stack }

/-- Process `p` was called by process `q`: its PCB says so, and its saved frame is on the stack of
`q`. -/
structure Link (k : Kernel) (p q : Nat) : Prop where
  user : 3 < p
  parent : HasParent k p q
  frame : getPcbAddress (k.pcbMem (pcbAddr p)).parentEsp.esp = pcbAddr q

/-- **The kernel's records describe the call stacks of `m`.** -/
structure Represents (k : Kernel) (m : Machine TermId Nat) : Prop where
  current : k.currentTerm = m.current
  chain : ∀ t, (m.stack t).IsChain (Link k)
  root : ∀ t p, (m.stack t).getLast? = some p → p = t + 1
  top : ∀ t p, (m.stack t).head? = some p → (k.terminals t).pid = p
  apart : Apart m.stack
  running : ∀ p, k.processesRunning p = true ↔ ∃ t, p ∈ m.stack t
  on : ∀ t, k.isOn t = true ↔ m.stack t ≠ []
  saved : ∀ t ≠ m.current, ∀ p, (m.stack t).head? = some p →
    getPcbAddress (k.terminals t).esp = pcbAddr p
  cpu : k.cpu = pcbAddr (runningPid m)
  tss : k.tssEsp0 = endKmem - runningPid m * kernelMemSize
  user : runningPid m ≠ 0 → k.paging.pageDirectory userMemLocation = userEntry (some (runningPid m))
  order : ∃ n ≤ 3, (∀ t, m.stack t ≠ [] ↔ (t : Nat) < n) ∧
    (n < 3 → ((m.current + 1 : TermId) : Nat) = n ∧ ∀ t, (m.stack t).length ≤ 1)

section Facts

variable {tr : List (ProcEvent × Seen)} {k k' : Kernel} {m : Machine TermId Nat} {t : TermId}
  {p q : Nat} {l : List Nat}

theorem represents_boot {k₀ : Kernel} (h : SameButScreen (bootState k₀) k) :
    Represents k threadStart where
  current := by
    rw [h.currentTerm_eq]
    rfl
  chain _ := List.isChain_nil
  root _ _ hp := by cases hp
  top _ _ hp := by cases hp
  apart := ⟨fun _ => List.nodup_nil, fun _ _ _ hp => by cases hp⟩
  running p := by
    rw [h.running_eq]
    exact iff_of_false Bool.false_ne_true fun ⟨_, hp⟩ => by cases hp
  on t := by
    rw [h.isOn_eq]
    exact iff_of_false Bool.false_ne_true fun hp => hp rfl
  saved _ _ _ hp := by cases hp
  cpu := h.cpu_eq
  tss := h.tssEsp0_eq
  user hp := absurd rfl hp
  order := ⟨0, by omega, fun t => iff_of_false (fun hp => hp rfl) (by omega),
    fun _ => ⟨rfl, fun _ => Nat.zero_le 1⟩⟩

/-- The running process is on top of the current stack. -/
theorem stack_eq_cons (hne : m.stack m.current ≠ []) :
    ∃ l, m.stack m.current = runningPid m :: l := by
  obtain ⟨a, l, ha⟩ := List.exists_cons_of_ne_nil hne
  refine ⟨l, ?_⟩
  rw [runningPid, ha]
  rfl

theorem runningPid_mem (hne : m.stack m.current ≠ []) : runningPid m ∈ m.stack m.current := by
  obtain ⟨l, hst⟩ := stack_eq_cons hne
  exact List.mem_of_mem_head? (by rw [hst]; rfl)

theorem head_eq_runningPid (hne : m.stack m.current ≠ []) :
    (m.stack m.current).head? = some (runningPid m) := by
  obtain ⟨l, hst⟩ := stack_eq_cons hne
  rw [hst]
  rfl

/-- Which terminals are on, once one that is on gets a new stack. -/
theorem or_ne_nil_iff {c : TermId} {n : Nat} (hiff : ∀ t, m.stack t ≠ [] ↔ (t : Nat) < n)
    (hc : m.stack c ≠ []) (t : TermId) : t = c ∨ m.stack t ≠ [] ↔ (t : Nat) < n := by
  rw [← hiff t]
  exact or_iff_right_of_imp fun ht => ht ▸ hc

namespace Represents

variable (h : Represents k m)
include h

/-- A process on a stack is one that was started. -/
theorem pcbOk (hm : Made tr k) (hp : p ∈ m.stack t) :
    ∃ l, lastStart tr p = some l ∧ PcbOk k p l := by
  obtain ⟨l, hl⟩ := Option.ne_none_iff_exists'.1 (hm.running p ((h.running p).2 ⟨t, hp⟩))
  exact ⟨l, hl, hm.pcb p l hl⟩

/-- Every terminal that is on has its root shell. -/
theorem root_mem (ht : m.stack t ≠ []) : (t : Nat) + 1 ∈ m.stack t := by
  obtain ⟨a, ha⟩ := List.getLast?_isSome.2 ht |> Option.isSome_iff_exists.1
  rw [← h.root t a ha]
  exact List.mem_of_getLast? ha

/-- The slot of the root shell of a terminal that is on is taken. -/
theorem root_running (h₁ : 1 ≤ p) (h₃ : p ≤ 3)
    (hne : ∀ t : TermId, (t : Nat) + 1 = p → m.stack t ≠ []) : k.processesRunning p = true := by
  have ht : p - 1 + 1 = p := Nat.sub_add_cancel h₁
  have hmem := h.root_mem (hne ⟨p - 1, by omega⟩ ht)
  exact (h.running p).2 ⟨_, ht ▸ hmem⟩

/-- A process id up to 3 is the root shell of its terminal. -/
theorem eq_root (hp : p ∈ m.stack t) (h₃ : p ≤ 3) : p = t + 1 :=
  h.root t p (getLast_of_mem (h.chain t) hp fun q hl => by have := hl.user; omega)

end Represents

end Facts

/-! ## Starting a program -/

section Start

variable {tr : List (ProcEvent × Seen)} {k k₁ k' : Kernel} {m : Machine TermId Nat}
  {p q sp pid : Nat} {l : List Nat}

/-- Links between other processes stay. -/
theorem Started.link_of_ne (hs : Started sp pid k₁ k') (hpcb : k₁.pcbMem = k.pcbMem) (hp : p ≤ 6)
    (hne : p ≠ pid) (h : Link k p q) : Link k' p q := by
  have hsame : k'.pcbMem (pcbAddr p) = k.pcbMem (pcbAddr p) := by
    rw [hs.pcbMem_of_ne hp hne, hpcb]
  exact ⟨h.user, ⟨hsame ▸ h.parent.addr, hsame ▸ h.parent.id⟩, hsame ▸ h.frame⟩

/-- The new process is linked to the one whose stack the call was made on. -/
theorem Started.link (hs : Started sp pid k₁ k') (h₃ : 3 < pid) (hq : q ≤ 6)
    (hsp : getPcbAddress sp = pcbAddr q) : Link k' pid q := by
  refine ⟨h₃, hs.hasParent h₃ hq hsp, ?_⟩
  have := (hs.pcbOk (e := .tick 0) (o := ⟨.failed, 0, 0, sp⟩) rfl).frame
  rw [this]
  exact hsp

/-- What a step leaves behind that makes `q :: l` the call stack of terminal `c`, makes `c` the
current terminal, and keeps the other stacks. -/
structure Restacks (m : Machine TermId Nat) (k k' : Kernel) (c : TermId) (q : Nat)
    (l : List Nat) : Prop where
  current : k'.currentTerm = c
  chain : (q :: l).IsChain (Link k')
  root : ∀ p, (q :: l).getLast? = some p → p = c + 1
  nodup : (q :: l).Nodup
  fresh : ∀ p ∈ q :: l, ∀ t ≠ c, p ∉ m.stack t
  running : ∀ p, k'.processesRunning p = true ↔ (∃ t ≠ c, p ∈ m.stack t) ∨ p ∈ q :: l
  on : k'.isOn c = true
  pid : (k'.terminals c).pid = q
  cpu : k'.cpu = pcbAddr q
  tss : k'.tssEsp0 = endKmem - q * kernelMemSize
  user : k'.paging.pageDirectory userMemLocation = userEntry (some q)
  order : ∃ n ≤ 3, (∀ t, t = c ∨ m.stack t ≠ [] ↔ (t : Nat) < n) ∧
    (n < 3 → ((c + 1 : TermId) : Nat) = n ∧ l = [] ∧ ∀ t, (m.stack t).length ≤ 1)
  chains : ∀ t ≠ c, (m.stack t).IsChain (Link k')
  others : ∀ t ≠ c, k'.isOn t = k.isOn t ∧ (k'.terminals t).pid = (k.terminals t).pid ∧
    ∀ p, (m.stack t).head? = some p → getPcbAddress (k'.terminals t).esp = pcbAddr p

theorem Restacks.represents {c : TermId} (hr : Restacks m k k' c q l) (h : Represents k m) :
    Represents k' ⟨Function.update m.stack c (q :: l), c⟩ := by
  have htop : runningPid ⟨Function.update m.stack c (q :: l), c⟩ = q := by
    change (Function.update m.stack c (q :: l) c).headD 0 = q
    rw [Function.update_self]
    rfl
  -- what holds of the new stack of `c` and of the old one of every other terminal
  have hall {P : TermId → List Nat → Prop} (hc : P c (q :: l)) (h : ∀ t ≠ c, P t (m.stack t)) :
      ∀ t, P t (Function.update m.stack c (q :: l) t) :=
    (Function.forall_update_iff m.stack P).2 ⟨hc, h⟩
  exact
    { current := hr.current
      chain := hall hr.chain hr.chains
      root := hall (P := fun t s => ∀ p, s.getLast? = some p → p = t + 1) hr.root
        fun t _ => h.root t
      top := by
        refine hall (P := fun t s => ∀ p, s.head? = some p → (k'.terminals t).pid = p) ?_ ?_
        · intro p hp
          exact hr.pid.trans (Option.some.inj hp)
        · intro t ht p hp
          rw [(hr.others t ht).2.1]
          exact h.top t p hp
      apart := h.apart.update hr.nodup hr.fresh
      running := by
        intro p
        rw [hr.running, Function.exists_update_iff m.stack fun _ s => p ∈ s, or_comm]
      on := by
        refine hall (P := fun t s => k'.isOn t = true ↔ s ≠ []) ?_ fun t ht => ?_
        · exact iff_of_true hr.on (List.cons_ne_nil _ _)
        · rw [(hr.others t ht).1]
          exact h.on t
      saved := by
        intro t ht p hp
        change (Function.update m.stack c (q :: l) t).head? = some p at hp
        rw [Function.update_of_ne ht] at hp
        exact (hr.others t ht).2.2 p hp
      cpu := by
        rw [htop]
        exact hr.cpu
      tss := by
        rw [htop]
        exact hr.tss
      user := by
        intro _
        rw [htop]
        exact hr.user
      order := by
        obtain ⟨n, hn, hiff, hsmall⟩ := hr.order
        refine ⟨n, hn, ?_, fun hlt => ?_⟩
        · refine hall (P := fun t s => s ≠ [] ↔ (t : Nat) < n) ?_ fun t ht => ?_
          · exact iff_of_true (List.cons_ne_nil _ _) ((hiff c).1 (.inl rfl))
          · rw [← hiff t]
            exact (or_iff_right ht).symm
        · obtain ⟨hnext, rfl, hlen⟩ := hsmall hlt
          exact ⟨hnext, hall (P := fun _ s => s.length ≤ 1) (Nat.le_refl 1) fun t _ => hlen t⟩ }

/-- What the new current stack is made of: nothing, for a root shell, or the stack of the caller. -/
inductive NewBase (m : Machine TermId Nat) (c : TermId) (sp pid : Nat) : List Nat → Prop
  | root : pid = c + 1 → NewBase m c sp pid []
  | call {q : Nat} {l : List Nat} : 3 < pid → m.stack c = q :: l →
      getPcbAddress sp = pcbAddr q → NewBase m c sp pid (q :: l)

theorem NewBase.sub {c : TermId} (h : NewBase m c sp pid l) (hp : p ∈ l) : p ∈ m.stack c := by
  cases h with
  | root => cases hp
  | call _ hst => exact hst ▸ hp

/-- **A program starts**, on top of the stack `l`, on the terminal that is current in `k₁`. -/
theorem Represents.start (hm : Made tr k) (h : Represents k m) (hs : Started sp pid k₁ k')
    (hpcb : k₁.pcbMem = k.pcbMem) (hbase : NewBase m k₁.currentTerm sp pid l)
    (hrun : ∀ p, k₁.processesRunning p = true ↔
      (∃ t ≠ k₁.currentTerm, p ∈ m.stack t) ∨ p ∈ l)
    (hother : ∀ t ≠ k₁.currentTerm, k₁.isOn t = k.isOn t ∧
      (k₁.terminals t).pid = (k.terminals t).pid ∧
      ∀ p, (m.stack t).head? = some p → getPcbAddress (k₁.terminals t).esp = pcbAddr p)
    (hon : k₁.isOn k₁.currentTerm = true)
    (horder : ∃ n ≤ 3, (∀ t, t = k₁.currentTerm ∨ m.stack t ≠ [] ↔ (t : Nat) < n) ∧
      (n < 3 → ((k₁.currentTerm + 1 : TermId) : Nat) = n ∧ l = [] ∧
        ∀ t, (m.stack t).length ≤ 1)) :
    Represents k' ⟨Function.update m.stack k₁.currentTerm (pid :: l), k₁.currentTerm⟩ := by
  obtain ⟨hfree, h₁, h₆, -⟩ := freeSlot_eq_some.1 hs.free
  have hnew (t : TermId) (ht : t ≠ k₁.currentTerm) : pid ∉ m.stack t := fun hp => by
    rw [(hrun pid).2 (.inl ⟨t, ht, hp⟩)] at hfree
    cases hfree
  have hnewl : pid ∉ l := fun hp => by
    rw [(hrun pid).2 (.inr hp)] at hfree
    cases hfree
  have hle {t : TermId} {p : Nat} (hp : p ∈ m.stack t) : p ≤ 6 := by
    obtain ⟨_, _, hok⟩ := h.pcbOk hm hp
    exact hok.le
  -- Chains that the new process is not on stay chains.
  have hchain {l' : List Nat} {t : TermId} (hc : l'.IsChain (Link k))
      (hsub : ∀ p ∈ l', p ∈ m.stack t)
      (hp : pid ∉ l') : l'.IsChain (Link k') :=
    hc.imp_of_mem_imp fun a b ha _ hab =>
      hs.link_of_ne hpcb (hle (hsub a ha)) (ne_of_mem_of_not_mem ha hp) hab
  have hr : Restacks m k k' k₁.currentTerm pid l :=
    { current := hs.currentTerm
      chain := by
        cases hbase with
        | root => exact List.isChain_singleton _
        | call h₃ hst hsp =>
          refine List.isChain_cons_cons.2 ⟨hs.link h₃ (hle (hst ▸ List.mem_cons_self)) hsp, ?_⟩
          exact hchain (hst ▸ h.chain k₁.currentTerm) (fun p hp => hst ▸ hp) hnewl
      root := by
        intro p hp
        cases hbase with
        | root hpid => exact (Option.some.inj hp).symm.trans hpid
        | call _ hst =>
          rw [List.getLast?_cons_cons, ← hst] at hp
          exact h.root _ p hp
      nodup := by
        refine List.nodup_cons.2 ⟨hnewl, ?_⟩
        cases hbase with
        | root => exact List.nodup_nil
        | call _ hst => exact hst ▸ h.apart.nodup k₁.currentTerm
      fresh := by
        intro p hp t ht hpt
        rcases List.mem_cons.1 hp with rfl | hp
        · exact hnew t ht hpt
        · exact ht (h.apart.unique t _ p hpt (hbase.sub hp))
      running := by
        intro p
        rw [hs.processesRunning]
        by_cases hp : p = pid
        · subst hp
          rw [Function.update_self]
          exact iff_of_true rfl (.inr List.mem_cons_self)
        · rw [Function.update_of_ne hp, hrun, List.mem_cons, or_iff_right hp]
      on := by rw [hs.isOn, hon]
      pid := by rw [hs.terminals_pid, if_pos rfl]
      cpu := hs.cpu
      tss := hs.tssEsp0
      user := hs.user_entry
      order := horder
      chains := fun t ht => hchain (h.chain t) (fun _ => id) (hnew t ht)
      others := by
        intro t ht
        obtain ⟨hon', hpid, hesp⟩ := hother t ht
        rw [hs.isOn, hs.terminals_pid, if_neg ht, hs.terminals_esp]
        exact ⟨hon', hpid, hesp⟩ }
  exact hr.represents h

end Start

/-! ## The other steps -/

section Step

variable {im : Image} {tr : List (ProcEvent × Seen)} {e : ProcEvent} {o : Seen} {k k' : Kernel}
  {m : Machine TermId Nat} {t : TermId} {p q r sp pid depth : Nat} {l : List Nat}
  {out : Output} {status : UInt8}

theorem Link.of_same (h : Link k p q)
    (hs : SameLinks (k.pcbMem (pcbAddr p)) (k'.pcbMem (pcbAddr p))) :
    Link k' p q :=
  ⟨h.user, ⟨hs.parent.trans h.parent.addr, hs.parentProcessId.trans h.parent.id⟩, by
    rw [hs.parentEsp]
    exact h.frame⟩

namespace Represents

variable (h : Represents k m)
include h

/-- Printing. -/
theorem screen (hs : SameButScreen k k') : Represents k' m where
  current := hs.currentTerm_eq.trans h.current
  chain t := (h.chain t).imp fun a b hab => hab.of_same (hs.pcbMem_eq ▸ .refl _)
  root := h.root
  top t p hp := (hs.pid_eq t).trans (h.top t p hp)
  apart := h.apart
  running p := by
    rw [hs.running_eq]
    exact h.running p
  on t := by
    rw [hs.isOn_eq]
    exact h.on t
  saved t ht p hp := by
    rw [hs.esp_eq]
    exact h.saved t ht p hp
  cpu := hs.cpu_eq.trans h.cpu
  tss := hs.tssEsp0_eq.trans h.tss
  user hp := by
    rw [hs.paging_eq]
    exact h.user hp
  order := h.order

/-- The process of a terminal that is on. -/
theorem runningPid_pos (hm : Made tr k) (hne : m.stack m.current ≠ []) :
    1 ≤ runningPid m ∧ runningPid m ≤ 6 := by
  obtain ⟨_, -, hok⟩ := h.pcbOk hm (runningPid_mem hne)
  exact ⟨hok.ge, hok.le⟩

/-- The running process has a stack, once a terminal is on. -/
theorem current_ne_nil (hcpu : k.cpu ≠ pcbAddr 0) : m.stack m.current ≠ [] := fun hc =>
  hcpu (by rw [h.cpu, runningPid, hc]; rfl)

/-- A call that arrives now arrives on the kernel stack of the running process. -/
theorem caller_pcb (hm : Made tr k) (hne : m.stack m.current ≠ []) (hd : depth < 0x1FFF) :
    getPcbAddress (k.sp depth) = pcbAddr (runningPid m) :=
  getPcbAddress_sp h.tss (h.runningPid_pos hm hne).2 hd

/-- What the terminals' saved stack pointers are after a tick has stored its own. -/
theorem saved_tick (hm : Made tr k) (hd : depth < 0x1FFF) (t : TermId)
    (hp : (m.stack t).head? = some p) :
    getPcbAddress ((k.saveEspEbp (k.sp depth)).terminals t).esp = pcbAddr p := by
  by_cases ht : t = k.currentTerm
  · have hne : m.stack m.current ≠ [] := fun hc => by
      rw [ht, h.current, hc] at hp
      cases hp
    have hpid : p = runningPid m := by
      rw [ht, h.current, head_eq_runningPid hne] at hp
      exact (Option.some.inj hp).symm
    rw [ht, hpid]
    simp only [Kernel.saveEspEbp, Function.update_self]
    exact h.caller_pcb hm hne hd
  · simp only [Kernel.saveEspEbp, Function.update_of_ne ht]
    exact h.saved t (h.current ▸ ht) p hp

/-- **The timer resumes the next terminal.** -/
theorem switch (hm : Made tr k) (hd : depth < 0x1FFF) (hon : k.isOn (k.currentTerm + 1) = true) :
    Represents (switchTo (k.currentTerm + 1) (k.terminals (k.currentTerm + 1)).pid
      (scheduled (k.sp depth) k)) { m with current := m.current + 1 } := by
  have hne : m.stack (k.currentTerm + 1) ≠ [] := (h.on _).1 hon
  obtain ⟨q, l, hst⟩ := List.exists_cons_of_ne_nil hne
  have hhead : (m.stack (k.currentTerm + 1)).head? = some q := by
    rw [hst]
    rfl
  have hpid : (k.terminals (k.currentTerm + 1)).pid = q := h.top _ _ hhead
  obtain ⟨_, -, hok⟩ := h.pcbOk hm (List.mem_of_mem_head? hhead)
  have hchain (t : TermId) : (m.stack t).IsChain (Link (switchTo (k.currentTerm + 1) q
      (scheduled (k.sp depth) k))) := by
    refine (h.chain t).imp fun a b hab => hab.of_same ?_
    rw [switchTo_pcbMem, scheduled_pcbMem]
    exact .refl _
  rw [hpid]
  have hr : Restacks m k (switchTo (k.currentTerm + 1) q (scheduled (k.sp depth) k))
      (k.currentTerm + 1) q l :=
    { current := by rw [switchTo_currentTerm, scheduled_currentTerm]
      chain := hst ▸ hchain _
      root := by
        intro p hp
        exact h.root _ p (hst ▸ hp)
      nodup := hst ▸ h.apart.nodup _
      fresh := by
        intro p hp t ht hpt
        exact ht (h.apart.unique t _ p hpt (hst ▸ hp))
      running := by
        intro p
        rw [switchTo_running, scheduled_running, h.running, ← hst]
        exact exists_mem_iff m.stack (k.currentTerm + 1)
      on := by rw [switchTo_isOn, scheduled_isOn, hon]
      pid := by rw [switchTo_terminals, scheduled_terminals, saveEspEbp_pid, hpid]
      cpu := by
        rw [switchTo, scheduled_terminals]
        exact h.saved_tick hm hd _ hhead
      tss := rfl
      user := changeProcess_user (scheduled (k.sp depth) k) hok.ge hok.le
      order := by
        obtain ⟨n, hn, hiff, hsmall⟩ := h.order
        refine ⟨n, hn, or_ne_nil_iff hiff hne, fun hlt => ?_⟩
        have := (hiff (k.currentTerm + 1)).1 hne
        have := (hsmall hlt).1
        rw [← h.current] at this
        omega
      chains := fun t _ => hchain t
      others := by
        intro t _
        rw [switchTo_isOn, scheduled_isOn, switchTo_terminals, scheduled_terminals, saveEspEbp_pid]
        exact ⟨rfl, rfl, fun p hp => h.saved_tick hm hd t hp⟩ }
  have hrep := hr.represents h
  rw [← hst, Function.update_eq_self, h.current] at hrep
  rw [h.current]
  exact hrep

/-- Below the base process there is nothing. -/
theorem stack_root (hp : p ≤ 3) (hst : m.stack t = p :: l) : l = [] := by
  cases l with
  | nil => rfl
  | cons q l =>
    have := (List.isChain_cons_cons.1 (hst ▸ h.chain t)).1.user
    omega

/-- Before all terminals are on, each of those that are has its base process alone. -/
theorem stack_early (hlen : ∀ t, (m.stack t).length ≤ 1) (hp : p ∈ m.stack t) :
    p = t + 1 := by
  refine h.root t p ?_
  have := hlen t
  match hst : m.stack t with
  | [] =>
    rw [hst] at hp
    cases hp
  | [q] =>
    rw [hst, List.mem_singleton] at hp
    rw [hp]
    rfl
  | _ :: _ :: _ =>
    rw [hst] at this
    simp at this

/-- While the next terminal is off, the process id that it was given at boot is the first free
slot. -/
theorem freeSlot_shell (hoff : m.stack (m.current + 1) = []) :
    freeSlot k = some (((m.current + 1 : TermId) : Nat) + 1) := by
  obtain ⟨n, hn, hiff, hsmall⟩ := h.order
  have hge : n ≤ (m.current + 1 : TermId) := Nat.not_lt.1 fun hlt => (hiff _).2 hlt hoff
  obtain ⟨hnext, hlen⟩ := hsmall (lt_of_le_of_lt hge (m.current + 1).isLt)
  refine freeSlot_eq_some.2 ⟨Bool.eq_false_iff.2 fun hr => ?_, by omega,
    by have := (m.current + 1).isLt; omega, fun i h₁ hi => ?_⟩
  · obtain ⟨t, ht⟩ := (h.running _).1 hr
    have := h.stack_early hlen ht
    have := (hiff t).1 (List.ne_nil_of_mem ht)
    omega
  · exact h.root_running h₁ (by omega) fun t ht => (hiff t).2 (by omega)

/-- **The timer starts the shell of the next terminal.** -/
theorem startShell (hm : Made tr k) (hd : depth < 0x1FFF) (hoff : m.stack (m.current + 1) = [])
    (hs : Started (k.sp depth) (((m.current + 1 : TermId) : Nat) + 1)
      ((scheduled (k.sp depth) k).turnOn (k.currentTerm + 1)) k') :
    Represents k' ⟨Function.update m.stack (m.current + 1) [((m.current + 1 : TermId) : Nat) + 1],
      m.current + 1⟩ := by
  obtain ⟨n, hn, hiff, hsmall⟩ := h.order
  have hge : n ≤ (m.current + 1 : TermId) := Nat.not_lt.1 fun hlt => (hiff _).2 hlt hoff
  have hlt : n < 3 := lt_of_le_of_lt hge (m.current + 1).isLt
  obtain ⟨hnext, hlen⟩ := hsmall hlt
  have hcur : ((scheduled (k.sp depth) k).turnOn (k.currentTerm + 1)).currentTerm =
      m.current + 1 := by rw [turnOn_currentTerm, scheduled_currentTerm, h.current]
  have hbase : NewBase m ((scheduled (k.sp depth) k).turnOn (k.currentTerm + 1)).currentTerm
      (k.sp depth) (((m.current + 1 : TermId) : Nat) + 1) [] := .root (by rw [hcur])
  have hrep := h.start hm hs (by rw [turnOn_pcbMem, scheduled_pcbMem]) hbase (fun p => ?_)
    (fun t ht => ?_) ?_ ⟨n + 1, hlt, fun t => ?_, fun hlt' => ⟨?_, rfl, hlen⟩⟩
  · rw [hcur] at hrep
    exact hrep
  · rw [hcur, turnOn_running, scheduled_running, h.running]
    constructor
    · rintro ⟨t, hp⟩
      refine .inl ⟨t, fun hc => ?_, hp⟩
      rw [hc, hoff] at hp
      cases hp
    · rintro (⟨t, -, hp⟩ | hp)
      · exact ⟨t, hp⟩
      · cases hp
  · rw [hcur, ← h.current] at ht
    rw [turnOn_isOn, scheduled_isOn, Function.update_of_ne ht, turnOn_terminals,
      scheduled_terminals, saveEspEbp_pid]
    exact ⟨rfl, rfl, fun p hp => h.saved_tick hm hd t hp⟩
  · rw [hcur, turnOn_isOn, h.current, Function.update_self]
  · rw [hcur, hiff]
    constructor
    · rintro (rfl | ht) <;> omega
    · intro ht
      by_cases hc : (t : Nat) = n
      · exact .inl (Fin.ext (hc.trans hnext.symm))
      · exact .inr (by omega)
  · rw [hcur, Fin.val_add, hnext]
    change (n + 1) % 3 = n + 1
    omega

/-- **A program calls `execute`**, when all terminals are on: it gets an id above 3. -/
theorem call (hm : Made tr k) (hd : depth < 0x1FFF) (hall : ∀ t, k.isOn t = true)
    (hs : Started (k.sp depth) pid k k') :
    3 < pid ∧ Represents k' { m with stack := push m.current pid m.stack } := by
  have hne (t : TermId) : m.stack t ≠ [] := (h.on t).1 (hall t)
  have h₃ : 3 < pid := by
    obtain ⟨hfree, h₁, -, -⟩ := freeSlot_eq_some.1 hs.free
    by_contra hc
    rw [h.root_running h₁ (by omega) fun t _ => hne t] at hfree
    cases hfree
  obtain ⟨l, hst⟩ := stack_eq_cons (hne m.current)
  have hsp := h.caller_pcb hm (hne m.current) hd
  refine ⟨h₃, ?_⟩
  rw [push, ← h.current]
  rw [← h.current] at hst
  have hrep := h.start hm hs rfl (.call h₃ hst hsp) (fun p => ?_)
    (fun t ht => ⟨rfl, rfl, h.saved t (h.current ▸ ht)⟩) (hall _)
    ⟨3, le_rfl, fun t => iff_of_true (.inr (hne t)) t.isLt, fun hlt => by omega⟩
  · rw [hst]
    exact hrep
  · rw [h.running, ← hst]
    exact exists_mem_iff m.stack k.currentTerm

/-- Which processes run once the top of a stack has ended. -/
theorem running_without (hst : m.stack c = q :: l) (p : Nat) :
    Function.update k.processesRunning q false p = true ↔ (∃ t ≠ c, p ∈ m.stack t) ∨ p ∈ l := by
  have hnd : q ∉ l := (List.nodup_cons.1 (hst ▸ h.apart.nodup c)).1
  by_cases hp : p = q
  · rw [hp, Function.update_self]
    refine iff_of_false Bool.false_ne_true ?_
    rintro (⟨t, ht, hqt⟩ | hql)
    · exact ht (h.apart.unique t c q hqt (hst ▸ List.mem_cons_self))
    · exact hnd hql
  · rw [Function.update_of_ne hp, h.running, exists_mem_iff m.stack c, hst, List.mem_cons,
      or_iff_right hp]

/-- **The shell of a terminal ends**, and is started again in its own slot. -/
theorem restart (hm : Made tr k) (hne : m.stack m.current ≠ []) (h₃ : runningPid m ≤ 3)
    (hs : Started sp pid (closedBase (runningPid m) k) k') :
    pid = runningPid m ∧ pid = k.currentTerm + 1 ∧ Represents k' m := by
  obtain ⟨l, hst⟩ := stack_eq_cons hne
  generalize runningPid m = q at hst hs h₃ ⊢
  obtain rfl := h.stack_root h₃ hst
  rw [← h.current] at hst
  have hroot : q = k.currentTerm + 1 := h.eq_root (hst ▸ List.mem_singleton_self q) h₃
  obtain ⟨n, hn, hiff, hsmall⟩ := h.order
  have hon : m.stack k.currentTerm ≠ [] := hst ▸ List.cons_ne_nil q []
  have hpid : pid = q := by
    obtain ⟨hfree, h₁, -, hleast⟩ := freeSlot_eq_some.1 hs.free
    rw [closedBase_running] at hfree hleast
    by_contra hc
    rcases Nat.lt_or_gt_of_ne hc with hpq | hpq
    · have hlt := (hiff _).1 hon
      rw [Function.update_of_ne hc,
        h.root_running h₁ (by omega) fun t ht => (hiff t).2 (by omega)] at hfree
      cases hfree
    · have := hleast q (by omega) hpq
      rw [Function.update_self] at this
      cases this
  refine ⟨hpid, hpid.trans hroot, ?_⟩
  have hcur : (closedBase q k).currentTerm = k.currentTerm := closedBase_currentTerm q k
  have hrep := h.start (l := []) hm hs (closedBase_pcbMem q k)
    (.root (hcur.symm ▸ hpid.trans hroot)) (fun p => ?_) (fun t _ => ⟨by rw [closedBase_isOn],
      closedBase_pid q k t, ?_⟩) ?_ ⟨n, hn, fun t => ?_, fun hlt' => ⟨?_, rfl, (hsmall hlt').2⟩⟩
  · rw [hcur, hpid, ← hst, Function.update_eq_self, h.current] at hrep
    exact hrep
  · rw [closedBase_running, hcur]
    exact h.running_without hst p
  · intro p hp
    rw [closedBase_esp]
    refine h.saved t ?_ p hp
    rw [← h.current, ← hcur]
    assumption
  · rw [closedBase_isOn, hcur, h.on]
    exact hon
  · rw [hcur]
    exact or_ne_nil_iff hiff hon t
  · rw [hcur, h.current]
    exact (hsmall hlt').1

/-- Below a process that is no base process stands the one that called it. -/
theorem stack_eq_cons_cons (hne : m.stack m.current ≠ []) (h₃ : 3 < runningPid m) :
    ∃ r l, m.stack m.current = runningPid m :: r :: l := by
  obtain ⟨l, hst⟩ := stack_eq_cons hne
  cases l with
  | nil =>
    have := h.root m.current (runningPid m) (by rw [hst]; rfl)
    have := m.current.isLt
    omega
  | cons r l => exact ⟨r, l, hst⟩

/-- **A process ends**, and the one that called it goes on. -/
theorem resume (hm : Made tr k) (hne : m.stack m.current ≠ []) (h₃ : 3 < runningPid m)
    (he : Ended (pcbAddr (runningPid m)) status k out k') :
    Represents k' { m with stack := pop m.current m.stack } ∧
      k'.currentTerm = k.currentTerm ∧
      (k'.terminals k'.currentTerm).pid = (k.pcbMem (pcbAddr (runningPid m))).parentProcessId := by
  obtain ⟨r, l, hst⟩ := h.stack_eq_cons_cons hne h₃
  generalize runningPid m = q at hst he h₃ ⊢
  obtain ⟨hlink, hbelow⟩ := List.isChain_cons_cons.1 (hst ▸ h.chain m.current)
  obtain ⟨_, -, hok⟩ := h.pcbOk hm (t := m.current) (p := q) (by rw [hst]; simp)
  obtain ⟨_, -, hokr⟩ := h.pcbOk hm (t := m.current) (p := r) (by rw [hst]; simp)
  have hcur := he.currentTerm
  have hpid (t : TermId) :
      (k'.terminals t).pid = if t = k.currentTerm then r else (k.terminals t).pid := by
    rw [he.terminals_pid, hlink.parent.id]
  have hnd : (r :: l).Nodup := (List.nodup_cons.1 (hst ▸ h.apart.nodup m.current)).2
  have hkeep {l' : List Nat} (hl : l'.IsChain (Link k)) : l'.IsChain (Link k') :=
    hl.imp fun a b hab => hab.of_same (he.links _)
  have hr : Restacks m k k' m.current r l :=
    { current := hcur.trans h.current
      chain := hkeep hbelow
      root := by
        intro p hp
        refine h.root m.current p ?_
        rw [hst, List.getLast?_cons_cons]
        exact hp
      nodup := hnd
      fresh := by
        intro p hp t ht hpt
        exact ht (h.apart.unique t _ p hpt (hst ▸ List.mem_cons_of_mem q hp))
      running := by
        intro p
        rw [he.processesRunning, hok.processId]
        exact h.running_without hst p
      on := by
        rw [he.isOn, h.on]
        exact hne
      pid := by rw [hpid, h.current, if_pos rfl]
      cpu := he.cpu.trans hlink.frame
      tss := by rw [he.tssEsp0, hlink.parent.id]
      user := by
        rw [he.paging, hlink.parent.id]
        exact changeProcess_user k hokr.ge hokr.le
      order := by
        obtain ⟨n, hn, hiff, hsmall⟩ := h.order
        refine ⟨n, hn, or_ne_nil_iff hiff hne, fun hlt => ?_⟩
        have := (hsmall hlt).2 m.current
        rw [hst] at this
        simp at this
      chains := fun t _ => hkeep (h.chain t)
      others := by
        intro t ht
        rw [he.isOn, hpid, h.current, if_neg ht, he.terminals_esp]
        exact ⟨rfl, rfl, h.saved t ht⟩ }
  refine ⟨?_, hcur, ?_⟩
  · have hrep := hr.represents h
    rwa [pop, hst, List.tail_cons]
  · rw [hcur, hpid, if_pos rfl, hlink.parent.id]

end Represents

/-- An `execute` by a program that would start one, is one that can be loaded, and all terminals
have their shells. -/
def InTurn (im : Image) (k : Kernel) : ProcEvent → Prop
  | .execute _ command => ∀ prog, Accepts im k command prog →
      Fits im prog.inodeNum ∧ ∀ t, k.isOn t = true
  | _ => True

theorem InTurn.completes (h : InTurn im k e) : Completes im k e := by
  cases e with
  | execute depth cmd => exact fun prog ha => (h prog ha).1
  | tick depth => trivial
  | halt depth status => trivial

/-- The process that runs, as the PCB under the running stack names it. -/
theorem Represents.caller (h : Represents k m) (hm : Made tr k) (hne : m.stack m.current ≠ [])
    (ho : o.caller = (k.pcbMem k.cpu).processId) : o.caller = runningPid m := by
  obtain ⟨_, -, hok⟩ := h.pcbOk hm (runningPid_mem hne)
  rw [ho, h.cpu, hok.processId]

theorem represents_tick (him : HasShell im) (hm : Made tr k) (h : Represents k m)
    (hs : procSystem im k (.tick depth) o k') :
    ∃ m', ThreadStep m (.tick depth) o m' ∧ Represents k' m' := by
  have hstep : schedulerNext im (k.sp depth) k = some (o.output, k') := hs.step
  have hd : depth < 0x1FFF := hs.depth
  by_cases hoff : m.stack (m.current + 1) = []
  · have hoff' : k.isOn (k.currentTerm + 1) = false := by
      rw [h.current, Bool.eq_false_iff, Ne, h.on]
      exact not_not_intro hoff
    obtain ⟨k₁, hk₁, hst⟩ := schedulerNext_shell (k.sp depth) him hoff' (h.freeSlot_shell hoff)
    obtain ⟨hout, rfl⟩ := Prod.mk.inj (Option.some.inj (hstep.symm.trans hk₁))
    have hrep := h.startShell hm hd hoff hst
    exact ⟨_, .shell hout hoff (hs.term.trans hrep.current), hrep⟩
  · have hon : k.isOn (k.currentTerm + 1) = true := by
      rw [h.current]
      exact (h.on _).2 hoff
    rcases schedulerNext_cases hstep with ⟨-, hout, rfl⟩ | ⟨hoff', -⟩
    · exact ⟨_, .switch hout hoff, h.switch hm hd hon⟩
    · rw [hon] at hoff'
      cases hoff'

theorem represents_execute {cmd : Option CString} (hm : Made tr k) (h : Represents k m)
    (hturn : InTurn im k (.execute depth cmd)) (hs : procSystem im k (.execute depth cmd) o k') :
    ∃ m', ThreadStep m (.execute depth cmd) o m' ∧ Represents k' m' := by
  obtain ⟨hcpu, hstep⟩ := procStep_execute hs.step
  have hne := h.current_ne_nil hcpu
  rcases callExecute_cases hturn.completes hstep with ⟨hout, hscr⟩ | ⟨pid, prog, hout, hst, hacc⟩
  · exact ⟨m, .failed hout, h.screen hscr⟩
  · obtain ⟨h₃, hrep⟩ := h.call hm hs.depth (hturn prog hacc).2 hst
    refine ⟨_, .call hout h₃ (fun t ht => ?_) hne (hs.term.trans hrep.current)
      (h.caller hm hne hs.caller), hrep⟩
    obtain ⟨hfree, -⟩ := freeSlot_eq_some.1 hst.free
    rw [(h.running pid).2 ⟨t, ht⟩] at hfree
    cases hfree

theorem represents_halt (him : HasShell im) (hm : Made tr k) (h : Represents k m)
    (hs : procSystem im k (.halt depth status) o k') :
    ∃ m', ThreadStep m (.halt depth status) o m' ∧ Represents k' m' := by
  obtain ⟨hcpu, hstep⟩ := procStep_halt hs.step
  have hne := h.current_ne_nil hcpu
  have hsp := h.caller_pcb hm hne (show depth < 0x1FFF from hs.depth)
  obtain ⟨_, -, hok⟩ := h.pcbOk hm (runningPid_mem hne)
  by_cases h₃ : runningPid m ≤ 3
  · obtain ⟨pid, hout, hst⟩ := halt_root_cases him hsp hok.processId hok.ge h₃ hstep
    obtain ⟨hpid, hroot, hrep⟩ := h.restart hm hne h₃ hst
    obtain ⟨l, hstack⟩ := stack_eq_cons hne
    rw [h.current] at hroot
    refine ⟨m, .restart (hout.trans (congrArg Output.started hroot)) ?_
      (hs.term.trans hrep.current) ?_, hrep⟩
    · rw [hstack, h.stack_root h₃ hstack, ← hpid, hroot]
    · rw [h.caller hm hne hs.caller, ← hpid, hroot]
  · have h₃ : 3 < runningPid m := by omega
    rw [halt_of_child (by rw [hsp, hok.processId]; exact h₃), hsp] at hstep
    have hend := haltRest_spec hstep
    exact ⟨_, .resume hend.output h₃ hne, (h.resume hm hne h₃ hend).1⟩

/-- **Every step of the kernel is a step of the call stacks.** -/
theorem represents_step (him : HasShell im) (hm : Made tr k) (h : Represents k m)
    (hs : Guarded (InTurn im) (procSystem im) k e o k') :
    ∃ m', ThreadStep m e o m' ∧ Represents k' m' := by
  cases e with
  | tick depth => exact represents_tick him hm h hs.2
  | execute depth cmd => exact represents_execute hm h hs.1 hs.2
  | halt depth status => exact represents_halt him hm h hs.2

end Step

/-! ## Where processes come from -/

/-- Process `p`, which is no base process, was last started by an `execute` that process `q` called
on terminal `t`. -/
def CalledBy (tr : List (ProcEvent × Seen)) (t : TermId) (p q : Nat) : Prop :=
  3 < p ∧ ∃ depth cmd c, lastStart tr p = some (.execute depth cmd, c) ∧ c.term = t ∧ c.caller = q

/-- The step that `l` describes is a `halt` by process `p` on terminal `t`. -/
def OwnHalt (t : TermId) (p : Nat) (l : ProcEvent × Seen) : Prop :=
  (∃ depth status, l.1 = .halt depth status) ∧ l.2.caller = p ∧ l.2.term = t

/-- `scheduler_next` started process `p` as the shell of terminal `t`, and since then only its own
`halt` has started it again. -/
def RootShell (tr : List (ProcEvent × Seen)) (t : TermId) (p : Nat) : Prop :=
  p = t + 1 ∧ ∃ tr₁ depth o tr₂, tr = tr₁ ++ (.tick depth, o) :: tr₂ ∧ o.output = .started p ∧
    o.term = t ∧ ∀ l ∈ tr₂, l.2.output = .started p → OwnHalt t p l

/-- **The history of the processes on the stacks.** -/
structure Origins (tr : List (ProcEvent × Seen)) (s : Stacks TermId Nat) : Prop where
  called : ∀ t, (s t).IsChain (CalledBy tr t)
  root : ∀ t p, (s t).getLast? = some p → RootShell tr t p

section Origins

variable {tr : List (ProcEvent × Seen)} {e : ProcEvent} {o : Seen} {s : Stacks TermId Nat}
  {m m' : Machine TermId Nat} {t : TermId} {p q pid : Nat} {l : List Nat}

theorem origins_boot : Origins [] threadStart.stack :=
  ⟨fun _ => List.isChain_nil, fun _ _ hp => by cases hp⟩

theorem CalledBy.concat (h : CalledBy tr t p q) (hne : o.output ≠ .started p) :
    CalledBy (tr ++ [(e, o)]) t p q := by
  obtain ⟨h₃, depth, cmd, c, hl, hc⟩ := h
  refine ⟨h₃, depth, cmd, c, ?_, hc⟩
  by_cases hout : ∃ pid, o.output = .started pid
  · obtain ⟨pid, hout⟩ := hout
    have hp : p ≠ pid := fun hp => hne (hout.trans (congrArg _ hp.symm))
    rw [lastStart_concat_started hout, Function.update_of_ne hp]
    exact hl
  · rw [lastStart_concat_of_ne fun pid hp => hout ⟨pid, hp⟩]
    exact hl

theorem RootShell.concat (h : RootShell tr t p) (hne : o.output = .started p → OwnHalt t p (e, o)) :
    RootShell (tr ++ [(e, o)]) t p := by
  obtain ⟨hp, tr₁, depth, o₁, tr₂, rfl, hout, hterm, hlater⟩ := h
  refine ⟨hp, tr₁, depth, o₁, tr₂ ++ [(e, o)], by simp, hout, hterm, fun l hl => ?_⟩
  rcases List.mem_append.1 hl with hl | hl
  · exact hlater l hl
  · rw [List.mem_singleton.1 hl]
    exact hne

/-- A step that starts no process of the stacks again, but by its own `halt`. -/
theorem Origins.concat (h : Origins tr s)
    (hcall : ∀ t p, 3 < p → p ∈ s t → o.output ≠ .started p)
    (hroot : ∀ t, s t ≠ [] → o.output = .started (t + 1) → OwnHalt t (t + 1) (e, o)) :
    Origins (tr ++ [(e, o)]) s where
  called t := (h.called t).imp_of_mem_imp fun a b ha _ hab => hab.concat (hcall t a hab.1 ha)
  root t p hp := (h.root t p hp).concat fun hout => by
    have hpt := (h.root t p hp).1
    rw [hpt] at hout ⊢
    exact hroot t (fun hc => by rw [hc] at hp; cases hp) hout

/-- A step that starts nothing. -/
theorem Origins.concat_of_ne (h : Origins tr s) (hne : ∀ p, o.output ≠ .started p) :
    Origins (tr ++ [(e, o)]) s :=
  h.concat (fun _ p _ _ => hne p) fun _ _ hout => absurd hout (hne _)

/-- Replacing one stack. -/
theorem Origins.update (h : Origins tr s) (hc : l.IsChain (CalledBy tr t))
    (hr : ∀ p, l.getLast? = some p → RootShell tr t p) : Origins tr (Function.update s t l) where
  called u := by
    by_cases hu : u = t
    · rw [hu, Function.update_self]
      exact hc
    · rw [Function.update_of_ne hu]
      exact h.called u
  root u p hp := by
    by_cases hu : u = t
    · rw [hu, Function.update_self] at hp
      exact hu ▸ hr p hp
    · rw [Function.update_of_ne hu] at hp
      exact h.root u p hp

/-- **Every step of the stacks keeps their history.** -/
theorem origins_step (h : Origins tr m.stack) (hs : ThreadStep m e o m') :
    Origins (tr ++ [(e, o)]) m'.stack := by
  cases hs with
  | switch hout => exact h.concat_of_ne fun p => by rw [hout]; nofun
  | failed hout => exact h.concat_of_ne fun p => by rw [hout]; nofun
  | shell hout hst hterm =>
    have hlt := (m.current + 1).isLt
    refine (h.concat (fun t p h₃ _ hp => ?_) fun t ht hp => ?_).update
      (List.isChain_singleton _) fun p hp => ?_
    · rw [hout] at hp
      have := Output.started.inj hp
      omega
    · rw [hout] at hp
      have hc : m.current + 1 = t := Fin.ext (by have := Output.started.inj hp; omega)
      exact absurd hst (hc ▸ ht)
    · obtain rfl := Option.some.inj hp
      exact ⟨rfl, tr, _, o, [], rfl, hout, hterm, fun l hl => by cases hl⟩
  | @call d cmd _ _ hout h₃ hfresh hne hterm hcaller =>
    have h' := h.concat (e := .execute d cmd) (o := o)
      (fun t p _ hmem hp => by
        rw [hout] at hp
        exact hfresh t (Output.started.inj hp ▸ hmem))
      (fun t _ hp => by
        rw [hout] at hp
        have := Output.started.inj hp
        have := t.isLt
        omega)
    obtain ⟨l, hst⟩ := stack_eq_cons hne
    have hold := h'.called m.current
    rw [hst] at hold
    refine h'.update ?_ fun p hp => h'.root m.current p ?_
    · rw [hst]
      refine List.isChain_cons_cons.2 ⟨⟨h₃, d, cmd, o, ?_, hterm, hcaller⟩, hold⟩
      rw [lastStart_concat_started hout, Function.update_self]
    · rw [hst] at hp ⊢
      rwa [List.getLast?_cons_cons] at hp
  | restart hout hst hterm hcaller =>
    refine h.concat (fun t p h₃ _ hp => ?_) fun t _ hp => ?_
    · rw [hout] at hp
      have := Output.started.inj hp
      have := m.current.isLt
      omega
    · rw [hout] at hp
      have hc : m.current = t := Fin.ext (by have := Output.started.inj hp; omega)
      exact hc ▸ ⟨⟨_, _, rfl⟩, hcaller, hterm⟩
  | @resume d status _ _ hout h₃ hne =>
    have h' := h.concat_of_ne (e := .halt d status) (o := o) fun p => by rw [hout]; nofun
    refine h'.update (h'.called m.current).tail fun p hp => h'.root m.current p ?_
    obtain ⟨q, l, hst⟩ := List.exists_cons_of_ne_nil hne
    rw [hst, List.tail_cons] at hp
    rw [hst, List.getLast?_cons, hp]
    rfl

end Origins

/-! ## Parent links -/

/-- The PCB of process `p`, which is no base process, names process `q` as its parent. -/
def ParentLink (k : Kernel) (p q : Nat) : Prop :=
  3 < p ∧ (k.pcbMem (pcbAddr p)).parentProcessId = q

/-- Process `p` is on the chain of parent links from the process of terminal `t`. -/
def OnChain (k : Kernel) (t : TermId) (p : Nat) : Prop :=
  Relation.ReflTransGen (ParentLink k) (k.terminals t).pid p

section Chains

variable {k : Kernel} {m : Machine TermId Nat} {t : TermId} {p q : Nat}

theorem Link.parentLink ⦃p q : Nat⦄ (h : Link k p q) : ParentLink k p q := ⟨h.user, h.parent.id⟩

namespace Represents

variable (h : Represents k m)
include h

theorem rooted (t : TermId) : Rooted (ParentLink k) (m.stack t) where
  chain := (h.chain t).imp Link.parentLink
  unique _ _ _ h₁ h₂ := h₁.2.symm.trans h₂.2
  root a ha b hab := by
    have := h.root t a ha
    have := hab.1
    have := t.isLt
    omega

/-- The stack of a terminal that is on, from its process down. -/
theorem stack_eq (hne : m.stack t ≠ []) : ∃ l, m.stack t = (k.terminals t).pid :: l := by
  obtain ⟨p, l, hst⟩ := List.exists_cons_of_ne_nil hne
  refine ⟨l, ?_⟩
  rw [hst, h.top t p (by rw [hst]; rfl)]

/-- **The stack of a terminal is its chain of parent links.** -/
theorem mem_iff_onChain (hne : m.stack t ≠ []) : p ∈ m.stack t ↔ OnChain k t p := by
  obtain ⟨l, hst⟩ := h.stack_eq hne
  have hroot := h.rooted t
  rw [hst] at hroot ⊢
  exact mem_iff_reach hroot

theorem onChain (hp : p ∈ m.stack t) : OnChain k t p :=
  (h.mem_iff_onChain (List.ne_nil_of_mem hp)).1 hp

theorem last (hne : m.stack t ≠ []) : (m.stack t).getLast? = some ((t : Nat) + 1) := by
  obtain ⟨a, ha⟩ := Option.isSome_iff_exists.1 (List.getLast?_isSome.2 hne)
  rw [ha, h.root t a ha]

end Represents

end Chains

/-! ## Parentage -/

section Parentage

variable {im : Image} {tr : List (ProcEvent × Seen)} {k₀ k k' : Kernel} {o : Seen}

/-- What holds in every run. -/
theorem represents_run (him : HasShell im)
    (h : Run (Guarded (InTurn im) (procSystem im)) (bootState k₀) tr k) :
    Made tr k ∧ ∃ m, Represents k m ∧ Origins tr m.stack := by
  refine h.invariant_history (I := fun tr k => Made tr k ∧ ∃ m, Represents k m ∧
    Origins tr m.stack) ⟨made_boot (.refl _), _, represents_boot (.refl _), origins_boot⟩ ?_
  rintro hist a e o b ⟨hm, m, hrep, horig⟩ hs
  obtain ⟨m', hstep, hrep'⟩ := represents_step him hm hrep hs
  exact ⟨made_step him hm ⟨hs.1.completes, hs.2⟩, m', hrep', origins_step horig hstep⟩

/-- What the stacks say about a running process and where it comes from. -/
theorem Represents.parentage {m : Machine TermId Nat} {p : Nat} (h : Represents k m)
    (ho : Origins tr m.stack) (hp : k.processesRunning p = true) :
    (p ≤ 3 ↔ ∃ t, RootShell tr t p) ∧
      (3 < p → ∃ t q, CalledBy tr t p q ∧ HasParent k p q ∧ OnChain k t p ∧ OnChain k t q) := by
  obtain ⟨t, hmem⟩ := (h.running p).1 hp
  have hlast := h.last (List.ne_nil_of_mem hmem)
  refine ⟨⟨fun h₃ => ?_, fun ⟨u, hu⟩ => ?_⟩, fun h₃ => ?_⟩
  · rw [← h.eq_root hmem h₃] at hlast
    exact ⟨t, ho.root t p hlast⟩
  · have := hu.1
    have := u.isLt
    omega
  · obtain ⟨q, hq, hlink, hcalled⟩ := exists_below (isChain_and (h.chain t) (ho.called t)) hmem
      fun hc => by
        rw [hlast] at hc
        have := Option.some.inj hc
        have := t.isLt
        omega
    exact ⟨t, q, hcalled, hlink.parent, h.onChain hmem, h.onChain hq⟩

/-- **Identity and parentage.** In every run from boot in which programs are started by users
only when all three terminals have their shells: a running process has an id up to 3 exactly
when it is the shell that the scheduler started for some terminal; any other was called by the
process that its PCB names as its parent, on the terminal whose chain both are on; and when the
running process is of the second kind and halts, the terminal's process becomes its caller. -/
theorem process_parentage (him : HasShell im)
    (h : Run (Guarded (InTurn im) (procSystem im)) (bootState k₀) tr k) :
    (∀ p, k.processesRunning p = true →
      (p ≤ 3 ↔ ∃ t, RootShell tr t p) ∧
      (3 < p → ∃ t q, CalledBy tr t p q ∧ HasParent k p q ∧ OnChain k t p ∧ OnChain k t q)) ∧
    ∀ depth status o k', procSystem im k (.halt depth status) o k' → 3 < o.caller →
      k'.currentTerm = k.currentTerm ∧
      CalledBy tr k.currentTerm o.caller (k'.terminals k'.currentTerm).pid := by
  obtain ⟨hm, m, hrep, horig⟩ := represents_run him h
  refine ⟨fun p hp => hrep.parentage horig hp, fun depth status o k' hs h₃ => ?_⟩
  obtain ⟨hcpu, hstep⟩ := procStep_halt hs.step
  have hne := hrep.current_ne_nil hcpu
  have hsp := hrep.caller_pcb hm hne (show depth < 0x1FFF from hs.depth)
  obtain ⟨_, -, hok⟩ := hrep.pcbOk hm (runningPid_mem hne)
  have hcaller := hrep.caller hm hne hs.caller
  rw [hcaller] at h₃ ⊢
  rw [halt_of_child (by rw [hsp, hok.processId]; exact h₃), hsp] at hstep
  obtain ⟨-, hcur, hpid⟩ := hrep.resume hm hne h₃ (haltRest_spec hstep)
  obtain ⟨q, -, hlink, hcalled⟩ := exists_below
    (isChain_and (hrep.chain m.current) (horig.called m.current)) (runningPid_mem hne) fun hc => by
      rw [hrep.last hne] at hc
      have := Option.some.inj hc
      have := m.current.isLt
      omega
  rw [hpid, hlink.parent.id, hrep.current]
  exact ⟨hcur.trans hrep.current, hcalled⟩

/-- After one tick, the first shell executes a second one: process 2 is no shell of a terminal, and
its PCB names no parent. -/
theorem process_parentage_early : ∃ o₁ o₂ k₂,
    Run (Guarded (Completes shellImage) (procSystem shellImage)) (bootState default)
      [(.tick 0, o₁), (.execute 0 (some shell), o₂)] k₂ ∧
    k₂.processesRunning 2 = true ∧
    (¬ ∃ t, RootShell [(.tick 0, o₁), (.execute 0 (some shell), o₂)] t 2) ∧
    o₂.caller = 1 ∧ ¬ HasParent k₂ 2 1 := by
  have him := hasShell_shellImage
  obtain ⟨o₁, k₁, h₁, ho₁, hb₁, hs₁⟩ := booting_tick him (booting_boot (.refl (bootState default)))
    (by omega) (by decide : 0 < 0x1FFF)
  obtain ⟨o₂, k₂, h₂, -, hs₂⟩ := booting_execute him hb₁ (by omega) (by omega)
    (by decide : 0 < 0x1FFF)
  have g₁ : Guarded (Completes shellImage) (procSystem shellImage) (bootState default)
      (.tick 0) o₁ k₁ := ⟨trivial, h₁⟩
  refine ⟨o₁, o₂, k₂, (Run.single g₁).snoc ⟨completes_shell him k₁ 0, h₂⟩, ?_, ?_, ?_, ?_⟩
  · rw [hs₂.processesRunning, Function.update_self]
  · rintro ⟨t, -, tr₁, depth, o, tr₂, htr, hout, -⟩
    have hmem : (ProcEvent.tick depth, o) ∈
        [(ProcEvent.tick 0, o₁), (.execute 0 (some shell), o₂)] := by
      rw [htr]
      simp
    rcases List.mem_cons.1 hmem with hl | hl
    · rw [(Prod.mk.inj hl).2, ho₁] at hout
      cases hout
    · cases (Prod.mk.inj (List.mem_singleton.1 hl)).1
  · rw [h₂.caller, hb₁.cpu]
    exact (hs₁.pcbOk (e := .tick 0) h₁.esp).processId
  · intro hpar
    obtain ⟨prog, hp⟩ := hs₂.pcb
    have haddr := hpar.addr
    rw [hp, Function.update_self] at haddr
    cases haddr

/-- Three ticks, and then the shell of terminal 2 executes a fourth. -/
theorem process_parentage_shell : ∃ o₁ o₂ o₃ o₄ k₄,
    Run (Guarded (InTurn shellImage) (procSystem shellImage)) (bootState default)
      [(.tick 0, o₁), (.tick 0, o₂), (.tick 0, o₃), (.execute 0 (some shell), o₄)] k₄ ∧
    k₄.processesRunning 4 = true ∧
    ∃ t q, CalledBy [(.tick 0, o₁), (.tick 0, o₂), (.tick 0, o₃), (.execute 0 (some shell), o₄)]
      t 4 q ∧ HasParent k₄ 4 q ∧ OnChain k₄ t 4 ∧ OnChain k₄ t q := by
  have him := hasShell_shellImage
  obtain ⟨o₁, o₂, o₃, k₁, k₂, k₃, h₁, h₂, h₃, -, -, -, hb, -⟩ :=
    three_ticks him (booting_boot (.refl (bootState default)))
  obtain ⟨o₄, k₄, h₄, -, hs⟩ := booting_execute him hb (by omega) (by omega)
    (by decide : 0 < 0x1FFF)
  have g₁ : Guarded (InTurn shellImage) (procSystem shellImage) (bootState default)
      (.tick 0) o₁ k₁ := ⟨trivial, h₁⟩
  have g₂ : Guarded (InTurn shellImage) (procSystem shellImage) k₁ (.tick 0) o₂ k₂ := ⟨trivial, h₂⟩
  have g₃ : Guarded (InTurn shellImage) (procSystem shellImage) k₂ (.tick 0) o₃ k₃ := ⟨trivial, h₃⟩
  have hturn : InTurn shellImage k₃ (.execute 0 (some shell)) :=
    fun prog ha => ⟨completes_shell him k₃ 0 prog ha, fun t => (hb.isOn t).2 t.isLt⟩
  have hrun := (((Run.single g₁).snoc g₂).snoc g₃).snoc ⟨hturn, h₄⟩
  have h4 : k₄.processesRunning 4 = true := by rw [hs.processesRunning, Function.update_self]
  exact ⟨o₁, o₂, o₃, o₄, k₄, hrun, h4, ((process_parentage him hrun).1 4 h4).2 (by omega)⟩

end Parentage

/-! ## The scheduling context -/

/-- **The records of the scheduler agree.** -/
structure SchedulingContext (k : Kernel) : Prop where
  distinct : ∀ t u, (k.terminals t).pid = (k.terminals u).pid → t = u
  running : ∀ t, k.processesRunning (k.terminals t).pid = true
  chain : ∀ p, k.processesRunning p = true → ∃! t, OnChain k t p
  acyclic : ∀ t p, OnChain k t p → ¬ Relation.TransGen (ParentLink k) p p
  root : ∀ t p, OnChain k t p → Relation.ReflTransGen (ParentLink k) p ((t : Nat) + 1)
  page : ∀ off < 0x400000, k.paging.translate .user (0x8000000 + off) =
    some (0x800000 + 0x400000 * ((k.terminals k.currentTerm).pid - 1) + off)
  tss : k.tssEsp0 = 0x800000 - 0x2000 * (k.terminals k.currentTerm).pid

section Context

variable {im : Image} {tr : List (ProcEvent × Seen)} {k₀ k₁ k₂ k₃ k k' : Kernel}
  {m : Machine TermId Nat} {e : ProcEvent} {o o₁ o₂ o₃ : Seen} {d₁ d₂ d₃ pid : Nat}

/-- The page of a process. -/
theorem translate_userPage {p : Nat} (h₁ : 1 ≤ p) (h₆ : p ≤ 6)
    (h : k.paging.pageDirectory userMemLocation = userEntry (some p)) {off : Nat}
    (hoff : off < 0x400000) :
    k.paging.translate .user (0x8000000 + off) = some (0x800000 + 0x400000 * (p - 1) + off) := by
  obtain ⟨ha, hl, hf⟩ := userEntry_some ⟨h₁, h₆⟩ .user
  have hdir : X86.dirIndex (0x8000000 + off) = userMemLocation := by
    simp only [X86.dirIndex, userMemLocation]
    omega
  rw [Paging.translate, X86.translate_large (by rw [hdir, h]; exact ha) (by rw [hdir, h]; exact hl),
    hdir, h, hf, userFrame]
  congr 2
  omega

theorem Represents.schedulingContext (hm : Made tr k) (h : Represents k m)
    (hall : ∀ t, k.isOn t = true) : SchedulingContext k := by
  have hne (t : TermId) : m.stack t ≠ [] := (h.on t).1 (hall t)
  have htop (t : TermId) : (k.terminals t).pid ∈ m.stack t := by
    obtain ⟨l, hst⟩ := h.stack_eq (hne t)
    rw [hst]
    exact List.mem_cons_self
  have hcur : (k.terminals k.currentTerm).pid = runningPid m := by
    rw [h.current]
    exact h.top _ _ (head_eq_runningPid (hne _))
  obtain ⟨h₁, h₆⟩ := h.runningPid_pos hm (hne _)
  refine ⟨fun t u htu => h.apart.unique t u _ (htop t) (htu ▸ htop u),
    fun t => (h.running _).2 ⟨t, htop t⟩, fun p hp => ?_, fun t p hp => ?_, fun t p hp => ?_,
    fun off hoff => ?_, ?_⟩
  · obtain ⟨t, ht⟩ := (h.running p).1 hp
    exact ⟨t, h.onChain ht, fun u hu =>
      h.apart.unique u t p ((h.mem_iff_onChain (hne u)).2 hu) ht⟩
  · obtain ⟨l, hst⟩ := h.stack_eq (hne t)
    have hmem := (h.mem_iff_onChain (hne t)).2 hp
    have hroot := h.rooted t
    have hnd := h.apart.nodup t
    rw [hst] at hmem hroot hnd
    exact acyclic hroot hnd hmem
  · exact reach_last (h.rooted t).chain ((h.mem_iff_onChain (hne t)).2 hp) (h.last (hne t))
  · rw [hcur]
    exact translate_userPage h₁ h₆ (h.user (by omega)) hoff
  · rw [hcur, h.tss]
    simp only [endKmem, kernelMemSize]
    omega

/-- No step turns a terminal off. -/
theorem isOn_step (hs : Guarded (Completes im) (procSystem im) k e o k') {t : TermId}
    (ht : k.isOn t = true) : k'.isOn t = true := by
  have hstep := hs.2.step
  cases e with
  | tick depth => exact (procFrame_schedulerNext hstep).isOn t (by rwa [scheduled_isOn])
  | execute depth cmd =>
    rcases callExecute_cases hs.1 (procStep_execute hstep).2 with ⟨-, hscr⟩ | ⟨_, _, -, hst, -⟩
    · rwa [hscr.isOn_eq]
    · rwa [hst.isOn]
  | halt depth status =>
    exact (procFrame_halt (procStep_halt hstep).2).isOn t ht

/-- The tick that starts the first shells. -/
theorem represents_shell (him : HasShell im) (hm : Made tr k) (h : Represents k m)
    (hs : procSystem im k (.tick d₁) o k') (ho : o.output = .started pid) :
    Made (tr ++ [(.tick d₁, o)]) k' ∧ ∃ m', Represents k' m' ∧
      ∀ t, m'.stack t ≠ [] ↔ m.stack t ≠ [] ∨ pid = t + 1 := by
  refine ⟨made_step him hm ⟨trivial, hs⟩, ?_⟩
  obtain ⟨m', hstep, hrep⟩ := represents_tick him hm h hs
  refine ⟨m', hrep, fun t => ?_⟩
  cases hstep with
  | switch hout =>
    rw [ho] at hout
    cases hout
  | shell hout hst =>
    rw [ho] at hout
    have hpid := Output.started.inj hout
    dsimp only
    by_cases ht : t = m.current + 1
    · subst ht
      rw [Function.update_self]
      exact iff_of_true (List.cons_ne_nil _ _) (.inr hpid)
    · rw [Function.update_of_ne ht]
      refine ⟨.inl, fun hor => hor.resolve_right fun hc => ht (Fin.ext ?_)⟩
      omega

/-- **The scheduling context.** Once the first three ticks have started shells 1, 2 and 3, the
process table, the terminals' processes, the parent links, the page directory and the TSS agree
after every sequence of ticks, calls of `execute` and calls of `halt`. -/
theorem scheduling_context (h₁ : procSystem im (entry k₀) (.tick d₁) o₁ k₁)
    (ho₁ : o₁.output = .started 1) (h₂ : procSystem im k₁ (.tick d₂) o₂ k₂)
    (ho₂ : o₂.output = .started 2) (h₃ : procSystem im k₂ (.tick d₃) o₃ k₃)
    (ho₃ : o₃.output = .started 3)
    (h : Run (Guarded (Completes im) (procSystem im)) k₃ tr k) : SchedulingContext k := by
  have him := hasShell_of_tick h₁ ho₁
  have hboot := sameButScreen_entry k₀
  obtain ⟨hm₁, m₁, hr₁, hst₁⟩ :=
    represents_shell him (made_boot hboot) (represents_boot hboot) h₁ ho₁
  obtain ⟨hm₂, m₂, hr₂, hst₂⟩ := represents_shell him hm₁ hr₁ h₂ ho₂
  obtain ⟨hm₃, m₃, hr₃, hst₃⟩ := represents_shell him hm₂ hr₂ h₃ ho₃
  have hall (t : TermId) : k₃.isOn t = true := by
    rw [hr₃.on, hst₃, hst₂, hst₁]
    have := t.isLt
    have : (t : Nat) = 0 ∨ (t : Nat) = 1 ∨ (t : Nat) = 2 := by omega
    rcases this with ht | ht | ht <;> simp [ht]
  obtain ⟨hist, hm, m, hrep, hon⟩ := h.invariant
    (I := fun k => ∃ hist, Made hist k ∧ ∃ m, Represents k m ∧ ∀ t, k.isOn t = true)
    ⟨_, hm₃, m₃, hr₃, hall⟩ (by
      rintro a e o b ⟨hist, hm, m, hrep, hon⟩ hs
      have hturn : InTurn im a e := by
        cases e with
        | execute depth cmd => exact fun prog ha => ⟨hs.1 prog ha, hon⟩
        | tick depth => trivial
        | halt depth status => trivial
      obtain ⟨m', -, hrep'⟩ := represents_step him hm hrep ⟨hturn, hs.2⟩
      exact ⟨_, made_step him hm hs, m', hrep', fun t => isOn_step hs (hon t)⟩)
  exact hrep.schedulingContext hm hon

/-- The three shells, and then a fourth on terminal 2. -/
theorem scheduling_context_shell : ∃ o₁ o₂ o₃ o₄ k₁ k₂ k₃ k₄,
    procSystem shellImage (entry default) (.tick 0) o₁ k₁ ∧ o₁.output = .started 1 ∧
    procSystem shellImage k₁ (.tick 0) o₂ k₂ ∧ o₂.output = .started 2 ∧
    procSystem shellImage k₂ (.tick 0) o₃ k₃ ∧ o₃.output = .started 3 ∧
    procSystem shellImage k₃ (.execute 0 (some shell)) o₄ k₄ ∧ SchedulingContext k₄ := by
  have him := hasShell_shellImage
  obtain ⟨o₁, o₂, o₃, k₁, k₂, k₃, h₁, h₂, h₃, ho₁, ho₂, ho₃, hb, -⟩ :=
    three_ticks him (booting_boot (sameButScreen_entry default))
  obtain ⟨o₄, k₄, h₄, -, -⟩ := booting_execute him hb (by omega) (by omega)
    (by decide : 0 < 0x1FFF)
  have g₄ : Guarded (Completes shellImage) (procSystem shellImage) k₃
      (.execute 0 (some shell)) o₄ k₄ := ⟨completes_shell him k₃ 0, h₄⟩
  exact ⟨o₁, o₂, o₃, o₄, k₁, k₂, k₃, k₄, h₁, ho₁, h₂, ho₂, h₃, ho₃, h₄,
    scheduling_context h₁ ho₁ h₂ ho₂ h₃ ho₃ (.single g₄)⟩

end Context

end Kernel391

import Kernel391.BackgroundProof
import Kernel391.SchedulerProof

/-!
# User mode: the machine

What a program does, as the machine and the kernel see it: loads and stores through the page
tables, and system calls whose buffers and strings are addresses. The kernel follows a pointer
through the tables of the calling process. `os` is the whole machine, with ticks, keys and page
faults at any time.

The pointers of a call are NULL or lead into the page of the program, with what is behind them. The
kernel checks none of this, and follows a pointer that strays into its own memory: such a call may
do anything at all (`Strays`). A call is one step. One that spins (`read` without a line, or of the
clock) makes its step when it returns.
-/

namespace Kernel391

open Bytes Runs

/-! ## Actions -/

/-- What a program does. The return of an `execute` that started a program is an action of its
own, which the end of that program brings about. -/
inductive Act
  | load (va : Nat)
  | store (va : Nat) (c : UInt8)
  | open (filename : Nat)
  | close (fd : Int)
  | read (fd : Int) (buf : Nat) (nbytes : Int)
  | write (fd : Int) (buf : Nat) (nbytes : Int)
  | getargs (buf : Nat) (nbytes : Int)
  | vidmap (screenStart : UInt32)
  | setHandler (signum : Int) (handlerAddress : Nat)
  | sigreturn
  | execute (command : Nat)
  | executeReturns
  | halt (status : UInt8)
  deriving DecidableEq

/-- What comes of it. -/
inductive Answer
  | done
  | byte (c : UInt8)
  | value (ret : Int)
  /-- A `read` that returned `ret`, and what it read. -/
  | got (ret : Int) (bytes : List UInt8)
  /-- A `write` that returned `ret`, and what it sent to the terminal. -/
  | wrote (ret : Int) (bytes : List UInt8)
  /-- A change of programs. -/
  | went (o : Output)
  deriving DecidableEq

/-! ## Pointers -/

def userPageStart : Nat := 0x8000000

/-- `va` is an address of the page that programs run in. -/
def InUserPage (va : Nat) : Prop := userPageStart ≤ va ∧ va < userPageEnd

instance (va : Nat) : Decidable (InUserPage va) := inferInstanceAs (Decidable (_ ∧ _))

/-- The physical address behind a pointer. -/
def Kernel.pointer (va : Nat) (k : Kernel) : Option Nat :=
  if InUserPage va then k.paging.translate .supervisor va else none

/-- The buffer behind a pointer, NULL being `some none`. -/
def Kernel.buffer (va : Nat) (k : Kernel) : Option (Option Buf) :=
  if va = 0 then some none else (k.pointer va).map fun pa => some fun i => k.phys (pa + i)

/-- The string behind a pointer, if its end is in the page. -/
def Kernel.string (va : Nat) (k : Kernel) : Option (Option CString) :=
  if va = 0 then some none
  else do
    let pa ← k.pointer va
    let bytes := (List.range (userPageEnd - va)).map fun i => k.phys (pa + i)
    if 0 ∈ bytes then some (some (.ofList bytes)) else none

/-- The memory after a call that left `b` in the buffer at `va`. -/
def Kernel.putBuffer (va : Nat) (b : Option Buf) (k : Kernel) : Kernel :=
  match k.pointer va, b with
  | some pa, some b => { k with phys := store k.phys pa b (userPageEnd - va) }
  | _, _ => k

/-- What a `read` that returned `ret` left in the buffer. -/
def taken (ret : Int) : Option Buf → List UInt8
  | some b => slice b 0 ret.toNat
  | none => []

/-- A call that keeps to the first `room` bytes of its buffer. -/
def KeepsTo (room : Nat) : Option Buf → Option Buf → Prop
  | some b, some b' => ∀ i, room ≤ i → b' i = b i
  | _, _ => True

/-! ## The machine -/

/-- An action of the running program, on the kernel stack at `sp`. -/
def performs (im : Image) (sp : Nat) (k : Kernel) : Act → Answer → Kernel → Prop
  | .load va, ans, k' => va < 2 ^ 32 ∧ ∃ pa, k.paging.translate .user va = some pa ∧
    ans = .byte (k.phys pa) ∧ k' = k
  | .store va c, ans, k' => va < 2 ^ 32 ∧ ∃ pa, k.paging.translate .user va = some pa ∧
    ans = .done ∧ k' = { k with phys := Function.update k.phys pa c }
  | .open filename, ans, k' => ∃ name dirEntry ret, k.string filename = some name ∧
    sysOpen im (getPcbAddress sp) name dirEntry k = .returned (ret, k') ∧ ans = .value ret
  | .close fd, ans, k' => ∃ ret, sysClose (getPcbAddress sp) fd k = .returned (ret, k') ∧
    ans = .value ret
  | .read fd buf nbytes, ans, k' => ∃ b ret b' k₁, k.buffer buf = some b ∧
    sysRead im (getPcbAddress sp) fd b nbytes k = .returned (ret, b', k₁) ∧
    KeepsTo (userPageEnd - buf) b b' ∧ ans = .got ret (taken ret b') ∧ k' = k₁.putBuffer buf b'
  | .write fd buf nbytes, ans, k' => ∃ b ret, k.buffer buf = some b ∧
    (buf = 0 ∨ max nbytes.toNat 4 ≤ userPageEnd - buf) ∧
    sysWrite (getPcbAddress sp) fd b nbytes k = .returned (ret, k') ∧
    ans = .wrote ret ((SysCall.write fd b nbytes).written (getPcbAddress sp) k)
  | .getargs buf nbytes, ans, k' => ∃ b, k.buffer buf = some b ∧
    let r := getargs b nbytes (k.pcbMem (getPcbAddress sp))
    KeepsTo (userPageEnd - buf) b r.2 ∧ ans = .value r.1 ∧ k' = k.putBuffer buf r.2
  | .vidmap screenStart, ans, k' => ∃ ret, vidmap screenStart k = some (ret, k') ∧
    ans = .value ret
  | .setHandler _ _, ans, k' => ans = .value (-1) ∧ k' = k
  | .sigreturn, ans, k' => ans = .value (-1) ∧ k' = k
  | .execute command, ans, k' => ∃ c o, k.string command = some c ∧
    callExecute im sp c k = some (o, k') ∧ ans = .went o
  | .executeReturns, _, _ => False
  | .halt status, ans, k' => ∃ o, halt im sp status k = some (o, k') ∧ ans = .went o

/-- A call with a pointer that is neither NULL nor to a string or a buffer that ends in the page of
the program. A `write` may load four bytes from its buffer, however few it is given. -/
def Strays (im : Image) (sp : Nat) (k : Kernel) : Act → Prop
  | .open filename => k.string filename = none
  | .read fd buf nbytes => ∀ b, k.buffer buf = some b → ∃ ret b' k',
    sysRead im (getPcbAddress sp) fd b nbytes k = .returned (ret, b', k') ∧
    ¬ KeepsTo (userPageEnd - buf) b b'
  | .write _ buf nbytes => k.buffer buf = none ∨ buf ≠ 0 ∧ userPageEnd - buf < max nbytes.toNat 4
  | .getargs buf nbytes => ∀ b, k.buffer buf = some b →
    ¬ KeepsTo (userPageEnd - buf) b (getargs b nbytes (k.pcbMem (getPcbAddress sp))).2
  | .vidmap screenStart => vidmap screenStart k = none
  | .execute command => k.string command = none
  | _ => False

/-- What happens to the machine. `depth` says how deep in the kernel stack it finds the kernel. -/
inductive OsEvent
  | tick (depth : Nat)
  | key (ev : KeyEvent)
  | act (depth : Nat) (a : Act)
  | fault (depth : Nat) (address : String)

def OsEvent.depth : OsEvent → Nat
  | .tick depth => depth
  | .key _ => 0
  | .act depth _ => depth
  | .fault depth _ => depth

/-- The process whose program runs, 0 before the first. -/
def Kernel.process (k : Kernel) : Nat := (endKmem - k.cpu) / pcbSize - 1

def osStep (im : Image) (k : Kernel) : OsEvent → Answer → Kernel → Prop
  | .tick depth, ans, k' => ∃ o, schedulerNext im (k.sp depth) k = some (o, k') ∧ ans = .went o
  | .key ev, ans, k' => checkInput ev k = some k' ∧ ans = .done
  | .act depth a, ans, k' => k.cpu ≠ pcbAddr 0 ∧
    -- of a call that strays, any answer and any state may come
    (Strays im (k.sp depth) k a ∨ performs im (k.sp depth) k a ans k')
  | .fault depth address, ans, k' => k.cpu ≠ pcbAddr 0 ∧
    ∃ o, pageFaultAt im (k.sp depth) address k = some (o, k') ∧ ans = .went o

/-- What is remembered of a step: its answer, and the processes that ran before and after it. -/
structure Report where
  answer : Answer
  caller : Nat
  runs : Nat

structure OsStep (im : Image) (k : Kernel) (e : OsEvent) (r : Report) (k' : Kernel) : Prop where
  depth : e.depth < 0x1FFF
  step : osStep im k e r.answer k'
  caller : r.caller = k.process
  runs : r.runs = k'.process

/-- The machine. -/
def os (im : Image) : System Kernel OsEvent Report := OsStep im

/-- `execute` starts programs only when the three shells run, and if they fit their page. -/
def StartsInTurn (im : Image) (k : Kernel) : Act → Prop
  | .execute command => ∀ c prog, k.string command = some c → Accepts im k c prog →
    Fits im prog.inodeNum ∧ ∀ t, k.isOn t = true
  | _ => True

/-- No call strays, and programs are started in turn. -/
def Orderly (im : Image) (k : Kernel) : OsEvent → Prop
  | .act depth a => ¬ Strays im (k.sp depth) k a ∧ StartsInTurn im k a
  | _ => True

section Machine

variable {im : Image} {sp d : Nat} {k k' : Kernel} {a : Act} {ans : Answer}

/-- A call with its pointers in order does what the kernel makes of it. -/
theorem Orderly.performs (h : Orderly im k (.act d a)) (hs : osStep im k (.act d a) ans k') :
    performs im (k.sp d) k a ans k' := hs.2.resolve_left h.1

/-- What the kernel performs does not stray. -/
theorem not_strays (h : performs im sp k a ans k') : ¬ Strays im sp k a := by
  intro hs
  cases a with
  | «open» filename =>
    obtain ⟨name, -, -, hname, -⟩ := h
    cases hs.symm.trans hname
  | read fd buf nbytes =>
    obtain ⟨b, ret, b', k₁, hbuf, hread, hkeeps, -⟩ := h
    obtain ⟨ret', b₂, k₂, hread', hout⟩ := hs b hbuf
    cases hread.symm.trans hread'
    exact hout hkeeps
  | write fd buf nbytes =>
    obtain ⟨b, ret, hbuf, hroom, -⟩ := h
    rcases hs with hnone | ⟨hne, hout⟩
    · cases hnone.symm.trans hbuf
    · exact absurd (hroom.resolve_left hne) (Nat.not_le.2 hout)
  | getargs buf nbytes =>
    obtain ⟨b, hbuf, hkeeps, -⟩ := h
    exact hs b hbuf hkeeps
  | vidmap screenStart =>
    obtain ⟨ret, hret, -⟩ := h
    cases hs.symm.trans hret
  | execute command =>
    obtain ⟨c, o, hc, -⟩ := h
    cases hs.symm.trans hc
  | _ => exact hs

end Machine

end Kernel391

import Kernel391.Lib.Interaction
import Kernel391.UserView

/-!
# User programs: the code

The library of `ece391support.c`, the wrappers of `ece391syscall.S`, and the programs `cat`, `ls`,
`hello`, `testprint` and `shell`, as programs that act on the machine: they load and store bytes
of their page and make system calls. What is a local variable in the source is one here, except for
the arrays: they are in the page, at the addresses `buf`. `lit s` is the address of the constant
string `s`.

Loops take at most `fuel` rounds. The loop of the shell has no end, and `shell` is its first rounds.
-/

namespace Kernel391

open Bytes Interaction

/-- A program. -/
abbrev User (α : Type) := Prog Act Answer α

namespace User

/-- `*va`. -/
def load (va : Nat) : User UInt8 := .act (.load va) fun
  | .byte c => .ret c
  | _ => .stuck

/-- `*va = c`. -/
def store (va : Nat) (c : UInt8) : User Unit := .act (.store va c) fun
  | .done => .ret ()
  | _ => .stuck

/-! ## `ece391syscall.S` -/

def ece391Open (filename : Nat) : User Int := .act (.open filename) fun
  | .value ret => .ret ret
  | _ => .stuck

def ece391Read (fd : Int) (buf : Nat) (nbytes : Int) : User Int := .act (.read fd buf nbytes) fun
  | .got ret _ => .ret ret
  | _ => .stuck

def ece391Write (fd : Int) (buf : Nat) (nbytes : Int) : User Int := .act (.write fd buf nbytes) fun
  | .wrote ret _ => .ret ret
  | _ => .stuck

def ece391Getargs (buf : Nat) (nbytes : Int) : User Int := .act (.getargs buf nbytes) fun
  | .value ret => .ret ret
  | _ => .stuck

def ece391Execute (command : Nat) : User Int := .act (.execute command) fun
  | .went .failed => .ret (-1)
  | .went (.started _) => .act .executeReturns fun
    | .value ret => .ret ret
    | _ => .stuck
  | _ => .stuck

/-- `_start`. -/
def start (main : User Int) : User Unit := do
  let ret ← main
  .act (.halt (UInt8.ofInt ret)) fun _ => .ret ()

/-! ## `ece391support.c` -/

def ece391Strlen (fuel s : Nat) : User Nat :=
  Prog.loop (fun len => do
    let c ← load (s + len)
    if c ≠ 0 then return .inl (len + 1) else return .inr len) fuel 0

def ece391Fdputs (fuel : Nat) (fd : Int) (s : Nat) : User Unit := do
  let n ← ece391Strlen fuel s
  let _ ← ece391Write fd s n
  return ()

def ece391Strcmp (fuel s1 s2 : Nat) : User Int :=
  Prog.loop (fun i => do
    let c1 ← load (s1 + i)
    let c2 ← load (s2 + i)
    if c1 = c2 then
      if c1 = 0 then return .inr 0 else return .inl (i + 1)
    else return .inr (c1.toNat - c2.toNat)) fuel 0

/-! ## The programs -/

section Main

variable (lit : String → Nat) (buf fuel : Nat)

/-- The loop of `cat`. -/
def catLoop (fd : Int) : User Int :=
  Prog.loop (fun _ => do
    let cnt ← ece391Read fd buf 1024
    if cnt = 0 then return .inr 0
    else if cnt = -1 then do
      ece391Fdputs fuel 1 (lit "file read failed\n")
      return .inr 3
    else do
      let ret ← ece391Write 1 buf cnt
      if ret = -1 then return .inr 3 else return .inl ()) fuel ()

/-- `main` of `ece391cat.c`. -/
def cat : User Int := do
  let ret ← ece391Getargs buf 1024
  if ret ≠ 0 then do
    ece391Fdputs fuel 1 (lit "could not read arguments\n")
    return 3
  else do
    let fd ← ece391Open buf
    if fd = -1 then do
      ece391Fdputs fuel 1 (lit "file not found\n")
      return 2
    else catLoop lit buf fuel fd

/-- `SBUFSIZE`. -/
def sbufsize : Nat := 33

/-- The loop of `ls`. -/
def lsLoop (fd : Int) : User Int :=
  Prog.loop (fun _ => do
    let cnt ← ece391Read fd buf (sbufsize - 1)
    if cnt = 0 then return .inr 0
    else if cnt = -1 then do
      ece391Fdputs fuel 1 (lit "directory entry read failed\n")
      return .inr 3
    else do
      store (buf + cnt.toNat) newline
      let ret ← ece391Write 1 buf (cnt + 1)
      if ret = -1 then return .inr 3 else return .inl ()) fuel ()

/-- `main` of `ece391ls.c`. -/
def ls : User Int := do
  let fd ← ece391Open (lit ".")
  if fd = -1 then do
    ece391Fdputs fuel 1 (lit "directory open failed\n")
    return 2
  else lsLoop lit buf fuel fd

/-- `BUFSIZE`. -/
def bufsize : Nat := 1024

/-- `main` of `ece391hello.c`. -/
def hello : User Int := do
  ece391Fdputs fuel 1 (lit "Hi, what's your name? ")
  let cnt ← ece391Read 0 buf (bufsize - 1)
  if cnt = -1 then do
    ece391Fdputs fuel 1 (lit "Can't read name from keyboard.\n")
    return 3
  else do
    store (buf + cnt.toNat) 0
    ece391Fdputs fuel 1 (lit "Hello, ")
    ece391Fdputs fuel 1 buf
    return 0

/-- `main` of `ece391testprint.c`. -/
def testprint : User Int := do
  ece391Fdputs fuel 1 (lit "Hello, if this ran, the program was correct. Yay!\n")
  return 0

/-- The line without its newline: `cnt--`, if the line ends with one. -/
def cutNewline (cnt : Int) : User Int :=
  if 0 < cnt then do
    let c ← load (buf + (cnt - 1).toNat)
    return if c = newline then cnt - 1 else cnt
  else return cnt

/-- What the shell says about the value of an `execute`. -/
def shellReport (rval : Int) : User Unit :=
  if rval = -1 then ece391Fdputs fuel 1 (lit "no such command\n")
  else if rval = 256 then ece391Fdputs fuel 1 (lit "program terminated by exception\n")
  else if rval ≠ 0 then ece391Fdputs fuel 1 (lit "program terminated abnormally\n")
  else return ()

/-- A round of the shell: `none` to go on. -/
def shellRound : User (Option Int) := do
  ece391Fdputs fuel 1 (lit "391OS> ")
  let cnt ← ece391Read 0 buf (bufsize - 1)
  if cnt = -1 then do
    ece391Fdputs fuel 1 (lit "read from keyboard failed\n")
    return some 3
  else do
    let cnt ← cutNewline buf cnt
    store (buf + cnt.toNat) 0
    let cmp ← ece391Strcmp fuel buf (lit "exit")
    if cmp = 0 then return some 0
    else do
      let c ← load buf
      if c = 0 then return none
      else do
        let rval ← ece391Execute buf
        shellReport lit fuel rval
        return none

/-- The first rounds of the shell. -/
def shellLoop : Nat → User (Option Int)
  | 0 => return none
  | rounds + 1 => do
    match ← shellRound lit buf fuel with
    | none => shellLoop rounds
    | some ret => return some ret

/-- `main` of `ece391shell.c`, up to the end of its `rounds`-th round. -/
def shell (rounds : Nat) : User (Option Int) := do
  ece391Fdputs fuel 1 (lit "Starting 391 Shell\n")
  shellLoop lit buf fuel rounds

end Main

end User

end Kernel391

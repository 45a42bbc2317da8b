import Kernel391.UserMode
import Kernel391.ArgumentsProof
import Kernel391.LaunchProof
import Kernel391.DirectoryProof

/-!
# A program by itself

What the machine promises to a single program, as a machine of its own: a page of memory, a table
of open files, and arguments. `UserView` is the state and `alone` says what each action does to it
and what comes back. No other program, no key, no tick and no page table occurs in it; what the
world decides is left open: the line that a `read` of the terminal brings, and how an `execute`
goes.

`view p k` is what process `p` has in the state `k` of the kernel, `Fresh` what that is when a
program starts, and `own p` picks the actions of `p` out of what happens to the machine.

Programs ask for at least one byte when they read (`AsksOwn`).
-/

namespace Kernel391

open Bytes Runs

/-! ## Files -/

/-- An open file: the clock, a directory with the number of the next entry, or a file with the
position of the next byte. -/
inductive OpenFile
  | rtc
  | dir (pos : Nat)
  | file (inode : UInt32) (pos : Nat)
  deriving DecidableEq

namespace Image

/-- The bytes of a file. -/
def contents (im : Image) (inode : UInt32) : List UInt8 :=
  slice (fileByte im inode) 0 (fileSize im inode)

/-- What opening the name `name` opens. -/
def opened (im : Image) (name : List UInt8) : Option OpenFile :=
  ((List.range im.dirEntries.toNat).find? fun i => im.entryName i = name).map fun i =>
    if im.entryType i = 0 then .rtc
    else if im.entryType i = 1 then .dir 0
    else .file (im.entryInode i) 0

/-- A file system as the tool that makes the images makes them. -/
structure Ok (im : Image) : Prop where
  dir : im.DirOk
  types : ∀ i < im.dirEntries.toNat, (im.entryType i).toNat ≤ 2
  files : im.FilesOk

end Image

/-! ## The state -/

/-- What a program has: the bytes of its page, by address, its open files, by descriptor, its
arguments, and the size that `getargs` checks for. -/
structure UserView where
  page : Nat → UInt8
  files : Nat → Option OpenFile
  argSize : Nat
  args : List UInt8

namespace UserView

/-- The string at `va`, NULL being `some none`. -/
def string (va : Nat) (v : UserView) : Option (Option CString) :=
  if va = 0 then some none
  else if InUserPage va then
    let bytes := slice v.page va (userPageEnd - va)
    if 0 ∈ bytes then some (some (.ofList bytes)) else none
  else none

/-- `l`, stored from `va` on. What is past the page is lost. -/
def put (va : Nat) (l : List UInt8) (v : UserView) : UserView :=
  { v with page := store v.page va (fun i => l.getD i 0) (min l.length (userPageEnd - va)) }

/-- What descriptor `fd` has open, 0 and 1 aside. -/
def file (fd : Int) (v : UserView) : Option OpenFile :=
  if 2 ≤ fd ∧ fd ≤ 7 then v.files fd.toNat else none

def setFile (fd : Nat) (f : Option OpenFile) (v : UserView) : UserView :=
  { v with files := Function.update v.files fd f }

/-- The least free descriptor. -/
def leastFree (v : UserView) : Option Nat :=
  (List.range' 2 6).find? fun fd => (v.files fd).isNone

end UserView

/-! ## The machine of one program -/

/-- `read` from a file: the bytes that are left, `n` at most. -/
def readsFile (im : Image) (fd : Nat) (buf n : Nat) (v : UserView) :
    OpenFile → List UInt8 × UserView
  | .rtc => ([], v)
  | .dir pos =>
    if pos < im.dirEntries.toNat then
      let name := (im.entryName pos).take n
      (name, (v.put buf name).setFile fd (some (.dir (pos + 1))))
    else ([], v)
  | .file inode pos =>
    let bytes := ((im.contents inode).drop pos).take n
    (bytes, (v.put buf bytes).setFile fd (some (.file inode (pos + bytes.length))))

/-- `read` from the terminal brings a line. -/
def readsLine (buf n : Nat) (line : List UInt8) (v : UserView) : UserView :=
  (v.put buf (List.replicate n 0)).put buf (line ++ [newline])

/-- `write` to a file: what it may return. -/
def writesFile (word : UInt32) (nbytes : Int) : OpenFile → Int → Prop
  | .rtc, ret => rtcWrite (some word) = .returned ret
  | .dir _, ret => ret = 0
  | .file _ _, ret => ret = if nbytes = 0 then 0 else -1

/-- A program by itself: what an action does, and what comes back. -/
def alone (im : Image) : System UserView Act Answer
  | v, .load va, ans, v' => v' = v ∧ (InUserPage va → ans = .byte (v.page va))
  | v, .store va c, ans, v' => ans = .done ∧ v' = if InUserPage va then v.put va [c] else v
  | v, .open filename, ans, v' => ∃ name, v.string filename = some name ∧
    match name.bind (fun n => im.opened n.bytes), v.leastFree with
    | some f, some fd => ans = .value fd ∧ v' = v.setFile fd (some f)
    | _, _ => ans = .value (-1) ∧ v' = v
  | v, .close fd, ans, v' =>
    if (v.file fd).isSome then ans = .value 0 ∧ v' = v.setFile fd.toNat none
    else ans = .value (-1) ∧ v' = v
  | v, .read fd buf nbytes, ans, v' => (buf = 0 ∨ InUserPage buf) ∧
    if buf = 0 then ans = .got (-1) [] ∧ v' = v
    else if fd = 0 then
      ∃ line : List UInt8, line.length ≤ 127 ∧
        ans = .got (line.length + 1) (line ++ [newline]) ∧
        v' = readsLine buf nbytes.toNat line v
    else
      match v.file fd with
      | none => ans = .got (-1) [] ∧ v' = v
      | some f =>
        let (bytes, v₁) := readsFile im fd.toNat buf nbytes.toNat v f
        ans = .got bytes.length bytes ∧ v' = v₁
  | v, .write fd buf nbytes, ans, v' => v' = v ∧ (buf = 0 ∨ InUserPage buf) ∧
    if buf = 0 then ans = .wrote (-1) []
    else if fd = 1 then ans = .wrote 0 (slice v.page buf nbytes.toNat)
    else
      match v.file fd with
      | none => ans = .wrote (-1) []
      | some f => ∃ ret, ans = .wrote ret [] ∧
          writesFile (loadWord fun i => v.page (buf + i)) nbytes f ret
  | v, .getargs buf nbytes, ans, v' => (buf = 0 ∨ InUserPage buf) ∧
    if buf = 0 ∨ nbytes ≤ v.argSize then ans = .value (-1) ∧ v' = v
    else ans = .value 0 ∧
      v' = v.put buf ((v.args ++ List.replicate nbytes.toNat 0).take nbytes.toNat)
  | v, .vidmap screenStart, ans, v' =>
    if InUserPage screenStart.toNat then
      ans = .value 0 ∧ v' = v.put screenStart.toNat [0x00, 0x00, 0x50, 0x08]
    else ans = .value (-1) ∧ v' = v
  | v, .setHandler _ _, ans, v' => ans = .value (-1) ∧ v' = v
  | v, .sigreturn, ans, v' => ans = .value (-1) ∧ v' = v
  | v, .execute command, ans, v' => v' = v ∧ ∃ c, v.string command = some c ∧
    (ans = .went .failed ∨ ∃ pid name prog, ans = .went (.started pid) ∧ c = some name ∧
      strlen name ≤ 128 ∧ lookupProgram im name = some prog)
  | v, .executeReturns, ans, v' => v' = v ∧ ∃ value, ans = .value value
  | v, .halt _, _, v' => v' = v

/-! ## What a process has -/

/-- The open file behind a descriptor. -/
def FileDesc.openFile (d : FileDesc) : Option OpenFile :=
  if d.inUse = notinuse then none
  else if d.ftype = 0 then some .rtc
  else if d.ftype = 1 then some (.dir d.filePos.toNat)
  else some (.file d.inodeNum d.filePos.toNat)

/-- What process `p` has. -/
def view (p : Nat) (k : Kernel) : UserView where
  page va := if InUserPage va then k.phys (userFrame p + (va - userPageStart)) else 0
  files fd := if 2 ≤ fd ∧ fd ≤ 7 then ((k.pcbMem (pcbAddr p)).fdArray fd).openFile else none
  argSize := (k.pcbMem (pcbAddr p)).argSize
  args := argString (k.pcbMem (pcbAddr p))

/-- The arguments that `execute` stores for the command `c`. It counts the characters of the name,
and not the spaces before it: behind leading spaces these are not `arguments c`. -/
def storedArguments (c : CString) : List UInt8 :=
  (commandLine c).drop ((firstWord c).length + 1)

/-- What a program starts with: its file in the page, no open file, and the arguments that `execute`
stored. -/
structure Fresh (im : Image) (c : CString) (v : UserView) : Prop where
  loaded : ∃ prog, lookupProgram im c = some prog ∧
    slice v.page virtualAddressForExecutableData (fileSize im prog.inodeNum) =
      im.contents prog.inodeNum
  files : ∀ fd, v.files fd = none
  argSize : v.argSize = (commandLine c).length
  args : strlen c ≤ 127 → v.args = storedArguments c

/-- The command that an event starts a program with: that of the `execute`, or `shell`. -/
def Commands (k : Kernel) (c : CString) : OsEvent → Prop
  | .act _ (.execute command) => k.string command = some (some c)
  | _ => c = shell

/-- The action of process `p` that a step of the machine makes. When the program that `p` waits for
ends, by whatever it does, the `execute` of `p` returns. -/
def own (p : Nat) : OsEvent × Report → Option (Act × Answer)
  | (.act _ a, r) => if r.caller = p then some (a, r.answer) else returned r
  | (.fault _ _, r) => returned r
  | _ => none
where
  returned (r : Report) : Option (Act × Answer) :=
    match r.answer with
    | .went (.resumed value) =>
      if r.runs = p then some (.executeReturns, .value (toSigned value)) else none
    | _ => none

/-- Neither a start nor the end of process `p`. -/
def LivesOn (p : Nat) (l : OsEvent × Report) : Prop :=
  l.2.answer ≠ .went (.started p) ∧
    (l.2.caller = p → (∀ d status, l.1 ≠ .act d (.halt status)) ∧ ∀ d a, l.1 ≠ .fault d a)

/-- The programs of process `p` read at least one byte, and any number of an `int32_t`. -/
def AsksOwn (p : Nat) (k : Kernel) : OsEvent → Prop
  | .act _ (.read _ _ nbytes) => k.process = p → 1 ≤ nbytes ∧ nbytes < 2 ^ 31
  | _ => True

end Kernel391

import Kernel391.FileSystem
import Kernel391.Terminal

/-!
# Open files: the code

The system calls `open`, `close`, `read` and `write` of `sys_call.c`, `rtc.c`, and what
`execute` and `getargs` do with the argument and descriptor arrays.

The calls work on the PCB at the address `curr`, which is `get_pcb_address()`. A call through
a function pointer that is NULL, or that is read through a table pointer that is NULL or
stale, is the outcome `badCall`; a call that spins is `blocked`.
-/

namespace Kernel391

open Bytes

def fdstart : Nat := 2
def fdend : Int := 7
def entriesInFdArray : Nat := 8
def fdStdout : Int := 1
def filetypeDevice : UInt32 := 0
def filetypeDirectory : UInt32 := 1
def filetypeGeneral : UInt32 := 2
def inuse : UInt8 := 1
def notinuse : UInt8 := 0
def maxFreq : Int := 1024
def pcbMaxArgs : Nat := 128

/-- How a call ends. -/
inductive Outcome (α : Type)
  | returned (a : α)
  | blocked
  | badCall

/-! ## Tables of function pointers -/

inductive FileOp
  | open
  | read
  | write
  | close
  deriving DecidableEq

/-- The functions the tables point to. -/
inductive FileFn
  | rtc (op : FileOp)
  | fs (op : FileOp)
  | dir (op : FileOp)
  | terminal (op : FileOp)
  deriving DecidableEq

/-- `operationstable[op]`: `none` for a NULL entry or a pointer to no table. -/
def OpsPtr.entry : OpsPtr → FileOp → Option FileFn
  | .rtctable, op => some (.rtc op)
  | .filetable, op => some (.fs op)
  | .directorytable, op => some (.dir op)
  | .stdinTable, .write => none
  | .stdinTable, op => some (.terminal op)
  | .stdoutTable, .read => none
  | .stdoutTable, op => some (.terminal op)
  | .null, _ => none
  | .wild _, _ => none

/-! ## The real-time clock -/

/-- `rtc_write`, with `w` for `*buf`. The loop halves `tmp` until it is `w`; once `tmp` is 0 it
stays 0. -/
def rtcWrite (buf : Option UInt32) : Outcome Int :=
  match buf with
  | none => .returned (-1)
  | some w =>
    if w &&& (w - 1) ≠ 0 ∨ toSigned w > maxFreq then .returned (-1)
    else if (List.range 12).any fun i => (1024 : UInt32) >>> UInt32.ofNat i = w then .returned 0
    else .blocked

/-- A 32-bit load through a pointer. -/
def loadWord (b : Buf) : UInt32 :=
  UInt32.ofNat ((b 0).toNat + 256 * (b 1).toNat + 65536 * (b 2).toNat + 16777216 * (b 3).toNat)

/-! ## Descriptors -/

/-- `fd_array_handle_open`. -/
def fdArrayHandleOpen (fileType inodeNum : UInt32) (p : Pcb) : Int × Pcb :=
  if fileType ≠ 0 ∧ fileType ≠ 1 ∧ fileType ≠ 2 then (-1, p)
  else
    match (List.range' fdstart 6).find? fun i => (p.fdArray i).inUse = notinuse with
    | none => (-1, p)
    | some i =>
      let table :=
        if fileType = filetypeDevice then OpsPtr.rtctable
        else if fileType = filetypeDirectory then .directorytable
        else if fileType = filetypeGeneral then .filetable
        else (p.fdArray i).operationstable
      (i, p.setFd i { p.fdArray i with
        operationstable := table
        inodeNum := inodeNum
        filePos := 0
        inUse := inuse
        ftype := fileType.toUInt8 })

/-- What a closed slot holds. -/
def closedFd : FileDesc :=
  { operationstable := .null, inodeNum := 0, filePos := 0, inUse := notinuse, ftype := 0,
    rsvd0 := 0, rsvd1 := 0 }

/-- `fd_array_handle_close`. -/
def fdArrayHandleClose (fd : Int) (p : Pcb) : Int × Pcb :=
  if fd < 0 then (-1, p)
  else if fd < fdstart ∨ fd > fdend then (-1, p)
  else (0, p.setFd fd.toNat closedFd)

/-! ## The system calls -/

def Kernel.setPcb (addr : Nat) (p : Pcb) (k : Kernel) : Kernel :=
  { k with pcbMem := Function.update k.pcbMem addr p }

/-- The call through the function pointer in `open`, which then returns `fdOpened`. The functions
return at once and change nothing, but `rtc_open` sets the frequency. -/
def callOpen (fdOpened : Int) (k : Kernel) : Option FileFn → Outcome (Int × Kernel)
  | none => .badCall
  | some (.rtc .open) =>
    match rtcWrite (some 2) with
    | .returned _ => .returned (fdOpened, k)
    | .blocked => .blocked
    | .badCall => .badCall
  | some _ => .returned (fdOpened, k)

/-- `open`. `dir_entry` starts uninitialised. -/
def sysOpen (im : Image) (curr : Nat) (filename : Option CString) (dirEntry : Dentry)
    (k : Kernel) : Outcome (Int × Kernel) :=
  match filename with
  | none => .returned (-1, k)
  | some filename =>
    if strlen filename = 0 then .returned (-1, k)
    else
      let found := readDentryByName im filename dirEntry
      if found.1 = -1 then .returned (-1, k)
      else
        let (fdOpened, p) :=
          fdArrayHandleOpen found.2.fileType found.2.inodeNum (k.pcbMem curr)
        if fdOpened = -1 then .returned (-1, k)
        else
          callOpen fdOpened (k.setPcb curr p)
            ((p.fdArray fdOpened.toNat).operationstable.entry .open)

/-- `close`. The `close` functions of the tables do nothing. -/
def sysClose (curr : Nat) (fd : Int) (k : Kernel) : Outcome (Int × Kernel) :=
  if fd < 0 then .returned (-1, k)
  else if fd < fdstart ∨ fd > fdend then .returned (-1, k)
  else
    let d := (k.pcbMem curr).fdArray fd.toNat
    if d.inUse = notinuse then .returned (-1, k)
    else if d.operationstable = .null then .returned (-1, k)
    else
      match d.operationstable.entry .close with
      | none => .badCall
      | some _ =>
        let (ret, p) := fdArrayHandleClose fd (k.pcbMem curr)
        .returned (ret, k.setPcb curr p)

/-- The call through the function pointer in `read`. -/
def callRead (im : Image) (curr : Nat) (fd : Int) (b : Buf) (nbytes : Int) (k : Kernel) :
    Option FileFn → Outcome (Int × Option Buf × Kernel)
  | some (.fs .read) =>
    let (ret, buf, p) := fsRead im fd.toNat (some b) nbytes (k.pcbMem curr)
    .returned (ret, buf, k.setPcb curr p)
  | some (.dir .read) =>
    let (ret, b, p) := dirRead im fd.toNat b nbytes (k.pcbMem curr)
    .returned (ret, some b, k.setPcb curr p)
  | some (.rtc .read) => .returned (0, some b, k)
  | some (.terminal .read) =>
    match terminalRead b nbytes k with
    | none => .blocked
    | some (ret, b, k) => .returned (ret, some b, k)
  | _ => .badCall

/-- `read`. -/
def sysRead (im : Image) (curr : Nat) (fd : Int) (buf : Option Buf) (nbytes : Int)
    (k : Kernel) : Outcome (Int × Option Buf × Kernel) :=
  if fd < 0 ∨ fd > fdend then .returned (-1, buf, k)
  else
    match buf with
    | none => .returned (-1, none, k)
    | some b =>
      if fd = fdStdout then .returned (-1, some b, k)
      else
        let d := (k.pcbMem curr).fdArray fd.toNat
        if d.inUse = notinuse then .returned (-1, some b, k)
        else callRead im curr fd b nbytes k (d.operationstable.entry .read)

/-- The call through the function pointer in `write`. -/
def callWrite (b : Buf) (nbytes : Int) (k : Kernel) : Option FileFn → Outcome (Int × Kernel)
  | some (.fs .write) => .returned (fsWrite nbytes, k)
  | some (.dir .write) => .returned (0, k)
  | some (.rtc .write) =>
    match rtcWrite (some (loadWord b)) with
    | .returned ret => .returned (ret, k)
    | .blocked => .blocked
    | .badCall => .badCall
  | some (.terminal .write) =>
    let (ret, k) := terminalWrite b nbytes k
    .returned (ret, k)
  | _ => .badCall

/-- `write`. -/
def sysWrite (curr : Nat) (fd : Int) (buf : Option Buf) (nbytes : Int) (k : Kernel) :
    Outcome (Int × Kernel) :=
  if fd ≤ 0 ∨ fd > fdend then .returned (-1, k)
  else
    match buf with
    | none => .returned (-1, k)
    | some b =>
      let d := (k.pcbMem curr).fdArray fd.toNat
      if d.inUse = notinuse then .returned (-1, k)
      else callWrite b nbytes k (d.operationstable.entry .write)

/-! ## Setting up a process -/

/-- `set_up_stdin` and `set_up_stdout`. -/
def setUpStdin (p : Pcb) : Pcb :=
  p.setFd 0 { p.fdArray 0 with
    operationstable := .stdinTable, inodeNum := 0xFFFFFFFF, filePos := 0, inUse := inuse }

def setUpStdout (p : Pcb) : Pcb :=
  p.setFd 1 { p.fdArray 1 with
    operationstable := .stdoutTable, inodeNum := 0xFFFFFFFF, filePos := 0, inUse := inuse }

/-- `set_up_fdsandargs`. The copy loop stops at the first NUL, at the end of the command, and
never past the array it reads. -/
def setUpFdsandargs (argSize argIdx : Nat) (argArr : Buf) (p : Pcb) : Pcb :=
  let argLen := strlenMax (fun i => argArr (argIdx + i)) (argSize - argIdx)
  { p with
    fdArray := fun i =>
      if fdstart ≤ i ∧ i < entriesInFdArray then
        { p.fdArray i with filePos := 0, inUse := notinuse }
      else p.fdArray i
    argSize := argSize
    argArr := store (store p.argArr 0 (fun _ => 0) pcbMaxArgs) 0 (fun i => argArr (argIdx + i))
      argLen }

/-- `getargs`, with the buffer as it is left. -/
def getargs (buf : Option Buf) (nbytes : Int) (p : Pcb) : Int × Option Buf :=
  match buf with
  | none => (-1, none)
  | some b =>
    if nbytes < 0 ∨ nbytes - 1 < p.argSize then (-1, some b)
    else (0, some (strncpy b p.argArr nbytes.toNat))

end Kernel391

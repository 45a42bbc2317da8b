import Kernel391.SysCall

/-!
# Processes: the code

`execute`, `halt` and `vidmap` of `sys_call.c`, `scheduler_next` of `scheduler.c`, and the page
fault handler of `idt.c`, which `execute` can run into.

A system call or a timer interrupt that arrives from user code runs on the stack that
`tss.esp0` names; `sp` is where on that stack. The stack pointer of the nested calls is not told
apart from `sp`: only its page is ever used. `contextswitchasm` and `restoreparent` leave the
kernel for a user program or for the `execute` frame a parent is waiting in, and `cpu` says which
program goes on.
-/

namespace Kernel391

open Bytes

/-! ## Constants of `sys_call.h` -/

def pcbMask : Nat := 0xFFE000
def endKmem : Nat := 0x800000
def pcbSize : Nat := 0x2000
def kernelMemSize : Nat := 0x2000
def numberOfProcessesSupported : Nat := 6
def numTerminals : Nat := 3
def maxBufSizeExecute : Nat := 128
def metadataExecuteSize : UInt32 := 40
def startOfEipInExecutable : UInt32 := 24
def sizeOfOperationsTable : UInt32 := 4
def extendedPageSize : UInt32 := 0x400000
def virtualAddressForExecutableData : Nat := 0x8048000
def userPageEnd : Nat := 0x8400000
def vmem133MB : Nat := 0x8500000
def checkUserVmem : Nat := 32

/-- `get_pcb_address`, on the stack at `sp`. -/
def getPcbAddress (sp : Nat) : Nat := sp &&& pcbMask

/-- Where `execute` puts the PCB of a process. -/
def pcbAddr (pid : Nat) : Nat := endKmem - (pid + 1) * pcbSize

/-! ## Looking up a program -/

/-- What `execute` knows of the program once it is accepted. -/
structure Program where
  inodeNum : UInt32
  eip : UInt32
  argSize : Nat
  argIdx : Nat
  argArr : Buf

/-- The bytes `0x7f 'E' 'L' 'F'`. -/
def isExecutable (checkBuf : Buf) : Bool :=
  checkBuf 0 == 0x7f && checkBuf 1 == 0x45 && checkBuf 2 == 0x4C && checkBuf 3 == 0x46

/-- `read_data` into a local array: the returned value and the array. -/
def readLocal (im : Image) (inode offset length : UInt32) : Int × Buf :=
  let r := readData im inode offset (some fun _ => 0) length
  (r.1, r.2.getD fun _ => 0)

/-- The first half of `execute`: parse the command and check the file. `arg_idx` does not count
the leading spaces. -/
def lookupProgram (im : Image) (command : CString) : Option Program :=
  let line := command.bytes.takeWhile (· ≠ newline)
  let word := (command.bytes.dropWhile (· = space)).takeWhile fun c => c ≠ space ∧ c ≠ newline
  let j := if word.length = maxBufSizeExecute then maxBufSizeExecute - 1 else word.length
  let found := readDentryByName im (.ofList (word.take j)) default
  if found.1 = -1 then none
  else
    let inodeNum := found.2.inodeNum
    let (ret, checkBuf) := readLocal im inodeNum 0 metadataExecuteSize
    if ret ≠ metadataExecuteSize.toNat then none
    else if ¬ isExecutable checkBuf then none
    else
      let executablebytes := (readLocal im inodeNum startOfEipInExecutable
        sizeOfOperationsTable).2
      some {
        inodeNum := inodeNum
        eip := loadWord executablebytes
        argSize := line.length
        argIdx := j + 1
        argArr := fun i => line.getD i 0 }

/-! ## Starting a program -/

def Kernel.changeProcess (pid : Nat) (k : Kernel) : Kernel :=
  { k with paging := (pagingChangeProcess (UInt32.ofNat pid) k.paging).2 }

/-- `tss.esp0 = END_KMEM - pid * KERNEL_MEM_SIZE`. -/
def Kernel.setTss (pid : Nat) (k : Kernel) : Kernel :=
  { k with tssEsp0 := endKmem - pid * kernelMemSize }

def Kernel.setRunning (pid : Nat) (b : Bool) (k : Kernel) : Kernel :=
  { k with processesRunning := Function.update k.processesRunning pid b }

/-- `read_data` to the virtual address of the program. A copy that runs past the end of the user
page stores what fits and faults: `false`. -/
def loadProgram (im : Image) (inodeNum : UInt32) (k : Kernel) : Bool × Kernel :=
  match k.paging.translate .supervisor virtualAddressForExecutableData with
  | none => (false, k)
  | some pa =>
    let r := readData im inodeNum 0 (some fun i => k.phys (pa + i)) extendedPageSize
    let bytes := r.2.getD fun _ => 0
    let room := userPageEnd - virtualAddressForExecutableData
    if r.1 ≤ room then (true, { k with phys := store k.phys pa bytes r.1.toNat })
    else (false, { k with phys := store k.phys pa bytes room })

/-- The PCB that `execute` builds over what was there. -/
def newPcb (pid sp : Nat) (prog : Program) (old : Pcb) : Pcb :=
  let p :=
    if pid > numTerminals then
      let parentPcb := getPcbAddress sp
      { old with
        parent := parentPcb, parentProcessId := (endKmem - parentPcb) / pcbSize - 1 }
    else { old with parent := 0 }
  let p := setUpStdout (setUpStdin p)
  setUpFdsandargs prog.argSize prog.argIdx prog.argArr { p with processId := pid }

/-- `contextswitchasm`: save where the caller is, in the PCB of the new process, and go to user
mode. -/
def contextSwitch (sp currentProcess : Nat) (k : Kernel) : Kernel :=
  let p := k.pcbMem currentProcess
  { k.setPcb currentProcess { p with parentEsp := { esp := sp, currentProcess } } with
    cpu := currentProcess }

/-- How an `execute` ends: it returns -1, the new program runs, or loading it faults. -/
inductive ExecResult
  | failed (k : Kernel)
  | started (pid : Nat) (eip : UInt32) (k : Kernel)
  | pageFault (k : Kernel)

/-- The second half of `execute`: give the program the slot `pid` and start it. -/
def startProgram (im : Image) (sp : Nat) (prog : Program) (pid : Nat) (k : Kernel) :
    ExecResult :=
  let k := k.setRunning pid true
  let k := k.setPid pid
  let k := k.changeProcess pid
  let (ok, k) := loadProgram im prog.inodeNum k
  if ok then
    let k := k.setPcb (pcbAddr pid) (newPcb pid sp prog (k.pcbMem (pcbAddr pid)))
    .started pid prog.eip (contextSwitch sp (pcbAddr pid) (k.setTss pid))
  else .pageFault k

/-- The first free slot. -/
def freeSlot (k : Kernel) : Option Nat :=
  (List.range' 1 numberOfProcessesSupported).find? fun i => !k.processesRunning i

/-- `execute`. -/
def execute (im : Image) (sp : Nat) (command : Option CString) (k : Kernel) : ExecResult :=
  match command with
  | none => .failed k
  | some command =>
    if strlen command > maxBufSizeExecute then .failed (printf "Bad Length\n" k)
    else
      match lookupProgram im command with
      | none => .failed k
      | some prog =>
        match freeSlot k with
        | none => .failed (printf "Maximum number of processes reached\n" k)
        | some pid => startProgram im sp prog pid k

/-- `"shell"`. -/
def shell : CString := .ofList (chars "shell")

/-! ## Ending a program -/

/-- What a call leaves behind, seen from user mode. -/
inductive Output
  /-- `execute` returned -1 to its caller. -/
  | failed
  /-- A new program runs. -/
  | started (pid : Nat)
  /-- A program ended, and the `execute` of its parent returned `value`. -/
  | resumed (value : UInt32)
  /-- The scheduler resumed another terminal. -/
  | switched
  deriving DecidableEq

/-- `close(i)` for every descriptor in use, from the list `fds`: `none` if one of the calls goes
through a bad pointer. -/
def closeAll (curr : Nat) : List Nat → Kernel → Option Kernel
  | [], k => some k
  | i :: fds, k =>
    if ((k.pcbMem curr).fdArray i).inUse = inuse then
      match sysClose curr i k with
      | .returned (_, k) => closeAll curr fds k
      | _ => none
    else closeAll curr fds k

/-- `restoreparent`, and the end of the `execute` it returns into. -/
def restoreParent (frame : SavedFrame) (k : Kernel) : Output × Kernel :=
  (.resumed (k.pcbMem frame.currentProcess).status, { k with cpu := getPcbAddress frame.esp })

/-- `halt` from the line on that marks the slot as not in use. -/
def haltRest (currPcb : Nat) (status : UInt8) (k : Kernel) : Option (Output × Kernel) := do
  let pid := (k.pcbMem currPcb).processId
  let k := k.setRunning pid false
  let parentid := (k.pcbMem currPcb).parentProcessId
  let k ← closeAll currPcb (List.range entriesInFdArray) k
  let p := k.pcbMem currPcb
  let k :=
    if pid > numTerminals then
      k.setPcb p.parent { k.pcbMem p.parent with status := UInt32.ofNat status.toNat }
    else k
  let k := k.setPid parentid
  let k := k.changeProcess parentid
  let k := k.setTss parentid
  some (restoreParent (k.pcbMem currPcb).parentEsp k)

/-- `halt`. If the shell that replaces a base process faults while it is loaded, the fault
handler halts the same process again, whose shell faults again: that never ends, and is `none`. -/
def halt (im : Image) (sp : Nat) (status : UInt8) (k : Kernel) : Option (Output × Kernel) :=
  let currPcb := getPcbAddress sp
  let pid := (k.pcbMem currPcb).processId
  if pid < numTerminals + 1 then
    let k := printf "Cannot close base process -- " k
    let k := k.setRunning pid false
    match execute im sp (some shell) k with
    | .started pid _ k => some (.started pid, k)
    | .failed k => haltRest currPcb status k
    | .pageFault _ => none
  else haltRest currPcb status k

/-- `handle14`, for a fault at the end of the user page. -/
def handle14 (im : Image) (sp : Nat) (k : Kernel) : Option (Output × Kernel) :=
  let k := printf "Page Fault exception\n" k
  let k := printf "The Exception occurred at:8400000" k
  halt im sp 80 k

/-! ## The timer -/

/-- `scheduler_next`. -/
def schedulerNext (im : Image) (sp : Nat) (k : Kernel) : Option (Output × Kernel) :=
  let k := k.saveEspEbp sp
  let k := { k with currentTerm := k.currentTerm + 1 }
  let t := k.currentTerm
  let pid := (k.terminals t).pid
  let k := if t = k.visableTerm then k.setWriteToVideomem else k.setWriteToBuffer t
  if k.isOn t = false then
    let k := { k with isOn := Function.update k.isOn t true }
    match execute im sp (some shell) k with
    | .started pid _ k => some (.started pid, k)
    | .failed k => some (.failed, printf "failed" k)
    | .pageFault k => handle14 im sp k
  else
    let k := (k.changeProcess pid).setTss pid
    some (.switched, { k with cpu := getPcbAddress (k.terminals t).esp })

/-! ## Video memory for programs -/

/-- Store the four bytes of `w` at a virtual address: `none` for a page fault. -/
def Kernel.store32 (va w : Nat) (k : Kernel) : Option Kernel :=
  if (List.range 4).all fun i => (k.paging.translate .supervisor (va + i)).isSome then
    some ((List.range 4).foldl (fun k i => k.store8 (va + i) (UInt8.ofNat (w / 256 ^ i))) k)
  else none

/-- `vidmap`. -/
def vidmap (screenStart : UInt32) (k : Kernel) : Option (Int × Kernel) :=
  if screenStart = 0 then some (-1, k)
  else
    let pageDirIdx := (0xFFC00000 &&& screenStart) >>> 22
    if pageDirIdx.toNat ≠ checkUserVmem then some (-1, k)
    else do
      let k := { k with paging := pagingVidmap k.paging }
      let k ← k.store32 screenStart.toNat vmem133MB
      some (0, k)

/-! ## Boot -/

/-- The kernel just before `init_global_scheduler`, on memory that held `k`: the initial values
of the static variables, then `paging_initialize` and `init_keyboard`. -/
def beforeScheduler (k : Kernel) : Kernel :=
  initKeyboard { k with
    processesRunning := fun _ => false
    terminalbuffer := fun _ _ => 0
    flags := fun _ => false
    numberofchars := fun _ => 0
    chararray := fun i => chararrayInit.getD i 0
    linebuffer := fun _ => 0
    paging := pagingInitialize k.paging
    tssEsp0 := endKmem
    cpu := pcbAddr 0 }

/-- The state left by `init_global_scheduler`. -/
def bootState (k : Kernel) : Kernel := initGlobalScheduler (beforeScheduler k)

/-- The rest of `entry`, up to the loop that waits for the first interrupt. -/
def entry (k : Kernel) : Kernel :=
  setposition 0 0 (clear (printf "Enabling Interrupts\n" (printf "Printing in pit" (bootState k))))

end Kernel391

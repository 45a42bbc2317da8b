import Kernel391.Console

/-!
# Terminals and their switching: the code

`scheduler.c` without `scheduler_next`, which starts processes and is in `Process`: boot-time
initialisation, the switch of the visible terminal, and the accessors of the `terminal_t`
records. A function that indexes one of the 128-byte line buffers returns `none` if the index
is outside the array.
-/

namespace Kernel391

open Bytes

def keyboardBufferLength : Nat := 128

/-! ## Mapping the screen -/

def Kernel.setWriteToVideomem (k : Kernel) : Kernel :=
  { k with paging := pagingSetWriteToVideomem k.paging }

def Kernel.setWriteToBuffer (buffer : TermId) (k : Kernel) : Kernel :=
  { k with paging := pagingSetWriteToBuffer (buffer : Nat) k.paging }

/-- `vid_bufs`, which is set at boot and never changes. -/
def vidBufs (t : TermId) : Nat := t1BufAddr + vmemSize * t

/-- `memcpy` of `VMEM_SIZE` bytes between two pages. -/
def Kernel.copyPage (dst src : Nat) (k : Kernel) : Kernel :=
  match k.paging.translate .supervisor dst, k.paging.translate .supervisor src with
  | some d, some s => { k with phys := store k.phys d (fun i => k.phys (s + i)) vmemSize }
  | _, _ => k

/-- `switch_terminals`. -/
def switchTerminals (nextTerminal : TermId) (k : Kernel) : Kernel :=
  let prevTerminal := k.visableTerm
  if nextTerminal = prevTerminal then k
  else
    let k := { k with visableTerm := nextTerminal }
    let k := k.setWriteToVideomem
    let k := k.copyPage (vidBufs prevTerminal) vidStartAddr
    let k := k.copyPage vidStartAddr (vidBufs nextTerminal)
    if k.currentTerm ≠ k.visableTerm then k.setWriteToBuffer k.currentTerm else k

/-! ## The line of the visible terminal -/

/-- Copy `n` bytes between two 128-byte arrays. -/
def copyLine (dest src : Buf) (n : Nat) : Option Buf :=
  if n ≤ keyboardBufferLength then some (store dest 0 src n) else none

/-- `memset(buf, 0, KEYBOARD_BUFFER_LENGTH)`. -/
def clearLine (buf : Buf) : Buf := store buf 0 (fun _ => 0) keyboardBufferLength

/-- `get_current_noc`: of the visible terminal. -/
def getCurrentNoc (k : Kernel) : Nat := (k.terminals k.visableTerm).noc

/-- `set_line_buffer`. -/
def setLineBuffer (k : Kernel) : Option Kernel := do
  let t := k.terminals k.visableTerm
  let linebuffer ← copyLine k.linebuffer t.lb t.noc
  some { k with linebuffer := linebuffer }

/-- `set_global_buffer`. -/
def setGlobalBuffer (numberofchars : Nat) (k : Kernel) : Option Kernel := do
  let t := k.terminals k.visableTerm
  let lb ← copyLine t.lb k.linebuffer numberofchars
  let t := { t with noc := numberofchars, lb := lb }
  some { k with terminals := Function.update k.terminals k.visableTerm t }

/-! ## Boot -/

/-- `init_global_scheduler`. What it reads of the shell's file is not used again. -/
def initGlobalScheduler (k : Kernel) : Kernel :=
  { k with
    terminals := fun i => { k.terminals i with
      noc := 0, lb := clearLine (k.terminals i).lb, pid := i + 1, screenX := 0, screenY := 0 }
    isOn := fun _ => false
    paging := (pagingChangeProcess 1 k.paging).2
    currentTerm := 2
    visableTerm := 0 }

/-- `set_pid`. -/
def Kernel.setPid (pid : Nat) (k : Kernel) : Kernel :=
  let t := { k.terminals k.currentTerm with pid := pid }
  { k with terminals := Function.update k.terminals k.currentTerm t }

/-- `save_esp_ebp`. Nothing looks at the saved `ebp`. -/
def Kernel.saveEspEbp (esp : Nat) (k : Kernel) : Kernel :=
  let t := { k.terminals k.currentTerm with esp := esp }
  { k with terminals := Function.update k.terminals k.currentTerm t }

end Kernel391

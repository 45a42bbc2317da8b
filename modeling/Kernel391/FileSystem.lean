import Kernel391.Basic
import Mathlib.Data.Int.Basic

/-!
# The read-only file system: the code

`filesystem.c` and the string functions of `lib.c` it uses. The image is the memory from
`boot_block_addr` on: one boot block (entry counts, then 64-byte directory entries), the inode
blocks, the data blocks. `boot_block_addr` is set once at boot, before any of these functions
runs, so its NULL checks are not modelled; the statics that cache the header are reloaded on
every call and are read from the image here.

Pointers into the image are byte offsets from `boot_block_addr`; an access takes them modulo
the 32-bit address space.
-/

namespace Kernel391

open Bytes

/-! ## Constants of `filesystem.h` -/

def fileNameSize : Nat := 32
def fsBlockSize : UInt32 := 4096
def bootBlockDirEntries : Nat := 62
def numInodesMax : UInt32 := 64
def maxFileSize : UInt32 := 1023 * 4096
def maxFileNum : Nat := 62
def ftypeRegular : UInt8 := 2

/-! ## The image -/

/-- The memory the boot loader put the file system image in, from `boot_block_addr` on. -/
structure Image where
  mem : Nat → UInt8

namespace Image

def byte (im : Image) (p : Nat) : UInt8 := im.mem (p % 4294967296)

/-- A little-endian 32-bit load. -/
def word (im : Image) (p : Nat) : UInt32 :=
  UInt32.ofNat ((im.byte p).toNat + 256 * (im.byte (p + 1)).toNat +
    65536 * (im.byte (p + 2)).toNat + 16777216 * (im.byte (p + 3)).toNat)

/-- The three header words. -/
def dirEntries (im : Image) : UInt32 := im.word 0
def numInodes (im : Image) : UInt32 := im.word 4
def numDblocks (im : Image) : UInt32 := im.word 8

/-- `first_directory`, and `first_file + j * BOOT_BLOCK_SIZE`. -/
def firstDirectory : Nat := 64
def fileEntry (j : Nat) : Nat := 128 + 64 * j

/-- The bytes from an offset on, as a pointer would see them. -/
def from_ (im : Image) (p : Nat) : Buf := fun i => im.byte (p + i)

end Image

/-! ## Strings -/

/-- `strncmp`, from index `i` with `n` characters to go. -/
def strncmpFrom (s₁ s₂ : Buf) (i : Nat) : Nat → Int
  | 0 => 0
  | n + 1 =>
    if s₁ i ≠ s₂ i ∨ s₁ i = 0 then (s₁ i).toInt8.toInt - (s₂ i).toInt8.toInt
    else strncmpFrom s₁ s₂ (i + 1) n

def strncmp (s₁ s₂ : Buf) (n : Nat) : Int := strncmpFrom s₁ s₂ 0 n

/-- `strlen` of bytes in memory, with the scan cut off after `n` of them. -/
def strlenMax (s : Buf) (n : Nat) : Nat := ((List.range n).find? fun i => s i = 0).getD n

/-- `strncpy`: the bytes of `src` up to its NUL, then NULs, `n` in all. -/
def strncpy (dest src : Buf) (n : Nat) : Buf := fun i =>
  if i < n then
    if (List.range (i + 1)).any (fun j => src j = 0) then 0 else src i
  else dest i

/-! ## Directory entries -/

/-- `dentry_t`, without the reserved words. -/
structure Dentry where
  fname : Buf
  fileType : UInt32
  inodeNum : UInt32
  deriving Inhabited

/-- Reading a byte through an `int8_t` pointer into a 32-bit field. -/
def signExtend (b : UInt8) : UInt32 := UInt32.ofInt b.toInt8.toInt

/-- The length comparison and `strncmp` of one entry with the wanted name. -/
def entryMatches (im : Image) (fname : CString) (j : Nat) : Bool :=
  let entry := im.from_ (Image.fileEntry j)
  let fnameLength := strlenMax entry (fileNameSize + 1)
  let fnameLength := if fnameLength > fileNameSize then fileNameSize else fnameLength
  fnameLength == strlen fname && strncmp entry fname.get (strlen fname) == 0

/-- `read_dentry_by_name`: the returned value and the dentry the caller is left with. -/
def readDentryByName (im : Image) (fname : CString) (dentry : Dentry) : Int × Dentry :=
  if strncmp (im.from_ Image.firstDirectory) fname.get (strlen fname) = 0 then
    (0, { fname := strncpy dentry.fname fname.get (strlen fname), fileType := 1, inodeNum := 0 })
  else
    match (List.range maxFileNum).find? (entryMatches im fname) with
    | none => (-1, dentry)
    | some j =>
      (0, { fname := strncpy dentry.fname fname.get fileNameSize
            fileType := signExtend (im.byte (Image.fileEntry j + 32))
            inodeNum := signExtend (im.byte (Image.fileEntry j + 36)) })

/-- `read_dentry_by_index`. The terminator written at `fname[32]` falls on the low byte of the
file type. -/
def readDentryByIndex (im : Image) (index : UInt32) (dentry : Dentry) : Int × Dentry :=
  if index.toNat > bootBlockDirEntries ∨ index ≥ im.dirEntries then (-1, dentry)
  else
    let addr := Image.firstDirectory + 64 * index.toNat
    let fileType := im.word (addr + 32)
    (0, { fname := strncpy dentry.fname (im.from_ addr) fileNameSize
          fileType := fileType - fileType % 256
          inodeNum := im.word (addr + 36) })

/-! ## File data -/

/-- `inode_addr`. -/
def inodeAddr (inode : UInt32) : Nat := 4096 + 4096 * inode.toNat

/-- `*(inode_addr + VAL_ONE + j)`: the index of the file's `j`-th data block. -/
def blockIndex (im : Image) (inode j : UInt32) : UInt32 :=
  im.word (inodeAddr inode + 4 + 4 * j.toNat)

/-- The address of data block `index`. -/
def blockAddr (im : Image) (index : UInt32) : Nat :=
  4096 + 4096 * im.numInodes.toNat + 4096 * index.toNat

/-- The bytes of the file's `j`-th data block. -/
def blockData (im : Image) (inode j : UInt32) : Buf :=
  im.from_ (blockAddr im (blockIndex im inode j))

/-- The loop `while (j != end_dblock)`: `n` whole blocks from block `j` on. Returns the buffer,
the next block, `buf_offset` and `bytes_remaining`. -/
def copyMiddle (im : Image) (inode : UInt32) :
    Nat → UInt32 → Buf → UInt32 → UInt32 → Buf × UInt32 × UInt32 × UInt32
  | 0, j, buf, bufOffset, remaining => (buf, j, bufOffset, remaining)
  | n + 1, j, buf, bufOffset, remaining =>
    copyMiddle im inode n (j + 1)
      (store buf bufOffset.toNat (blockData im inode j) fsBlockSize.toNat)
      (bufOffset + fsBlockSize) (remaining - fsBlockSize)

/-- The copying half of `read_data`: one block, or a first block, whole blocks and a last one. -/
def copyBlocks (im : Image) (inode offset len : UInt32) (buf : Buf) : Buf :=
  let startDblock := offset / fsBlockSize
  let endDblock := (offset + len) / fsBlockSize
  let offsetPos := offset % fsBlockSize
  if startDblock = endDblock then
    store buf 0 (fun i => blockData im inode startDblock (offsetPos.toNat + i)) len.toNat
  else
    let first := fsBlockSize - offsetPos
    let buf := store buf 0 (fun i => blockData im inode startDblock (offsetPos.toNat + i))
      first.toNat
    let (buf, j, bufOffset, remaining) :=
      copyMiddle im inode (endDblock - (startDblock + 1)).toNat (startDblock + 1) buf first
        (len - first)
    store buf bufOffset.toNat (blockData im inode j) remaining.toNat

/-- `read_data`. The last copy takes all the bytes that remain, so the final check that none
are left never fails. -/
def readData (im : Image) (inode offset : UInt32) (buf : Option Buf) (length : UInt32) :
    Int × Option Buf :=
  match buf with
  | none => (-1, none)
  | some b =>
    if length = 0 then (-1, buf)
    else
      let len := if length > maxFileSize then maxFileSize - offset else length
      if offset > maxFileSize then (-1, buf)
      else
        let len := if offset + len > maxFileSize then maxFileSize - offset else len
        if inode > numInodesMax then (-1, buf)
        else
          let inodeFileSize := im.word (inodeAddr inode)
          if inodeFileSize < offset then (-1, buf)
          else
            let len := if inodeFileSize < len then inodeFileSize - offset else len
            let len := if inodeFileSize < offset + len then inodeFileSize - offset else len
            (len.toNat, some (copyBlocks im inode offset len b))

/-- The inode words that the second half of `read_data` loads, by their addresses: the indices of
the first and the last block, and where there is more than one block, one index for each copy. -/
def blockWords (inode offset len : UInt32) : List Nat :=
  let startDblock := offset / fsBlockSize
  let endDblock := (offset + len) / fsBlockSize
  let indexAddr (j : UInt32) := inodeAddr inode + 4 + 4 * j.toNat
  [indexAddr startDblock, indexAddr endDblock] ++
    if startDblock = endDblock then []
    else (List.range ((endDblock - startDblock).toNat + 1)).map fun n =>
      indexAddr (startDblock + UInt32.ofNat n)

/-- The inode words that `read_data` loads: the size, and the indices of blocks. The branches are
those of `readData`. -/
def inodeWords (im : Image) (inode offset length : UInt32) : List Nat :=
  if length = 0 then []
  else
    let len := if length > maxFileSize then maxFileSize - offset else length
    if offset > maxFileSize then []
    else
      let len := if offset + len > maxFileSize then maxFileSize - offset else len
      if inode > numInodesMax then []
      else
        let inodeFileSize := im.word (inodeAddr inode)
        inodeAddr inode ::
          if inodeFileSize < offset then []
          else
            let len := if inodeFileSize < len then inodeFileSize - offset else len
            let len := if inodeFileSize < offset + len then inodeFileSize - offset else len
            blockWords inode offset len

/-- A 32-bit word read as a signed number. -/
def toSigned (x : UInt32) : Int := x.toInt32.toInt

/-- `get_filesize`. -/
def getFilesize (im : Image) (inode : UInt32) : Int :=
  if inode > numInodesMax then -1 else toSigned (im.word (inodeAddr inode))

/-! ## The operations of open files -/

/-- Replace one descriptor of a process. -/
def Pcb.setFd (p : Pcb) (fd : Nat) (d : FileDesc) : Pcb :=
  { p with fdArray := Function.update p.fdArray fd d }

/-- `fs_read`. -/
def fsRead (im : Image) (fd : Nat) (buf : Option Buf) (nbytes : Int) (p : Pcb) :
    Int × Option Buf × Pcb :=
  if nbytes = 0 then (0, buf, p)
  else if buf = none then (-1, buf, p)
  else
    let d := p.fdArray fd
    if d.ftype ≠ ftypeRegular then (-1, buf, p)
    else if d.filePos ≥ getFilesize im d.inodeNum then (0, buf, p)
    else
      let (retval, buf) :=
        readData im d.inodeNum (UInt32.ofInt d.filePos) buf (UInt32.ofInt nbytes)
      (retval, buf, p.setFd fd { d with filePos := d.filePos + retval })

/-- `fs_write`: the file system is read-only. -/
def fsWrite (nbytes : Int) : Int := if nbytes = 0 then 0 else -1

/-- The copy loop of `dir_read`, with `n` iterations left: the buffer, and the value that
`bytes_read` was set to if the end of the name was reached. -/
def dirCopy (fname : Buf) (fileSize : Nat) : Nat → Nat → Buf → Buf × Option Nat
  | 0, _, buf => (buf, none)
  | n + 1, j, buf =>
    let buf := Function.update buf j (fname j)
    if j + 1 ≥ fileSize then (buf, some fileSize) else dirCopy fname fileSize n (j + 1) buf

/-- `dir_read`. -/
def dirRead (im : Image) (fd : Nat) (buf : Buf) (nbytes : Int) (p : Pcb) : Int × Buf × Pcb :=
  if fd = 0 ∨ fd = 1 ∨ fd > 7 then (-1, buf, p)
  else
    let d := p.fdArray fd
    let found := readDentryByIndex im (UInt32.ofInt d.filePos) default
    if found.1 = -1 then (0, buf, p)
    else
      let fileSize := strlenMax found.2.fname fileNameSize
      let (buf, bytesRead) := dirCopy found.2.fname fileSize nbytes.toNat 0 buf
      (match bytesRead with | some n => n | none => nbytes, buf,
        p.setFd fd { d with filePos := d.filePos + 1 })

end Kernel391

import Kernel391.ArgumentsProof
import Kernel391.SchedulerProof
import Kernel391.ReadDataProof

/-!
# Launching a program

* `program_page` — for which files `execute` keeps to the page of the new process.
* `launches_named` — on which directories `execute` starts what was named, and nothing else.

`execute` takes the inode number that the lookup left, and does not look at the type of the
entry; a blank command is looked up as well, and finds the directory itself. It never compares
the length of the file with the room in the page.
-/

namespace Kernel391

open Bytes

/-! ## Executable files -/

/-- From the address of the program to the end of the user page. -/
def programRoom : Nat := userPageEnd - virtualAddressForExecutableData

/-- The file is long enough for a header, and starts with the four magic bytes. -/
def HasProgram (im : Image) (inode : UInt32) : Prop :=
  40 ≤ fileSize im inode ∧ (fileContents im inode).take 4 = [0x7F, 0x45, 0x4C, 0x46]

/-- The little-endian word at bytes 24 to 27. -/
def entryPoint (im : Image) (inode : UInt32) : UInt32 :=
  loadWord fun i => (fileContents im inode).getD (24 + i) 0

section File

variable {im : Image} {inode : UInt32} {n : Nat}

theorem fileContents_getD (h : n < fileSize im inode) :
    (fileContents im inode).getD n 0 = fileByte im inode n := by
  rw [fileContents, blocks_eq_slice, List.getD_eq_getElem?_getD, slice_getElem?,
    if_pos (by omega), Nat.zero_add]
  rfl

theorem readLocal_spec {offset length : UInt32} (hinode : inode.toNat ≤ 64) (hlen : length ≠ 0)
    (hoff : offset.toNat ≤ readable im inode) : readLocal im inode offset length =
      (↑(min length.toNat (readable im inode - offset.toNat)),
        store (fun _ => 0) 0 (fun i => fileByte im inode (offset.toNat + i))
          (min length.toNat (readable im inode - offset.toNat))) := by
  rw [readLocal, readData_spec im inode offset length _ hlen, if_pos ⟨hinode, hoff⟩]
  rfl

theorem readable_of_le (h : n ≤ 4190208) : n ≤ readable im inode ↔ n ≤ fileSize im inode := by
  rw [readable, maxFileSize_toNat]
  omega

/-- `execute` takes the file for executable exactly when it has a program. -/
theorem hasProgram_iff (hinode : inode.toNat ≤ 64) :
    HasProgram im inode ↔
      (readLocal im inode 0 metadataExecuteSize).1 = 40 ∧
      isExecutable (readLocal im inode 0 metadataExecuteSize).2 = true := by
  rw [readLocal_spec hinode (by decide) (Nat.zero_le _), HasProgram,
    show metadataExecuteSize.toNat = 40 from rfl, show (0 : UInt32).toNat = 0 from rfl,
    Nat.sub_zero, ← readable_of_le (by decide)]
  have hret : (min 40 (readable im inode) : Nat) = (40 : Int) ↔ 40 ≤ readable im inode := by omega
  rw [hret]
  refine and_congr_right fun hsize => ?_
  have hfile : 40 ≤ fileSize im inode := (readable_of_le (by decide)).1 hsize
  have htake : (fileContents im inode).take 4 = slice (fileByte im inode) 0 4 :=
    @fileContents_slice im inode 0 4 (by omega)
  have hget (i : Nat) (hi : i < 4) : store (fun _ => (0 : UInt8)) 0
      (fun i => fileByte im inode (0 + i)) (min 40 (readable im inode)) i =
        fileByte im inode i := by
    rw [store_of_lt (Nat.zero_le i) (by omega), Nat.zero_add, Nat.sub_zero]
  simp only [isExecutable, hget 0 (by decide), hget 1 (by decide), hget 2 (by decide),
    hget 3 (by decide)]
  rw [htake]
  simp [slice, List.range_succ, and_assoc]

theorem entryPoint_eq (hinode : inode.toNat ≤ 64) (h : HasProgram im inode) :
    loadWord (readLocal im inode startOfEipInExecutable sizeOfOperationsTable).2 =
      entryPoint im inode := by
  have hsize := h.1
  have hread : 28 ≤ readable im inode := (readable_of_le (by decide)).2 (by omega)
  have hoff : startOfEipInExecutable.toNat = 24 := rfl
  have hlen : sizeOfOperationsTable.toNat = 4 := rfl
  rw [readLocal_spec hinode (by decide) (by omega), hoff, hlen]
  have hget (i : Nat) (hi : i < 4) : store (fun _ => (0 : UInt8)) 0
      (fun i => fileByte im inode (24 + i)) (min 4 (readable im inode - 24)) i =
        (fileContents im inode).getD (24 + i) 0 := by
    rw [store_of_lt (Nat.zero_le i) (by omega), Nat.sub_zero, fileContents_getD (by omega)]
  simp only [loadWord, entryPoint, hget 0 (by decide), hget 1 (by decide), hget 2 (by decide),
    hget 3 (by decide)]

theorem fits_iff (hinode : inode.toNat ≤ 64) : Fits im inode ↔ fileSize im inode ≤ programRoom := by
  have hroom : programRoom = 3899392 := rfl
  have hlen : extendedPageSize.toNat = 4194304 := rfl
  rw [Fits, readLocal_spec hinode (by decide) (Nat.zero_le _), hlen,
    show (0 : UInt32).toNat = 0 from rfl, show userPageEnd - virtualAddressForExecutableData =
      3899392 from rfl, hroom, readable, maxFileSize_toNat]
  omega

end File

/-! ## Loading -/

/-- The file lies in the page of process `pid`, contiguously from the address of the program on,
and nothing else has changed. -/
structure LoadedInPage (im : Image) (inode : UInt32) (pid : Nat) (k k₁ : Kernel) : Prop where
  inPage : ∀ n < fileSize im inode, 0x8000000 ≤ virtualAddressForExecutableData + n ∧
    virtualAddressForExecutableData + n < 0x8400000
  contiguous : ∀ n < fileSize im inode, ∃ pa, InFrame pid pa ∧
    k₁.paging.translate .user (virtualAddressForExecutableData + n) = some pa ∧
    k₁.phys pa = (fileContents im inode).getD n 0
  untouched : ∀ pa, (∀ n < fileSize im inode,
    k₁.paging.translate .user (virtualAddressForExecutableData + n) ≠ some pa) →
    k₁.phys pa = k.phys pa

section Load

variable {im : Image} {sp pid : Nat} {prog : Program} {eip : UInt32} {k k₁ : Kernel} {c : CString}
  {inode : UInt32}

/-- What was accepted is executable. -/
theorem lookupProgram_program (h : lookupProgram im c = some prog) :
    prog.inodeNum.toNat ≤ 64 ∧ HasProgram im prog.inodeNum ∧
      prog.eip = entryPoint im prog.inodeNum := by
  obtain ⟨-, hread, hexec, rfl⟩ := lookupProgram_iff.1 h
  have hinode : (commandInode im c).toNat ≤ 64 := by
    by_contra hbig
    have hfail : (readLocal im (commandInode im c) 0 metadataExecuteSize).1 = -1 := by
      rw [readLocal, readData_spec im _ 0 metadataExecuteSize _ (by decide),
        if_neg fun h => hbig h.1]
    omega
  have hprog := (hasProgram_iff hinode).2 ⟨hread, hexec⟩
  exact ⟨hinode, hprog, entryPoint_eq hinode hprog⟩

theorem loadProgram_fits (k : Kernel) (h₁ : 1 ≤ pid) (h₆ : pid ≤ 6) (hinode : inode.toNat ≤ 64)
    (hfits : fileSize im inode ≤ programRoom) :
    (loadProgram im inode (((k.setRunning pid true).setPid pid).changeProcess pid)).2.phys =
      store k.phys (userFrame pid + 0x48000) (fileByte im inode) (fileSize im inode) := by
  have ht := translate_program (k := (k.setRunning pid true).setPid pid) h₁ h₆
  have hroom : programRoom = 3899392 := rfl
  have hsize : readable im inode = fileSize im inode := by
    rw [readable, maxFileSize_toNat]
    omega
  have hread (b : Buf) : readData im inode 0 (some b) extendedPageSize =
      (↑(fileSize im inode), some (store b 0 (fileByte im inode) (fileSize im inode))) := by
    rw [readData_spec im inode 0 _ b (by decide), if_pos ⟨hinode, Nat.zero_le _⟩, hsize,
      show (0 : UInt32).toNat = 0 from rfl, show extendedPageSize.toNat = 4194304 from rfl,
      show min 4194304 (fileSize im inode - 0) = fileSize im inode by omega]
    simp only [Nat.zero_add]
  unfold loadProgram
  rw [ht]
  dsimp only
  rw [hread, if_pos (by rw [show userPageEnd - _ = 3899392 from rfl]; omega)]
  simp only [Option.getD_some, Int.toNat_natCast]
  exact store_congr fun i hi => store_of_lt (Nat.zero_le i) (by omega)

/-- **A program that starts is loaded**, and nothing else is stored. -/
theorem loaded_execute (h : execute im sp (some c) k = .started pid eip k₁) :
    ∃ prog, lookupProgram im c = some prog ∧ eip = prog.eip ∧
      fileSize im prog.inodeNum ≤ programRoom ∧ LoadedInPage im prog.inodeNum pid k k₁ := by
  obtain ⟨c', prog, hc, hlook, hfree, hstart⟩ := execute_started h
  obtain rfl := Option.some.inj hc
  obtain ⟨-, h₁, h₆, -⟩ := freeSlot_eq_some.1 hfree
  obtain ⟨hinode, -, -⟩ := lookupProgram_program hlook
  obtain ⟨hfit, heip⟩ := fits_of_started h₁ h₆ hstart
  have hfits := (fits_iff hinode).1 hfit
  have hroom : programRoom = 3899392 := rfl
  have hva : virtualAddressForExecutableData = 0x8048000 := rfl
  have hphys : k₁.phys = store k.phys (userFrame pid + 0x48000) (fileByte im prog.inodeNum)
      (fileSize im prog.inodeNum) := by
    rw [← loadProgram_fits k h₁ h₆ hinode hfits]
    unfold startProgram at hstart
    dsimp only at hstart
    split at hstart
    · injection hstart with _ _ hk
      rw [contextSwitch_eq] at hk
      rw [← hk]
      rfl
    · cases hstart
  have hmap (n : Nat) (hn : n < fileSize im prog.inodeNum) :
      k₁.paging.translate .user (virtualAddressForExecutableData + n) =
        some (userFrame pid + 0x48000 + n) := by
    have := translate_userPage h₁ h₆ (started_of_execute h).user_entry
      (show 0x48000 + n < 0x400000 by omega)
    rw [hva, show 0x8048000 + n = 0x8000000 + (0x48000 + n) by omega, this, userFrame]
    exact congrArg some (Nat.add_assoc _ _ _).symm
  refine ⟨prog, hlook, heip.symm, hfits, fun n hn => ?_, fun n hn => ?_, fun pa hpa => ?_⟩
  · omega
  · refine ⟨_, ?_, hmap n hn, ?_⟩
    · rw [InFrame, processSize]
      omega
    · rw [hphys, store_of_lt (by omega) (by omega), fileContents_getD hn, Nat.add_sub_cancel_left]
  · rw [hphys]
    by_contra hne
    have hin : userFrame pid + 0x48000 ≤ pa ∧
        pa < userFrame pid + 0x48000 + fileSize im prog.inodeNum := by
      by_contra hout
      exact hne (store_of_not (by omega))
    refine hpa (pa - (userFrame pid + 0x48000)) (by omega) ?_
    rw [hmap _ (by omega), Nat.add_sub_cancel' hin.1]

end Load

/-- The file is loaded into the page, or, where the page has no room for it, `execute` fails. -/
def KeepsToPage (im : Image) (sp : Nat) (k : Kernel) (c : CString) (pid : Nat) (inode : UInt32) :
    Prop :=
  if fileSize im inode ≤ programRoom then
    ∃ eip k₁, execute im sp (some c) k = .started pid eip k₁ ∧ LoadedInPage im inode pid k k₁
  else ∃ k₁, execute im sp (some c) k = .failed k₁

/-- **Loading keeps to the page exactly when** the file is at most 3,899,392 bytes long. A longer
one makes `execute` run into a page fault. -/
theorem program_page {im : Image} {pid : Nat} {prog : Program} {k : Kernel} {c : CString}
    (sp : Nat) (hlen : strlen c ≤ 128) (hlook : lookupProgram im c = some prog)
    (hfree : freeSlot k = some pid) :
    KeepsToPage im sp k c pid prog.inodeNum ↔ fileSize im prog.inodeNum ≤ 3899392 := by
  obtain ⟨hinode, -, -⟩ := lookupProgram_program hlook
  change _ ↔ fileSize im prog.inodeNum ≤ programRoom
  rw [KeepsToPage]
  split
  · refine iff_of_true ?_ ‹_›
    obtain ⟨k₁, hk₁⟩ := (execute_starts_iff hlen).2
      ⟨hfree, prog, hlook, (fits_iff hinode).2 ‹_›, rfl⟩
    obtain ⟨prog', hlook', -, -, hload⟩ := loaded_execute hk₁
    obtain rfl := Option.some.inj (hlook.symm.trans hlook')
    exact ⟨_, k₁, hk₁, hload⟩
  · refine iff_of_false ?_ ‹_›
    rintro ⟨k₁, hk₁⟩
    obtain ⟨-, h₁, h₆, -⟩ := freeSlot_eq_some.1 hfree
    obtain ⟨k₂, hk₂⟩ := startProgram_of_not_fits sp k h₁ h₆ (mt (fits_iff hinode).1 ‹_›)
    rw [execute_of_lookup hlen hlook hfree, hk₂] at hk₁
    cases hk₁

/-- The shell of `shellImage` keeps to its page. -/
theorem program_page_shell : ∃ prog, lookupProgram shellImage shell = some prog ∧
    KeepsToPage shellImage 0x7FFF00 (bootState default) shell 1 prog.inodeNum := by
  obtain ⟨prog, hlook, hfits⟩ := hasShell_shellImage
  obtain ⟨hinode, -, -⟩ := lookupProgram_program hlook
  have hfree : freeSlot (bootState default) = some 1 := by decide
  exact ⟨prog, hlook, (program_page 0x7FFF00 (by decide) hlook hfree).2 ((fits_iff hinode).1 hfits)⟩

/-- The shell's image, with a shell of the format's maximum size: 1023 times its one block. -/
def largeImage : Image := sparseImage
  [(0, 2), (4, 64), (8, 1), (64, 46), (96, 1),
    (128, 115), (129, 104), (130, 101), (131, 108), (132, 108), (160, 2), (164, 1),
    (8193, 0xF0), (8194, 0x3F), (266240, 0x7f), (266241, 0x45), (266242, 0x4C), (266243, 0x46)]

theorem dirOk_largeImage : largeImage.DirOk where
  count_pos := by decide +kernel
  count_le := by decide +kernel
  dot := by decide +kernel
  nonempty := by decide +kernel
  distinct := by decide +kernel
  inode_lt := by decide +kernel
  unused := sparseImage_unused (show largeImage.dirEntries.toNat = 2 by decide +kernel) (by decide)

theorem goodFile_largeImage : largeImage.GoodFile 1 where
  lt_numInodes := by decide +kernel
  lt_max := by decide
  size_le := by decide +kernel
  blocks j hj := by
    have hsize : fileSize largeImage 1 = 4190208 := by decide +kernel
    have hdblocks : largeImage.numDblocks.toNat = 1 := by decide +kernel
    have hj' : (UInt32.ofNat j).toNat = j := toNat_ofNat_of_lt (by omega)
    have haddr : inodeAddr 1 + 4 + 4 * j = 8196 + 4 * j := rfl
    have hbyte (b : Nat) (hb : b < 4) : largeImage.byte (8196 + 4 * j + b) = 0 := by
      refine sparseImage_byte (by omega) fun x hx => ?_
      have hx' : x.1 < 8196 ∨ 266240 ≤ x.1 := by
        revert x
        decide
      omega
    rw [blockIndex, hj', haddr, toNat_word, hbyte 1 (by decide), hbyte 2 (by decide),
      hbyte 3 (by decide), ← Nat.add_zero (8196 + 4 * j), hbyte 0 (by decide), hdblocks]
    decide

/-- It does not fit, and `execute` does not fail. -/
theorem program_page_large : largeImage.DirOk ∧ largeImage.GoodFile 1 ∧
    ∃ prog, lookupProgram largeImage shell = some prog ∧ prog.inodeNum = 1 ∧
    fileSize largeImage prog.inodeNum = 1023 * 4096 ∧
    (∃ k₁, execute largeImage 0x7FFF00 (some shell) (bootState default) = .pageFault k₁) ∧
    ¬ KeepsToPage largeImage 0x7FFF00 (bootState default) shell 1 prog.inodeNum := by
  have hlook : (lookupProgram largeImage shell).map Program.inodeNum = some 1 := by decide +kernel
  have hsize : fileSize largeImage 1 = 1023 * 4096 := by decide +kernel
  obtain ⟨prog, hlook, hinode⟩ := Option.map_eq_some_iff.1 hlook
  have hfree : freeSlot (bootState default) = some 1 := by decide
  have hbig : ¬ fileSize largeImage prog.inodeNum ≤ programRoom := by
    rw [hinode, hsize]
    decide
  have hfits : ¬ Fits largeImage prog.inodeNum := by
    rwa [fits_iff (by rw [hinode]; decide)]
  obtain ⟨k₁, hk₁⟩ := startProgram_of_not_fits 0x7FFF00 (bootState default)
    (show 1 ≤ 1 by decide) (by decide) hfits
  have hexec := (execute_of_lookup (by decide) hlook hfree).trans hk₁
  refine ⟨dirOk_largeImage, goodFile_largeImage, prog, hlook, hinode, by rw [hinode, hsize],
    ⟨k₁, hexec⟩, ?_⟩
  rw [KeepsToPage, if_neg hbig]
  rintro ⟨k₂, hk₂⟩
  rw [hexec] at hk₂
  cases hk₂

/-! ## What is launched -/

/-- The command names the program of entry `i`. -/
structure NamesProgram (im : Image) (c : CString) (i : Nat) : Prop where
  entry : i < im.dirEntries.toNat
  word : firstWord c ≠ []
  name : im.entryName i = firstWord c
  regular : im.entryType i = 2
  program : HasProgram im (im.entryInode i)

/-- `execute` starts what the command names, and nothing else. -/
structure LaunchesNamed (im : Image) (sp : Nat) (k : Kernel) (c : CString) : Prop where
  starts : (∃ pid eip k₁, execute im sp (some c) k = .started pid eip k₁) ↔
    ∃ i, NamesProgram im c i
  loads : ∀ i pid eip k₁, NamesProgram im c i → execute im sp (some c) k = .started pid eip k₁ →
    LoadedInPage im (im.entryInode i) pid k k₁ ∧ eip = entryPoint im (im.entryInode i)

/-- A directory as far as its entries go: entry 0 is `.`, the names are distinct and not empty, and
the inode numbers are below 64. Nothing is said of the slots that the header does not count, and it
may count more than there are. -/
structure Image.NamesOk (im : Image) : Prop where
  count_pos : 0 < im.dirEntries.toNat
  dot : im.entryName 0 = [46] ∧ im.entryType 0 = 1 ∧ im.entryInode 0 = 0
  nonempty : ∀ i < im.dirEntries.toNat, im.entryName i ≠ []
  distinct : ∀ i < im.dirEntries.toNat, ∀ j < im.dirEntries.toNat,
    im.entryName i = im.entryName j → i = j
  inode_lt : ∀ i < im.dirEntries.toNat, (im.entryInode i).toNat < 64

theorem Image.DirOk.namesOk {im : Image} (h : im.DirOk) : im.NamesOk where
  count_pos := h.count_pos
  dot := h.dot
  nonempty := h.nonempty
  distinct := h.distinct
  inode_lt := h.inode_lt

/-- The slot that the lookup of the command finds: the first of the 63 with its name, whether or not
the header counts it, and the first of all for a blank command. -/
def Hits (im : Image) (c : CString) (i : Nat) : Prop :=
  i < 63 ∧ if firstWord c = [] then i = 0
    else im.entryName i = firstWord c ∧ ∀ j < i, im.entryName j ≠ firstWord c

/-- The inode number that the lookup takes from a slot: one signed byte, and 0 from the first. -/
def Image.slotInode (im : Image) (i : Nat) : UInt32 :=
  if i = 0 then 0 else signExtend (im.byte (Image.entryAddr i + 36))

/-- A program in what the command finds fits if it may be started, and does not if it may not. -/
structure OnlyPrograms (im : Image) (c : CString) : Prop where
  regular : ∀ i, NamesProgram im c i → i < 63 ∧ fileSize im (im.entryInode i) ≤ 3899392
  other : ∀ i, Hits im c i → ¬ (i < im.dirEntries.toNat ∧ im.entryType i = 2) →
    (im.slotInode i).toNat ≤ 64 → HasProgram im (im.slotInode i) →
    3899392 < fileSize im (im.slotInode i)

section Launch

variable {im : Image} {sp pid i j : Nat} {prog : Program} {eip : UInt32} {k k₁ : Kernel}
  {c : CString} {inode : UInt32}

theorem commandName_bytes (hlen : strlen c ≤ 127) : (commandName c).bytes = firstWord c := by
  rw [commandName, nameLength_eq hlen, List.take_length]
  exact List.takeWhile_eq_self_iff.2 fun b hb => decide_eq_true (firstWord_ne_zero hb)

/-- If any slot has the name, one is found. -/
theorem exists_hits (hi : i < 63) (hname : im.entryName i = firstWord c) : ∃ j, Hits im c j := by
  by_cases hnil : firstWord c = []
  · exact ⟨0, by decide, by rw [if_pos hnil]⟩
  · have hex : ∃ j, im.entryName j = firstWord c := ⟨i, hname⟩
    refine ⟨Nat.find hex, (Nat.find_min' hex hname).trans_lt hi, ?_⟩
    rw [if_neg hnil]
    exact ⟨Nat.find_spec hex, fun j hj => Nat.find_min hex hj⟩

/-- The lookup of the empty name compares no characters, and finds the directory. -/
theorem commandInode_blank (hlen : strlen c ≤ 127) (hnil : firstWord c = []) :
    (readDentryByName im (commandName c) default).1 = 0 ∧ commandInode im c = 0 := by
  have hzero : strlen (commandName c) = 0 := by
    rw [strlen, commandName_bytes hlen, hnil]
    rfl
  have hcmp : strncmp (im.from_ Image.firstDirectory) (commandName c).get
      (strlen (commandName c)) = 0 := by
    rw [hzero]
    rfl
  rw [commandInode, readDentryByName, if_pos hcmp]
  exact ⟨rfl, rfl⟩

theorem commandName_length (hlen : strlen c ≤ 127) (hnil : firstWord c ≠ []) :
    strlen (commandName c) ≠ 0 := by
  rw [strlen, commandName_bytes hlen]
  exact fun h0 => hnil (List.length_eq_zero_iff.1 h0)

theorem commandInode_hit (hdot : im.entryName 0 = [46]) (hlen : strlen c ≤ 127)
    (hi : Hits im c i) :
    (readDentryByName im (commandName c) default).1 = 0 ∧ commandInode im c = im.slotInode i := by
  obtain ⟨h63, hi⟩ := hi
  split_ifs at hi with hnil
  · rw [hi]
    exact commandInode_blank hlen hnil
  · obtain ⟨hname, hfirst⟩ := hi
    have hne := commandName_length hlen hnil
    rw [← commandName_bytes hlen] at hname hfirst
    rw [commandInode]
    cases i with
    | zero =>
      rw [readDentryByName_dot hdot (hname.symm.trans hdot)]
      exact ⟨rfl, rfl⟩
    | succ j =>
      rw [readDentryByName_first hdot hne default (by omega) hname hfirst]
      exact ⟨rfl, rfl⟩

theorem lookup_miss (hdot : im.entryName 0 = [46]) (hlen : strlen c ≤ 127)
    (hmiss : ∀ i, ¬ Hits im c i) : (readDentryByName im (commandName c) default).1 = -1 := by
  have hnil : firstWord c ≠ [] := fun hnil => hmiss 0 ⟨by decide, by rw [if_pos hnil]⟩
  rw [readDentryByName_none hdot (commandName_length hlen hnil) default fun i hi hname => ?_]
  rw [commandName_bytes hlen] at hname
  obtain ⟨j, hj⟩ := exists_hits hi hname
  exact hmiss j hj

/-- The program that `execute` accepts is that of the slot found, whatever its type. -/
theorem lookupProgram_hit (hdot : im.entryName 0 = [46]) (hlen : strlen c ≤ 127) :
    (∃ prog, lookupProgram im c = some prog ∧ prog.inodeNum = inode) ↔
      ∃ i, Hits im c i ∧ im.slotInode i = inode ∧ inode.toNat ≤ 64 ∧ HasProgram im inode := by
  constructor
  · rintro ⟨prog, hlook, rfl⟩
    obtain ⟨hinode, hprog, -⟩ := lookupProgram_program hlook
    obtain ⟨hfound, -, -, hprog_eq⟩ := lookupProgram_iff.1 hlook
    by_cases hmiss : ∀ i, ¬ Hits im c i
    · exact absurd (lookup_miss hdot hlen hmiss) hfound
    · obtain ⟨i, hi⟩ := not_forall_not.1 hmiss
      refine ⟨i, hi, ?_, hinode, hprog⟩
      rw [← (commandInode_hit hdot hlen hi).2, hprog_eq]
  · rintro ⟨i, hi, rfl, hinode, hprog⟩
    obtain ⟨hret, hino⟩ := commandInode_hit hdot hlen hi
    obtain ⟨hread, hexec⟩ := (hasProgram_iff hinode).1 hprog
    rw [← hino] at hread hexec
    exact ⟨_, lookupProgram_iff.2 ⟨by rw [hret]; decide, hread, hexec, rfl⟩, hino⟩

theorem starts_iff_hit (hdot : im.entryName 0 = [46]) (hlen : strlen c ≤ 127)
    (hfree : freeSlot k = some pid) :
    (∃ pid eip k₁, execute im sp (some c) k = .started pid eip k₁) ↔
      ∃ i, Hits im c i ∧ (im.slotInode i).toNat ≤ 64 ∧ HasProgram im (im.slotInode i) ∧
        fileSize im (im.slotInode i) ≤ 3899392 := by
  have hfits {inode : UInt32} (hinode : inode.toNat ≤ 64) :
      Fits im inode ↔ fileSize im inode ≤ 3899392 := fits_iff hinode
  constructor
  · rintro ⟨pid, eip, hstart⟩
    obtain ⟨-, prog, hlook, hfit, -⟩ := (execute_starts_iff (by omega)).1 hstart
    obtain ⟨i, hi, hino, hinode, hprog⟩ := (lookupProgram_hit hdot hlen).1 ⟨prog, hlook, rfl⟩
    rw [← hino] at hprog hinode hfit
    exact ⟨i, hi, hinode, hprog, (hfits hinode).1 hfit⟩
  · rintro ⟨i, hi, hinode, hprog, hfit⟩
    obtain ⟨prog, hlook, hino⟩ := (lookupProgram_hit hdot hlen).2 ⟨i, hi, rfl, hinode, hprog⟩
    rw [← hino] at hfit hinode
    exact ⟨pid, prog.eip, (execute_starts_iff (by omega)).2
      ⟨hfree, prog, hlook, (hfits hinode).2 hfit, rfl⟩⟩

/-- From an entry that the header counts the lookup takes its inode number. -/
theorem Image.NamesOk.slotInode (h : im.NamesOk) (hi : i < im.dirEntries.toNat) :
    im.slotInode i = im.entryInode i := by
  unfold Image.slotInode
  split_ifs with h0
  · rw [h0, h.dot.2.2]
  · have hinode := h.inode_lt i hi
    exact signExtend_byte (by simp only [Image.entryInode] at hinode; omega)

/-- The entry named is the one found, if it is in the first 63 slots. -/
theorem NamesProgram.hits (h : NamesProgram im c i) (hdir : im.NamesOk) (h63 : i < 63) :
    Hits im c i := by
  refine ⟨h63, ?_⟩
  rw [if_neg h.word]
  refine ⟨h.name, fun j hj hname => ?_⟩
  have hentry := h.entry
  have := hdir.distinct j (by omega) i hentry (hname.trans h.name.symm)
  omega

/-- If an entry has the name, nothing else is found. -/
theorem Hits.eq_named (hj : Hits im c j) (hdir : im.NamesOk) (hi : NamesProgram im c i) :
    j = i := by
  obtain ⟨-, hj⟩ := hj
  rw [if_neg hi.word] at hj
  obtain ⟨hname, hfirst⟩ := hj
  have hentry := hi.entry
  rcases Nat.lt_trichotomy j i with h | h | h
  · exact hdir.distinct j (by omega) i hentry (hname.trans hi.name.symm)
  · exact h
  · exact absurd hi.name (hfirst i h)

/-- The first entry is not a regular file, so a regular file is found by its name. -/
theorem Hits.names (hi : Hits im c i) (h : im.NamesOk) (hlt : i < im.dirEntries.toNat)
    (hreg : im.entryType i = 2) (hprog : HasProgram im (im.slotInode i)) :
    NamesProgram im c i := by
  rw [h.slotInode hlt] at hprog
  obtain ⟨-, hi⟩ := hi
  split_ifs at hi with hnil
  · rw [hi, h.dot.2.1] at hreg
    exact absurd hreg (by decide)
  · exact ⟨hlt, hnil, hi.1, hreg, hprog⟩

end Launch

/-- **`execute` launches only what was named exactly when** a program that the command names is in
the first 63 slots and fits, and no program that fits is in what else the lookup may find. -/
theorem launches_named {im : Image} {pid : Nat} {k : Kernel} {c : CString} (sp : Nat)
    (hdir : im.NamesOk) (hlen : strlen c ≤ 125) (hfree : freeSlot k = some pid) :
    LaunchesNamed im sp k c ↔ OnlyPrograms im c := by
  have hstarts := @starts_iff_hit im sp pid k c hdir.dot.1 (by omega) hfree
  constructor
  · intro h
    refine ⟨fun i hi => ?_, fun i hi hother hinode hprog => ?_⟩
    · obtain ⟨j, hj, hinode, hprog, hfit⟩ := hstarts.1 (h.starts.2 ⟨i, hi⟩)
      obtain rfl := hj.eq_named hdir hi
      rw [hdir.slotInode hi.entry] at hfit
      exact ⟨hj.1, hfit⟩
    · by_contra hfit
      obtain ⟨j, hj⟩ := h.starts.1 (hstarts.2 ⟨i, hi, hinode, hprog, Nat.not_lt.1 hfit⟩)
      obtain rfl := hi.eq_named hdir hj
      exact hother ⟨hj.entry, hj.regular⟩
  · intro h
    refine ⟨hstarts.trans ⟨?_, ?_⟩, fun i pid eip k₁ hi hk₁ => ?_⟩
    · rintro ⟨i, hi, hinode, hprog, hfit⟩
      by_cases hreg : i < im.dirEntries.toNat ∧ im.entryType i = 2
      · exact ⟨i, hi.names hdir hreg.1 hreg.2 hprog⟩
      · exact absurd (h.other i hi hreg hinode hprog) (Nat.not_lt.2 hfit)
    · rintro ⟨i, hi⟩
      obtain ⟨h63, hfit⟩ := h.regular i hi
      have hinode := (hdir.inode_lt i hi.entry).le
      have hprog := hi.program
      rw [← hdir.slotInode hi.entry] at hfit hinode hprog
      exact ⟨i, hi.hits hdir h63, hinode, hprog, hfit⟩
    · obtain ⟨prog, hlook, rfl, -, hload⟩ := loaded_execute hk₁
      obtain ⟨j, hj, hino, -⟩ :=
        (lookupProgram_hit hdir.dot.1 (by omega)).1 ⟨prog, hlook, rfl⟩
      obtain rfl := hj.eq_named hdir hi
      rw [← hdir.slotInode hi.entry, hino]
      exact ⟨hload, (lookupProgram_program hlook).2.2⟩

/-- `shell`, on an image that has it. -/
theorem launches_named_shell : LaunchesNamed shellImage 0x7FFF00 (bootState default) shell := by
  have hcount : shellImage.dirEntries.toNat = 2 := by decide +kernel
  have hsize : ∀ i < 2, fileSize shellImage (shellImage.entryInode i) ≤ 40 := by decide +kernel
  have hname : shellImage.entryName 1 = firstWord shell := by decide +kernel
  have hreg : shellImage.entryType 1 = 2 := by decide +kernel
  have hfree : freeSlot (bootState default) = some 1 := by decide
  refine (launches_named 0x7FFF00 dirOk_shellImage.namesOk (by decide) hfree).2
    ⟨fun i hi => ?_, fun i hi hother _ _ => ?_⟩
  · have hi2 : i < 2 := hcount ▸ hi.entry
    have := hsize i hi2
    omega
  · -- only the second slot has the name
    obtain ⟨-, hi⟩ := hi
    rw [if_neg (by decide)] at hi
    obtain rfl : i = 1 := by
      rcases Nat.lt_trichotomy i 1 with h | h | h
      · obtain rfl : i = 0 := by omega
        exact absurd hi.1 (by decide +kernel)
      · exact h
      · exact absurd hname (hi.2 1 h)
    exact absurd ⟨by rw [hcount]; decide, hreg⟩ hother

/-- The shell's image with an entry for the clock, whose inode number names the shell's file. -/
def clockImage : Image := sparseImage
  [(0, 3), (4, 64), (8, 1), (64, 46), (96, 1),
    (128, 115), (129, 104), (130, 101), (131, 108), (132, 108), (160, 2), (164, 1),
    (192, 114), (193, 116), (194, 99), (228, 1),
    (8192, 40), (266240, 0x7f), (266241, 0x45), (266242, 0x4C), (266243, 0x46)]

theorem dirOk_clockImage : clockImage.DirOk where
  count_pos := by decide +kernel
  count_le := by decide +kernel
  dot := by decide +kernel
  nonempty := by decide +kernel
  distinct := by decide +kernel
  inode_lt := by decide +kernel
  unused := sparseImage_unused (show clockImage.dirEntries.toNat = 3 by decide +kernel) (by decide)

/-- `rtc`. -/
def rtc : CString := .ofList (chars "rtc")

/-- The command `rtc` starts the shell. -/
theorem launches_device : clockImage.DirOk ∧
    (∃ eip k₁, execute clockImage 0x7FFF00 (some rtc) (bootState default) = .started 1 eip k₁) ∧
    ¬ LaunchesNamed clockImage 0x7FFF00 (bootState default) rtc := by
  have hlook : (lookupProgram clockImage rtc).map Program.inodeNum = some 1 := by decide +kernel
  obtain ⟨prog, hlook, hinode⟩ := Option.map_eq_some_iff.1 hlook
  have hfree : freeSlot (bootState default) = some 1 := by decide
  have hfits : Fits clockImage prog.inodeNum := by
    rw [fits_iff (by rw [hinode]; decide), hinode]
    decide +kernel
  obtain ⟨k₁, hk₁⟩ :=
    (@execute_starts_iff clockImage 0x7FFF00 1 prog.eip (bootState default) rtc (by decide)).2
      ⟨hfree, prog, hlook, hfits, rfl⟩
  refine ⟨dirOk_clockImage, ⟨_, k₁, hk₁⟩, fun h => ?_⟩
  obtain ⟨i, hi⟩ := h.starts.1 ⟨1, _, k₁, hk₁⟩
  have hnone : ∀ i < 3, clockImage.entryName i = firstWord rtc → clockImage.entryType i ≠ 2 := by
    decide +kernel
  have hcount : clockImage.dirEntries.toNat = 3 := by decide +kernel
  exact hnone i (hcount ▸ hi.entry) hi.name hi.regular

end Kernel391

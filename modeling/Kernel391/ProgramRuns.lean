import Kernel391.Progress
import Kernel391.ProgramsProof

/-!
# The programs on the machine

What `cat`, `ls`, `hello`, `testprint` and `shell` do when a process runs them, among all others, in
an orderly run.

**Theorem (`cat_prints`).** At any moment of its life, the process of a `cat` has printed the
beginning of the file that its arguments name. When `main` has returned, it has printed the whole
file; and whenever the process runs, it can go on to that point. Only a `cat` of the clock waits.

**Theorem (`shell_executes`).** The commands that a shell executes are those that it has read from
its terminal, each once and in their order, and the program that starts gets that command.

The constants of a program are in its file (`HasConstant`).
-/

namespace Kernel391

open Bytes Runs Interaction User

/-! ## Constants in a program file -/

/-- The program file `inode` has the constant string `s` in it, so that it is loaded to `lit s`, in
the page and not in the `n` bytes from `buf` on. -/
structure HasConstant (im : Image) (inode : UInt32) (lit : String → Nat) (buf n : Nat)
    (s : String) : Prop where
  loaded : virtualAddressForExecutableData ≤ lit s
  bytes : chars s ++ [0] <+: (im.contents inode).drop (lit s - virtualAddressForExecutableData)
  room : lit s + max ((chars s).length + 1) 4 ≤ userPageEnd
  apart : buf + n ≤ lit s ∨ lit s + (chars s).length < buf

section Constants

variable {im : Image} {c : CString} {v : UserView} {prog : Program} {lit : String → Nat}
  {buf n : Nat} {s : String}

/-- What is in the file is in the page of a program that starts. -/
theorem Fresh.constant (h : Fresh im c v) (hlook : lookupProgram im c = some prog)
    (hc : HasConstant im prog.inodeNum lit buf n s) (hs : ∀ b ∈ chars s, b ≠ 0) :
    Constant lit buf n s v := by
  obtain ⟨prog', hlook', hload⟩ := h.loaded
  obtain rfl := Option.some.inj (hlook.symm.trans hlook')
  have hlo := hc.loaded
  have hroom := hc.room
  have hbytes := hc.bytes
  have hdrop := slice_drop v.page virtualAddressForExecutableData (fileSize im prog.inodeNum)
    (lit s - virtualAddressForExecutableData)
  rw [hload, Nat.add_sub_cancel' hlo] at hdrop
  rw [hdrop] at hbytes
  have hlen := hbytes.length_le
  rw [length_slice, List.length_append, List.length_singleton] at hlen
  have htake := List.prefix_iff_eq_take.1 hbytes
  rw [slice_take, List.length_append, List.length_singleton, Nat.min_eq_left hlen] at htake
  refine ⟨stringAt_of_slice ?_ (by omega) htake.symm hs, by omega, hc.apart⟩
  simp only [virtualAddressForExecutableData] at hlo
  simp only [userPageStart]
  omega

theorem Fresh.args_nonzero (h : Fresh im c v) (hc : strlen c ≤ 127) : ∀ b ∈ v.args, b ≠ 0 := by
  intro b hb
  rw [h.args hc] at hb
  exact c.nonzero b ((List.takeWhile_sublist _).subset (List.mem_of_mem_drop hb))

theorem Fresh.args_length (h : Fresh im c v) (hc : strlen c ≤ 127) : v.args.length ≤ 127 := by
  rw [h.args hc, storedArguments, List.length_drop]
  have := commandLine_length_le c
  omega

theorem Fresh.argSize_le (h : Fresh im c v) (hc : strlen c ≤ 127) : v.argSize ≤ 127 :=
  h.argSize.trans_le ((commandLine_length_le c).trans hc)

end Constants

/-! ## Programs that print -/

section Prints

variable {im : Image} {p : Nat} {c : CString} {tr : List (Act × Answer)} {k : Kernel}
  {prog : Program} {main q : User Int} {lit : String → Nat} {buf fuel : Nat} {out : List UInt8}
  {code : Int} {B : Allowance}

/-- The life of a process whose program prints `out` and returns `code`: it has printed the
beginning of `out`, and once `main` has returned, `out` and no more, with that value. -/
structure Outputs (tr : List (Act × Answer)) (q : User Int) (out : List UInt8) (code : Int) :
    Prop where
  before : printed tr <+: out
  after : ∀ ret, q = .ret ret → printed tr = out ∧ ret = code

/-- When process `p` runs, it can go on until it has printed `out` and `main` returns `code`. -/
def GoesOn (im : Image) (p : Nat) (c : CString) (tr : List (Act × Answer)) (k : Kernel)
    (q : User Int) (out : List UInt8) (code : Int) : Prop :=
  k.process = p → ∃ l k', History im p c (tr ++ l) k' ∧ Path q l (.ret code) ∧
    printed (tr ++ l) = out

theorem History.outputs (him : HasShell im) (hok : im.Ok) (h : History im p c tr k)
    (hp : Path main tr q)
    (hends : ∀ v, Fresh im c v → Ends im B main [] v fun tr' _ ret =>
      Said out [] tr' ∧ ret = code) : Outputs tr q out code := by
  have hq := h.ensures him hok hp hends
  refine ⟨?_, ?_⟩
  · obtain ⟨l, _, _, hs, -⟩ := hq.finishes
    have hprints := hs.prints
    rw [printed_append] at hprints
    exact ⟨_, hprints⟩
  · rintro ret rfl
    exact ⟨hq.1.prints, hq.2⟩

theorem History.goesOn (him : HasShell im) (hok : im.Ok) (h : History im p c tr k)
    (hp : Path main tr q)
    (hends : ∀ v, Fresh im c v → Ends im (fun _ v a => Immediate v a) main [] v fun tr' _ ret =>
      Said out [] tr' ∧ ret = code) : GoesOn im p c tr k q out code := by
  intro hrun
  obtain ⟨l, k', ret, h', -, hl, hs, rfl⟩ := h.finishes him hok hrun (h.ensures him hok hp hends)
  exact ⟨l, k', h', hl, hs.prints⟩

/-- **`testprint`** prints its message. -/
theorem testprint_prints (him : HasShell im) (hok : im.Ok) (h : History im p c tr k)
    (hlook : lookupProgram im c = some prog)
    (hmsg : HasConstant im prog.inodeNum lit 0 0 testprintMessage) (hfuel : 51 ≤ fuel)
    (hp : Path (testprint lit fuel) tr q) :
    Outputs tr q (chars testprintMessage) 0 ∧ GoesOn im p c tr k q (chars testprintMessage) 0 := by
  have hends (v : UserView) (hv : Fresh im c v) : Ends im (fun _ v a => Immediate v a)
      (testprint lit fuel) [] v fun tr' _ ret =>
        Said (chars testprintMessage) [] tr' ∧ ret = 0 :=
    ends_testprint (fun _ _ _ => id) (hv.constant hlook hmsg (by decide +kernel)) hfuel
  exact ⟨h.outputs him hok hp hends, h.goesOn him hok hp hends⟩

/-- What `hello` prints, by the line it reads. -/
def greeting (line : List UInt8) : List UInt8 :=
  chars "Hi, what's your name? " ++ chars "Hello, " ++ (line ++ [newline]).takeWhile (· ≠ 0)

/-- **`hello`** greets with the line it reads, and waits for nothing but that line. -/
theorem hello_greets (him : HasShell im) (hok : im.Ok) (h : History im p c tr k)
    (hlook : lookupProgram im c = some prog) (hlo : userPageStart ≤ buf)
    (hhi : buf + 1024 ≤ userPageEnd)
    (hask : HasConstant im prog.inodeNum lit buf 1024 "Hi, what's your name? ")
    (hgreet : HasConstant im prog.inodeNum lit buf 1024 "Hello, ") (hfuel : 129 ≤ fuel)
    (hp : Path (hello lit buf fuel) tr q) :
    (∃ line, printed tr <+: greeting line ∧ linesRead tr <+: [line ++ [newline]]) ∧
      (∀ ret, q = .ret ret → ret = 0 ∧ ∃ line, printed tr = greeting line ∧
        linesRead tr = [line ++ [newline]]) ∧
      (k.process = p → ∃ l k' q', History im p c (tr ++ l) k' ∧ Path q l q' ∧
        (q' = .ret 0 ∨ ∃ nbytes next, q' = .act (.read 0 buf nbytes) next)) := by
  -- `hello` reads from the terminal, and does nothing else that is not immediate
  let B : Allowance := fun _ v a => Immediate v a ∨ ∃ nbytes, a = .read 0 buf nbytes
  have hq := h.ensures him hok hp fun v hv => ends_hello (B := B) (fun _ _ _ => .inl) hlo hhi
    (hv.constant hlook hask (by decide +kernel)) (hv.constant hlook hgreet (by decide +kernel))
    (fun _ _ nbytes => .inr ⟨nbytes, rfl⟩) hfuel
  refine ⟨?_, ?_, fun hrun => ?_⟩
  · obtain ⟨l, _, _, line, -, hlines, hprint, -⟩ := hq.finishes
    rw [linesRead_append] at hlines
    rw [printed_append] at hprint
    exact ⟨line, ⟨_, hprint⟩, _, hlines⟩
  · rintro ret rfl
    obtain ⟨line, -, hlines, hprint, hret⟩ := hq
    exact ⟨hret, line, hprint, hlines⟩
  · obtain ⟨l, k', q', h', -, hl, hq', hrests⟩ := h.advances him hok hrun hq
    refine ⟨l, k', q', h', hl, ?_⟩
    cases q' with
    | ret a =>
      obtain ⟨_, -, -, -, rfl⟩ := hq'
      exact .inl rfl
    | act a next =>
      obtain ⟨nbytes, rfl⟩ := hq'.1.resolve_left hrests
      exact .inr ⟨nbytes, next, rfl⟩
    | stuck => exact hq'.elim

end Prints

/-! ## The shell -/

section Shell

variable {im : Image} {p buf fuel rounds : Nat} {c : CString} {tr : List (Act × Answer)}
  {k : Kernel} {prog : Program} {q : User (Option Int)} {lit : String → Nat}

/-- The life of a process whose program is the shell. -/
structure ExecutesLines (im : Image) (p : Nat) (c : CString) (tr : List (Act × Answer))
    (k : Kernel) (q : User (Option Int)) : Prop where
  /-- It reads a line when it has executed all commands that it has read. -/
  reads : ∀ buf nbytes next, q = .act (.read 0 buf nbytes) next →
    executes tr = (commandsIn (linesRead tr)).length
  /-- It executes the next of them, and the program that starts has this command. -/
  executes : ∀ va next, q = .act (.execute va) next → ∃ past cmd,
    commandsIn (linesRead tr) = past ++ [cmd] ∧ executes tr = past.length ∧
    ∀ d r k' p', k.process = p → StartsInTurn im k (.execute va) →
      OsStep im k (.act d (.execute va)) r k' → r.answer = .went (.started p') →
      History im p' (.ofList cmd) [] k'
  /-- When it runs, it goes on until it reads, executes, or waits for a program. -/
  goesOn : k.process = p → ∃ l k' q', History im p c (tr ++ l) k' ∧ k'.process = p ∧
    Path q l q' ∧ Rests (view p k') q'

end Shell

/-! ## An image with constants -/

/-- Some constants. -/
def someConstants : List String := shellConstants ++ ["file not found\n", "."]

/-- One after the other, each with its NUL. -/
def constantBytes : List UInt8 := someConstants.flatMap fun s => chars s ++ [0]

/-- Where they are, once loaded. -/
def constantAddr (s : String) : Nat :=
  0x8048028 + ((someConstants.takeWhile (· ≠ s)).map fun s => (chars s ++ [0]).length).sum

/-- The directory `.` and an executable `shell`, 172 bytes long. -/
def headerImage : Image := sparseImage
  [(0, 2), (4, 64), (8, 1), (64, 46), (96, 1),
    (128, 115), (129, 104), (130, 101), (131, 108), (132, 108), (160, 2), (164, 1),
    (8192, 172), (266240, 0x7f), (266241, 0x45), (266242, 0x4C), (266243, 0x46)]

/-- With the constants at the end of the executable. -/
def constantImage : Image :=
  ⟨fun p => if p < 266280 then headerImage.mem p else constantBytes.getD (p - 266280) 0⟩

/-- What the kernel reads in it. -/
theorem constantImage_reads :
    constantImage.dirEntries.toNat = 2 ∧ constantImage.numInodes.toNat = 64 ∧
      constantImage.entryInode 1 = 1 ∧ fileSize constantImage 1 = 172 ∧
      blockIndex constantImage 1 0 = 0 ∧ constantBytes.length = 132 ∧
      (lookupProgram constantImage shell).map Program.inodeNum = some 1 ∧
      (readLocal constantImage 1 0 extendedPageSize).1 = 172 := by
  decide +kernel

theorem hasShell_constantImage : HasShell constantImage := by
  obtain ⟨-, -, -, -, -, -, hino, hfits⟩ := constantImage_reads
  obtain ⟨prog, hlook, hp⟩ := Option.map_eq_some_iff.1 hino
  refine ⟨prog, hlook, ?_⟩
  rw [Fits, hp, hfits]
  decide

theorem dirOk_constantImage : constantImage.DirOk where
  count_pos := by decide +kernel
  count_le := by decide +kernel
  dot := by decide +kernel
  nonempty := by decide +kernel
  distinct := by decide +kernel
  inode_lt := by decide +kernel
  unused i h₁ h₂ b hb := by
    obtain ⟨hcount, -⟩ := constantImage_reads
    have hheader : headerImage.dirEntries.toNat = 2 := by decide +kernel
    rw [hcount, ← hheader] at h₁
    refine (if_pos ?_).trans (sparseImage_unused hheader (by decide) i h₁ h₂ b hb)
    rw [Nat.mod_eq_of_lt (by simp only [Image.entryAddr, Image.firstDirectory]; omega)]
    simp only [Image.entryAddr, Image.firstDirectory]
    omega

theorem imageOk_constantImage : constantImage.Ok where
  dir := dirOk_constantImage
  types := by decide +kernel
  files i hi hname ht := by
    obtain ⟨hcount, -, hino, hsize, -⟩ := constantImage_reads
    have hi2 : i < 2 := by
      by_contra hc
      exact hname (dirOk_constantImage.entriesOk.entryName_unused (by omega) hi)
    obtain rfl | rfl : i = 0 ∨ i = 1 := by omega
    · exact absurd ht (by decide +kernel)
    · rw [hino]
      refine ⟨by decide +kernel, by decide, by omega, fun j hj => ?_⟩
      obtain rfl : j = 0 := by omega
      decide +kernel

theorem fileByte_constantImage {i : Nat} (h₁ : 40 ≤ i) (h₂ : i < 172) :
    fileByte constantImage 1 i = constantBytes.getD (i - 40) 0 := by
  obtain ⟨-, hinodes, -, -, hblock, -⟩ := constantImage_reads
  rw [fileByte, Nat.div_eq_of_lt (by omega), Nat.mod_eq_of_lt (by omega)]
  have haddr : blockAddr constantImage 0 = 266240 := by
    rw [blockAddr, hinodes]
    rfl
  show constantImage.byte (blockAddr constantImage (blockIndex constantImage 1 0) + i) = _
  rw [hblock, haddr, Image.byte, Nat.mod_eq_of_lt (by omega)]
  refine (if_neg (by omega)).trans ?_
  rw [show 266240 + i - 266280 = i - 40 by omega]

theorem contents_constantImage : (constantImage.contents 1).drop 40 = constantBytes := by
  obtain ⟨-, -, -, hsize, -, hlen, -⟩ := constantImage_reads
  rw [Image.contents, hsize, slice_drop]
  refine List.ext_getElem? fun i => ?_
  rw [slice_getElem?]
  split_ifs with hi
  · rw [fileByte_constantImage (by omega) (by omega), Nat.zero_add, Nat.add_sub_cancel_left,
      List.getD_eq_getElem _ _ (by omega), List.getElem?_eq_getElem]
  · exact (List.getElem?_eq_none (by omega)).symm

/-- Each piece of a concatenation is where the pieces before it end. -/
theorem prefix_drop_flatMap {l : List String} {s : String} (f : String → List UInt8)
    (hs : s ∈ l) :
    f s <+: (l.flatMap f).drop ((l.takeWhile (· ≠ s)).map fun s => (f s).length).sum := by
  induction l with
  | nil => cases hs
  | cons t l ih =>
    by_cases hts : t = s
    · subst hts
      simp
    · have hmem := (List.mem_cons.1 hs).resolve_left fun hc => hts hc.symm
      rw [List.takeWhile_cons_of_pos (by simpa using hts), List.map_cons, List.sum_cons,
        List.flatMap_cons, ← List.drop_drop, List.drop_left]
      exact ih hmem

theorem hasConstant_constantImage {s : String} (hs : s ∈ someConstants) (n : Nat) :
    HasConstant constantImage 1 constantAddr 0x8200000 n s := by
  have hpre := prefix_drop_flatMap (fun s => chars s ++ [0]) hs
  obtain ⟨-, -, -, -, -, hlen, -⟩ := constantImage_reads
  have hle := hpre.length_le
  rw [List.length_drop, ← constantBytes, hlen, List.length_append, List.length_singleton] at hle
  have haddr : constantAddr s = 0x8048028 +
    ((someConstants.takeWhile (· ≠ s)).map fun s => (chars s ++ [0]).length).sum := rfl
  generalize ((someConstants.takeWhile (· ≠ s)).map fun s => (chars s ++ [0]).length).sum = m at *
  have hend : userPageEnd = 0x8400000 := rfl
  have hbase : virtualAddressForExecutableData = 0x8048000 := rfl
  refine ⟨by omega, ?_, by omega, .inr (by omega)⟩
  rw [haddr, show 0x8048028 + m - virtualAddressForExecutableData = 40 + m by omega,
    ← List.drop_drop, contents_constantImage]
  exact hpre

/-- The first shell runs any program, for that matter. -/
theorem first_program : ∃ prog k, lookupProgram constantImage shell = some prog ∧
    prog.inodeNum = 1 ∧ History constantImage 1 shell [] k ∧ k.process = 1 := by
  obtain ⟨k, h, hk⟩ := history_first hasShell_constantImage default
  obtain ⟨-, -, -, -, -, -, hprog, -⟩ := constantImage_reads
  obtain ⟨prog, hlook, hino⟩ := Option.map_eq_some_iff.1 hprog
  exact ⟨prog, k, hlook, hino, h, hk⟩

end Kernel391

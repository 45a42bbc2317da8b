import Kernel391.Command
import Kernel391.FileSystemProof

/-!
# The command line

* `parseCommand_name`, `parseCommand_args`, `setUpFdsandargs_args` — the loops leave in their
  arrays what `lookupProgram` and `setUpFdsandargs` say.
* `command_buffers` — which commands make a store outside the arrays.
-/

namespace Kernel391

open Bytes

/-! ## The text of a command -/

/-- The command up to its first newline. -/
def commandLine (c : CString) : List UInt8 := c.bytes.takeWhile fun c => c ≠ newline

/-- Its first word. -/
def firstWord (c : CString) : List UInt8 :=
  (c.bytes.dropWhile fun c => c = space).takeWhile fun c => c ≠ space ∧ c ≠ newline

theorem commandLine_length_le (c : CString) : (commandLine c).length ≤ strlen c :=
  (List.takeWhile_sublist _).length_le

theorem firstWord_length_le (c : CString) : (firstWord c).length ≤ strlen c :=
  ((List.takeWhile_sublist _).trans (List.dropWhile_sublist _)).length_le

theorem commandLine_ne_zero {c : CString} {b : UInt8} (h : b ∈ commandLine c) : b ≠ 0 :=
  c.nonzero b ((List.takeWhile_sublist _).subset h)

theorem firstWord_ne_zero {c : CString} {b : UInt8} (h : b ∈ firstWord c) : b ≠ 0 :=
  c.nonzero b (((List.takeWhile_sublist _).trans (List.dropWhile_sublist _)).subset h)

/-! ## Copying a list into an array -/

/-- `l` stored at `n`, byte by byte. -/
def Cells.copy (n : Nat) (l : List UInt8) (a : Cells) : Cells where
  bytes := store a.bytes n (fun i => l.getD i 0) l.length
  stores := a.stores ++ List.range' n l.length

section Copy

variable {a : Cells} {n i j : Nat} {c : UInt8} {l : List UInt8} {argArr : Buf}

theorem Cells.copy_nil (n : Nat) (a : Cells) : a.copy n [] = a := by
  rw [Cells.copy, List.length_nil, store_zero, List.range'_zero, List.append_nil]

theorem Cells.copy_singleton (n : Nat) (c : UInt8) (a : Cells) : a.copy n [c] = a.set n c := by
  have hbytes : store a.bytes n (fun i => [c].getD i 0) 1 = Function.update a.bytes n c := by
    funext i
    by_cases hi : i = n
    · rw [hi, store_of_lt (Nat.le_refl n) (Nat.lt_succ_self n), Nat.sub_self]
      exact (Function.update_self n c a.bytes).symm
    · rw [store_of_not (by omega)]
      exact (Function.update_of_ne hi c a.bytes).symm
  rw [Cells.copy, List.length_singleton, hbytes]
  rfl

theorem Cells.copy_append (n : Nat) (l l' : List UInt8) (a : Cells) :
    a.copy n (l ++ l') = (a.copy n l).copy (n + l.length) l' := by
  have hbytes : store a.bytes n (fun i => (l ++ l').getD i 0) (l ++ l').length =
      store (a.copy n l).bytes (n + l.length) (fun i => l'.getD i 0) l'.length := by
    rw [Cells.copy, store_store rfl, List.length_append]
    refine store_congr fun i _ => ?_
    split
    · exact List.getD_append l l' 0 i ‹_›
    · exact List.getD_append_right l l' 0 i (Nat.not_lt.1 ‹_›)
  have hstores : List.range' n (l ++ l').length =
      List.range' n l.length ++ List.range' (n + l.length) l'.length := by
    rw [List.length_append, List.range'_append_1]
  rw [Cells.copy, hbytes, hstores, ← List.append_assoc]
  rfl

theorem Cells.copy_cons (n : Nat) (c : UInt8) (l : List UInt8) (a : Cells) :
    a.copy n (c :: l) = (a.set n c).copy (n + 1) l := by
  rw [← List.singleton_append, Cells.copy_append, Cells.copy_singleton, List.length_singleton]

theorem Cells.clear_eq (n : Nat) (a : Cells) : a.clear n = a.copy 0 (List.replicate n 0) := by
  induction n with
  | zero => exact (Cells.copy_nil 0 a).symm
  | succ n ih =>
    have hstep : a.clear (n + 1) = (a.clear n).set n 0 := by
      rw [Cells.clear, List.range_succ, List.foldl_append]
      rfl
    rw [hstep, ih, List.replicate_succ', Cells.copy_append, Cells.copy_singleton,
      List.length_replicate, Nat.zero_add]

/-- A loop that copies while `p` holds copies the longest prefix on which it does. -/
theorem copyWhile_eq (p : UInt8 → Bool) (l : List UInt8) (n : Nat) (a : Cells) :
    copyWhile p l n a = (n + (l.takeWhile p).length, a.copy n (l.takeWhile p)) := by
  induction l generalizing n a with
  | nil => rw [copyWhile, List.takeWhile_nil, Cells.copy_nil, List.length_nil, Nat.add_zero]
  | cons c l ih =>
    rw [copyWhile, List.takeWhile_cons]
    split
    · rw [ih, Cells.copy_cons, List.length_cons, Nat.add_right_comm, Nat.add_assoc]
    · rw [Cells.copy_nil, List.length_nil, Nat.add_zero]

/-- The argument loop copies up to the first NUL. -/
theorem copyArgs_eq (argArr : Buf) (n i j : Nat) (a : Cells) :
    copyArgs argArr n i j a =
      a.copy i (slice argArr j (strlenMax (fun k => argArr (j + k)) n)) := by
  induction n generalizing i j a with
  | zero =>
    have h : strlenMax (fun k => argArr (j + k)) 0 = 0 :=
      Nat.le_zero.1 (strlenMax_spec _ 0).1
    rw [copyArgs, h, slice_zero, Cells.copy_nil]
  | succ n ih =>
    rw [copyArgs]
    split
    · have h : strlenMax (fun k => argArr (j + k)) (n + 1) = 0 :=
        strlenMax_unique (Nat.zero_le _) (by simp) fun _ => by simpa
      rw [h, slice_zero, Cells.copy_nil]
    · rename_i hne
      obtain ⟨h₁, h₂, h₃⟩ := strlenMax_spec (fun k => argArr (j + 1 + k)) n
      have h : strlenMax (fun k => argArr (j + k)) (n + 1) =
          strlenMax (fun k => argArr (j + 1 + k)) n + 1 := by
        refine strlenMax_unique (by omega) (fun k hk => ?_) fun hlt => ?_
        · cases k with
          | zero => exact hne
          | succ k =>
            rw [Nat.add_comm k, ← Nat.add_assoc]
            exact h₂ k (by omega)
        · have := h₃ (by omega)
          rwa [Nat.add_right_comm, Nat.add_assoc] at this
      rw [ih, h, slice_cons, Cells.copy_cons]

theorem Cells.mem_copy (h : i ∈ (a.copy n l).stores) : i ∈ a.stores ∨ n ≤ i ∧ i < n + l.length := by
  rw [Cells.copy, List.mem_append, List.mem_range'_1] at h
  exact h

theorem Cells.mem_set (h : i ∈ (a.set n c).stores) : i ∈ a.stores ∨ i = n := by
  rw [Cells.set, List.mem_append, List.mem_singleton] at h
  exact h

/-- What a copy leaves at an index: the list, and behind it what was there. -/
theorem Cells.copy_bytes (l : List UInt8) (a : Cells) (i : Nat) :
    (a.copy 0 l).bytes i = if i < l.length then l.getD i 0 else a.bytes i := by
  rw [Cells.copy]
  dsimp only
  split
  · exact store_of_lt (Nat.zero_le i) (by omega)
  · exact store_of_not (by omega)

end Copy

/-! ## What the parsing loops compute -/

/-- The string in an array ends at its first NUL. -/
theorem ofList_slice (b : Buf) (n : Nat) :
    (CString.ofList (slice b 0 n)).bytes = slice b 0 (strlenMax b n) := by
  obtain ⟨h₁, h₂, h₃⟩ := strlenMax_spec b n
  have hpre : ∀ x ∈ slice b 0 (strlenMax b n), decide (x ≠ 0) = true := by
    intro x hx
    obtain ⟨i, hi, rfl⟩ := List.mem_map.1 hx
    rw [Nat.zero_add]
    exact decide_eq_true (h₂ i (List.mem_range.1 hi))
  obtain ⟨m, hm⟩ := Nat.exists_eq_add_of_le h₁
  have hsplit : slice b 0 n =
      slice b 0 (strlenMax b n) ++ slice b (strlenMax b n) m := by
    conv_lhs => rw [hm, slice_add, Nat.zero_add]
  have hstop : (slice b (strlenMax b n) m).takeWhile (fun x => decide (x ≠ 0)) = [] := by
    cases m with
    | zero => rfl
    | succ m =>
      rw [slice_cons, h₃ (by omega)]
      rfl
  change (slice b 0 n).takeWhile (fun x => decide (x ≠ 0)) = _
  rw [hsplit, List.takeWhile_append_of_pos hpre, hstop, List.append_nil]

/-- The final `j`, after the name was cut to leave room for its terminator. -/
def nameLength (c : CString) : Nat :=
  if (firstWord c).length = maxBufSizeExecute then maxBufSizeExecute - 1
  else (firstWord c).length

/-- The string in `buf`. -/
def CommandLine.name (l : CommandLine) : CString := .ofList (slice l.buf.bytes 0 maxBufSizeExecute)

section Parse

variable {im : Image} {c : CString} {prog : Program} {argArr buf : Buf}

theorem parseCommand_eq (c : CString) (argArr buf : Buf) : parseCommand c argArr buf =
    { argArr := ((Cells.copy 0 (List.replicate 128 0) ⟨argArr, []⟩).copy 0 (commandLine c)).set
        ((commandLine c).length + 1) 0
      argSize := (commandLine c).length
      buf := (Cells.copy 0 (firstWord c) ⟨buf, []⟩).set (nameLength c) 0
      argIdx := nameLength c + 1 } := by
  unfold parseCommand saveCommand parseName
  simp only [copyWhile_eq, Nat.zero_add, Cells.clear_eq]
  rfl

theorem nameLength_le (c : CString) : nameLength c ≤ (firstWord c).length := by
  unfold nameLength
  split
  · omega
  · exact Nat.le_refl _

theorem nameLength_lt (h : strlen c ≤ 128) : nameLength c < 128 := by
  have := firstWord_length_le c
  rw [nameLength, maxBufSizeExecute]
  split <;> omega

theorem nameLength_eq (h : strlen c ≤ 127) : nameLength c = (firstWord c).length :=
  if_neg (by
    have := firstWord_length_le c
    rw [maxBufSizeExecute]
    omega)

/-- `buf` holds the name that `lookupProgram` looks up. -/
theorem parseCommand_name (h : strlen c ≤ 128) (argArr buf : Buf) :
    (parseCommand c argArr buf).name.bytes = (firstWord c).take (nameLength c) := by
  have hj := nameLength_lt h
  have hle := nameLength_le c
  have hbytes : (parseCommand c argArr buf).buf.bytes =
      Function.update (Cells.copy 0 (firstWord c) ⟨buf, []⟩).bytes (nameLength c) 0 := by
    rw [parseCommand_eq]
    rfl
  have hget (i : Nat) (hi : i < nameLength c) :
      (parseCommand c argArr buf).buf.bytes i = (firstWord c).getD i 0 := by
    rw [hbytes, Function.update_of_ne (by omega), Cells.copy_bytes, if_pos (by omega)]
  have hlen : strlenMax (parseCommand c argArr buf).buf.bytes maxBufSizeExecute =
      nameLength c := by
    refine strlenMax_unique hj.le (fun i hi => ?_) fun _ => ?_
    · rw [hget i hi, List.getD_eq_getElem _ _ (by omega)]
      exact firstWord_ne_zero (List.getElem_mem _)
    · rw [hbytes, Function.update_self]
  rw [CommandLine.name, ofList_slice, hlen]
  apply List.ext_getElem?
  intro i
  rw [slice_getElem?, List.getElem?_take, Nat.zero_add]
  split
  · rw [hget i ‹_›, List.getD_eq_getElem _ _ (by omega), List.getElem?_eq_getElem (by omega)]
  · rfl

/-- `arg_arr` holds the command up to its newline, and NULs. -/
theorem parseCommand_args (argArr buf : Buf) {i : Nat} (hi : i < 128) :
    (parseCommand c argArr buf).argArr.bytes i = (commandLine c).getD i 0 := by
  have hbytes : (parseCommand c argArr buf).argArr.bytes =
      Function.update ((Cells.copy 0 (List.replicate 128 0) ⟨argArr, []⟩).copy 0
        (commandLine c)).bytes ((commandLine c).length + 1) 0 := by
    rw [parseCommand_eq]
    rfl
  rw [hbytes]
  by_cases hlen : i = (commandLine c).length + 1
  · rw [hlen, Function.update_self, List.getD_eq_default _ _ (by omega)]
  · rw [Function.update_of_ne hlen, Cells.copy_bytes]
    split
    · rfl
    · rw [Cells.copy_bytes, List.length_replicate, if_pos hi, List.getD_replicate _ hi,
        List.getD_eq_default _ _ (by omega)]

/-- The name that `execute` looks up. -/
def commandName (c : CString) : CString := .ofList ((firstWord c).take (nameLength c))

/-- What `read_dentry_by_name` leaves in `dir_entry.inode_num`. -/
def commandInode (im : Image) (c : CString) : UInt32 :=
  (readDentryByName im (commandName c) default).2.inodeNum

/-- The whole of `lookupProgram`: the three checks, and what it keeps of the command. -/
theorem lookupProgram_iff : lookupProgram im c = some prog ↔
    (readDentryByName im (commandName c) default).1 ≠ -1 ∧
    (readLocal im (commandInode im c) 0 metadataExecuteSize).1 = 40 ∧
    isExecutable (readLocal im (commandInode im c) 0 metadataExecuteSize).2 = true ∧
    prog = {
      inodeNum := commandInode im c
      eip := loadWord (readLocal im (commandInode im c) startOfEipInExecutable
        sizeOfOperationsTable).2
      argSize := (commandLine c).length
      argIdx := nameLength c + 1
      argArr := fun i => (commandLine c).getD i 0 } := by
  unfold lookupProgram
  dsimp only
  rw [Option.ite_none_left_eq_some, Option.ite_none_left_eq_some, Option.ite_none_left_eq_some,
    not_not, not_not, Option.some_inj, @eq_comm Program _ prog]
  rfl

theorem lookupProgram_command (h : lookupProgram im c = some prog) :
    prog.argSize = (commandLine c).length ∧ prog.argIdx = nameLength c + 1 ∧
      prog.argArr = fun i => (commandLine c).getD i 0 := by
  obtain ⟨-, -, -, rfl⟩ := lookupProgram_iff.1 h
  exact ⟨rfl, rfl, rfl⟩

theorem copyArgs_congr {argArr argArr' : Buf} {n j : Nat}
    (h : ∀ k < n, argArr (j + k) = argArr' (j + k)) (i : Nat) (a : Cells) :
    copyArgs argArr n i j a = copyArgs argArr' n i j a := by
  induction n generalizing i j a with
  | zero => rfl
  | succ n ih =>
    have h0 : argArr j = argArr' j := h 0 (by omega)
    have hrest (i : Nat) (a : Cells) :
        copyArgs argArr n i (j + 1) a = copyArgs argArr' n i (j + 1) a := by
      refine ih (fun k hk => ?_) i a
      have := h (1 + k) (by omega)
      rwa [← Nat.add_assoc] at this
    rw [copyArgs, copyArgs, h0]
    split
    · rfl
    · exact hrest _ _

/-- `setUpFdsandargs` says what the stores into the argument array leave in it. -/
theorem setUpFdsandargs_args (p : Pcb) (argSize argIdx : Nat) (argArr : Buf) :
    (setUpFdsandargs argSize argIdx argArr p).argArr =
      (setUpArgs argSize argIdx argArr p.argArr).bytes := by
  have hclear : store p.argArr 0 (fun _ => 0) pcbMaxArgs =
      (Cells.clear pcbMaxArgs ⟨p.argArr, []⟩).bytes := by
    rw [Cells.clear_eq, Cells.copy, List.length_replicate]
    exact store_congr fun i hi => (List.getD_replicate _ hi).symm
  rw [setUpArgs, copyArgs_eq, Cells.copy, ← hclear, length_slice, setUpFdsandargs]
  dsimp only
  refine store_congr fun i hi => ?_
  rw [List.getD_eq_getElem?_getD, slice_getElem?, if_pos hi]
  rfl

/-- The arguments of a new process are those that the stores of `execute` and
`set_up_fdsandargs` leave. -/
theorem setUpFdsandargs_parse (hlen : strlen c ≤ 128) (h : lookupProgram im c = some prog)
    (p : Pcb) (argArr buf : Buf) :
    (setUpFdsandargs prog.argSize prog.argIdx prog.argArr p).argArr =
      (setUpArgs (parseCommand c argArr buf).argSize (parseCommand c argArr buf).argIdx
        (parseCommand c argArr buf).argArr.bytes p.argArr).bytes := by
  obtain ⟨hsize, hidx, harr⟩ := lookupProgram_command h
  have hline := commandLine_length_le c
  have hparse : (parseCommand c argArr buf).argSize = prog.argSize ∧
      (parseCommand c argArr buf).argIdx = prog.argIdx := by
    rw [parseCommand_eq, hsize, hidx]
    exact ⟨rfl, rfl⟩
  rw [setUpFdsandargs_args, hparse.1, hparse.2, setUpArgs, setUpArgs]
  refine congrArg Cells.bytes (copyArgs_congr (fun k hk => ?_) 0 _)
  rw [harr, parseCommand_args argArr buf (by omega)]

end Parse

/-! ## Stores outside the arrays -/

/-- No store of the parsing or of `set_up_fdsandargs` misses its array. -/
structure StaysInBuffers (l : CommandLine) (pcbArgs : Buf) : Prop where
  argArr : ∀ i ∈ l.argArr.stores, i < maxBufSizeExecute
  buf : ∀ i ∈ l.buf.stores, i < maxBufSizeExecute
  pcb : ∀ i ∈ (setUpArgs l.argSize l.argIdx l.argArr.bytes pcbArgs).stores, i < pcbMaxArgs

/-- **`execute` stays inside its command buffers exactly when** the command has at most 126
characters before its newline. -/
theorem command_buffers {c : CString} (hlen : strlen c ≤ 128) (argArr buf pcbArgs : Buf) :
    StaysInBuffers (parseCommand c argArr buf) pcbArgs ↔ (commandLine c).length ≤ 126 := by
  have hline := commandLine_length_le c
  have hword := firstWord_length_le c
  constructor
  · intro h
    have hterm : (commandLine c).length + 1 ∈ (parseCommand c argArr buf).argArr.stores := by
      rw [parseCommand_eq]
      exact List.mem_append_right _ (List.mem_singleton_self _)
    have := h.argArr _ hterm
    rw [maxBufSizeExecute] at this
    omega
  · intro h
    refine ⟨fun i hi => ?_, fun i hi => ?_, fun i hi => ?_⟩
    · rw [parseCommand_eq] at hi
      rcases Cells.mem_set hi with hi | rfl
      · rcases Cells.mem_copy hi with hi | ⟨-, hi⟩
        · rcases Cells.mem_copy hi with hi | ⟨-, hi⟩
          · cases hi
          · rwa [List.length_replicate, Nat.zero_add] at hi
        · rw [maxBufSizeExecute]
          omega
      · rw [maxBufSizeExecute]
        omega
    · rw [parseCommand_eq] at hi
      rcases Cells.mem_set hi with hi | rfl
      · rcases Cells.mem_copy hi with hi | ⟨-, hi⟩
        · cases hi
        · rw [maxBufSizeExecute]
          omega
      · exact nameLength_lt hlen
    · rw [setUpArgs, copyArgs_eq, Cells.clear_eq] at hi
      rcases Cells.mem_copy hi with hi | ⟨-, hi⟩
      · rcases Cells.mem_copy hi with hi | ⟨-, hi⟩
        · cases hi
        · rwa [List.length_replicate, Nat.zero_add] at hi
      · rw [length_slice] at hi
        have hmax := (strlenMax_spec (fun k => (parseCommand c argArr buf).argArr.bytes
          ((parseCommand c argArr buf).argIdx + k)) ((parseCommand c argArr buf).argSize -
            (parseCommand c argArr buf).argIdx)).1
        have hsize : (parseCommand c argArr buf).argSize = (commandLine c).length := by
          rw [parseCommand_eq]
        rw [pcbMaxArgs]
        omega

/-- `n` times the letter `a`. -/
def aCommand (n : Nat) : CString where
  bytes := List.replicate n 97
  nonzero b hb := by
    rw [(List.mem_replicate.1 hb).2]
    decide

theorem strlen_aCommand (n : Nat) : strlen (aCommand n) = n := List.length_replicate

theorem commandLine_aCommand (n : Nat) : commandLine (aCommand n) = List.replicate n 97 := by
  refine List.takeWhile_eq_self_iff.2 fun b hb => ?_
  rw [(List.mem_replicate.1 hb).2]
  rfl

/-- 126 of them are kept inside the arrays. -/
theorem command_buffers_126 :
    StaysInBuffers (parseCommand (aCommand 126) (fun _ => 1) fun _ => 1) fun _ => 1 :=
  (command_buffers (by rw [strlen_aCommand]; decide) _ _ _).2 (by
    rw [commandLine_aCommand, List.length_replicate])

/-- With 127 of them the terminator of the saved command is stored at `arg_arr[128]`. -/
theorem command_buffers_overrun : strlen (aCommand 127) ≤ maxBufSizeExecute ∧
    128 ∈ (parseCommand (aCommand 127) (fun _ => 1) fun _ => 1).argArr.stores ∧
    ¬ StaysInBuffers (parseCommand (aCommand 127) (fun _ => 1) fun _ => 1) fun _ => 1 := by
  have hmem : 128 ∈ (parseCommand (aCommand 127) (fun _ => 1) fun _ => 1).argArr.stores := by
    have hline : (commandLine (aCommand 127)).length + 1 = 128 := by
      rw [commandLine_aCommand, List.length_replicate]
    rw [parseCommand_eq, ← hline]
    exact List.mem_append_right _ (List.mem_singleton_self _)
  refine ⟨?_, hmem, fun h => absurd (h.argArr 128 hmem) (by decide)⟩
  rw [strlen_aCommand]
  decide

end Kernel391

import Kernel391.Printf
import Kernel391.PrintfSpec

/-!
# `printf`: correctness

The loop of `printf` and its `goto` follow the directives of the format (`resumes`): from outside or
inside a conversion, a complete rest of the format is gone through up to its terminator, and each
directive prints its expansion (`perform_computes`). The induction is on the bytes of the format, in
both states at once.

A format that ends inside a conversion takes the other way out: the terminator passes for an unknown
conversion, `buf++` steps over it, and the loop reads on behind it (`reads_past`).

* `printf_meets_iff` — `printf` keeps its promise exactly for the formats that do not end inside a
  conversion and whose length an `int32_t` holds.
* `printf_text` — for plain text it is the `printf` of the other modules.
-/

namespace Kernel391.LibC

open Memory Loop

/-! ## Printing a string -/

section Puts

variable {m : Mem} {s : UInt32} {l : List UInt8} {k : Kernel}

theorem puts_loop {i : ℕ} (h : StringAt m (addr s i) l) :
    Computes (whileLoop (fun r : Int32 × Kernel => m (s + r.1.toUInt32) != 0)
        (fun r => (r.1 + 1, putc (m (s + r.1.toUInt32)) r.2)) · (Int32.ofNat i, k))
      (Int32.ofNat (i + l.length), globalConsole.puts l k) := by
  induction l generalizing i k with
  | nil =>
    have h0 : m (s + (Int32.ofNat i).toUInt32) = 0 := h
    exact computes_while_done (by simp only [h0]; decide)
  | cons c l ih =>
    obtain ⟨hc, hne, hl⟩ := h
    have h0 : m (s + (Int32.ofNat i).toUInt32) = c := hc
    rw [addr_add_one] at hl
    refine computes_while_step (by simpa only [h0, bne_iff_ne] using hne) ?_
    have hnext : Int32.ofNat i + 1 = Int32.ofNat (i + 1) := (Int32.ofNat_add i 1).symm
    simp only [h0, hnext]
    rw [List.length_cons, Nat.add_comm l.length, ← Nat.add_assoc]
    exact ih hl

/-- `puts` prints the string. -/
theorem puts_computes (h : StringAt m s l) (k : Kernel) :
    Computes (fun n => (puts n m s k).map Prod.snd) (globalConsole.puts l k) := by
  rw [← addr_zero s] at h
  exact (puts_loop h).map Prod.snd

end Puts

/-! ## Printing a number -/

section Numbers

variable {frame : Mem} {k : Kernel}

/-- `itoa`, then `puts` from the start of the same buffer. -/
theorem itoa_puts {radix : Int32} (h2 : 2 ≤ radix) (h36 : radix ≤ 36) (value : UInt32) :
    Computes (fun n => (itoa n value 0 radix frame).bind fun conv =>
        (puts n conv.2 0 k).map Prod.snd)
      (globalConsole.puts (numeral radix.toInt.toNat value.toNat) k) := by
  obtain ⟨-, hr2, hr36⟩ := toNat_radix h2 h36
  have hlen := length_numeral_le hr2 value
  have hstr : StringAt (put frame 0 (numeral radix.toInt.toNat value.toNat ++ [0])) 0
      (numeral radix.toInt.toNat value.toNat) :=
    stringAt_put (by omega) (numeral_nonzero hr2 hr36)
  exact (itoa_computes h2 h36 value 0 frame).bind (puts_computes hstr k)

theorem printUnsigned_computes (value : UInt32) :
    Computes (printUnsigned · frame value k) (globalConsole.puts (numeral 10 value.toNat) k) :=
  itoa_puts (by decide) (by decide) value

/-- The magnitude of a negative value, `-2^31` included. -/
theorem toNat_neg {value : Int32} (h : value < 0) :
    (-value).toUInt32.toNat = value.toInt.natAbs := by
  have hlt : value.toInt < 0 := by rwa [Int32.lt_iff_toInt_lt, Int32.toInt_zero] at h
  have hint : value.toInt = value.toUInt32.toNat - (2 ^ 32 : Int) ∧ 0 < value.toUInt32.toNat := by
    have hcond : value.toInt = _ := BitVec.toInt_eq_toNat_cond value.toBitVec
    have hnat : value.toBitVec.toNat = value.toUInt32.toNat := rfl
    rw [hnat] at hcond
    split at hcond <;> omega
  have hvalue := value.toUInt32.toNat_lt
  have hsize : UInt32.size = 2 ^ 32 := rfl
  rw [Int32.toUInt32_neg, UInt32.toNat_neg, hsize]
  omega

theorem toNat_of_nonneg {value : Int32} (h : ¬ value < 0) :
    value.toUInt32.toNat = value.toInt.natAbs ∧ ¬ value.toInt < 0 := by
  have hge : ¬ value.toInt < 0 := by rwa [Int32.lt_iff_toInt_lt, Int32.toInt_zero] at h
  have hnat : value.toUInt32.toNat = value.toInt.toNat :=
    Int32.toNat_toUInt32_of_le (Int32.not_lt.1 h)
  omega

/-- The minus sign is stored first, and the numeral right behind it. -/
theorem stringAt_minus {l : List UInt8} (hlen : l.length ≤ 32) (hnz : ∀ c ∈ l, c ≠ 0) :
    StringAt (put (Function.update frame 0 '-'.toUInt8) 1 (l ++ [0])) 0 ('-'.toUInt8 :: l) := by
  have hput : put (Function.update frame 0 '-'.toUInt8) 1 (l ++ [0]) =
      put frame 0 ('-'.toUInt8 :: l ++ [0]) := by
    rw [update_eq_put]
    exact put_append (by simp; omega)
  rw [hput]
  exact stringAt_put (by simp; omega) (List.forall_mem_cons.2 ⟨by decide, hnz⟩)

theorem printSigned_computes (value : Int32) :
    Computes (printSigned · frame value k) (globalConsole.puts (signedText value.toInt) k) := by
  by_cases h : value < 0
  · have hneg : value.toInt < 0 := by rwa [Int32.lt_iff_toInt_lt, Int32.toInt_zero] at h
    have hstr : StringAt (put (Function.update frame 0 '-'.toUInt8) 1
        (numeral 10 (-value).toUInt32.toNat ++ [0])) 0
        ('-'.toUInt8 :: numeral 10 (-value).toUInt32.toNat) :=
      stringAt_minus (length_numeral_le (by decide) _) (numeral_nonzero (by decide) (by decide))
    have hprint : Computes (fun n => (itoa n (-value).toUInt32 1 10
        (Function.update frame 0 '-'.toUInt8)).bind fun conv => (puts n conv.2 0 k).map Prod.snd)
        (globalConsole.puts ('-'.toUInt8 :: numeral 10 (-value).toUInt32.toNat) k) :=
      (itoa_computes (by decide) (by decide) _ _ _).bind (puts_computes hstr k)
    rw [signedText, if_pos hneg, ← toNat_neg h]
    exact hprint.congr fun n => by rw [printSigned, if_pos h]
  · obtain ⟨hnat, hge⟩ := toNat_of_nonneg h
    rw [signedText, if_neg hge, ← hnat]
    have hprint : Computes (fun n => (itoa n value.toUInt32 0 10 frame).bind fun conv =>
        (puts n conv.2 0 k).map Prod.snd)
        (globalConsole.puts (numeral 10 value.toUInt32.toNat) k) :=
      itoa_puts (by decide) (by decide) value.toUInt32
    exact hprint.congr fun n => by rw [printSigned, if_neg h]

/-- The zeros in front: `j` of them are written. -/
theorem pad_loop (conv : Mem) {len j : ℕ} (h : len + j ≤ 8) :
    Computes (whileLoop (fun r : Int32 × Mem => decide (r.1 < 8))
        (fun r => (r.1 + 1, Function.update r.2 r.1.toUInt32 '0'.toUInt8)) ·
        (Int32.ofNat (len + j), put conv (addr 0 len) (List.replicate j '0'.toUInt8)))
      (8, put conv (addr 0 len) (List.replicate (8 - len) '0'.toUInt8)) := by
  induction hd : 8 - (len + j) generalizing j with
  | zero =>
    obtain rfl : j = 8 - len := by omega
    have hi : Int32.ofNat (len + (8 - len)) = 8 := by rw [Nat.add_sub_cancel' (by omega)]; rfl
    rw [hi]
    exact computes_while_done (show decide ((8 : Int32) < 8) = false by decide)
  | succ d ih =>
    refine computes_while_step ?_ ?_
    · rw [decide_eq_true_iff, Int32.lt_iff_toInt_lt, toInt_ofNat (by omega)]
      have h8 : (8 : Int32).toInt = 8 := by decide
      omega
    · have hnext : Int32.ofNat (len + j) + 1 = Int32.ofNat (len + (j + 1)) :=
        (Int32.ofNat_add (len + j) 1).symm
      have haddr : (Int32.ofNat (len + j)).toUInt32 =
          addr (addr 0 len) (List.replicate j '0'.toUInt8).length := by
        rw [addr_addr, List.length_replicate, addr, UInt32.zero_add]
        rfl
      simp only [hnext, haddr]
      rw [update_put (by rw [List.length_replicate]; omega), ← List.replicate_succ']
      exact ih (by omega) (by omega)

/-- The numeral is at 8, and the zeros right in front of it: from behind as many bytes as it is
long, they make eight digits. -/
theorem stringAt_zeros {l : List UInt8} (hlen : l.length ≤ 8) (hnz : ∀ c ∈ l, c ≠ 0) :
    StringAt (put (put frame 8 (l ++ [0])) (addr 0 l.length)
        (List.replicate (8 - l.length) '0'.toUInt8))
      (UInt32.ofNat l.length) (l.leftpad 8 '0'.toUInt8) := by
  have hzeros := List.length_replicate (n := 8 - l.length) (a := '0'.toUInt8)
  have height : (8 : UInt32) =
      addr (addr 0 l.length) (List.replicate (8 - l.length) '0'.toUInt8).length := by
    rw [addr_addr, hzeros, Nat.add_sub_cancel' hlen]
    rfl
  have hbase : addr 0 l.length = UInt32.ofNat l.length := UInt32.zero_add _
  rw [height, put_prepend (by simp; omega), ← List.append_assoc, hbase, List.leftpad]
  refine stringAt_put (by simp; omega) fun c hc => ?_
  rcases List.mem_append.1 hc with hc | hc
  · rw [List.eq_of_mem_replicate hc]
    decide
  · exact hnz c hc

theorem printHex_computes (alternate : Bool) (value : UInt32) :
    Computes (printHex · frame alternate value k)
      (globalConsole.puts
        (if alternate then hexText8 value.toNat else numeral 16 value.toNat) k) := by
  cases alternate with
  | false => exact itoa_puts (by decide) (by decide) value
  | true =>
    have hlen : (numeral 16 value.toNat).length ≤ 8 :=
      Numeral.length_text_le (by decide) (by decide) value.toNat_lt
    have hnz : ∀ c ∈ numeral 16 value.toNat, c ≠ 0 := numeral_nonzero (by decide) (by decide)
    have hitoa : Computes (itoa · value 8 16 frame)
        (8, put frame 8 (numeral 16 value.toNat ++ [0])) :=
      itoa_computes (by decide) (by decide) value 8 frame
    have hconv : StringAt (put frame 8 (numeral 16 value.toNat ++ [0])) 8
        (numeral 16 value.toNat) :=
      stringAt_put (by omega) hnz
    have hpad := pad_loop (put frame 8 (numeral 16 value.toNat ++ [0])) (j := 0)
      ((Nat.add_zero _).trans_le hlen)
    rw [List.replicate_zero, put_nil, Nat.add_zero] at hpad
    refine hitoa.bind ?_
    refine (strlen_computes hconv).bind ?_
    refine hpad.bind ?_
    exact puts_computes (stringAt_zeros hlen hnz) k

end Numbers

/-! ## One directive -/

section Directives

variable {m : Mem} {frames : UInt32 → Mem} {str : UInt32 → List UInt8} {s s' : PrintfState}
  {d : Directive}

/-- What the code does for a directive. -/
def perform (m : Mem) (frames : UInt32 → Mem) (fuel : ℕ) (s : PrintfState) :
    Directive → Option PrintfState
  | .plain c => some { s with k := putc c s.k }
  | .percent => some { s with k := putc '%'.toUInt8 s.k }
  | .hex => s.consume (printHex fuel (frames s.buf) false (load32 m s.esp) s.k)
  | .hex8 => s.consume (printHex fuel (frames s.buf) true (load32 m s.esp) s.k)
  | .unsigned => s.consume (printUnsigned fuel (frames s.buf) (load32 m s.esp) s.k)
  | .signed => s.consume (printSigned fuel (frames s.buf) (load32 m s.esp).toInt32 s.k)
  | .char => s.consume (some (putc (load32 m s.esp).toUInt8 s.k))
  | .string => s.consume ((puts fuel m (load32 m s.esp) s.k).map Prod.snd)
  | .unknown => some s

theorem formatCharSwitch_eq {fuel : ℕ} {alternate : Bool} (h : m s.buf ≠ '#'.toUInt8) :
    formatCharSwitch m frames (fuel + 1) alternate s =
      perform m frames fuel s.look (.ofByte alternate (m s.buf)) := by
  simp only [formatCharSwitch, Directive.ofByte, if_neg h, apply_ite (perform m frames fuel s.look)]
  cases alternate <;> rfl

/-- A directive moves neither through the format nor through its record. -/
theorem perform_frame {fuel : ℕ} (h : perform m frames fuel s d = some s') :
    s'.buf = s.buf ∧ s'.reads = s.reads := by
  have hconsume {o : Option Kernel} (ho : s.consume o = some s') :
      s'.buf = s.buf ∧ s'.reads = s.reads := by
    obtain ⟨k, -, rfl⟩ := Option.map_eq_some_iff.1 ho
    exact ⟨rfl, rfl⟩
  cases d with
  | plain c => exact Option.some.inj h ▸ ⟨rfl, rfl⟩
  | percent => exact Option.some.inj h ▸ ⟨rfl, rfl⟩
  | unknown => exact Option.some.inj h ▸ ⟨rfl, rfl⟩
  | hex | hex8 | unsigned | signed | char | string => exact hconsume h

/-- The argument pointer behind a directive. -/
def Directive.espAfter (d : Directive) (esp : UInt32) : UInt32 := if d.takes then esp + 4 else esp

/-- **One directive prints its expansion** and takes its word. -/
theorem perform_computes (frames : UInt32 → Mem) (s : PrintfState)
    (h : d = .string → StringAt m (load32 m s.esp) (str (load32 m s.esp))) :
    Computes (fun n => perform m frames n s d)
      { s with
        esp := d.espAfter s.esp
        k := globalConsole.puts (d.expand str (load32 m s.esp)) s.k } := by
  have hconsume {print : ℕ → Option Kernel} {k : Kernel} (hk : Computes print k) :
      Computes (fun n => s.consume (print n)) { s with k := k, esp := s.esp + 4 } :=
    hk.map fun k => ({ s with k := k, esp := s.esp + 4 } : PrintfState)
  cases d with
  | plain c => exact computes_some _
  | percent => exact computes_some _
  | unknown => exact computes_some _
  | hex => exact hconsume (printHex_computes false (load32 m s.esp))
  | hex8 => exact hconsume (printHex_computes true (load32 m s.esp))
  | unsigned => exact hconsume (printUnsigned_computes (load32 m s.esp))
  | signed => exact hconsume (printSigned_computes (load32 m s.esp).toInt32)
  | char => exact hconsume (computes_some _)
  | string => exact hconsume (puts_computes (h rfl) s.k)

end Directives

/-! ## Arguments -/

/-- The words `ws` stand on the stack from `esp`. -/
def ArgsAt (m : Mem) : UInt32 → List UInt32 → Prop
  | _, [] => True
  | esp, w :: ws => load32 m esp = w ∧ ArgsAt m (esp + 4) ws

/-- Enough arguments: a word for every directive that takes one, and a string behind the word of
every `%s`. -/
structure Arguments (m : Mem) (str : UInt32 → List UInt8) (ds : List Directive) (esp : UInt32)
    (ws : List UInt32) : Prop where
  held : ArgsAt m esp ws
  enough : ds.countP Directive.takes ≤ ws.length
  strings : ∀ p ∈ assign ds ws, p.1 = .string → StringAt m p.2 (str p.2)

section Arguments

variable {m : Mem} {str : UInt32 → List UInt8} {d : Directive} {ds : List Directive}
  {esp : UInt32} {ws : List UInt32}

/-- The words behind a directive. -/
def Directive.wordsAfter (d : Directive) (ws : List UInt32) : List UInt32 :=
  if d.takes then ws.tail else ws

theorem Directive.expand_of_not_takes (h : d.takes = false) (w w' : UInt32) :
    d.expand str w = d.expand str w' := by
  cases d <;> first | rfl | cases h

theorem Arguments.cons (h : Arguments m str (d :: ds) esp ws) :
    (d = .string → StringAt m (load32 m esp) (str (load32 m esp))) ∧
      Arguments m str ds (d.espAfter esp) (d.wordsAfter ws) ∧
      render str (d :: ds) ws =
        d.expand str (load32 m esp) ++ render str ds (d.wordsAfter ws) := by
  obtain ⟨hheld, henough, hstr⟩ := h
  cases ht : d.takes with
  | true =>
    rw [List.countP_cons_of_pos ht] at henough
    simp only [assign, ht, if_true, List.forall_mem_cons] at hstr
    cases ws with
    | nil => simp at henough
    | cons w ws =>
      obtain ⟨rfl, hheld⟩ := hheld
      simp only [Directive.espAfter, Directive.wordsAfter, render, assign, ht, if_true,
        List.flatMap_cons]
      exact ⟨hstr.1, ⟨hheld, by simpa using henough, hstr.2⟩, rfl⟩
  | false =>
    rw [List.countP_cons_of_neg (by simp [ht])] at henough
    simp only [assign, ht, Bool.false_eq_true, if_false, List.forall_mem_cons] at hstr
    simp only [Directive.espAfter, Directive.wordsAfter, render, assign, ht, Bool.false_eq_true,
      if_false, List.flatMap_cons]
    refine ⟨fun hd => ?_, ⟨hheld, henough, hstr.2⟩, ?_⟩
    · rw [hd] at ht
      cases ht
    · rw [Directive.expand_of_not_takes ht 0 (load32 m esp)]

theorem mem_of_mem_assign {p : Directive × UInt32} (h : p ∈ assign ds ws) : p.1 ∈ ds := by
  induction ds generalizing ws with
  | nil => cases h
  | cons d ds ih =>
    rw [assign] at h
    split at h
    · rcases List.mem_cons.1 h with rfl | h
      · exact List.mem_cons_self
      · exact List.mem_cons_of_mem _ (ih h)
    · rcases List.mem_cons.1 h with rfl | h
      · exact List.mem_cons_self
      · exact List.mem_cons_of_mem _ (ih h)

/-- Without a `%s` words are enough. -/
theorem Arguments.of_words (held : ArgsAt m esp ws) (enough : ds.countP Directive.takes ≤ ws.length)
    (h : Directive.string ∉ ds) : Arguments m str ds esp ws :=
  ⟨held, enough, fun _ hp hs => absurd (hs ▸ mem_of_mem_assign hp) h⟩

end Arguments

/-! ## One round -/

section Round

variable {m : Mem} {frames : UInt32 → Mem} {s : PrintfState} {fuel : ℕ}

theorem printfLoop_end (h : m s.buf = 0) : printfLoop m frames (fuel + 1) s = some s.look := by
  rw [printfLoop, if_pos h]

theorem printfLoop_percent (h : m s.buf = '%'.toUInt8) :
    printfLoop m frames (fuel + 1) s =
      (formatCharSwitch m frames fuel false s.look.look.advance).bind fun s =>
        printfLoop m frames fuel s.advance := by
  have h0 : m s.buf ≠ 0 := by rw [h]; decide
  have hbyte : printfByte m frames fuel s.look =
      formatCharSwitch m frames fuel false s.look.look.advance := if_pos h
  rw [printfLoop, if_neg h0, hbyte]

theorem printfLoop_plain (h0 : m s.buf ≠ 0) (h : m s.buf ≠ '%'.toUInt8) :
    printfLoop m frames (fuel + 1) s =
      printfLoop m frames fuel { s.look.look.look with k := putc (m s.buf) s.k }.advance := by
  have hbyte : printfByte m frames fuel s.look =
      some { s.look.look.look with k := putc (m s.buf) s.k } := if_neg h
  rw [printfLoop, if_neg h0, hbyte]
  rfl

theorem formatCharSwitch_alternate {alternate : Bool} (h : m s.buf = '#'.toUInt8) :
    formatCharSwitch m frames (fuel + 1) alternate s =
      formatCharSwitch m frames fuel true s.look.advance := by
  have hne : m s.buf ≠ '%'.toUInt8 := by rw [h]; decide
  simp only [formatCharSwitch, if_neg hne, if_pos h]

end Round

/-! ## A complete format -/

section Format

variable {m : Mem} {frames : UInt32 → Mem} {str : UInt32 → List UInt8} {s s₁ t : PrintfState}
  {c : UInt8} {l : List UInt8} {ds ds' : List Directive} {ws ws' : List UInt32}

/-- From `s` to `t` the text `l` was gone through up to its terminator, and what its directives
`ds` print with the words `ws` was printed. -/
structure Printed (str : UInt32 → List UInt8) (l : List UInt8) (ds : List Directive)
    (ws : List UInt32) (s t : PrintfState) : Prop where
  buf : t.buf = addr s.buf l.length
  esp : t.esp = addr s.esp (4 * ds.countP Directive.takes)
  k : t.k = globalConsole.puts (render str ds ws) s.k
  reads : ∀ a ∈ t.reads, a ∈ s.reads ∨ ∃ i ≤ l.length, a = addr s.buf i

/-- One byte further back. -/
theorem Printed.cons (h : Printed str l ds ws s₁ t) (hbuf : s₁.buf = s.buf + 1)
    (hreads : ∀ a ∈ s₁.reads, a = s.buf ∨ a ∈ s.reads)
    (hesp : addr s₁.esp (4 * ds.countP Directive.takes) =
      addr s.esp (4 * ds'.countP Directive.takes))
    (hk : globalConsole.puts (render str ds ws) s₁.k =
      globalConsole.puts (render str ds' ws') s.k) : Printed str (c :: l) ds' ws' s t where
  buf := by rw [h.buf, hbuf, addr_one_add, List.length_cons]
  esp := h.esp.trans hesp
  k := h.k.trans hk
  reads a ha := by
    rcases h.reads a ha with ha | ⟨i, hi, rfl⟩
    · rcases hreads a ha with rfl | ha
      · exact .inr ⟨0, Nat.zero_le _, (addr_zero _).symm⟩
      · exact .inl ha
    · exact .inr ⟨i + 1, by simpa using hi, by rw [hbuf, addr_one_add]⟩

theorem puts_append (l l' : List UInt8) (k : Kernel) :
    globalConsole.puts (l ++ l') k = globalConsole.puts l' (globalConsole.puts l k) :=
  List.foldl_append

/-- A directive, then the rest of the format. -/
theorem Printed.directive {d : Directive} (hargs : Arguments m str (d :: ds) s.esp ws)
    (h : Printed str l ds (d.wordsAfter ws) s₁ t) (hbuf : s₁.buf = s.buf + 1)
    (hreads : ∀ a ∈ s₁.reads, a = s.buf ∨ a ∈ s.reads) (hesp : s₁.esp = d.espAfter s.esp)
    (hk : s₁.k = globalConsole.puts (d.expand str (load32 m s.esp)) s.k) :
    Printed str (c :: l) (d :: ds) ws s t := by
  refine h.cons hbuf hreads ?_ ?_
  · rw [hesp, Directive.espAfter]
    cases ht : d.takes with
    | true =>
      rw [if_pos rfl, List.countP_cons_of_pos ht, Nat.mul_add, Nat.add_comm]
      exact addr_addr s.esp 4 _
    | false => rw [if_neg (by decide), List.countP_cons_of_neg (by simp [ht])]
  · rw [hk, hargs.cons.2.2, puts_append]

/-- The code goes from `s` to `t`: outside a conversion at the test of the loop, inside one at
`format_char_switch`. -/
def Resumes (m : Mem) (frames : UInt32 → Mem) : Option Bool → PrintfState → PrintfState → Prop
  | none, s, t => Computes (printfLoop m frames · s) t
  | some alternate, s, t => ∃ s₁, Computes (formatCharSwitch m frames · alternate s) s₁ ∧
      Computes (printfLoop m frames · s₁.advance) t

theorem resumes_end (h : m s.buf = 0) : Resumes m frames none s s.look :=
  .succ <| (computes_some _).congr fun _ => (printfLoop_end h).symm

/-- `%`. -/
theorem resumes_percent (h : m s.buf = '%'.toUInt8)
    (ht : Resumes m frames (some false) s.look.look.advance t) : Resumes m frames none s t := by
  obtain ⟨s₁, hs₁, ht⟩ := ht
  exact .succ <| (hs₁.bind (g := fun n s => printfLoop m frames n s.advance) ht).congr fun _ =>
    (printfLoop_percent h).symm

/-- A plain byte. -/
theorem resumes_plain (h0 : m s.buf ≠ 0) (h : m s.buf ≠ '%'.toUInt8)
    (ht : Resumes m frames none { s.look.look.look with k := putc (m s.buf) s.k }.advance t) :
    Resumes m frames none s t :=
  .succ <| Computes.congr ht fun _ => (printfLoop_plain h0 h).symm

/-- `#`. -/
theorem resumes_alternate {alternate : Bool} (h : m s.buf = '#'.toUInt8)
    (ht : Resumes m frames (some true) s.look.advance t) :
    Resumes m frames (some alternate) s t := by
  obtain ⟨s₁, hs₁, ht⟩ := ht
  exact ⟨s₁, .succ <| hs₁.congr fun _ => (formatCharSwitch_alternate h).symm, ht⟩

/-- The byte that ends a conversion. -/
theorem resumes_conversion {alternate : Bool} (h : m s.buf ≠ '#'.toUInt8)
    (hperform : Computes (fun n => perform m frames n s.look (.ofByte alternate (m s.buf))) s₁)
    (ht : Resumes m frames none s₁.advance t) : Resumes m frames (some alternate) s t :=
  ⟨s₁, .succ <| hperform.congr fun _ => (formatCharSwitch_eq h).symm, ht⟩

/-- **A complete format is gone through to its end**, from outside or inside a conversion. -/
theorem resumes (frames : UInt32 → Mem) {q : Option Bool} (hl : StringAt m s.buf l)
    (hq : complete q l = true) (hargs : Arguments m str (directives q l) s.esp ws) :
    ∃ t, Resumes m frames q s t ∧ Printed str l (directives q l) ws s t := by
  induction l generalizing q s ws with
  | nil =>
    cases q with
    | none =>
      refine ⟨s.look, resumes_end hl, (addr_zero _).symm, by simp [PrintfState.look, directives],
        rfl, fun a ha => ?_⟩
      rcases List.mem_cons.1 ha with rfl | ha
      · exact .inr ⟨0, le_rfl, (addr_zero _).symm⟩
      · exact .inl ha
    | some alternate => cases hq
  | cons c l ih =>
    obtain ⟨hc, hne, hl⟩ := hl
    cases q with
    | none =>
      by_cases h : c = '%'.toUInt8
      · rw [complete, if_pos h] at hq
        rw [directives, if_pos h] at hargs ⊢
        obtain ⟨t, hrun, ht⟩ := ih (s := s.look.look.advance) hl hq hargs
        exact ⟨t, resumes_percent (hc.trans h) hrun, ht.cons rfl
          (by simp [PrintfState.look, PrintfState.advance]) rfl rfl⟩
      · rw [complete, if_neg h] at hq
        rw [directives, if_neg h] at hargs ⊢
        obtain ⟨t, hrun, ht⟩ := ih
          (s := { s.look.look.look with k := putc (m s.buf) s.k }.advance) hl hq hargs.cons.2.1
        exact ⟨t, resumes_plain (hc ▸ hne) (hc ▸ h) hrun, ht.directive hargs rfl
          (by simp [PrintfState.look, PrintfState.advance]) rfl (by rw [hc]; rfl)⟩
    | some alternate =>
      by_cases h : c = '#'.toUInt8
      · rw [complete, if_pos h] at hq
        rw [directives, if_pos h] at hargs ⊢
        obtain ⟨t, hrun, ht⟩ := ih (s := s.look.advance) hl hq hargs
        exact ⟨t, resumes_alternate (hc.trans h) hrun, ht.cons rfl
          (by simp [PrintfState.look, PrintfState.advance]) rfl rfl⟩
      · rw [complete, if_neg h] at hq
        rw [directives, if_neg h] at hargs ⊢
        have hperform := perform_computes frames s.look hargs.cons.1
        obtain ⟨t, hrun, ht⟩ := ih (s := PrintfState.advance { s.look with
          esp := (Directive.ofByte alternate c).espAfter s.look.esp
          k := globalConsole.puts ((Directive.ofByte alternate c).expand str
            (load32 m s.look.esp)) s.look.k }) hl hq hargs.cons.2.1
        rw [← hc] at hperform
        exact ⟨t, resumes_conversion (hc ▸ h) hperform (hc ▸ hrun), ht.directive hargs rfl
          (by simp [PrintfState.look, PrintfState.advance]) rfl rfl⟩

end Format

/-! ## An incomplete format -/

section Incomplete

variable {m : Mem} {frames : UInt32 → Mem} {s s' t : PrintfState} {l : List UInt8}

/-- The record only grows. -/
theorem formatCharSwitch_reads {fuel : ℕ} {alternate : Bool}
    (h : formatCharSwitch m frames fuel alternate s = some s') : ∀ a ∈ s.reads, a ∈ s'.reads := by
  induction fuel generalizing alternate s with
  | zero => cases h
  | succ fuel ih =>
    intro a ha
    by_cases hc : m s.buf = '#'.toUInt8
    · rw [formatCharSwitch_alternate hc] at h
      exact ih h a (List.mem_cons_of_mem _ ha)
    · rw [formatCharSwitch_eq hc] at h
      rw [(perform_frame h).2]
      exact List.mem_cons_of_mem _ ha

theorem printfByte_reads {fuel : ℕ} (h : printfByte m frames fuel s = some s') :
    ∀ a ∈ s.reads, a ∈ s'.reads := by
  intro a ha
  rw [printfByte] at h
  split at h
  · exact formatCharSwitch_reads h a (List.mem_cons_of_mem _ ha)
  · obtain rfl := Option.some.inj h
    exact List.mem_cons_of_mem _ (List.mem_cons_of_mem _ ha)

/-- What was read before the loop, and the byte at which the loop starts. -/
theorem printfLoop_reads {fuel : ℕ} (h : printfLoop m frames fuel s = some t) :
    s.buf ∈ t.reads ∧ ∀ a ∈ s.reads, a ∈ t.reads := by
  induction fuel generalizing s with
  | zero => cases h
  | succ fuel ih =>
    rw [printfLoop] at h
    split at h
    · obtain rfl := Option.some.inj h
      exact ⟨List.mem_cons_self, fun a ha => List.mem_cons_of_mem _ ha⟩
    · obtain ⟨s₁, hs₁, ht⟩ := Option.bind_eq_some_iff.1 h
      have hmono : ∀ a ∈ s.look.reads, a ∈ t.reads := fun a ha =>
        (ih ht).2 a (printfByte_reads hs₁ a ha)
      exact ⟨hmono _ List.mem_cons_self, fun a ha => hmono a (List.mem_cons_of_mem _ ha)⟩

/-- A run from outside a conversion, or from inside one, ends in `t`. -/
def EndsIn (m : Mem) (frames : UInt32 → Mem) : Option Bool → PrintfState → PrintfState → Prop
  | none, s, t => ∃ n, printfLoop m frames n s = some t
  | some alternate, s, t => ∃ n n' s₁, formatCharSwitch m frames n alternate s = some s₁ ∧
      printfLoop m frames n' s₁.advance = some t

/-! Each step leaves a run that starts one byte further. -/

theorem endsIn_percent (h : m s.buf = '%'.toUInt8) (ht : EndsIn m frames none s t) :
    ∃ s₁, s₁.buf = s.buf + 1 ∧ EndsIn m frames (some false) s₁ t := by
  obtain ⟨n, ht⟩ := ht
  cases n with
  | zero => cases ht
  | succ n =>
    rw [printfLoop_percent h] at ht
    obtain ⟨s₁, hs₁, ht⟩ := Option.bind_eq_some_iff.1 ht
    exact ⟨s.look.look.advance, rfl, n, n, s₁, hs₁, ht⟩

theorem endsIn_plain (h0 : m s.buf ≠ 0) (h : m s.buf ≠ '%'.toUInt8)
    (ht : EndsIn m frames none s t) :
    ∃ s₁, s₁.buf = s.buf + 1 ∧ EndsIn m frames none s₁ t := by
  obtain ⟨n, ht⟩ := ht
  cases n with
  | zero => cases ht
  | succ n =>
    rw [printfLoop_plain h0 h] at ht
    exact ⟨_, rfl, n, ht⟩

theorem endsIn_alternate {alternate : Bool} (h : m s.buf = '#'.toUInt8)
    (ht : EndsIn m frames (some alternate) s t) :
    ∃ s₁, s₁.buf = s.buf + 1 ∧ EndsIn m frames (some true) s₁ t := by
  obtain ⟨n, n', s₁, hs₁, ht⟩ := ht
  cases n with
  | zero => cases hs₁
  | succ n =>
    rw [formatCharSwitch_alternate h] at hs₁
    exact ⟨s.look.advance, rfl, n, n', s₁, hs₁, ht⟩

theorem endsIn_conversion {alternate : Bool} (h : m s.buf ≠ '#'.toUInt8)
    (ht : EndsIn m frames (some alternate) s t) :
    ∃ s₁, s₁.buf = s.buf + 1 ∧ EndsIn m frames none s₁ t := by
  obtain ⟨n, n', s₁, hs₁, ht⟩ := ht
  cases n with
  | zero => cases hs₁
  | succ n =>
    rw [formatCharSwitch_eq h] at hs₁
    exact ⟨s₁.advance, congrArg (· + 1) (perform_frame hs₁).1, n', ht⟩

/-- **A format that ends inside a conversion is read on behind its terminator**, by every run that
ends. -/
theorem reads_past {q : Option Bool} (hl : StringAt m s.buf l) (hq : complete q l = false)
    (h : EndsIn m frames q s t) : addr s.buf (l.length + 1) ∈ t.reads := by
  induction l generalizing q s with
  | nil =>
    cases q with
    | none => cases hq
    | some alternate =>
      -- the terminator passes for an unknown conversion, and the loop starts again behind it
      have h0 : m s.buf ≠ '#'.toUInt8 := by rw [show m s.buf = 0 from hl]; decide
      obtain ⟨s₁, hbuf, n, ht⟩ := endsIn_conversion h0 h
      have hread := (printfLoop_reads ht).1
      rwa [hbuf] at hread
  | cons c l ih =>
    obtain ⟨hc, hne, hl⟩ := hl
    have hrest {q' : Option Bool} (hq : complete q' l = false)
        (h : ∃ s₁, s₁.buf = s.buf + 1 ∧ EndsIn m frames q' s₁ t) :
        addr s.buf ((c :: l).length + 1) ∈ t.reads := by
      obtain ⟨s₁, hbuf, ht⟩ := h
      rw [List.length_cons, ← addr_one_add, ← hbuf]
      rw [← hbuf] at hl
      exact ih hl hq ht
    cases q with
    | none =>
      by_cases hpercent : c = '%'.toUInt8
      · rw [complete, if_pos hpercent] at hq
        exact hrest hq (endsIn_percent (hc.trans hpercent) h)
      · rw [complete, if_neg hpercent] at hq
        exact hrest hq (endsIn_plain (hc ▸ hne) (hc ▸ hpercent) h)
    | some alternate =>
      by_cases hhash : c = '#'.toUInt8
      · rw [complete, if_pos hhash] at hq
        exact hrest hq (endsIn_alternate (hc.trans hhash) h)
      · rw [complete, if_neg hhash] at hq
        exact hrest hq (endsIn_conversion (hc ▸ hhash) h)

end Incomplete

/-! ## The function -/

/-- A call, as the compiler makes it: the format in memory, the argument words on the stack, and
the strings behind the words of `%s`. -/
structure Call where
  mem : Mem
  format : UInt32
  fmt : List UInt8
  esp : UInt32
  args : List UInt32
  str : UInt32 → List UInt8
  terminated : StringAt mem format fmt
  supplied : Arguments mem str (directives none fmt) esp args

/-- `printf` returns the length of the format, having read nothing behind its terminator, taken one
word for each directive that takes one, and printed the expansions of the directives in order. -/
def Call.Meets (c : Call) (frames : UInt32 → Mem) (k : Kernel) : Prop :=
  ∃ ret s, Computes (printf c.mem frames · c.format c.esp k) (ret, s) ∧
    ret.toInt = c.fmt.length ∧
    (∀ a ∈ s.reads, ∃ i ≤ c.fmt.length, a = addr c.format i) ∧
    s.esp = addr c.esp (4 * (directives none c.fmt).countP Directive.takes) ∧
    s.k = globalConsole.puts (render c.str (directives none c.fmt) c.args) k

section Call

variable {c : Call} {frames : UInt32 → Mem} {k : Kernel}

/-- A complete format gets what it should. -/
theorem Call.meets (hq : complete none c.fmt = true) (hlen : c.fmt.length < 2 ^ 31) :
    c.Meets frames k := by
  obtain ⟨t, hrun, ht⟩ := resumes frames
    (s := { buf := c.format, esp := c.esp, k := k, reads := [] }) c.terminated hq c.supplied
  have hret : t.buf - c.format = UInt32.ofNat c.fmt.length := by
    rw [ht.buf, addr, UInt32.add_comm, UInt32.add_sub_cancel]
  refine ⟨_, t, Computes.map hrun _, ?_, fun a ha => ?_, ht.esp, ht.k⟩
  · rw [hret]
    exact toInt_ofNat hlen
  · exact (ht.reads a ha).resolve_left (List.not_mem_nil (a := a))

/-- What was promised can only be kept for a complete format of such a length. -/
theorem Call.complete_of_meets (h : c.Meets frames k) :
    complete none c.fmt = true ∧ c.fmt.length < 2 ^ 31 := by
  obtain ⟨ret, s, hrun, hret, hreads, -⟩ := h
  have hlen : c.fmt.length < 2 ^ 31 := by
    have hlt := ret.toInt_lt
    omega
  refine ⟨?_, hlen⟩
  by_contra hq
  rw [Bool.not_eq_true] at hq
  have hpast : addr c.format (c.fmt.length + 1) ∈ s.reads := by
    refine hrun.of_run (P := fun r => addr c.format (c.fmt.length + 1) ∈ r.2.reads) ?_
    intro n r hn
    obtain ⟨t, ht, rfl⟩ := Option.map_eq_some_iff.1 hn
    exact reads_past (q := none) c.terminated hq ⟨n, ht⟩
  obtain ⟨i, hi, heq⟩ := hreads _ hpast
  have hoff := congrArg (off c.format) heq
  rw [off_addr_self (by omega), off_addr_self (by omega)] at hoff
  omega

end Call

/-- **`printf` keeps its promise exactly for the formats that do not end inside a conversion** and
whose length the return type holds. -/
theorem printf_meets_iff (c : Call) (frames : UInt32 → Mem) (k : Kernel) :
    c.Meets frames k ↔ complete none c.fmt = true ∧ c.fmt.length < 2 ^ 31 :=
  ⟨Call.complete_of_meets, fun h => Call.meets h.1 h.2⟩

/-- `printf("%d %#x", -2147483648, 14)`. -/
def numbersCall : Call where
  mem := store32 (store32 (put (fun _ => 0) 100 ([37, 100, 32, 37, 35, 120] ++ [0])) 200 0x80000000)
    204 14
  format := 100
  fmt := [37, 100, 32, 37, 35, 120]
  esp := 200
  args := [0x80000000, 14]
  str _ := []
  terminated := by
    simp only [StringAt]
    decide
  supplied := by
    refine .of_words ?_ (by decide) (by decide)
    simp only [ArgsAt]
    decide

theorem printf_meets_numbers : numbersCall.Meets (fun _ _ => 0) default :=
  (printf_meets_iff numbersCall (fun _ _ => 0) default).2 (by decide)

/-- `printf("%")`. -/
def percentCall : Call where
  mem := put (fun _ => 0) 100 ([37] ++ [0])
  format := 100
  fmt := [37]
  esp := 200
  args := []
  str _ := []
  terminated := stringAt_put (by decide) (by simp)
  supplied := .of_words trivial (by decide) (by decide)

theorem printf_lone_percent : ¬ percentCall.Meets (fun _ _ => 0) default := fun h =>
  absurd (Call.complete_of_meets h).1 (by decide)

/-! ## Plain text -/

theorem directives_text {l : List UInt8} (h : '%'.toUInt8 ∉ l) :
    complete none l = true ∧ directives none l = l.map .plain := by
  induction l with
  | nil => exact ⟨rfl, rfl⟩
  | cons c l ih =>
    rw [List.mem_cons, not_or] at h
    rw [complete, directives, if_neg (Ne.symm h.1), if_neg (Ne.symm h.1), (ih h.2).2]
    exact ⟨(ih h.2).1, rfl⟩

theorem render_text (str : UInt32 → List UInt8) (l : List UInt8) :
    render str (l.map .plain) [] = l := by
  induction l with
  | nil => rfl
  | cons c l ih => exact congrArg (c :: ·) ih

/-- Printing plain text is what the modules that print messages take it to be. -/
theorem printf_text {m : Mem} {frames : UInt32 → Mem} {format : UInt32} (s : String)
    (h : StringAt m format (chars s)) (hp : '%'.toUInt8 ∉ chars s) (esp : UInt32) (k : Kernel) :
    ∃ r, Computes (printf m frames · format esp k) r ∧ r.2.k = Kernel391.printf s k := by
  obtain ⟨hq, hds⟩ := directives_text hp
  have hargs : Arguments m (fun _ => []) (directives none (chars s)) esp [] := by
    have hplain : ∀ d ∈ (chars s).map Directive.plain, ¬ d.takes = true := by
      intro d hd
      obtain ⟨c, -, rfl⟩ := List.mem_map.1 hd
      exact Bool.false_ne_true
    rw [hds]
    exact .of_words trivial (List.countP_eq_zero.2 hplain).le fun hd => hplain _ hd rfl
  obtain ⟨t, hrun, ht⟩ := resumes frames
    (s := { buf := format, esp := esp, k := k, reads := [] }) h hq hargs
  refine ⟨_, Computes.map hrun _, ht.k.trans ?_⟩
  rw [hds, render_text]
  rfl

end Kernel391.LibC

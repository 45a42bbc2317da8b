import Kernel391.Pic

/-!
# The interrupt lines

* `deliverable_master`, `deliverable_slave` — when a line gets through.
* `irq_lines` — after which calls every line is as its last call left it.

Each bit of a mask is a register that some calls write. The bit of the master that stands for the
slave is written by the calls on all eight lines of the slave.
-/

namespace Kernel391

open History

namespace Pic

/-! ## Bits of a mask -/

def bit (m : UInt8) (i : Nat) : Bool := m.toBitVec.getLsbD i

section Bits

variable {m : UInt8} {n : UInt32} {i : Nat}

theorem getLsbD_shift (hn : n.toNat < 8) (hi : i < 8) :
    ((1 : UInt32) <<< n).toBitVec.getLsbD i = decide (i = n.toNat) := by
  have hcount : (n.toBitVec % 32).toNat = n.toNat :=
    Nat.mod_eq_of_lt (show n.toNat < 32 by omega)
  have hone : (1 : UInt32).toBitVec = 1#32 := rfl
  rw [UInt32.toBitVec_shiftLeft, BitVec.shiftLeft_eq', hcount, BitVec.getLsbD_shiftLeft, hone,
    BitVec.getLsbD_one]
  by_cases h : i < n.toNat
  · simp [h, Nat.ne_of_lt h]
  · have heq : i - n.toNat = 0 ↔ i = n.toNat := by omega
    simp [h, heq, show i < 32 by omega]

/-- Unmasking clears one bit, and leaves the others. -/
theorem bit_unmask (m : UInt8) (hn : n.toNat < 8) (hi : i < 8) :
    bit (unmask m n) i = (bit m i && !decide (i = n.toNat)) := by
  rw [bit, unmask, UInt32.toBitVec_toUInt8, BitVec.getLsbD_setWidth, UInt32.toBitVec_and,
    BitVec.getLsbD_and, UInt32.toBitVec_not, BitVec.getLsbD_not, getLsbD_shift hn hi,
    UInt8.toBitVec_toUInt32, BitVec.getLsbD_setWidth]
  simp [hi, show i < 32 by omega, bit]

theorem bit_mask (m : UInt8) (hn : n.toNat < 8) (hi : i < 8) :
    bit (mask m n) i = (bit m i || decide (i = n.toNat)) := by
  rw [bit, mask, UInt32.toBitVec_toUInt8, BitVec.getLsbD_setWidth, UInt32.toBitVec_or,
    BitVec.getLsbD_or, getLsbD_shift hn hi, UInt8.toBitVec_toUInt32, BitVec.getLsbD_setWidth]
  simp [hi, show i < 32 by omega, bit]

end Bits

/-! ## One call -/

/-- The data ports hold the masks. -/
structure PortsOk (p : Pic) : Prop where
  master : last (sentTo master8259PortData) p.outs = some p.masterMask
  slave : last (sentTo slave8259PortData) p.outs = some p.slaveMask

theorem last_outb (port' : Nat) (data : UInt8) (port : Nat) (p : Pic) :
    last (sentTo port') (p.outb data port).outs =
      if port = port' then some data else last (sentTo port') p.outs :=
  last_sentTo port' p.outs port data

@[simp] theorem outb_masterMask (data : UInt8) (port : Nat) (p : Pic) :
    (p.outb data port).masterMask = p.masterMask := rfl

@[simp] theorem outb_slaveMask (data : UInt8) (port : Nat) (p : Pic) :
    (p.outb data port).slaveMask = p.slaveMask := rfl

theorem PortsOk.setMaster {p : Pic} (h : PortsOk p) (m : UInt8) : PortsOk (p.setMaster m) where
  master := (last_outb _ _ _ _).trans (if_pos rfl)
  slave := (last_outb _ _ _ _).trans ((if_neg (by decide)).trans h.slave)

theorem PortsOk.setSlave {p : Pic} (h : PortsOk p) (m : UInt8) : PortsOk (p.setSlave m) where
  master := (last_outb _ _ _ _).trans ((if_neg (by decide)).trans h.master)
  slave := (last_outb _ _ _ _).trans (if_pos rfl)

theorem i8259Init_masks (p : Pic) :
    p.i8259Init.masterMask = p.masterMask ∧ p.i8259Init.slaveMask = p.slaveMask := by
  unfold i8259Init
  exact ⟨by simp only [outb_masterMask], by simp only [outb_slaveMask]⟩

/-- The last two writes of the initialisation are the masks. -/
theorem portsOk_init (p : Pic) : PortsOk p.i8259Init := by
  obtain ⟨hm, hs⟩ := i8259Init_masks p
  refine ⟨?_, ?_⟩
  · rw [hm, i8259Init, last_outb, if_neg (by decide), last_outb, if_pos rfl]
    simp only [outb_masterMask]
  · rw [hs, i8259Init, last_outb, if_pos rfl]
    simp only [outb_slaveMask]

end Pic

namespace IrqCall

open Pic

def enables : IrqCall → Bool
  | enable _ => true
  | disable _ => false

/-- What a call does to the bit of a line. -/
def op : IrqCall → UInt8 → UInt32 → UInt8
  | enable _ => unmask
  | disable _ => mask

/-- What the call tells of the lines in `line`: nothing, or whether it enables one. -/
def tells (line : Nat → Prop) [DecidablePred line] (c : IrqCall) : Option Bool :=
  if line c.irqNum.toNat then some c.enables else none

/-- A line of the slave. -/
def slaveLine (n : Nat) : Prop := 8 ≤ n ∧ n < 16

instance : DecidablePred slaveLine := fun _ => inferInstanceAs (Decidable (_ ∧ _))

section Call

variable {c : IrqCall} {p : Pic} {i : Nat} {f : UInt8 → UInt32 → UInt8} {n : UInt32}

theorem setLine_of_master (h : n.toNat < 8) :
    p.setLine f n = p.setMaster (f p.masterMask n) := by
  have hlt : n < slaveIrqStart := UInt32.lt_iff_toNat_lt.2 h
  have hnot : ¬ (slaveIrqStart ≤ n ∧ n < slaveIrqLast) :=
    fun hs => absurd (UInt32.le_iff_toNat_le.1 hs.1) (Nat.not_le.2 h)
  rw [Pic.setLine, if_pos hlt, if_neg hnot]

theorem setLine_of_slave (h : slaveLine n.toNat) :
    p.setLine f n =
      (p.setMaster (f p.masterMask irqSlave)).setSlave (f p.slaveMask (n - slaveIrqStart)) := by
  have hnot : ¬ n < slaveIrqStart := fun hs =>
    absurd (UInt32.lt_iff_toNat_lt.1 hs) (Nat.not_lt.2 h.1)
  rw [Pic.setLine, if_neg hnot,
    if_pos ⟨UInt32.le_iff_toNat_le.2 h.1, UInt32.lt_iff_toNat_lt.2 h.2⟩]
  rfl

theorem setLine_of_other (h : 16 ≤ n.toNat) : p.setLine f n = p := by
  have h₁ : ¬ n < slaveIrqStart := fun hs =>
    absurd (UInt32.lt_iff_toNat_lt.1 hs) (Nat.not_lt.2 (Nat.le_trans (by decide) h))
  have h₂ : ¬ (slaveIrqStart ≤ n ∧ n < slaveIrqLast) := fun hs =>
    absurd (UInt32.lt_iff_toNat_lt.1 hs.2) (Nat.not_lt.2 h)
  rw [Pic.setLine, if_neg h₁, if_neg h₂]

/-- Every number is a line of the master, of the slave, or none. -/
theorem line_cases (n : UInt32) : n.toNat < 8 ∨ slaveLine n.toNat ∨ 16 ≤ n.toNat := by
  rw [slaveLine]
  omega

theorem portsOk_setLine (h : PortsOk p) (f : UInt8 → UInt32 → UInt8) (n : UInt32) :
    PortsOk (p.setLine f n) := by
  rcases line_cases n with hn | hn | hn
  · rw [setLine_of_master hn]
    exact h.setMaster _
  · rw [setLine_of_slave hn]
    exact (h.setMaster _).setSlave _
  · rwa [setLine_of_other hn]

theorem run_eq (c : IrqCall) (p : Pic) : c.run p = p.setLine c.op c.irqNum := by
  cases c <;> rfl

/-- A call works on one bit, and leaves the others. -/
theorem bit_op (c : IrqCall) (m : UInt8) (hn : n.toNat < 8) (hi : i < 8) :
    (!bit (c.op m n) i) = if i = n.toNat then c.enables else !bit m i := by
  cases c with
  | enable n' =>
    rw [op, bit_unmask m hn hi]
    split <;> simp [enables, *]
  | disable n' =>
    rw [op, bit_mask m hn hi]
    split <;> simp [enables, *]

/-- A bit that calls on one line work on is a register of that line. -/
theorem register_bit {line : Nat → Prop} [DecidablePred line] (c : IrqCall) (m : UInt8)
    (hn : n.toNat < 8) (hi : i < 8) (hline : i = n.toNat ↔ line c.irqNum.toNat) :
    (!bit (c.op m n) i) = (c.tells line).getD (!bit m i) := by
  rw [bit_op c m hn hi, tells]
  by_cases h : line c.irqNum.toNat
  · rw [if_pos (hline.2 h), if_pos h]
    rfl
  · rw [if_neg (mt hline.1 h), if_neg h]
    rfl

theorem tells_of_not {line : Nat → Prop} [DecidablePred line] (h : ¬ line c.irqNum.toNat) :
    c.tells line = none := if_neg h

/-- **A line of the master** is as its last call left it. -/
theorem masterBit_step (c : IrqCall) (p : Pic) (hi : i < 8) (h2 : i ≠ 2) :
    (!bit (c.run p).masterMask i) = (c.tells (· = i)).getD (!bit p.masterMask i) := by
  rw [run_eq]
  rcases line_cases c.irqNum with hn | hn | hn
  · rw [setLine_of_master hn]
    exact register_bit c p.masterMask hn hi eq_comm
  · rw [setLine_of_slave hn, tells_of_not (by have := hn.1; omega)]
    exact (bit_op c p.masterMask (by decide) hi).trans (if_neg h2)
  · rw [setLine_of_other hn, tells_of_not (by omega)]
    rfl

/-- **The bit of the slave in the master** is as the last call on the slave left it. -/
theorem cascade_step (p : Pic) (hc : c.irqNum ≠ 2) :
    (!bit (c.run p).masterMask 2) = (c.tells slaveLine).getD (!bit p.masterMask 2) := by
  rw [run_eq]
  rcases line_cases c.irqNum with hn | hn | hn
  · have hne : 2 ≠ c.irqNum.toNat := fun h => hc (UInt32.toNat_inj.1 h.symm)
    rw [setLine_of_master hn, tells_of_not fun hs => absurd hs.1 (Nat.not_le.2 hn)]
    exact (bit_op c p.masterMask hn (by decide)).trans (if_neg hne)
  · rw [setLine_of_slave hn]
    exact register_bit c p.masterMask (by decide) (by decide) (iff_of_true rfl hn)
  · rw [setLine_of_other hn, tells_of_not fun hs => absurd hs.2 (Nat.not_lt.2 hn)]
    rfl

/-- **A line of the slave** has its own bit in the slave. -/
theorem slaveBit_step (c : IrqCall) (p : Pic) (hi : slaveLine i) :
    (!bit (c.run p).slaveMask (i - 8)) = (c.tells (· = i)).getD (!bit p.slaveMask (i - 8)) := by
  obtain ⟨h8, h16⟩ := hi
  rw [run_eq]
  rcases line_cases c.irqNum with hn | hn | hn
  · rw [setLine_of_master hn, tells_of_not (by omega)]
    rfl
  · have hsub : (c.irqNum - slaveIrqStart).toNat = c.irqNum.toNat - 8 :=
      UInt32.toNat_sub_of_le _ _ (UInt32.le_iff_toNat_le.2 hn.1)
    obtain ⟨hn8, hn16⟩ := hn
    rw [setLine_of_slave ⟨hn8, hn16⟩]
    exact register_bit c p.slaveMask (by omega) (by omega) (by omega)
  · rw [setLine_of_other hn, tells_of_not (by omega)]
    rfl

end Call

end IrqCall

/-! ## Runs -/

open Pic IrqCall

/-- After `calls`, from the initialisation on. -/
def runCalls (outs : List (Nat × UInt8)) (calls : List IrqCall) : Pic :=
  calls.foldl IrqCall.run (i8259Init (boot outs))

/-- The bit is clear in the mask that the controller was last given. -/
def Pic.Clear (p : Pic) (port i : Nat) : Prop :=
  ∃ m, last (sentTo port) p.outs = some m ∧ bit m i = false

/-- An interrupt on the line gets through. -/
def Pic.Deliverable (p : Pic) (n : Nat) : Prop :=
  if n < 8 then p.Clear master8259PortData n
  else p.Clear slave8259PortData (n - 8) ∧ p.Clear master8259PortData 2

/-- Every line is as the last call on it left it, and the controllers have the masks. -/
structure LinesIndependent (calls : List IrqCall) (p : Pic) : Prop where
  lines : ∀ n < 16, n ≠ 2 → (p.Deliverable n ↔ last (tells (· = n)) calls = some true)
  ports : PortsOk p

section Run

variable {outs : List (Nat × UInt8)} {calls : List IrqCall} {i : Nat}

theorem portsOk_run (outs : List (Nat × UInt8)) (calls : List IrqCall) :
    PortsOk (runCalls outs calls) := by
  induction calls using List.reverseRecOn with
  | nil => exact portsOk_init _
  | append_singleton calls c ih =>
    rw [runCalls, List.foldl_append, List.foldl_cons, List.foldl_nil, run_eq]
    exact portsOk_setLine ih _ _

theorem Pic.PortsOk.clear_master {p : Pic} (h : PortsOk p) :
    p.Clear master8259PortData i ↔ bit p.masterMask i = false := by
  rw [Pic.Clear, h.master]
  exact ⟨fun ⟨m, hm, hb⟩ => Option.some.inj hm ▸ hb, fun hb => ⟨_, rfl, hb⟩⟩

theorem Pic.PortsOk.clear_slave {p : Pic} (h : PortsOk p) :
    p.Clear slave8259PortData i ↔ bit p.slaveMask i = false := by
  rw [Pic.Clear, h.slave]
  exact ⟨fun ⟨m, hm, hb⟩ => Option.some.inj hm ▸ hb, fun hb => ⟨_, rfl, hb⟩⟩

/-- A register that is off at the start is on when the last event that sets it turns it on. -/
theorem on_iff {o : Option Bool} : o.getD false = true ↔ o = some true := by
  cases o <;> simp

theorem bit_maskValue (hi : i < 8) : bit maskValue i = true := by
  revert i
  decide

/-- A bit that every call leaves as the last call on some lines says is off at the start, and then
as that call left it. -/
theorem bit_run {line : Nat → Prop} [DecidablePred line] (mask : Pic → UInt8) (hi : i < 8)
    (hinit : mask (i8259Init (boot outs)) = maskValue)
    (hstep : ∀ p : Pic, ∀ c ∈ calls,
      (!bit (mask (c.run p)) i) = (c.tells line).getD (!bit (mask p) i)) :
    bit (mask (runCalls outs calls)) i = false ↔ last (tells line) calls = some true := by
  have h : (!bit (mask (runCalls outs calls)) i) =
      (last (tells line) calls).getD (!bit (mask (i8259Init (boot outs))) i) :=
    register_run (fun p : Pic => !bit (mask p) i) hstep _
  rw [hinit, bit_maskValue hi, Bool.not_true] at h
  rw [← on_iff, ← h, Bool.not_eq_true']

theorem deliverable_master (hi : i < 8) (h2 : i ≠ 2) :
    (runCalls outs calls).Deliverable i ↔ last (tells (· = i)) calls = some true := by
  rw [Pic.Deliverable, if_pos hi, (portsOk_run outs calls).clear_master]
  exact bit_run Pic.masterMask hi (i8259Init_masks _).1 fun p c _ => masterBit_step c p hi h2

theorem deliverable_slave (hi : slaveLine i) (hcalls : ∀ c ∈ calls, c.irqNum ≠ 2) :
    (runCalls outs calls).Deliverable i ↔
      last (tells (· = i)) calls = some true ∧ last (tells slaveLine) calls = some true := by
  obtain ⟨h8, h16⟩ := hi
  rw [Pic.Deliverable, if_neg (Nat.not_lt.2 h8), (portsOk_run outs calls).clear_master,
    (portsOk_run outs calls).clear_slave]
  exact and_congr
    (bit_run Pic.slaveMask (by omega) (i8259Init_masks _).2 fun p c _ =>
      slaveBit_step c p ⟨h8, h16⟩)
    (bit_run Pic.masterMask (by decide) (i8259Init_masks _).1 fun p c hc =>
      cascade_step p (hcalls c hc))

end Run

/-- **The lines are independent exactly when** the last call on the slave enabled a line, or no
line of the slave was last enabled. -/
theorem irq_lines (outs : List (Nat × UInt8)) {calls : List IrqCall}
    (hcalls : ∀ c ∈ calls, c.irqNum ≠ 2) :
    LinesIndependent calls (runCalls outs calls) ↔
      last (tells slaveLine) calls = some true ∨
        ∀ n, slaveLine n → last (tells (· = n)) calls ≠ some true := by
  constructor
  · intro h
    by_contra hnot
    obtain ⟨hlast, hsome⟩ := not_or.1 hnot
    obtain ⟨n, hn⟩ := not_forall.1 hsome
    obtain ⟨hslave, hen⟩ := Classical.not_imp.1 hn
    have hline := (h.lines n hslave.2 (by have := hslave.1; omega)).2 (not_not.1 hen)
    exact hlast ((deliverable_slave hslave hcalls).1 hline).2
  · intro h
    refine ⟨fun n hn h2 => ?_, portsOk_run outs calls⟩
    by_cases h8 : n < 8
    · exact deliverable_master h8 h2
    · have hslave : slaveLine n := ⟨Nat.not_lt.1 h8, hn⟩
      rw [deliverable_slave hslave hcalls]
      refine ⟨And.left, fun hen => ⟨hen, ?_⟩⟩
      exact h.resolve_right fun hnone => hnone n hslave hen

/-- The clock and the keyboard, as the kernel enables them. -/
theorem irq_lines_boot : LinesIndependent [.enable 8, .enable 1, .enable 0]
    (runCalls [] [.enable 8, .enable 1, .enable 0]) :=
  (irq_lines [] (by decide)).2 (.inl (by decide))

/-- Disabling line 14 stops line 8. -/
theorem irq_lines_shared :
    last (tells (· = 8)) [.enable 8, .enable 14, .disable 14] = some true ∧
    ¬ (runCalls [] [.enable 8, .enable 14, .disable 14]).Deliverable 8 ∧
    ¬ LinesIndependent [.enable 8, .enable 14, .disable 14]
      (runCalls [] [.enable 8, .enable 14, .disable 14]) := by
  have hlast : last (tells (· = 8)) [.enable 8, .enable 14, .disable 14] = some true := by decide
  have hoff : ¬ (runCalls [] [.enable 8, .enable 14, .disable 14]).Deliverable 8 := by
    rw [deliverable_slave (by decide) (by decide)]
    decide
  exact ⟨hlast, hoff, fun h => hoff ((h.lines 8 (by decide) (by decide)).2 hlast)⟩

end Kernel391

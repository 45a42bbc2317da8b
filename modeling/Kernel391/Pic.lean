import Kernel391.Lib.History

/-!
# The interrupt controllers: the code

`i8259_init`, `enable_irq` and `disable_irq` of `i8259.c`. Of the hardware there is the list of
the bytes written to the ports, the newest last.
-/

namespace Kernel391

/-! ## Constants of `i8259.h` -/

def master8259Port : Nat := 0x20
def slave8259Port : Nat := 0xA0
def master8259PortData : Nat := 0x21
def slave8259PortData : Nat := 0xA1
def irqSlave : UInt32 := 2
def maskValue : UInt8 := 0xFF
def slaveIrqStart : UInt32 := 8
def slaveIrqLast : UInt32 := 16
def icw1 : UInt8 := 0x11
def icw2Master : UInt8 := 0x20
def icw2Slave : UInt8 := 0x28
def icw3Master : UInt8 := 0x04
def icw3Slave : UInt8 := 0x02
def icw4 : UInt8 := 0x01

/-- The two static masks, and the bytes written so far. -/
structure Pic where
  masterMask : UInt8
  slaveMask : UInt8
  outs : List (Nat × UInt8)

namespace Pic

/-- `outb`. -/
def outb (data : UInt8) (port : Nat) (p : Pic) : Pic := { p with outs := p.outs ++ [(port, data)] }

/-- The statics before the first call. -/
def boot (outs : List (Nat × UInt8)) : Pic := ⟨maskValue, maskValue, outs⟩

/-- `mask &= ~(1<<n)`, computed on an `int`. -/
def unmask (mask : UInt8) (n : UInt32) : UInt8 :=
  (mask.toUInt32 &&& ~~~((1 : UInt32) <<< n)).toUInt8

/-- `mask |= 1<<n`. -/
def mask (mask : UInt8) (n : UInt32) : UInt8 := (mask.toUInt32 ||| (1 : UInt32) <<< n).toUInt8

/-- `master_mask = m; outb(master_mask, MASTER_8259_PORT_DATA)`. -/
def setMaster (m : UInt8) (p : Pic) : Pic := { p with masterMask := m }.outb m master8259PortData

def setSlave (m : UInt8) (p : Pic) : Pic := { p with slaveMask := m }.outb m slave8259PortData

/-- `i8259_init`. -/
def i8259Init (p : Pic) : Pic :=
  let p := p.outb maskValue master8259PortData
  let p := p.outb maskValue slave8259PortData
  let p := p.outb icw1 master8259Port
  let p := p.outb icw2Master master8259PortData
  let p := p.outb icw3Master master8259PortData
  let p := p.outb icw4 master8259PortData
  let p := p.outb icw1 slave8259Port
  let p := p.outb icw2Slave slave8259PortData
  let p := p.outb icw3Slave slave8259PortData
  let p := p.outb icw4 slave8259PortData
  let p := p.outb p.masterMask master8259PortData
  p.outb p.slaveMask slave8259PortData

/-- What `enable_irq` and `disable_irq` share: `op` on the bit of the line, and for a line of the
slave on the bit that stands for the slave in the master as well. -/
def setLine (op : UInt8 → UInt32 → UInt8) (irqNum : UInt32) (p : Pic) : Pic :=
  let p := if irqNum < slaveIrqStart then p.setMaster (op p.masterMask irqNum) else p
  if slaveIrqStart ≤ irqNum ∧ irqNum < slaveIrqLast then
    let p := p.setMaster (op p.masterMask irqSlave)
    p.setSlave (op p.slaveMask (irqNum - slaveIrqStart))
  else p

/-- `enable_irq`. -/
def enableIrq (irqNum : UInt32) (p : Pic) : Pic := p.setLine unmask irqNum

/-- `disable_irq`. -/
def disableIrq (irqNum : UInt32) (p : Pic) : Pic := p.setLine mask irqNum

end Pic

/-- A call of one of the two functions. -/
inductive IrqCall
  | enable (irqNum : UInt32)
  | disable (irqNum : UInt32)
  deriving DecidableEq

def IrqCall.irqNum : IrqCall → UInt32
  | enable n => n
  | disable n => n

def IrqCall.run (p : Pic) : IrqCall → Pic
  | enable n => p.enableIrq n
  | disable n => p.disableIrq n

end Kernel391

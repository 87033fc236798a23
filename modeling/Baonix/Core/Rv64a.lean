import Baonix.Core.Insn
import Baonix.Core.Machine

/-!
# Atomics

LR, SC and the AMOs translate their address once, as a store, and go to the bus
with the address the translation gave.
-/

namespace Baonix.Core.Rv64a

open Insn

/-- Sign-extends the result of a 32-bit operation. -/
def ext (size : ℕ) (v : BitVec 64) : BitVec 64 := if size = 4 then extend (v.setWidth 32) else v

/-- The operands of a comparison, at the width of the access. -/
def signedAt (size : ℕ) (v : BitVec 64) : ℤ :=
  if size = 4 then (v.setWidth 32).toInt else v.toInt

def unsignedAt (size : ℕ) (v : BitVec 64) : ℕ :=
  if size = 4 then (v.setWidth 32).toNat else v.toNat

/-- The value an AMO writes back. -/
def amo (op : BitVec 32) (size : ℕ) (old src : BitVec 64) : Option (BitVec 64) :=
  match op.toNat with
  | 0x00 => some (old + src)
  | 0x01 => some src
  | 0x04 => some (old ^^^ src)
  | 0x08 => some (old ||| src)
  | 0x0C => some (old &&& src)
  | 0x10 => some (if signedAt size old < signedAt size src then old else src)
  | 0x14 => some (if signedAt size old > signedAt size src then old else src)
  | 0x18 => some (if unsignedAt size old < unsignedAt size src then old else src)
  | 0x1C => some (if unsignedAt size old > unsignedAt size src then old else src)
  | _ => none

/-- The width of the access. -/
def sizeOf (insn : Insn) : Option ℕ :=
  match (funct3 insn).toNat with
  | 0x2 => some 4
  | 0x3 => some 8
  | _ => none

def opOf (insn : Insn) : BitVec 32 := funct7 insn >>> 2

variable {B S : Type} [MemBacking B] [ConsoleSink S]

/-- LR. -/
def loadReserved (rd : BitVec 5) (addr : BitVec 64) (size : ℕ) : MachineM B S PUnit := do
  let v ← Machine.busLoad .load addr size
  Machine.onCpu fun cpu => { cpu with reservation := some addr }
  Machine.setReg rd (ext size v)

/-- SC. -/
def storeConditional (rd : BitVec 5) (addr src : BitVec 64) (size : ℕ) :
    MachineM B S PUnit := do
  let success := (← Exec.read).cpu.reservation = some addr
  Machine.onCpu fun cpu => { cpu with reservation := none }
  if success then do
    Machine.busStore addr size src
    Machine.setReg rd 0
  else Machine.setReg rd 1

/-- The AMOs. -/
def readModifyWrite (insn : Insn) (addr src : BitVec 64) (size : ℕ) : MachineM B S PUnit := do
  let old ← Machine.busLoad .load addr size
  match amo (opOf insn) size old src with
  | none => Exec.raise (.illegalInstruction (insn.setWidth 64))
  | some new => do
      Machine.busStore addr size new
      Machine.onCpu (·.invalidateReservation addr size)
      Machine.setReg (rd insn) (ext size old)

/-- The match on the operation. -/
def perform (insn : Insn) (addr src : BitVec 64) (size : ℕ) : MachineM B S PUnit :=
  if opOf insn = 0x02 then loadReserved (rd insn) addr size
  else if opOf insn = 0x03 then storeConditional (rd insn) addr src size
  else readModifyWrite insn addr src size

def execute (insn : Insn) : MachineM B S Bool :=
  if opcode insn ≠ 0x2F then pure false
  else
    match sizeOf insn with
    | none => Exec.raise (.illegalInstruction (insn.setWidth 64))
    | some size => do
        let cpu := (← Exec.read).cpu
        let addr ← Machine.translate (cpu.reg (rs1 insn)) .store
        perform insn addr (cpu.reg (rs2 insn)) size
        pure true

end Baonix.Core.Rv64a

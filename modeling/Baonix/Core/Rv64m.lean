import Baonix.Core.Insn
import Baonix.Core.Machine

/-!
# Multiplication and division

Division by zero and signed overflow are defined, not trapped.
-/

namespace Baonix.Core.Rv64m

open Insn

/-- `div_signed` and `div_signed_w`. -/
def divSigned {w : ℕ} (a b : BitVec w) : BitVec w :=
  if b = 0 then BitVec.ofInt w (-1)
  else if a = BitVec.intMin w ∧ b = BitVec.ofInt w (-1) then BitVec.intMin w
  else BitVec.ofInt w (a.toInt.tdiv b.toInt)

/-- `rem_signed` and `rem_signed_w`. -/
def remSigned {w : ℕ} (a b : BitVec w) : BitVec w :=
  if b = 0 then a
  else if a = BitVec.intMin w ∧ b = BitVec.ofInt w (-1) then 0
  else BitVec.ofInt w (a.toInt.tmod b.toInt)

/-- The operations of opcode `0x33`. -/
def op (funct3 : BitVec 32) (a b : BitVec 64) : Option (BitVec 64) :=
  match funct3.toNat with
  | 0 => some (a * b)
  | 1 => some (BitVec.ofInt 64 ((a.toInt * b.toInt) >>> 64))
  | 2 => some (BitVec.ofInt 64 ((a.toInt * (b.toNat : ℤ)) >>> 64))
  | 3 => some (BitVec.ofNat 64 ((a.toNat * b.toNat) >>> 64))
  | 4 => some (divSigned a b)
  | 5 => some (if b = 0 then BitVec.allOnes 64 else a / b)
  | 6 => some (remSigned a b)
  | 7 => some (if b = 0 then a else a % b)
  | _ => none

/-- The operations of opcode `0x3B`. -/
def op32 (funct3 : BitVec 32) (a b : BitVec 32) : Option (BitVec 32) :=
  match funct3.toNat with
  | 0 => some (a * b)
  | 4 => some (divSigned a b)
  | 5 => some (if b = 0 then BitVec.ofInt 32 (-1) else a / b)
  | 6 => some (remSigned a b)
  | 7 => some (if b = 0 then a else a % b)
  | _ => none

example : (op 4 (BitVec.ofInt 64 (-7)) 2, op 6 (BitVec.ofInt 64 (-7)) 2, op 4 5 0) =
    (some (BitVec.ofInt 64 (-3)), some (BitVec.ofInt 64 (-1)), some (BitVec.ofInt 64 (-1))) := by
  decide

variable {B S : Type}

def execute (insn : Insn) : MachineM B S Bool :=
  if funct7 insn ≠ 0x01 then pure false
  else do
    let cpu := (← Exec.read).cpu
    let a := cpu.reg (rs1 insn)
    let b := cpu.reg (rs2 insn)
    if opcode insn = 0x33 then
      match op (funct3 insn) a b with
      | none => Exec.raise (.illegalInstruction (insn.setWidth 64))
      | some v => do
          Machine.setReg (rd insn) v
          pure true
    else if opcode insn = 0x3B then
      match op32 (funct3 insn) (a.setWidth 32) (b.setWidth 32) with
      | none => Exec.raise (.illegalInstruction (insn.setWidth 64))
      | some v => do
          Machine.setReg (rd insn) (extend v)
          pure true
    else pure false

end Baonix.Core.Rv64m

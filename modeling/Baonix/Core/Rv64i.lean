import Baonix.Core.Insn
import Baonix.Core.Machine

/-!
# The base instructions

Integer arithmetic, loads and stores, branches and jumps, fences and the SYSTEM
instructions with their privilege checks.
-/

namespace Baonix.Core

open Insn

namespace Cpu

/-- `mret`. -/
def mret (cpu : Cpu) : Cpu :=
  let status := cpu.csrs.read Csr.mstatus
  let mpp := (status >>> 11) &&& 0b11
  let mpie := (status >>> 7) &&& 1
  let new := status &&& ~~~((1 : BitVec 64) <<< 3 ||| 1 <<< 7 ||| 0b11 <<< 11) |||
    mpie <<< 3 ||| 1 <<< 7
  let new := if mpp ≠ Priv.m.toBits then new &&& ~~~((1 : BitVec 64) <<< 17) else new
  let csrs := cpu.csrs.write Csr.mstatus new
  let priv := if mpp = 0 then Priv.u else if mpp = 1 then Priv.s else Priv.m
  { cpu with csrs := csrs, priv := priv }.jump (csrs.read Csr.mepc)

/-- `sret`. -/
def sret (cpu : Cpu) : Cpu :=
  let status := cpu.csrs.read Csr.mstatus
  let spp := (status >>> 8) &&& 1
  let spie := (status >>> 5) &&& 1
  let new := status &&& ~~~((1 : BitVec 64) <<< 1 ||| 1 <<< 5 ||| 1 <<< 8) |||
    spie <<< 1 ||| 1 <<< 5
  let csrs := cpu.csrs.write Csr.mstatus new
  let priv := if spp = 1 then Priv.s else Priv.u
  { cpu with csrs := csrs, priv := priv }.jump (csrs.read Csr.sepc)

end Cpu

namespace Rv64i

/-- `x as u64` of a comparison. -/
def ofBool (b : Bool) : BitVec 64 := if b then 1 else 0

def opImm (insn : Insn) (a : BitVec 64) : Option (BitVec 64) :=
  let imm := immI insn
  let shamt := (insn >>> 20) &&& 0x3F
  match (funct3 insn).toNat with
  | 0x0 => some (a + imm)
  | 0x1 => some (a <<< shamt)
  | 0x2 => some (ofBool (a.slt imm))
  | 0x3 => some (ofBool (a.ult imm))
  | 0x4 => some (a ^^^ imm)
  | 0x5 => if funct7 insn &&& 0x20 = 0 then some (a >>> shamt) else some (a.sshiftRight' shamt)
  | 0x6 => some (a ||| imm)
  | 0x7 => some (a &&& imm)
  | _ => none

def opImm32 (insn : Insn) (a : BitVec 32) : Option (BitVec 32) :=
  let imm := (immI insn).setWidth 32
  let shamt := (insn >>> 20) &&& 0x1F
  match (funct3 insn).toNat with
  | 0x0 => some (a + imm)
  | 0x1 => some (a <<< shamt)
  | 0x5 => if funct7 insn &&& 0x20 = 0 then some (a >>> shamt) else some (a.sshiftRight' shamt)
  | _ => none

def op (insn : Insn) (a b : BitVec 64) : Option (BitVec 64) :=
  let shamt := b &&& 0x3F
  match (funct3 insn).toNat, (funct7 insn).toNat with
  | 0x0, 0x00 => some (a + b)
  | 0x0, 0x20 => some (a - b)
  | 0x1, _ => some (a <<< shamt)
  | 0x2, _ => some (ofBool (a.slt b))
  | 0x3, _ => some (ofBool (a.ult b))
  | 0x4, _ => some (a ^^^ b)
  | 0x5, 0x00 => some (a >>> shamt)
  | 0x5, 0x20 => some (a.sshiftRight' shamt)
  | 0x6, _ => some (a ||| b)
  | 0x7, _ => some (a &&& b)
  | _, _ => none

def op32 (insn : Insn) (a b : BitVec 32) : Option (BitVec 32) :=
  let shamt := b &&& 0x1F
  match (funct3 insn).toNat, (funct7 insn).toNat with
  | 0x0, 0x00 => some (a + b)
  | 0x0, 0x20 => some (a - b)
  | 0x1, _ => some (a <<< shamt)
  | 0x5, 0x00 => some (a >>> shamt)
  | 0x5, 0x20 => some (a.sshiftRight' shamt)
  | _, _ => none

def taken (insn : Insn) (a b : BitVec 64) : Option Bool :=
  match (funct3 insn).toNat with
  | 0x0 => some (a == b)
  | 0x1 => some (a != b)
  | 0x4 => some (a.slt b)
  | 0x5 => some (b.sle a)
  | 0x6 => some (a.ult b)
  | 0x7 => some (b.ule a)
  | _ => none

/-- The width of a LOAD and what becomes of the value. -/
def loadOf (insn : Insn) : Option (ℕ × (BitVec 64 → BitVec 64)) :=
  match (funct3 insn).toNat with
  | 0x0 => some (1, fun v => (v.setWidth 8).signExtend 64)
  | 0x1 => some (2, fun v => (v.setWidth 16).signExtend 64)
  | 0x2 => some (4, fun v => (v.setWidth 32).signExtend 64)
  | 0x3 => some (8, id)
  | 0x4 => some (1, id)
  | 0x5 => some (2, id)
  | 0x6 => some (4, id)
  | _ => none

/-- The width of a STORE. -/
def storeOf (insn : Insn) : Option ℕ :=
  match (funct3 insn).toNat with
  | 0x0 => some 1
  | 0x1 => some 2
  | 0x2 => some 4
  | 0x3 => some 8
  | _ => none

variable {B S : Type}

def illegal {Value : Type} (insn : Insn) : MachineM B S Value :=
  Exec.raise (.illegalInstruction (insn.setWidth 64))

/-- `cpu.set_reg(rd, v); Ok(true)`, or an illegal instruction. -/
def retire (insn : Insn) : Option (BitVec 64) → MachineM B S Bool
  | none => illegal insn
  | some v => do
      Machine.setReg (rd insn) v
      pure true

/-! ## SYSTEM -/

/-- ECALL. -/
def ecall : Priv → Exception
  | .u => .environmentCallFromUMode
  | .s => .environmentCallFromSMode
  | .m => .environmentCallFromMMode

/-- The instructions with `funct3` 0. -/
def privileged (insn : Insn) : MachineM B S Bool := do
  let cpu := (← Exec.read).cpu
  let funct12 := insn >>> 20
  if funct12 = 0x000 then Exec.raise (ecall cpu.priv)
  else if funct12 = 0x001 then Exec.raise .breakpoint
  else if funct12 = 0x302 ∧ cpu.priv = .m then do
    Machine.onCpu Cpu.mret
    pure true
  else if funct12 = 0x102 ∧ cpu.priv ≠ .u then do
    Machine.onCpu Cpu.sret
    pure true
  else if funct12 = 0x105 then pure true
  else if insn >>> 25 = 0x09 ∧ cpu.priv ≠ .u then do
    Machine.flushMmu
    pure true
  else illegal insn

def csrAddr (insn : Insn) : Csr.Addr := ((insn >>> 20) &&& 0xFFF).setWidth 12

/-- A CSR access writes unless it sets or clears bits from a zero source. -/
def writesCsr (insn : Insn) : Prop := ¬ (funct3 insn &&& 0x3 ≠ 1 ∧ rs1 insn = 0)

instance (insn : Insn) : Decidable (writesCsr insn) := instDecidableNot

/-- The counters live outside the register file. -/
def oldCsr (m : Machine B S) (addr : Csr.Addr) : BitVec 64 :=
  if addr = Csr.time then m.bus.clint.mtime
  else if addr = Csr.cycle ∨ addr = Csr.instret then m.cpu.instret
  else m.cpu.csrs.read addr

def newCsr (insn : Insn) (old src : BitVec 64) : Option (BitVec 64) :=
  match (funct3 insn &&& 0x3).toNat with
  | 1 => some src
  | 2 => some (old ||| src)
  | 3 => some (old &&& ~~~src)
  | _ => none

/-- A write of a CSR; one of `satp` flushes the translations. -/
def writeCsr (addr : Csr.Addr) (new : BitVec 64) : MachineM B S PUnit := do
  Machine.onCpu fun cpu => { cpu with csrs := cpu.csrs.write addr new }
  if addr = Csr.satp then Machine.flushMmu else pure ()

/-- `if writes { .. }`. -/
def applyCsr (insn : Insn) (new : BitVec 64) : MachineM B S PUnit :=
  if writesCsr insn then writeCsr (csrAddr insn) new else pure ()

def updateCsr (insn : Insn) (old new : BitVec 64) : MachineM B S Bool := do
  applyCsr insn new
  Machine.setReg (rd insn) old
  pure true

/-- The CSR instructions. -/
def csrAccess (insn : Insn) : MachineM B S Bool := do
  let m ← Exec.read
  let addr := csrAddr insn
  if ((addr >>> 8) &&& 3).toNat > m.cpu.priv.toBits.toNat then illegal insn
  else if addr >>> 10 = 3 ∧ writesCsr insn then illegal insn
  else
    let old := oldCsr m addr
    let src := if funct3 insn &&& 0x4 ≠ 0 then (rs1 insn).setWidth 64 else m.cpu.reg (rs1 insn)
    match newCsr insn old src with
    | none => illegal insn
    | some new => updateCsr insn old new

/-! ## Dispatch -/

/-- The arms of the register instructions and the jumps. -/
def executeRegister (insn : Insn) : MachineM B S Bool := do
  let cpu := (← Exec.read).cpu
  let a := cpu.reg (rs1 insn)
  let b := cpu.reg (rs2 insn)
  match (opcode insn).toNat with
  | 0x37 => retire insn (some (immU insn))
  | 0x17 => retire insn (some (cpu.pc + immU insn))
  | 0x13 => retire insn (opImm insn a)
  | 0x1B => retire insn ((opImm32 insn (a.setWidth 32)).map extend)
  | 0x33 => retire insn (op insn a b)
  | 0x3B => retire insn ((op32 insn (a.setWidth 32) (b.setWidth 32)).map extend)
  | 0x63 =>
      match taken insn a b with
      | none => illegal insn
      | some true => do
          Machine.jump (cpu.pc + immB insn)
          pure true
      | some false => pure true
  | 0x6F => do
      Machine.jump (cpu.pc + immJ insn)
      retire insn (some (cpu.pc + cpu.insnLen))
  | 0x67 => do
      Machine.jump ((a + immI insn) &&& ~~~1)
      retire insn (some (cpu.pc + cpu.insnLen))
  | 0x0F =>
      -- FENCE and FENCE.I: one instruction at a time leaves nothing to order
      match (funct3 insn).toNat with
      | 0x0 | 0x1 => pure true
      | _ => illegal insn
  | _ => pure false

variable [MemBacking B]

/-- LOAD. -/
def load (insn : Insn) : MachineM B S Bool := do
  let cpu := (← Exec.read).cpu
  match loadOf insn with
  | none => illegal insn
  | some (size, extended) => do
      let v ← Machine.vload (cpu.reg (rs1 insn) + immI insn) size
      retire insn (some (extended v))

variable [ConsoleSink S]

/-- STORE. -/
def store (insn : Insn) : MachineM B S Bool := do
  let cpu := (← Exec.read).cpu
  match storeOf insn with
  | none => illegal insn
  | some size => do
      Machine.vstore (cpu.reg (rs1 insn) + immS insn) size (cpu.reg (rs2 insn))
      pure true

def execute (insn : Insn) : MachineM B S Bool :=
  if opcode insn = 0x03 then load insn
  else if opcode insn = 0x23 then store insn
  else if opcode insn = 0x73 then
    if funct3 insn = 0 then privileged insn else csrAccess insn
  else executeRegister insn

end Rv64i

end Baonix.Core

import Baonix.Lib.Memory

/-!
# Instructions of RV64

The fields of an instruction word and the words the manual defines, and the effect of the
integer instructions and the atomic memory operations on a hart and a flat memory.  Where
data lies in memory is left to the address translation.
-/

namespace Baonix.Riscv

open Baonix.LittleEndian

abbrev Word := BitVec 32

abbrev Reg := BitVec 5

/-! ## Fields -/

def opcode (w : Word) : BitVec 7 := w.extractLsb' 0 7

def rd (w : Word) : Reg := w.extractLsb' 7 5

def funct3 (w : Word) : BitVec 3 := w.extractLsb' 12 3

def rs1 (w : Word) : Reg := w.extractLsb' 15 5

def rs2 (w : Word) : Reg := w.extractLsb' 20 5

def funct5 (w : Word) : BitVec 5 := w.extractLsb' 27 5

def funct6 (w : Word) : BitVec 6 := w.extractLsb' 26 6

def funct7 (w : Word) : BitVec 7 := w.extractLsb' 25 7

/-! The immediates, from the bits of the word they consist of, the sign first. -/

def immI (w : Word) : BitVec 64 := (w.extractLsb' 20 12).signExtend 64

def immS (w : Word) : BitVec 64 := (w.extractLsb' 25 7 ++ w.extractLsb' 7 5).signExtend 64

def immB (w : Word) : BitVec 64 :=
  (w.extractLsb' 31 1 ++ w.extractLsb' 7 1 ++ w.extractLsb' 25 6 ++ w.extractLsb' 8 4 ++
    0#1).signExtend 64

def immU (w : Word) : BitVec 64 := (w.extractLsb' 12 20 ++ 0#12).signExtend 64

def immJ (w : Word) : BitVec 64 :=
  (w.extractLsb' 31 1 ++ w.extractLsb' 12 8 ++ w.extractLsb' 20 1 ++ w.extractLsb' 21 10 ++
    0#1).signExtend 64

/-! ## Operations -/

inductive Op
  | add
  | sub
  | sll
  | slt
  | sltu
  | xor
  | srl
  | sra
  | or
  | and
  deriving DecidableEq

/-- The operation on words of any width; a shift takes its amount from the low bits. -/
def Op.eval {w : ℕ} (a b : BitVec w) : Op → BitVec w
  | .add => a + b
  | .sub => a - b
  | .sll => a <<< (b.toNat % w)
  | .slt => if a.toInt < b.toInt then 1 else 0
  | .sltu => if a.toNat < b.toNat then 1 else 0
  | .xor => a ^^^ b
  | .srl => a >>> (b.toNat % w)
  | .sra => a.sshiftRight (b.toNat % w)
  | .or => a ||| b
  | .and => a &&& b

/-- The operation on the low 32 bits, sign-extended. -/
def Op.evalW (a b : BitVec 64) (op : Op) : BitVec 64 :=
  (op.eval (a.setWidth 32) (b.setWidth 32)).signExtend 64

inductive Cond
  | eq
  | ne
  | lt
  | ge
  | ltu
  | geu
  deriving DecidableEq

def Cond.holds (a b : BitVec 64) : Cond → Bool
  | .eq => a = b
  | .ne => a ≠ b
  | .lt => a.toInt < b.toInt
  | .ge => b.toInt ≤ a.toInt
  | .ltu => a.toNat < b.toNat
  | .geu => b.toNat ≤ a.toNat

inductive Amo
  | swap
  | add
  | xor
  | and
  | or
  | min
  | max
  | minu
  | maxu
  deriving DecidableEq

/-- What the operation leaves in memory. -/
def Amo.eval {w : ℕ} (old src : BitVec w) : Amo → BitVec w
  | .swap => src
  | .add => old + src
  | .xor => old ^^^ src
  | .and => old &&& src
  | .or => old ||| src
  | .min => if old.toInt < src.toInt then old else src
  | .max => if src.toInt < old.toInt then old else src
  | .minu => if old.toNat < src.toNat then old else src
  | .maxu => if src.toNat < old.toNat then old else src

/-! ## Instructions -/

/-- The instructions of RV64I without SYSTEM, and the atomic memory operations. -/
inductive Instr
  | lui (rd : Reg) (imm : BitVec 64)
  | auipc (rd : Reg) (imm : BitVec 64)
  | jal (rd : Reg) (offset : BitVec 64)
  | jalr (rd rs1 : Reg) (imm : BitVec 64)
  | branch (cond : Cond) (rs1 rs2 : Reg) (offset : BitVec 64)
  | load (size : ℕ) (signed : Bool) (rd rs1 : Reg) (imm : BitVec 64)
  | store (size : ℕ) (rs1 rs2 : Reg) (imm : BitVec 64)
  | arithImm (op : Op) (rd rs1 : Reg) (imm : BitVec 64)
  | arithImmW (op : Op) (rd rs1 : Reg) (imm : BitVec 64)
  | arith (op : Op) (rd rs1 rs2 : Reg)
  | arithW (op : Op) (rd rs1 rs2 : Reg)
  | fence
  | amo (op : Amo) (size : ℕ) (rd rs1 rs2 : Reg)

def decodeCond (w : Word) : Option Cond :=
  match (funct3 w).toNat with
  | 0 => some .eq
  | 1 => some .ne
  | 4 => some .lt
  | 5 => some .ge
  | 6 => some .ltu
  | 7 => some .geu
  | _ => none

/-- The bytes of a load and whether they are sign-extended. -/
def decodeLoad (w : Word) : Option (ℕ × Bool) :=
  match (funct3 w).toNat with
  | 0 => some (1, true)
  | 1 => some (2, true)
  | 2 => some (4, true)
  | 3 => some (8, true)
  | 4 => some (1, false)
  | 5 => some (2, false)
  | 6 => some (4, false)
  | _ => none

/-- The bytes of a store. -/
def decodeStore (w : Word) : Option ℕ :=
  match (funct3 w).toNat with
  | 0 => some 1
  | 1 => some 2
  | 2 => some 4
  | 3 => some 8
  | _ => none

def decodeOpImm (w : Word) : Option Op :=
  match (funct3 w).toNat, (funct6 w).toNat with
  | 0, _ => some .add
  | 1, 0x00 => some .sll
  | 2, _ => some .slt
  | 3, _ => some .sltu
  | 4, _ => some .xor
  | 5, 0x00 => some .srl
  | 5, 0x10 => some .sra
  | 6, _ => some .or
  | 7, _ => some .and
  | _, _ => none

def decodeOpImmW (w : Word) : Option Op :=
  match (funct3 w).toNat, (funct7 w).toNat with
  | 0, _ => some .add
  | 1, 0x00 => some .sll
  | 5, 0x00 => some .srl
  | 5, 0x20 => some .sra
  | _, _ => none

def decodeOp (w : Word) : Option Op :=
  match (funct3 w).toNat, (funct7 w).toNat with
  | 0, 0x00 => some .add
  | 0, 0x20 => some .sub
  | 1, 0x00 => some .sll
  | 2, 0x00 => some .slt
  | 3, 0x00 => some .sltu
  | 4, 0x00 => some .xor
  | 5, 0x00 => some .srl
  | 5, 0x20 => some .sra
  | 6, 0x00 => some .or
  | 7, 0x00 => some .and
  | _, _ => none

def decodeOpW (w : Word) : Option Op :=
  match (funct3 w).toNat, (funct7 w).toNat with
  | 0, 0x00 => some .add
  | 0, 0x20 => some .sub
  | 1, 0x00 => some .sll
  | 5, 0x00 => some .srl
  | 5, 0x20 => some .sra
  | _, _ => none

def decodeAmo (w : Word) : Option Amo :=
  match (funct5 w).toNat with
  | 0x00 => some .add
  | 0x01 => some .swap
  | 0x04 => some .xor
  | 0x08 => some .or
  | 0x0C => some .and
  | 0x10 => some .min
  | 0x14 => some .max
  | 0x18 => some .minu
  | 0x1C => some .maxu
  | _ => none

/-- The bytes of an atomic access. -/
def decodeWidth (w : Word) : Option ℕ :=
  match (funct3 w).toNat with
  | 2 => some 4
  | 3 => some 8
  | _ => none

def decode (w : Word) : Option Instr :=
  match (opcode w).toNat with
  | 0x37 => some (.lui (rd w) (immU w))
  | 0x17 => some (.auipc (rd w) (immU w))
  | 0x6F => some (.jal (rd w) (immJ w))
  | 0x67 => if funct3 w = 0 then some (.jalr (rd w) (rs1 w) (immI w)) else none
  | 0x63 => (decodeCond w).map fun cond => .branch cond (rs1 w) (rs2 w) (immB w)
  | 0x03 => (decodeLoad w).map fun kind => .load kind.1 kind.2 (rd w) (rs1 w) (immI w)
  | 0x23 => (decodeStore w).map fun size => .store size (rs1 w) (rs2 w) (immS w)
  | 0x13 => (decodeOpImm w).map fun op => .arithImm op (rd w) (rs1 w) (immI w)
  | 0x1B => (decodeOpImmW w).map fun op => .arithImmW op (rd w) (rs1 w) (immI w)
  | 0x33 => (decodeOp w).map fun op => .arith op (rd w) (rs1 w) (rs2 w)
  | 0x3B => (decodeOpW w).map fun op => .arithW op (rd w) (rs1 w) (rs2 w)
  | 0x0F => if funct3 w = 0 ∨ funct3 w = 1 then some .fence else none
  | 0x2F =>
      (decodeAmo w).bind fun op => (decodeWidth w).map fun size =>
        .amo op size (rd w) (rs1 w) (rs2 w)
  | _ => none

/-! The other extensions: only which words are theirs. -/

/-- A multiplication or a division. -/
def isMul (w : Word) : Prop :=
  (funct7 w).toNat = 1 ∧
    ((opcode w).toNat = 0x33 ∨ (opcode w).toNat = 0x3B ∧ (funct3 w).toNat ∈ [0, 4, 5, 6, 7])

/-- LR or SC. -/
def isReserving (w : Word) : Prop :=
  (opcode w).toNat = 0x2F ∧ (funct3 w).toNat ∈ [2, 3] ∧
    ((funct5 w).toNat = 2 ∧ rs2 w = 0 ∨ (funct5 w).toNat = 3)

def isCsr (w : Word) : Prop :=
  (opcode w).toNat = 0x73 ∧ (funct3 w).toNat ∈ [1, 2, 3, 5, 6, 7]

/-- ECALL, EBREAK, SRET, MRET, WFI or SFENCE.VMA. -/
def isPrivileged (w : Word) : Prop :=
  w ∈ [0x00000073, 0x00100073, 0x10200073, 0x30200073, 0x10500073] ∨
    (opcode w).toNat = 0x73 ∧ funct3 w = 0 ∧ rd w = 0 ∧ (funct7 w).toNat = 9

/-- The word encodes an instruction of RV64IMA, Zicsr, Zifencei or the privileged set. -/
def Encoded (w : Word) : Prop :=
  (decode w).isSome ∨ isMul w ∨ isReserving w ∨ isCsr w ∨ isPrivileged w

instance (w : Word) : Decidable (Encoded w) := by
  unfold Encoded isMul isReserving isCsr isPrivileged
  infer_instance

/-! The fields of the words that are left. -/

theorem funct3_lt (w : Word) : (funct3 w).toNat < 8 := (funct3 w).isLt

theorem decodeCond_eq_none_iff (w : Word) : decodeCond w = none ↔ (funct3 w).toNat ∈ [2, 3] := by
  have hlt := funct3_lt w
  unfold decodeCond
  generalize (funct3 w).toNat = kind at hlt
  interval_cases kind <;> simp

theorem decodeLoad_eq_none_iff (w : Word) : decodeLoad w = none ↔ (funct3 w).toNat = 7 := by
  have hlt := funct3_lt w
  unfold decodeLoad
  generalize (funct3 w).toNat = kind at hlt
  interval_cases kind <;> simp

theorem decodeStore_eq_none_iff (w : Word) : decodeStore w = none ↔ 4 ≤ (funct3 w).toNat := by
  have hlt := funct3_lt w
  unfold decodeStore
  generalize (funct3 w).toNat = kind at hlt
  interval_cases kind <;> simp

theorem decodeOpImmW_eq_none_iff (w : Word) :
    decodeOpImmW w = none ↔ (funct3 w).toNat ∉ [0, 1, 5] ∨
      (funct3 w).toNat = 1 ∧ (funct7 w).toNat ≠ 0x00 ∨
        (funct3 w).toNat = 5 ∧ (funct7 w).toNat ∉ [0x00, 0x20] := by
  have hlt := funct3_lt w
  unfold decodeOpImmW
  generalize (funct3 w).toNat = kind at hlt
  interval_cases kind
  any_goals simp
  · split <;> simp_all
  · split <;> simp_all

theorem decodeOp_eq_none_iff (w : Word) :
    decodeOp w = none ↔ (funct3 w).toNat ∉ [0, 5] ∧ (funct7 w).toNat ≠ 0x00 ∨
      (funct3 w).toNat ∈ [0, 5] ∧ (funct7 w).toNat ∉ [0x00, 0x20] := by
  have hlt := funct3_lt w
  unfold decodeOp
  generalize (funct3 w).toNat = kind at hlt
  interval_cases kind
  any_goals simp
  all_goals split <;> simp_all

theorem decodeOpW_eq_none_iff (w : Word) :
    decodeOpW w = none ↔ (funct3 w).toNat ∉ [0, 1, 5] ∨
      (funct3 w).toNat = 1 ∧ (funct7 w).toNat ≠ 0x00 ∨
        (funct3 w).toNat ∈ [0, 5] ∧ (funct7 w).toNat ∉ [0x00, 0x20] := by
  have hlt := funct3_lt w
  unfold decodeOpW
  generalize (funct3 w).toNat = kind at hlt
  interval_cases kind
  any_goals simp
  all_goals split <;> simp_all

/-! Accesses are of a power of two of bytes. -/

theorem decodeLoad_size {w : Word} {size : ℕ} {signed : Bool}
    (hload : decodeLoad w = some (size, signed)) : size ∈ [1, 2, 4, 8] := by
  unfold decodeLoad at hload
  split at hload <;> cases hload <;> decide

theorem decodeStore_size {w : Word} {size : ℕ} (hstore : decodeStore w = some size) :
    size ∈ [1, 2, 4, 8] := by
  unfold decodeStore at hstore
  split at hstore <;> cases hstore <;> decide

theorem decodeWidth_size {w : Word} {size : ℕ} (hwidth : decodeWidth w = some size) :
    size = 4 ∨ size = 8 := by
  unfold decodeWidth at hwidth
  split at hwidth <;> cases hwidth <;> decide

/-! ## Effects -/

/-- What the instructions work on. -/
structure Hart where
  regs : Reg → BitVec 64
  pc : BitVec 64
  mem : Memory

/-- Writes of `x0` are lost. -/
def Hart.set (h : Hart) (rd : Reg) (v : BitVec 64) : Hart :=
  if rd = 0 then h else { h with regs := Function.update h.regs rd v }

/-- Leaves a result and goes on to the next instruction. -/
def Hart.result (h : Hart) (len : BitVec 64) (rd : Reg) (v : BitVec 64) : Hart :=
  { h.set rd v with pc := h.pc + len }

/-- The little-endian number of so many bytes. -/
def Hart.fetch (h : Hart) (addr size : ℕ) : BitVec (8 * size) :=
  BitVec.ofNat (8 * size) (ofBytes (h.mem.read addr size))

/-- The address of the data an instruction accesses, how many bytes it takes, and whether
it stores them. -/
def Instr.access (regs : Reg → BitVec 64) : Instr → Option (BitVec 64 × ℕ × Bool)
  | .load size _ _ rs1 imm => some (regs rs1 + imm, size, false)
  | .store size rs1 _ imm => some (regs rs1 + imm, size, true)
  | .amo _ size _ rs1 _ => some (regs rs1, size, true)
  | _ => none

/-- What an instruction of `len` bytes does if the data it accesses lies at `place`. -/
def Instr.run (len : BitVec 64) (place : ℕ) (h : Hart) : Instr → Hart
  | .lui rd imm => h.result len rd imm
  | .auipc rd imm => h.result len rd (h.pc + imm)
  | .jal rd offset => { h.set rd (h.pc + len) with pc := h.pc + offset }
  | .jalr rd rs1 imm => { h.set rd (h.pc + len) with pc := (h.regs rs1 + imm) &&& ~~~1 }
  | .branch cond rs1 rs2 offset =>
      { h with pc := h.pc + if cond.holds (h.regs rs1) (h.regs rs2) then offset else len }
  | .load size signed rd _ _ =>
      let v := h.fetch place size
      h.result len rd (if signed then v.signExtend 64 else v.setWidth 64)
  | .store size _ rs2 _ =>
      { h with
        mem := h.mem.write place (toBytes size (h.regs rs2).toNat)
        pc := h.pc + len }
  | .arithImm op rd rs1 imm => h.result len rd (op.eval (h.regs rs1) imm)
  | .arithImmW op rd rs1 imm => h.result len rd (op.evalW (h.regs rs1) imm)
  | .arith op rd rs1 rs2 => h.result len rd (op.eval (h.regs rs1) (h.regs rs2))
  | .arithW op rd rs1 rs2 => h.result len rd (op.evalW (h.regs rs1) (h.regs rs2))
  | .fence => { h with pc := h.pc + len }
  | .amo op size rd _ rs2 =>
      let old := h.fetch place size
      let new := op.eval old ((h.regs rs2).setWidth (8 * size))
      { h.result len rd (old.signExtend 64) with
        mem := h.mem.write place (toBytes size new.toNat) }

end Baonix.Riscv

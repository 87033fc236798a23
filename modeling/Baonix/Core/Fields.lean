import Baonix.Core.Insn
import Baonix.Lib.Bits
import Baonix.Lib.Riscv

/-!
# The fields of an instruction

The accessors read the fields of the manual: shifting and masking gives a stretch of the
word, and the immediates are put together from the bits the manual takes them from.
-/

namespace Baonix.Core.Insn

open BitVec (getLsbD_and getLsbD_or getLsbD_append getLsbD_extractLsb' getLsbD_shiftLeft
  getLsbD_signExtend getLsbD_sshiftRight getLsbD_ushiftRight msb_eq_getLsbD_last)

/-! ## Registers and operation codes -/

theorem opcode_eq (w : Insn) : opcode w = (Riscv.opcode w).setWidth 32 := by
  have hfield := Bits.shift_and_mask w 0 7
  rw [BitVec.ushiftRight_zero] at hfield
  exact hfield

theorem rd_eq (w : Insn) : rd w = Riscv.rd w := by
  have hfield := congrArg (BitVec.setWidth 5) (Bits.shift_and_mask w 7 5)
  rw [BitVec.setWidth_setWidth_of_le _ (by norm_num), BitVec.setWidth_eq] at hfield
  exact hfield

theorem rs1_eq (w : Insn) : rs1 w = Riscv.rs1 w := by
  have hfield := congrArg (BitVec.setWidth 5) (Bits.shift_and_mask w 15 5)
  rw [BitVec.setWidth_setWidth_of_le _ (by norm_num), BitVec.setWidth_eq] at hfield
  exact hfield

theorem rs2_eq (w : Insn) : rs2 w = Riscv.rs2 w := by
  have hfield := congrArg (BitVec.setWidth 5) (Bits.shift_and_mask w 20 5)
  rw [BitVec.setWidth_setWidth_of_le _ (by norm_num), BitVec.setWidth_eq] at hfield
  exact hfield

theorem funct3_eq (w : Insn) : funct3 w = (Riscv.funct3 w).setWidth 32 :=
  Bits.shift_and_mask w 12 3

theorem funct7_eq (w : Insn) : funct7 w = (Riscv.funct7 w).setWidth 32 :=
  Bits.shift_and_mask w 25 7

theorem toNat_opcode (w : Insn) : (opcode w).toNat = (Riscv.opcode w).toNat := by
  rw [opcode_eq, BitVec.toNat_setWidth_of_le (by norm_num)]

theorem toNat_funct3 (w : Insn) : (funct3 w).toNat = (Riscv.funct3 w).toNat := by
  rw [funct3_eq, BitVec.toNat_setWidth_of_le (by norm_num)]

theorem toNat_funct7 (w : Insn) : (funct7 w).toNat = (Riscv.funct7 w).toNat := by
  rw [funct7_eq, BitVec.toNat_setWidth_of_le (by norm_num)]

/-! ## Immediates -/

/-- Extending twice is extending once. -/
theorem extend_signExtend {n : ℕ} (hn : n ≤ 32) (x : BitVec n) :
    extend (x.signExtend 32) = x.signExtend 64 := by
  apply BitVec.eq_of_toInt_eq
  rw [extend, BitVec.toInt_signExtend_of_le (by norm_num), BitVec.toInt_signExtend_of_le hn,
    BitVec.toInt_signExtend_of_le (by omega)]

theorem immI_eq (w : Insn) : immI w = Riscv.immI w := by
  rw [immI, Riscv.immI, ← extend_signExtend (by norm_num)]
  apply congrArg extend
  apply BitVec.eq_of_getLsbD_eq
  intro j hj
  simp only [getLsbD_signExtend, getLsbD_sshiftRight, getLsbD_extractLsb', msb_eq_getLsbD_last]
  interval_cases j <;> simp

theorem immU_eq (w : Insn) : immU w = Riscv.immU w := by
  rw [immU, Riscv.immU, ← extend_signExtend (by norm_num)]
  apply congrArg extend
  apply BitVec.eq_of_getLsbD_eq
  intro j hj
  simp only [getLsbD_signExtend, getLsbD_and, getLsbD_append, getLsbD_extractLsb']
  interval_cases j <;> simp

theorem immS_eq (w : Insn) : immS w = Riscv.immS w := by
  rw [immS, Riscv.immS, ← extend_signExtend (by norm_num)]
  apply congrArg extend
  apply BitVec.eq_of_getLsbD_eq
  intro j hj
  simp only [getLsbD_signExtend, getLsbD_sshiftRight, getLsbD_ushiftRight, getLsbD_and,
    getLsbD_or, getLsbD_append, getLsbD_extractLsb', msb_eq_getLsbD_last]
  interval_cases j <;> simp

theorem immB_eq (w : Insn) : immB w = Riscv.immB w := by
  rw [immB, Riscv.immB, ← extend_signExtend (by norm_num)]
  apply congrArg extend
  apply BitVec.eq_of_getLsbD_eq
  intro j hj
  simp only [getLsbD_signExtend, getLsbD_sshiftRight, getLsbD_ushiftRight, getLsbD_shiftLeft,
    getLsbD_and, getLsbD_or, getLsbD_append, getLsbD_extractLsb', msb_eq_getLsbD_last]
  interval_cases j <;> simp

theorem immJ_eq (w : Insn) : immJ w = Riscv.immJ w := by
  rw [immJ, Riscv.immJ, ← extend_signExtend (by norm_num)]
  apply congrArg extend
  apply BitVec.eq_of_getLsbD_eq
  intro j hj
  simp only [getLsbD_signExtend, getLsbD_sshiftRight, getLsbD_ushiftRight, getLsbD_shiftLeft,
    getLsbD_and, getLsbD_or, getLsbD_append, getLsbD_extractLsb', msb_eq_getLsbD_last]
  interval_cases j <;> simp

end Baonix.Core.Insn

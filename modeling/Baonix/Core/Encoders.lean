import Baonix.Core.Insn
import Baonix.Lib.Bits
import Baonix.Lib.RiscvCompressed
import Baonix.Lib.RiscvFormats

/-!
# The words the expansion writes

The encoders lay the fields out as the formats of the manual do, and the bits that the
expansion gathers from a halfword are the immediates of the compressed instructions.
-/

namespace Baonix.Core.Rvc

open BitVec (getLsbD_and getLsbD_append getLsbD_extractLsb' getLsbD_or getLsbD_setWidth
  getLsbD_shiftLeft getLsbD_signExtend getLsbD_sshiftRight getLsbD_ushiftRight
  msb_eq_getLsbD_last)
open Riscv (Reg)

/-! ## Immediates -/

section

variable {n : ℕ}

/-- Extending in two steps is extending. -/
theorem signExtend_signExtend {m : ℕ} (hn : n ≤ m) (hm : m ≤ 64) (x : BitVec n) :
    (x.signExtend m).signExtend 64 = x.signExtend 64 := by
  apply BitVec.eq_of_toInt_eq
  rw [BitVec.toInt_signExtend_of_le hm, BitVec.toInt_signExtend_of_le hn,
    BitVec.toInt_signExtend_of_le (hn.trans hm)]

/-- A field cut from an extended immediate is the immediate extended less far. -/
theorem extractLsb'_signExtend {m : ℕ} (hm : m ≤ 32) (x : BitVec n) :
    (x.signExtend 32).extractLsb' 0 m = x.signExtend m := by
  apply BitVec.eq_of_getLsbD_eq
  intro j hj
  rw [getLsbD_extractLsb', getLsbD_signExtend, getLsbD_signExtend]
  simp [hj, show j < 32 by omega]

/-- An unsigned immediate leaves the sign of the word's immediate clear. -/
theorem immI_setWidth (hn : n < 12) (x : BitVec n) :
    ((x.setWidth 32).extractLsb' 0 12).signExtend 64 = x.setWidth 64 := by
  apply BitVec.eq_of_getLsbD_eq
  intro j hj
  rw [getLsbD_signExtend, msb_eq_getLsbD_last, getLsbD_extractLsb', getLsbD_extractLsb',
    getLsbD_setWidth, getLsbD_setWidth, getLsbD_setWidth]
  by_cases hlow : j < 12
  · simp [hj, hlow, show j < 32 by omega]
  · simp [hlow, BitVec.getLsbD_of_ge x 11 (by omega), BitVec.getLsbD_of_ge x j (by omega)]

theorem immI_signExtend (hn : n ≤ 12) (x : BitVec n) :
    ((x.signExtend 32).extractLsb' 0 12).signExtend 64 = x.signExtend 64 := by
  rw [extractLsb'_signExtend (by norm_num), signExtend_signExtend hn (by norm_num)]

/-- The offsets of branches and jumps are even. -/
theorem offset_signExtend {m : ℕ} (hn : n ≤ m + 1) (hm : m < 32) (x : BitVec n)
    (heven : x.getLsbD 0 = false) (hpos : 0 < n) :
    ((x.signExtend 32).extractLsb' 1 m ++ 0#1).signExtend 64 = x.signExtend 64 := by
  have hcut : (x.signExtend 32).extractLsb' 1 m ++ 0#1 = x.signExtend (m + 1) := by
    apply BitVec.eq_of_getLsbD_eq
    intro j hj
    rw [getLsbD_append, getLsbD_extractLsb', getLsbD_signExtend, getLsbD_signExtend]
    by_cases hzero : j = 0
    · rw [hzero, if_pos hpos, heven]
      simp
    · have hback : 1 + (j - 1) = j := by omega
      simp [hj, hback, show ¬j < 1 by omega, show j - 1 < m by omega, show j < 32 by omega]
  rw [hcut, signExtend_signExtend hn (by omega)]

theorem immU_signExtend (hn : n ≤ 20) (x : BitVec n) (hpos : 0 < n) :
    ((x.signExtend 32).extractLsb' 0 20 ++ 0#12).signExtend 64 =
      (x ++ 0#12).signExtend 64 := by
  have hcut : x.signExtend 20 ++ 0#12 = (x ++ 0#12).signExtend 32 := by
    apply BitVec.eq_of_getLsbD_eq
    intro j hj
    rw [getLsbD_append, getLsbD_signExtend, getLsbD_signExtend, getLsbD_append,
      BitVec.msb_append]
    by_cases hlow : j < 12
    · simp [hj, hlow, show j < n + 12 by omega]
    · have hwithin : j < n + 12 ↔ j - 12 < n := by omega
      simp [hj, hlow, hwithin, show j - 12 < 20 by omega, show n ≠ 0 by omega]
  rw [extractLsb'_signExtend (by norm_num), hcut, signExtend_signExtend (by omega) (by norm_num)]

end

/-! ## Formats -/

theorem iType_eq (imm : BitVec 32) (rs1 : Reg) (f3 : BitVec 3) (rd : Reg) (op : BitVec 7) :
    iType imm (rs1.setWidth 32) (f3.setWidth 32) (rd.setWidth 32) (op.setWidth 32) =
      Riscv.iFormat (imm.extractLsb' 0 12) rs1 f3 rd op := by
  apply BitVec.eq_of_getLsbD_eq
  intro j hj
  simp only [iType, Riscv.iFormat, getLsbD_shiftLeft, getLsbD_or, getLsbD_and, getLsbD_setWidth,
    getLsbD_append, getLsbD_extractLsb']
  interval_cases j <;> simp

theorem sType_eq (imm : BitVec 32) (rs2 rs1 : Reg) (f3 : BitVec 3) (op : BitVec 7) :
    sType imm (rs2.setWidth 32) (rs1.setWidth 32) (f3.setWidth 32) (op.setWidth 32) =
      Riscv.sFormat (imm.extractLsb' 0 12) rs2 rs1 f3 op := by
  apply BitVec.eq_of_getLsbD_eq
  intro j hj
  simp only [sType, Riscv.sFormat, getLsbD_shiftLeft, getLsbD_ushiftRight, getLsbD_or,
    getLsbD_and, getLsbD_setWidth, getLsbD_append, getLsbD_extractLsb']
  interval_cases j <;> simp

theorem rType_eq (f7 : BitVec 7) (rs2 rs1 : Reg) (f3 : BitVec 3) (rd : Reg) (op : BitVec 7) :
    rType (f7.setWidth 32) (rs2.setWidth 32) (rs1.setWidth 32) (f3.setWidth 32)
        (rd.setWidth 32) (op.setWidth 32) = Riscv.rFormat f7 rs2 rs1 f3 rd op := by
  apply BitVec.eq_of_getLsbD_eq
  intro j hj
  simp only [rType, Riscv.rFormat, getLsbD_shiftLeft, getLsbD_or, getLsbD_setWidth,
    getLsbD_append]
  interval_cases j <;> simp

theorem bType_eq (imm : BitVec 32) (rs2 rs1 : Reg) (f3 : BitVec 3) (op : BitVec 7) :
    bType imm (rs2.setWidth 32) (rs1.setWidth 32) (f3.setWidth 32) (op.setWidth 32) =
      Riscv.bFormat (imm.extractLsb' 1 12) rs2 rs1 f3 op := by
  apply BitVec.eq_of_getLsbD_eq
  intro j hj
  simp only [bType, Riscv.bFormat, getLsbD_shiftLeft, getLsbD_ushiftRight, getLsbD_or,
    getLsbD_and, getLsbD_setWidth, getLsbD_append, getLsbD_extractLsb']
  interval_cases j <;> simp

theorem jType_eq (imm : BitVec 32) (rd : Reg) (op : BitVec 7) :
    jType imm (rd.setWidth 32) (op.setWidth 32) =
      Riscv.jFormat (imm.extractLsb' 1 20) rd op := by
  apply BitVec.eq_of_getLsbD_eq
  intro j hj
  simp only [jType, Riscv.jFormat, getLsbD_shiftLeft, getLsbD_ushiftRight, getLsbD_or,
    getLsbD_and, getLsbD_setWidth, getLsbD_append, getLsbD_extractLsb']
  interval_cases j <;> simp

/-- The word of a LUI, written out where it is needed. -/
theorem lui_eq (imm : BitVec 32) (rd : Reg) (op : BitVec 7) :
    ((imm &&& 0xFFFFF) <<< 12 ||| rd.setWidth 32 <<< 7 ||| op.setWidth 32 : BitVec 32) =
      Riscv.uFormat (imm.extractLsb' 0 20) rd op := by
  apply BitVec.eq_of_getLsbD_eq
  intro j hj
  simp only [Riscv.uFormat, getLsbD_shiftLeft, getLsbD_or, getLsbD_and, getLsbD_setWidth,
    getLsbD_append, getLsbD_extractLsb']
  interval_cases j <;> simp

/-- The words of C.MV and C.ADD are written out too. -/
theorem add_eq (rs2 rs1 rd : Reg) (op : BitVec 7) :
    (rs2.setWidth 32 <<< 20 ||| rs1.setWidth 32 <<< 15 ||| rd.setWidth 32 <<< 7 |||
        op.setWidth 32 : BitVec 32) = Riscv.rFormat 0 rs2 rs1 0 rd op := by
  apply BitVec.eq_of_getLsbD_eq
  intro j hj
  simp only [Riscv.rFormat, getLsbD_shiftLeft, getLsbD_or, getLsbD_setWidth, getLsbD_append]
  interval_cases j <;> simp

theorem mv_eq (rs2 rd : Reg) (op : BitVec 7) :
    (rs2.setWidth 32 <<< 20 ||| rd.setWidth 32 <<< 7 ||| op.setWidth 32 : BitVec 32) =
      Riscv.rFormat 0 rs2 0 0 rd op := by
  have hzero : (0 : Reg).setWidth 32 <<< 15 = 0#32 := rfl
  have hadd := add_eq rs2 0 rd op
  rwa [hzero, BitVec.or_zero] at hadd

/-! ## Fields -/

section

variable (half : BitVec 16)

theorem field_eq (low len : ℕ) (hlen : low + len ≤ 32) :
    field (half.setWidth 32) low (Bits.mask 32 len) =
      (half.extractLsb' low len).setWidth 32 := by
  rw [field, Bits.shift_and_mask, BitVec.extractLsb'_setWidth_of_le hlen]

theorem rdOf_eq : rdOf (half.setWidth 32) = (Riscv.Compressed.rd half).setWidth 32 :=
  field_eq half 7 5 (by norm_num)

theorem rs2Of_eq : rs2Of (half.setWidth 32) = (Riscv.Compressed.rs2 half).setWidth 32 :=
  field_eq half 2 5 (by norm_num)

theorem popular_eq (r : BitVec 3) :
    8 + r.setWidth 32 = (Riscv.Compressed.popular r).setWidth 32 := by
  revert r
  decide

theorem rdp_eq : rdp (half.setWidth 32) = (Riscv.Compressed.low half).setWidth 32 := by
  rw [rdp, Riscv.Compressed.low, ← popular_eq]
  exact congrArg (8 + ·) (field_eq half 2 3 (by norm_num))

theorem rs1p_eq : rs1p (half.setWidth 32) = (Riscv.Compressed.high half).setWidth 32 := by
  rw [rs1p, Riscv.Compressed.high, ← popular_eq]
  exact congrArg (8 + ·) (field_eq half 7 3 (by norm_num))

theorem imm6_eq : imm6 (half.setWidth 32) = (Riscv.Compressed.imm half).setWidth 32 := by
  apply BitVec.eq_of_getLsbD_eq
  intro j hj
  simp only [imm6, field, Riscv.Compressed.imm, getLsbD_shiftLeft, getLsbD_ushiftRight,
    getLsbD_or, getLsbD_and, getLsbD_setWidth, getLsbD_append, getLsbD_extractLsb']
  interval_cases j <;> simp

theorem offLw_eq : offLw (half.setWidth 32) = (Riscv.Compressed.immW half).setWidth 32 := by
  apply BitVec.eq_of_getLsbD_eq
  intro j hj
  simp only [offLw, field, Riscv.Compressed.immW, getLsbD_shiftLeft, getLsbD_ushiftRight,
    getLsbD_or, getLsbD_and, getLsbD_setWidth, getLsbD_append, getLsbD_extractLsb']
  interval_cases j <;> simp

theorem offLd_eq : offLd (half.setWidth 32) = (Riscv.Compressed.immD half).setWidth 32 := by
  apply BitVec.eq_of_getLsbD_eq
  intro j hj
  simp only [offLd, field, Riscv.Compressed.immD, getLsbD_shiftLeft, getLsbD_ushiftRight,
    getLsbD_or, getLsbD_and, getLsbD_setWidth, getLsbD_append, getLsbD_extractLsb']
  interval_cases j <;> simp

/-- The bits a compressed instruction spells an immediate with, the sign first. -/
theorem sext_eq {n : ℕ} (hpos : 0 < n) (hn : n ≤ 32) (x : BitVec n) :
    sext n (x.setWidth 32) = x.signExtend 32 := by
  have hmsb : (x.setWidth 32 <<< (32 - n)).msb = x.msb := by
    rw [msb_eq_getLsbD_last, msb_eq_getLsbD_last, getLsbD_shiftLeft, getLsbD_setWidth]
    have hlow : 32 - 1 - (32 - n) = n - 1 := by omega
    simp [hlow, show ¬31 < 32 - n by omega, show n - 1 < 32 by omega]
  apply BitVec.eq_of_getLsbD_eq
  intro j hj
  rw [sext, getLsbD_sshiftRight, getLsbD_signExtend, hmsb, getLsbD_shiftLeft, getLsbD_setWidth]
  by_cases hlow : j < n
  · have hback : 32 - n + j - (32 - n) = j := by omega
    simp [hlow, hj, hback, show 32 - n + j < 32 by omega]
  · simp [hlow, hj, show ¬32 - n + j < 32 by omega]

theorem offBranch_eq :
    offBranch (half.setWidth 32) = (Riscv.Compressed.immBranch half).signExtend 32 := by
  rw [← sext_eq (by norm_num) (by norm_num), offBranch]
  apply congrArg (sext 9)
  apply BitVec.eq_of_getLsbD_eq
  intro j hj
  simp only [field, Riscv.Compressed.immBranch, getLsbD_shiftLeft, getLsbD_ushiftRight,
    getLsbD_or, getLsbD_and, getLsbD_setWidth, getLsbD_append, getLsbD_extractLsb']
  interval_cases j <;> simp

theorem offJump_eq :
    offJump (half.setWidth 32) = (Riscv.Compressed.immJump half).signExtend 32 := by
  rw [← sext_eq (by norm_num) (by norm_num), offJump]
  apply congrArg (sext 12)
  apply BitVec.eq_of_getLsbD_eq
  intro j hj
  simp only [field, Riscv.Compressed.immJump, getLsbD_shiftLeft, getLsbD_ushiftRight,
    getLsbD_or, getLsbD_and, getLsbD_setWidth, getLsbD_append, getLsbD_extractLsb']
  interval_cases j <;> simp

theorem addi4spn_eq :
    (field (half.setWidth 32) 7 0xF <<< 6 ||| field (half.setWidth 32) 11 0x3 <<< 4 |||
        field (half.setWidth 32) 5 0x1 <<< 3 ||| field (half.setWidth 32) 6 0x1 <<< 2) =
      (Riscv.Compressed.immAddi4spn half).setWidth 32 := by
  apply BitVec.eq_of_getLsbD_eq
  intro j hj
  simp only [field, Riscv.Compressed.immAddi4spn, getLsbD_shiftLeft, getLsbD_ushiftRight,
    getLsbD_or, getLsbD_and, getLsbD_setWidth, getLsbD_append, getLsbD_extractLsb']
  interval_cases j <;> simp

theorem addi16sp_eq :
    sext 10 (field (half.setWidth 32) 12 1 <<< 9 ||| field (half.setWidth 32) 3 0x3 <<< 7 |||
        field (half.setWidth 32) 5 1 <<< 6 ||| field (half.setWidth 32) 2 1 <<< 5 |||
        field (half.setWidth 32) 6 1 <<< 4) =
      (Riscv.Compressed.immAddi16sp half).signExtend 32 := by
  rw [← sext_eq (by norm_num) (by norm_num)]
  apply congrArg (sext 10)
  apply BitVec.eq_of_getLsbD_eq
  intro j hj
  simp only [field, Riscv.Compressed.immAddi16sp, getLsbD_shiftLeft, getLsbD_ushiftRight,
    getLsbD_or, getLsbD_and, getLsbD_setWidth, getLsbD_append, getLsbD_extractLsb']
  interval_cases j <;> simp

theorem lwsp_eq :
    (field (half.setWidth 32) 12 1 <<< 5 ||| field (half.setWidth 32) 4 0x7 <<< 2 |||
        field (half.setWidth 32) 2 0x3 <<< 6) =
      (Riscv.Compressed.immLwsp half).setWidth 32 := by
  apply BitVec.eq_of_getLsbD_eq
  intro j hj
  simp only [field, Riscv.Compressed.immLwsp, getLsbD_shiftLeft, getLsbD_ushiftRight,
    getLsbD_or, getLsbD_and, getLsbD_setWidth, getLsbD_append, getLsbD_extractLsb']
  interval_cases j <;> simp

theorem ldsp_eq :
    (field (half.setWidth 32) 12 1 <<< 5 ||| field (half.setWidth 32) 5 0x3 <<< 3 |||
        field (half.setWidth 32) 2 0x7 <<< 6) =
      (Riscv.Compressed.immLdsp half).setWidth 32 := by
  apply BitVec.eq_of_getLsbD_eq
  intro j hj
  simp only [field, Riscv.Compressed.immLdsp, getLsbD_shiftLeft, getLsbD_ushiftRight,
    getLsbD_or, getLsbD_and, getLsbD_setWidth, getLsbD_append, getLsbD_extractLsb']
  interval_cases j <;> simp

theorem swsp_eq :
    (field (half.setWidth 32) 9 0xF <<< 2 ||| field (half.setWidth 32) 7 0x3 <<< 6) =
      (Riscv.Compressed.immSwsp half).setWidth 32 := by
  apply BitVec.eq_of_getLsbD_eq
  intro j hj
  simp only [field, Riscv.Compressed.immSwsp, getLsbD_shiftLeft, getLsbD_ushiftRight,
    getLsbD_or, getLsbD_and, getLsbD_setWidth, getLsbD_append, getLsbD_extractLsb']
  interval_cases j <;> simp

theorem sdsp_eq :
    (field (half.setWidth 32) 10 0x7 <<< 3 ||| field (half.setWidth 32) 7 0x7 <<< 6) =
      (Riscv.Compressed.immSdsp half).setWidth 32 := by
  apply BitVec.eq_of_getLsbD_eq
  intro j hj
  simp only [field, Riscv.Compressed.immSdsp, getLsbD_shiftLeft, getLsbD_ushiftRight,
    getLsbD_or, getLsbD_and, getLsbD_setWidth, getLsbD_append, getLsbD_extractLsb']
  interval_cases j <;> simp

end

end Baonix.Core.Rvc

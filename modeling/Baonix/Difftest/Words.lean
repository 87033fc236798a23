import Baonix.Core.Compressed
import Baonix.Difftest.Program

/-!
# What the encoders of the generator encode

The words of the generator are laid out as the formats of the manual are, so that the
decoders of the emulator read back the fields the generator put in.
-/

namespace Baonix.Difftest

open BitVec (getLsbD_and getLsbD_append getLsbD_extractLsb' getLsbD_or getLsbD_setWidth
  getLsbD_shiftLeft getLsbD_ushiftRight)
open Riscv (Reg)

/-! ## Words -/

theorem or_left_comm {w : ℕ} (x y z : BitVec w) : x ||| (y ||| z) = y ||| (x ||| z) := by
  rw [← BitVec.or_assoc, BitVec.or_comm x y, BitVec.or_assoc]

section

variable (op f7 : BitVec 7) (f3 : BitVec 3) (rd rs1 rs2 : Reg) (imm : BitVec 32)

theorem u32_toNat (r : Reg) : u32 r.toNat = r.setWidth 32 := BitVec.ofNat_toNat 32 r

theorem rType_eq :
    rType (op.setWidth 32) (f3.setWidth 32) (f7.setWidth 32) rd.toNat rs1.toNat rs2.toNat =
      Riscv.rFormat f7 rs2 rs1 f3 rd op := by
  rw [← Core.Rvc.rType_eq, rType, Core.Rvc.rType, u32_toNat, u32_toNat, u32_toNat]
  simp only [BitVec.or_assoc, BitVec.or_comm, or_left_comm]

theorem iType_eq :
    iType (op.setWidth 32) (f3.setWidth 32) rd.toNat rs1.toNat imm =
      Riscv.iFormat (imm.extractLsb' 0 12) rs1 f3 rd op := by
  rw [← Core.Rvc.iType_eq, iType, Core.Rvc.iType, u32_toNat, u32_toNat]
  simp only [BitVec.or_assoc, BitVec.or_comm, or_left_comm]

theorem sType_eq :
    sType (op.setWidth 32) (f3.setWidth 32) rs1.toNat rs2.toNat imm =
      Riscv.sFormat (imm.extractLsb' 0 12) rs2 rs1 f3 op := by
  have hcut : (imm &&& 0xFFF).extractLsb' 0 12 = imm.extractLsb' 0 12 := by
    apply BitVec.eq_of_getLsbD_eq
    intro j hj
    simp only [getLsbD_extractLsb', getLsbD_and]
    interval_cases j <;> simp
  rw [← hcut, ← Core.Rvc.sType_eq, sType, Core.Rvc.sType, u32_toNat, u32_toNat]
  simp only [BitVec.or_assoc, BitVec.or_comm, or_left_comm]

theorem bType_eq :
    bType (f3.setWidth 32) rs1.toNat rs2.toNat imm =
      Riscv.bFormat (imm.extractLsb' 1 12) rs2 rs1 f3 0x63 := by
  rw [← Core.Rvc.bType_eq, bType, Core.Rvc.bType, u32_toNat, u32_toNat]
  have hop : (0x63 : BitVec 32) = (0x63 : BitVec 7).setWidth 32 := rfl
  rw [hop]
  simp only [BitVec.or_assoc, BitVec.or_comm, or_left_comm]

theorem uType_eq :
    uType (op.setWidth 32) rd.toNat imm = Riscv.uFormat (imm.extractLsb' 0 20) rd op := by
  rw [← Core.Rvc.lui_eq, uType, u32_toNat]
  simp only [BitVec.or_assoc, BitVec.or_comm]

theorem jType_eq :
    jType rd.toNat imm = Riscv.jFormat (imm.extractLsb' 1 20) rd 0x6F := by
  rw [← Core.Rvc.jType_eq, jType, Core.Rvc.jType, u32_toNat]
  have hop : (0x6F : BitVec 32) = (0x6F : BitVec 7).setWidth 32 := rfl
  rw [hop]
  simp only [BitVec.or_assoc, BitVec.or_comm, or_left_comm]

end

/-! ## Halfwords -/

section

open Riscv.Compressed

variable (o f2 : BitVec 2) (f3 r r' : BitVec 3) (bit : BitVec 1) (rd rs2 : Reg) (i : BitVec 32)

theorem u16_toNat {n : ℕ} (x : BitVec n) : u16 x.toNat = x.setWidth 16 := BitVec.ofNat_toNat 16 x

/-- The fields of three bits drop the eight that every register they name has. -/
theorem u16_popular : u16 (8 + r.toNat - 8) = r.setWidth 16 := by
  rw [Nat.add_sub_cancel_left, u16_toNat]

theorem ci_fields :
    let h := ci (f3.setWidth 16) (o.setWidth 16) rd.toNat i
    Riscv.Compressed.op h = o ∧ funct3 h = f3 ∧ Riscv.Compressed.rd h = rd ∧
      imm h = i.extractLsb' 0 6 := by
  refine ⟨?_, ?_, ?_, ?_⟩
  all_goals
    apply BitVec.eq_of_getLsbD_eq
    intro j hj
    simp only [ci, u16_toNat, Riscv.Compressed.op, funct3, Riscv.Compressed.rd, imm,
      getLsbD_append, getLsbD_extractLsb', getLsbD_or, getLsbD_and, getLsbD_setWidth,
      getLsbD_shiftLeft, getLsbD_ushiftRight]
    interval_cases j <;> simp

theorem cbImm_fields :
    let h := cbImm (f2.setWidth 16) (8 + r.toNat) i
    Riscv.Compressed.op h = 1 ∧ funct3 h = 4 ∧ h.extractLsb' 10 2 = f2 := by
  refine ⟨?_, ?_, ?_⟩
  all_goals
    apply BitVec.eq_of_getLsbD_eq
    intro j hj
    simp only [cbImm, u16_popular, Riscv.Compressed.op, funct3, getLsbD_extractLsb', getLsbD_or,
      getLsbD_and, getLsbD_setWidth, getLsbD_shiftLeft, getLsbD_ushiftRight]
    interval_cases j <;> simp

theorem ca_fields :
    let h := ca (bit.setWidth 16) (f2.setWidth 16) (8 + r.toNat) (8 + r'.toNat)
    Riscv.Compressed.op h = 1 ∧ funct3 h = 4 ∧ h.extractLsb' 10 2 = 3 ∧
      h.extractLsb' 12 1 = bit ∧ h.extractLsb' 5 2 = f2 := by
  refine ⟨?_, ?_, ?_, ?_, ?_⟩
  all_goals
    apply BitVec.eq_of_getLsbD_eq
    intro j hj
    simp only [ca, u16_popular, Riscv.Compressed.op, funct3, getLsbD_extractLsb', getLsbD_or,
      getLsbD_setWidth, getLsbD_shiftLeft]
    interval_cases j <;> simp

theorem cMoves_fields :
    let h := cMoves (0b100#3 ++ bit ++ 0#10 ++ 0b10#2) rd.toNat rs2.toNat
    Riscv.Compressed.op h = 2 ∧ funct3 h = 4 ∧ h.extractLsb' 12 1 = bit ∧
      Riscv.Compressed.rd h = rd ∧ Riscv.Compressed.rs2 h = rs2 := by
  refine ⟨?_, ?_, ?_, ?_, ?_⟩
  all_goals
    apply BitVec.eq_of_getLsbD_eq
    intro j hj
    simp only [cMoves, u16_toNat, Riscv.Compressed.op, funct3, Riscv.Compressed.rd,
      Riscv.Compressed.rs2, getLsbD_append, getLsbD_extractLsb', getLsbD_or, getLsbD_setWidth,
      getLsbD_shiftLeft]
    interval_cases j <;> simp

theorem cAddi4spn_fields :
    let h := cAddi4spn (8 + r.toNat) i
    Riscv.Compressed.op h = 0 ∧ funct3 h = 0 ∧ immAddi4spn h = i.extractLsb' 2 8 ++ 0#2 := by
  refine ⟨?_, ?_, ?_⟩
  all_goals
    apply BitVec.eq_of_getLsbD_eq
    intro j hj
    simp only [cAddi4spn, bits, u16_popular, Riscv.Compressed.op, funct3, immAddi4spn,
      getLsbD_append, getLsbD_extractLsb', getLsbD_or, getLsbD_and, getLsbD_setWidth,
      getLsbD_shiftLeft, getLsbD_ushiftRight]
    interval_cases j <;> simp

theorem cAddi16sp_fields :
    let h := cAddi16sp i
    Riscv.Compressed.op h = 1 ∧ funct3 h = 3 ∧ Riscv.Compressed.rd h = sp ∧
      immAddi16sp h = i.extractLsb' 4 6 ++ 0#4 := by
  refine ⟨?_, ?_, ?_, ?_⟩
  all_goals
    apply BitVec.eq_of_getLsbD_eq
    intro j hj
    simp only [cAddi16sp, bits, Riscv.Compressed.op, funct3, Riscv.Compressed.rd, sp, immAddi16sp,
      getLsbD_append, getLsbD_extractLsb', getLsbD_or, getLsbD_and, getLsbD_setWidth,
      getLsbD_shiftLeft, getLsbD_ushiftRight]
    interval_cases j <;> simp

theorem cMem_fields (wide store : Bool) :
    let h := cMem wide store i (8 + r.toNat) (8 + r'.toNat)
    Riscv.Compressed.op h = 0 ∧ funct3 h = (cMemF3 wide store).setWidth 3 ∧
      high h = popular r := by
  refine ⟨?_, ?_, ?_⟩
  all_goals
    apply BitVec.eq_of_getLsbD_eq
    intro j hj
    simp only [cMem, cOffset, bits, u16_popular, Riscv.Compressed.op, funct3, high, popular,
      getLsbD_append, getLsbD_extractLsb', getLsbD_or, getLsbD_setWidth, getLsbD_shiftLeft]
    cases wide <;> cases store <;> interval_cases j <;> simp [cMemF3]

theorem cStoreSp_fields (wide : Bool) :
    let h := cStoreSp wide i rs2.toNat
    Riscv.Compressed.op h = 2 ∧ funct3 h = if wide then 7 else 6 := by
  refine ⟨?_, ?_⟩
  all_goals
    apply BitVec.eq_of_getLsbD_eq
    intro j hj
    simp only [cStoreSp, bits, u16_toNat, Riscv.Compressed.op, funct3, getLsbD_extractLsb']
    cases wide <;> interval_cases j <;> simp

theorem cLoadSp_fields (wide : Bool) :
    let h := cLoadSp wide i rd.toNat
    Riscv.Compressed.op h = 2 ∧ (funct3 h = if wide then 3 else 2) ∧
      Riscv.Compressed.rd h = rd := by
  refine ⟨?_, ?_, ?_⟩
  all_goals
    apply BitVec.eq_of_getLsbD_eq
    intro j hj
    simp only [cLoadSp, bits, u16_toNat, Riscv.Compressed.op, funct3, Riscv.Compressed.rd,
      getLsbD_extractLsb']
    cases wide <;> interval_cases j <;> simp

theorem cBranchWord_fields (ne : Bool) :
    let h := cBranchWord ne (8 + r.toNat) i
    Riscv.Compressed.op h = 1 ∧ (funct3 h = if ne then 7 else 6) ∧
      immBranch h = i.extractLsb' 1 8 ++ 0#1 := by
  refine ⟨?_, ?_, ?_⟩
  all_goals
    apply BitVec.eq_of_getLsbD_eq
    intro j hj
    simp only [cBranchWord, bits, u16_popular, Riscv.Compressed.op, funct3, immBranch,
      getLsbD_append, getLsbD_extractLsb']
    cases ne <;> interval_cases j <;> simp

theorem cJWord_fields :
    let h := cJWord i
    Riscv.Compressed.op h = 1 ∧ funct3 h = 5 ∧ immJump h = i.extractLsb' 1 11 ++ 0#1 := by
  refine ⟨?_, ?_, ?_⟩
  all_goals
    apply BitVec.eq_of_getLsbD_eq
    intro j hj
    simp only [cJWord, bits, Riscv.Compressed.op, funct3, immJump, getLsbD_append,
      getLsbD_extractLsb']
    interval_cases j <;> simp

theorem cJrWord_fields (link : Bool) :
    let h := cJrWord link rd.toNat
    Riscv.Compressed.op h = 2 ∧ funct3 h = 4 ∧
      (h.extractLsb' 12 1 = if link then 1 else 0) ∧
      Riscv.Compressed.rd h = rd ∧ Riscv.Compressed.rs2 h = 0 := by
  refine ⟨?_, ?_, ?_, ?_, ?_⟩
  all_goals
    apply BitVec.eq_of_getLsbD_eq
    intro j hj
    simp only [cJrWord, u16_toNat, Riscv.Compressed.op, funct3, Riscv.Compressed.rd,
      Riscv.Compressed.rs2, getLsbD_extractLsb']
    cases link <;> interval_cases j <;> simp

end

end Baonix.Difftest

import Baonix.Core.BaseEffect
import Baonix.Core.Encoders

/-!
# Compressed instructions

`rvc::expand` writes the word of the instruction a halfword abbreviates and refuses
exactly the halfwords the manual reserves or gives to floating point, so a step of a
compressed instruction has the effect of the instruction abbreviated.
-/

namespace Baonix.Core

open PageCache (Holds)
open Riscv (Reg)

namespace Rvc

/-! ## Words -/

/-- The word is that of the instruction. -/
def Encodes (w : Insn) (instr : Riscv.Instr) : Prop := Riscv.decode w = some instr

section

variable {n : ℕ} (x : BitVec n) (rs1 rs2 rd : Reg) (f3 : BitVec 3)

theorem encodes_opImm (imm : BitVec 32) {op : Riscv.Op}
    (hop : Riscv.decodeOpImm (Riscv.iFormat (imm.extractLsb' 0 12) rs1 f3 rd 0x13#7) = some op) :
    Encodes (iType imm (rs1.setWidth 32) (f3.setWidth 32) (rd.setWidth 32) 0x13)
      (.arithImm op rd rs1 ((imm.extractLsb' 0 12).signExtend 64)) := by
  refine (congrArg Riscv.decode (iType_eq imm rs1 f3 rd 0x13)).trans ?_
  simp [Riscv.decode, hop]

theorem encodes_opImm_signed (hn : n ≤ 12) {op : Riscv.Op}
    (hop : Riscv.decodeOpImm (Riscv.iFormat ((x.signExtend 32).extractLsb' 0 12) rs1 f3 rd
      0x13#7) = some op) :
    Encodes (iType (x.signExtend 32) (rs1.setWidth 32) (f3.setWidth 32) (rd.setWidth 32) 0x13)
      (.arithImm op rd rs1 (x.signExtend 64)) := by
  have hencodes := encodes_opImm rs1 rd f3 (x.signExtend 32) hop
  rwa [immI_signExtend hn] at hencodes

theorem encodes_opImm_unsigned (hn : n < 12) {op : Riscv.Op}
    (hop : Riscv.decodeOpImm (Riscv.iFormat ((x.setWidth 32).extractLsb' 0 12) rs1 f3 rd
      0x13#7) = some op) :
    Encodes (iType (x.setWidth 32) (rs1.setWidth 32) (f3.setWidth 32) (rd.setWidth 32) 0x13)
      (.arithImm op rd rs1 (x.setWidth 64)) := by
  have hencodes := encodes_opImm rs1 rd f3 (x.setWidth 32) hop
  rwa [immI_setWidth hn] at hencodes

theorem encodes_addiw (hn : n ≤ 12) :
    Encodes (iType (x.signExtend 32) (rs1.setWidth 32) 0x0 (rd.setWidth 32) 0x1B)
      (.arithImmW .add rd rs1 (x.signExtend 64)) := by
  refine (congrArg Riscv.decode (iType_eq _ rs1 0 rd 0x1B)).trans ?_
  simp [Riscv.decode, Riscv.decodeOpImmW, immI_signExtend hn]

theorem encodes_load (hn : n < 12) {size : ℕ} {signed : Bool}
    (hload : Riscv.decodeLoad (Riscv.iFormat ((x.setWidth 32).extractLsb' 0 12) rs1 f3 rd
      0x03#7) = some (size, signed)) :
    Encodes (iType (x.setWidth 32) (rs1.setWidth 32) (f3.setWidth 32) (rd.setWidth 32) 0x03)
      (.load size signed rd rs1 (x.setWidth 64)) := by
  refine (congrArg Riscv.decode (iType_eq _ rs1 f3 rd 0x03)).trans ?_
  simp [Riscv.decode, hload, immI_setWidth hn]

theorem encodes_store (hn : n < 12) {size : ℕ}
    (hsize : Riscv.decodeStore (Riscv.sFormat ((x.setWidth 32).extractLsb' 0 12) rs2 rs1 f3
      0x23#7) = some size) :
    Encodes (sType (x.setWidth 32) (rs2.setWidth 32) (rs1.setWidth 32) (f3.setWidth 32) 0x23)
      (.store size rs1 rs2 (x.setWidth 64)) := by
  refine (congrArg Riscv.decode (sType_eq _ rs2 rs1 f3 0x23)).trans ?_
  simp [Riscv.decode, hsize, immI_setWidth hn]

theorem encodes_lui (hpos : 0 < n) (hn : n ≤ 20) :
    Encodes ((x.signExtend 32 &&& 0xFFFFF) <<< 12 ||| rd.setWidth 32 <<< 7 ||| 0x37)
      (.lui rd ((x ++ 0#12).signExtend 64)) := by
  refine (congrArg Riscv.decode (lui_eq _ rd 0x37)).trans ?_
  simp only [Riscv.decode, Riscv.opcode_uFormat, Riscv.rd_uFormat, Riscv.immU_uFormat,
    immU_signExtend hn x hpos]
  rfl

theorem encodes_jal (hpos : 0 < n) (hn : n ≤ 21) (heven : x.getLsbD 0 = false) :
    Encodes (jType (x.signExtend 32) (rd.setWidth 32) 0x6F)
      (.jal rd (x.signExtend 64)) := by
  refine (congrArg Riscv.decode (jType_eq _ rd 0x6F)).trans ?_
  simp only [Riscv.decode, Riscv.opcode_jFormat, Riscv.rd_jFormat, Riscv.immJ_jFormat,
    offset_signExtend hn (by norm_num) x heven hpos]
  rfl

theorem encodes_jalr :
    Encodes (iType 0 (rs1.setWidth 32) 0x0 (rd.setWidth 32) 0x67) (.jalr rd rs1 0) := by
  refine (congrArg Riscv.decode (iType_eq 0 rs1 0 rd 0x67)).trans ?_
  simp [Riscv.decode]

theorem encodes_branch (hpos : 0 < n) (hn : n ≤ 13) (heven : x.getLsbD 0 = false)
    {cond : Riscv.Cond}
    (hcond : Riscv.decodeCond (Riscv.bFormat ((x.signExtend 32).extractLsb' 1 12) rs2 rs1 f3
      0x63#7) = some cond) :
    Encodes (bType (x.signExtend 32) (rs2.setWidth 32) (rs1.setWidth 32) (f3.setWidth 32) 0x63)
      (.branch cond rs1 rs2 (x.signExtend 64)) := by
  refine (congrArg Riscv.decode (bType_eq _ rs2 rs1 f3 0x63)).trans ?_
  simp [Riscv.decode, hcond, offset_signExtend hn (by norm_num) x heven hpos]

theorem encodes_op (f7 : BitVec 7) {op : Riscv.Op}
    (hop : Riscv.decodeOp (Riscv.rFormat f7 rs2 rs1 f3 rd 0x33#7) = some op) :
    Encodes (rType (f7.setWidth 32) (rs2.setWidth 32) (rs1.setWidth 32) (f3.setWidth 32)
        (rd.setWidth 32) 0x33) (.arith op rd rs1 rs2) := by
  refine (congrArg Riscv.decode (rType_eq f7 rs2 rs1 f3 rd 0x33)).trans ?_
  simp [Riscv.decode, hop]

theorem encodes_op32 (f7 : BitVec 7) {op : Riscv.Op}
    (hop : Riscv.decodeOpW (Riscv.rFormat f7 rs2 rs1 f3 rd 0x3B#7) = some op) :
    Encodes (rType (f7.setWidth 32) (rs2.setWidth 32) (rs1.setWidth 32) (f3.setWidth 32)
        (rd.setWidth 32) 0x3B) (.arithW op rd rs1 rs2) := by
  refine (congrArg Riscv.decode (rType_eq f7 rs2 rs1 f3 rd 0x3B)).trans ?_
  simp [Riscv.decode, hop]

end

/-! ## Halfwords -/

variable (half : BitVec 16)

theorem toNat_field (low len : ℕ) (hlen : low + len ≤ 16) :
    (field (half.setWidth 32) low (Bits.mask 32 len)).toNat =
      (half.extractLsb' low len).toNat := by
  rw [field_eq half low len (by omega)]
  exact BitVec.toNat_setWidth_of_le (by omega)

theorem setWidth_eq_zero {n : ℕ} (hn : n ≤ 32) (x : BitVec n) :
    x.setWidth 32 = 0 ↔ x = 0 := by
  rw [← BitVec.toNat_inj, ← BitVec.toNat_inj, BitVec.toNat_setWidth_of_le hn]
  rfl

theorem signExtend_eq_zero {n : ℕ} (hn : n ≤ 32) (x : BitVec n) :
    x.signExtend 32 = 0 ↔ x = 0 := by
  rw [← BitVec.toInt_inj, ← BitVec.toInt_inj, BitVec.toInt_signExtend_of_le hn]
  simp

theorem quadrant0_eq :
    Option.Rel Encodes (quadrant0 (half.setWidth 32)) (Riscv.Compressed.quadrant0 half) := by
  have hkind : (field (half.setWidth 32) 13 0x7).toNat =
      (Riscv.Compressed.funct3 half).toNat := toNat_field half 13 3 (by norm_num)
  have hlt := (Riscv.Compressed.funct3 half).isLt
  rw [quadrant0, Riscv.Compressed.quadrant0, hkind, addi4spn_eq, offLw_eq, offLd_eq, rdp_eq,
    rs1p_eq]
  generalize (Riscv.Compressed.funct3 half).toNat = kind at hlt
  interval_cases kind
  · simp only [setWidth_eq_zero (show 10 ≤ 32 by norm_num)]
    split_ifs
    · exact .none
    · exact .some (encodes_opImm_unsigned _ 2 _ 0 (by norm_num) (by simp [Riscv.decodeOpImm]))
  · exact .none
  · exact .some (encodes_load _ _ _ 2 (by norm_num) (by simp [Riscv.decodeLoad]))
  · exact .some (encodes_load _ _ _ 3 (by norm_num) (by simp [Riscv.decodeLoad]))
  · exact .none
  · exact .none
  · exact .some (encodes_store _ _ _ 2 (by norm_num) (by simp [Riscv.decodeStore]))
  · exact .some (encodes_store _ _ _ 3 (by norm_num) (by simp [Riscv.decodeStore]))

/-- An amount of six bits leaves the field that tells the shifts apart clear. -/
theorem funct6_amount (x : BitVec 6) :
    ((x.setWidth 32).extractLsb' 0 12).extractLsb' 6 6 = 0 := by
  revert x
  decide

theorem decodeOpImm_slli (x : BitVec 6) (rs1 rd : Reg) :
    Riscv.decodeOpImm (Riscv.iFormat ((x.setWidth 32).extractLsb' 0 12) rs1 1 rd 0x13#7) =
      some .sll := by
  rw [Riscv.decodeOpImm, Riscv.funct3_iFormat, Riscv.funct6_iFormat, funct6_amount]
  rfl

theorem decodeOpImm_srli (x : BitVec 6) (rs1 rd : Reg) :
    Riscv.decodeOpImm (Riscv.iFormat ((x.setWidth 32).extractLsb' 0 12) rs1 5 rd 0x13#7) =
      some .srl := by
  rw [Riscv.decodeOpImm, Riscv.funct3_iFormat, Riscv.funct6_iFormat, funct6_amount]
  rfl

theorem decodeOpImm_srai (x : BitVec 6) (rs1 rd : Reg) :
    Riscv.decodeOpImm (Riscv.iFormat (((0b10000#5 ++ x).setWidth 32).extractLsb' 0 12) rs1 5 rd
      0x13#7) = some .sra := by
  have htop : (((0b10000#5 ++ x).setWidth 32).extractLsb' 0 12).extractLsb' 6 6 = 0b010000#6 := by
    revert x
    decide
  rw [Riscv.decodeOpImm, Riscv.funct3_iFormat, Riscv.funct6_iFormat, htop]
  rfl

theorem srai_eq (x : BitVec 6) : x.setWidth 32 ||| 0x400 = (0b10000#5 ++ x).setWidth 32 := by
  revert x
  decide

theorem misc_eq :
    Option.Rel Encodes (misc (half.setWidth 32)) (Riscv.Compressed.arithmetic half) := by
  have hkind : (field (half.setWidth 32) 10 0x3).toNat = (half.extractLsb' 10 2).toNat :=
    toNat_field half 10 2 (by norm_num)
  have hwide : (field (half.setWidth 32) 12 1).toNat = (half.extractLsb' 12 1).toNat :=
    toNat_field half 12 1 (by norm_num)
  have hop : (field (half.setWidth 32) 5 0x3).toNat = (half.extractLsb' 5 2).toNat :=
    toNat_field half 5 2 (by norm_num)
  have hkindLt := (half.extractLsb' 10 2).isLt
  have hwideLt := (half.extractLsb' 12 1).isLt
  have hopLt := (half.extractLsb' 5 2).isLt
  rw [misc, Riscv.Compressed.arithmetic, hkind, hwide, hop, rdp_eq, rs1p_eq, imm6_eq]
  generalize (half.extractLsb' 10 2).toNat = kind at hkindLt
  interval_cases kind
  · exact .some (encodes_opImm_unsigned (Riscv.Compressed.imm half) _ _ 5 (by norm_num)
      (decodeOpImm_srli _ _ _))
  · rw [srai_eq]
    exact .some (encodes_opImm_unsigned (0b10000#5 ++ Riscv.Compressed.imm half) _ _ 5
      (by norm_num) (decodeOpImm_srai _ _ _))
  · have hsext := sext_eq (by norm_num) (by norm_num) (Riscv.Compressed.imm half)
    simp only [hsext]
    exact .some (encodes_opImm_signed (Riscv.Compressed.imm half) _ _ 7 (by norm_num)
      (by simp [Riscv.decodeOpImm]))
  · rw [Riscv.Compressed.registers]
    generalize (half.extractLsb' 12 1).toNat = wide at hwideLt
    generalize (half.extractLsb' 5 2).toNat = op at hopLt
    interval_cases wide <;> interval_cases op
    · exact .some (encodes_op _ _ _ 0 0x20 (by simp [Riscv.decodeOp]))
    · exact .some (encodes_op _ _ _ 4 0x00 (by simp [Riscv.decodeOp]))
    · exact .some (encodes_op _ _ _ 6 0x00 (by simp [Riscv.decodeOp]))
    · exact .some (encodes_op _ _ _ 7 0x00 (by simp [Riscv.decodeOp]))
    · exact .some (encodes_op32 _ _ _ 0 0x20 (by simp [Riscv.decodeOpW]))
    · exact .some (encodes_op32 _ _ _ 0 0x00 (by simp [Riscv.decodeOpW]))
    · exact .none
    · exact .none

theorem lui_word_eq :
    Option.Rel Encodes (lui (half.setWidth 32)) (Riscv.Compressed.lui half) := by
  have hsp : rdOf (half.setWidth 32) = 2 ↔ Riscv.Compressed.rd half = Riscv.Compressed.sp := by
    rw [rdOf_eq, ← BitVec.toNat_inj, ← BitVec.toNat_inj,
      BitVec.toNat_setWidth_of_le (by norm_num)]
    rfl
  rw [lui, Riscv.Compressed.lui]
  by_cases hrd : Riscv.Compressed.rd half = Riscv.Compressed.sp
  · rw [if_pos (hsp.mpr hrd), if_pos hrd]
    simp only [addi16sp_eq, signExtend_eq_zero (show 10 ≤ 32 by norm_num)]
    split_ifs
    · exact .none
    · exact .some (encodes_opImm_signed (Riscv.Compressed.immAddi16sp half) 2 2 0 (by norm_num)
        (by simp [Riscv.decodeOpImm]))
  · have hsext := sext_eq (by norm_num) (by norm_num) (Riscv.Compressed.imm half)
    rw [if_neg (mt hsp.mp hrd), if_neg hrd]
    simp only [imm6_eq, hsext, rdOf_eq, setWidth_eq_zero (show 6 ≤ 32 by norm_num)]
    split_ifs
    · exact .none
    · exact .some (encodes_lui (Riscv.Compressed.imm half) (Riscv.Compressed.rd half)
        (by norm_num) (by norm_num))

theorem immJump_even : (Riscv.Compressed.immJump half).getLsbD 0 = false := by
  rw [Riscv.Compressed.immJump, BitVec.getLsbD_append]
  rfl

theorem immBranch_even : (Riscv.Compressed.immBranch half).getLsbD 0 = false := by
  rw [Riscv.Compressed.immBranch, BitVec.getLsbD_append]
  rfl

theorem quadrant1_eq :
    Option.Rel Encodes (quadrant1 (half.setWidth 32)) (Riscv.Compressed.quadrant1 half) := by
  have hkind : (field (half.setWidth 32) 13 0x7).toNat =
      (Riscv.Compressed.funct3 half).toNat := toNat_field half 13 3 (by norm_num)
  have hlt := (Riscv.Compressed.funct3 half).isLt
  have hsext := sext_eq (by norm_num) (by norm_num) (Riscv.Compressed.imm half)
  rw [quadrant1, Riscv.Compressed.quadrant1, hkind, imm6_eq, hsext, offJump_eq, offBranch_eq,
    rs1p_eq, rdOf_eq]
  generalize (Riscv.Compressed.funct3 half).toNat = kind at hlt
  interval_cases kind
  · exact .some (encodes_opImm_signed _ _ _ 0 (by norm_num) (by simp [Riscv.decodeOpImm]))
  · simp only [setWidth_eq_zero (show 5 ≤ 32 by norm_num)]
    split_ifs
    · exact .none
    · exact .some (encodes_addiw _ _ _ (by norm_num))
  · exact .some (encodes_opImm_signed _ 0 _ 0 (by norm_num) (by simp [Riscv.decodeOpImm]))
  · exact lui_word_eq half
  · exact misc_eq half
  · exact .some (encodes_jal _ 0 (by norm_num) (by norm_num) (immJump_even half))
  · exact .some (encodes_branch _ _ 0 0 (by norm_num) (by norm_num) (immBranch_even half)
      (by simp [Riscv.decodeCond]))
  · exact .some (encodes_branch _ _ 0 1 (by norm_num) (by norm_num) (immBranch_even half)
      (by simp [Riscv.decodeCond]))

theorem jumpOrMove_eq (hop : Riscv.Compressed.op half = 2)
    (hfunct3 : Riscv.Compressed.funct3 half = 4) (hne : half ≠ Riscv.Compressed.ebreak) :
    Option.Rel Encodes (jumpOrMove (half.setWidth 32)) (Riscv.Compressed.jumpOrMove half) := by
  have hwide : field (half.setWidth 32) 12 1 = (half.extractLsb' 12 1).setWidth 32 :=
    field_eq half 12 1 (by norm_num)
  simp only [jumpOrMove, Riscv.Compressed.jumpOrMove, hwide, rdOf_eq, rs2Of_eq,
    setWidth_eq_zero (show 1 ≤ 32 by norm_num), setWidth_eq_zero (show 5 ≤ 32 by norm_num)]
  split_ifs with hbit hrs2 hrd hrs2 hrd
  · exact .none
  · exact .some (encodes_jalr _ 0)
  · refine .some ((congrArg Riscv.decode (mv_eq _ _ 0x33)).trans ?_)
    simp [Riscv.decode, Riscv.decodeOp]
  · have hone : half.extractLsb' 12 1 = 1 :=
      (BitVec.eq_zero_or_eq_one (half.extractLsb' 12 1)).resolve_left hbit
    refine absurd ?_ hne
    rw [Riscv.Compressed.eq_fields half, hop, hfunct3, hone, hrd, hrs2]
    rfl
  · exact .some (encodes_jalr _ 1)
  · refine .some ((congrArg Riscv.decode (add_eq _ _ _ 0x33)).trans ?_)
    simp [Riscv.decode, Riscv.decodeOp]

theorem quadrant2_eq (hop : Riscv.Compressed.op half = 2)
    (hne : half ≠ Riscv.Compressed.ebreak) :
    Option.Rel Encodes (quadrant2 (half.setWidth 32)) (Riscv.Compressed.quadrant2 half) := by
  have hkind : (field (half.setWidth 32) 13 0x7).toNat =
      (Riscv.Compressed.funct3 half).toNat := toNat_field half 13 3 (by norm_num)
  have hlt := (Riscv.Compressed.funct3 half).isLt
  rw [quadrant2, Riscv.Compressed.quadrant2, hkind, imm6_eq, lwsp_eq, ldsp_eq, swsp_eq, sdsp_eq,
    rs2Of_eq, rdOf_eq]
  generalize hfunct3 : (Riscv.Compressed.funct3 half).toNat = kind at hlt
  interval_cases kind
  · exact .some (encodes_opImm_unsigned _ _ _ 1 (by norm_num) (decodeOpImm_slli _ _ _))
  · exact .none
  · simp only [setWidth_eq_zero (show 5 ≤ 32 by norm_num)]
    split_ifs
    · exact .none
    · exact .some (encodes_load _ 2 _ 2 (by norm_num) (by simp [Riscv.decodeLoad]))
  · simp only [setWidth_eq_zero (show 5 ≤ 32 by norm_num)]
    split_ifs
    · exact .none
    · exact .some (encodes_load _ 2 _ 3 (by norm_num) (by simp [Riscv.decodeLoad]))
  · exact jumpOrMove_eq half hop (BitVec.eq_of_toNat_eq hfunct3) hne
  · exact .none
  · exact .some (encodes_store _ 2 _ 2 (by norm_num) (by simp [Riscv.decodeStore]))
  · exact .some (encodes_store _ 2 _ 3 (by norm_num) (by simp [Riscv.decodeStore]))

theorem toNat_quadrant :
    ((half.setWidth 32) &&& 0x3).toNat = (Riscv.Compressed.op half).toNat := by
  have hop := toNat_field half 0 2 (by norm_num)
  rwa [field, BitVec.ushiftRight_zero] at hop

/-- **The expansion** writes the word of the instruction abbreviated, if there is one. -/
theorem expand_eq (hne : half ≠ Riscv.Compressed.ebreak) :
    Option.Rel Encodes (expand half) (Riscv.Compressed.decode half) := by
  have hlt := (Riscv.Compressed.op half).isLt
  rw [expand, Riscv.Compressed.decode, toNat_quadrant]
  generalize hop : (Riscv.Compressed.op half).toNat = quadrant at hlt
  interval_cases quadrant
  · exact quadrant0_eq half
  · exact quadrant1_eq half
  · exact quadrant2_eq half (BitVec.eq_of_toNat_eq hop) hne
  · exact .none

theorem expand_of_decode {instr : Riscv.Instr}
    (hdecode : Riscv.Compressed.decode half = some instr) :
    ∃ w, expand half = some w ∧ Riscv.decode w = some instr := by
  have hrel := expand_eq half fun hebreak => by
    rw [hebreak] at hdecode
    cases hdecode
  rw [hdecode] at hrel
  generalize hexpand : expand half = expanded at hrel
  cases hrel with
  | some hencodes => exact ⟨_, rfl, hencodes⟩

theorem expand_of_none (hdecode : Riscv.Compressed.decode half = none)
    (hne : half ≠ Riscv.Compressed.ebreak) : expand half = none := by
  have hrel := expand_eq half hne
  rw [hdecode] at hrel
  generalize hexpand : expand half = expanded at hrel
  cases hrel
  rfl

end Rvc

namespace Machine

variable {B S : Type} [FlatBacking B] [ConsoleSink S]

/-! ## Steps -/

/-- What a step that does nothing leaves. -/
structure Untouched (memory : Memory) (m after : Machine B S) : Prop where
  core : SameCore m after
  quiet : Bus.Quiet memory m.bus after.bus

omit [FlatBacking B] [ConsoleSink S] in
theorem short_of_op {half : BitVec 16} (hop : Riscv.Compressed.op half ≠ 3) :
    ¬half &&& 0x3 = 0x3 := by
  intro hlong
  apply hop
  have hfield := Bits.shift_and_mask half 0 2
  rw [BitVec.ushiftRight_zero] at hfield
  apply BitVec.eq_of_toNat_eq
  calc (Riscv.Compressed.op half).toNat
      = ((half.extractLsb' 0 2).setWidth 16).toNat :=
        (BitVec.toNat_setWidth_of_le (by norm_num)).symm
    _ = (half &&& 0x3).toNat := congrArg BitVec.toNat hfield.symm
    _ = 3 := by rw [hlong]; rfl

omit [ConsoleSink S] in
/-- A halfword that begins no longer instruction is expanded. -/
theorem fetchInsn_of_half {m fetched : Machine B S} {half : BitVec 64}
    (hfetch : (fetch 2).run m = .ok half fetched)
    (hop : Riscv.Compressed.op (half.setWidth 16) ≠ 3) :
    (fetchInsn : MachineM B S _).run m =
      match Rvc.expand (half.setWidth 16) with
      | none => .error (.illegalInstruction ((half.setWidth 16).setWidth 64)) fetched
      | some insn => .ok (insn, 2) fetched := by
  rw [fetchInsn, Exec.run_bind_ok hfetch, decode, if_neg (short_of_op hop)]
  cases Rvc.expand (half.setWidth 16) <;> rfl

omit [ConsoleSink S] in
theorem untouched_of_fetch {memory : Memory} {m fetched : Machine B S}
    (hm : Holds memory m.bus.cache) {half : BitVec 64}
    (hfetch : (fetch 2).run m = .ok half fetched) : Untouched memory m fetched where
  core := ((sameCore_reads .fetch).fetch_keeps 2 m).of_run_ok hfetch
  quiet := ((calm_reads memory .fetch).fetch_keeps 2 m).of_run_ok hfetch hm

theorem execute_ebreak (m : Machine B S) :
    (execute 0x00100073).run m = .error .breakpoint m := rfl

omit [FlatBacking B] [ConsoleSink S] in
theorem SameCore.begun {m fetched : Machine B S} (hcore : SameCore m fetched)
    (len : BitVec 64) : SameCore m (Machine.begun len fetched) :=
  ⟨hcore.regs, hcore.pc, hcore.instret, hcore.csrs, hcore.priv⟩

/-- **A compressed instruction** has the effect the manual gives the instruction it
abbreviates, the next instruction being two bytes further; `C.EBREAK` is a breakpoint; and
a halfword that is reserved or is given to floating point is illegal and does nothing. -/
theorem compressed_instructions_effect (hreliable : ¬Fallible B) {memory : Memory}
    {m fetched : Machine B S} (hm : Holds memory m.bus.cache) {word : BitVec 64}
    (hfetch : (fetch 2).run m = .ok word fetched) {half : BitVec 16}
    (hhalf : word.setWidth 16 = half) (hop : Riscv.Compressed.op half ≠ 3) :
    (∀ instr, Riscv.Compressed.decode half = some instr →
      ∀ place, Placed instr (begun 2 fetched) place →
        ∃ after, step.run m = .ok ⟨⟩ after ∧
          Effected (instr.run 2 place.toNat (m.hart memory)) m after) ∧
    (half = Riscv.Compressed.ebreak →
      ∃ after, step.run m = .error .breakpoint after ∧ Untouched memory m after) ∧
    (Riscv.Compressed.Reserved half ∨ Riscv.Compressed.FloatingPoint half →
      ∃ after, step.run m = .error (.illegalInstruction (half.setWidth 64)) after ∧
        Untouched memory m after) ∧
    (Riscv.Compressed.decode half = none → Riscv.Compressed.Reserved half ∨
      Riscv.Compressed.FloatingPoint half ∨ half = Riscv.Compressed.ebreak) := by
  subst hhalf
  have hinsn := fetchInsn_of_half hfetch hop
  have huntouched := untouched_of_fetch hm hfetch
  refine ⟨?_, ?_, ?_, ?_⟩
  · intro instr hdecode place hplaced
    obtain ⟨w, hexpand, hword⟩ := Rvc.expand_of_decode _ hdecode
    rw [hexpand] at hinsn
    exact step_effect hreliable hm hinsn hword hplaced
  · intro hebreak
    have hexpand : Rvc.expand (word.setWidth 16) = some 0x00100073 := by
      rw [hebreak]
      decide
    rw [hexpand] at hinsn
    refine ⟨begun 2 fetched, ?_, ?_⟩
    · rw [step_of_fetched hinsn, Exec.run_bind, execute_ebreak]
    · exact ⟨huntouched.core.begun 2, huntouched.quiet⟩
  · intro hrefused
    have hnone := (Riscv.Compressed.decode_eq_none_iff _ hop).mpr (hrefused.imp_right .inl)
    have hne : word.setWidth 16 ≠ Riscv.Compressed.ebreak := by
      intro hebreak
      rw [hebreak] at hrefused
      rcases hrefused with ⟨hbit, -⟩ | ⟨-, hkind⟩
      · exact absurd hbit (by decide)
      · exact absurd hkind (by decide)
    rw [Rvc.expand_of_none _ hnone hne] at hinsn
    refine ⟨fetched, ?_, huntouched⟩
    rw [step, Exec.run_bind, hinsn]
  · exact (Riscv.Compressed.decode_eq_none_iff _ hop).mp

/-- `c.lw x9, 8(x8)`. -/
def loadsWord : Machine FakeBacking (List LittleEndian.Byte) :=
  overPages (firstPage [0x4404, 0, 0x80001234]) ((Cpu.new 0x80000000).setReg 8 0x80000000)

/-- The word two further on is loaded with its sign. -/
theorem compressed_instructions_effect_loadsWord :
    ∃ after, step.run loadsWord = .ok ⟨⟩ after ∧
      Effected ((Riscv.Instr.load 4 true 9 8 8).run 2 0x80000008
        (loadsWord.hart (flat (firstPage [0x4404, 0, 0x80001234])))) loadsWord after := by
  obtain ⟨fetched, hfetch⟩ : ∃ fetched, (fetch 2).run loadsWord = .ok 0x4404 fetched :=
    Outcome.eq_ok_of_value (by decide +kernel)
  have hcore := ((sameCore_reads .fetch).fetch_keeps 2 loadsWord).of_run_ok hfetch
  refine (compressed_instructions_effect not_fallible_fakeBacking (Sv39.holds_busOver _) hfetch
    rfl (by decide)).1 (.load 4 true 9 8 8) rfl 0x80000008 ?_
  have haddr : (begun 2 fetched).cpu.regs 8 = 0x80000000 := congrFun hcore.regs 8
  have hbare : ¬Mmu.paging (begun 2 fetched).cpu.csrs (begun 2 fetched).cpu.priv :=
    fun hpaging => hpaging.2 hcore.priv
  intro vaddr size stores haccess
  rw [Riscv.Instr.access, haddr] at haccess
  cases haccess
  exact ⟨by decide, by decide, translate_bare hbare _ _⟩

end Machine

end Baonix.Core

import Baonix.Difftest.Words

/-!
# What the instructions of a chunk do

The processor reads back an instruction of the manual from every word of the generator: one
that computes, one that accesses memory through a register, or one that transfers control.
-/

namespace Baonix.Riscv

/-- The instruction leaves a value in a register at most, and goes on to the next one. -/
def Instr.Plain : Instr → Prop
  | .lui .. | .auipc .. | .arithImm .. | .arithImmW .. | .arith .. | .arithW .. | .fence => True
  | _ => False

end Baonix.Riscv

namespace Baonix.Difftest

open Baonix.Core (Insn)
open Riscv (Instr Reg)

/-! ## Reading an instruction -/

/-- The word that is executed where this instruction lies. -/
def Ins.Reads (ins : Ins) (insn : Insn) : Prop :=
  ins.size = 4 ∧ ins.word.setWidth 16 &&& 0x3 = 0x3#16 ∧ insn = ins.word ∨
    ins.size = 2 ∧ ins.word.setWidth 16 &&& 0x3 ≠ 0x3#16 ∧
      Core.Rvc.expand (ins.word.setWidth 16) = some insn

/-- It is executed as this instruction of the manual. -/
def Ins.Means (ins : Ins) (instr : Instr) : Prop :=
  ∃ insn, ins.Reads insn ∧ Riscv.decode insn = some instr

/-- The words of the manual that have 32 bits end in two ones. -/
theorem low_of_opcode {w : BitVec 32} (hop : (Riscv.opcode w).extractLsb' 0 2 = 3) :
    w.setWidth 16 &&& 0x3 = 0x3#16 := by
  have hbit (j : ℕ) (hj : j < 2) : w.getLsbD j = true := by
    have hbits := congrArg (·.getLsbD j) hop
    simp only [Riscv.opcode, BitVec.getLsbD_extractLsb'] at hbits
    interval_cases j
    · simpa using hbits
    · simpa using hbits
  apply BitVec.eq_of_getLsbD_eq
  intro j hj
  rw [BitVec.getLsbD_and, BitVec.getLsbD_setWidth]
  by_cases hlow : j < 2
  · rw [hbit j hlow]
    interval_cases j <;> rfl
  · interval_cases j <;> simp_all

theorem reads_w {w : BitVec 32} (hop : (Riscv.opcode w).extractLsb' 0 2 = 3) :
    (Ins.w w).Reads w :=
  .inl ⟨rfl, low_of_opcode hop, rfl⟩

theorem low_of_decode {w : BitVec 32} {instr : Instr} (hdecode : Riscv.decode w = some instr) :
    (Riscv.opcode w).extractLsb' 0 2 = 3 := by
  have hcode (code : BitVec 7) (hcode : (Riscv.opcode w).toNat = code.toNat)
      (hlow : code.extractLsb' 0 2 = 3) : (Riscv.opcode w).extractLsb' 0 2 = 3 := by
    rw [BitVec.eq_of_toNat_eq hcode, hlow]
  unfold Riscv.decode at hdecode
  split at hdecode
  · next h => exact hcode 0x37 h rfl
  · next h => exact hcode 0x17 h rfl
  · next h => exact hcode 0x6F h rfl
  · next h => exact hcode 0x67 h rfl
  · next h => exact hcode 0x63 h rfl
  · next h => exact hcode 0x03 h rfl
  · next h => exact hcode 0x23 h rfl
  · next h => exact hcode 0x13 h rfl
  · next h => exact hcode 0x1B h rfl
  · next h => exact hcode 0x33 h rfl
  · next h => exact hcode 0x3B h rfl
  · next h => exact hcode 0x0F h rfl
  · next h => exact hcode 0x2F h rfl
  · cases hdecode

theorem means_w {w : BitVec 32} {instr : Instr} (hdecode : Riscv.decode w = some instr) :
    (Ins.w w).Means instr :=
  ⟨w, reads_w (low_of_decode hdecode), hdecode⟩

theorem op_ne_of_decode {half : BitVec 16} {instr : Instr}
    (hdecode : Riscv.Compressed.decode half = some instr) : Riscv.Compressed.op half ≠ 3 := by
  intro hop
  rw [Riscv.Compressed.decode, hop] at hdecode
  cases hdecode

theorem means_c {half : BitVec 16} {instr : Instr}
    (hdecode : Riscv.Compressed.decode half = some instr) : (Ins.c half).Means instr := by
  obtain ⟨insn, hexpand, hword⟩ := Core.Rvc.expand_of_decode half hdecode
  have hhalf : (half.setWidth 32).setWidth 16 = half := by
    rw [BitVec.setWidth_setWidth_of_le _ (by norm_num), BitVec.setWidth_eq]
  refine ⟨insn, .inr ⟨rfl, ?_, ?_⟩, hword⟩
  · rw [Ins.c, hhalf]
    exact Core.Machine.short_of_op (op_ne_of_decode hdecode)
  · rw [Ins.c, hhalf]
    exact hexpand

/-! ## Words of a format -/

section

variable (f3 : BitVec 3) (f7 : BitVec 7) (rd rs1 rs2 : Reg) (imm : BitVec 32)

theorem means_op {op : Riscv.Op} (hop : Riscv.decodeOp (Riscv.rFormat f7 rs2 rs1 f3 rd 0x33#7) =
      some op) :
    (Ins.w (rType 0x33 (f3.setWidth 32) (f7.setWidth 32) rd.toNat rs1.toNat rs2.toNat)).Means
      (.arith op rd rs1 rs2) := by
  apply means_w
  refine (congrArg Riscv.decode (rType_eq 0x33 f7 f3 rd rs1 rs2)).trans ?_
  simp [Riscv.decode, hop]

theorem means_op32 {op : Riscv.Op}
    (hop : Riscv.decodeOpW (Riscv.rFormat f7 rs2 rs1 f3 rd 0x3B#7) = some op) :
    (Ins.w (rType 0x3B (f3.setWidth 32) (f7.setWidth 32) rd.toNat rs1.toNat rs2.toNat)).Means
      (.arithW op rd rs1 rs2) := by
  apply means_w
  refine (congrArg Riscv.decode (rType_eq 0x3B f7 f3 rd rs1 rs2)).trans ?_
  simp [Riscv.decode, hop]

theorem means_opImm {op : Riscv.Op}
    (hop : Riscv.decodeOpImm (Riscv.iFormat (imm.extractLsb' 0 12) rs1 f3 rd 0x13#7) = some op) :
    (Ins.w (iType 0x13 (f3.setWidth 32) rd.toNat rs1.toNat imm)).Means
      (.arithImm op rd rs1 ((imm.extractLsb' 0 12).signExtend 64)) := by
  apply means_w
  refine (congrArg Riscv.decode (iType_eq 0x13 f3 rd rs1 imm)).trans ?_
  simp [Riscv.decode, hop]

theorem means_opImm32 {op : Riscv.Op}
    (hop : Riscv.decodeOpImmW (Riscv.iFormat (imm.extractLsb' 0 12) rs1 f3 rd 0x1B#7) = some op) :
    (Ins.w (iType 0x1B (f3.setWidth 32) rd.toNat rs1.toNat imm)).Means
      (.arithImmW op rd rs1 ((imm.extractLsb' 0 12).signExtend 64)) := by
  apply means_w
  refine (congrArg Riscv.decode (iType_eq 0x1B f3 rd rs1 imm)).trans ?_
  simp [Riscv.decode, hop]

theorem means_lui :
    (Ins.w (uType 0x37 rd.toNat imm)).Means
      (.lui rd ((imm.extractLsb' 0 20 ++ 0#12).signExtend 64)) := by
  apply means_w
  refine (congrArg Riscv.decode (uType_eq 0x37 rd imm)).trans ?_
  simp [Riscv.decode]

theorem means_auipc :
    (Ins.w (uType 0x17 rd.toNat imm)).Means
      (.auipc rd ((imm.extractLsb' 0 20 ++ 0#12).signExtend 64)) := by
  apply means_w
  refine (congrArg Riscv.decode (uType_eq 0x17 rd imm)).trans ?_
  simp [Riscv.decode]

theorem means_load {size : ℕ} {signed : Bool}
    (hload : Riscv.decodeLoad (Riscv.iFormat (imm.extractLsb' 0 12) rs1 f3 rd 0x03#7) =
      some (size, signed)) :
    (Ins.w (iType 0x03 (f3.setWidth 32) rd.toNat rs1.toNat imm)).Means
      (.load size signed rd rs1 ((imm.extractLsb' 0 12).signExtend 64)) := by
  apply means_w
  refine (congrArg Riscv.decode (iType_eq 0x03 f3 rd rs1 imm)).trans ?_
  simp [Riscv.decode, hload]

theorem means_store {size : ℕ}
    (hstore : Riscv.decodeStore (Riscv.sFormat (imm.extractLsb' 0 12) rs2 rs1 f3 0x23#7) =
      some size) :
    (Ins.w (sType 0x23 (f3.setWidth 32) rs1.toNat rs2.toNat imm)).Means
      (.store size rs1 rs2 ((imm.extractLsb' 0 12).signExtend 64)) := by
  apply means_w
  refine (congrArg Riscv.decode (sType_eq 0x23 f3 rs1 rs2 imm)).trans ?_
  simp [Riscv.decode, hstore]

theorem means_amo {op : Riscv.Amo} {size : ℕ}
    (hop : Riscv.decodeAmo (Riscv.rFormat f7 rs2 rs1 f3 rd 0x2F#7) = some op)
    (hsize : Riscv.decodeWidth (Riscv.rFormat f7 rs2 rs1 f3 rd 0x2F#7) = some size) :
    (Ins.w (rType 0x2F (f3.setWidth 32) (f7.setWidth 32) rd.toNat rs1.toNat rs2.toNat)).Means
      (.amo op size rd rs1 rs2) := by
  apply means_w
  refine (congrArg Riscv.decode (rType_eq 0x2F f7 f3 rd rs1 rs2)).trans ?_
  simp [Riscv.decode, hop, hsize]

theorem means_branch {cond : Riscv.Cond}
    (hcond : Riscv.decodeCond (Riscv.bFormat (imm.extractLsb' 1 12) rs2 rs1 f3 0x63#7) =
      some cond) :
    (Ins.w (bType (f3.setWidth 32) rs1.toNat rs2.toNat imm)).Means
      (.branch cond rs1 rs2 ((imm.extractLsb' 1 12 ++ 0#1).signExtend 64)) := by
  apply means_w
  refine (congrArg Riscv.decode (bType_eq f3 rs1 rs2 imm)).trans ?_
  simp [Riscv.decode, hcond]

theorem means_jal :
    (Ins.w (jType rd.toNat imm)).Means
      (.jal rd ((imm.extractLsb' 1 20 ++ 0#1).signExtend 64)) := by
  apply means_w
  refine (congrArg Riscv.decode (jType_eq rd imm)).trans ?_
  simp [Riscv.decode]

theorem means_jalr :
    (Ins.w (iType 0x67 0 rd.toNat rs1.toNat imm)).Means
      (.jalr rd rs1 ((imm.extractLsb' 0 12).signExtend 64)) := by
  apply means_w
  refine (congrArg Riscv.decode (iType_eq 0x67 0 rd rs1 imm)).trans ?_
  simp [Riscv.decode]

end

/-! ## Instructions that compute -/

/-- The instruction only computes. -/
def Ins.Computes (ins : Ins) : Prop :=
  ∃ insn, ins.Reads insn ∧
    ((∃ instr, Riscv.decode insn = some instr ∧ instr.Plain) ∨ Riscv.isMul insn)

theorem Ins.Means.computes {ins : Ins} {instr : Instr} (hmeans : ins.Means instr)
    (hplain : instr.Plain) : ins.Computes := by
  obtain ⟨insn, hreads, hdecode⟩ := hmeans
  exact ⟨insn, hreads, .inl ⟨instr, hdecode, hplain⟩⟩

section

variable (f3 : BitVec 3) (f7 : BitVec 7) (rd a b : Reg) (imm : BitVec 32)

theorem computes_of_op
    (hop : (Riscv.decodeOp (Riscv.rFormat f7 b a f3 rd 0x33#7)).isSome) :
    (Ins.w (rType 0x33 (f3.setWidth 32) (f7.setWidth 32) rd.toNat a.toNat b.toNat)).Computes := by
  obtain ⟨op, hsome⟩ := Option.isSome_iff_exists.mp hop
  exact (means_op f3 f7 rd a b hsome).computes trivial

theorem computes_of_op32
    (hop : (Riscv.decodeOpW (Riscv.rFormat f7 b a f3 rd 0x3B#7)).isSome) :
    (Ins.w (rType 0x3B (f3.setWidth 32) (f7.setWidth 32) rd.toNat a.toNat b.toNat)).Computes := by
  obtain ⟨op, hsome⟩ := Option.isSome_iff_exists.mp hop
  exact (means_op32 f3 f7 rd a b hsome).computes trivial

theorem computes_of_opImm
    (hop : (Riscv.decodeOpImm (Riscv.iFormat (imm.extractLsb' 0 12) a f3 rd 0x13#7)).isSome) :
    (Ins.w (iType 0x13 (f3.setWidth 32) rd.toNat a.toNat imm)).Computes := by
  obtain ⟨op, hsome⟩ := Option.isSome_iff_exists.mp hop
  exact (means_opImm f3 rd a imm hsome).computes trivial

theorem computes_of_opImm32
    (hop : (Riscv.decodeOpImmW (Riscv.iFormat (imm.extractLsb' 0 12) a f3 rd 0x1B#7)).isSome) :
    (Ins.w (iType 0x1B (f3.setWidth 32) rd.toNat a.toNat imm)).Computes := by
  obtain ⟨op, hsome⟩ := Option.isSome_iff_exists.mp hop
  exact (means_opImm32 f3 rd a imm hsome).computes trivial

theorem computes_of_mul (op : BitVec 7) (hop : op.extractLsb' 0 2 = 3)
    (hmul : Riscv.isMul (Riscv.rFormat 0x01 b a f3 rd op)) :
    (Ins.w (rType (op.setWidth 32) (f3.setWidth 32) 0x01 rd.toNat a.toNat b.toNat)).Computes := by
  have hword : rType (op.setWidth 32) (f3.setWidth 32) 0x01 rd.toNat a.toNat b.toNat =
      Riscv.rFormat 0x01 b a f3 rd op := rType_eq op 0x01 f3 rd a b
  rw [hword]
  refine ⟨_, reads_w ?_, .inr hmul⟩
  rw [Riscv.opcode_rFormat, hop]

end

section

variable (rd a b : Reg) {f3 f7 : BitVec 32}

theorem computes_op (hop : (f3, f7) ∈ ops) :
    (Ins.w (rType 0x33 f3 f7 rd.toNat a.toNat b.toNat)).Computes := by
  simp only [ops, List.mem_cons, List.not_mem_nil, or_false, Prod.mk.injEq] at hop
  rcases hop with ⟨rfl, rfl⟩ | ⟨rfl, rfl⟩ | ⟨rfl, rfl⟩ | ⟨rfl, rfl⟩ | ⟨rfl, rfl⟩ | ⟨rfl, rfl⟩ |
    ⟨rfl, rfl⟩ | ⟨rfl, rfl⟩ | ⟨rfl, rfl⟩ | ⟨rfl, rfl⟩
  · exact computes_of_op 0 0x00 rd a b (by simp [Riscv.decodeOp])
  · exact computes_of_op 0 0x20 rd a b (by simp [Riscv.decodeOp])
  · exact computes_of_op 1 0x00 rd a b (by simp [Riscv.decodeOp])
  · exact computes_of_op 2 0x00 rd a b (by simp [Riscv.decodeOp])
  · exact computes_of_op 3 0x00 rd a b (by simp [Riscv.decodeOp])
  · exact computes_of_op 4 0x00 rd a b (by simp [Riscv.decodeOp])
  · exact computes_of_op 5 0x00 rd a b (by simp [Riscv.decodeOp])
  · exact computes_of_op 5 0x20 rd a b (by simp [Riscv.decodeOp])
  · exact computes_of_op 6 0x00 rd a b (by simp [Riscv.decodeOp])
  · exact computes_of_op 7 0x00 rd a b (by simp [Riscv.decodeOp])

theorem computes_op32 (hop : (f3, f7) ∈ ops32) :
    (Ins.w (rType 0x3B f3 f7 rd.toNat a.toNat b.toNat)).Computes := by
  simp only [ops32, List.mem_cons, List.not_mem_nil, or_false, Prod.mk.injEq] at hop
  rcases hop with ⟨rfl, rfl⟩ | ⟨rfl, rfl⟩ | ⟨rfl, rfl⟩ | ⟨rfl, rfl⟩ | ⟨rfl, rfl⟩
  · exact computes_of_op32 0 0x00 rd a b (by simp [Riscv.decodeOpW])
  · exact computes_of_op32 0 0x20 rd a b (by simp [Riscv.decodeOpW])
  · exact computes_of_op32 1 0x00 rd a b (by simp [Riscv.decodeOpW])
  · exact computes_of_op32 5 0x00 rd a b (by simp [Riscv.decodeOpW])
  · exact computes_of_op32 5 0x20 rd a b (by simp [Riscv.decodeOpW])

theorem computes_opImm (hop : f3 ∈ opImms) (imm : BitVec 32) :
    (Ins.w (iType 0x13 f3 rd.toNat a.toNat imm)).Computes := by
  simp only [opImms, List.mem_cons, List.not_mem_nil, or_false] at hop
  rcases hop with rfl | rfl | rfl | rfl | rfl | rfl
  · exact computes_of_opImm 0 rd a imm (by simp [Riscv.decodeOpImm])
  · exact computes_of_opImm 2 rd a imm (by simp [Riscv.decodeOpImm])
  · exact computes_of_opImm 3 rd a imm (by simp [Riscv.decodeOpImm])
  · exact computes_of_opImm 4 rd a imm (by simp [Riscv.decodeOpImm])
  · exact computes_of_opImm 6 rd a imm (by simp [Riscv.decodeOpImm])
  · exact computes_of_opImm 7 rd a imm (by simp [Riscv.decodeOpImm])

theorem computes_addiw (imm : BitVec 32) :
    (Ins.w (iType 0x1B 0 rd.toNat a.toNat imm)).Computes :=
  computes_of_opImm32 0 rd a imm (by simp [Riscv.decodeOpImmW])

theorem computes_mul (hop : f3 ∈ muls64) :
    (Ins.w (rType 0x33 f3 0x01 rd.toNat a.toNat b.toNat)).Computes := by
  have hmul (f : BitVec 3) : Riscv.isMul (Riscv.rFormat 0x01 b a f rd 0x33#7) := by
    simp [Riscv.isMul]
  simp only [muls64, List.mem_cons, List.not_mem_nil, or_false] at hop
  rcases hop with rfl | rfl | rfl | rfl | rfl | rfl | rfl | rfl
  · exact computes_of_mul 0 rd a b 0x33 rfl (hmul 0)
  · exact computes_of_mul 1 rd a b 0x33 rfl (hmul 1)
  · exact computes_of_mul 2 rd a b 0x33 rfl (hmul 2)
  · exact computes_of_mul 3 rd a b 0x33 rfl (hmul 3)
  · exact computes_of_mul 4 rd a b 0x33 rfl (hmul 4)
  · exact computes_of_mul 5 rd a b 0x33 rfl (hmul 5)
  · exact computes_of_mul 6 rd a b 0x33 rfl (hmul 6)
  · exact computes_of_mul 7 rd a b 0x33 rfl (hmul 7)

theorem computes_mul32 (hop : f3 ∈ muls32) :
    (Ins.w (rType 0x3B f3 0x01 rd.toNat a.toNat b.toNat)).Computes := by
  simp only [muls32, List.mem_cons, List.not_mem_nil, or_false] at hop
  rcases hop with rfl | rfl | rfl | rfl | rfl
  · exact computes_of_mul 0 rd a b 0x3B rfl (by simp [Riscv.isMul])
  · exact computes_of_mul 4 rd a b 0x3B rfl (by simp [Riscv.isMul])
  · exact computes_of_mul 5 rd a b 0x3B rfl (by simp [Riscv.isMul])
  · exact computes_of_mul 6 rd a b 0x3B rfl (by simp [Riscv.isMul])
  · exact computes_of_mul 7 rd a b 0x3B rfl (by simp [Riscv.isMul])

/-- An amount below a power of two is that many bits. -/
theorem u32_of_lt {n w : ℕ} (hn : n < 2 ^ w) (hw : w ≤ 32) :
    u32 n = (BitVec.ofNat w n).setWidth 32 := by
  apply BitVec.eq_of_toNat_eq
  rw [BitVec.toNat_setWidth_of_le hw, u32, BitVec.toNat_ofNat, BitVec.toNat_ofNat,
    Nat.mod_eq_of_lt hn, Nat.mod_eq_of_lt (hn.trans_le (Nat.pow_le_pow_right (by norm_num) hw))]

theorem computes_shift {shamt : ℕ} (hshamt : shamt < 64) :
    (Ins.w (iType 0x13 1 rd.toNat a.toNat (u32 shamt))).Computes ∧
      (Ins.w (iType 0x13 5 rd.toNat a.toNat (u32 shamt))).Computes ∧
        (Ins.w (iType 0x13 5 rd.toNat a.toNat (u32 shamt ||| 0x400))).Computes := by
  rw [u32_of_lt (w := 6) hshamt (by norm_num), Core.Rvc.srai_eq]
  refine ⟨computes_of_opImm 1 rd a _ ?_, computes_of_opImm 5 rd a _ ?_,
    computes_of_opImm 5 rd a _ ?_⟩
  · rw [Core.Rvc.decodeOpImm_slli]
    rfl
  · rw [Core.Rvc.decodeOpImm_srli]
    rfl
  · rw [Core.Rvc.decodeOpImm_srai]
    rfl

/-- The shifts of words have amounts of five bits. -/
theorem funct7_amount (x : BitVec 5) :
    ((x.setWidth 32).extractLsb' 0 12).extractLsb' 5 7 = 0x00#7 ∧
      ((x.setWidth 32 ||| 0x400).extractLsb' 0 12).extractLsb' 5 7 = 0x20#7 := by
  revert x
  decide

theorem computes_shiftW {shamt : ℕ} (hshamt : shamt < 32) :
    (Ins.w (iType 0x1B 1 rd.toNat a.toNat (u32 shamt))).Computes ∧
      (Ins.w (iType 0x1B 5 rd.toNat a.toNat (u32 shamt))).Computes ∧
        (Ins.w (iType 0x1B 5 rd.toNat a.toNat (u32 shamt ||| 0x400))).Computes := by
  rw [u32_of_lt (w := 5) hshamt (by norm_num)]
  obtain ⟨hlogical, harithmetic⟩ := funct7_amount (BitVec.ofNat 5 shamt)
  refine ⟨computes_of_opImm32 1 rd a _ ?_, computes_of_opImm32 5 rd a _ ?_,
    computes_of_opImm32 5 rd a _ ?_⟩
  · rw [Riscv.decodeOpImmW, Riscv.funct3_iFormat, Riscv.funct7_iFormat, hlogical]
    rfl
  · rw [Riscv.decodeOpImmW, Riscv.funct3_iFormat, Riscv.funct7_iFormat, hlogical]
    rfl
  · rw [Riscv.decodeOpImmW, Riscv.funct3_iFormat, Riscv.funct7_iFormat, harithmetic]
    rfl

theorem computes_upper (imm : BitVec 32) :
    (Ins.w (uType 0x37 rd.toNat imm)).Computes ∧ (Ins.w (uType 0x17 rd.toNat imm)).Computes :=
  ⟨(means_lui rd imm).computes trivial, (means_auipc rd imm).computes trivial⟩

theorem computes_fence : (Ins.w 0x0FF0000F).Computes :=
  Ins.Means.computes (means_w rfl : Ins.Means _ .fence) trivial

end

end Baonix.Difftest

import Baonix.Lib.Riscv

/-!
# The compressed instructions of RV64C

The fields of a 16-bit instruction and the instruction it abbreviates.  A halfword the
manual reserves abbreviates none, and neither do the floating-point ones, as there is no
floating point; `C.EBREAK` stands apart, since `Instr` has no SYSTEM instructions.
-/

namespace Baonix.Riscv.Compressed

abbrev Half := BitVec 16

/-! ## Fields -/

def op (h : Half) : BitVec 2 := h.extractLsb' 0 2

def funct3 (h : Half) : BitVec 3 := h.extractLsb' 13 3

def rd (h : Half) : Reg := h.extractLsb' 7 5

def rs2 (h : Half) : Reg := h.extractLsb' 2 5

/-- The fields of three bits name `x8` to `x15`. -/
def popular (r : BitVec 3) : Reg := 0b01#2 ++ r

def low (h : Half) : Reg := popular (h.extractLsb' 2 3)

def high (h : Half) : Reg := popular (h.extractLsb' 7 3)

/-- The immediate of the CI format, which is also the amount of a shift. -/
def imm (h : Half) : BitVec 6 := h.extractLsb' 12 1 ++ h.extractLsb' 2 5

/-! The scrambled immediates, each bit where the manual takes it from. -/

def immW (h : Half) : BitVec 7 :=
  h.extractLsb' 5 1 ++ h.extractLsb' 10 3 ++ h.extractLsb' 6 1 ++ 0#2

def immD (h : Half) : BitVec 8 := h.extractLsb' 5 2 ++ h.extractLsb' 10 3 ++ 0#3

def immAddi4spn (h : Half) : BitVec 10 :=
  h.extractLsb' 7 4 ++ h.extractLsb' 11 2 ++ h.extractLsb' 5 1 ++ h.extractLsb' 6 1 ++ 0#2

def immAddi16sp (h : Half) : BitVec 10 :=
  h.extractLsb' 12 1 ++ h.extractLsb' 3 2 ++ h.extractLsb' 5 1 ++ h.extractLsb' 2 1 ++
    h.extractLsb' 6 1 ++ 0#4

def immJump (h : Half) : BitVec 12 :=
  h.extractLsb' 12 1 ++ h.extractLsb' 8 1 ++ h.extractLsb' 9 2 ++ h.extractLsb' 6 1 ++
    h.extractLsb' 7 1 ++ h.extractLsb' 2 1 ++ h.extractLsb' 11 1 ++ h.extractLsb' 3 3 ++ 0#1

def immBranch (h : Half) : BitVec 9 :=
  h.extractLsb' 12 1 ++ h.extractLsb' 5 2 ++ h.extractLsb' 2 1 ++ h.extractLsb' 10 2 ++
    h.extractLsb' 3 2 ++ 0#1

def immLwsp (h : Half) : BitVec 8 :=
  h.extractLsb' 2 2 ++ h.extractLsb' 12 1 ++ h.extractLsb' 4 3 ++ 0#2

def immLdsp (h : Half) : BitVec 9 :=
  h.extractLsb' 2 3 ++ h.extractLsb' 12 1 ++ h.extractLsb' 5 2 ++ 0#3

def immSwsp (h : Half) : BitVec 8 := h.extractLsb' 7 2 ++ h.extractLsb' 9 4 ++ 0#2

def immSdsp (h : Half) : BitVec 9 := h.extractLsb' 7 3 ++ h.extractLsb' 10 3 ++ 0#3

/-! ## Instructions -/

/-- The stack pointer. -/
def sp : Reg := 2

def quadrant0 (h : Half) : Option Instr :=
  match (funct3 h).toNat with
  | 0 =>
      -- C.ADDI4SPN
      if immAddi4spn h = 0 then none
      else some (.arithImm .add (low h) sp ((immAddi4spn h).setWidth 64))
  | 2 => some (.load 4 true (low h) (high h) ((immW h).setWidth 64))
  | 3 => some (.load 8 true (low h) (high h) ((immD h).setWidth 64))
  | 6 => some (.store 4 (high h) (low h) ((immW h).setWidth 64))
  | 7 => some (.store 8 (high h) (low h) ((immD h).setWidth 64))
  | _ => none

/-- C.ADDI16SP and C.LUI. -/
def lui (h : Half) : Option Instr :=
  if rd h = sp then
    if immAddi16sp h = 0 then none
    else some (.arithImm .add sp sp ((immAddi16sp h).signExtend 64))
  else
    if imm h = 0 then none else some (.lui (rd h) ((imm h ++ 0#12).signExtend 64))

/-- C.SUB, C.XOR, C.OR, C.AND, C.SUBW and C.ADDW. -/
def registers (h : Half) : Option Instr :=
  match (h.extractLsb' 12 1).toNat, (h.extractLsb' 5 2).toNat with
  | 0, 0 => some (.arith .sub (high h) (high h) (low h))
  | 0, 1 => some (.arith .xor (high h) (high h) (low h))
  | 0, 2 => some (.arith .or (high h) (high h) (low h))
  | 0, 3 => some (.arith .and (high h) (high h) (low h))
  | 1, 0 => some (.arithW .sub (high h) (high h) (low h))
  | 1, 1 => some (.arithW .add (high h) (high h) (low h))
  | _, _ => none

/-- C.SRLI, C.SRAI, C.ANDI and the operations of two registers.  The immediate of SRAI
has a bit set above the amount. -/
def arithmetic (h : Half) : Option Instr :=
  match (h.extractLsb' 10 2).toNat with
  | 0 => some (.arithImm .srl (high h) (high h) ((imm h).setWidth 64))
  | 1 => some (.arithImm .sra (high h) (high h) ((0b10000#5 ++ imm h).setWidth 64))
  | 2 => some (.arithImm .and (high h) (high h) ((imm h).signExtend 64))
  | _ => registers h

def quadrant1 (h : Half) : Option Instr :=
  match (funct3 h).toNat with
  | 0 => some (.arithImm .add (rd h) (rd h) ((imm h).signExtend 64))
  | 1 => if rd h = 0 then none else some (.arithImmW .add (rd h) (rd h) ((imm h).signExtend 64))
  | 2 => some (.arithImm .add (rd h) 0 ((imm h).signExtend 64))
  | 3 => lui h
  | 4 => arithmetic h
  | 5 => some (.jal 0 ((immJump h).signExtend 64))
  | 6 => some (.branch .eq (high h) 0 ((immBranch h).signExtend 64))
  | _ => some (.branch .ne (high h) 0 ((immBranch h).signExtend 64))

/-- C.JR, C.MV, C.JALR and C.ADD. -/
def jumpOrMove (h : Half) : Option Instr :=
  if h.extractLsb' 12 1 = 0 then
    if rs2 h = 0 then if rd h = 0 then none else some (.jalr 0 (rd h) 0)
    else some (.arith .add (rd h) 0 (rs2 h))
  else if rs2 h = 0 then if rd h = 0 then none else some (.jalr 1 (rd h) 0)
  else some (.arith .add (rd h) (rd h) (rs2 h))

def quadrant2 (h : Half) : Option Instr :=
  match (funct3 h).toNat with
  | 0 => some (.arithImm .sll (rd h) (rd h) ((imm h).setWidth 64))
  | 2 => if rd h = 0 then none else some (.load 4 true (rd h) sp ((immLwsp h).setWidth 64))
  | 3 => if rd h = 0 then none else some (.load 8 true (rd h) sp ((immLdsp h).setWidth 64))
  | 4 => jumpOrMove h
  | 6 => some (.store 4 sp (rs2 h) ((immSwsp h).setWidth 64))
  | 7 => some (.store 8 sp (rs2 h) ((immSdsp h).setWidth 64))
  | _ => none

/-- A halfword is its fields. -/
theorem eq_fields (h : Half) :
    h = funct3 h ++ h.extractLsb' 12 1 ++ rd h ++ rs2 h ++ op h := by
  apply BitVec.eq_of_getLsbD_eq
  intro j hj
  simp only [funct3, rd, rs2, op, BitVec.getLsbD_append, BitVec.getLsbD_extractLsb']
  interval_cases j <;> simp

/-- What a halfword abbreviates; those of the last quadrant begin a longer instruction. -/
def decode (h : Half) : Option Instr :=
  match (op h).toNat with
  | 0 => quadrant0 h
  | 1 => quadrant1 h
  | 2 => quadrant2 h
  | _ => none

def ebreak : Half := 0x9002

/-! ## The halfwords that are left -/

/-- C.FLD, C.FSD, C.FLDSP and C.FSDSP. -/
def FloatingPoint (h : Half) : Prop :=
  (op h).toNat ∈ [0, 2] ∧ (funct3 h).toNat ∈ [1, 5]

/-- The manual reserves the halfword, as it does the one of zeros alone. -/
def Reserved (h : Half) : Prop :=
  match (op h).toNat, (funct3 h).toNat with
  | 0, 0 => immAddi4spn h = 0
  | 0, 4 => True
  | 1, 1 => rd h = 0
  | 1, 3 => rd h = sp ∧ immAddi16sp h = 0 ∨ rd h ≠ sp ∧ imm h = 0
  | 1, 4 => (h.extractLsb' 10 2).toNat = 3 ∧ (h.extractLsb' 12 1).toNat = 1 ∧
      (h.extractLsb' 5 2).toNat ∈ [2, 3]
  | 2, 2 => rd h = 0
  | 2, 3 => rd h = 0
  | 2, 4 => h.extractLsb' 12 1 = 0 ∧ rs2 h = 0 ∧ rd h = 0
  | _, _ => False

theorem registers_eq_none_iff (h : Half) :
    registers h = none ↔ (h.extractLsb' 12 1).toNat = 1 ∧ (h.extractLsb' 5 2).toNat ∈ [2, 3] := by
  have hwide := (h.extractLsb' 12 1).isLt
  have hkind := (h.extractLsb' 5 2).isLt
  unfold registers
  generalize (h.extractLsb' 12 1).toNat = wide at hwide
  generalize (h.extractLsb' 5 2).toNat = kind at hkind
  interval_cases wide <;> interval_cases kind <;> simp

theorem arithmetic_eq_none_iff (h : Half) :
    arithmetic h = none ↔ (h.extractLsb' 10 2).toNat = 3 ∧ (h.extractLsb' 12 1).toNat = 1 ∧
      (h.extractLsb' 5 2).toNat ∈ [2, 3] := by
  have hkind := (h.extractLsb' 10 2).isLt
  unfold arithmetic
  rw [← registers_eq_none_iff]
  generalize (h.extractLsb' 10 2).toNat = kind at hkind
  interval_cases kind <;> simp

theorem lui_eq_none_iff (h : Half) :
    lui h = none ↔ rd h = sp ∧ immAddi16sp h = 0 ∨ rd h ≠ sp ∧ imm h = 0 := by
  unfold lui
  split_ifs <;> simp only [true_iff, false_iff] <;> tauto

theorem jumpOrMove_eq_none_iff (h : Half) :
    jumpOrMove h = none ↔ rs2 h = 0 ∧ rd h = 0 := by
  unfold jumpOrMove
  split_ifs <;> simp only [true_iff, false_iff] <;> tauto

theorem eq_ebreak_iff (h : Half) :
    h = ebreak ↔ (op h).toNat = 2 ∧ (funct3 h).toNat = 4 ∧ h.extractLsb' 12 1 ≠ 0 ∧
      rs2 h = 0 ∧ rd h = 0 := by
  constructor
  · rintro rfl
    decide
  · rintro ⟨hop, hfunct3, hbit, hrs2, hrd⟩
    have hone := (BitVec.eq_zero_or_eq_one (h.extractLsb' 12 1)).resolve_left hbit
    rw [eq_fields h, BitVec.eq_of_toNat_eq (y := 2) hop, BitVec.eq_of_toNat_eq (y := 4) hfunct3,
      hone, hrs2, hrd]
    rfl

/-- Every halfword abbreviates an instruction, but for those reserved or given to floating
point and for C.EBREAK. -/
theorem decode_eq_none_iff (h : Half) (hop : op h ≠ 3) :
    decode h = none ↔ Reserved h ∨ FloatingPoint h ∨ h = ebreak := by
  have hopLt : (op h).toNat < 3 := by
    have hlt := (op h).isLt
    have hne : (op h).toNat ≠ 3 := fun heq => hop (BitVec.eq_of_toNat_eq heq)
    omega
  have hlt := (funct3 h).isLt
  rw [eq_ebreak_iff, decode, quadrant0, quadrant1, quadrant2, Reserved, FloatingPoint]
  generalize (op h).toNat = quadrant at hopLt
  generalize (funct3 h).toNat = kind at hlt
  interval_cases quadrant
  · interval_cases kind <;> simp
  · interval_cases kind <;> simp [lui_eq_none_iff, arithmetic_eq_none_iff]
  · interval_cases kind <;> simp [jumpOrMove_eq_none_iff]
    tauto

end Baonix.Riscv.Compressed

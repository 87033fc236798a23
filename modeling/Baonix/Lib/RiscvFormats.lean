import Baonix.Lib.Riscv

/-!
# Instruction formats of RV64

The six layouts of a word, as the fields the manual lists from the top, and what each
field of such a word reads as.
-/

namespace Baonix.Riscv

open BitVec (extractLsb'_append_eq_left extractLsb'_append_eq_of_le extractLsb'_append_eq_right)

def rFormat (funct7 : BitVec 7) (rs2 rs1 : Reg) (funct3 : BitVec 3) (rd : Reg)
    (op : BitVec 7) : Word :=
  funct7 ++ rs2 ++ rs1 ++ funct3 ++ rd ++ op

def iFormat (imm : BitVec 12) (rs1 : Reg) (funct3 : BitVec 3) (rd : Reg) (op : BitVec 7) :
    Word :=
  imm ++ rs1 ++ funct3 ++ rd ++ op

def sFormat (imm : BitVec 12) (rs2 rs1 : Reg) (funct3 : BitVec 3) (op : BitVec 7) : Word :=
  imm.extractLsb' 5 7 ++ rs2 ++ rs1 ++ funct3 ++ imm.extractLsb' 0 5 ++ op

/-- The offset is given without its lowest bit, which is zero. -/
def bFormat (half : BitVec 12) (rs2 rs1 : Reg) (funct3 : BitVec 3) (op : BitVec 7) : Word :=
  half.extractLsb' 11 1 ++ half.extractLsb' 4 6 ++ rs2 ++ rs1 ++ funct3 ++
    (half.extractLsb' 0 4 ++ half.extractLsb' 10 1) ++ op

def uFormat (imm : BitVec 20) (rd : Reg) (op : BitVec 7) : Word := imm ++ rd ++ op

def jFormat (half : BitVec 20) (rd : Reg) (op : BitVec 7) : Word :=
  half.extractLsb' 19 1 ++ half.extractLsb' 0 10 ++ half.extractLsb' 10 1 ++
    half.extractLsb' 11 8 ++ rd ++ op

/-! ## The fields of a word given by its fields -/

theorem opcode_append (x : BitVec 25) (op : BitVec 7) : opcode (x ++ op) = op :=
  extractLsb'_append_eq_right

theorem rd_append (x : BitVec 20) (r : Reg) (op : BitVec 7) : rd (x ++ r ++ op) = r := by
  rw [rd, extractLsb'_append_eq_of_le (by decide)]
  exact extractLsb'_append_eq_right

theorem funct3_append (x : BitVec 17) (f : BitVec 3) (r : Reg) (op : BitVec 7) :
    funct3 (x ++ f ++ r ++ op) = f := by
  rw [funct3, extractLsb'_append_eq_of_le (by decide), extractLsb'_append_eq_of_le (by decide)]
  exact extractLsb'_append_eq_right

theorem rs1_append (x : BitVec 12) (r : Reg) (f : BitVec 3) (r' : Reg) (op : BitVec 7) :
    rs1 (x ++ r ++ f ++ r' ++ op) = r := by
  rw [rs1, extractLsb'_append_eq_of_le (by decide), extractLsb'_append_eq_of_le (by decide),
    extractLsb'_append_eq_of_le (by decide)]
  exact extractLsb'_append_eq_right

theorem rs2_append (x : BitVec 7) (r r' : Reg) (f : BitVec 3) (r'' : Reg) (op : BitVec 7) :
    rs2 (x ++ r ++ r' ++ f ++ r'' ++ op) = r := by
  rw [rs2, extractLsb'_append_eq_of_le (by decide), extractLsb'_append_eq_of_le (by decide),
    extractLsb'_append_eq_of_le (by decide), extractLsb'_append_eq_of_le (by decide)]
  exact extractLsb'_append_eq_right

theorem funct7_append (f : BitVec 7) (r r' : Reg) (f' : BitVec 3) (r'' : Reg) (op : BitVec 7) :
    funct7 (f ++ r ++ r' ++ f' ++ r'' ++ op) = f := by
  rw [funct7, extractLsb'_append_eq_of_le (by decide), extractLsb'_append_eq_of_le (by decide),
    extractLsb'_append_eq_of_le (by decide), extractLsb'_append_eq_of_le (by decide)]
  exact extractLsb'_append_eq_left

section

variable (f7 : BitVec 7) (a b r : Reg) (f3 : BitVec 3) (op : BitVec 7)

@[simp]
theorem opcode_rFormat : opcode (rFormat f7 b a f3 r op) = op := opcode_append _ _

@[simp]
theorem rd_rFormat : rd (rFormat f7 b a f3 r op) = r := rd_append _ _ _

@[simp]
theorem funct3_rFormat : funct3 (rFormat f7 b a f3 r op) = f3 := funct3_append _ _ _ _

@[simp]
theorem rs1_rFormat : rs1 (rFormat f7 b a f3 r op) = a := rs1_append _ _ _ _ _

@[simp]
theorem rs2_rFormat : rs2 (rFormat f7 b a f3 r op) = b := rs2_append _ _ _ _ _ _

@[simp]
theorem funct7_rFormat : funct7 (rFormat f7 b a f3 r op) = f7 := funct7_append _ _ _ _ _ _

@[simp]
theorem funct5_rFormat : funct5 (rFormat f7 b a f3 r op) = f7.extractLsb' 2 5 := by
  rw [funct5, rFormat, extractLsb'_append_eq_of_le (by decide),
    extractLsb'_append_eq_of_le (by decide), extractLsb'_append_eq_of_le (by decide),
    extractLsb'_append_eq_of_le (by decide), extractLsb'_append_eq_of_le (by decide)]

end

section

variable (imm : BitVec 12) (a b r : Reg) (f3 : BitVec 3) (op : BitVec 7)

@[simp]
theorem opcode_iFormat : opcode (iFormat imm a f3 r op) = op := opcode_append _ _

@[simp]
theorem rd_iFormat : rd (iFormat imm a f3 r op) = r := rd_append _ _ _

@[simp]
theorem funct3_iFormat : funct3 (iFormat imm a f3 r op) = f3 := funct3_append _ _ _ _

@[simp]
theorem rs1_iFormat : rs1 (iFormat imm a f3 r op) = a := rs1_append _ _ _ _ _

theorem extractLsb'_iFormat (start len : ℕ) :
    (iFormat imm a f3 r op).extractLsb' (20 + start) len = imm.extractLsb' start len := by
  rw [iFormat, extractLsb'_append_eq_of_le (by omega), extractLsb'_append_eq_of_le (by omega),
    extractLsb'_append_eq_of_le (by omega), extractLsb'_append_eq_of_le (by omega)]
  congr 1
  omega

@[simp]
theorem immI_iFormat : immI (iFormat imm a f3 r op) = imm.signExtend 64 := by
  rw [immI, extractLsb'_iFormat imm a r f3 op 0 12, BitVec.extractLsb'_eq_self]

/-- The top of the immediate tells the shifts apart. -/
@[simp]
theorem funct6_iFormat : funct6 (iFormat imm a f3 r op) = imm.extractLsb' 6 6 :=
  extractLsb'_iFormat imm a r f3 op 6 6

@[simp]
theorem funct7_iFormat : funct7 (iFormat imm a f3 r op) = imm.extractLsb' 5 7 :=
  extractLsb'_iFormat imm a r f3 op 5 7

@[simp]
theorem opcode_sFormat : opcode (sFormat imm b a f3 op) = op := opcode_append _ _

@[simp]
theorem funct3_sFormat : funct3 (sFormat imm b a f3 op) = f3 := funct3_append _ _ _ _

@[simp]
theorem rs1_sFormat : rs1 (sFormat imm b a f3 op) = a := rs1_append _ _ _ _ _

@[simp]
theorem rs2_sFormat : rs2 (sFormat imm b a f3 op) = b := rs2_append _ _ _ _ _ _

@[simp]
theorem immS_sFormat : immS (sFormat imm b a f3 op) = imm.signExtend 64 := by
  have hlow : (sFormat imm b a f3 op).extractLsb' 7 5 = imm.extractLsb' 0 5 := rd_append _ _ _
  have hhigh : (sFormat imm b a f3 op).extractLsb' 25 7 = imm.extractLsb' 5 7 :=
    funct7_append _ _ _ _ _ _
  have hboth : imm.extractLsb' 5 7 ++ imm.extractLsb' 0 5 = imm :=
    BitVec.extractLsb'_append_extractLsb'
  rw [immS, hlow, hhigh, hboth]

@[simp]
theorem opcode_bFormat : opcode (bFormat imm b a f3 op) = op := opcode_append _ _

@[simp]
theorem funct3_bFormat : funct3 (bFormat imm b a f3 op) = f3 := funct3_append _ _ _ _

@[simp]
theorem rs1_bFormat : rs1 (bFormat imm b a f3 op) = a := rs1_append _ _ _ _ _

@[simp]
theorem rs2_bFormat : rs2 (bFormat imm b a f3 op) = b := rs2_append _ _ _ _ _ _

@[simp]
theorem immB_bFormat : immB (bFormat imm b a f3 op) = (imm ++ 0#1).signExtend 64 := by
  rw [immB]
  apply congrArg (BitVec.signExtend 64)
  apply BitVec.eq_of_getLsbD_eq
  intro j hj
  simp only [bFormat, BitVec.getLsbD_append, BitVec.getLsbD_extractLsb']
  interval_cases j <;> simp

end

section

variable (imm : BitVec 20) (r : Reg) (op : BitVec 7)

@[simp]
theorem opcode_uFormat : opcode (uFormat imm r op) = op := opcode_append _ _

@[simp]
theorem rd_uFormat : rd (uFormat imm r op) = r := rd_append _ _ _

@[simp]
theorem immU_uFormat : immU (uFormat imm r op) = (imm ++ 0#12).signExtend 64 := by
  rw [immU, uFormat, extractLsb'_append_eq_of_le (by decide),
    extractLsb'_append_eq_of_le (by decide), BitVec.extractLsb'_eq_self]

@[simp]
theorem opcode_jFormat : opcode (jFormat imm r op) = op := opcode_append _ _

@[simp]
theorem rd_jFormat : rd (jFormat imm r op) = r := rd_append _ _ _

@[simp]
theorem immJ_jFormat : immJ (jFormat imm r op) = (imm ++ 0#1).signExtend 64 := by
  rw [immJ]
  apply congrArg (BitVec.signExtend 64)
  apply BitVec.eq_of_getLsbD_eq
  intro j hj
  simp only [jFormat, BitVec.getLsbD_append, BitVec.getLsbD_extractLsb']
  interval_cases j <;> simp

end

end Baonix.Riscv

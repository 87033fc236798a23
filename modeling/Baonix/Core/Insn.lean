import Mathlib

/-!
# Instruction fields

The field accessors all decoders share, and the expansion of the compressed
instructions into the 32-bit instructions they abbreviate.
-/

namespace Baonix.Core

abbrev Insn := BitVec 32

namespace Insn

def opcode (i : Insn) : BitVec 32 := i &&& 0x7F

def rd (i : Insn) : BitVec 5 := ((i >>> 7) &&& 0x1F).setWidth 5

def rs1 (i : Insn) : BitVec 5 := ((i >>> 15) &&& 0x1F).setWidth 5

def rs2 (i : Insn) : BitVec 5 := ((i >>> 20) &&& 0x1F).setWidth 5

def funct3 (i : Insn) : BitVec 32 := (i >>> 12) &&& 0x7

def funct7 (i : Insn) : BitVec 32 := (i >>> 25) &&& 0x7F

/-- `v as i64 as u64` of a signed 32-bit value. -/
def extend (v : BitVec 32) : BitVec 64 := v.signExtend 64

def immI (i : Insn) : BitVec 64 := extend (i.sshiftRight 20)

def immU (i : Insn) : BitVec 64 := extend (i &&& 0xFFFFF000)

def immS (i : Insn) : BitVec 64 :=
  let hi := (i &&& 0xFE000000).sshiftRight 20
  let lo := (i >>> 7) &&& 0x1F
  extend (hi ||| lo)

def immB (i : Insn) : BitVec 64 :=
  let imm12 := ((i >>> 31) &&& 1) <<< 12
  let imm10_5 := ((i >>> 25) &&& 0x3F) <<< 5
  let imm4_1 := ((i >>> 8) &&& 0xF) <<< 1
  let imm11 := ((i >>> 7) &&& 1) <<< 11
  extend (((imm12 ||| imm11 ||| imm10_5 ||| imm4_1) <<< 19).sshiftRight 19)

def immJ (i : Insn) : BitVec 64 :=
  let imm20 := ((i >>> 31) &&& 1) <<< 20
  let imm10_1 := ((i >>> 21) &&& 0x3FF) <<< 1
  let imm11 := ((i >>> 20) &&& 1) <<< 11
  let imm19_12 := ((i >>> 12) &&& 0xFF) <<< 12
  extend (((imm20 ||| imm19_12 ||| imm11 ||| imm10_1) <<< 11).sshiftRight 11)

end Insn

namespace Rvc

/-! The encoders of the base formats. -/

def iType (imm rs1 f3 rd opc : BitVec 32) : Insn :=
  (imm &&& 0xFFF) <<< 20 ||| rs1 <<< 15 ||| f3 <<< 12 ||| rd <<< 7 ||| opc

def sType (imm rs2 rs1 f3 opc : BitVec 32) : Insn :=
  (imm >>> 5) <<< 25 ||| rs2 <<< 20 ||| rs1 <<< 15 ||| f3 <<< 12 |||
    (imm &&& 0x1F) <<< 7 ||| opc

def rType (funct7 rs2 rs1 f3 rd opc : BitVec 32) : Insn :=
  funct7 <<< 25 ||| rs2 <<< 20 ||| rs1 <<< 15 ||| f3 <<< 12 ||| rd <<< 7 ||| opc

def bType (imm rs2 rs1 f3 opc : BitVec 32) : Insn :=
  ((imm >>> 12) &&& 1) <<< 31 ||| ((imm >>> 5) &&& 0x3F) <<< 25 ||| rs2 <<< 20 |||
    rs1 <<< 15 ||| f3 <<< 12 ||| ((imm >>> 1) &&& 0xF) <<< 8 |||
    ((imm >>> 11) &&& 1) <<< 7 ||| opc

def jType (imm rd opc : BitVec 32) : Insn :=
  ((imm >>> 20) &&& 1) <<< 31 ||| ((imm >>> 1) &&& 0x3FF) <<< 21 |||
    ((imm >>> 11) &&& 1) <<< 20 ||| ((imm >>> 12) &&& 0xFF) <<< 12 ||| rd <<< 7 ||| opc

/-- `sext6`, `sext9`, `sext10` and `sext12`: sign-extends the low `width` bits. -/
def sext (width : ℕ) (v : BitVec 32) : BitVec 32 := (v <<< (32 - width)).sshiftRight (32 - width)

/-- `(h >> low) & mask`. -/
def field (h : BitVec 32) (low : ℕ) (mask : BitVec 32) : BitVec 32 := (h >>> low) &&& mask

/-- The six-bit immediate of the quadrant-1 arithmetic. -/
def imm6 (h : BitVec 32) : BitVec 32 := field h 12 1 <<< 5 ||| field h 2 0x1F

def offLw (h : BitVec 32) : BitVec 32 :=
  field h 5 1 <<< 6 ||| field h 10 0x7 <<< 3 ||| field h 6 1 <<< 2

def offLd (h : BitVec 32) : BitVec 32 := field h 5 0x3 <<< 6 ||| field h 10 0x7 <<< 3

def offBranch (h : BitVec 32) : BitVec 32 :=
  sext 9 (field h 12 1 <<< 8 ||| field h 10 0x3 <<< 3 ||| field h 5 0x3 <<< 6 |||
    field h 3 0x3 <<< 1 ||| field h 2 1 <<< 5)

def offJump (h : BitVec 32) : BitVec 32 :=
  sext 12 (field h 12 1 <<< 11 ||| field h 11 1 <<< 4 ||| field h 9 0x3 <<< 8 |||
    field h 8 1 <<< 10 ||| field h 7 1 <<< 6 ||| field h 6 1 <<< 7 |||
    field h 3 0x7 <<< 1 ||| field h 2 1 <<< 5)

def rdOf (h : BitVec 32) : BitVec 32 := field h 7 0x1F

def rs2Of (h : BitVec 32) : BitVec 32 := field h 2 0x1F

/-- The three-bit register fields address `x8` to `x15`. -/
def rdp (h : BitVec 32) : BitVec 32 := 8 + field h 2 0x7

def rs1p (h : BitVec 32) : BitVec 32 := 8 + field h 7 0x7

def quadrant0 (h : BitVec 32) : Option Insn :=
  match (field h 13 0x7).toNat with
  | 0 =>
      -- C.ADDI4SPN
      let imm := field h 7 0xF <<< 6 ||| field h 11 0x3 <<< 4 ||| field h 5 0x1 <<< 3 |||
        field h 6 0x1 <<< 2
      if imm = 0 then none else some (iType imm 2 0x0 (rdp h) 0x13)
  | 2 => some (iType (offLw h) (rs1p h) 0x2 (rdp h) 0x03)
  | 3 => some (iType (offLd h) (rs1p h) 0x3 (rdp h) 0x03)
  | 6 => some (sType (offLw h) (rdp h) (rs1p h) 0x2 0x23)
  | 7 => some (sType (offLd h) (rdp h) (rs1p h) 0x3 0x23)
  | _ => none

/-- C.ADDI16SP and C.LUI. -/
def lui (h : BitVec 32) : Option Insn :=
  if rdOf h = 2 then
    let imm := sext 10 (field h 12 1 <<< 9 ||| field h 3 0x3 <<< 7 ||| field h 5 1 <<< 6 |||
      field h 2 1 <<< 5 ||| field h 6 1 <<< 4)
    if imm = 0 then none else some (iType imm 2 0x0 2 0x13)
  else
    let raw6 := imm6 h
    if raw6 = 0 then none
    else some ((sext 6 raw6 &&& 0xFFFFF) <<< 12 ||| rdOf h <<< 7 ||| 0x37)

/-- C.SRLI, C.SRAI, C.ANDI and the register-register group. -/
def misc (h : BitVec 32) : Option Insn :=
  match (field h 10 0x3).toNat with
  | 0 => some (iType (imm6 h) (rs1p h) 0x5 (rs1p h) 0x13)
  | 1 => some (iType (imm6 h ||| 0x400) (rs1p h) 0x5 (rs1p h) 0x13)
  | 2 => some (iType (sext 6 (imm6 h)) (rs1p h) 0x7 (rs1p h) 0x13)
  | _ =>
      match (field h 12 1).toNat, (field h 5 0x3).toNat with
      | 0, 0 => some (rType 0x20 (rdp h) (rs1p h) 0x0 (rs1p h) 0x33)
      | 0, 1 => some (rType 0x00 (rdp h) (rs1p h) 0x4 (rs1p h) 0x33)
      | 0, 2 => some (rType 0x00 (rdp h) (rs1p h) 0x6 (rs1p h) 0x33)
      | 0, _ => some (rType 0x00 (rdp h) (rs1p h) 0x7 (rs1p h) 0x33)
      | _, 0 => some (rType 0x20 (rdp h) (rs1p h) 0x0 (rs1p h) 0x3B)
      | _, 1 => some (rType 0x00 (rdp h) (rs1p h) 0x0 (rs1p h) 0x3B)
      | _, _ => none

def quadrant1 (h : BitVec 32) : Option Insn :=
  match (field h 13 0x7).toNat with
  | 0 => some (iType (sext 6 (imm6 h)) (rdOf h) 0x0 (rdOf h) 0x13)
  | 1 => if rdOf h = 0 then none
         else some (iType (sext 6 (imm6 h)) (rdOf h) 0x0 (rdOf h) 0x1B)
  | 2 => some (iType (sext 6 (imm6 h)) 0 0x0 (rdOf h) 0x13)
  | 3 => lui h
  | 4 => misc h
  | 5 => some (jType (offJump h) 0 0x6F)
  | 6 => some (bType (offBranch h) 0 (rs1p h) 0x0 0x63)
  | _ => some (bType (offBranch h) 0 (rs1p h) 0x1 0x63)

/-- C.MV, C.ADD, C.JR, C.JALR and C.EBREAK. -/
def jumpOrMove (h : BitVec 32) : Option Insn :=
  if field h 12 1 = 0 then
    if rs2Of h = 0 then
      if rdOf h = 0 then none else some (iType 0 (rdOf h) 0x0 0 0x67)
    else some (rs2Of h <<< 20 ||| rdOf h <<< 7 ||| 0x33)
  else if rs2Of h = 0 then
    if rdOf h = 0 then some 0x00100073 else some (iType 0 (rdOf h) 0x0 1 0x67)
  else some (rs2Of h <<< 20 ||| rdOf h <<< 15 ||| rdOf h <<< 7 ||| 0x33)

def quadrant2 (h : BitVec 32) : Option Insn :=
  match (field h 13 0x7).toNat with
  | 0 => some (iType (imm6 h) (rdOf h) 0x1 (rdOf h) 0x13)
  | 2 =>
      -- C.LWSP
      let imm := field h 12 1 <<< 5 ||| field h 4 0x7 <<< 2 ||| field h 2 0x3 <<< 6
      if rdOf h = 0 then none else some (iType imm 2 0x2 (rdOf h) 0x03)
  | 3 =>
      -- C.LDSP
      let imm := field h 12 1 <<< 5 ||| field h 5 0x3 <<< 3 ||| field h 2 0x7 <<< 6
      if rdOf h = 0 then none else some (iType imm 2 0x3 (rdOf h) 0x03)
  | 4 => jumpOrMove h
  | 6 => some (sType (field h 9 0xF <<< 2 ||| field h 7 0x3 <<< 6) (rs2Of h) 2 0x2 0x23)
  | 7 => some (sType (field h 10 0x7 <<< 3 ||| field h 7 0x7 <<< 6) (rs2Of h) 2 0x3 0x23)
  | _ => none

/-- `rvc::expand`, quadrant by quadrant. -/
def expand (half : BitVec 16) : Option Insn :=
  let h := half.setWidth 32
  match (h &&& 0x3).toNat with
  | 0 => quadrant0 h
  | 1 => quadrant1 h
  | 2 => quadrant2 h
  | _ => none

example : [0x0095, 0x0001, 0x0093, 0x8002, 0x9002, 0x60D5, 0x7181].map expand =
    [some 0x00508093, some 0x00000013, none, none, some 0x00100073, some 0x000150B7,
      some 0xFFFE01B7] := by
  decide

end Rvc

end Baonix.Core

import Baonix.Core.Rv64m

/-!
# The multiplications and divisions are those of the integers

The source computes in machine integers whose arithmetic panics on overflow: the
products in 128 bits, the quotients in the width of the operands.  No operands
make it panic, and the results obey the laws of exact products and of division
with remainder.
-/

namespace Baonix.Core.Rv64m

open Insn

/-! ## Arithmetic that panics -/

section Panics

variable {w : ℕ}

/-- The quotient of the two does not fit. -/
def Overflows (a b : BitVec w) : Prop := a = BitVec.intMin w ∧ b = BitVec.ofInt w (-1)

instance (a b : BitVec w) : Decidable (Overflows a b) := inferInstanceAs (Decidable (_ ∧ _))

/-- `x * y` of two `i128`; `none` is a panic. -/
def mulI128 (x y : ℤ) : Option ℤ :=
  if -2 ^ 127 ≤ x * y ∧ x * y < 2 ^ 127 then some (x * y) else none

/-- `x * y` of two `u128`. -/
def mulU128 (x y : ℕ) : Option ℕ := if x * y < 2 ^ 128 then some (x * y) else none

/-- `a / b` of signed integers. -/
def divI (a b : BitVec w) : Option (BitVec w) :=
  if b = 0 ∨ Overflows a b then none else some (BitVec.ofInt w (a.toInt.tdiv b.toInt))

/-- `a % b` of signed integers. -/
def remI (a b : BitVec w) : Option (BitVec w) :=
  if b = 0 ∨ Overflows a b then none else some (BitVec.ofInt w (a.toInt.tmod b.toInt))

/-- `a / b` of unsigned integers. -/
def divU (a b : BitVec w) : Option (BitVec w) := if b = 0 then none else some (a / b)

/-- `a % b` of unsigned integers. -/
def remU (a b : BitVec w) : Option (BitVec w) := if b = 0 then none else some (a % b)

/-- `div_signed` and `div_signed_w`, with the division that may panic. -/
def divSignedChecked (a b : BitVec w) : Option (BitVec w) :=
  if b = 0 then some (BitVec.ofInt w (-1))
  else if a = BitVec.intMin w ∧ b = BitVec.ofInt w (-1) then some (BitVec.intMin w)
  else divI a b

/-- `rem_signed` and `rem_signed_w`, with the remainder that may panic. -/
def remSignedChecked (a b : BitVec w) : Option (BitVec w) :=
  if b = 0 then some a
  else if a = BitVec.intMin w ∧ b = BitVec.ofInt w (-1) then some 0
  else remI a b

theorem divSignedChecked_eq (a b : BitVec w) : divSignedChecked a b = some (divSigned a b) := by
  rw [divSignedChecked, divSigned]
  split
  · rfl
  · split
    · rfl
    · exact if_neg (not_or.mpr ⟨‹_›, ‹_›⟩)

theorem remSignedChecked_eq (a b : BitVec w) : remSignedChecked a b = some (remSigned a b) := by
  rw [remSignedChecked, remSigned]
  split
  · rfl
  · split
    · rfl
    · exact if_neg (not_or.mpr ⟨‹_›, ‹_›⟩)

theorem divUnsignedChecked_eq (a b byZero : BitVec w) :
    (if b = 0 then some byZero else divU a b) = some (if b = 0 then byZero else a / b) := by
  rw [divU]
  split <;> rfl

theorem remUnsignedChecked_eq (a b byZero : BitVec w) :
    (if b = 0 then some byZero else remU a b) = some (if b = 0 then byZero else a % b) := by
  rw [remU]
  split <;> rfl

end Panics

/-- The operations of opcode `0x33`: no value is an illegal instruction, and no
answer a panic. -/
def opChecked (funct3 : BitVec 32) (a b : BitVec 64) : Option (Option (BitVec 64)) :=
  match funct3.toNat with
  | 0 => some (some (a * b))
  | 1 => (mulI128 a.toInt b.toInt).map fun (product : ℤ) =>
      some (BitVec.ofInt 64 (product >>> 64))
  | 2 => (mulI128 a.toInt b.toNat).map fun (product : ℤ) =>
      some (BitVec.ofInt 64 (product >>> 64))
  | 3 => (mulU128 a.toNat b.toNat).map fun product => some (BitVec.ofNat 64 (product >>> 64))
  | 4 => (divSignedChecked a b).map some
  | 5 => (if b = 0 then some (BitVec.allOnes 64) else divU a b).map some
  | 6 => (remSignedChecked a b).map some
  | 7 => (if b = 0 then some a else remU a b).map some
  | _ => some none

/-- The operations of opcode `0x3B`. -/
def op32Checked (funct3 : BitVec 32) (a b : BitVec 32) : Option (Option (BitVec 32)) :=
  match funct3.toNat with
  | 0 => some (some (a * b))
  | 4 => (divSignedChecked a b).map some
  | 5 => (if b = 0 then some (BitVec.ofInt 32 (-1)) else divU a b).map some
  | 6 => (remSignedChecked a b).map some
  | 7 => (if b = 0 then some a else remU a b).map some
  | _ => some none

variable {B S : Type}

/-- The end of an operation: a panic, an illegal instruction, or a write of `rd`. -/
def finish {w : ℕ} (insn : Insn) (widen : BitVec w → BitVec 64) :
    Option (Option (BitVec w)) → MachineM B S Bool
  | none => Exec.panic
  | some none => Exec.raise (.illegalInstruction (insn.setWidth 64))
  | some (some v) => do
      Machine.setReg (rd insn) (widen v)
      pure true

/-- `execute` with the arithmetic that may panic. -/
def executeChecked (insn : Insn) : MachineM B S Bool :=
  if funct7 insn ≠ 0x01 then pure false
  else do
    let cpu := (← Exec.read).cpu
    let a := cpu.reg (rs1 insn)
    let b := cpu.reg (rs2 insn)
    if opcode insn = 0x33 then finish insn id (opChecked (funct3 insn) a b)
    else if opcode insn = 0x3B then
      finish insn extend (op32Checked (funct3 insn) (a.setWidth 32) (b.setWidth 32))
    else pure false

/-! ## No operands panic -/

theorem signed_bounds (a : BitVec 64) : -2 ^ 63 ≤ a.toInt ∧ a.toInt < 2 ^ 63 :=
  ⟨BitVec.le_toInt a, BitVec.toInt_lt⟩

/-- The product of a signed and an unsigned word fits 128 bits. -/
theorem product_lt {x y : ℤ} (hx : |x| ≤ 2 ^ 63) (hy : |y| < 2 ^ 64) : |x * y| < 2 ^ 127 := by
  rw [abs_mul]
  calc |x| * |y| ≤ 2 ^ 63 * |y| := mul_le_mul_of_nonneg_right hx (abs_nonneg y)
    _ < 2 ^ 63 * 2 ^ 64 := mul_lt_mul_of_pos_left hy (by norm_num)
    _ = 2 ^ 127 := by norm_num

theorem abs_toInt_le (a : BitVec 64) : |a.toInt| ≤ 2 ^ 63 :=
  abs_le.mpr ⟨(signed_bounds a).1, (signed_bounds a).2.le⟩

theorem abs_toInt_lt (a : BitVec 64) : |a.toInt| < 2 ^ 64 :=
  (abs_toInt_le a).trans_lt (by norm_num)

theorem abs_toNat_lt (a : BitVec 64) : |(a.toNat : ℤ)| < 2 ^ 64 := by
  rw [abs_of_nonneg (Int.natCast_nonneg _)]
  exact_mod_cast a.isLt

theorem mulI128_eq {x y : ℤ} (hx : |x| ≤ 2 ^ 63) (hy : |y| < 2 ^ 64) :
    mulI128 x y = some (x * y) := by
  have hproduct := abs_lt.mp (product_lt hx hy)
  exact if_pos ⟨hproduct.1.le, hproduct.2⟩

theorem mulU128_eq (a b : BitVec 64) : mulU128 a.toNat b.toNat = some (a.toNat * b.toNat) := by
  apply if_pos
  calc a.toNat * b.toNat < 2 ^ 64 * 2 ^ 64 := Nat.mul_lt_mul'' a.isLt b.isLt
    _ = 2 ^ 128 := by norm_num

theorem opChecked_eq (funct3 : BitVec 32) (a b : BitVec 64) :
    opChecked funct3 a b = some (op funct3 a b) := by
  have hsigned := mulI128_eq (abs_toInt_le a) (abs_toInt_lt b)
  have hmixed := mulI128_eq (abs_toInt_le a) (abs_toNat_lt b)
  rw [opChecked, op]
  generalize funct3.toNat = operation
  match operation with
  | 0 => rfl
  | 1 =>
      rw [hsigned]
      rfl
  | 2 =>
      rw [hmixed]
      rfl
  | 3 =>
      rw [mulU128_eq]
      rfl
  | 4 => exact congrArg (Option.map some) (divSignedChecked_eq a b)
  | 5 => exact congrArg (Option.map some) (divUnsignedChecked_eq a b _)
  | 6 => exact congrArg (Option.map some) (remSignedChecked_eq a b)
  | 7 => exact congrArg (Option.map some) (remUnsignedChecked_eq a b _)
  | _ + 8 => rfl

theorem op32Checked_eq (funct3 : BitVec 32) (a b : BitVec 32) :
    op32Checked funct3 a b = some (op32 funct3 a b) := by
  rw [op32Checked, op32]
  generalize funct3.toNat = operation
  match operation with
  | 0 => rfl
  | 1 => rfl
  | 2 => rfl
  | 3 => rfl
  | 4 => exact congrArg (Option.map some) (divSignedChecked_eq a b)
  | 5 => exact congrArg (Option.map some) (divUnsignedChecked_eq a b _)
  | 6 => exact congrArg (Option.map some) (remSignedChecked_eq a b)
  | 7 => exact congrArg (Option.map some) (remUnsignedChecked_eq a b _)
  | _ + 8 => rfl

/-- **No operands make the arithmetic panic.** -/
theorem executeChecked_eq (insn : Insn) :
    (executeChecked insn : MachineM B S Bool) = execute insn := by
  rw [executeChecked, execute]
  simp only [opChecked_eq, op32Checked_eq]
  split
  · rfl
  · congr 1
    funext m
    split
    · cases op (funct3 insn) (m.cpu.reg (rs1 insn)) (m.cpu.reg (rs2 insn)) <;> rfl
    · split
      · cases op32 (funct3 insn) _ _ <;> rfl
      · rfl

/-! ## The laws -/

section Laws

variable {w : ℕ}

/-- The value is one of a signed integer of the width. -/
def Representable (w : ℕ) (value : ℤ) : Prop := -2 ^ (w - 1) ≤ value ∧ value < 2 ^ (w - 1)

/-- The quotient `q` and the remainder `r` of a signed division. -/
structure SignedDivision (a b q r : BitVec w) : Prop where
  byZero : b = 0 → q = .allOnes w ∧ r = a
  overflow : b ≠ 0 → ¬ Representable w (a.toInt.tdiv b.toInt) → q = a ∧ r = 0
  split : b ≠ 0 → Representable w (a.toInt.tdiv b.toInt) → a.toInt = q.toInt * b.toInt + r.toInt
  small : b ≠ 0 → Representable w (a.toInt.tdiv b.toInt) → |r.toInt| < |b.toInt|
  sign : b ≠ 0 → Representable w (a.toInt.tdiv b.toInt) →
    r.toInt = 0 ∨ r.toInt.sign = a.toInt.sign

/-- The quotient and the remainder of an unsigned division. -/
structure UnsignedDivision (a b q r : BitVec w) : Prop where
  byZero : b = 0 → q = .allOnes w ∧ r = a
  split : b ≠ 0 → a.toNat = q.toNat * b.toNat + r.toNat
  small : b ≠ 0 → r.toNat < b.toNat

/-- The low word of the product, under either signedness. -/
structure LowProduct (a b low : BitVec w) : Prop where
  signed : low = BitVec.ofInt w (a.toInt * b.toInt)
  unsigned : low = BitVec.ofNat w (a.toNat * b.toNat)

theorem lowProduct (a b : BitVec w) : LowProduct a b (a * b) where
  signed := by
    apply BitVec.eq_of_toInt_eq
    rw [BitVec.toInt_mul, BitVec.toInt_ofInt]
  unsigned := by
    apply BitVec.eq_of_toNat_eq
    rw [BitVec.toNat_mul, BitVec.toNat_ofNat]

theorem ofInt_neg_one : BitVec.ofInt w (-1) = .allOnes w := by
  rw [BitVec.ofInt_neg, ← BitVec.neg_one_eq_allOnes]
  rfl

theorem ofInt_tdiv (a b : BitVec w) : BitVec.ofInt w (a.toInt.tdiv b.toInt) = a.sdiv b := by
  apply BitVec.eq_of_toInt_eq
  rw [BitVec.toInt_ofInt, BitVec.toInt_sdiv]

theorem ofInt_tmod (a b : BitVec w) : BitVec.ofInt w (a.toInt.tmod b.toInt) = a.srem b := by
  rw [← BitVec.toInt_srem, BitVec.ofInt_toInt]

theorem toInt_sdiv_of_not_overflows {a b : BitVec w} (hfits : ¬ Overflows a b) :
    (a.sdiv b).toInt = a.toInt.tdiv b.toInt := by
  rw [Overflows, ofInt_neg_one, ← BitVec.neg_one_eq_allOnes] at hfits
  exact BitVec.toInt_sdiv_of_ne_or_ne a b (not_and_or.mp hfits)

/-- Overflow is the one quotient that cannot be represented. -/
theorem representable_iff (hw : 0 < w) (a b : BitVec w) :
    Representable w (a.toInt.tdiv b.toInt) ↔ ¬ Overflows a b := by
  constructor
  · rintro ⟨-, hlt⟩ ⟨rfl, rfl⟩
    rw [ofInt_neg_one, BitVec.toInt_intMin_of_pos hw, BitVec.toInt_allOnes, if_pos hw,
      Int.tdiv_neg, Int.tdiv_one, neg_neg] at hlt
    exact lt_irrefl _ hlt
  · intro hfits
    rw [← toInt_sdiv_of_not_overflows hfits]
    exact ⟨BitVec.le_toInt _, BitVec.toInt_lt⟩

theorem divSigned_eq_sdiv {a b : BitVec w} (hb : b ≠ 0) (hfits : ¬ Overflows a b) :
    divSigned a b = a.sdiv b := by
  rw [divSigned, if_neg hb]
  exact (if_neg hfits).trans (ofInt_tdiv a b)

theorem remSigned_eq_srem {a b : BitVec w} (hb : b ≠ 0) (hfits : ¬ Overflows a b) :
    remSigned a b = a.srem b := by
  rw [remSigned, if_neg hb]
  exact (if_neg hfits).trans (ofInt_tmod a b)

theorem signedDivision (hw : 0 < w) (a b : BitVec w) :
    SignedDivision a b (divSigned a b) (remSigned a b) := by
  have hregular (hb : b ≠ 0) (hfits : Representable w (a.toInt.tdiv b.toInt)) :
      (divSigned a b).toInt = a.toInt.tdiv b.toInt ∧
        (remSigned a b).toInt = a.toInt.tmod b.toInt := by
    have hfits := (representable_iff hw a b).mp hfits
    rw [divSigned_eq_sdiv hb hfits, remSigned_eq_srem hb hfits]
    exact ⟨toInt_sdiv_of_not_overflows hfits, BitVec.toInt_srem a b⟩
  have hnonzero (hb : b ≠ 0) : b.toInt ≠ 0 := by
    rw [Ne, ← BitVec.toInt_zero, BitVec.toInt_inj]
    exact hb
  refine ⟨?_, ?_, ?_, ?_, ?_⟩
  · intro hb
    rw [divSigned, remSigned, if_pos hb, if_pos hb]
    exact ⟨ofInt_neg_one, rfl⟩
  · intro hb hover
    have hover : Overflows a b := not_not.mp fun hfits => hover ((representable_iff hw a b).mpr hfits)
    rw [divSigned, remSigned, if_neg hb, if_neg hb]
    exact ⟨(if_pos hover).trans hover.1.symm, if_pos hover⟩
  · intro hb hfits
    rw [(hregular hb hfits).1, (hregular hb hfits).2]
    exact (Int.tdiv_mul_add_tmod _ _).symm
  · intro hb hfits
    rw [(hregular hb hfits).2, Int.abs_eq_natAbs, Int.abs_eq_natAbs, Int.natAbs_tmod]
    exact_mod_cast Nat.mod_lt _ (Int.natAbs_pos.mpr (hnonzero hb))
  · intro hb hfits
    rw [(hregular hb hfits).2, Int.sign_tmod]
    split
    · exact .inl (Int.tmod_eq_zero_of_dvd ‹_›)
    · exact .inr rfl

theorem unsignedDivision (a b : BitVec w) :
    UnsignedDivision a b (if b = 0 then .allOnes w else a / b) (if b = 0 then a else a % b) := by
  refine ⟨?_, ?_, ?_⟩
  · intro hb
    rw [if_pos hb, if_pos hb]
    exact ⟨rfl, rfl⟩
  · intro hb
    rw [if_neg hb, if_neg hb, BitVec.toNat_udiv, BitVec.toNat_umod]
    exact (Nat.div_add_mod' _ _).symm
  · intro hb
    rw [if_neg hb, BitVec.toNat_umod]
    exact Nat.mod_lt _ (Nat.pos_of_ne_zero fun hzero => hb (BitVec.eq_of_toNat_eq hzero))

end Laws

/-- The high words of the products: of both signed, of the first signed, and of both
unsigned. -/
structure HighProducts (a b high mixed unsigned : BitVec 64) : Prop where
  high : high.toInt = a.toInt * b.toInt / 2 ^ 64
  mixed : mixed.toInt = a.toInt * b.toNat / 2 ^ 64
  unsigned : unsigned.toNat = a.toNat * b.toNat / 2 ^ 64

/-- The high word of a signed product is a signed word. -/
theorem toInt_ofInt_high {x y : ℤ} (hx : |x| ≤ 2 ^ 63) (hy : |y| < 2 ^ 64) :
    (BitVec.ofInt 64 ((x * y) >>> 64)).toInt = x * y / 2 ^ 64 := by
  have hproduct := abs_lt.mp (product_lt hx hy)
  have hshift : (x * y) >>> (64 : ℤ) = x * y / 2 ^ 64 :=
    (Int.shiftRight_natCast_right (x * y) 64).trans (Int.shiftRight_eq_div_pow (x * y) 64)
  rw [hshift, BitVec.toInt_ofInt]
  generalize x * y = product at hproduct ⊢
  apply Int.bmod_eq_of_le
  · norm_num
    omega
  · norm_num
    omega

theorem highProducts (a b : BitVec 64) :
    HighProducts a b (BitVec.ofInt 64 ((a.toInt * b.toInt) >>> 64))
      (BitVec.ofInt 64 ((a.toInt * (b.toNat : ℤ)) >>> 64))
      (BitVec.ofNat 64 ((a.toNat * b.toNat) >>> 64)) where
  high := toInt_ofInt_high (abs_toInt_le a) (abs_toInt_lt b)
  mixed := toInt_ofInt_high (abs_toInt_le a) (abs_toNat_lt b)
  unsigned := by
    have hquotient : a.toNat * b.toNat / 2 ^ 64 < 2 ^ 64 :=
      Nat.div_lt_of_lt_mul (Nat.mul_lt_mul'' a.isLt b.isLt)
    rw [BitVec.toNat_ofNat, Nat.shiftRight_eq_div_pow, Nat.mod_eq_of_lt hquotient]

/-! ## The instructions -/

/-- What the instructions of an opcode write to `rd`. -/
def result (opcode funct3 : BitVec 32) (a b : BitVec 64) : Option (BitVec 64) :=
  if opcode = 0x33 then op funct3 a b
  else (op32 funct3 (a.setWidth 32) (b.setWidth 32)).map extend

/-- The instruction is one of the extension. -/
def handles (insn : Insn) : Prop :=
  funct7 insn = 0x01 ∧ (opcode insn = 0x33 ∨ opcode insn = 0x3B)

instance (insn : Insn) : Decidable (handles insn) := inferInstanceAs (Decidable (_ ∧ _))

/-- How an instruction with a result ends. -/
def written (insn : Insn) (m : Machine B S) :
    Option (BitVec 64) → Outcome Exception (Machine B S) Bool
  | some v => .ok true { m with cpu := m.cpu.setReg (rd insn) v }
  | none => .error (.illegalInstruction (insn.setWidth 64)) m

/-- **An instruction** of the extension writes its result and nothing else. -/
theorem execute_eq (insn : Insn) (m : Machine B S) :
    (execute insn).run m =
      if handles insn then
        written insn m
          (result (opcode insn) (funct3 insn) (m.cpu.reg (rs1 insn)) (m.cpu.reg (rs2 insn)))
      else .ok false m := by
  rw [execute]
  by_cases hfunct7 : funct7 insn = 0x01
  · rw [if_neg (not_not.mpr hfunct7), Exec.run_read_bind]
    by_cases hwide : opcode insn = 0x33
    · have hhandles : handles insn := ⟨hfunct7, .inl hwide⟩
      rw [if_pos hwide, if_pos hhandles, result, if_pos hwide]
      cases op (funct3 insn) (m.cpu.reg (rs1 insn)) (m.cpu.reg (rs2 insn)) with
      | none => rfl
      | some v => rfl
    · rw [if_neg hwide]
      by_cases hhalf : opcode insn = 0x3B
      · have hhandles : handles insn := ⟨hfunct7, .inr hhalf⟩
        rw [if_pos hhalf, if_pos hhandles, result, if_neg hwide]
        cases op32 (funct3 insn) ((m.cpu.reg (rs1 insn)).setWidth 32)
          ((m.cpu.reg (rs2 insn)).setWidth 32) with
        | none => rfl
        | some v => rfl
      · have hother : ¬ handles insn := fun hboth => hboth.2.elim hwide hhalf
        rw [if_neg hhalf, if_neg hother]
        rfl
  · have hother : ¬ handles insn := fun hboth => hfunct7 hboth.1
    rw [if_pos hfunct7, if_neg hother]
    rfl

/-- The laws of the operations on words. -/
structure WordLaws (a b : BitVec 64) : Prop where
  low : ∃ low, result 0x33 0 a b = some low ∧ LowProduct a b low
  high : ∃ high mixed unsigned, result 0x33 1 a b = some high ∧ result 0x33 2 a b = some mixed ∧
    result 0x33 3 a b = some unsigned ∧ HighProducts a b high mixed unsigned
  signed : ∃ q r, result 0x33 4 a b = some q ∧ result 0x33 6 a b = some r ∧ SignedDivision a b q r
  unsigned : ∃ q r, result 0x33 5 a b = some q ∧ result 0x33 7 a b = some r ∧
    UnsignedDivision a b q r

/-- The laws of the operations on the low halves, whose results are sign-extended. -/
structure HalfLaws (a b : BitVec 64) : Prop where
  low : ∃ low : BitVec 32, result 0x3B 0 a b = some (low.signExtend 64) ∧
    LowProduct (a.setWidth 32) (b.setWidth 32) low
  signed : ∃ q r : BitVec 32, result 0x3B 4 a b = some (q.signExtend 64) ∧
    result 0x3B 6 a b = some (r.signExtend 64) ∧
      SignedDivision (a.setWidth 32) (b.setWidth 32) q r
  unsigned : ∃ q r : BitVec 32, result 0x3B 5 a b = some (q.signExtend 64) ∧
    result 0x3B 7 a b = some (r.signExtend 64) ∧
      UnsignedDivision (a.setWidth 32) (b.setWidth 32) q r

theorem wordLaws (a b : BitVec 64) : WordLaws a b where
  low := ⟨_, rfl, lowProduct a b⟩
  high := ⟨_, _, _, rfl, rfl, rfl, highProducts a b⟩
  signed := ⟨_, _, rfl, rfl, signedDivision (by norm_num) a b⟩
  unsigned := ⟨_, _, rfl, rfl, unsignedDivision a b⟩

theorem halfLaws (a b : BitVec 64) : HalfLaws a b where
  low := ⟨_, rfl, lowProduct _ _⟩
  signed := ⟨_, _, rfl, rfl, signedDivision (by norm_num) _ _⟩
  unsigned := by
    refine ⟨_, _, rfl, rfl, ?_⟩
    rw [ofInt_neg_one]
    exact unsignedDivision _ _

/-- **The extension computes in the integers.**  Its arithmetic never panics, an
instruction writes its result to `rd`, and the results obey the laws of products and
divisions for all operands. -/
theorem integer_laws :
    (∀ (B S : Type) (insn : Insn), (executeChecked insn : MachineM B S Bool) = execute insn) ∧
      (∀ (B S : Type) (insn : Insn) (m : Machine B S), (execute insn).run m =
        if handles insn then
          written insn m
            (result (opcode insn) (funct3 insn) (m.cpu.reg (rs1 insn)) (m.cpu.reg (rs2 insn)))
        else .ok false m) ∧
      ∀ a b : BitVec 64, WordLaws a b ∧ HalfLaws a b :=
  ⟨fun _ _ => executeChecked_eq, fun _ _ => execute_eq, fun a b => ⟨wordLaws a b, halfLaws a b⟩⟩

end Baonix.Core.Rv64m

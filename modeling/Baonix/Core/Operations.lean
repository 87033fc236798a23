import Baonix.Core.Fields
import Baonix.Core.Rv64a
import Baonix.Core.Rv64i

/-!
# What the instructions compute

The arms of the decoders compute the operations of the manual: a shift amount is masked to
its low bits, a comparison is signed or unsigned, and an AMO works at the width of its
access.
-/

namespace Baonix.Core

/-! ## Shift amounts -/

theorem setWidth_immI (insn : Insn) {n : ℕ} (hn : n ≤ 12) :
    (Riscv.immI insn).setWidth n = insn.extractLsb' 20 n := by
  apply BitVec.eq_of_getLsbD_eq
  intro j hj
  rw [Riscv.immI, BitVec.getLsbD_setWidth, BitVec.getLsbD_signExtend, BitVec.getLsbD_extractLsb',
    BitVec.getLsbD_extractLsb', decide_eq_true hj, decide_eq_true (by omega : j < 64),
    if_pos (by omega), decide_eq_true (by omega : j < 12)]
  simp only [Bool.true_and]

/-- The shift amount of an immediate. -/
theorem toNat_shamt (insn : Insn) {n : ℕ} (hn : n ≤ 12) :
    ((insn >>> 20) &&& Bits.mask 32 n).toNat = (Riscv.immI insn).toNat % 2 ^ n := by
  have hfield := congrArg BitVec.toNat (setWidth_immI insn hn)
  rw [BitVec.toNat_setWidth, BitVec.extractLsb'_toNat] at hfield
  rw [hfield, Bits.toNat_and_mask _ (by omega), BitVec.toNat_ushiftRight]

/-! ## Registers and immediates -/

namespace Rv64i

theorem ofBool_slt (a b : BitVec 64) : ofBool (a.slt b) = Riscv.Op.slt.eval a b := by
  by_cases hlt : a.toInt < b.toInt <;> simp [ofBool, Riscv.Op.eval, BitVec.slt, hlt]

theorem ofBool_ult (a b : BitVec 64) : ofBool (a.ult b) = Riscv.Op.sltu.eval a b := by
  by_cases hlt : a.toNat < b.toNat <;> simp [ofBool, Riscv.Op.eval, BitVec.ult, hlt]

/-- Bit 30 tells the arithmetic shift from the logical one. -/
theorem funct7_logical (insn : Insn) :
    Insn.funct7 insn &&& 0x20 = 0 ↔ (Riscv.funct6 insn).toNat.testBit 4 = false := by
  have hbit : (Insn.funct7 insn).getLsbD 5 = (Riscv.funct6 insn).toNat.testBit 4 := by
    rw [Insn.funct7_eq, BitVec.getLsbD_setWidth, Riscv.funct7, BitVec.getLsbD_extractLsb',
      BitVec.testBit_toNat, Riscv.funct6, BitVec.getLsbD_extractLsb']
    simp only [Nat.reduceLT, decide_true, Bool.true_and, Nat.reduceAdd]
  rw [← hbit]
  exact Bits.and_one_shiftLeft_eq_zero (n := 5) (by norm_num)

theorem opImm_eq {insn : Insn} {op : Riscv.Op} (hop : Riscv.decodeOpImm insn = some op)
    (a : BitVec 64) : opImm insn a = some (op.eval a (Riscv.immI insn)) := by
  have hshamt : ((insn >>> 20) &&& 0x3F).toNat = (Riscv.immI insn).toNat % 64 :=
    toNat_shamt (n := 6) insn (by norm_num)
  have hlogical := funct7_logical insn
  unfold Riscv.decodeOpImm at hop
  rw [opImm, Insn.toNat_funct3, Insn.immI_eq]
  split at hop <;> cases hop
  · next h => rw [h]; rfl
  · next h _ =>
      rw [h, Riscv.Op.eval, ← hshamt]
      rfl
  · next h => rw [h, ← ofBool_slt]; rfl
  · next h => rw [h, ← ofBool_ult]; rfl
  · next h => rw [h]; rfl
  · next h hfunct6 =>
      rw [h, Riscv.Op.eval, ← hshamt]
      change (if _ then _ else _) = _
      rw [if_pos (hlogical.mpr (by rw [hfunct6]; decide))]
      rfl
  · next h hfunct6 =>
      rw [h, Riscv.Op.eval, ← hshamt]
      change (if _ then _ else _) = _
      rw [if_neg (mt hlogical.mp (by rw [hfunct6]; decide))]
      rfl
  · next h => rw [h]; rfl
  · next h => rw [h]; rfl

theorem opImm32_eq {insn : Insn} {op : Riscv.Op} (hop : Riscv.decodeOpImmW insn = some op)
    (a : BitVec 32) : opImm32 insn a = some (op.eval a ((Riscv.immI insn).setWidth 32)) := by
  have hshamt : ((insn >>> 20) &&& 0x1F).toNat =
      ((Riscv.immI insn).setWidth 32).toNat % 32 := by
    rw [BitVec.toNat_setWidth, Nat.mod_mod_of_dvd _ (by norm_num)]
    exact toNat_shamt (n := 5) insn (by norm_num)
  unfold Riscv.decodeOpImmW at hop
  rw [opImm32, Insn.toNat_funct3, Insn.immI_eq]
  split at hop <;> cases hop
  · next h => rw [h]; rfl
  · next h _ =>
      rw [h, Riscv.Op.eval, ← hshamt]
      rfl
  · next h hfunct7 =>
      have hzero : Insn.funct7 insn = 0x00 :=
        BitVec.eq_of_toNat_eq ((Insn.toNat_funct7 insn).trans hfunct7)
      rw [h, Riscv.Op.eval, ← hshamt, hzero]
      rfl
  · next h hfunct7 =>
      have harithmetic : Insn.funct7 insn = 0x20 :=
        BitVec.eq_of_toNat_eq ((Insn.toNat_funct7 insn).trans hfunct7)
      rw [h, Riscv.Op.eval, ← hshamt, harithmetic]
      rfl

theorem op_eq {insn : Insn} {op : Riscv.Op} (hop : Riscv.decodeOp insn = some op)
    (a b : BitVec 64) : Rv64i.op insn a b = some (op.eval a b) := by
  have hshamt : (b &&& 0x3F).toNat = b.toNat % 64 := Bits.toNat_and_mask (n := 6) b (by norm_num)
  unfold Riscv.decodeOp at hop
  rw [Rv64i.op, Insn.toNat_funct3, Insn.toNat_funct7]
  split at hop <;> cases hop
  · next h hfunct7 => rw [h, hfunct7]; rfl
  · next h hfunct7 => rw [h, hfunct7]; rfl
  · next h hfunct7 =>
      rw [h, hfunct7, Riscv.Op.eval, ← hshamt]
      rfl
  · next h hfunct7 => rw [h, hfunct7, ← ofBool_slt]; rfl
  · next h hfunct7 => rw [h, hfunct7, ← ofBool_ult]; rfl
  · next h hfunct7 => rw [h, hfunct7]; rfl
  · next h hfunct7 =>
      rw [h, hfunct7, Riscv.Op.eval, ← hshamt]
      rfl
  · next h hfunct7 =>
      rw [h, hfunct7, Riscv.Op.eval, ← hshamt]
      rfl
  · next h hfunct7 => rw [h, hfunct7]; rfl
  · next h hfunct7 => rw [h, hfunct7]; rfl

theorem op32_eq {insn : Insn} {op : Riscv.Op} (hop : Riscv.decodeOpW insn = some op)
    (a b : BitVec 32) : op32 insn a b = some (op.eval a b) := by
  have hshamt : (b &&& 0x1F).toNat = b.toNat % 32 := Bits.toNat_and_mask (n := 5) b (by norm_num)
  unfold Riscv.decodeOpW at hop
  rw [op32, Insn.toNat_funct3, Insn.toNat_funct7]
  split at hop <;> cases hop
  · next h hfunct7 => rw [h, hfunct7]; rfl
  · next h hfunct7 => rw [h, hfunct7]; rfl
  · next h hfunct7 =>
      rw [h, hfunct7, Riscv.Op.eval, ← hshamt]
      rfl
  · next h hfunct7 =>
      rw [h, hfunct7, Riscv.Op.eval, ← hshamt]
      rfl
  · next h hfunct7 =>
      rw [h, hfunct7, Riscv.Op.eval, ← hshamt]
      rfl

/-- The operations on registers are not multiplications. -/
theorem funct7_ne_of_op {insn : Insn} {op : Riscv.Op} (hop : Riscv.decodeOp insn = some op) :
    Insn.funct7 insn ≠ 0x01 := by
  intro hone
  rw [Riscv.decodeOp, ← Insn.toNat_funct7, hone] at hop
  split at hop <;> cases hop
  all_goals next h => exact absurd h (by decide)

theorem funct7_ne_of_op32 {insn : Insn} {op : Riscv.Op} (hop : Riscv.decodeOpW insn = some op) :
    Insn.funct7 insn ≠ 0x01 := by
  intro hone
  rw [Riscv.decodeOpW, ← Insn.toNat_funct7, hone] at hop
  split at hop <;> cases hop
  all_goals next h => exact absurd h (by decide)

/-! ## Branches -/

theorem taken_eq {insn : Insn} {cond : Riscv.Cond} (hcond : Riscv.decodeCond insn = some cond)
    (a b : BitVec 64) : taken insn a b = some (cond.holds a b) := by
  unfold Riscv.decodeCond at hcond
  split at hcond <;> cases hcond
  · next h => rw [taken, Insn.toNat_funct3, h]; rfl
  · next h =>
      rw [taken, Insn.toNat_funct3, h]
      exact congrArg some (Bool.eq_iff_iff.mpr (bne_iff_ne.trans decide_eq_true_iff.symm))
  · next h => rw [taken, Insn.toNat_funct3, h]; rfl
  · next h => rw [taken, Insn.toNat_funct3, h]; rfl
  · next h => rw [taken, Insn.toNat_funct3, h]; rfl
  · next h => rw [taken, Insn.toNat_funct3, h]; rfl

/-! ## Loads and stores -/

/-- A value of fewer bytes, put into a register. -/
theorem ofNat_extended {size x : ℕ} (hx : x < 256 ^ size) :
    BitVec.ofNat 64 x = (BitVec.ofNat (8 * size) x).setWidth 64 := by
  have hbound : x < 2 ^ (8 * size) := by
    rw [pow_mul]
    exact hx
  apply BitVec.eq_of_toNat_eq
  rw [BitVec.toNat_setWidth, BitVec.toNat_ofNat, BitVec.toNat_ofNat, Nat.mod_eq_of_lt hbound]

theorem loadOf_eq {insn : Insn} {size : ℕ} {signed : Bool}
    (hload : Riscv.decodeLoad insn = some (size, signed)) :
    ∃ extended, loadOf insn = some (size, extended) ∧ ∀ x < 256 ^ size,
      extended (BitVec.ofNat 64 x) =
        if signed then (BitVec.ofNat (8 * size) x).signExtend 64
        else (BitVec.ofNat (8 * size) x).setWidth 64 := by
  have hlow (x n : ℕ) (hn : n ≤ 64) : (BitVec.ofNat 64 x).setWidth n = BitVec.ofNat n x :=
    BitVec.setWidth_ofNat_of_le hn x
  unfold Riscv.decodeLoad at hload
  split at hload <;> cases hload
  · next h =>
      rw [loadOf, Insn.toNat_funct3, h]
      exact ⟨_, rfl, fun x _ => congrArg (BitVec.signExtend 64) (hlow x 8 (by norm_num))⟩
  · next h =>
      rw [loadOf, Insn.toNat_funct3, h]
      exact ⟨_, rfl, fun x _ => congrArg (BitVec.signExtend 64) (hlow x 16 (by norm_num))⟩
  · next h =>
      rw [loadOf, Insn.toNat_funct3, h]
      exact ⟨_, rfl, fun x _ => congrArg (BitVec.signExtend 64) (hlow x 32 (by norm_num))⟩
  · next h =>
      rw [loadOf, Insn.toNat_funct3, h]
      exact ⟨_, rfl, fun x _ => (BitVec.signExtend_eq _).symm⟩
  · next h =>
      rw [loadOf, Insn.toNat_funct3, h]
      exact ⟨_, rfl, fun x hx => ofNat_extended hx⟩
  · next h =>
      rw [loadOf, Insn.toNat_funct3, h]
      exact ⟨_, rfl, fun x hx => ofNat_extended hx⟩
  · next h =>
      rw [loadOf, Insn.toNat_funct3, h]
      exact ⟨_, rfl, fun x hx => ofNat_extended hx⟩

theorem storeOf_eq {insn : Insn} {size : ℕ} (hstore : Riscv.decodeStore insn = some size) :
    storeOf insn = some size := by
  rw [storeOf, Insn.toNat_funct3]
  exact hstore

end Rv64i

/-! ## Atomics -/

namespace Rv64a

theorem sizeOf_eq {insn : Insn} {size : ℕ} (hsize : Riscv.decodeWidth insn = some size) :
    sizeOf insn = some size := by
  rw [sizeOf, Insn.toNat_funct3]
  exact hsize

theorem toNat_opOf (insn : Insn) : (opOf insn).toNat = (Riscv.funct5 insn).toNat := by
  rw [opOf, BitVec.toNat_ushiftRight, Insn.toNat_funct7, Riscv.funct7, Riscv.funct5,
    BitVec.extractLsb'_toNat, BitVec.extractLsb'_toNat]
  simp only [Nat.shiftRight_eq_div_pow]
  omega

/-- An AMO is neither LR nor SC. -/
theorem opOf_ne {insn : Insn} {op : Riscv.Amo} (hop : Riscv.decodeAmo insn = some op) :
    opOf insn ≠ 0x02 ∧ opOf insn ≠ 0x03 := by
  have hfunct5 := toNat_opOf insn
  unfold Riscv.decodeAmo at hop
  constructor
  · intro hlr
    rw [← hfunct5, hlr] at hop
    cases hop
  · intro hsc
    rw [← hfunct5, hsc] at hop
    cases hop

/-- An access is of 32 or of 64 bits. -/
theorem amo_eq {insn : Insn} {op : Riscv.Amo} (hop : Riscv.decodeAmo insn = some op) {size : ℕ}
    (hsize : size = 4 ∨ size = 8) (old src : BitVec 64) :
    ∃ new, amo (opOf insn) size old src = some new ∧
      new.setWidth (8 * size) = op.eval (old.setWidth (8 * size)) (src.setWidth (8 * size)) := by
  have hwidth : 8 * size ≤ 64 := by omega
  have hsigned (v : BitVec 64) : signedAt size v = (v.setWidth (8 * size)).toInt := by
    rcases hsize with rfl | rfl
    · rfl
    · exact congrArg BitVec.toInt (BitVec.setWidth_eq v).symm
  have hunsigned (v : BitVec 64) : unsignedAt size v = (v.setWidth (8 * size)).toNat := by
    rcases hsize with rfl | rfl
    · rfl
    · exact congrArg BitVec.toNat (BitVec.setWidth_eq v).symm
  unfold Riscv.decodeAmo at hop
  split at hop <;> cases hop
  · next h => rw [amo, toNat_opOf, h]; exact ⟨_, rfl, BitVec.setWidth_add old src hwidth⟩
  · next h => rw [amo, toNat_opOf, h]; exact ⟨_, rfl, rfl⟩
  · next h => rw [amo, toNat_opOf, h]; exact ⟨_, rfl, BitVec.setWidth_xor⟩
  · next h => rw [amo, toNat_opOf, h]; exact ⟨_, rfl, BitVec.setWidth_or⟩
  · next h => rw [amo, toNat_opOf, h]; exact ⟨_, rfl, BitVec.setWidth_and⟩
  all_goals
    next h =>
      rw [amo, toNat_opOf, h]
      refine ⟨_, rfl, ?_⟩
      first | rw [hsigned, hsigned] | rw [hunsigned, hunsigned]
      rw [apply_ite (BitVec.setWidth (8 * size)), Riscv.Amo.eval]

theorem ext_eq {size : ℕ} (hsize : size = 4 ∨ size = 8) (v : BitVec 64) :
    ext size v = (v.setWidth (8 * size)).signExtend 64 := by
  rcases hsize with rfl | rfl
  · rfl
  · rw [ext, if_neg (by norm_num), BitVec.setWidth_eq, BitVec.signExtend_eq]

end Rv64a

end Baonix.Core

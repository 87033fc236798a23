import Mathlib

/-!
# Bit fields of words

Masks of low bits, single bits tested through a mask, and words spliced from the
high bits of one and the low bits of another.
-/

namespace Baonix.Bits

variable {w : ℕ}

/-- The `n` low bits. -/
def mask (w n : ℕ) : BitVec w := BitVec.ofNat w (2 ^ n - 1)

theorem getLsbD_mask (n : ℕ) {j : ℕ} (hj : j < w) : (mask w n).getLsbD j = decide (j < n) := by
  rw [mask, BitVec.getLsbD_ofNat, Nat.testBit_two_pow_sub_one, decide_eq_true hj, Bool.true_and]

/-- A mask takes the remainder. -/
theorem toNat_and_mask (x : BitVec w) {n : ℕ} (hn : n ≤ w) :
    (x &&& mask w n).toNat = x.toNat % 2 ^ n := by
  have hmask : 2 ^ n - 1 < 2 ^ w := by
    have hle : 2 ^ n ≤ 2 ^ w := Nat.pow_le_pow_right (by norm_num) hn
    have hpos : 0 < 2 ^ n := Nat.two_pow_pos n
    omega
  rw [mask, BitVec.toNat_and, BitVec.toNat_ofNat, Nat.mod_eq_of_lt hmask,
    Nat.and_two_pow_sub_one_eq_mod]

/-- Testing one bit through a mask. -/
theorem and_one_shiftLeft_eq_zero {x : BitVec w} {n : ℕ} (hn : n < w) :
    x &&& 1#w <<< n = 0#w ↔ x.getLsbD n = false := by
  rw [← BitVec.twoPow_eq, BitVec.and_twoPow]
  cases x.getLsbD n
  · simp
  · have hne : BitVec.twoPow w n ≠ 0#w := by
      intro hzero
      have hbit := BitVec.getLsbD_twoPow (w := w) n n
      rw [hzero, decide_eq_true hn] at hbit
      simp at hbit
    simp only [if_true, hne, reduceCtorEq]

theorem getLsbD_one_shiftLeft (n : ℕ) {j : ℕ} (hj : j < w) :
    (1#w <<< n).getLsbD j = decide (j = n) := by
  rw [← BitVec.twoPow_eq, BitVec.getLsbD_twoPow]
  by_cases hn : j = n
  · simp [← hn, hj]
  · simp [hn, Ne.symm hn]

/-- One bit moved to another place. -/
theorem getLsbD_moved (x : BitVec w) (source place : ℕ) {j : ℕ} (hj : j < w) :
    ((x >>> source &&& 1#w) <<< place).getLsbD j = (decide (j = place) && x.getLsbD source) := by
  rw [BitVec.getLsbD_shiftLeft, BitVec.getLsbD_and, BitVec.getLsbD_ushiftRight, BitVec.getLsbD_one,
    decide_eq_true hj, Bool.true_and]
  by_cases hplace : j = place
  · simp [hplace, show 0 < w by omega]
  · by_cases hlt : j < place
    · simp [hplace, hlt]
    · simp [hplace, show j - place ≠ 0 by omega]

theorem and_or_eq_zero {x left right : BitVec w} :
    x &&& (left ||| right) = 0#w ↔ x &&& left = 0#w ∧ x &&& right = 0#w := by
  rw [BitVec.and_or_distrib_left, BitVec.or_eq_zero_iff]

theorem and_mask_eq_zero {x : BitVec w} {n : ℕ} :
    x &&& mask w n = 0#w ↔ ∀ j < n, x.getLsbD j = false := by
  constructor
  · intro hzero j hj
    by_cases hw : j < w
    · have hbit := congrArg (·.getLsbD j) hzero
      simpa only [BitVec.getLsbD_and, getLsbD_mask n hw, decide_eq_true hj, Bool.and_true,
        BitVec.getLsbD_zero] using hbit
    · exact BitVec.getLsbD_of_ge x j (not_lt.mp hw)
  · intro hbits
    apply BitVec.eq_of_getLsbD_eq
    intro j hw
    rw [BitVec.getLsbD_and, getLsbD_mask n hw, BitVec.getLsbD_zero]
    by_cases hj : j < n
    · rw [hbits j hj, Bool.false_and]
    · rw [decide_eq_false hj, Bool.and_false]

/-- A field read by shifting and masking. -/
theorem shift_and_mask (x : BitVec w) (start len : ℕ) :
    (x >>> start) &&& mask w len = (x.extractLsb' start len).setWidth w := by
  apply BitVec.eq_of_getLsbD_eq
  intro j hw
  rw [BitVec.getLsbD_and, getLsbD_mask len hw, BitVec.getLsbD_ushiftRight,
    BitVec.getLsbD_setWidth, BitVec.getLsbD_extractLsb', decide_eq_true hw, Bool.true_and,
    Bool.and_comm]

/-! ## Fields under a mask -/

/-- The bits of `y` under the mask and those of `x` elsewhere. -/
theorem getLsbD_masked (m x y : BitVec w) (j : ℕ) :
    (x &&& ~~~m ||| y &&& m).getLsbD j = if m.getLsbD j then y.getLsbD j else x.getLsbD j := by
  rw [BitVec.getLsbD_or, BitVec.getLsbD_and, BitVec.getLsbD_and, BitVec.getLsbD_not]
  by_cases hj : j < w
  · cases m.getLsbD j <;> simp [hj]
  · simp [BitVec.getLsbD_of_ge _ j (not_lt.mp hj)]

theorem masked_self (m x : BitVec w) : x &&& ~~~m ||| x &&& m = x := by
  apply BitVec.eq_of_getLsbD_eq
  intro j _
  rw [getLsbD_masked, ite_self]

theorem and_not_of_and_eq_zero {x m : BitVec w} (hzero : x &&& m = 0#w) : x &&& ~~~m = x := by
  calc x &&& ~~~m = x &&& ~~~m ||| x &&& m := by rw [hzero, BitVec.or_zero]
    _ = x := masked_self m x

/-- The bits outside the mask stay. -/
theorem masked_and {m k : BitVec w} (hdisjoint : m &&& k = 0#w) (x y : BitVec w) :
    (x &&& ~~~m ||| y &&& m) &&& k = x &&& k := by
  apply BitVec.eq_of_getLsbD_eq
  intro j _
  have hbit := congrArg (·.getLsbD j) hdisjoint
  simp only [BitVec.getLsbD_and, BitVec.getLsbD_zero] at hbit
  rw [BitVec.getLsbD_and, BitVec.getLsbD_and, getLsbD_masked]
  cases hm : m.getLsbD j
  · rfl
  · rw [hm, Bool.true_and] at hbit
    rw [hbit, Bool.and_false, Bool.and_false]

/-- The bits under the mask are the new ones. -/
theorem masked_and_self (m x y : BitVec w) : (x &&& ~~~m ||| y &&& m) &&& m = y &&& m := by
  apply BitVec.eq_of_getLsbD_eq
  intro j _
  rw [BitVec.getLsbD_and, BitVec.getLsbD_and, getLsbD_masked]
  cases m.getLsbD j
  · rw [Bool.and_false, Bool.and_false]
  · rfl

/-- A field that was cleared is zero. -/
theorem and_not_and (x m : BitVec w) : x &&& ~~~m &&& m = 0#w := by
  rw [BitVec.and_assoc, BitVec.not_and_self]
  exact BitVec.and_zero

/-- The high bits of `x` above the `n` low bits of `y`. -/
def splice (n : ℕ) (x y : BitVec w) : BitVec w := x &&& ~~~(mask w n) ||| y &&& mask w n

theorem getLsbD_splice (n : ℕ) (x y : BitVec w) {j : ℕ} (hj : j < w) :
    (splice n x y).getLsbD j = if j < n then y.getLsbD j else x.getLsbD j := by
  rw [splice, BitVec.getLsbD_or, BitVec.getLsbD_and, BitVec.getLsbD_and, BitVec.getLsbD_not,
    getLsbD_mask n hj, decide_eq_true hj]
  by_cases hn : j < n
  · simp [hn]
  · simp [hn]

theorem toNat_splice (n : ℕ) (x y : BitVec w) :
    (splice n x y).toNat = 2 ^ n * (x.toNat / 2 ^ n) + y.toNat % 2 ^ n := by
  apply Nat.eq_of_testBit_eq
  intro j
  rw [Nat.testBit_two_pow_mul_add _ (Nat.mod_lt _ (Nat.two_pow_pos n)), Nat.testBit_mod_two_pow,
    Nat.testBit_div_two_pow, BitVec.testBit_toNat, BitVec.testBit_toNat, BitVec.testBit_toNat]
  by_cases hj : j < w
  · rw [getLsbD_splice n x y hj]
    by_cases hn : j < n
    · rw [if_pos hn, if_pos hn, decide_eq_true hn, Bool.true_and]
    · rw [if_neg hn, if_neg hn, Nat.sub_add_cancel (Nat.le_of_not_lt hn)]
  · have habove := Nat.le_of_not_lt hj
    rw [BitVec.getLsbD_of_ge _ _ habove, BitVec.getLsbD_of_ge _ _ habove, Bool.and_false]
    split_ifs with hn
    · rfl
    · rw [Nat.sub_add_cancel (Nat.le_of_not_lt hn), BitVec.getLsbD_of_ge _ _ habove]

/-- Clearing the low bits rounds down. -/
theorem toNat_and_not_mask (n : ℕ) (x : BitVec w) :
    (x &&& ~~~(mask w n)).toNat = 2 ^ n * (x.toNat / 2 ^ n) := by
  have hsplice : x &&& ~~~(mask w n) = splice n x 0#w := by
    rw [splice, BitVec.zero_and, BitVec.or_zero]
  rw [hsplice, toNat_splice, BitVec.toNat_ofNat, Nat.zero_mod, Nat.zero_mod, Nat.add_zero]

theorem splice_zero (x y : BitVec w) : splice 0 x y = x := by
  apply BitVec.eq_of_getLsbD_eq
  intro j hj
  rw [getLsbD_splice 0 x y hj, if_neg (Nat.not_lt_zero j)]

/-- Splicing below a shift is splicing further up. -/
theorem splice_shift (k s : ℕ) (x y : BitVec w) :
    splice k x (y >>> s) <<< s ||| y &&& mask w s = splice (s + k) (x <<< s) y := by
  apply BitVec.eq_of_getLsbD_eq
  intro j hj
  rw [getLsbD_splice _ _ _ hj, BitVec.getLsbD_or, BitVec.getLsbD_and, BitVec.getLsbD_shiftLeft,
    BitVec.getLsbD_shiftLeft, getLsbD_mask s hj]
  by_cases hs : j < s
  · simp [hs, hj, show j < s + k by omega]
  · rw [getLsbD_splice _ _ _ (by omega), BitVec.getLsbD_ushiftRight,
      show s + (j - s) = j by omega]
    by_cases hk : j < s + k
    · simp [hs, hj, hk, show j - s < k by omega]
    · simp [hs, hj, hk, show ¬ j - s < k by omega]

/-- Sign extension keeps the low bits. -/
theorem setWidth_signExtend {n : ℕ} (hw : w ≤ n) (x : BitVec w) :
    (x.signExtend n).setWidth w = x := by
  apply BitVec.eq_of_getLsbD_eq
  intro j hj
  rw [BitVec.getLsbD_setWidth, BitVec.getLsbD_signExtend, if_pos hj, decide_eq_true hj,
    decide_eq_true (hj.trans_le hw), Bool.true_and, Bool.true_and]

end Baonix.Bits

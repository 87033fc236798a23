import Baonix.Lib.Exec

/-!
# Checked arithmetic

Arithmetic on 64-bit integers with overflow checks on: a result that does not
fit is a panic.
-/

namespace Baonix.Exec

variable {Err State : Type}

/-- A result of 64-bit arithmetic. -/
def fits (value : ℕ) : Exec Err State ℕ := if value < 2 ^ 64 then pure value else panic

def addU64 (first second : ℕ) : Exec Err State ℕ := fits (first + second)

/-- `checked_add`. -/
def checkedAdd (first second : ℕ) : Option ℕ :=
  if first + second < 2 ^ 64 then some (first + second) else none

/-- The multiple of `multiple` at or after `value`. -/
def roundUp (value multiple : ℕ) : ℕ :=
  if value % multiple = 0 then value else value + (multiple - value % multiple)

/-- `next_multiple_of`. -/
def nextMultipleOf (value multiple : ℕ) : Exec Err State ℕ := fits (roundUp value multiple)

theorem le_roundUp (value multiple : ℕ) : value ≤ roundUp value multiple := by
  rw [roundUp]
  split
  · exact Nat.le_refl value
  · exact Nat.le_add_right value _

theorem dvd_roundUp (value : ℕ) {multiple : ℕ} (hpos : 0 < multiple) :
    multiple ∣ roundUp value multiple := by
  rw [roundUp]
  split
  · exact Nat.dvd_of_mod_eq_zero ‹_›
  · have hless := Nat.mod_lt value hpos
    apply Nat.dvd_of_mod_eq_zero
    rw [Nat.add_mod, Nat.mod_eq_of_lt (Nat.sub_lt hpos (Nat.pos_of_ne_zero ‹_›)),
      Nat.add_sub_of_le hless.le, Nat.mod_self]

/-- No multiple lies between. -/
theorem roundUp_le {value bound multiple : ℕ} (hle : value ≤ bound) (hdvd : multiple ∣ bound) :
    roundUp value multiple ≤ bound := by
  rw [roundUp]
  split
  · exact hle
  · obtain ⟨quotient, rfl⟩ := hdvd
    have hsplit := Nat.div_add_mod value multiple
    have hquotient : value / multiple < quotient := by
      by_contra hge
      have hmul := Nat.mul_le_mul_left multiple (not_lt.mp hge)
      omega
    have hmul := Nat.mul_le_mul_left multiple (Nat.succ_le_of_lt hquotient)
    rw [Nat.mul_succ] at hmul
    omega

theorem roundUp_add {base multiple : ℕ} (hdvd : multiple ∣ base) (value : ℕ) :
    roundUp (base + value) multiple = base + roundUp value multiple := by
  obtain ⟨quotient, rfl⟩ := hdvd
  rw [roundUp, roundUp, Nat.mul_add_mod]
  split
  · rfl
  · rw [Nat.add_assoc]

/-- The multiple of `multiple` at or before `value`. -/
def roundDown (value multiple : ℕ) : ℕ := value - value % multiple

/-- Rounding up is adjoint to rounding down. -/
theorem roundUp_le_iff {value bound multiple : ℕ} (hpos : 0 < multiple) :
    roundUp value multiple ≤ bound ↔ value ≤ roundDown bound multiple := by
  constructor
  · intro hle
    obtain ⟨quotient, hquotient⟩ := dvd_roundUp value hpos
    rw [hquotient, Nat.mul_comm, ← Nat.le_div_iff_mul_le hpos] at hle
    calc value ≤ roundUp value multiple := le_roundUp value multiple
      _ = quotient * multiple := by rw [hquotient, Nat.mul_comm]
      _ ≤ bound / multiple * multiple := Nat.mul_le_mul_right multiple hle
      _ = roundDown bound multiple := Nat.div_mul_self_eq_mod_sub_self
  · intro hle
    calc roundUp value multiple ≤ roundDown bound multiple := roundUp_le hle (Nat.dvd_sub_mod bound)
      _ ≤ bound := Nat.sub_le bound _

variable {post : ℕ → State → Prop} {fails : Err → State → Prop} {panics : Prop} {state : State}

@[simp]
theorem wp_fits {value : ℕ} :
    wp (fits value) post fails panics state ↔
      (value < 2 ^ 64 → post value state) ∧ (2 ^ 64 ≤ value → panics) := by
  rw [fits, wp_ite]
  by_cases hfits : value < 2 ^ 64
  · rw [if_pos hfits, wp_pure]
    exact ⟨fun hpost => ⟨fun _ => hpost, fun hover => absurd hfits hover.not_gt⟩,
      fun hboth => hboth.1 hfits⟩
  · rw [if_neg hfits, wp_panic]
    exact ⟨fun hpanics => ⟨fun hless => absurd hless hfits, fun _ => hpanics⟩,
      fun hboth => hboth.2 (not_lt.mp hfits)⟩

end Baonix.Exec

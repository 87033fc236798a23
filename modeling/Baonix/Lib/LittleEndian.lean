import Mathlib

/-!
# Little-endian byte strings

`to_le_bytes` and `from_le_bytes` of a machine integer, over natural numbers:
byte `i` of the string carries the digit of weight `256 ^ i`.  Nothing here
depends on the width of the integer; a fixed-width use instantiates the length.
-/

namespace Baonix.LittleEndian

abbrev Byte := BitVec 8

/-- The low `length` bytes of `value`, least significant first. -/
def toBytes : (length : ℕ) → (value : ℕ) → List Byte
  | 0, _ => []
  | length + 1, value => BitVec.ofNat 8 value :: toBytes length (value / 256)

/-- The number a byte string denotes, least significant byte first. -/
def ofBytes : List Byte → ℕ
  | [] => 0
  | byte :: bytes => byte.toNat + 256 * ofBytes bytes

@[simp]
theorem length_toBytes (length value : ℕ) :
    (toBytes length value).length = length := by
  induction length generalizing value with
  | zero => rfl
  | succ length ih => simp [toBytes, ih]

theorem ofBytes_lt (bytes : List Byte) : ofBytes bytes < 256 ^ bytes.length := by
  induction bytes with
  | nil => simp [ofBytes]
  | cons byte bytes ih =>
      have hbyte : byte.toNat < 256 := byte.isLt
      simp only [ofBytes, List.length_cons, pow_succ]
      omega

/-- Decoding inverts encoding for every value the length can hold. -/
theorem ofBytes_toBytes (length value : ℕ) (hvalue : value < 256 ^ length) :
    ofBytes (toBytes length value) = value := by
  induction length generalizing value with
  | zero => simp_all [toBytes, ofBytes]
  | succ length ih =>
      have htail : value / 256 < 256 ^ length := by
        rw [Nat.div_lt_iff_lt_mul (by norm_num)]
        simpa only [pow_succ] using hvalue
      simp only [toBytes, ofBytes, ih _ htail, BitVec.toNat_ofNat]
      omega

/-- Encoding inverts decoding, so a string of the right length is the encoding
of the number it denotes. -/
theorem toBytes_ofBytes (bytes : List Byte) :
    toBytes bytes.length (ofBytes bytes) = bytes := by
  induction bytes with
  | nil => rfl
  | cons byte bytes ih =>
      have hbyte : byte.toNat < 256 := byte.isLt
      have hhead : BitVec.ofNat 8 (byte.toNat + 256 * ofBytes bytes) = byte := by
        apply BitVec.eq_of_toNat_eq
        rw [BitVec.toNat_ofNat]
        omega
      have htail : (byte.toNat + 256 * ofBytes bytes) / 256 = ofBytes bytes := by
        omega
      simp only [List.length_cons, toBytes, ofBytes, hhead, htail, ih]

/-- A word of `8 * length` bits survives the trip through its bytes. -/
theorem ofNat_ofBytes_toBytes {width : ℕ} (length : ℕ) (word : BitVec width)
    (hwidth : width ≤ 8 * length) :
    BitVec.ofNat width (ofBytes (toBytes length word.toNat)) = word := by
  have hbound : word.toNat < 256 ^ length := by
    calc word.toNat < 2 ^ width := word.isLt
      _ ≤ 2 ^ (8 * length) := Nat.pow_le_pow_right (by norm_num) hwidth
      _ = 256 ^ length := by rw [pow_mul]; norm_num
  rw [ofBytes_toBytes length _ hbound, BitVec.ofNat_toNat, BitVec.setWidth_eq]

/-- A string survives the trip through a word that holds it. -/
theorem toBytes_ofNat_ofBytes {bytes : List Byte} {length width : ℕ}
    (hlength : bytes.length = length) (hwidth : 8 * length ≤ width) :
    toBytes length (BitVec.ofNat width (ofBytes bytes)).toNat = bytes := by
  have hbound : ofBytes bytes < 2 ^ width := by
    calc ofBytes bytes < 256 ^ bytes.length := ofBytes_lt bytes
      _ = 2 ^ (8 * length) := by rw [hlength, pow_mul]; norm_num
      _ ≤ 2 ^ width := Nat.pow_le_pow_right (by norm_num) hwidth
  rw [BitVec.toNat_ofNat, Nat.mod_eq_of_lt hbound, ← hlength]
  exact toBytes_ofBytes bytes

/-- The low bytes alone. -/
theorem take_toBytes {n size : ℕ} (hle : size ≤ n) (value : ℕ) :
    (toBytes n value).take size = toBytes size value := by
  induction size generalizing n value with
  | zero => exact List.take_zero
  | succ size ih =>
      obtain ⟨k, rfl⟩ : ∃ k, n = k + 1 := ⟨n - 1, by omega⟩
      rw [toBytes, toBytes, List.take_succ_cons, ih (by omega)]

/-- Only the low bytes count. -/
theorem toBytes_mod (size value : ℕ) :
    toBytes size (value % 256 ^ size) = toBytes size value := by
  induction size generalizing value with
  | zero => rfl
  | succ size ih =>
      have hhead : BitVec.ofNat 8 (value % 256 ^ (size + 1)) = BitVec.ofNat 8 value := by
        apply BitVec.eq_of_toNat_eq
        rw [BitVec.toNat_ofNat, BitVec.toNat_ofNat, pow_succ']
        exact Nat.mod_mul_right_mod value 256 (256 ^ size)
      have htail : value % 256 ^ (size + 1) / 256 = value / 256 % 256 ^ size := by
        rw [pow_succ']
        exact Nat.mod_mul_right_div_self value 256 (256 ^ size)
      rw [toBytes, toBytes, hhead, htail, ih]

end Baonix.LittleEndian

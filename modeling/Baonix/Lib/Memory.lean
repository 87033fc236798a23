import Baonix.Lib.LittleEndian

/-!
# Flat memory

A memory is a byte for every address.  Reads and writes of stretches of
consecutive addresses, and how they split and overlap.
-/

namespace Baonix

open Baonix.LittleEndian

abbrev Memory := ℕ → Byte

namespace Memory

/-- The `length` bytes from `addr` on. -/
def read (m : Memory) (addr length : ℕ) : List Byte :=
  (List.range length).map fun index => m (addr + index)

/-- The memory after `bytes` were stored from `addr` on. -/
def write (m : Memory) (addr : ℕ) (bytes : List Byte) : Memory := fun place =>
  if addr ≤ place then bytes[place - addr]?.getD (m place) else m place

@[simp]
theorem length_read (m : Memory) (addr length : ℕ) : (m.read addr length).length = length := by
  simp [read]

@[simp]
theorem read_zero (m : Memory) (addr : ℕ) : m.read addr 0 = [] := rfl

theorem read_add (m : Memory) (addr first second : ℕ) :
    m.read addr (first + second) = m.read addr first ++ m.read (addr + first) second := by
  simp only [read, List.range_add, List.map_append, List.map_map, Nat.add_assoc]
  rfl

@[simp]
theorem write_nil (m : Memory) (addr : ℕ) : m.write addr [] = m := by
  funext place
  simp [write]

theorem write_append (m : Memory) (addr : ℕ) (first second : List Byte) :
    m.write addr (first ++ second) = (m.write addr first).write (addr + first.length) second := by
  funext place
  simp only [write]
  by_cases hfirst : addr ≤ place
  · by_cases hsecond : addr + first.length ≤ place
    · rw [if_pos hfirst, if_pos hsecond, if_pos hfirst,
        List.getElem?_append_right (by omega), List.getElem?_eq_none (by omega : first.length ≤ _)]
      rw [Nat.sub_add_eq]
      rfl
    · rw [if_pos hfirst, if_neg hsecond, if_pos hfirst, List.getElem?_append_left (by omega)]
  · rw [if_neg hfirst, if_neg hfirst, if_neg (by omega)]

theorem write_of_outside (m : Memory) {addr place : ℕ} {bytes : List Byte}
    (houtside : place < addr ∨ addr + bytes.length ≤ place) : m.write addr bytes place = m place := by
  rw [write]
  split
  · rw [List.getElem?_eq_none (by omega), Option.getD_none]
  · rfl

/-- What was written is read back, -/
theorem read_write_self (m : Memory) (addr : ℕ) (bytes : List Byte) :
    (m.write addr bytes).read addr bytes.length = bytes := by
  apply List.ext_getElem
  · rw [length_read]
  · intro index hleft hright
    simp only [read, List.getElem_map, List.getElem_range, write, if_pos (Nat.le_add_right ..),
      Nat.add_sub_cancel_left, List.getElem?_eq_getElem hright, Option.getD_some]

/-- and a write elsewhere does not show. -/
theorem read_write_of_apart (m : Memory) {addr other length : ℕ} {bytes : List Byte}
    (hapart : other + length ≤ addr ∨ addr + bytes.length ≤ other) :
    (m.write addr bytes).read other length = m.read other length := by
  rw [read, read]
  apply List.map_congr_left
  intro index hindex
  rw [List.mem_range] at hindex
  exact m.write_of_outside (by omega)

/-- A part of what is read. -/
theorem read_part (m : Memory) {addr offset n : ℕ} {bytes : List Byte}
    (hbytes : m.read addr bytes.length = bytes) (hinside : offset + n ≤ bytes.length) :
    m.read (addr + offset) n = (bytes.drop offset).take n := by
  rw [← hbytes, ← Nat.add_sub_cancel' hinside, read_add, read_add, List.append_assoc,
    List.drop_append_of_le_length (length_read ..).ge, List.drop_of_length_le (length_read ..).le,
    List.nil_append, List.take_append_of_le_length (length_read ..).ge,
    List.take_of_length_le (length_read ..).le]

end Memory

end Baonix

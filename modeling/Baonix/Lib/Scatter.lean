import Baonix.Lib.Memory

/-!
# Bytes stored one by one

Stores of single bytes at places that need not lie side by side.  The last store of a
place decides what it holds, so that stores done again hide those done before.
-/

namespace Baonix.Memory

open Baonix.LittleEndian

/-- The memory after single bytes were stored, in the order of the list. -/
def scatter (m : Memory) (bytes : List (ℕ × Byte)) : Memory :=
  bytes.foldl (fun m byte => m.write byte.1 [byte.2]) m

@[simp]
theorem scatter_nil (m : Memory) : m.scatter [] = m := rfl

@[simp]
theorem scatter_cons (m : Memory) (byte : ℕ × Byte) (bytes : List (ℕ × Byte)) :
    m.scatter (byte :: bytes) = (m.write byte.1 [byte.2]).scatter bytes := rfl

theorem scatter_append (m : Memory) (first second : List (ℕ × Byte)) :
    m.scatter (first ++ second) = (m.scatter first).scatter second :=
  List.foldl_append

theorem write_singleton (m : Memory) (addr : ℕ) (byte : Byte) (place : ℕ) :
    m.write addr [byte] place = if place = addr then byte else m place := by
  by_cases hplace : place = addr
  · rw [if_pos hplace, hplace, write, if_pos le_rfl, Nat.sub_self]
    rfl
  · rw [if_neg hplace]
    exact m.write_of_outside (by rw [List.length_singleton]; omega)

/-- A place no store names is left alone, -/
theorem scatter_of_notMem (m : Memory) {bytes : List (ℕ × Byte)} {place : ℕ}
    (hplace : place ∉ bytes.map Prod.fst) : m.scatter bytes place = m place := by
  induction bytes generalizing m with
  | nil => rfl
  | cons byte bytes ih =>
      rw [List.map_cons, List.mem_cons, not_or] at hplace
      calc m.scatter (byte :: bytes) place
          = m.write byte.1 [byte.2] place := ih _ hplace.2
        _ = m place := by rw [write_singleton, if_neg hplace.1]

/-- and what one that is named held before does not matter. -/
theorem scatter_of_mem (m other : Memory) {bytes : List (ℕ × Byte)} {place : ℕ}
    (hplace : place ∈ bytes.map Prod.fst) :
    m.scatter bytes place = other.scatter bytes place := by
  induction bytes generalizing m other with
  | nil => cases hplace
  | cons byte bytes ih =>
      by_cases hlater : place ∈ bytes.map Prod.fst
      · exact ih _ _ hlater
      · have hfirst : place = byte.1 :=
          (List.mem_cons.mp (List.map_cons ▸ hplace)).resolve_right hlater
        calc m.scatter (byte :: bytes) place
            = m.write byte.1 [byte.2] place := scatter_of_notMem _ hlater
          _ = other.write byte.1 [byte.2] place := by
              rw [write_singleton, write_singleton, if_pos hfirst, if_pos hfirst]
          _ = other.scatter (byte :: bytes) place := (scatter_of_notMem _ hlater).symm

/-- Bytes that lie side by side. -/
theorem scatter_range (m : Memory) (addr : ℕ) (byteAt : ℕ → Byte) (size : ℕ) :
    m.scatter ((List.range size).map fun i => (addr + i, byteAt i)) =
      m.write addr ((List.range size).map byteAt) := by
  induction size with
  | zero => exact (m.write_nil addr).symm
  | succ size ih =>
      rw [List.range_succ, List.map_append, List.map_append, scatter_append, ih, write_append,
        List.length_map, List.length_range]
      rfl

/-- The memory after a change of its own. -/
def patched (patch : ℕ → Option Byte) (m : Memory) : Memory := fun place =>
  (patch place).getD (m place)

/-- A write is a change of its own. -/
theorem write_eq_patched (m : Memory) (addr : ℕ) (bytes : List Byte) :
    m.write addr bytes =
      m.patched fun place => if addr ≤ place then bytes[place - addr]? else none := by
  funext place
  rw [write, patched]
  split
  · rfl
  · rfl

/-- Stores that are all done again leave no trace, whatever else was changed meanwhile. -/
theorem scatter_patched_scatter (m : Memory) (patch : ℕ → Option Byte)
    {tried bytes : List (ℕ × Byte)} (htried : tried.map Prod.fst ⊆ bytes.map Prod.fst) :
    ((m.scatter tried).patched patch).scatter bytes = (m.patched patch).scatter bytes := by
  funext place
  by_cases hplace : place ∈ bytes.map Prod.fst
  · exact scatter_of_mem _ _ hplace
  · have huntried : place ∉ tried.map Prod.fst := fun hmem => hplace (htried hmem)
    rw [scatter_of_notMem _ hplace, scatter_of_notMem _ hplace, patched, patched,
      scatter_of_notMem _ huntried]

theorem zipWith_prefix {First Second Result : Type} (combine : First → Second → Result)
    {first longer : List First} (hlonger : first <+: longer) (second : List Second) :
    List.zipWith combine first second <+: List.zipWith combine longer second := by
  obtain ⟨more, rfl⟩ := hlonger
  induction first generalizing second with
  | nil => exact List.nil_prefix
  | cons head first ih =>
      cases second with
      | nil => exact List.nil_prefix
      | cons other second => exact (List.prefix_cons_inj _).mpr (ih second)

end Baonix.Memory

import Mathlib

/-!
# Windows of a list

A window is a stretch of a list; overwriting one leaves the length and everything
outside it alone.
-/

namespace Baonix.Window

variable {Item : Type*}

/-- The `n` items from `first` on. -/
def window (items : List Item) (first n : ℕ) : List Item := (items.drop first).take n

/-- `items[first..first + bytes.len()].copy_from_slice(bytes)`. -/
def overwrite (items : List Item) (first : ℕ) (new : List Item) : List Item :=
  items.take first ++ new ++ items.drop (first + new.length)

variable {items new : List Item} {first n : ℕ}

theorem getElem?_window (index : ℕ) :
    (window items first n)[index]? = if index < n then items[first + index]? else none := by
  rw [window, List.getElem?_take, List.getElem?_drop]

theorem length_window (hfits : first + n ≤ items.length) : (window items first n).length = n := by
  rw [window, List.length_take, List.length_drop]
  omega

/-- A window as long as asked for is inside. -/
theorem fits_of_length_window (hlength : (window items first n).length = n) (hpos : 0 < n) :
    first + n ≤ items.length := by
  rw [window, List.length_take, List.length_drop] at hlength
  omega

theorem window_append (before middle after : List Item) :
    window (before ++ (middle ++ after)) before.length middle.length = middle := by
  rw [window, List.drop_left, List.take_left]

theorem getElem?_overwrite (hfits : first + new.length ≤ items.length) (index : ℕ) :
    (overwrite items first new)[index]? =
      if first ≤ index ∧ index < first + new.length then new[index - first]? else items[index]? := by
  have htake : (items.take first).length = first := by
    rw [List.length_take]
    omega
  rw [overwrite, List.append_assoc]
  rcases lt_or_ge index first with hbefore | hfrom
  · rw [if_neg (by omega), List.getElem?_append_left (by omega), List.getElem?_take, if_pos hbefore]
  · rw [List.getElem?_append_right (by omega), htake]
    rcases lt_or_ge index (first + new.length) with hinside | hafter
    · rw [if_pos ⟨hfrom, hinside⟩, List.getElem?_append_left (by omega)]
    · rw [if_neg (by omega), List.getElem?_append_right (by omega), List.getElem?_drop]
      congr 1
      omega

theorem length_overwrite (hfits : first + new.length ≤ items.length) :
    (overwrite items first new).length = items.length := by
  rw [overwrite, List.length_append, List.length_append, List.length_take, List.length_drop]
  omega

theorem window_overwrite_self (hfits : first + new.length ≤ items.length) :
    window (overwrite items first new) first new.length = new := by
  apply List.ext_getElem?
  intro index
  rw [getElem?_window, getElem?_overwrite hfits]
  by_cases hindex : index < new.length
  · rw [if_pos hindex, if_pos (by omega), Nat.add_sub_cancel_left]
  · rw [if_neg hindex, List.getElem?_eq_none (by omega)]

/-- A window apart from what is overwritten. -/
theorem window_overwrite_of_apart (hfits : first + new.length ≤ items.length) {other : ℕ}
    (hapart : other + n ≤ first ∨ first + new.length ≤ other) :
    window (overwrite items first new) other n = window items other n := by
  apply List.ext_getElem?
  intro index
  rw [getElem?_window, getElem?_window]
  split
  · rw [getElem?_overwrite hfits, if_neg (by omega)]
  · rfl

/-- A window around what is overwritten. -/
theorem window_overwrite_inside (hfits : first + n ≤ items.length) {offset : ℕ}
    (hinside : offset + new.length ≤ n) :
    window (overwrite items (first + offset) new) first n =
      overwrite (window items first n) offset new := by
  have hlength := length_window hfits
  apply List.ext_getElem?
  intro index
  rw [getElem?_window, getElem?_overwrite (by omega), getElem?_overwrite (by omega), getElem?_window]
  by_cases hindex : index < n
  · rw [if_pos hindex, if_pos hindex]
    by_cases hnew : offset ≤ index ∧ index < offset + new.length
    · rw [if_pos hnew, if_pos (by omega), Nat.add_sub_add_left]
    · rw [if_neg hnew, if_neg (by omega)]
  · rw [if_neg hindex, if_neg hindex, if_neg (by omega)]

theorem overwrite_append (before middle after : List Item) (hlength : middle.length = new.length) :
    overwrite (before ++ (middle ++ after)) before.length new = before ++ (new ++ after) := by
  rw [overwrite, List.take_left, ← hlength, List.drop_append, Nat.add_sub_cancel_left,
    List.drop_left, List.drop_eq_nil_of_le (by omega), List.nil_append, List.append_assoc]

end Baonix.Window

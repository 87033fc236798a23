import Mathlib

/-!
# Feedback shift registers

A register moves down one place at a time, and the feedback word is added to it
when the bit that leaves is set.  Bits are fed in at the low end.  If the feedback
word fills the place that falls vacant, nothing is ever forgotten: registers that
differ stay different, and a change of the input within as many bits as the
register has is seen at the end, whatever is fed in behind it.
-/

namespace Baonix.ShiftRegister

variable {w : ℕ} (poly : BitVec w)

/-- One place down. -/
def shift (reg : BitVec w) : BitVec w :=
  if reg.getLsbD 0 then reg >>> 1 ^^^ poly else reg >>> 1

/-- One bit, added at the low end before the register moves. -/
def feedBit (reg : BitVec w) (bit : Bool) : BitVec w :=
  shift poly (reg ^^^ (BitVec.ofBool bit).setWidth w)

def feed (reg : BitVec w) (bits : List Bool) : BitVec w := bits.foldl (feedBit poly) reg

/-- The word with the given bits, the first one lowest. -/
def word (w : ℕ) : List Bool → BitVec w
  | [] => 0#w
  | bit :: bits => (BitVec.ofBool bit).setWidth w ^^^ word w bits <<< 1

/-! ## Words and their bits -/

theorem getLsbD_bit (bit : Bool) (place : ℕ) :
    ((BitVec.ofBool bit).setWidth w).getLsbD place = (decide (place < w ∧ place = 0) && bit) := by
  rw [BitVec.getLsbD_setWidth, BitVec.getLsbD_ofBool]
  by_cases hplace : place = 0
  · simp [hplace]
  · simp [hplace]

theorem getLsbD_word {bits : List Bool} {place : ℕ} (hplace : place < w) :
    (word w bits).getLsbD place = bits.getD place false := by
  induction bits generalizing place with
  | nil => simp [word]
  | cons bit bits ih =>
      rw [word, BitVec.getLsbD_xor, getLsbD_bit, BitVec.getLsbD_shiftLeft]
      cases place with
      | zero => simp [hplace]
      | succ place =>
          have hlower : place < w := by omega
          simp [hplace, ih hlower]

/-- A word holds as many bits as it has places. -/
theorem word_injective {bits bits' : List Bool} (hlength : bits.length = bits'.length)
    (hfits : bits.length ≤ w) (hword : word w bits = word w bits') : bits = bits' := by
  apply List.ext_getElem hlength
  intro place hleft hright
  have hplace : place < w := by omega
  have hbit := congrArg (·.getLsbD place) hword
  simp only [getLsbD_word hplace] at hbit
  rwa [List.getD_eq_getElem _ _ hleft, List.getD_eq_getElem _ _ hright] at hbit

/-! ## One place down -/

theorem shift_xor (left right : BitVec w) :
    shift poly (left ^^^ right) = shift poly left ^^^ shift poly right := by
  apply BitVec.eq_of_getLsbD_eq
  intro place _
  simp only [shift, BitVec.getLsbD_xor]
  cases left.getLsbD 0 <;> cases right.getLsbD 0
  · simp
  · simp
  · simp [Bool.xor_comm]
  · simp [Bool.xor_comm, Bool.xor_left_comm]

/-- A word with room at the top is moved up and down again. -/
theorem shift_shiftLeft {reg : BitVec w} (hroom : ∀ place, w ≤ place + 1 → reg.getLsbD place = false) :
    shift poly (reg <<< 1) = reg := by
  have hlow : (reg <<< 1).getLsbD 0 = false := by simp
  rw [shift, if_neg (by rw [hlow]; exact Bool.false_ne_true)]
  apply BitVec.eq_of_getLsbD_eq
  intro place hplace
  rw [BitVec.getLsbD_ushiftRight, BitVec.getLsbD_shiftLeft]
  by_cases htop : 1 + place < w
  · simp [htop]
  · rw [hroom place (by omega)]
    simp [htop]

variable {poly} (htop : poly.getLsbD (w - 1) = true)

include htop in
/-- The top bit tells whether the feedback word was added. -/
theorem shift_injective : Function.Injective (shift poly) := by
  intro left right heq
  have hwidth : 0 < w := by
    by_contra hzero
    rw [BitVec.getLsbD_of_ge poly _ (by omega)] at htop
    exact Bool.false_ne_true htop
  have htopOf (reg : BitVec w) : (shift poly reg).getLsbD (w - 1) = reg.getLsbD 0 := by
    have hvacant : (reg >>> 1).getLsbD (w - 1) = false := by
      rw [BitVec.getLsbD_ushiftRight]
      exact BitVec.getLsbD_of_ge reg _ (by omega)
    rw [shift]
    cases hlow : reg.getLsbD 0
    · rw [if_neg Bool.false_ne_true, hvacant]
    · rw [if_pos rfl, BitVec.getLsbD_xor, hvacant, htop]
      rfl
  have hlow : left.getLsbD 0 = right.getLsbD 0 := by rw [← htopOf, heq, htopOf]
  have hrest : left >>> 1 = right >>> 1 := by
    rw [shift, shift, hlow] at heq
    split at heq
    · exact (BitVec.xor_left_inj poly).mp heq
    · exact heq
  apply BitVec.eq_of_getLsbD_eq
  intro place _
  cases place with
  | zero => exact hlow
  | succ place =>
      have hbit := congrArg (·.getLsbD place) hrest
      simpa only [BitVec.getLsbD_ushiftRight, Nat.add_comm 1] using hbit

/-! ## Bits fed in -/

theorem feed_append (reg : BitVec w) (first second : List Bool) :
    feed poly reg (first ++ second) = feed poly (feed poly reg first) second :=
  List.foldl_append

/-- Bits that fit the register may be added all at once. -/
theorem feed_eq_iterate {bits : List Bool} (hfits : bits.length ≤ w) (reg : BitVec w) :
    feed poly reg bits = (shift poly)^[bits.length] (reg ^^^ word w bits) := by
  induction bits generalizing reg with
  | nil => simp [feed, word]
  | cons bit bits ih =>
      rw [List.length_cons] at hfits
      have hroom (place : ℕ) (hplace : w ≤ place + 1) : (word w bits).getLsbD place = false := by
        rcases lt_or_ge place w with hlt | hge
        · rw [getLsbD_word hlt, List.getD_eq_default _ _ (by omega)]
        · exact BitVec.getLsbD_of_ge _ _ hge
      calc feed poly reg (bit :: bits)
          = (shift poly)^[bits.length]
              (shift poly (reg ^^^ (BitVec.ofBool bit).setWidth w) ^^^ word w bits) :=
            ih (by omega) _
        _ = (shift poly)^[bits.length] (shift poly (reg ^^^ word w (bit :: bits))) := by
            rw [word, ← BitVec.xor_assoc, shift_xor poly _ (word w bits <<< 1),
              shift_shiftLeft poly hroom]
        _ = (shift poly)^[(bit :: bits).length] (reg ^^^ word w (bit :: bits)) := by
            rw [List.length_cons, Function.iterate_succ_apply]

include htop in
theorem feed_injective (bits : List Bool) : Function.Injective (feed poly · bits) := by
  induction bits with
  | nil => exact Function.injective_id
  | cons bit bits ih =>
      intro left right heq
      exact (BitVec.xor_left_inj _).mp (shift_injective htop (ih heq))

include htop in
/-- **A short burst shows.**  Inputs that differ, and only within as many bits as the
register has, lead to different registers. -/
theorem feed_ne_of_burst (reg : BitVec w) (before after : List Bool) {middle middle' : List Bool}
    (hlength : middle.length = middle'.length) (hfits : middle.length ≤ w)
    (hchanged : middle ≠ middle') :
    feed poly reg (before ++ middle ++ after) ≠ feed poly reg (before ++ middle' ++ after) := by
  rw [feed_append, feed_append, feed_append, feed_append]
  intro heq
  have hmiddle := feed_injective htop after heq
  generalize feed poly reg before = start at hmiddle
  have hright : feed poly start middle' =
      (shift poly)^[middle.length] (start ^^^ word w middle') := by
    rw [feed_eq_iterate (hlength.ge.trans hfits), hlength]
  rw [feed_eq_iterate hfits, hright] at hmiddle
  have hword := (shift_injective htop).iterate middle.length hmiddle
  exact hchanged (word_injective hlength hfits ((BitVec.xor_right_inj start).mp hword))

include htop in
/-- The same, said of the places that differ. -/
theorem feed_ne_of_within (reg : BitVec w) {bits bits' : List Bool}
    (hlength : bits.length = bits'.length) (hchanged : bits ≠ bits') {first : ℕ}
    (hwithin : ∀ place < bits.length, bits[place]? ≠ bits'[place]? →
      first ≤ place ∧ place < first + w) : feed poly reg bits ≠ feed poly reg bits' := by
  have hsame (place : ℕ) (houtside : ¬ (first ≤ place ∧ place < first + w)) :
      bits[place]? = bits'[place]? := by
    rcases lt_or_ge place bits.length with hlt | hge
    · exact not_not.mp fun hne => houtside (hwithin place hlt hne)
    · rw [List.getElem?_eq_none hge, List.getElem?_eq_none (by omega)]
  have hbefore : bits.take first = bits'.take first := by
    apply List.ext_getElem?
    intro place
    rw [List.getElem?_take, List.getElem?_take]
    split
    · exact hsame place (by omega)
    · rfl
  have hafter : bits.drop (first + w) = bits'.drop (first + w) := by
    apply List.ext_getElem?
    intro place
    rw [List.getElem?_drop, List.getElem?_drop]
    exact hsame _ (by omega)
  have hsplit (all : List Bool) :
      all = all.take first ++ (all.drop first).take w ++ all.drop (first + w) := by
    rw [← List.take_add, List.take_append_drop]
  rw [hsplit bits, hsplit bits', ← hbefore, ← hafter]
  apply feed_ne_of_burst htop reg
  · simp only [List.length_take, List.length_drop, hlength]
  · exact List.length_take_le _ _
  · intro hmiddle
    apply hchanged
    rw [hsplit bits, hsplit bits', hbefore, hmiddle, hafter]

end Baonix.ShiftRegister

import Baonix.Core.CacheSpecs

/-!
# The victim is found in time

Over two sweeps the hand of `select_victim` comes to every frame twice: the first
visit clears the reference bit, the second takes the frame.  So one unpinned
frame anywhere bounds the search, whatever the reference bits and wherever the
hand stands, and the fallback after the sweeps is never reached.
-/

namespace Baonix.Core

namespace PageCache

variable {B : Type}

/-! ## The distance of the hand -/

/-- The turns the hand takes before it stands at `slot`. -/
def handDistance (c : PageCache B) (slot : ℕ) : ℕ :=
  if c.hand ≤ slot then slot - c.hand else slot + c.frames.length - c.hand

theorem next_hand {hand length : ℕ} (hhand : hand < length) :
    (hand + 1) % length = if hand + 1 = length then 0 else hand + 1 := by
  split
  · rename_i hlast
    rw [hlast, Nat.mod_self]
  · exact Nat.mod_eq_of_lt (by omega)

theorem handDistance_lt {c : PageCache B} {slot : ℕ} (hhand : c.hand < c.frames.length)
    (hslot : slot < c.frames.length) : c.handDistance slot < c.frames.length := by
  rw [handDistance]
  split <;> omega

/-- A turn brings the hand nearer to every other frame. -/
theorem handDistance_step {c next : PageCache B} {slot : ℕ} (hhand : c.hand < c.frames.length)
    (hslot : slot < c.frames.length) (hne : c.hand ≠ slot)
    (hlength : next.frames.length = c.frames.length)
    (hnext : next.hand = (c.hand + 1) % c.frames.length) :
    next.handDistance slot + 1 = c.handDistance slot := by
  rw [handDistance, handDistance, hnext, hlength, next_hand hhand]
  split_ifs <;> omega

/-! ## Sweeping -/

/-- Nothing changed but the hand and reference bits, and those were cleared. -/
structure Searched (c next : PageCache B) : Prop where
  rest : next = { c with frames := next.frames, hand := next.hand }
  length : next.frames.length = c.frames.length
  frame : ∀ (slot : ℕ) (before : CacheFrame), c.frames[slot]? = some before →
    next.frames[slot]? = some before ∨
      next.frames[slot]? = some (CacheFrame.unreferenced before)
  hand_lt : next.hand < next.frames.length

theorem Searched.trans {c middle next : PageCache B} (hleft : Searched c middle)
    (hright : Searched middle next) : Searched c next where
  rest := by
    have hrest := hright.rest
    rw [hleft.rest] at hrest
    exact hrest
  length := hright.length.trans hleft.length
  frame := by
    intro slot before hbefore
    rcases hleft.frame slot before hbefore with hkept | hcleared
    · exact hright.frame slot before hkept
    · exact .inr ((hright.frame slot _ hcleared).elim id id)
  hand_lt := hright.hand_lt

/-- A turn that leaves the frame it stands at alone. -/
theorem Searched.moved {c : PageCache B} {hand : ℕ} (hhand : hand < c.frames.length) :
    Searched c { c with hand := hand } :=
  ⟨rfl, rfl, fun _ _ hbefore => .inl hbefore, hhand⟩

/-- A turn that clears the reference bit of the frame it stands at. -/
theorem Searched.cleared {c : PageCache B} {hand slot : ℕ} {found : CacheFrame}
    (hhand : hand < c.frames.length) (hfound : c.frames[slot]? = some found) :
    Searched c { c with
      frames := c.frames.set slot (CacheFrame.unreferenced found)
      hand := hand } where
  rest := rfl
  length := List.length_set
  frame := by
    intro other before hbefore
    by_cases hother : slot = other
    · subst hother
      rw [hfound, Option.some.injEq] at hbefore
      subst hbefore
      exact .inr (List.getElem?_set_self (List.getElem?_eq_some_iff.mp hfound).1)
    · left
      rw [← hbefore]
      exact List.getElem?_set_ne hother
  hand_lt := hhand.trans_eq List.length_set.symm

/-- What a sweep stops at: an unpinned frame whose reference bit is clear. -/
def Victim (c : PageCache B) (slot : ℕ) : Prop :=
  ∃ frame : CacheFrame, c.frames[slot]? = some frame ∧ frame.pinned = false ∧
    frame.referenced = false

/-- The turns a sweep may take before it must have stopped, given that the frame
at `slot` is not pinned: one round more if its reference bit is set. -/
def patience (c : PageCache B) (slot : ℕ) (frame : CacheFrame) : ℕ :=
  c.handDistance slot + if frame.referenced then c.frames.length else 0

theorem patience_lt {c : PageCache B} {slot : ℕ} (frame : CacheFrame)
    (hhand : c.hand < c.frames.length) (hslot : slot < c.frames.length) :
    c.patience slot frame < 2 * c.frames.length := by
  have hdistance := handDistance_lt hhand hslot
  rw [patience]
  split <;> omega

/-- A turn at another frame. -/
theorem patience_step {c next : PageCache B} {slot : ℕ} (frame : CacheFrame)
    (hhand : c.hand < c.frames.length) (hslot : slot < c.frames.length) (hne : c.hand ≠ slot)
    (hsearched : Searched c next) (hnext : next.hand = (c.hand + 1) % c.frames.length) :
    next.patience slot frame + 1 = c.patience slot frame := by
  have hnearer := handDistance_step hhand hslot hne hsearched.length hnext
  rw [patience, patience, hsearched.length]
  omega

/-- The turn that clears the bit of the frame itself: its next visit is one round
away. -/
theorem patience_cleared {c next : PageCache B} {frame : CacheFrame}
    (hhand : c.hand < c.frames.length) (hreferenced : frame.referenced = true)
    (hsearched : Searched c next) :
    next.patience c.hand (CacheFrame.unreferenced frame) < c.patience c.hand frame := by
  have hslot := hhand.trans_eq hsearched.length.symm
  have hround := handDistance_lt hsearched.hand_lt hslot
  have hcleared : ¬ (CacheFrame.unreferenced frame).referenced = true := Bool.false_ne_true
  rw [hsearched.length] at hround
  rw [patience, patience, if_neg hcleared, if_pos hreferenced]
  omega

/-- **An unpinned frame bounds the sweep.** -/
theorem sweep_finds (turns : ℕ) {c : PageCache B} {slot : ℕ} {frame : CacheFrame}
    (hhand : c.hand < c.frames.length) (hframe : c.frames[slot]? = some frame)
    (hpinned : frame.pinned = false) (hturns : c.patience slot frame < turns) :
    Exec.wp (sweep turns)
      (fun found next => Searched c next ∧ ∃ victim, found = some victim ∧ Victim next victim)
      (fun _ _ => False) False c := by
  induction turns generalizing c frame with
  | zero => exact absurd hturns (Nat.not_lt_zero _)
  | succ turns ih =>
      have hslot := (List.getElem?_eq_some_iff.mp hframe).1
      have hnext : (c.hand + 1) % c.frames.length < c.frames.length :=
        Nat.mod_lt _ (by omega)
      have hmoved := Searched.moved (c := c) hnext
      obtain ⟨found, hfound⟩ := exists_frame hhand
      have hmovedFound : ({ c with hand := (c.hand + 1) % c.frames.length } :
          PageCache B).frames[c.hand]? = some found := hfound
      -- the rest of the sweep, from wherever this turn leaves the cache
      have hrest {middle : PageCache B} {kept : CacheFrame} (hsearched : Searched c middle)
          (hkept : middle.frames[slot]? = some kept) (hkeptPinned : kept.pinned = false)
          (hnearer : middle.patience slot kept < c.patience slot frame) :
          Exec.wp (sweep turns)
            (fun found next => Searched c next ∧
              ∃ victim, found = some victim ∧ Victim next victim)
            (fun _ _ => False) False middle := by
        apply (ih hsearched.hand_lt hkept hkeptPinned (by omega)).imp_post
        exact fun _ _ hnext => ⟨hsearched.trans hnext.1, hnext.2⟩
      simp only [sweep, Exec.wp_bind, Exec.wp_read, wp_setHand]
      rw [wp_frameAt hmovedFound, Exec.wp_ite]
      split
      · -- a pinned frame is not the one at `slot`
        rename_i hfoundPinned
        have hne : c.hand ≠ slot := by
          intro heq
          rw [heq, hframe, Option.some.injEq] at hfound
          rw [← hfound, hpinned] at hfoundPinned
          cases hfoundPinned
        apply hrest hmoved hframe hpinned
        exact Nat.lt_of_succ_le (patience_step frame hhand hslot hne hmoved rfl).le
      · rename_i hfoundPinned
        rw [Exec.wp_ite]
        split
        · rename_i hreferenced
          rw [Exec.wp_bind, wp_modifyFrame hmovedFound]
          have hcleared : Searched c _ := .cleared hnext hfound
          by_cases hstands : c.hand = slot
          · subst hstands
            rw [hframe, Option.some.injEq] at hfound
            subst hfound
            apply hrest hcleared (List.getElem?_set_self hslot) hpinned
            exact patience_cleared hhand hreferenced hcleared
          · have hkept : (c.frames.set c.hand (CacheFrame.unreferenced found))[slot]? =
                some frame := (List.getElem?_set_ne hstands).trans hframe
            apply hrest hcleared hkept hpinned
            exact Nat.lt_of_succ_le (patience_step frame hhand hslot hstands hcleared rfl).le
        · rename_i hunreferenced
          rw [Exec.wp_pure]
          refine ⟨hmoved, c.hand, rfl, found, hfound, ?_, ?_⟩
          · simpa using hfoundPinned
          · simpa using hunreferenced

/-- The fallback of `select_victim` is not reached. -/
theorem selectVictim_of_sweep {c next : PageCache B} {victim : ℕ}
    (hsweep : (sweep (2 * c.frames.length)).run c = .ok (some victim) next) :
    selectVictim.run c = .ok victim next := by
  rw [selectVictim, Exec.run_read_bind, Exec.run_bind_ok hsweep]
  rfl

/-! ## The clean fallback -/

/-- A frame that may be given up without a writeback. -/
def Spare (frame : CacheFrame) : Prop := frame.pinned = false ∧ frame.dirty = false

/-- The loop of `select_clean_victim` names a spare frame if one is left, and moves
nothing but the hand. -/
theorem searchClean_finds (distances : List ℕ) (hot : Option ℕ) {c : PageCache B}
    (hframes : c.frames ≠ [])
    (hhot : ∀ slot ∈ hot, ∃ frame, c.frames[slot]? = some frame ∧ Spare frame) :
    Exec.wp (searchClean distances hot)
      (fun found next => next = { c with hand := next.hand } ∧
        (next.hand = c.hand ∨ next.hand < c.frames.length) ∧
        (∀ slot ∈ found, ∃ frame, c.frames[slot]? = some frame ∧ Spare frame) ∧
        ((hot.isSome ∨ ∃ distance ∈ distances, ∃ frame,
          c.frames[(c.hand + distance) % c.frames.length]? = some frame ∧ Spare frame) →
          found.isSome))
      (fun _ _ => False) False c := by
  have hlength := List.length_pos_iff.mpr hframes
  have hwrap (hand : ℕ) : hand % c.frames.length < c.frames.length := Nat.mod_lt _ hlength
  induction distances generalizing hot with
  | nil =>
      cases hot with
      | none =>
          rw [searchClean]
          exact ⟨rfl, .inl rfl, hhot, by simp⟩
      | some slot =>
          rw [searchClean, Exec.wp_bind, Exec.wp_read]
          exact ⟨rfl, .inr (hwrap _), hhot, by simp⟩
  | cons distance distances ih =>
      obtain ⟨frame, hframe⟩ := exists_frame (hwrap (c.hand + distance))
      simp only [searchClean, Exec.wp_bind, Exec.wp_read]
      rw [wp_frameAt hframe, Exec.wp_ite]
      split
      · -- a frame that is not spare does not count
        rename_i hheld
        apply (ih hot hhot).imp_post
        rintro found next ⟨hrest, hhand, hfound, hsome⟩
        refine ⟨hrest, hhand, hfound, ?_⟩
        rintro (hhotSome | ⟨other, hother, otherFrame, hotherFrame, hspare⟩)
        · exact hsome (.inl hhotSome)
        · rcases List.mem_cons.mp hother with rfl | hother
          · rw [hframe, Option.some.injEq] at hotherFrame
            rw [hotherFrame, hspare.1, hspare.2] at hheld
            cases hheld
          · exact hsome (.inr ⟨other, hother, otherFrame, hotherFrame, hspare⟩)
      · rename_i hspare
        rw [Bool.or_eq_true, not_or, Bool.not_eq_true, Bool.not_eq_true] at hspare
        have hnamed : ∀ slot ∈ some ((c.hand + distance) % c.frames.length),
            ∃ frame, c.frames[slot]? = some frame ∧ Spare frame := by
          intro slot hslot
          cases hslot
          exact ⟨frame, hframe, hspare⟩
        rw [Exec.wp_ite]
        split
        · rw [Exec.wp_bind, wp_setHand, Exec.wp_pure]
          exact ⟨rfl, .inr (hwrap _), hnamed, fun _ => rfl⟩
        · have hkept : ∀ slot ∈ hot.or (some ((c.hand + distance) % c.frames.length)),
              ∃ frame, c.frames[slot]? = some frame ∧ Spare frame := by
            intro slot hslot
            rcases Option.or_eq_some_iff.mp hslot with hslot | ⟨-, hslot⟩
            · exact hhot slot hslot
            · exact hnamed slot hslot
          apply (ih _ hkept).imp_post
          rintro found next ⟨hrest, hhand, hfound, hsome⟩
          exact ⟨hrest, hhand, hfound, fun _ => hsome (.inl (by simp))⟩

/-- The distances of one round reach every slot. -/
theorem exists_distance (hand : ℕ) {slot length : ℕ} (hslot : slot < length) :
    ∃ distance ∈ List.range length, (hand + distance) % length = slot := by
  have hhand := Nat.mod_lt hand (Nat.zero_lt_of_lt hslot)
  by_cases hahead : hand % length ≤ slot
  · refine ⟨slot - hand % length, List.mem_range.mpr (by omega), ?_⟩
    rw [← Nat.mod_add_mod, Nat.add_sub_cancel' hahead, Nat.mod_eq_of_lt hslot]
  · refine ⟨slot + length - hand % length, List.mem_range.mpr (by omega), ?_⟩
    have hround : hand % length + (slot + length - hand % length) = slot + length := by omega
    rw [← Nat.mod_add_mod, hround, Nat.add_mod_right, Nat.mod_eq_of_lt hslot]

/-- **The clean fallback names a spare frame exactly when there is one**, in any
cache. -/
theorem selectCleanVictim_finds (c : PageCache B) :
    Exec.wp selectCleanVictim
      (fun found next => next = { c with hand := next.hand } ∧
        (next.hand = c.hand ∨ next.hand < c.frames.length) ∧
        (∀ slot ∈ found, ∃ frame, c.frames[slot]? = some frame ∧ Spare frame) ∧
        (found.isSome ↔ ∃ frame ∈ c.frames, Spare frame))
      (fun _ _ => False) False c := by
  rw [selectCleanVictim, Exec.wp_bind, Exec.wp_read]
  by_cases hframes : c.frames = []
  · have hlength : c.frames.length = 0 := List.length_eq_zero_iff.mpr hframes
    rw [hlength, List.range_zero, searchClean]
    exact ⟨rfl, .inl rfl, by simp, by simp [hframes]⟩
  · apply (searchClean_finds _ none hframes (by simp)).imp_post
    rintro found next ⟨hrest, hhand, hfound, hsome⟩
    refine ⟨hrest, hhand, hfound, ?_, ?_⟩
    · intro hnamed
      obtain ⟨slot, rfl⟩ := Option.isSome_iff_exists.mp hnamed
      obtain ⟨frame, hframe, hspare⟩ := hfound slot rfl
      exact ⟨frame, List.mem_of_getElem? hframe, hspare⟩
    · rintro ⟨frame, hmem, hspare⟩
      obtain ⟨slot, hframe⟩ := List.getElem?_of_mem hmem
      have hslot := (List.getElem?_eq_some_iff.mp hframe).1
      obtain ⟨distance, hdistance, hreached⟩ := exists_distance c.hand hslot
      apply hsome
      exact .inr ⟨distance, hdistance, frame, by rw [hreached, hframe], hspare⟩

/-! ## The two searches -/

/-- **Victim selection terminates and respects pins**: with one unpinned frame,
wherever the hand stands in the table, `select_victim` takes an unpinned frame
whose reference bit is clear within its two sweeps, and its fallback is not
reached; the clean fallback names a clean unpinned frame whenever there is one, and
changes nothing but the hand. -/
theorem victim_selection {c : PageCache B} (hhand : c.hand < c.frames.length) :
    ((∃ frame ∈ c.frames, frame.pinned = false) →
      ∃ victim next, (sweep (2 * c.frames.length)).run c = .ok (some victim) next ∧
        selectVictim.run c = .ok victim next ∧ Searched c next ∧ Victim next victim) ∧
    ∃ found next, selectCleanVictim.run c = .ok found next ∧
      next = { c with hand := next.hand } ∧ next.hand < c.frames.length ∧
      (∀ slot ∈ found, ∃ frame, c.frames[slot]? = some frame ∧ Spare frame) ∧
      (found.isSome ↔ ∃ frame ∈ c.frames, Spare frame) := by
  constructor
  · rintro ⟨frame, hmem, hpinned⟩
    obtain ⟨slot, hframe⟩ := List.getElem?_of_mem hmem
    have hslot := (List.getElem?_eq_some_iff.mp hframe).1
    have hfinds := sweep_finds _ hhand hframe hpinned (patience_lt frame hhand hslot)
    obtain ⟨found, next, hsweep, hsearched, victim, rfl, hvictim⟩ := hfinds.exists_ok
    exact ⟨victim, next, hsweep, selectVictim_of_sweep hsweep, hsearched, hvictim⟩
  · obtain ⟨found, next, hrun, hrest, hnext, hfound⟩ := (selectCleanVictim_finds c).exists_ok
    refine ⟨found, next, hrun, hrest, ?_, hfound⟩
    rcases hnext with hkept | hmoved
    · rwa [hkept]
    · exact hmoved

/-- A pinned frame under the hand, and behind it a dirty one with its reference bit
set. -/
def secondChance : PageCache Unit where
  backing := ()
  frames := [⟨0, false, false, true, fun _ => 0⟩, ⟨1, true, true, false, fun _ => 0⟩]
  slotOf := fun _ => 0
  hand := 0
  capacity := 2
  stats := ⟨0, 0, 0, 0, 0⟩

theorem victim_selection_second_chance :
    (∃ victim next, selectVictim.run secondChance = .ok victim next ∧ Victim next victim) ∧
      ∃ next, selectCleanVictim.run secondChance = .ok none next := by
  have hfound := victim_selection (c := secondChance) (by decide)
  constructor
  · obtain ⟨victim, next, -, hrun, -, hvictim⟩ :=
      hfound.1 ⟨⟨1, true, true, false, fun _ => 0⟩, by simp [secondChance], rfl⟩
    exact ⟨victim, next, hrun, hvictim⟩
  · obtain ⟨found, next, hrun, -, -, -, hsome⟩ := hfound.2
    cases found with
    | none => exact ⟨next, hrun⟩
    | some slot =>
        obtain ⟨frame, hmem, hpinned, hdirty⟩ := hsome.mp rfl
        simp only [secondChance, List.mem_cons, List.not_mem_nil, or_false] at hmem
        rcases hmem with rfl | rfl
        · cases hpinned
        · cases hdirty

end PageCache

end Baonix.Core

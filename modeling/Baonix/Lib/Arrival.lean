import Mathlib

/-!
# Arriving at a goal

A state from which some moves, of a bounded number, lead to a goal.  Where the moves leave
no choice, every state on the way to the goal is one of those they lead through.
-/

namespace Baonix

variable {State : Type*}

/-- At most so many moves lead to the goal. -/
inductive Arrives (moves : State → State → Prop) (goal : State → Prop) : ℕ → State → Prop
  | here {n : ℕ} {state : State} (hgoal : goal state) : Arrives moves goal n state
  | move {n : ℕ} {state after : State} (hmove : moves state after)
      (hrest : Arrives moves goal n after) : Arrives moves goal (n + 1) state

namespace Arrives

variable {moves next : State → State → Prop} {goal further : State → Prop} {n k : ℕ}
  {state : State}

theorem mono (harrives : Arrives moves goal n state) (hle : n ≤ k) :
    Arrives moves goal k state := by
  induction harrives generalizing k with
  | here hgoal => exact .here hgoal
  | move hmove _ ih =>
      obtain ⟨left, rfl⟩ := Nat.exists_eq_add_of_le' (Nat.one_le_of_lt hle)
      exact .move hmove (ih (Nat.le_of_succ_le_succ hle))

/-- The way to a goal goes on from there to a further one. -/
theorem chain (harrives : Arrives moves goal n state)
    (hfurther : ∀ reached, goal reached → Arrives moves further k reached) :
    Arrives moves further (n + k) state := by
  induction harrives with
  | here hgoal => exact (hfurther _ hgoal).mono (Nat.le_add_left ..)
  | @move left _ _ hmove _ ih =>
      rw [Nat.add_right_comm]
      exact .move hmove ih

theorem imp (harrives : Arrives moves goal n state)
    (himp : ∀ reached, goal reached → further reached) : Arrives moves further n state :=
  harrives.chain (k := 0) fun reached hgoal => .here (himp reached hgoal)

theorem of_moves (harrives : Arrives moves goal n state)
    (hmoves : ∀ start after, moves start after → next start after) : Arrives next goal n state := by
  induction harrives with
  | here hgoal => exact .here hgoal
  | move hmove _ ih => exact .move (hmoves _ _ hmove) ih

/-- One move. -/
theorem one {after : State} (hmove : moves state after) (hgoal : goal after) :
    Arrives moves goal 1 state :=
  .move hmove (.here hgoal)

/-- If every move climbs, all of them start below the goal. -/
theorem climbing (rank : State → ℕ) {top : ℕ}
    (hclimbs : ∀ start after, moves start after → rank start < rank after)
    (htop : ∀ reached, goal reached → rank reached = top) (harrives : Arrives moves goal n state) :
    Arrives (fun start after => moves start after ∧ rank start < top) goal n state ∧
      rank state ≤ top := by
  induction harrives with
  | here hgoal => exact ⟨.here hgoal, (htop _ hgoal).le⟩
  | move hmove _ ih =>
      have hbelow := (hclimbs _ _ hmove).trans_le ih.2
      exact ⟨.move ⟨hmove, hbelow⟩ ih.1, hbelow.le⟩

theorem goal_or_moves (harrives : Arrives moves goal n state) :
    goal state ∨ ∃ after, moves state after := by
  cases harrives with
  | here hgoal => exact .inl hgoal
  | move hmove _ => exact .inr ⟨_, hmove⟩

theorem exists_reached (harrives : Arrives moves goal n state) :
    ∃ reached, Relation.ReflTransGen moves state reached ∧ goal reached := by
  induction harrives with
  | here hgoal => exact ⟨_, .refl, hgoal⟩
  | move hmove _ ih =>
      obtain ⟨reached, hpath, hgoal⟩ := ih
      exact ⟨reached, hpath.head hmove, hgoal⟩

/-- **On the way.**  If the goal is not left and there is one move only, every state the
moves lead to arrives as well. -/
theorem of_reached (harrives : Arrives moves goal n state)
    (hgoal : ∀ start after, next start after → ¬goal start)
    (honly : ∀ start after other, moves start after → next start other → after = other)
    {reached : State} (hpath : Relation.ReflTransGen next state reached) :
    Arrives moves goal n reached := by
  induction hpath with
  | refl => exact harrives
  | tail _ hnext ih =>
      cases ih with
      | here hreached => exact absurd hreached (hgoal _ _ hnext)
      | move hmove hrest =>
          rw [← honly _ _ _ hmove hnext]
          exact hrest.mono (Nat.le_succ _)

end Arrives

end Baonix

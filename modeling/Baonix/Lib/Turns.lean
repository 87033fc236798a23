import Baonix.Lib.Exec

/-!
# Counted loops

What the turns of a loop cost, read off its run: a turn counts when it is begun, so that
the one in which the loop fails counts too.  A loop over a range has an invariant that
speaks of the index.
-/

namespace Baonix.Exec

universe u

variable {Err State : Type u} {Item : Type*}

/-- What the turns of `each body items` cost from a state on. -/
def turns (body : Item → Exec Err State PUnit) (cost : Item → State → ℕ) : List Item → State → ℕ
  | [], _ => 0
  | item :: rest, state =>
      cost item state +
        match (body item).run state with
        | .ok _ after => turns body cost rest after
        | .error _ _ => 0
        | .panic => 0

variable {body : Item → Exec Err State PUnit} {cost : Item → State → ℕ}

theorem cost_le_turns (item : Item) (rest : List Item) (state : State) :
    cost item state ≤ turns body cost (item :: rest) state := Nat.le_add_right _ _

theorem turns_cons_ok {item : Item} {rest : List Item} {state after : State}
    (hrun : (body item).run state = .ok ⟨⟩ after) :
    turns body cost (item :: rest) state = cost item state + turns body cost rest after := by
  rw [turns, hrun]

/-- A turn more, and the others only if it ends well. -/
theorem turns_cons_le {item : Item} {rest : List Item} {state : State} {bound : ℕ}
    (hrest : ∀ after, (body item).run state = .ok ⟨⟩ after → turns body cost rest after ≤ bound) :
    turns body cost (item :: rest) state ≤ cost item state + bound := by
  rw [turns]
  cases hrun : (body item).run state with
  | ok value after => exact Nat.add_le_add_left (hrest after hrun) _
  | error err after => exact Nat.add_le_add_left (Nat.zero_le _) _
  | panic => exact Nat.add_le_add_left (Nat.zero_le _) _

/-- A loop that ends well has taken all its turns. -/
theorem sum_le_turns {price : Item → ℕ} {items : List Item}
    (hcost : ∀ item ∈ items, ∀ state after, (body item).run state = .ok ⟨⟩ after →
      price item ≤ cost item state) {state after : State}
    (hrun : (each body items).run state = .ok ⟨⟩ after) :
    (items.map price).sum ≤ turns body cost items state := by
  induction items generalizing state with
  | nil => exact Nat.zero_le _
  | cons item rest ih =>
      obtain ⟨hhead, htail⟩ := List.forall_mem_cons.mp hcost
      obtain ⟨⟨⟩, middle, hitem, hrest⟩ := run_bind_eq_ok.mp hrun
      rw [turns_cons_ok hitem, List.map_cons, List.sum_cons]
      exact Nat.add_le_add (hhead state middle hitem) (ih htail hrest)

/-- A loop costs no more than all its turns would. -/
theorem turns_le_sum {price : Item → ℕ} {items : List Item}
    (hcost : ∀ item ∈ items, ∀ state, cost item state ≤ price item) (state : State) :
    turns body cost items state ≤ (items.map price).sum := by
  induction items generalizing state with
  | nil => exact Nat.zero_le _
  | cons item rest ih =>
      obtain ⟨hitem, hrest⟩ := List.forall_mem_cons.mp hcost
      rw [List.map_cons, List.sum_cons]
      calc turns body cost (item :: rest) state
          ≤ cost item state + (rest.map price).sum := turns_cons_le fun after _ => ih hrest after
        _ ≤ price item + (rest.map price).sum := Nat.add_le_add_right (hitem state) _

/-- Behind an item on which the body never ends well there are no turns. -/
theorem turns_append_of_fails {first : List Item}
    (hfails : ∃ item ∈ first, ∀ state after, (body item).run state ≠ .ok ⟨⟩ after)
    (last : List Item) (state : State) :
    turns body cost (first ++ last) state = turns body cost first state := by
  induction first generalizing state with
  | nil =>
      obtain ⟨item, hitem, -⟩ := hfails
      exact absurd hitem List.not_mem_nil
  | cons head rest ih =>
      rw [List.cons_append, turns, turns]
      cases hrun : (body head).run state with
      | ok value after =>
          have hrest : ∃ item ∈ rest, ∀ state after, (body item).run state ≠ .ok ⟨⟩ after := by
            obtain ⟨item, hitem, hnever⟩ := hfails
            rcases List.mem_cons.mp hitem with rfl | hbehind
            · exact absurd hrun (hnever state after)
            · exact ⟨item, hbehind, hnever⟩
          dsimp only
          rw [ih hrest]
      | error err after => rfl
      | panic => rfl

/-- **A loop over a range whose body fails from an index on** takes no more turns than
that index and the ones before it. -/
theorem turns_range_le {body : ℕ → Exec Err State PUnit} {cost : ℕ → State → ℕ} {price : ℕ → ℕ}
    {bound : ℕ} (hbound : ∀ i state after, (body i).run state = .ok ⟨⟩ after → i < bound) {n : ℕ}
    (hcost : ∀ i < n, ∀ state, cost i state ≤ price i) (state : State) :
    turns body cost (List.range n) state ≤ ((List.range (min n (bound + 1))).map price).sum := by
  have hprices {n' : ℕ} (hle : n' ≤ n) :
      turns body cost (List.range n') state ≤ ((List.range n').map price).sum :=
    turns_le_sum (fun i hi state => hcost i ((List.mem_range.mp hi).trans_le hle) state) state
  rcases le_total n (bound + 1) with hfew | hmany
  · rw [min_eq_left hfew]
    exact hprices le_rfl
  · have hfails : ∃ i ∈ List.range (bound + 1), ∀ state after,
        (body i).run state ≠ .ok ⟨⟩ after :=
      ⟨bound, List.mem_range.mpr (Nat.lt_succ_self bound), fun state after hrun =>
        absurd (hbound bound state after hrun) (lt_irrefl bound)⟩
    rw [min_eq_right hmany, ← Nat.add_sub_cancel' hmany, List.range_add,
      turns_append_of_fails hfails]
    exact hprices hmany

/-- **An invariant of a loop over a range.** -/
theorem wp_each_range (invariant : ℕ → State → Prop) {body : ℕ → Exec Err State PUnit}
    {fails : Err → State → Prop} {panics : Prop} {n : ℕ} {state : State}
    (hstart : invariant 0 state)
    (hstep : ∀ i < n, ∀ middle, invariant i middle →
      wp (body i) (fun _ after => invariant (i + 1) after) fails panics middle) :
    wp (each body (List.range n)) (fun _ after => invariant n after) fails panics state := by
  induction n with
  | zero => exact hstart
  | succ n ih =>
      rw [List.range_succ, each_append, wp_bind]
      apply (ih fun i hi => hstep i (hi.trans (Nat.lt_succ_self n))).imp_post
      intro _ middle hmiddle
      rw [each, wp_bind]
      exact hstep n (Nat.lt_succ_self n) middle hmiddle

end Baonix.Exec

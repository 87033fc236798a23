import Baonix.Lib.Exec

/-!
# Computations that run alike

Two computations, over states that need not be of one type, are alike if they
end the same way from related states, without a panic, and leave related states.
What is made of computations that are alike is alike too.
-/

namespace Baonix

universe u

variable {Err State State' Value Next : Type u}

/-- The same value or the same error, in related states. -/
inductive Outcome.Alike (related : State → State' → Prop) :
    Outcome Err State Value → Outcome Err State' Value → Prop
  | ok {value : Value} {after : State} {after' : State'} (hafter : related after after') :
      Alike related (.ok value after) (.ok value after')
  | error {err : Err} {after : State} {after' : State'} (hafter : related after after') :
      Alike related (.error err after) (.error err after')

theorem Outcome.Alike.imp {related related' : State → State' → Prop}
    {outcome : Outcome Err State Value} {outcome' : Outcome Err State' Value}
    (halike : Alike related outcome outcome')
    (himp : ∀ after after', related after after' → related' after after') :
    Alike related' outcome outcome' := by
  cases halike with
  | ok hafter => exact .ok (himp _ _ hafter)
  | error hafter => exact .error (himp _ _ hafter)

theorem Outcome.Alike.of_ok_left {related : State → State' → Prop} {value : Value} {after : State}
    {outcome' : Outcome Err State' Value} (halike : Alike related (.ok value after) outcome') :
    ∃ after', outcome' = .ok value after' ∧ related after after' := by
  cases halike with
  | ok hafter => exact ⟨_, rfl, hafter⟩

theorem Outcome.Alike.of_error_left {related : State → State' → Prop} {err : Err} {after : State}
    {outcome' : Outcome Err State' Value} (halike : Alike related (.error err after) outcome') :
    ∃ after', outcome' = .error err after' ∧ related after after' := by
  cases halike with
  | error hafter => exact ⟨_, rfl, hafter⟩

/-- Where nothing can fail both end with the same value. -/
theorem Outcome.Alike.exists_ok {State State' Value : Type} {related : State → State' → Prop}
    {outcome : Outcome Empty State Value} {outcome' : Outcome Empty State' Value}
    (halike : Alike related outcome outcome') : ∃ value after after',
      outcome = .ok value after ∧ outcome' = .ok value after' ∧ related after after' := by
  cases halike with
  | ok hafter => exact ⟨_, _, _, rfl, rfl, hafter⟩
  | @error err _ _ _ => exact err.elim

namespace Exec

/-- From related states the two computations end alike. -/
def Alike (related : State → State' → Prop) (program : Exec Err State Value)
    (program' : Exec Err State' Value) : Prop :=
  ∀ state state', related state state' →
    (program.run state).Alike related (program'.run state')

namespace Alike

variable {related : State → State' → Prop}
variable {program : Exec Err State Value} {program' : Exec Err State' Value}

protected theorem pure (value : Value) :
    Alike related (Pure.pure value : Exec Err State Value) (Pure.pure value) :=
  fun _ _ hstate => .ok hstate

protected theorem raise (err : Err) :
    Alike related (raise err : Exec Err State Value) (raise err) :=
  fun _ _ hstate => .error hstate

protected theorem ofExcept (result : Except Err Value) :
    Alike related (ofExcept result : Exec Err State Value) (ofExcept result) := by
  cases result with
  | ok value => exact .pure value
  | error err => exact .raise err

protected theorem update {change : State → State} {change' : State' → State'}
    (hchange : ∀ state state', related state state' → related (change state) (change' state')) :
    Alike related (update change : Exec Err State PUnit) (update change') :=
  fun state state' hstate => .ok (hchange state state' hstate)

protected theorem bind {program : Exec Err State Next} {program' : Exec Err State' Next}
    {next : Next → Exec Err State Value} {next' : Next → Exec Err State' Value}
    (hprogram : Alike related program program')
    (hnext : ∀ value, Alike related (next value) (next' value)) :
    Alike related (program >>= next) (program' >>= next') := by
  intro state state' hstate
  have hfirst := hprogram state state' hstate
  simp only [run, Bind.bind] at hfirst ⊢
  generalize program state = outcome at hfirst ⊢
  generalize program' state' = outcome' at hfirst ⊢
  cases hfirst with
  | ok hmiddle => exact hnext _ _ _ hmiddle
  | error hafter => exact .error hafter

/-- What follows may depend on the states read, as far as they are related. -/
protected theorem read_bind {next : State → Exec Err State Value}
    {next' : State' → Exec Err State' Value}
    (hnext : ∀ state state', related state state' → Alike related (next state) (next' state')) :
    Alike related (read >>= next) (read >>= next') :=
  fun state state' hstate => hnext state state' hstate state state' hstate

protected theorem ite {condition : Prop} [Decidable condition]
    {first second : Exec Err State Value} {first' second' : Exec Err State' Value}
    (hfirst : Alike related first first') (hsecond : Alike related second second') :
    Alike related (if condition then first else second)
      (if condition then first' else second') := by
  split
  · exact hfirst
  · exact hsecond

protected theorem call {Part Part' : Type u} {part : State → Part} {put : State → Part → State}
    {part' : State' → Part'} {put' : State' → Part' → State'}
    {operation : Part → Value × Part} {operation' : Part' → Value × Part'}
    (hoperation : ∀ state state', related state state' →
      (operation (part state)).1 = (operation' (part' state')).1 ∧
        related (put state (operation (part state)).2)
          (put' state' (operation' (part' state')).2)) :
    Alike related (call part put operation : Exec Err State Value)
      (call part' put' operation') := by
  intro state state' hstate
  obtain ⟨hvalue, hafter⟩ := hoperation state state' hstate
  simp only [run, Exec.call, hvalue]
  exact .ok hafter

/-- Computations on parts that run alike. -/
protected theorem zoom {Part Part' PartErr : Type u} {partRelated : Part → Part' → Prop}
    {part : State → Part} {put : State → Part → State} {part' : State' → Part'}
    {put' : State' → Part' → State'} {errOf : PartErr → Err}
    {program : Exec PartErr Part Value} {program' : Exec PartErr Part' Value}
    (hprogram : Alike partRelated program program')
    (hpart : ∀ state state', related state state' → partRelated (part state) (part' state'))
    (hput : ∀ state state' after after', related state state' → partRelated after after' →
      related (put state after) (put' state' after')) :
    Alike related (zoom part put errOf program) (zoom part' put' errOf program') := by
  intro state state' hstate
  have hparts := hprogram _ _ (hpart state state' hstate)
  simp only [run, Exec.zoom] at hparts ⊢
  generalize program (part state) = outcome at hparts ⊢
  generalize program' (part' state') = outcome' at hparts ⊢
  cases hparts with
  | ok hafter => exact .ok (hput _ _ _ _ hstate hafter)
  | error hafter => exact .error (hput _ _ _ _ hstate hafter)

protected theorem attempt {Err' : Type u} (hprogram : Alike related program program') :
    Alike related (attempt program : Exec Err' State (Except Err Value)) (attempt program') := by
  intro state state' hstate
  have halike := hprogram state state' hstate
  simp only [run, Exec.attempt] at halike ⊢
  generalize program state = outcome at halike ⊢
  generalize program' state' = outcome' at halike ⊢
  cases halike with
  | ok hafter => exact .ok hafter
  | error hafter => exact .ok hafter

/-- Computations that succeed, with the same value and in related states. -/
theorem of_ok {state : State} {state' : State'} {value : Value} {after : State}
    {after' : State'} (hrun : program.run state = .ok value after)
    (hrun' : program'.run state' = .ok value after') (hafter : related after after') :
    (program.run state).Alike related (program'.run state') := by
  rw [hrun, hrun']
  exact .ok hafter

/-- What follows may depend on how the first computation came out. -/
theorem bind_from {middle related : State → State' → Prop} {program : Exec Err State Next}
    {program' : Exec Err State' Next} {next : Next → Exec Err State Value}
    {next' : Next → Exec Err State' Value} {state : State} {state' : State'}
    (hprogram : (program.run state).Alike middle (program'.run state'))
    (hmiddle : ∀ after after', middle after after' → related after after')
    (hnext : ∀ value after after', program.run state = .ok value after → middle after after' →
      ((next value).run after).Alike related ((next' value).run after')) :
    ((program >>= next).run state).Alike related ((program' >>= next').run state') := by
  simp only [run, Bind.bind] at hprogram hnext ⊢
  generalize program' state' = outcome' at hprogram ⊢
  generalize program state = outcome at hprogram hnext ⊢
  cases hprogram with
  | ok hafter => exact hnext _ _ _ rfl hafter
  | error hafter => exact .error (hmiddle _ _ hafter)

theorem zoom_from {Part Part' PartErr : Type u} {partRelated : Part → Part' → Prop}
    {related : State → State' → Prop} {part : State → Part} {put : State → Part → State}
    {part' : State' → Part'} {put' : State' → Part' → State'} {errOf : PartErr → Err}
    {program : Exec PartErr Part Value} {program' : Exec PartErr Part' Value} {state : State}
    {state' : State'}
    (hprogram : (program.run (part state)).Alike partRelated (program'.run (part' state')))
    (hput : ∀ after after', partRelated after after' →
      related (put state after) (put' state' after')) :
    ((zoom part put errOf program).run state).Alike related
      ((zoom part' put' errOf program').run state') := by
  simp only [run, Exec.zoom] at hprogram ⊢
  generalize program (part state) = outcome at hprogram ⊢
  generalize program' (part' state') = outcome' at hprogram ⊢
  cases hprogram with
  | ok hafter => exact .ok (hput _ _ hafter)
  | error hafter => exact .error (hput _ _ hafter)

/-- Two computations with one beginning. -/
theorem of_same_beginning {related : State → State → Prop} {program : Exec Err State Next}
    {next next' : Next → Exec Err State Value} {state : State}
    (hprogram : wp program
      (fun value after => ((next value).run after).Alike related ((next' value).run after))
      (fun _ after => related after after) False state) :
    ((program >>= next).run state).Alike related ((program >>= next').run state) := by
  rw [wp] at hprogram
  simp only [run, Bind.bind] at hprogram ⊢
  cases hrun : program state with
  | ok value after => rw [hrun] at hprogram; exact hprogram
  | error err after => rw [hrun] at hprogram; exact .error hprogram
  | panic => rw [hrun] at hprogram; exact hprogram.elim

end Alike

end Exec

end Baonix

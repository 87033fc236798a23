import Baonix.Lib.Exec

/-!
# Computations that cannot tell states apart

A computation respects a relation between states if it ends the same way from related
states, and leaves related states.  What is made of such computations is one as well.
-/

namespace Baonix

universe u

variable {Err State Value Next : Type u}

/-- The same value or the same error, in related states, or a panic in both. -/
inductive Outcome.Same (related : State → State → Prop) :
    Outcome Err State Value → Outcome Err State Value → Prop
  | ok {value : Value} {after after' : State} (hafter : related after after') :
      Same related (.ok value after) (.ok value after')
  | error {err : Err} {after after' : State} (hafter : related after after') :
      Same related (.error err after) (.error err after')
  | panic : Same related .panic .panic

namespace Exec

/-- The computation cannot tell related states apart. -/
def Respects (related : State → State → Prop) (program : Exec Err State Value) : Prop :=
  ∀ state state', related state state' → (program.run state).Same related (program.run state')

namespace Respects

variable {related : State → State → Prop} {program : Exec Err State Value}

/-- Every computation respects equality. -/
theorem of_eq (program : Exec Err State Value) : Respects Eq program := by
  rintro state _ rfl
  cases program.run state with
  | ok value after => exact .ok rfl
  | error err after => exact .error rfl
  | panic => exact .panic

protected theorem pure (value : Value) : Respects related (pure value : Exec Err State Value) :=
  fun _ _ hstate => .ok hstate

protected theorem raise (err : Err) : Respects related (raise err : Exec Err State Value) :=
  fun _ _ hstate => .error hstate

protected theorem update {change : State → State}
    (hchange : ∀ state state', related state state' → related (change state) (change state')) :
    Respects related (update change : Exec Err State PUnit) :=
  fun state state' hstate => .ok (hchange state state' hstate)

protected theorem bind {program : Exec Err State Next} {next : Next → Exec Err State Value}
    (hprogram : Respects related program) (hnext : ∀ value, Respects related (next value)) :
    Respects related (program >>= next) := by
  intro state state' hstate
  have hfirst := hprogram state state' hstate
  rw [run_bind, run_bind]
  generalize program.run state = outcome at hfirst ⊢
  generalize program.run state' = outcome' at hfirst ⊢
  cases hfirst with
  | ok hmiddle => exact hnext _ _ _ hmiddle
  | error hafter => exact .error hafter
  | panic => exact .panic

/-- What follows a read is the same from related states. -/
protected theorem read_bind {next : State → Exec Err State Value}
    (hnext : ∀ state state', related state state' →
      next state = next state' ∧ Respects related (next state)) :
    Respects related (read >>= next) := by
  intro state state' hstate
  obtain ⟨hsame, hrespects⟩ := hnext state state' hstate
  rw [run_read_bind, run_read_bind, ← hsame]
  exact hrespects state state' hstate

protected theorem ite {condition : Prop} [Decidable condition]
    {first second : Exec Err State Value} (hfirst : Respects related first)
    (hsecond : Respects related second) :
    Respects related (if condition then first else second) := by
  split
  · exact hfirst
  · exact hsecond

/-- A computation on parts that are related as well. -/
protected theorem zoom {Part PartErr : Type u} {partRelated : Part → Part → Prop}
    {part : State → Part} {put : State → Part → State} {errOf : PartErr → Err}
    {program : Exec PartErr Part Value} (hprogram : Respects partRelated program)
    (hpart : ∀ state state', related state state' → partRelated (part state) (part state'))
    (hput : ∀ state state' after after', related state state' → partRelated after after' →
      related (put state after) (put state' after')) :
    Respects related (zoom part put errOf program) := by
  intro state state' hstate
  have hparts := hprogram _ _ (hpart state state' hstate)
  simp only [run, Exec.zoom] at hparts ⊢
  generalize program (part state) = outcome at hparts ⊢
  generalize program (part state') = outcome' at hparts ⊢
  cases hparts with
  | ok hafter => exact .ok (hput _ _ _ _ hstate hafter)
  | error hafter => exact .error (hput _ _ _ _ hstate hafter)
  | panic => exact .panic

end Respects

end Exec

end Baonix

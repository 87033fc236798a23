import Baonix.Lib.Simulation

/-!
# Computations that run alike until one is stopped

A computation follows another if, from related states, it either ends as the
other does or in an error that stops it, whatever the other does then.  What is
made of computations that follow each other follows too.
-/

namespace Baonix

universe u

variable {Err State State' Value Next : Type u}

/-- The same end, unless the first is stopped. -/
inductive Outcome.Follows (stops : Err → Prop) (related : State → State' → Prop) :
    Outcome Err State Value → Outcome Err State' Value → Prop
  | alike {outcome : Outcome Err State Value} {outcome' : Outcome Err State' Value}
      (halike : Alike related outcome outcome') : Follows stops related outcome outcome'
  | stopped {err : Err} {after : State} {outcome' : Outcome Err State' Value}
      (hstops : stops err) : Follows stops related (.error err after) outcome'

namespace Exec

/-- From related states the first computation follows the second. -/
def Follows (stops : Err → Prop) (related : State → State' → Prop)
    (program : Exec Err State Value) (program' : Exec Err State' Value) : Prop :=
  ∀ state state', related state state' →
    (program.run state).Follows stops related (program'.run state')

theorem Alike.follows {stops : Err → Prop} {related : State → State' → Prop}
    {program : Exec Err State Value} {program' : Exec Err State' Value}
    (halike : Alike related program program') : Follows stops related program program' :=
  fun state state' hstate => .alike (halike state state' hstate)

namespace Follows

variable {stops : Err → Prop} {related : State → State' → Prop}
variable {program : Exec Err State Value} {program' : Exec Err State' Value}

protected theorem pure (value : Value) :
    Follows stops related (Pure.pure value : Exec Err State Value) (Pure.pure value) :=
  (Alike.pure value).follows

protected theorem raise (err : Err) :
    Follows stops related (raise err : Exec Err State Value) (raise err) :=
  (Alike.raise err).follows

protected theorem update {change : State → State} {change' : State' → State'}
    (hchange : ∀ state state', related state state' → related (change state) (change' state')) :
    Follows stops related (update change : Exec Err State PUnit) (update change') :=
  (Alike.update hchange).follows

protected theorem bind {program : Exec Err State Next} {program' : Exec Err State' Next}
    {next : Next → Exec Err State Value} {next' : Next → Exec Err State' Value}
    (hprogram : Follows stops related program program')
    (hnext : ∀ value, Follows stops related (next value) (next' value)) :
    Follows stops related (program >>= next) (program' >>= next') := by
  intro state state' hstate
  have hfirst := hprogram state state' hstate
  simp only [run, Bind.bind] at hfirst ⊢
  generalize program state = outcome at hfirst ⊢
  generalize program' state' = outcome' at hfirst ⊢
  cases hfirst with
  | alike halike =>
      cases halike with
      | ok hmiddle => exact hnext _ _ _ hmiddle
      | error hafter => exact .alike (.error hafter)
  | stopped hstops => exact .stopped hstops

/-- What follows may depend on the states read, as far as they are related. -/
protected theorem read_bind {next : State → Exec Err State Value}
    {next' : State' → Exec Err State' Value}
    (hnext : ∀ state state', related state state' →
      Follows stops related (next state) (next' state')) :
    Follows stops related (read >>= next) (read >>= next') :=
  fun state state' hstate => hnext state state' hstate state state' hstate

protected theorem ite {condition : Prop} [Decidable condition]
    {first second : Exec Err State Value} {first' second' : Exec Err State' Value}
    (hfirst : Follows stops related first first')
    (hsecond : Follows stops related second second') :
    Follows stops related (if condition then first else second)
      (if condition then first' else second') := by
  split
  · exact hfirst
  · exact hsecond

/-- A part that is stopped stops the whole. -/
protected theorem zoom {Part Part' PartErr : Type u} {partStops : PartErr → Prop}
    {partRelated : Part → Part' → Prop}
    {part : State → Part} {put : State → Part → State} {part' : State' → Part'}
    {put' : State' → Part' → State'} {errOf : PartErr → Err}
    {program : Exec PartErr Part Value} {program' : Exec PartErr Part' Value}
    (hprogram : Follows partStops partRelated program program')
    (hstops : ∀ err, partStops err → stops (errOf err))
    (hpart : ∀ state state', related state state' → partRelated (part state) (part' state'))
    (hput : ∀ state state' after after', related state state' → partRelated after after' →
      related (put state after) (put' state' after')) :
    Follows stops related (zoom part put errOf program) (zoom part' put' errOf program') := by
  intro state state' hstate
  have hparts := hprogram _ _ (hpart state state' hstate)
  simp only [run, Exec.zoom] at hparts ⊢
  generalize program (part state) = outcome at hparts ⊢
  generalize program' (part' state') = outcome' at hparts ⊢
  cases hparts with
  | alike halike =>
      cases halike with
      | ok hafter => exact .alike (.ok (hput _ _ _ _ hstate hafter))
      | error hafter => exact .alike (.error (hput _ _ _ _ hstate hafter))
  | stopped hstopped => exact .stopped (hstops _ hstopped)

/-- The first computation against one that succeeds. -/
theorem of_wp {state : State} {state' : State'} {after' : State'} {value : Value}
    (hrun' : program'.run state' = .ok value after')
    (hrun : wp program (fun result after => result = value ∧ related after after')
      (fun err _ => stops err) False state) :
    (program.run state).Follows stops related (program'.run state') := by
  rw [hrun']
  unfold wp at hrun
  simp only [run]
  generalize program state = outcome at hrun ⊢
  cases outcome with
  | ok result after =>
      obtain ⟨rfl, hafter⟩ := hrun
      exact .alike (.ok hafter)
  | error err after => exact .stopped hrun
  | panic => exact hrun.elim

end Follows

end Exec

end Baonix

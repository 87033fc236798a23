import Baonix.Lib.Exec

/-!
# What a computation leaves, by how it ends

A relation between the start and the end for success, and one for each error.  Where the
relations compose, a computation has them as soon as its parts do.
-/

namespace Baonix

universe u

/-- What success, or an error, says about the start and the end. -/
structure Endings (Err State : Type u) where
  success : State → State → Prop
  failure : Err → State → State → Prop
  refl : ∀ state, success state state
  trans : ∀ {start middle after}, success start middle → success middle after →
    success start after
  fails : ∀ {err start middle after}, success start middle → failure err middle after →
    failure err start after

namespace Endings

variable {Err State Value Next : Type u}

/-- The computation ends that way, whatever it starts from. -/
def Of (endings : Endings Err State) (program : Exec Err State Value) : Prop :=
  ∀ state, Exec.wp program (fun _ after => endings.success state after)
    (fun err after => endings.failure err state after) True state

namespace Of

variable {endings : Endings Err State}

protected theorem pure (value : Value) : endings.Of (pure value) :=
  fun state => endings.refl state

/-- An error that says no more than success does. -/
protected theorem raise {err : Err} (herr : ∀ state, endings.failure err state state) :
    endings.Of (Exec.raise err : Exec Err State Value) :=
  herr

protected theorem panic : endings.Of (Exec.panic : Exec Err State Value) :=
  fun _ => trivial

protected theorem update {change : State → State}
    (hchange : ∀ state, endings.success state (change state)) :
    endings.Of (Exec.update change) :=
  hchange

protected theorem bind {program : Exec Err State Next} {next : Next → Exec Err State Value}
    (hprogram : endings.Of program) (hnext : ∀ value, endings.Of (next value)) :
    endings.Of (program >>= next) := by
  intro state
  rw [Exec.wp_bind]
  apply (hprogram state).imp_post
  intro value middle hmiddle
  exact (hnext value middle).imp (fun _ _ hafter => endings.trans hmiddle hafter)
    (fun _ _ hafter => endings.fails hmiddle hafter) (fun hpanics => hpanics)

protected theorem read {next : State → Exec Err State Value}
    (hnext : ∀ state, endings.Of (next state)) : endings.Of (Exec.read >>= next) :=
  fun state => hnext state state

protected theorem map {program : Exec Err State Next} (hprogram : endings.Of program)
    (change : Next → Value) : endings.Of (change <$> program) := by
  intro state
  rw [Exec.wp_map]
  exact hprogram state

protected theorem ite {condition : Prop} [Decidable condition]
    {first second : Exec Err State Value} (hfirst : endings.Of first)
    (hsecond : endings.Of second) :
    endings.Of (if condition then first else second) := by
  split
  · exact hfirst
  · exact hsecond

/-- A computation on a part, whose endings are some of the whole. -/
protected theorem zoom {Part PartErr : Type u} {partEndings : Endings PartErr Part}
    {part : State → Part} {put : State → Part → State} {errOf : PartErr → Err}
    {program : Exec PartErr Part Value} (hprogram : partEndings.Of program)
    (hsuccess : ∀ state after, partEndings.success (part state) after →
      endings.success state (put state after))
    (hfailure : ∀ err state after, partEndings.failure err (part state) after →
      endings.failure (errOf err) state (put state after)) :
    endings.Of (Exec.zoom part put errOf program) := by
  intro state
  rw [Exec.wp_zoom]
  exact (hprogram (part state)).imp (fun _ after hafter => hsuccess state after hafter)
    (fun err after hafter => hfailure err state after hafter) (fun hpanics => hpanics)

end Of

end Endings

end Baonix

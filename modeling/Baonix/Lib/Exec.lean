import Mathlib

/-!
# Stateful computations that may fail

A computation reads and changes a state and ends with a value, with an error
that keeps the changes made so far, or in a panic.  `wp` is its weakest
precondition; `Keeps` is the special case in which every state it can end in is
related to the one it started from.
-/

namespace Baonix

universe u

/-- How a computation ends. -/
inductive Outcome (Err State Value : Type u)
  | ok (value : Value) (state : State)
  | error (err : Err) (state : State)
  | panic

/-- What the caller is told and the state it is left with; `none` is a panic. -/
def Outcome.reply {Err State Value : Type u} :
    Outcome Err State Value → Option (Except Err Value × State)
  | .ok value state => some (.ok value, state)
  | .error err state => some (.error err, state)
  | .panic => none

/-- The error it ends in. -/
def Outcome.failure {Err State Value : Type u} : Outcome Err State Value → Option Err
  | .ok _ _ => none
  | .error err _ => some err
  | .panic => none

/-- The value it ends with. -/
def Outcome.value {Err State Value : Type u} : Outcome Err State Value → Option Value
  | .ok value _ => some value
  | .error _ _ => none
  | .panic => none

theorem Outcome.eq_ok_of_value {Err State Value : Type u} {outcome : Outcome Err State Value}
    {value : Value} (hvalue : outcome.value = some value) : ∃ after, outcome = .ok value after := by
  cases outcome with
  | ok value' after =>
      cases hvalue
      exact ⟨after, rfl⟩
  | error err after => cases hvalue
  | panic => cases hvalue

theorem Outcome.eq_error_of_failure {Err State Value : Type u} {outcome : Outcome Err State Value}
    {err : Err} (hfailure : outcome.failure = some err) : ∃ after, outcome = .error err after := by
  cases outcome with
  | ok value after => cases hfailure
  | error err' after =>
      cases hfailure
      exact ⟨after, rfl⟩
  | panic => cases hfailure

def Exec (Err State Value : Type u) : Type u := State → Outcome Err State Value

namespace Exec

variable {Err State Value Next : Type u}

def run (program : Exec Err State Value) (state : State) : Outcome Err State Value :=
  program state

instance : Monad (Exec Err State) where
  pure value := fun state => .ok value state
  bind program next := fun state =>
    match program state with
    | .ok value middle => next value middle
    | .error err middle => .error err middle
    | .panic => .panic

instance : LawfulMonad (Exec Err State) :=
  LawfulMonad.mk' (Exec Err State)
    (fun program => by
      funext state
      change (match program state with
        | .ok value middle => .ok value middle
        | .error err middle => .error err middle
        | .panic => .panic) = program state
      cases program state <;> rfl)
    (fun _ _ => rfl)
    (fun program next last => by
      funext state
      simp only [bind]
      cases program state <;> rfl)

/-- The current state. -/
def read : Exec Err State State := fun state => .ok state state

def update (change : State → State) : Exec Err State PUnit :=
  fun state => .ok .unit (change state)

def raise (err : Err) : Exec Err State Value := fun state => .error err state

def panic : Exec Err State Value := fun _ => .panic

/-- Runs an operation of a part of the state. -/
def call {Part : Type u} (part : State → Part) (put : State → Part → State)
    (operation : Part → Value × Part) : Exec Err State Value := fun state =>
  .ok (operation (part state)).1 (put state (operation (part state)).2)

/-- Runs a computation on a part of the state. -/
def zoom {Part PartErr : Type u} (part : State → Part) (put : State → Part → State)
    (errOf : PartErr → Err) (program : Exec PartErr Part Value) : Exec Err State Value :=
  fun state =>
    match program (part state) with
    | .ok value after => .ok value (put state after)
    | .error err after => .error (errOf err) (put state after)
    | .panic => .panic

/-- `?` on a result. -/
def ofExcept : Except Err Value → Exec Err State Value
  | .ok value => pure value
  | .error err => raise err

/-- Hands an error to the caller as a value. -/
def attempt {Err' : Type u} (program : Exec Err State Value) :
    Exec Err' State (Except Err Value) := fun state =>
  match program state with
  | .ok value after => .ok (.ok value) after
  | .error err after => .ok (.error err) after
  | .panic => .panic

/-! ## Weakest preconditions -/

/-- Started in `state`, the computation ends with a value and a state in `post`,
with an error and a state in `fails`, or in a panic if `panics` allows it. -/
def wp (program : Exec Err State Value) (post : Value → State → Prop)
    (fails : Err → State → Prop) (panics : Prop) (state : State) : Prop :=
  match program state with
  | .ok value after => post value after
  | .error err after => fails err after
  | .panic => panics

variable {post : Value → State → Prop} {fails : Err → State → Prop} {panics : Prop}
variable {state : State}

@[simp]
theorem wp_pure (value : Value) :
    wp (pure value : Exec Err State Value) post fails panics state ↔ post value state :=
  Iff.rfl

@[simp]
theorem wp_bind {program : Exec Err State Next} {next : Next → Exec Err State Value} :
    wp (program >>= next) post fails panics state ↔
      wp program (fun value => wp (next value) post fails panics) fails panics state := by
  simp only [wp, bind]
  cases program state <;> exact Iff.rfl

@[simp]
theorem wp_map {program : Exec Err State Next} {change : Next → Value} :
    wp (change <$> program) post fails panics state ↔
      wp program (fun value => post (change value)) fails panics state := by
  change wp (program >>= fun value => pure (change value)) post fails panics state ↔ _
  rw [wp_bind]
  exact Iff.rfl

@[simp]
theorem wp_read {post : State → State → Prop} :
    wp (read : Exec Err State State) post fails panics state ↔ post state state :=
  Iff.rfl

@[simp]
theorem wp_update {post : PUnit → State → Prop} (change : State → State) :
    wp (update change : Exec Err State PUnit) post fails panics state ↔
      post .unit (change state) :=
  Iff.rfl

@[simp]
theorem wp_raise (err : Err) :
    wp (raise err : Exec Err State Value) post fails panics state ↔ fails err state :=
  Iff.rfl

@[simp]
theorem wp_panic :
    wp (panic : Exec Err State Value) post fails panics state ↔ panics :=
  Iff.rfl

@[simp]
theorem wp_call {Part : Type u} (part : State → Part) (put : State → Part → State)
    (operation : Part → Value × Part) :
    wp (call part put operation) post fails panics state ↔
      post (operation (part state)).1 (put state (operation (part state)).2) :=
  Iff.rfl

theorem wp_zoom {Part PartErr : Type u} {part : State → Part} {put : State → Part → State}
    {errOf : PartErr → Err} {program : Exec PartErr Part Value} :
    wp (zoom part put errOf program) post fails panics state ↔
      wp program (fun value after => post value (put state after))
        (fun err after => fails (errOf err) (put state after)) panics (part state) := by
  unfold wp zoom
  cases program (part state) <;> exact Iff.rfl

theorem wp_attempt {Err' : Type u} {program : Exec Err State Value}
    {post : Except Err Value → State → Prop} {fails : Err' → State → Prop} :
    wp (attempt program : Exec Err' State (Except Err Value)) post fails panics state ↔
      wp program (fun value => post (.ok value)) (fun err => post (.error err)) panics
        state := by
  unfold wp attempt
  cases program state <;> exact Iff.rfl

theorem wp_ofExcept {result : Except Err Value} :
    wp (ofExcept result : Exec Err State Value) post fails panics state ↔
      (∀ value, result = .ok value → post value state) ∧
        ∀ err, result = .error err → fails err state := by
  cases result <;> simp [ofExcept]

theorem wp_ite {condition : Prop} [Decidable condition]
    {first second : Exec Err State Value} :
    wp (if condition then first else second) post fails panics state ↔
      if condition then wp first post fails panics state
      else wp second post fails panics state := by
  split <;> exact Iff.rfl

/-- Consequence. -/
theorem wp.imp {program : Exec Err State Value} {post' : Value → State → Prop}
    {fails' : Err → State → Prop} {panics' : Prop}
    (hwp : wp program post fails panics state)
    (hpost : ∀ value after, post value after → post' value after)
    (hfails : ∀ err after, fails err after → fails' err after)
    (hpanics : panics → panics') : wp program post' fails' panics' state := by
  unfold wp at hwp ⊢
  cases hrun : program state with
  | ok value after => rw [hrun] at hwp; exact hpost value after hwp
  | error err after => rw [hrun] at hwp; exact hfails err after hwp
  | panic => rw [hrun] at hwp; exact hpanics hwp

/-- The other endings are left as they are. -/
theorem wp.imp_post {program : Exec Err State Value} {post' : Value → State → Prop}
    (hwp : wp program post fails panics state)
    (hpost : ∀ value after, post value after → post' value after) :
    wp program post' fails panics state :=
  hwp.imp hpost (fun _ _ hfails => hfails) fun hpanics => hpanics

theorem wp_any (program : Exec Err State Value) (state : State) :
    wp program (fun _ _ => True) (fun _ _ => True) True state := by
  rw [wp]
  split <;> trivial

/-- Two properties proved apart. -/
theorem wp.and {program : Exec Err State Value} {post' : Value → State → Prop}
    {fails' : Err → State → Prop} {panics' : Prop}
    (hleft : wp program post fails panics state)
    (hright : wp program post' fails' panics' state) :
    wp program (fun value after => post value after ∧ post' value after)
      (fun err after => fails err after ∧ fails' err after) (panics ∧ panics') state := by
  unfold wp at hleft hright ⊢
  cases hrun : program state with
  | ok value after => rw [hrun] at hleft hright; exact ⟨hleft, hright⟩
  | error err after => rw [hrun] at hleft hright; exact ⟨hleft, hright⟩
  | panic => rw [hrun] at hleft hright; exact ⟨hleft, hright⟩

/-- The outcome itself, kept beside what is proved about it. -/
theorem wp.attach {program : Exec Err State Value} (hwp : wp program post fails panics state) :
    wp program (fun value after => program.run state = .ok value after ∧ post value after)
      (fun err after => program.run state = .error err after ∧ fails err after) panics state := by
  rw [wp] at hwp ⊢
  rw [run]
  cases hrun : program state with
  | ok value after => rw [hrun] at hwp; exact ⟨rfl, hwp⟩
  | error err after => rw [hrun] at hwp; exact ⟨rfl, hwp⟩
  | panic => rw [hrun] at hwp; exact hwp

/-- An outcome that is known decides. -/
theorem wp_of_run_ok {program : Exec Err State Value} {value : Value} {after : State}
    (hrun : program.run state = .ok value after) (hpost : post value after) :
    wp program post fails panics state := by
  rw [run] at hrun
  rw [wp, hrun]
  exact hpost

theorem run_bind {program : Exec Err State Next} {next : Next → Exec Err State Value} :
    (program >>= next).run state =
      match program.run state with
      | .ok value middle => (next value).run middle
      | .error err middle => .error err middle
      | .panic => .panic := rfl

theorem run_bind_ok {program : Exec Err State Next} {next : Next → Exec Err State Value}
    {value : Next} {middle : State} (hrun : program.run state = .ok value middle) :
    (program >>= next).run state = (next value).run middle := by
  rw [run] at hrun
  simp only [run, bind, hrun]

theorem run_bind_eq_ok {program : Exec Err State Next} {next : Next → Exec Err State Value}
    {last : Value} {after : State} :
    (program >>= next).run state = .ok last after ↔
      ∃ value middle, program.run state = .ok value middle ∧
        (next value).run middle = .ok last after := by
  simp only [run, bind]
  cases program state with
  | ok value middle => simp
  | error err middle => simp
  | panic => simp

/-- A computation that cannot panic returns something. -/
theorem wp.exists_reply {program : Exec Err State Value}
    (hwp : wp program post fails False state) :
    ∃ result after, (program.run state).reply = some (result, after) ∧
      (∀ value, result = .ok value → post value after) ∧
        ∀ err, result = .error err → fails err after := by
  unfold wp at hwp
  rw [run]
  cases hrun : program state with
  | ok value after =>
      rw [hrun] at hwp
      refine ⟨.ok value, after, rfl, ?_, ?_⟩
      · intro _ heq
        cases heq
        exact hwp
      · exact fun _ heq => nomatch heq
  | error err after =>
      rw [hrun] at hwp
      refine ⟨.error err, after, rfl, ?_, ?_⟩
      · exact fun _ heq => nomatch heq
      · intro _ heq
        cases heq
        exact hwp
  | panic => rw [hrun] at hwp; exact hwp.elim

/-- A computation that can neither fail nor panic succeeds. -/
theorem wp.exists_ok {program : Exec Err State Value}
    (hwp : wp program post (fun _ _ => False) False state) :
    ∃ value after, program.run state = .ok value after ∧ post value after := by
  rw [wp] at hwp
  rw [run]
  cases hrun : program state with
  | ok value after => rw [hrun] at hwp; exact ⟨value, after, rfl, hwp⟩
  | error err after => rw [hrun] at hwp; exact hwp.elim
  | panic => rw [hrun] at hwp; exact hwp.elim

/-- A computation that can neither succeed nor panic fails. -/
theorem wp.exists_error {program : Exec Err State Value}
    (hwp : wp program (fun _ _ => False) fails False state) :
    ∃ err after, program.run state = .error err after ∧ fails err after := by
  rw [wp] at hwp
  rw [run]
  cases hrun : program state with
  | ok value after => rw [hrun] at hwp; exact hwp.elim
  | error err after => rw [hrun] at hwp; exact ⟨err, after, rfl, hwp⟩
  | panic => rw [hrun] at hwp; exact hwp.elim

theorem wp.of_run_ok {program : Exec Err State Value} {value : Value} {after : State}
    (hwp : wp program post fails panics state) (hrun : program.run state = .ok value after) :
    post value after := by
  unfold wp at hwp
  rw [run] at hrun
  rwa [hrun] at hwp

theorem wp.of_run_error {program : Exec Err State Value} {err : Err} {after : State}
    (hwp : wp program post fails panics state)
    (hrun : program.run state = .error err after) : fails err after := by
  unfold wp at hwp
  rw [run] at hrun
  rwa [hrun] at hwp

theorem wp.of_run_panic {program : Exec Err State Value}
    (hwp : wp program post fails panics state) (hrun : program.run state = .panic) : panics := by
  unfold wp at hwp
  rw [run] at hrun
  rwa [hrun] at hwp

/-- What every end has in common, whatever the end is. -/
theorem wp.of_reply {program : Exec Err State Value} {common : State → Prop}
    (hwp : wp program (fun _ => common) (fun _ => common) panics state)
    {result : Except Err Value} {after : State}
    (hreply : (program.run state).reply = some (result, after)) : common after := by
  unfold wp at hwp
  unfold run at hreply
  cases hrun : program state with
  | ok value other =>
      rw [hrun] at hwp hreply
      cases hreply
      exact hwp
  | error err other =>
      rw [hrun] at hwp hreply
      cases hreply
      exact hwp
  | panic =>
      rw [hrun] at hreply
      cases hreply

theorem run_read_bind (next : State → Exec Err State Value) :
    (read >>= next).run state = (next state).run state := rfl

theorem run_bind_error {program : Exec Err State Next} {next : Next → Exec Err State Value}
    {err : Err} {after : State} :
    (program >>= next).run state = .error err after ↔
      program.run state = .error err after ∨ ∃ value middle,
        program.run state = .ok value middle ∧ (next value).run middle = .error err after := by
  simp only [run, bind]
  cases program state with
  | ok value middle => simp
  | error err middle => simp
  | panic => simp

/-- What cannot fail does not decide whether the whole fails. -/
theorem run_bind_total_error {program : Exec Err State Next} {next : Next → Exec Err State Value}
    (hnext : ∀ value middle, wp (next value) (fun _ _ => True) (fun _ _ => False) True middle)
    {err : Err} {after : State} :
    (program >>= next).run state = .error err after ↔ program.run state = .error err after := by
  rw [run_bind_error, or_iff_left]
  rintro ⟨value, middle, -, herror⟩
  exact (hnext value middle).of_run_error herror

/-! ## Loops

A body run for each element of a list, until it fails.
-/

section Loops

variable {Item : Type*} {body : Item → Exec Err State PUnit}

def each (body : Item → Exec Err State PUnit) : List Item → Exec Err State PUnit
  | [] => pure ⟨⟩
  | item :: rest => do
      body item
      each body rest

theorem each_append (first last : List Item) :
    each body (first ++ last) = each body first >>= fun _ => each body last := by
  induction first with
  | nil => rfl
  | cons item rest ih =>
      rw [List.cons_append, each, each, ih, bind_assoc]

theorem run_each_append (first last : List Item) {middle : State}
    (hfirst : (each body first).run state = .ok ⟨⟩ middle) :
    (each body (first ++ last)).run state = (each body last).run middle := by
  induction first generalizing state with
  | nil =>
      cases hfirst
      rfl
  | cons item rest ih =>
      rw [List.cons_append]
      simp only [each] at hfirst ⊢
      cases hbody : (body item).run state with
      | ok value next =>
          rw [run_bind_ok hbody] at hfirst ⊢
          exact ih hfirst
      | error err next =>
          rw [run] at hbody hfirst
          simp only [bind, hbody] at hfirst
          cases hfirst
      | panic =>
          rw [run] at hbody hfirst
          simp only [bind, hbody] at hfirst
          cases hfirst

/-- A loop fails where its body first fails. -/
theorem run_each_error {items : List Item} {err : Err} {after : State} :
    (each body items).run state = .error err after ↔
      ∃ first item last middle, items = first ++ item :: last ∧
        (each body first).run state = .ok ⟨⟩ middle ∧
          (body item).run middle = .error err after := by
  constructor
  · intro hrun
    induction items generalizing state with
    | nil => cases hrun
    | cons item rest ih =>
        rw [each, run_bind_error] at hrun
        rcases hrun with hbody | ⟨value, middle, hbody, hrest⟩
        · exact ⟨[], item, rest, state, rfl, rfl, hbody⟩
        · obtain ⟨first, found, last, reached, hitems, hfirst, hfound⟩ := ih hrest
          refine ⟨item :: first, found, last, reached, by rw [hitems]; rfl, ?_, hfound⟩
          rw [each, run_bind_ok hbody]
          exact hfirst
  · rintro ⟨first, item, last, middle, rfl, hfirst, hitem⟩
    rw [run_each_append first _ hfirst, each, run_bind_error]
    exact .inl hitem

theorem range_split {i n : ℕ} (hlt : i < n) :
    ∃ rest, List.range n = List.range i ++ i :: rest := by
  obtain ⟨k, rfl⟩ := Nat.exists_eq_add_of_lt hlt
  refine ⟨(List.range k).map (i + Nat.succ ·), ?_⟩
  rw [Nat.add_assoc, List.range_add, List.range_succ_eq_map, List.map_cons, Nat.add_zero,
    List.map_map]
  rfl

variable {step : ℕ → Exec Err State PUnit}

/-- A counted loop fails at the first count its body fails at. -/
theorem run_each_range_error {n : ℕ} {err : Err} {after : State} :
    (each step (List.range n)).run state = .error err after ↔
      ∃ i < n, ∃ middle, (each step (List.range i)).run state = .ok ⟨⟩ middle ∧
        (step i).run middle = .error err after := by
  rw [run_each_error]
  constructor
  · rintro ⟨first, i, last, middle, hrange, hfirst, hi⟩
    have hlength : first.length < n := by
      have htotal := congrArg List.length hrange
      rw [List.length_range, List.length_append, List.length_cons] at htotal
      omega
    have hget : i = first.length := by
      have hat := congrArg (·[first.length]?) hrange
      simpa [hlength] using hat.symm
    have htake : first = List.range i := by
      have hprefix := congrArg (List.take first.length) hrange
      rw [List.take_left, List.take_range, min_eq_left hlength.le] at hprefix
      rw [hget]
      exact hprefix.symm
    exact ⟨i, hget ▸ hlength, middle, htake ▸ hfirst, hi⟩
  · rintro ⟨i, hlt, middle, hfirst, hi⟩
    obtain ⟨rest, hrange⟩ := range_split hlt
    exact ⟨List.range i, i, rest, middle, hrange, hfirst, hi⟩

/-- That count is unique. -/
theorem eq_of_run_each_range {i j : ℕ} {middle other : State} {err err' : Err}
    {after after' : State} (hleading : (each step (List.range i)).run state = .ok ⟨⟩ middle)
    (hi : (step i).run middle = .error err after)
    (hother : (each step (List.range j)).run state = .ok ⟨⟩ other)
    (hj : (step j).run other = .error err' after') : i = j := by
  rcases lt_trichotomy i j with hlt | heq | hgt
  · have hfails := run_each_range_error.mpr ⟨i, hlt, middle, hleading, hi⟩
    rw [hother] at hfails
    cases hfails
  · exact heq
  · have hfails := run_each_range_error.mpr ⟨j, hgt, other, hother, hj⟩
    rw [hleading] at hfails
    cases hfails

end Loops

/-! ## Relations between the start and the end

A relation between the state a computation starts in and every state it can end
in, successful or not.  If the relation is reflexive and transitive, a
computation keeps it as soon as its parts do.
-/

/-- Every state the computation can end in is related to its start. -/
def Keeps (related : State → State → Prop) (program : Exec Err State Value) : Prop :=
  ∀ state, wp program (fun _ after => related state after) (fun _ after => related state after)
    True state

/-- The relation of keeping an invariant. -/
def Preserving (invariant : State → Prop) (start after : State) : Prop :=
  invariant start → invariant after

instance (invariant : State → Prop) : IsPreorder State (Preserving invariant) where
  refl _ hstart := hstart
  trans _ _ _ hleft hright hstart := hright (hleft hstart)

namespace Keeps

variable {related : State → State → Prop} {program : Exec Err State Value}

/-- A part of a larger computation, which has got to `state` from `start`. -/
theorem wp_from [IsTrans State related] (hprogram : Keeps related program) {start : State}
    (hstart : related start state) :
    wp program (fun _ => related start) (fun _ => related start) True state :=
  (hprogram state).imp (fun _ _ hafter => trans_of related hstart hafter)
    (fun _ _ hafter => trans_of related hstart hafter) (fun hpanics => hpanics)

variable [IsPreorder State related]

protected theorem pure (value : Value) :
    Keeps related (Pure.pure value : Exec Err State Value) :=
  fun state => refl_of related state

protected theorem raise (err : Err) : Keeps related (raise err : Exec Err State Value) :=
  fun state => refl_of related state

protected theorem read : Keeps related (read : Exec Err State State) :=
  fun state => refl_of related state

protected theorem ofExcept (result : Except Err Value) :
    Keeps related (ofExcept result : Exec Err State Value) := by
  cases result with
  | ok value => exact Keeps.pure value
  | error err => exact Keeps.raise err

omit [IsPreorder State related] in
protected theorem update {change : State → State}
    (hchange : ∀ state, related state (change state)) :
    Keeps related (update change : Exec Err State PUnit) := hchange

protected theorem bind {program : Exec Err State Next} {next : Next → Exec Err State Value}
    (hprogram : Keeps related program) (hnext : ∀ value, Keeps related (next value)) :
    Keeps related (program >>= next) := by
  intro state
  rw [wp_bind]
  exact (hprogram state).imp_post fun value _ hmiddle => (hnext value).wp_from hmiddle

protected theorem each {Item : Type*} {body : Item → Exec Err State PUnit}
    (hbody : ∀ item, Keeps related (body item)) (items : List Item) :
    Keeps related (each body items) := by
  induction items with
  | nil => exact .pure _
  | cons item rest ih => exact .bind (hbody item) fun _ => ih

omit [IsPreorder State related] in
protected theorem map {program : Exec Err State Next} (hprogram : Keeps related program)
    (change : Next → Value) : Keeps related (change <$> program) := by
  intro state
  rw [wp_map]
  exact hprogram state

omit [IsPreorder State related] in
protected theorem ite {condition : Prop} [Decidable condition]
    {first second : Exec Err State Value} (hfirst : Keeps related first)
    (hsecond : Keeps related second) :
    Keeps related (if condition then first else second) := by
  split
  · exact hfirst
  · exact hsecond

omit [IsPreorder State related] in
/-- A computation on a part keeps what any change of that part keeps. -/
protected theorem zoom {Part PartErr : Type u} {part : State → Part}
    {put : State → Part → State} {errOf : PartErr → Err} {program : Exec PartErr Part Value}
    (hput : ∀ state after, related state (put state after)) :
    Keeps related (zoom part put errOf program) := by
  intro state
  rw [wp_zoom]
  unfold wp
  split
  · exact hput state _
  · exact hput state _
  · trivial

omit [IsPreorder State related] in
/-- A computation on a part keeps what the changes it makes of that part keep. -/
theorem zoom_of {Part PartErr : Type u} {part : State → Part} {put : State → Part → State}
    {errOf : PartErr → Err} {program : Exec PartErr Part Value}
    {partRelated : Part → Part → Prop} (hprogram : Keeps partRelated program)
    (hput : ∀ state after, partRelated (part state) after → related state (put state after)) :
    Keeps related (zoom part put errOf program) := by
  intro state
  rw [wp_zoom]
  exact (hprogram (part state)).imp (fun _ after hafter => hput state after hafter)
    (fun _ after hafter => hput state after hafter) (fun hpanics => hpanics)

omit [IsPreorder State related] in
protected theorem attempt {Err' : Type u} (hprogram : Keeps related program) :
    Keeps related (attempt program : Exec Err' State (Except Err Value)) := by
  intro state
  rw [wp_attempt]
  exact hprogram state

end Keeps

/-! ## What a failure leaves

A weaker property than `Keeps`, about the states a computation fails in only.
The steps that cannot fail may come last and change what they like.
-/

/-- A state the computation fails in is related to its start. -/
def Restores (related : State → State → Prop) (program : Exec Err State Value) : Prop :=
  ∀ state, wp program (fun _ _ => True) (fun _ after => related state after) True state

/-- The computation cannot fail. -/
def Total (program : Exec Err State Value) : Prop :=
  ∀ state, wp program (fun _ _ => True) (fun _ _ => False) True state

namespace Total

protected theorem pure (value : Value) : Total (Pure.pure value : Exec Err State Value) :=
  fun _ => trivial

protected theorem update (change : State → State) :
    Total (update change : Exec Err State PUnit) :=
  fun _ => trivial

protected theorem bind {program : Exec Err State Next} {next : Next → Exec Err State Value}
    (hprogram : Total program) (hnext : ∀ value, Total (next value)) :
    Total (program >>= next) := by
  intro state
  rw [wp_bind]
  exact (hprogram state).imp (fun value middle _ => hnext value middle)
    (fun _ _ hfalse => hfalse.elim) (fun hpanics => hpanics)

protected theorem ite {condition : Prop} [Decidable condition]
    {first second : Exec Err State Value} (hfirst : Total first) (hsecond : Total second) :
    Total (if condition then first else second) := by
  split
  · exact hfirst
  · exact hsecond

end Total

namespace Restores

variable {related : State → State → Prop} {program : Exec Err State Value}

theorem of_keeps (hkeeps : Keeps related program) : Restores related program :=
  fun state => (hkeeps state).imp_post fun _ _ _ => trivial

theorem of_total (htotal : Total program) : Restores related program :=
  fun state => (htotal state).imp (fun _ _ _ => trivial) (fun _ _ hfalse => hfalse.elim)
    (fun hpanics => hpanics)

protected theorem raise [IsPreorder State related] (err : Err) :
    Restores related (raise err : Exec Err State Value) :=
  .of_keeps (.raise err)

/-- The first part keeps the relation, so that the second may fail. -/
protected theorem bind [IsTrans State related] {program : Exec Err State Next}
    {next : Next → Exec Err State Value} (hprogram : Keeps related program)
    (hnext : ∀ value, Restores related (next value)) : Restores related (program >>= next) := by
  intro state
  rw [wp_bind]
  exact (hprogram state).imp
    (fun value middle hmiddle => (hnext value middle).imp (fun _ _ _ => trivial)
      (fun _ _ hafter => trans_of related hmiddle hafter) (fun hpanics => hpanics))
    (fun _ _ hafter => hafter) (fun hpanics => hpanics)

/-- The second part cannot fail, so that the first may keep nothing. -/
theorem bind_total {program : Exec Err State Next} {next : Next → Exec Err State Value}
    (hprogram : Restores related program) (hnext : ∀ value, Total (next value)) :
    Restores related (program >>= next) := by
  intro state
  rw [wp_bind]
  exact (hprogram state).imp
    (fun value middle _ => (hnext value middle).imp (fun _ _ _ => trivial)
      (fun _ _ hfalse => hfalse.elim) (fun hpanics => hpanics))
    (fun _ _ hafter => hafter) (fun hpanics => hpanics)

protected theorem ite {condition : Prop} [Decidable condition]
    {first second : Exec Err State Value} (hfirst : Restores related first)
    (hsecond : Restores related second) :
    Restores related (if condition then first else second) := by
  split
  · exact hfirst
  · exact hsecond

end Restores

/-! ## Excused failures -/

/-- Every state the computation can end in is related to its start, unless it
failed in an excused way. -/
def KeepsUnless (excused : Err → Prop) (related : State → State → Prop)
    (program : Exec Err State Value) : Prop :=
  ∀ state, wp program (fun _ after => related state after)
    (fun err after => excused err ∨ related state after) True state

namespace KeepsUnless

variable {excused : Err → Prop} {related : State → State → Prop} {program : Exec Err State Value}

theorem of_keeps (hkeeps : Keeps related program) : KeepsUnless excused related program :=
  fun state => (hkeeps state).imp (fun _ _ hafter => hafter) (fun _ _ hafter => .inr hafter)
    (fun hpanics => hpanics)

/-- A part of a larger computation, which has got to `state` from `start`. -/
theorem wp_from [IsTrans State related] (hprogram : KeepsUnless excused related program)
    {start : State} (hstart : related start state) :
    wp program (fun _ => related start) (fun err after => excused err ∨ related start after) True
      state :=
  (hprogram state).imp (fun _ _ hafter => trans_of related hstart hafter)
    (fun _ _ hafter => hafter.imp_right fun hafter => trans_of related hstart hafter)
    (fun hpanics => hpanics)

protected theorem bind [IsTrans State related] {program : Exec Err State Next}
    {next : Next → Exec Err State Value} (hprogram : KeepsUnless excused related program)
    (hnext : ∀ value, KeepsUnless excused related (next value)) :
    KeepsUnless excused related (program >>= next) := by
  intro state
  rw [wp_bind]
  exact (hprogram state).imp_post fun value _ hmiddle => (hnext value).wp_from hmiddle

end KeepsUnless

end Exec

end Baonix

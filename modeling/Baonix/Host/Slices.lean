import Baonix.Host.Confinement

/-!
# Slices of a run

A run cut into slices is the run: `run_until` with a budget in two parts does
what it does with the whole, and the loop of `boot_capturing_frames`, which looks
at the console between slices, stops where the run itself would be.
-/

namespace Baonix.Host

open Baonix.Core Baonix.LittleEndian

namespace RunOutcome

def executed : RunOutcome → ℕ
  | .shutdown executed => executed
  | .capped executed => executed
  | .backingFailure executed _ => executed
  | .machineTrap executed _ _ _ => executed

def withExecuted (executed : ℕ) : RunOutcome → RunOutcome
  | .shutdown _ => .shutdown executed
  | .capped _ => .capped executed
  | .backingFailure _ addr => .backingFailure executed addr
  | .machineTrap _ mcause mepc mtval => .machineTrap executed mcause mepc mtval

/-- The outcome of a later slice, counted from the start of the run. -/
def after (executed : ℕ) (outcome : RunOutcome) : RunOutcome :=
  outcome.withExecuted (executed + outcome.executed)

end RunOutcome

variable {B S : Type} [MemBacking B] [ConsoleSink S]

/-! ## The turns of a run -/

/-- A turn of `run_until`, and what follows an instruction that completed. -/
def turn (executed : ℕ) (next : Exec Empty (Machine B S) RunOutcome) :
    Exec Empty (Machine B S) RunOutcome := do
  Exec.update Machine.interrupted
  match ← Machine.stepTrapping with
  | .ok .shutdown => pure (.shutdown (executed + 1))
  | .ok .handled => do
      Exec.update (Machine.ticked 1)
      next
  | .error addr => pure (.backingFailure executed addr)

theorem run_runUntil_succ {m : Machine B S} (hruns : ¬ deadEnd m.cpu) (left executed : ℕ) :
    (runUntil (left + 1) executed).run m =
      (turn executed (runUntil left (executed + 1))).run m := by
  have hread : (Exec.read : Exec Empty (Machine B S) (Machine B S)).run m = .ok m m := rfl
  rw [runUntil, Exec.run_bind_ok hread, if_neg hruns]
  rfl

theorem run_runUntil_zero {m : Machine B S} (hruns : ¬ deadEnd m.cpu) (executed : ℕ) :
    (runUntil 0 executed).run m = .ok (.capped executed) m := by
  have hread : (Exec.read : Exec Empty (Machine B S) (Machine B S)).run m = .ok m m := rfl
  rw [runUntil, Exec.run_bind_ok hread, if_neg hruns]
  rfl

/-- How a turn ends: the guest shuts down, its memory fails, or the rest of the
run follows. -/
theorem run_turn (executed : ℕ) (next : Exec Empty (Machine B S) RunOutcome) (m : Machine B S) :
    (turn executed next).run m =
      match Machine.stepTrapping.run m.interrupted with
      | .ok (.ok .shutdown) middle => .ok (.shutdown (executed + 1)) middle
      | .ok (.ok .handled) middle => next.run (middle.ticked 1)
      | .ok (.error addr) middle => .ok (.backingFailure executed addr) middle
      | .error err _ => err.elim
      | .panic => .panic := by
  have hupdate : (Exec.update Machine.interrupted : Exec Empty (Machine B S) PUnit).run m =
      .ok .unit m.interrupted := rfl
  rw [turn, Exec.run_bind_ok hupdate]
  cases hstep : Machine.stepTrapping.run m.interrupted with
  | ok result middle =>
      rw [Exec.run_bind_ok hstep]
      cases result with
      | ok outcome => cases outcome <;> rfl
      | error addr => rfl
  | error err middle => exact err.elim
  | panic =>
      rw [Exec.run] at hstep ⊢
      simp only [bind, hstep]

/-! ## Budgets in two parts -/

/-- What a run does once its first budget is spent. -/
def continued (left : ℕ) : RunOutcome → Exec Empty (Machine B S) RunOutcome
  | .capped executed => runUntil left executed
  | outcome => pure outcome

theorem turn_continued (executed left : ℕ) (next : Exec Empty (Machine B S) RunOutcome)
    (m : Machine B S) :
    (turn executed next >>= continued left).run m =
      (turn executed (next >>= continued left)).run m := by
  rw [Exec.run_bind, run_turn, run_turn]
  cases Machine.stepTrapping.run m.interrupted with
  | ok result middle =>
      cases result with
      | ok outcome => cases outcome <;> rfl
      | error addr => rfl
  | error err middle => exact err.elim
  | panic => rfl

/-- **A budget in two parts** is spent like the whole. -/
theorem runUntil_add (first second executed : ℕ) :
    (runUntil (first + second) executed : Exec Empty (Machine B S) RunOutcome) =
      runUntil first executed >>= continued second := by
  funext m
  change (runUntil (first + second) executed).run m =
    (runUntil first executed >>= continued second).run m
  induction first generalizing executed m with
  | zero =>
      rw [Nat.zero_add, Exec.run_bind]
      by_cases hdead : deadEnd m.cpu
      · rw [runUntil_deadEnd hdead, runUntil_deadEnd hdead]
        rfl
      · rw [run_runUntil_zero hdead]
        rfl
  | succ first ih =>
      by_cases hdead : deadEnd m.cpu
      · rw [Exec.run_bind, runUntil_deadEnd hdead, runUntil_deadEnd hdead]
        rfl
      · have hrest : (runUntil (first + second) (executed + 1) :
            Exec Empty (Machine B S) RunOutcome) =
              runUntil first (executed + 1) >>= continued second :=
          funext fun middle => ih (executed + 1) middle
        calc (runUntil (first + 1 + second) executed).run m
            = (turn executed (runUntil (first + second) (executed + 1))).run m := by
              rw [Nat.add_right_comm, run_runUntil_succ hdead]
          _ = (turn executed (runUntil first (executed + 1) >>= continued second)).run m := by
              rw [hrest]
          _ = (turn executed (runUntil first (executed + 1)) >>= continued second).run m :=
              (turn_continued ..).symm
          _ = (runUntil (first + 1) executed >>= continued second).run m := by
              rw [Exec.run_bind, Exec.run_bind, run_runUntil_succ hdead]

/-- A run that starts with some instructions counted ends as the run that starts
with none, with these added. -/
theorem runUntil_counted (left executed : ℕ) :
    (runUntil left executed : Exec Empty (Machine B S) RunOutcome) =
      RunOutcome.after executed <$> runUntil left 0 := by
  suffices hshift : ∀ (count : ℕ) (m : Machine B S), (runUntil left (executed + count)).run m =
      (RunOutcome.after executed <$> runUntil left count).run m from
    funext fun m => hshift 0 m
  intro count m
  change _ = (runUntil left count >>= fun outcome => pure (outcome.after executed)).run m
  induction left generalizing count m with
  | zero =>
      rw [Exec.run_bind]
      by_cases hdead : deadEnd m.cpu
      · rw [runUntil_deadEnd hdead, runUntil_deadEnd hdead]
        rfl
      · rw [run_runUntil_zero hdead, run_runUntil_zero hdead]
        rfl
  | succ left ih =>
      rw [Exec.run_bind]
      by_cases hdead : deadEnd m.cpu
      · rw [runUntil_deadEnd hdead, runUntil_deadEnd hdead]
        rfl
      · rw [run_runUntil_succ hdead, run_runUntil_succ hdead, run_turn, run_turn]
        cases Machine.stepTrapping.run m.interrupted with
        | ok result middle =>
            cases result with
            | ok outcome =>
                cases outcome with
                | handled => exact ih (count + 1) (middle.ticked 1)
                | shutdown => rfl
            | error addr => rfl
        | error err middle => exact err.elim
        | panic => rfl

/-- A second run after the first, with the counts summed. -/
def resumed (left : ℕ) : RunOutcome → Exec Empty (Machine B S) RunOutcome
  | .capped executed => RunOutcome.after executed <$> runUntil left 0
  | outcome => pure outcome

theorem continued_eq_resumed (left : ℕ) :
    (continued left : RunOutcome → Exec Empty (Machine B S) RunOutcome) = resumed left := by
  funext outcome
  cases outcome with
  | capped executed => exact runUntil_counted left executed
  | shutdown executed => rfl
  | backingFailure executed addr => rfl
  | machineTrap executed mcause mepc mtval => rfl

/-- A run ends within its budget, and if it is cut off it has spent it. -/
theorem runUntil_executed (left executed : ℕ) (m : Machine B S) :
    Exec.wp (runUntil left executed)
      (fun outcome _ => outcome.executed ≤ executed + left ∧
        ∀ total, outcome = .capped total → total = executed + left)
      (fun _ _ => True) True m := by
  induction left generalizing executed m with
  | zero =>
      by_cases hdead : deadEnd m.cpu
      · apply Exec.wp_of_run_ok (runUntil_deadEnd hdead 0 executed)
        exact ⟨Nat.le_refl _, fun _ heq => by cases heq⟩
      · apply Exec.wp_of_run_ok (run_runUntil_zero hdead executed)
        exact ⟨Nat.le_refl _, fun _ heq => (RunOutcome.capped.inj heq).symm⟩
  | succ left ih =>
      by_cases hdead : deadEnd m.cpu
      · apply Exec.wp_of_run_ok (runUntil_deadEnd hdead (left + 1) executed)
        exact ⟨Nat.le_add_right _ _, fun _ heq => by cases heq⟩
      · have hrun := run_runUntil_succ hdead left executed
        rw [run_turn] at hrun
        rw [Exec.run] at hrun
        rw [Exec.wp, hrun]
        cases Machine.stepTrapping.run m.interrupted with
        | ok result middle =>
            cases result with
            | ok outcome =>
                cases outcome with
                | handled =>
                    have hrest := ih (executed + 1) (middle.ticked 1)
                    rw [Nat.add_right_comm] at hrest
                    exact hrest
                | shutdown =>
                    exact ⟨Nat.add_le_add_left (Nat.le_add_left 1 left) _, fun _ heq => by cases heq⟩
            | error addr => exact ⟨Nat.le_add_right _ _, fun _ heq => by cases heq⟩
        | error err middle => trivial
        | panic => trivial

/-! ## Slices -/

/-- `CONSOLE_POLL_INSNS`. -/
def consolePollInsns : ℕ := 100000

/-- `console_reached`: the marker was printed, and where the next search starts. -/
def consoleReached (out marker : List Byte) (scanned : ℕ) : Bool × ℕ :=
  if marker = [] then (false, scanned)
  else (marker <:+: out.drop scanned, out.length - (marker.length - 1))

/-- The loop of `boot_capturing_frames`, with what is left of the budget: the
ending, unless the marker was printed, and the instructions executed. -/
def bootLoop (marker : List Byte) (left executed scanned : ℕ) :
    Exec Empty (Machine B (List Byte)) (Option RunOutcome × ℕ) :=
  if _hspent : left = 0 then pure (some (.capped executed), executed)
  else do
    let slice ← runUntil (min consolePollInsns left) 0
    match slice with
    | .capped _ => do
        let found := consoleReached (← Exec.read).bus.uart.sink marker scanned
        if found.1 then pure (none, executed + slice.executed)
        else bootLoop marker (left - min consolePollInsns left) (executed + slice.executed) found.2
    | _ => pure (some (slice.after executed), executed + slice.executed)
termination_by left
decreasing_by
  rw [consolePollInsns]
  omega

section BootLoop

variable {B : Type} [MemBacking B]

/-- What the loop makes of a run: it ends as the run does, or stops in a state
the run gets to. -/
def Sliced (left executed : ℕ) (m : Machine B (List Byte)) (result : Option RunOutcome × ℕ)
    (final : Machine B (List Byte)) : Prop :=
  match result.1 with
  | some ending =>
      if left = 0 then ending = .capped executed ∧ final = m
      else (runUntil left executed).run m = .ok ending final
  | none => ∃ spent ≤ left, result.2 = executed + spent ∧
      (runUntil spent executed).run m = .ok (.capped (executed + spent)) final

/-- A run from the end of a first slice, seen from its start. -/
theorem runUntil_of_slice {budget left executed : ℕ} {m middle : Machine B (List Byte)}
    {outcome : RunOutcome} (hbudget : budget ≤ left)
    (hslice : (runUntil budget executed).run m = .ok outcome middle) :
    (runUntil left executed).run m = (continued (left - budget) outcome).run middle := by
  calc (runUntil left executed).run m
      = (runUntil budget executed >>= continued (left - budget)).run m := by
        rw [← runUntil_add, Nat.add_sub_cancel' hbudget]
    _ = (continued (left - budget) outcome).run middle := Exec.run_bind_ok hslice

theorem Sliced.of_slice {budget left executed : ℕ} {m middle final : Machine B (List Byte)}
    {result : Option RunOutcome × ℕ} (hleft : left ≠ 0) (hbudget : budget ≤ left)
    (hslice : (runUntil budget executed).run m = .ok (.capped (executed + budget)) middle)
    (hsliced : Sliced (left - budget) (executed + budget) middle result final) :
    Sliced left executed m result final := by
  obtain ⟨ending, total⟩ := result
  cases ending with
  | some ending =>
      simp only [Sliced, if_neg hleft] at hsliced ⊢
      by_cases hrest : left - budget = 0
      · rw [if_pos hrest] at hsliced
        rw [hsliced.1, hsliced.2, ← hslice, show left = budget by omega]
      · rw [if_neg hrest] at hsliced
        rw [runUntil_of_slice hbudget hslice]
        exact hsliced
  | none =>
      obtain ⟨spent, hspent, htotal, hrun⟩ := hsliced
      refine ⟨budget + spent, by omega, htotal.trans (Nat.add_assoc ..), ?_⟩
      rw [runUntil_of_slice (Nat.le_add_right ..) hslice, Nat.add_sub_cancel_left, ← Nat.add_assoc]
      exact hrun

/-- **Slicing is invisible**: the loop of `boot_capturing_frames` ends as
`run_until` with the whole budget, or stops at the marker where a smaller budget
would have stopped it. -/
theorem bootLoop_invisible (marker : List Byte) (left executed scanned : ℕ)
    (m : Machine B (List Byte)) :
    Exec.wp (bootLoop marker left executed scanned) (Sliced left executed m) (fun _ _ => True)
      True m := by
  induction left using Nat.strongRecOn generalizing executed scanned m with
  | _ left ih =>
      rw [bootLoop]
      by_cases hspent : left = 0
      · rw [dif_pos hspent, Exec.wp_pure, Sliced]
        dsimp only
        rw [if_pos hspent]
        exact ⟨rfl, rfl⟩
      rw [dif_neg hspent, Exec.wp_bind]
      have hbudget : min consolePollInsns left ≤ left := min_le_right _ _
      apply ((runUntil_executed (min consolePollInsns left) 0 m).attach).imp
      · rintro slice middle ⟨hslice, -, hcapped⟩
        have hcounted : (runUntil (min consolePollInsns left) executed).run m =
            .ok (slice.after executed) middle := by
          rw [runUntil_counted]
          exact Exec.run_bind_ok hslice
        have hended (hstops : ∀ total, slice ≠ .capped total) :
            Sliced left executed m (some (slice.after executed), executed + slice.executed)
              middle := by
          rw [Sliced]
          dsimp only
          rw [if_neg hspent, runUntil_of_slice hbudget hcounted]
          cases slice with
          | capped total => exact absurd rfl (hstops total)
          | shutdown total => rfl
          | backingFailure total addr => rfl
          | machineTrap total mcause mepc mtval => rfl
        cases slice with
        | capped total =>
            obtain rfl : total = min consolePollInsns left := by simpa using hcapped total rfl
            dsimp only
            rw [Exec.wp_bind, Exec.wp_read, Exec.wp_ite]
            split
            · exact ⟨_, hbudget, rfl, hcounted⟩
            · have hless : left - min consolePollInsns left < left := by
                rw [consolePollInsns]
                omega
              apply (ih _ hless _ _ middle).imp
              · exact fun result final hsliced => hsliced.of_slice hspent hbudget hcounted
              · exact fun _ _ _ => trivial
              · exact fun hpanics => hpanics
        | shutdown total => exact hended fun _ heq => nomatch heq
        | backingFailure total addr => exact hended fun _ heq => nomatch heq
        | machineTrap total mcause mepc mtval => exact hended fun _ heq => nomatch heq
      · exact fun _ _ _ => trivial
      · exact fun hpanics => hpanics

end BootLoop

end Baonix.Host

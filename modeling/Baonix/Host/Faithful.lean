import Baonix.Core.BackingFailures
import Baonix.Core.Mirrored
import Baonix.Host.Confinement
import Baonix.Host.Slices

/-!
# What a failing memory can do to a run

A guest on memory that may fail does what it would do on memory that does not,
instruction by instruction and byte of output by byte of output, up to the
failure the run loop reports.
-/

namespace Baonix.Host

open Baonix.Core Baonix.Core.Machine
open PageCache (FailsAt)

variable {B B' S : Type} [FlatBacking B] [FlatBacking B'] [ConsoleSink S]

/-- Both runs end the same way and the machines still mirror each other. -/
def EndsAlike (left executed : ℕ) (m : Machine B S) (m' : Machine B' S) : Prop :=
  ∃ outcome after after', (runUntil left executed).run m = .ok outcome after ∧
    (runUntil left executed).run m' = .ok outcome after' ∧ after.Mirrors after'

/-- The first run stops at a failure of the backing.  What it had executed the
other run executes too, and the machines mirror each other then; the failed
instruction leaves the registers alone. -/
def StopsMidway (left executed : ℕ) (m : Machine B S) (m' : Machine B' S) : Prop :=
  ∃ done addr last last' after, done < left ∧
    (runUntil done executed).run m = .ok (.capped (executed + done)) last ∧
    (runUntil done executed).run m' = .ok (.capped (executed + done)) last' ∧
    last.Mirrors last' ∧
    (runUntil left executed).run m = .ok (.backingFailure (executed + done) addr) after ∧
    FailsAt addr last.bus.cache after.bus.cache ∧ SameCore last.interrupted after

theorem EndsAlike.of_turn {left executed : ℕ} {m middle : Machine B S} {m' middle' : Machine B' S}
    (hruns : ¬ deadEnd m.cpu) (hruns' : ¬ deadEnd m'.cpu)
    (hstep : stepTrapping.run m.interrupted = .ok (.ok .handled) middle)
    (hstep' : stepTrapping.run m'.interrupted = .ok (.ok .handled) middle')
    (hrest : EndsAlike left (executed + 1) (middle.ticked 1) (middle'.ticked 1)) :
    EndsAlike (left + 1) executed m m' := by
  obtain ⟨outcome, after, after', hrun, hrun', hafter⟩ := hrest
  refine ⟨outcome, after, after', ?_, ?_, hafter⟩
  · rw [run_runUntil_succ hruns, run_turn, hstep]
    exact hrun
  · rw [run_runUntil_succ hruns', run_turn, hstep']
    exact hrun'

theorem StopsMidway.of_turn {left executed : ℕ} {m middle : Machine B S}
    {m' middle' : Machine B' S} (hruns : ¬ deadEnd m.cpu) (hruns' : ¬ deadEnd m'.cpu)
    (hstep : stepTrapping.run m.interrupted = .ok (.ok .handled) middle)
    (hstep' : stepTrapping.run m'.interrupted = .ok (.ok .handled) middle')
    (hrest : StopsMidway left (executed + 1) (middle.ticked 1) (middle'.ticked 1)) :
    StopsMidway (left + 1) executed m m' := by
  obtain ⟨done, addr, last, last', after, hdone, hreached, hreached', hlast, hrun, hend⟩ := hrest
  have hcount : executed + 1 + done = executed + (done + 1) := by omega
  rw [hcount] at hreached hreached' hrun
  refine ⟨done + 1, addr, last, last', after, by omega, ?_, ?_, hlast, ?_, hend⟩
  · rw [run_runUntil_succ hruns, run_turn, hstep]
    exact hreached
  · rw [run_runUntil_succ hruns', run_turn, hstep']
    exact hreached'
  · rw [run_runUntil_succ hruns, run_turn, hstep]
    exact hrun

/-- The next step fails: the run stops here, with the machines mirroring. -/
theorem StopsMidway.of_failure {left executed : ℕ} {m after : Machine B S} {m' : Machine B' S}
    (hm : m.Mirrors m') (hruns : ¬ deadEnd m.cpu) {addr : BitVec 64}
    (hstep : stepTrapping.run m.interrupted = .ok (.error addr) after) :
    StopsMidway (left + 1) executed m m' := by
  have hruns' : ¬ deadEnd m'.cpu := by
    rw [← hm.cpu]
    exact hruns
  have hreported := stepTrapping_reported hstep
  obtain ⟨_, ⟨⟩, hfails, hcore⟩ | ⟨_, ⟨⟩, _⟩ := hreported
  refine ⟨0, addr, m, m', after, Nat.succ_pos _, run_runUntil_zero hruns _,
    run_runUntil_zero hruns' _, hm, ?_, hfails, hcore⟩
  rw [run_runUntil_succ hruns, run_turn, hstep]
  rfl

/-- A step stopped by its backing is reported by `step_trapping`. -/
theorem stepTrapping_of_fromBacking {m after : Machine B S} {err : Exception}
    (hstep : (Machine.step : MachineM B S _).run m = .error err after) (herr : err.FromBacking) :
    ∃ addr, stepTrapping.run m = .ok (.error addr) after := by
  obtain ⟨addr, rfl⟩ := herr
  refine ⟨addr, ?_⟩
  have hattempt : (Exec.attempt Machine.step : Exec Empty (Machine B S) _).run m =
      .ok (.error (.backingFailure addr)) after := by
    simp only [Exec.run, Exec.attempt] at hstep ⊢
    rw [hstep]
  rw [stepTrapping, Exec.run_bind_ok hattempt]
  rfl

/-- **A run on memory that may fail** is the run on memory that does not, or its
beginning: it stops only where an access of the backing failed. -/
theorem run_faithful (hB' : ¬ Fallible B') {m : Machine B S} {m' : Machine B' S}
    (hm : m.Mirrors m') (left executed : ℕ) :
    EndsAlike left executed m m' ∨ StopsMidway left executed m m' := by
  induction left generalizing executed m m' with
  | zero =>
      by_cases hdead : deadEnd m.cpu
      · have hdead' := hdead
        rw [hm.cpu] at hdead'
        refine .inl ⟨_, m, m', runUntil_deadEnd hdead 0 executed, ?_, hm⟩
        rw [runUntil_deadEnd hdead', hm.cpu]
      · have hruns' := hdead
        rw [hm.cpu] at hruns'
        exact .inl ⟨_, m, m', run_runUntil_zero hdead _, run_runUntil_zero hruns' _, hm⟩
  | succ left ih =>
      by_cases hdead : deadEnd m.cpu
      · have hdead' := hdead
        rw [hm.cpu] at hdead'
        refine .inl ⟨_, m, m', runUntil_deadEnd hdead _ executed, ?_, hm⟩
        rw [runUntil_deadEnd hdead', hm.cpu]
      have hruns' := hdead
      rw [hm.cpu] at hruns'
      rcases (coupling_mirrors hB').stepTrapping hm.interrupted with
        ⟨err, after, hstep, herr⟩ | halike
      · obtain ⟨addr, hstep⟩ := stepTrapping_of_fromBacking hstep herr
        exact .inr (.of_failure hm hdead hstep)
      obtain ⟨reply, middle, middle', hstep, hstep', hmiddle⟩ := halike.exists_ok
      cases reply with
      | error addr => exact .inr (.of_failure hm hdead hstep)
      | ok outcome =>
          cases outcome with
          | handled =>
              exact (ih (hmiddle.ticked 1) (executed + 1)).imp
                (.of_turn hdead hruns' hstep hstep') (.of_turn hdead hruns' hstep hstep')
          | shutdown =>
              refine .inl ⟨.shutdown (executed + 1), middle, middle', ?_, ?_, hmiddle⟩
              · rw [run_runUntil_succ hdead, run_turn, hstep]
              · rw [run_runUntil_succ hruns', run_turn, hstep']

/-- The guest of `storeAcross` on memory that never fails. -/
def storeKept : Machine FakeBacking (List LittleEndian.Byte) :=
  overPages (firstPage [0x0020B023]) storeAcross.cpu

theorem storeAcross_mirrors : storeAcross.Mirrors storeKept := by
  refine ⟨rfl, ⟨flat (firstPage [0x0020B023]), ?_, Sv39.holds_busOver _⟩, rfl, rfl⟩
  have hnew : PageCache.new (⟨firstPage [0x0020B023], 0⟩ : WriteOnlyFails) 1 =
      some storeAcross.bus.cache := rfl
  exact holds_new hnew

/-- The store that crosses into a page the full cache cannot take stops the run
before anything has been executed. -/
theorem run_faithful_storeAcross : StopsMidway 1 0 storeAcross storeKept := by
  have hfailed : ((runUntil 1 0).run storeAcross).value =
      some (.backingFailure 0 0x80002000) := by decide +kernel
  have hkept : ((runUntil 1 0).run storeKept).value = some (.capped 1) := by decide +kernel
  refine (run_faithful not_fallible_fakeBacking storeAcross_mirrors 1 0).resolve_left ?_
  rintro ⟨outcome, after, after', hrun, hrun', -⟩
  rw [hrun] at hfailed
  rw [hrun'] at hkept
  cases hfailed
  cases hkept

end Baonix.Host

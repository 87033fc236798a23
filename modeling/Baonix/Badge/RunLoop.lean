import Baonix.Badge.Run
import Baonix.Core.Alike
import Baonix.Host.Slices

/-!
# The two run loops agree

What the badge does between slices the guest cannot see, as long as no console
input arrives.  So a run of the badge, cut into slices of any length, takes the
guest where `run_until` takes it, and reports the ending `run_until` reports
unless the budget was spent.
-/

namespace Baonix.Core

open PageCache (Holds)

/-- The guest sees no difference. -/
structure Bus.Unseen {B S : Type} [FlatBacking B] (bus after : Bus B S) : Prop where
  holds : ∀ m, Holds m bus.cache → Holds m after.cache
  clint : after.clint = bus.clint
  uart : after.uart.registers = bus.uart.registers

structure Machine.Unseen {B S : Type} [FlatBacking B] (m after : Machine B S) : Prop where
  cpu : after.cpu = m.cpu
  bus : m.bus.Unseen after.bus

namespace Machine

variable {B S : Type} [FlatBacking B]

theorem Unseen.refl (m : Machine B S) : Unseen m m := ⟨rfl, fun _ hm => hm, rfl, rfl⟩

theorem Unseen.trans {m middle after : Machine B S} (hleft : Unseen m middle)
    (hright : Unseen middle after) : Unseen m after where
  cpu := hright.cpu.trans hleft.cpu
  bus := {
    holds := fun memory hm => hright.bus.holds memory (hleft.bus.holds memory hm)
    clint := hright.bus.clint.trans hleft.bus.clint
    uart := hright.bus.uart.trans hleft.bus.uart }

theorem Unseen.matches {B' S' : Type} [FlatBacking B'] {m after : Machine B S}
    {m' : Machine B' S'} (hunseen : Unseen m after) (hm : Matches m' m) : Matches m' after := by
  obtain ⟨memory, hmemory', hmemory⟩ := hm.bus.ram
  exact ⟨hm.cpu.trans hunseen.cpu.symm, ⟨memory, hmemory', hunseen.bus.holds memory hmemory⟩,
    hm.bus.clint.trans hunseen.bus.clint.symm, hm.bus.uart.trans hunseen.bus.uart.symm⟩

end Machine

end Baonix.Core

namespace Baonix.Badge

open Baonix.Core Baonix.LittleEndian
open Baonix.Host (deadEnd RunOutcome runUntil continued)
open FlatBacking (contents)
open PageCache (Holds)

/-- No console input arrives, and the link's own calls leave the pages alone. -/
structure Idle (B : Type) {Fault : Type} [FlatBacking B] [Link B Fault] : Prop where
  pump : ∀ backing : B, contents (Link.pump backing).2 = contents backing
  takeConsole : ∀ backing : B, (Link.takeConsole backing).1 = [] ∧
    contents (Link.takeConsole backing).2 = contents backing
  sendConsole : ∀ out (backing : B), contents (Link.sendConsole out backing).2 = contents backing
  takeFault : ∀ backing : B, contents (Link.takeFault backing).2 = contents backing

/-- The watch always continues, and leaves the guest alone. -/
def Patient {B S W : Type} [FlatBacking B] (watch : Watch B S W) : Prop :=
  ∀ w bus executed, (watch w bus executed).1 = true ∧
    bus.Unseen (watch w bus executed).2.2

/-! ## Between slices -/

section Unnoticed

variable {B S Value Next : Type} [FlatBacking B]

/-- The computation succeeds, and the guest sees no difference. -/
def Unnoticed (program : RunM B S Value) : Prop :=
  ∀ m, Exec.wp program (fun _ after => m.Unseen after) (fun _ _ => False) False m

namespace Unnoticed

/-- A part of a larger computation, which has got from `m` to `middle`. -/
theorem wp_from {program : RunM B S Value} (hprogram : Unnoticed program) {m middle : Machine B S}
    (hmiddle : m.Unseen middle) :
    Exec.wp program (fun _ after => m.Unseen after) (fun _ _ => False) False middle :=
  (hprogram middle).imp_post (fun _ _ hafter => hmiddle.trans hafter)

protected theorem pure (value : Value) : Unnoticed (pure value : RunM B S Value) :=
  fun m => .refl m

protected theorem bind {program : RunM B S Next} {next : Next → RunM B S Value}
    (hprogram : Unnoticed program) (hnext : ∀ value, Unnoticed (next value)) :
    Unnoticed (program >>= next) := by
  intro m
  rw [Exec.wp_bind]
  exact (hprogram m).imp_post (fun value _ hmiddle => (hnext value).wp_from hmiddle)

/-- An operation of the link that leaves the pages alone. -/
theorem onLink {operation : B → Value × B}
    (hoperation : ∀ backing, contents (operation backing).2 = contents backing) :
    Unnoticed (Badge.onLink operation : RunM B S Value) :=
  fun _ => ⟨rfl, fun _ hm => hm.with_backing (hoperation _), rfl, rfl⟩

/-- The guest does not see the sink. -/
theorem onSink (operation : S → Value × S) :
    Unnoticed (Badge.onSink operation : RunM B S Value) :=
  fun _ => ⟨rfl, fun _ hm => hm, rfl, rfl⟩

end Unnoticed

end Unnoticed

section Service

variable {B S Fault : Type} [FlatBacking B] [Link B Fault]

theorem tolerate_unnoticed (hidle : Idle B) {operation : B → Except Error Unit × B}
    (hoperation : ∀ backing, contents (operation backing).2 = contents backing) (faults : ℕ) :
    Unnoticed (tolerate operation faults : RunM B S ℕ) := by
  apply Unnoticed.bind (.onLink hoperation)
  intro result
  cases result with
  | ok value => exact .pure _
  | error err => exact .bind (.onLink hidle.takeFault) fun _ => .pure _

/-- Without input there is nothing to push. -/
theorem receive_unnoticed (hidle : Idle B) : Unnoticed (receive : RunM B S PUnit) := by
  intro m
  rw [receive, Exec.wp_bind, onLink, Exec.wp_call, (hidle.takeConsole _).1]
  exact Unnoticed.onLink (fun backing => (hidle.takeConsole backing).2) m

variable [Console S]

theorem mirror_unnoticed (hidle : Idle B) (faults : ℕ) :
    Unnoticed (mirror faults : RunM B S ℕ) := by
  apply Unnoticed.bind (.onSink _)
  intro out
  split
  · exact .pure _
  · exact tolerate_unnoticed hidle (hidle.sendConsole out) faults

theorem service_unnoticed (hidle : Idle B) (cfg : Config) (tally : Tally) :
    Unnoticed (service cfg tally : RunM B S Tally) := by
  have hbeat (slices : ℕ) : Unnoticed (beat cfg slices : RunM B S PUnit) := by
    unfold beat
    split
    · exact .onSink _
    · exact .pure _
  apply Unnoticed.bind (tolerate_unnoticed hidle hidle.pump _)
  intro pumpFaults
  apply Unnoticed.bind (receive_unnoticed hidle)
  intro _
  apply Unnoticed.bind (mirror_unnoticed hidle _)
  intro mirrorFaults
  apply Unnoticed.bind (hbeat _)
  exact fun _ => .bind (.onSink _) fun _ => .pure _

theorem announce_unnoticed (ending : Ending Fault) :
    Unnoticed (announce ending : RunM B S PUnit) := by
  unfold announce
  split
  · exact .pure _
  · exact .bind (.onSink _) fun _ => .onSink _

end Service

/-! ## The loops -/

/-- The ending as `run_until` reports it. -/
def Ending.outcome {Fault : Type} (executed : ℕ) : Ending Fault → Option RunOutcome
  | .shutdown => some (.shutdown executed)
  | .capped => some (.capped executed)
  | .backing addr _ => some (.backingFailure executed addr)
  | .machineTrap mcause mepc mtval => some (.machineTrap executed mcause mepc mtval)
  | .stopped => none

/-- The same count, and the same ending unless the budget was spent. -/
def Report.Agrees {Fault : Type} (maxInsns : ℕ) (outcome : RunOutcome) (report : Report Fault) :
    Prop :=
  report.executed = outcome.executed ∧
    (outcome.executed < maxInsns → report.ending.outcome report.executed = some outcome)

theorem watched_run {B S W : Type} [FlatBacking B] {watch : Watch B S W} (hwatch : Patient watch)
    (w : W) (executed : ℕ) (m : Machine B S) :
    ∃ w' after, (watched watch w executed).run m = .ok (true, w') after ∧ m.Unseen after := by
  obtain ⟨hcontinues, hunseen⟩ := hwatch w m.bus executed
  refine ⟨(watch w m.bus executed).2.1, { m with bus := (watch w m.bus executed).2.2 }, ?_,
    rfl, hunseen⟩
  rw [← hcontinues]
  rfl

section Loops

variable {B S B' S' Fault W : Type} [FlatBacking B] [Link B Fault] [Console S] [FlatBacking B']
  [ConsoleSink S']
variable (hB : ¬ Fallible B) (hB' : ¬ Fallible B') (hidle : Idle B)

include hB hB' hidle in
/-- A slice is the beginning of a run: it uses its budget up, or ends as the run
does. -/
theorem slice_agrees (budget rest executed : ℕ) {m' : Machine B' S'} {m : Machine B S}
    (hm : Machine.Matches m' m) :
    ∃ (final' : Machine B' S') (final : Machine B S) (result : ℕ × Option (Ending Fault)),
      (slice budget executed).run m = .ok result final ∧ Machine.Matches final' final ∧
        (result = (executed + budget, none) ∧
            (runUntil (budget + rest) executed).run m' =
              (runUntil rest (executed + budget)).run final' ∨
          ∃ ending outcome, result = (outcome.executed, some ending) ∧
            ending.outcome outcome.executed = some outcome ∧
              (runUntil (budget + rest) executed).run m' = .ok outcome final') := by
  induction budget generalizing executed m' m with
  | zero => exact ⟨m', m, (executed, none), rfl, hm, .inl ⟨rfl, by rw [Nat.zero_add]; rfl⟩⟩
  | succ budget ih =>
      have hread : (Exec.read : RunM B S (Machine B S)).run m = .ok m m := rfl
      by_cases hdead : deadEnd m'.cpu
      · obtain ⟨ending, hending⟩ : ∃ ending : Ending Fault, ending = .machineTrap
            (m.cpu.csrs.read Csr.mcause) (m.cpu.csrs.read Csr.mepc) (m.cpu.csrs.read Csr.mtval) :=
          ⟨_, rfl⟩
        refine ⟨m', m, (executed, some ending), ?_, hm,
          .inr ⟨ending, _, rfl, ?_, Host.runUntil_deadEnd hdead _ _⟩⟩
        · rw [hm.cpu] at hdead
          rw [slice, Exec.run_bind_ok hread, if_pos hdead, hending]
          rfl
        · rw [hending, ← hm.cpu]
          rfl
      have hupdate (change : Machine B S → Machine B S) (state : Machine B S) :
          (Exec.update change : RunM B S PUnit).run state = .ok .unit (change state) := rfl
      have hlive : ¬ deadEnd m.cpu := hm.cpu ▸ hdead
      have hruns : (runUntil (budget + 1 + rest) executed).run m' =
          (Host.turn executed (runUntil (budget + rest) (executed + 1))).run m' := by
        rw [Nat.add_right_comm, Host.run_runUntil_succ hdead]
      obtain ⟨value, after', after, hstep', hstep, hafter⟩ :=
        (Machine.stepTrapping_alike hB' hB _ _ hm.interrupted).exists_ok
      rw [Host.run_turn, hstep'] at hruns
      rw [slice, Exec.run_bind_ok hread, if_neg hlive, Exec.run_bind_ok (hupdate _ m),
        Exec.run_bind_ok hstep]
      cases value with
      | ok outcome =>
          cases outcome with
          | handled =>
              obtain ⟨final', final, result, hslice, hfinal, hends⟩ :=
                ih (executed + 1) (hafter.ticked 1)
              refine ⟨final', final, result, hslice, hfinal, ?_⟩
              rw [hruns, Nat.add_comm budget 1, ← Nat.add_assoc]
              exact hends
          | shutdown =>
              exact ⟨after', after, (executed + 1, some .shutdown), rfl, hafter,
                .inr ⟨.shutdown, .shutdown (executed + 1), rfl, rfl, hruns⟩⟩
      | error addr =>
          obtain ⟨fault, final, hfault, hunseen⟩ :=
            (Unnoticed.onLink hidle.takeFault after).exists_ok
          refine ⟨after', final, (executed, some (.backing addr fault)), ?_,
            hunseen.matches hafter, .inr ⟨_, .backingFailure executed addr, rfl, rfl, hruns⟩⟩
          rw [Exec.run_bind_ok hfault]
          rfl

include hB hB' hidle in
/-- The loop of the badge takes the guest where `run_until` takes it. -/
theorem loop_agrees (cfg : Config) {watch : Watch B S W} (hwatch : Patient watch) (w : W)
    (left executed : ℕ) (tally : Tally) {m' : Machine B' S'} {m : Machine B S}
    (hm : Machine.Matches m' m) :
    ∃ (outcome : RunOutcome) (final' : Machine B' S') (report : Report Fault)
      (final : Machine B S),
      (runUntil left executed).run m' = .ok outcome final' ∧
        (loop cfg watch w left executed tally).run m = .ok report final ∧
          Machine.Matches final' final ∧ report.Agrees (executed + left) outcome := by
  induction left using Nat.strongRecOn generalizing w executed tally m' m with
  | _ left ih =>
      rw [loop]
      by_cases hspent : left = 0
      · subst hspent
        have hspent (outcome : RunOutcome) (hexecuted : outcome.executed = executed) :
            (⟨.capped, executed, tally⟩ : Report Fault).Agrees (executed + 0) outcome :=
          ⟨hexecuted.symm, fun hlt => absurd hlt (by rw [hexecuted]; exact lt_irrefl _)⟩
        by_cases hdead : deadEnd m'.cpu
        · exact ⟨_, m', _, m, Host.runUntil_deadEnd hdead 0 executed, rfl, hm, hspent _ rfl⟩
        · exact ⟨_, m', _, m, Host.run_runUntil_zero hdead executed, rfl, hm, hspent _ rfl⟩
      rw [dif_neg hspent]
      have hbudget : min cfg.sliceInsns left ≤ left := min_le_right _ _
      obtain ⟨middle', middle, result, hslice, hmiddle, hends⟩ :=
        slice_agrees hB hB' hidle (min cfg.sliceInsns left)
          (left - min cfg.sliceInsns left) executed hm
      rw [Nat.add_sub_cancel' hbudget] at hends
      rw [Exec.run_bind_ok hslice]
      rcases hends with ⟨rfl, hruns⟩ | ⟨ending, outcome, rfl, hending, hruns⟩
      · obtain ⟨tally', served, hservice, hserved⟩ :=
          (service_unnoticed hidle cfg tally middle).exists_ok
        obtain ⟨w', seen, hwatched, hseen⟩ :=
          watched_run hwatch w (executed + min cfg.sliceInsns left) served
        have hless : left - min cfg.sliceInsns left < left := by
          have hpos := cfg.sliceInsns_pos
          omega
        have hrest := ih _ hless w' (executed + min cfg.sliceInsns left) tally'
          ((hserved.trans hseen).matches hmiddle)
        dsimp only
        rw [hruns, Exec.run_bind_ok hservice, Exec.run_bind_ok hwatched]
        rw [Nat.add_assoc, Nat.add_sub_cancel' hbudget] at hrest
        exact hrest
      · exact ⟨outcome, middle', ⟨ending, outcome.executed, tally⟩, middle, hruns, rfl, hmiddle,
          rfl, fun _ => hending⟩

end Loops

/-- **The two run loops agree.**  `run_until` with a budget in two parts ends as
with the whole, and the badge's `run`, with no console input and a link that does
not fail, takes the guest where `run_until` takes a matching machine, counts the
same instructions and reports the same ending unless the budget was spent. -/
theorem run_loops_agree :
    (∀ (B S : Type) [MemBacking B] [ConsoleSink S] (first second : ℕ),
      (runUntil (first + second) 0 : Exec Empty (Machine B S) RunOutcome) =
        runUntil first 0 >>= Host.resumed second) ∧
    ∀ (B S B' S' Fault W : Type) [FlatBacking B] [Link B Fault] [Console S] [FlatBacking B']
      [ConsoleSink S'] (cfg : Config) (watch : Watch B S W) (w : W) (m' : Machine B' S')
      (m : Machine B S), Idle B → ¬ Fallible B → ¬ Fallible B' → Patient watch →
        Machine.Matches m' m →
      ∃ (outcome : RunOutcome) (final' : Machine B' S') (report : Report Fault)
        (final : Machine B S),
        (runUntil cfg.maxInsns 0).run m' = .ok outcome final' ∧
          (run cfg watch w).run m = .ok report final ∧
            Machine.Matches final' final ∧ report.Agrees cfg.maxInsns outcome := by
  constructor
  · intro B S _ _ first second
    rw [Host.runUntil_add, Host.continued_eq_resumed]
  · intro B S B' S' Fault W _ _ _ _ _ cfg watch w m' m hidle hB hB' hwatch hm
    obtain ⟨outcome, final', report, looped, hruns, hloop, hlooped, hagrees⟩ :=
      loop_agrees hB hB' hidle cfg hwatch w cfg.maxInsns 0 ⟨0, 0, 0⟩ hm
    rw [Nat.zero_add] at hagrees
    obtain ⟨_, announced, hannounce, hannounced⟩ :=
      (announce_unnoticed report.ending looped).exists_ok
    obtain ⟨mirrorFaults, final, hmirror, hmirrored⟩ :=
      (mirror_unnoticed hidle report.tally.mirrorFaults announced).exists_ok
    refine ⟨outcome, final', { report with tally := { report.tally with mirrorFaults } }, final,
      hruns, ?_, (hannounced.trans hmirrored).matches hlooped, hagrees⟩
    rw [run, Exec.run_bind_ok hloop, Exec.run_bind_ok hannounce, Exec.run_bind_ok hmirror]
    rfl

/-- A link nothing arrives on. -/
instance : Link FakeBacking Empty where
  pump backing := (.ok (), backing)
  takeConsole backing := ([], backing)
  sendConsole _ backing := (.ok (), backing)
  takeFault backing := (none, backing)
  describe := Empty.elim

theorem idle_fakeBacking : Idle FakeBacking :=
  ⟨fun _ => rfl, fun _ => ⟨rfl, rfl⟩, fun _ _ => rfl, fun _ => rfl⟩

/-- `VecSink` mirrors nothing. -/
instance : Console (List Byte) where
  flush := id
  tick := id
  takeOutput sink := ([], sink)

/-- The watch of the badge. -/
def unwatched : Watch FakeBacking (List Byte) Unit := fun w bus _ => (true, w, bus)

theorem patient_unwatched : Patient unwatched :=
  fun _ _ _ => ⟨rfl, fun _ hm => hm, rfl, rfl⟩

/-- Five instructions in slices of two, with a heartbeat each. -/
def shortRun : Config := ⟨2, 5, 1, by decide⟩

theorem run_loops_agree_zeroKernel :
    ∃ (outcome : RunOutcome) (final' : Machine FakeBacking (List Byte)) (report : Report Empty)
      (final : Machine FakeBacking (List Byte)),
      (runUntil shortRun.maxInsns 0).run Host.zeroKernel = .ok outcome final' ∧
        (run shortRun unwatched ()).run Host.zeroKernel = .ok report final ∧
          Machine.Matches final' final ∧ report.Agrees shortRun.maxInsns outcome :=
  have hholds := Sv39.holds_busOver fun _ _ => 0
  run_loops_agree.2 FakeBacking (List Byte) FakeBacking (List Byte) Empty Unit shortRun unwatched ()
    Host.zeroKernel Host.zeroKernel idle_fakeBacking not_fallible_fakeBacking
    not_fallible_fakeBacking patient_unwatched ⟨rfl, ⟨_, hholds, hholds⟩, rfl, rfl⟩

end Baonix.Badge

import Baonix.Core.Framed
import Baonix.Core.Sv39

/-!
# Runs

What the loops of the program do with a machine, one action at a time: they look
for an interrupt, take a step, let the clock tick and pass console input on.  A
run is any sequence of actions.
-/

namespace Baonix.Core

open Exec (Keeps Preserving)

inductive Action
  /-- `check_interrupts`. -/
  | interrupt
  /-- `step_trapping`. -/
  | step
  /-- `clint.tick`. -/
  | tick (n : BitVec 64)
  /-- `push_input`. -/
  | input (byte : LittleEndian.Byte)

namespace Machine

variable {B S : Type}

/-- `check_interrupts`. -/
def interrupted (m : Machine B S) : Machine B S :=
  { m with cpu := m.cpu.checkInterrupts m.bus.clint.pending }

def ticked (n : BitVec 64) (m : Machine B S) : Machine B S :=
  { m with bus := { m.bus with clint := m.bus.clint.tick n } }

def given (byte : LittleEndian.Byte) (m : Machine B S) : Machine B S :=
  { m with bus := { m.bus with uart := m.bus.uart.pushInput byte } }

variable [MemBacking B] [ConsoleSink S]

/-- The machine after an action, unless it panics. -/
def act (action : Action) (m : Machine B S) : Option (Machine B S) :=
  match action with
  | .interrupt => some m.interrupted
  | .step => (stepTrapping.run m).reply.map Prod.snd
  | .tick n => some (m.ticked n)
  | .input byte => some (m.given byte)

/-- An action, which takes steps only from the states allowed. -/
def Moves (allowed : Machine B S → Prop) (m after : Machine B S) : Prop :=
  ∃ action, (action = .step → allowed m) ∧ m.act action = some after

/-- A run that steps only from the states allowed. -/
def Reaches (allowed : Machine B S → Prop) : Machine B S → Machine B S → Prop :=
  Relation.ReflTransGen (Moves allowed)

/-- What every action keeps holds along every run. -/
theorem Reaches.invariant {allowed invariant : Machine B S → Prop} {m after : Machine B S}
    (hruns : Reaches allowed m after) (hstart : invariant m)
    (hinterrupt : ∀ m, invariant m → invariant m.interrupted)
    (hstep : ∀ m, invariant m → allowed m →
      Exec.wp stepTrapping (fun _ => invariant) (fun _ => invariant) True m)
    (htick : ∀ n m, invariant m → invariant (m.ticked n))
    (hinput : ∀ byte m, invariant m → invariant (m.given byte)) : invariant after := by
  induction hruns with
  | refl => exact hstart
  | @tail m next _ hmoves ih =>
      obtain ⟨action, hallowed, hact⟩ := hmoves
      cases action with
      | interrupt =>
          cases hact
          exact hinterrupt m ih
      | step =>
          have hwp := hstep m ih (hallowed rfl)
          simp only [act] at hact
          cases hrun : stepTrapping.run m with
          | ok value after =>
              rw [hrun] at hact
              cases hact
              exact hwp.of_run_ok hrun
          | error err after => exact err.elim
          | panic => rw [hrun] at hact; cases hact
      | tick n =>
          cases hact
          exact htick n m ih
      | input byte =>
          cases hact
          exact hinput byte m ih

/-! ## Whole steps -/

/-- The relation holds over each change of control: the ends of a step, the
traps, the SYSTEM instructions and the calls. -/
structure Controls (related : Machine B S → Machine B S → Prop) : Prop
    extends Registers related where
  starts : ∀ (m : Machine B S) len, related m { m with cpu := m.cpu.begin len }
  retires : ∀ (m : Machine B S) len, related m { m with cpu := m.cpu.retire len }
  traps : ∀ (m : Machine B S) err, related m { m with cpu := m.cpu.trap err }
  skips : ∀ (m : Machine B S) pc, related m { m with cpu := { m.cpu with pc := pc } }
  mret : ∀ m : Machine B S, related m { m with cpu := m.cpu.mret }
  sret : ∀ m : Machine B S, related m { m with cpu := m.cpu.sret }
  flush : Keeps related (flushMmu : MachineM B S PUnit)
  writeCsr : ∀ addr new, Keeps related (Rv64i.writeCsr addr new : MachineM B S PUnit)
  setTimer : ∀ (m : Machine B S) deadline, related m (Sbi.setTimer deadline m)
  putchar : ∀ (m : Machine B S) byte, related m (Sbi.putchar byte m)

/-- The relation holds over each part of a step. -/
structure Stepwise (related : Machine B S → Machine B S → Prop) : Prop
    extends Accesses related, Controls related

variable {related : Machine B S → Machine B S → Prop} [IsPreorder (Machine B S) related]

namespace Controls

variable (hcontrols : Controls related)
include hcontrols

omit [MemBacking B] in
theorem privileged_keeps (insn : Insn) :
    Keeps related (Rv64i.privileged insn : MachineM B S Bool) := by
  apply Keeps.bind .read
  intro m
  apply Keeps.ite (.raise _)
  apply Keeps.ite (.raise _)
  apply Keeps.ite (.bind (.update hcontrols.mret) fun _ => .pure _)
  apply Keeps.ite (.bind (.update hcontrols.sret) fun _ => .pure _)
  apply Keeps.ite (.pure _)
  exact .ite (.bind hcontrols.flush fun _ => .pure _) (.raise _)

omit [MemBacking B] in
theorem csrAccess_keeps (insn : Insn) :
    Keeps related (Rv64i.csrAccess insn : MachineM B S Bool) := by
  apply Keeps.bind .read
  intro m
  apply Keeps.ite (.raise _)
  apply Keeps.ite (.raise _)
  dsimp only
  split
  · exact .raise _
  · exact .bind (.ite (hcontrols.writeCsr _ _) (.pure _)) fun _ =>
      .bind (hcontrols.setReg_keeps _ _) fun _ => .pure _

omit [MemBacking B] in
theorem deliver_keeps (result : Except Exception PUnit) :
    Keeps related (deliver result :
      Exec Empty (Machine B S) (Except (BitVec 64) Sbi.SbiOutcome)) := by
  have hhandle (m : Machine B S) : related m (Sbi.handle m).2 :=
    handle_keeps hcontrols.setReg hcontrols.setTimer hcontrols.putchar m
  unfold deliver
  split
  · exact .pure _
  · apply Keeps.bind
    · exact fun m => hhandle m
    · exact fun _ => .bind (.update fun m => hcontrols.skips m _) fun _ => .pure _
  · exact .pure _
  · exact .bind (.update fun m => hcontrols.traps m _) fun _ => .pure _

end Controls

namespace Stepwise

variable (hstepwise : Stepwise related)
include hstepwise

theorem executeFetched_keeps (insn : Insn) (len : BitVec 64) :
    Keeps related (executeFetched insn len : MachineM B S PUnit) :=
  have hframed : Framed related := ⟨hstepwise.toAccesses, hstepwise.toRegisters⟩
  .bind (.update fun m => hstepwise.starts m len) fun _ =>
    .bind (hframed.execute_keeps insn (fun _ _ => hstepwise.privileged_keeps insn)
      (fun _ _ => hstepwise.csrAccess_keeps insn)) fun _ =>
      .update fun m => hstepwise.retires m len

theorem step_keeps : Keeps related (step : MachineM B S PUnit) :=
  .bind (hstepwise.reads .fetch).fetchInsn_keeps fun fetched =>
    hstepwise.executeFetched_keeps fetched.1 fetched.2

theorem stepTrapping_keeps : Keeps related (stepTrapping :
    Exec Empty (Machine B S) (Except (BitVec 64) Sbi.SbiOutcome)) :=
  .bind (.attempt hstepwise.step_keeps) fun result => hstepwise.deliver_keeps result

end Stepwise

omit related [IsPreorder (Machine B S) related] in
/-- A step whose instruction is known is what the instruction makes of it. -/
theorem wp_step_of_fetch {m fetched : Machine B S} {insn : Insn} {len : BitVec 64}
    (hfetch : fetchInsn.run m = .ok (insn, len) fetched) {post : Machine B S → Prop}
    {fails : Exception → Machine B S → Prop} {panics : Prop}
    (hexecute : Exec.wp (execute insn)
      (fun _ after => post { after with cpu := after.cpu.retire len }) fails panics
      { fetched with cpu := fetched.cpu.begin len }) :
    Exec.wp step (fun _ => post) fails panics m := by
  rw [step, Exec.wp_bind]
  apply Exec.wp_of_run_ok hfetch
  dsimp only
  rw [executeFetched, Exec.wp_bind, onCpu, Exec.wp_update, Exec.wp_bind]
  exact hexecute

omit [MemBacking B] [ConsoleSink S] in
theorem enterTrap_reg (cpu : Cpu) (cause tval : BitVec 64) (toS : Bool) (i : BitVec 5) :
    (cpu.enterTrap cause tval toS).reg i = cpu.reg i := by
  unfold Cpu.enterTrap
  split <;> rfl

theorem regZero_stepwise : Stepwise (Preserving fun m : Machine B S => m.cpu.reg 0 = 0) where
  setReg m i v hm := by
    rw [Cpu.setReg]
    split
    · next hi => exact (Function.update_of_ne (Ne.symm hi) v m.cpu.regs).trans hm
    · exact hm
  jump _ _ _ hm := hm
  reserve _ _ hm := hm
  translate := translate_keeps (fun _ _ hm => hm) (fun _ _ hm => hm)
  busLoad := busLoad_keeps (fun _ _ _ _ hm => hm) (fun _ _ hm => hm)
  busStore := busStore_keeps (fun _ _ _ _ hm => hm) (fun _ _ hm => hm)
  starts _ _ hm := hm
  retires _ _ hm := hm
  traps m err hm := (enterTrap_reg m.cpu err.cause err.tval _ 0).trans hm
  skips _ _ hm := hm
  mret _ hm := hm
  sret _ hm := hm
  flush := .update fun _ hm => hm
  writeCsr _ _ := .bind (.update fun _ hm => hm) fun _ => .ite (.update fun _ hm => hm) (.pure _)
  setTimer _ _ hm := hm
  putchar _ _ hm := hm

/-- `x0` reads as zero in every state reached. -/
theorem regZero_reached {allowed : Machine B S → Prop} {m after : Machine B S}
    (hruns : Reaches allowed m after) (hstart : m.cpu.reg 0 = 0) : after.cpu.reg 0 = 0 := by
  have hinterrupts (m : Machine B S) (hm : m.cpu.reg 0 = 0) : m.interrupted.cpu.reg 0 = 0 := by
    rw [interrupted, Cpu.checkInterrupts]
    dsimp only
    split_ifs
    · exact (enterTrap_reg ..).trans hm
    · exact (enterTrap_reg ..).trans hm
    · exact hm
  exact hruns.invariant hstart hinterrupts
    (fun m hm _ => (regZero_stepwise.stepTrapping_keeps m).imp (fun _ _ hafter => hafter hm)
      (fun _ _ hafter => hafter hm) (fun hpanics => hpanics))
    (fun _ _ hm => hm) (fun _ _ hm => hm)

/-- A machine over the pages given, with nothing in its cache. -/
def overPages (pages : BitVec 32 → Proto.Page) (cpu : Cpu) :
    Machine FakeBacking (List LittleEndian.Byte) :=
  ⟨cpu, Sv39.busOver pages, ⟨[], []⟩⟩

/-- RAM that starts with the given words. -/
def firstPage (words : List (BitVec 64)) : BitVec 32 → Proto.Page := fun page =>
  if page = 0 then Sv39.tablePage words else fun _ => 0

end Machine

end Baonix.Core

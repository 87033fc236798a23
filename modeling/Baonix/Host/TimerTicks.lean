import Baonix.Core.TrapReturn
import Baonix.Host.TimerPending

/-!
# Timer ticks are neither early nor lost

From the call that sets the timer on, `mip.STIP` is the memory of the checks made since:
it is set exactly if the clock had reached the deadline at one of them.  A check enters
the supervisor's trap exactly if the bit is set and the interrupt is enabled, and saves
the address of the instruction it comes before.
-/

namespace Baonix.Core

namespace Cpu

open Bits (and_one_shiftLeft_eq_zero)

/-- `mie.STIE`. -/
def timerEnabled (cpu : Cpu) : Bool := (cpu.csrs.read Csr.mie).getLsbD 5

/-- `mstatus.SIE`. -/
def interruptsOn (cpu : Cpu) : Bool := (cpu.csrs.read Csr.mstatus).getLsbD 1

/-- The guest takes a pending timer interrupt. -/
def TakesTimer (cpu : Cpu) : Prop :=
  cpu.timerEnabled = true ∧ (cpu.priv = .u ∨ cpu.priv = .s ∧ cpu.interruptsOn = true)

theorem and_stip_ne_zero (bits : BitVec 64) : bits &&& stip ≠ 0 ↔ bits.getLsbD 5 = true := by
  have hzero : bits &&& stip = 0 ↔ bits.getLsbD 5 = false :=
    and_one_shiftLeft_eq_zero (by decide : 5 < 64)
  rw [ne_eq, hzero, Bool.not_eq_false]

theorem interruptEnabled_supervisor (cpu : Cpu) :
    cpu.interruptEnabled true = true ↔
      cpu.priv = .u ∨ cpu.priv = .s ∧ cpu.interruptsOn = true := by
  rw [interruptEnabled, if_pos rfl, interruptsOn]
  cases cpu.priv with
  | m => simp
  | s =>
      dsimp only
      rw [decide_eq_true_iff, bit_eq_one]
      simp
  | u => simp

/-- **Below M-mode a check takes the supervisor's timer or nothing**, the timer of M-mode
not being enabled. -/
theorem interruptTaken_iff {cpu : Cpu} (hcpu : cpu.Confined) (pending : Bool) :
    (cpu.interruptTaken pending = some .supervisorTimer ↔
      (cpu.recorded pending).csrs.timerPending = true ∧ cpu.TakesTimer) ∧
    (cpu.interruptTaken pending = some .supervisorTimer ∨ cpu.interruptTaken pending = none) := by
  have hguarded : (cpu.recorded pending).csrs.Guarded :=
    hcpu.csrs.write Csr.mip (timerBits pending (cpu.csrs.read Csr.mip)) (by decide)
  have hkept {other : Csr.Addr} (hother : other ≠ Csrs.target Csr.mip) :
      (cpu.recorded pending).csrs.regs other = cpu.csrs.regs other :=
    Csrs.write_regs_of_ne cpu.csrs _ hother
  have hmie : (cpu.recorded pending).timerEnabled = cpu.timerEnabled :=
    congrArg (BitVec.getLsbD · 5) (hkept (by decide : Csr.mie ≠ Csrs.target Csr.mip))
  have hsie : (cpu.recorded pending).interruptsOn = cpu.interruptsOn :=
    congrArg (BitVec.getLsbD · 1) (hkept (by decide : Csr.mstatus ≠ Csrs.target Csr.mip))
  have hpending : (cpu.recorded pending).csrs.timerPending =
      (timerBits pending (cpu.csrs.read Csr.mip)).getLsbD 5 :=
    cpu.csrs.timerPending_write_mip _
  have hcondition : (timerBits pending (cpu.csrs.read Csr.mip) &&& stip ≠ 0 ∧
      (cpu.recorded pending).csrs.read Csr.mie &&& stip ≠ 0 ∧
        (cpu.recorded pending).interruptEnabled true = true) ↔
      (cpu.recorded pending).csrs.timerPending = true ∧ cpu.TakesTimer := by
    rw [and_stip_ne_zero, and_stip_ne_zero, interruptEnabled_supervisor, hpending, hsie, TakesTimer,
      ← hmie]
    exact Iff.rfl
  rw [interruptTaken, if_neg (fun hmachine => hmachine.2.1 hguarded.mtip), ← hcondition]
  split
  · rename_i htaken
    exact ⟨⟨fun _ => htaken, fun _ => rfl⟩, .inl rfl⟩
  · rename_i hnone
    refine ⟨⟨?_, fun htaken => absurd htaken hnone⟩, .inr rfl⟩
    intro heq
    cases heq

/-- The trap saves where it came from. -/
theorem enterTrap_sepc (cpu : Cpu) (cause tval : BitVec 64) :
    (cpu.enterTrap cause tval true).csrs.read Csr.sepc = cpu.pc := by
  have hkept (c : Csrs) {addr other : Csr.Addr} (v : BitVec 64)
      (hother : other ≠ Csrs.target addr) : (c.write addr v).regs other = c.regs other :=
    Csrs.write_regs_of_ne c v hother
  change (Csrs.write _ Csr.mstatus _).regs Csr.sepc = cpu.pc
  rw [hkept _ _ (by decide), hkept _ _ (by decide), hkept _ _ (by decide)]
  exact Csrs.set_regs_self cpu.csrs Csr.sepc cpu.pc

/-- What a check does: it records the timer, and enters the trap if the guest takes the
interrupt. -/
theorem checkInterrupts_confined {cpu : Cpu} (hcpu : cpu.Confined) (pending : Bool) :
    (cpu.recorded pending).csrs.timerPending = true ∧ cpu.TakesTimer ∧
        cpu.checkInterrupts pending =
          (cpu.recorded pending).enterTrap Interrupt.supervisorTimer.cause 0 true ∧
        (cpu.checkInterrupts pending).csrs.read Csr.sepc = cpu.pc ∨
      ¬ ((cpu.recorded pending).csrs.timerPending = true ∧ cpu.TakesTimer) ∧
        cpu.checkInterrupts pending = cpu.recorded pending := by
  obtain ⟨htaken, heither⟩ := interruptTaken_iff hcpu pending
  have hcheck := cpu.checkInterrupts_eq pending
  rcases heither with hsupervisor | hnone
  · left
    obtain ⟨hpending, htakes⟩ := htaken.mp hsupervisor
    rw [hsupervisor] at hcheck
    dsimp only at hcheck
    rw [decide_eq_true rfl] at hcheck
    refine ⟨hpending, htakes, hcheck, ?_⟩
    rw [hcheck]
    exact (cpu.recorded pending).enterTrap_sepc _ _
  · right
    rw [hnone] at hcheck
    refine ⟨?_, hcheck⟩
    rw [← htaken, hnone]
    intro heq
    cases heq

end Cpu

/-! ## Turns that leave the timer alone -/

namespace Sbi

variable {B S : Type} [ConsoleSink S]

/-- The call programs the comparator. -/
theorem handle_setsTimer {m : Machine B S} (hsets : setsTimer m.cpu) :
    (handle m).1 = .handled ∧ (handle m).2.bus.clint.mtimecmp = m.cpu.reg 10 := by
  unfold handle
  dsimp only
  by_cases htimer : m.cpu.reg 17 = extSetTimer
  · rw [if_pos htimer]
    exact ⟨rfl, rfl⟩
  · have hlater := hsets.resolve_left htimer
    have hother {ext : BitVec 64} (hext : extTimerV02 ≠ ext) : m.cpu.reg 17 ≠ ext := by
      rw [hlater.1]
      exact hext
    rw [if_neg htimer, if_neg (hother (by decide)), if_neg (hother (by decide)),
      if_neg (hother (by decide)), if_pos hlater]
    exact ⟨rfl, rfl⟩

end Sbi

namespace Machine

open Insn

variable {B S : Type} [MemBacking B] [ConsoleSink S]

/-- The next instruction writes `sip`. -/
def WritesSip (m : Machine B S) : Prop :=
  ∃ insn len fetched, fetchInsn.run m = .ok (insn, len) fetched ∧ opcode insn = 0x73 ∧
    funct3 insn ≠ 0 ∧ Rv64i.csrAddr insn = Csr.sip ∧ Rv64i.writesCsr insn

/-- The step completes a call that sets the timer to `deadline`. -/
structure CompletesSetTimer (deadline : BitVec 64) (m after : Machine B S) : Prop where
  call : ∃ called, step.run m = .error .environmentCallFromSMode called ∧
    Sbi.setsTimer called.cpu ∧ called.cpu.reg 10 = deadline
  completes : stepTrapping.run m = .ok (.ok .handled) after

/-- The step does not set the timer, and writes neither `sip` nor a register of the
interruptor. -/
structure Quiet (m after : Machine B S) : Prop where
  noCall : ¬ CallsSetTimer m
  noSip : ¬ WritesSip m
  clint : after.bus.clint = m.bus.clint

/-- A call is serviced, and the guest goes on behind it. -/
theorem stepTrapping_call {m called : Machine B S}
    (hstep : step.run m = .error .environmentCallFromSMode called) :
    stepTrapping.run m = .ok (.ok (Sbi.handle called).1) { (Sbi.handle called).2 with
      cpu := { (Sbi.handle called).2.cpu with
        pc := (Sbi.handle called).2.cpu.pc + (Sbi.handle called).2.cpu.insnLen } } := by
  have hattempt : (Exec.attempt step : Exec Empty (Machine B S) _).run m =
      .ok (.error .environmentCallFromSMode) called := by
    rw [Exec.run] at hstep
    simp only [Exec.run, Exec.attempt, hstep]
  rw [stepTrapping, Exec.run_bind_ok hattempt]
  rfl

theorem CompletesSetTimer.spec {deadline : BitVec 64} {m after : Machine B S}
    (hset : CompletesSetTimer deadline m after) :
    after.bus.clint.mtimecmp = deadline ∧ after.cpu.csrs.timerPending = false := by
  obtain ⟨called, hstep, hsets, hdeadline⟩ := hset.call
  have hcompletes := hset.completes
  rw [stepTrapping_call hstep, Outcome.ok.injEq] at hcompletes
  have hpending := Sbi.timerPending_handle called
  rw [if_pos hsets] at hpending
  have hcompare := (Sbi.handle_setsTimer hsets).2
  rw [← hcompletes.2]
  exact ⟨hcompare.trans hdeadline, hpending⟩

theorem Quiet.timerPending {m after : Machine B S} (hquiet : Quiet m after) (hm : m.cpu.AtLoop)
    (hstep : stepTrapping.run m = .ok (.ok .handled) after) :
    after.cpu.csrs.timerPending = m.cpu.csrs.timerPending := by
  have hhonest : ¬ NextForges m := by
    rintro ⟨insn, len, fetched, hfetch, hopcode, hfunct3, hsip, hwrites, -⟩
    exact hquiet.noSip ⟨insn, len, fetched, hfetch, hopcode, hfunct3, hsip, hwrites⟩
  have hdocumented := ((stepTrapping_timerDocumented hm).of_run_ok hstep).mpr hhonest
  cases hbefore : m.cpu.csrs.timerPending with
  | false =>
      cases hafter : after.cpu.csrs.timerPending with
      | false => rfl
      | true => cases (hdocumented.raised hbefore hafter).1
  | true =>
      cases hafter : after.cpu.csrs.timerPending with
      | false => exact absurd (hdocumented.lowered hbefore hafter).2 hquiet.noCall
      | true => rfl

omit [MemBacking B] [ConsoleSink S] in
/-- A check adds what the comparator says now to what it said before. -/
theorem interrupted_timerPending (m : Machine B S) :
    m.interrupted.cpu.csrs.timerPending = true ↔
      m.cpu.csrs.timerPending = true ∨ m.bus.clint.mtimecmp ≤ m.bus.clint.mtime := by
  have hafter := m.cpu.timerPending_checkInterrupts m.bus.clint.pending
  rw [interrupted, hafter, Bool.or_eq_true, Clint.pending, decide_eq_true_iff]

end Machine

end Baonix.Core

namespace Baonix.Host

open Baonix.Core Baonix.Core.Machine

variable {B S : Type} [MemBacking B] [ConsoleSink S]

/-! ## Since the timer was set -/

/-- The states of `run_until` at the top of its loop since a call set the timer to
`deadline`, with the states in which the checks were made since then, the last one
first. -/
inductive Since (start : Machine B S) (deadline : BitVec 64) :
    List (Machine B S) → Machine B S → Prop
  | set {m after : Machine B S} (hturns : Turns start m) (hruns : ¬ deadEnd m.cpu)
      (hset : CompletesSetTimer deadline m.interrupted after) :
      Since start deadline [] (after.ticked 1)
  | turn {checks : List (Machine B S)} {m after : Machine B S}
      (hsince : Since start deadline checks m) (hruns : ¬ deadEnd m.cpu)
      (hstep : stepTrapping.run m.interrupted = .ok (.ok .handled) after)
      (hquiet : Quiet m.interrupted after) :
      Since start deadline (m :: checks) (after.ticked 1)
  | input {checks : List (Machine B S)} {m : Machine B S}
      (hsince : Since start deadline checks m) (byte : LittleEndian.Byte) :
      Since start deadline checks (m.given byte)

/-- The clock had reached the deadline at one of the checks. -/
def Elapsed (deadline : BitVec 64) (checks : List (Machine B S)) : Prop :=
  ∃ check ∈ checks, deadline ≤ check.bus.clint.mtime

/-- What the loop keeps: the comparator stands at the deadline, and the pending bit tells
whether a check found it passed. -/
structure Remembers (deadline : BitVec 64) (checks : List (Machine B S)) (m : Machine B S) :
    Prop where
  atLoop : m.cpu.AtLoop
  mtimecmp : m.bus.clint.mtimecmp = deadline
  pending : m.cpu.csrs.timerPending = true ↔ Elapsed deadline checks

omit [MemBacking B] [ConsoleSink S] in
/-- One more check. -/
theorem Remembers.check {deadline : BitVec 64} {checks : List (Machine B S)} {m : Machine B S}
    (hm : Remembers deadline checks m) :
    m.interrupted.cpu.csrs.timerPending = true ↔ Elapsed deadline (m :: checks) := by
  rw [interrupted_timerPending, hm.pending, hm.mtimecmp, Elapsed, Elapsed, List.exists_mem_cons_iff,
    or_comm]

theorem Since.remembers {start m : Machine B S} {deadline : BitVec 64}
    {checks : List (Machine B S)} (hsince : Since start deadline checks m)
    (hstart : start.cpu.AtLoop) : Remembers deadline checks m := by
  induction hsince with
  | @set m after hturns hruns hset =>
      obtain ⟨hcompare, hpending⟩ := hset.spec
      have hnext := (stepTrapping_confined (confined_of_atLoop (hturns.atLoop hstart)
        hruns)).of_run_ok hset.completes
      refine ⟨hnext, hcompare, ?_⟩
      constructor
      · intro hset
        cases hpending.symm.trans hset
      · rintro ⟨check, hcheck, -⟩
        cases hcheck
  | @turn checks m after _ hruns hstep hquiet ih =>
      have hnext := (stepTrapping_confined (confined_of_atLoop ih.atLoop hruns)).of_run_ok hstep
      have hkept := hquiet.timerPending (atLoop_interrupted ih.atLoop) hstep
      refine ⟨hnext, ?_, ?_⟩
      · exact (congrArg Clint.mtimecmp hquiet.clint).trans ih.mtimecmp
      · change after.cpu.csrs.timerPending = true ↔ _
        rw [hkept]
        exact ih.check
  | input _ byte ih => exact ⟨ih.atLoop, ih.mtimecmp, ih.pending⟩

/-- **Timer ticks are neither early nor lost.**  In every run of a guest started below
M-mode, from the completion of a call that set the timer to `deadline` on, while no step
sets it again or writes `sip` or the interruptor: after a check the pending bit is set
exactly if the clock had reached the deadline at this or an earlier check since; and the
check enters the supervisor's timer trap exactly if the bit and its enable are set and
the guest is in U-mode, or in S-mode with interrupts on, and then saves the address the
guest would have gone on from.  Otherwise it leaves all but the timer's bits alone. -/
theorem timer_ticks {start m : Machine B S} {deadline : BitVec 64} {checks : List (Machine B S)}
    (hstart : start.cpu.Confined) (hsince : Since start deadline checks m)
    (hruns : ¬ deadEnd m.cpu) :
    (m.interrupted.cpu.csrs.timerPending = true ↔ Elapsed deadline (m :: checks)) ∧
    (m.interrupted.cpu.csrs.timerPending = true ∧ m.cpu.TakesTimer ∧
        m.interrupted.cpu = (m.cpu.recorded m.bus.clint.pending).enterTrap
          Interrupt.supervisorTimer.cause 0 true ∧
        m.interrupted.cpu.csrs.read Csr.sepc = m.cpu.pc ∨
      ¬ (m.interrupted.cpu.csrs.timerPending = true ∧ m.cpu.TakesTimer) ∧
        m.interrupted.cpu = m.cpu.recorded m.bus.clint.pending) := by
  have hremembers := hsince.remembers hstart.atLoop
  have hconfined : m.cpu.Confined :=
    ⟨hremembers.atLoop.csrs, fun hpriv => hruns (hremembers.atLoop.stops hpriv)⟩
  have hbit : m.interrupted.cpu.csrs.timerPending =
      (m.cpu.recorded m.bus.clint.pending).csrs.timerPending := by
    rcases Cpu.checkInterrupts_confined hconfined m.bus.clint.pending with
      ⟨-, -, htrap, -⟩ | ⟨-, hkept⟩
    · rw [interrupted, htrap, Cpu.timerPending_enterTrap]
    · rw [interrupted, hkept]
  refine ⟨hremembers.check, ?_⟩
  rw [hbit]
  exact Cpu.checkInterrupts_confined hconfined m.bus.clint.pending

/-- A kernel of one instruction, `ecall`, with the registers as at the start: the timer
is set to zero. -/
def callingKernel : Machine FakeBacking (List LittleEndian.Byte) :=
  overPages (fun page => if page = 512 then Sv39.tablePage [0x73] else fun _ => 0)
    (bootCpu 0x80400000)

/-- The first check after the call finds the deadline passed. -/
theorem timer_ticks_callingKernel : ∃ m, Since callingKernel 0 [] m ∧
    m.interrupted.cpu.csrs.timerPending = true := by
  have hcall : ((step.run callingKernel.interrupted).reply.bind fun reply =>
      match reply.1 with
      | .error err => some (err, reply.2.cpu.reg 17, reply.2.cpu.reg 10)
      | .ok _ => none) = some (.environmentCallFromSMode, 0, 0) := by
    decide +kernel
  have hsupervisor : ((stepTrapping.run callingKernel.interrupted).reply.map fun reply =>
      reply.2.cpu.priv) = some .s := by
    decide +kernel
  have hdead : ¬ deadEnd callingKernel.cpu := by decide
  have hconfined : callingKernel.cpu.Confined :=
    ⟨Csrs.guarded_default, fun heq => Priv.noConfusion heq⟩
  cases hstep : step.run callingKernel.interrupted with
  | ok value after => rw [hstep] at hcall; cases hcall
  | error err called =>
      rw [hstep] at hcall
      obtain ⟨rfl, hext, hdeadline⟩ : err = .environmentCallFromSMode ∧
          called.cpu.reg 17 = 0 ∧ called.cpu.reg 10 = 0 := by
        simpa [Outcome.reply] using hcall
      have hsets : Sbi.setsTimer called.cpu := .inl hext
      have hcompletes := stepTrapping_call hstep
      rw [(Sbi.handle_setsTimer hsets).1] at hcompletes
      obtain ⟨after, hafter⟩ : ∃ after,
          stepTrapping.run callingKernel.interrupted = .ok (.ok .handled) after := ⟨_, hcompletes⟩
      have hsince : Since callingKernel 0 [] (after.ticked 1) :=
        .set .start hdead ⟨⟨called, hstep, hsets, hdeadline⟩, hafter⟩
      have hlive : ¬ deadEnd (after.ticked 1).cpu := by
        rw [hafter] at hsupervisor
        intro hdead
        cases (Option.some.inj hsupervisor).symm.trans hdead.1
      refine ⟨_, hsince, (timer_ticks hconfined hsince hlive).1.mpr ?_⟩
      exact ⟨_, List.mem_singleton_self _, Nat.zero_le _⟩
  | panic => rw [hstep] at hcall; cases hcall

end Baonix.Host

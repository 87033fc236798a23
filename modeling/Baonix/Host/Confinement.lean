import Baonix.Core.Precise
import Baonix.Host.Run

/-!
# The guest stays below M-mode

The registers firmware would set up are out of the guest's reach: an S-mode
program can write none of them, and the supervisor's view of `mie` is masked by
`mideleg`.  So an undelegated trap finds `mtvec` still 0, and the loop stops on
it at once.
-/

namespace Baonix.Core

open Exec (Keeps Preserving)

namespace Csrs

/-- The registers that confine the guest are as firmware leaves them. -/
structure Guarded (c : Csrs) : Prop where
  mtvec : c.read Csr.mtvec = Csrs.default.read Csr.mtvec
  medeleg : c.read Csr.medeleg = Csrs.default.read Csr.medeleg
  mideleg : c.read Csr.mideleg = Csrs.default.read Csr.mideleg
  mie : c.read Csr.mie &&& ~~~c.read Csr.mideleg =
    Csrs.default.read Csr.mie &&& ~~~Csrs.default.read Csr.mideleg

theorem guarded_default : Csrs.default.Guarded := ⟨rfl, rfl, rfl, rfl⟩

/-- Writes that do not reach these registers. -/
theorem Guarded.write {c : Csrs} (hc : c.Guarded) (addr : Csr.Addr) (v : BitVec 64)
    (haddr : target addr ∉ [Csr.mtvec, Csr.medeleg, Csr.mideleg, Csr.mie]) :
    (c.write addr v).Guarded := by
  have hkept {other : Csr.Addr} (hother : other ∈ [Csr.mtvec, Csr.medeleg, Csr.mideleg, Csr.mie]) :
      (c.write addr v).regs other = c.regs other := by
    apply write_regs_of_ne
    intro heq
    rw [heq] at hother
    exact haddr hother
  refine ⟨(hkept ?_).trans hc.mtvec, (hkept ?_).trans hc.medeleg, (hkept ?_).trans hc.mideleg, ?_⟩
  · decide
  · decide
  · decide
  · change (c.write addr v).regs Csr.mie &&& ~~~(c.write addr v).regs Csr.mideleg = _
    rw [hkept (by decide), hkept (by decide)]
    exact hc.mie

/-- A write of `sie` changes the delegated bits of `mie` only. -/
theorem Guarded.write_sie {c : Csrs} (hc : c.Guarded) (v : BitVec 64) :
    (c.write Csr.sie v).Guarded := by
  have hkept {other : Csr.Addr} (hother : other ≠ Csr.mie) :
      (c.write Csr.sie v).regs other = c.regs other :=
    write_regs_of_ne c v hother
  refine ⟨(hkept ?_).trans hc.mtvec, (hkept ?_).trans hc.medeleg, (hkept ?_).trans hc.mideleg, ?_⟩
  · decide
  · decide
  · decide
  · change (c.write Csr.sie v).regs Csr.mie &&& ~~~(c.write Csr.sie v).regs Csr.mideleg = _
    have hmie : (c.write Csr.sie v).regs Csr.mie =
        merge (c.regs Csr.mideleg) (c.regs Csr.mie) v :=
      set_regs_self c Csr.mie _
    have houtside : merge (c.regs Csr.mideleg) (c.regs Csr.mie) v &&& ~~~c.regs Csr.mideleg =
        c.regs Csr.mie &&& ~~~c.regs Csr.mideleg := by
      apply BitVec.eq_of_getLsbD_eq
      intro j hj
      simp only [merge, BitVec.getLsbD_and, BitVec.getLsbD_or, BitVec.getLsbD_not]
      cases (c.regs Csr.mideleg).getLsbD j <;> simp [hj]
    rw [hmie, hkept (show Csr.mideleg ≠ Csr.mie by decide), houtside]
    exact hc.mie

/-- No register below machine level is one of them, but for `sie`. -/
theorem Guarded.write_unprivileged {c : Csrs} (hc : c.Guarded) {addr : Csr.Addr} (v : BitVec 64)
    (hlevel : ((addr >>> 8) &&& 3).toNat ≤ 1) : (c.write addr v).Guarded := by
  by_cases hsie : addr = Csr.sie
  · rw [hsie]
    exact hc.write_sie v
  · apply hc.write addr v
    rw [target]
    split_ifs with hsstatus hsip
    · decide
    · decide
    · intro hmem
      simp only [List.mem_cons, List.not_mem_nil, or_false] at hmem
      rcases hmem with rfl | rfl | rfl | rfl <;> exact absurd hlevel (by decide)

/-- The timer interrupt of M-mode cannot be enabled. -/
theorem Guarded.mtip {c : Csrs} (hc : c.Guarded) : c.read Csr.mie &&& Cpu.mtip = 0 := by
  have hmideleg : ~~~c.read Csr.mideleg &&& Cpu.mtip = Cpu.mtip := by
    rw [hc.mideleg]
    decide
  rw [← hmideleg, ← BitVec.and_assoc, hc.mie]
  decide

end Csrs

namespace Cpu

/-- What holds while the guest runs. -/
structure Confined (cpu : Cpu) : Prop where
  csrs : cpu.csrs.Guarded
  priv : cpu.priv ≠ .m

theorem guarded_enterTrap {cpu : Cpu} (hcsrs : cpu.csrs.Guarded) (cause tval : BitVec 64)
    (toS : Bool) : (cpu.enterTrap cause tval toS).csrs.Guarded := by
  cases toS with
  | true =>
      exact (((hcsrs.write Csr.sepc cpu.pc (by decide)).write Csr.scause cause (by decide)).write
        Csr.stval tval (by decide)).write Csr.mstatus _ (by decide)
  | false =>
      exact (((hcsrs.write Csr.mepc cpu.pc (by decide)).write Csr.mcause cause (by decide)).write
        Csr.mtval tval (by decide)).write Csr.mstatus _ (by decide)

/-- What an undelegated trap leaves for the loop to report. -/
theorem enterTrap_machine (cpu : Cpu) (cause tval : BitVec 64) :
    (cpu.enterTrap cause tval false).csrs.read Csr.mcause = cause ∧
      (cpu.enterTrap cause tval false).csrs.read Csr.mepc = cpu.pc ∧
        (cpu.enterTrap cause tval false).csrs.read Csr.mtval = tval := by
  have hkept (c : Csrs) {addr other : Csr.Addr} (v : BitVec 64)
      (hother : other ≠ Csrs.target addr) : (c.write addr v).regs other = c.regs other :=
    Csrs.write_regs_of_ne c v hother
  refine ⟨?_, ?_, ?_⟩
  · change (Csrs.write _ Csr.mstatus _).regs Csr.mcause = cause
    rw [hkept _ _ (by decide), hkept _ _ (by decide)]
    exact Csrs.set_regs_self _ Csr.mcause cause
  · change (Csrs.write _ Csr.mstatus _).regs Csr.mepc = cpu.pc
    rw [hkept _ _ (by decide), hkept _ _ (by decide), hkept _ _ (by decide)]
    exact Csrs.set_regs_self _ Csr.mepc cpu.pc
  · change (Csrs.write _ Csr.mstatus _).regs Csr.mtval = tval
    rw [hkept _ _ (by decide)]
    exact Csrs.set_regs_self _ Csr.mtval tval

/-- Looking for an interrupt delivers at most the supervisor's timer. -/
theorem Confined.checkInterrupts {cpu : Cpu} (hcpu : cpu.Confined) (pending : Bool) :
    (cpu.checkInterrupts pending).Confined := by
  have hcsrs (mip : BitVec 64) : (cpu.csrs.write Csr.mip mip).Guarded :=
    hcpu.csrs.write Csr.mip mip (by decide)
  rw [Cpu.checkInterrupts]
  dsimp only
  rw [if_neg]
  · split
    · exact ⟨guarded_enterTrap (hcsrs _) _ _ _, fun heq => Priv.noConfusion heq⟩
    · exact ⟨hcsrs _, hcpu.priv⟩
  · rintro ⟨-, hmie, -⟩
    exact hmie (hcsrs _).mtip

/-- What holds at the top of the loop. -/
structure AtLoop (cpu : Cpu) : Prop where
  csrs : cpu.csrs.Guarded
  stops : cpu.priv = .m → Host.deadEnd cpu

theorem Confined.atLoop {cpu : Cpu} (hcpu : cpu.Confined) : cpu.AtLoop :=
  ⟨hcpu.csrs, fun hpriv => absurd hpriv hcpu.priv⟩

/-- A trap is taken in S-mode, or nowhere. -/
theorem Confined.trap {cpu : Cpu} (hcpu : cpu.Confined) (e : Exception) :
    (cpu.trap e).AtLoop := by
  rw [Cpu.trap]
  cases decide (cpu.priv ≠ .m ∧ cpu.delegated e.cause) with
  | true => exact ⟨guarded_enterTrap hcpu.csrs _ _ _, fun heq => Priv.noConfusion heq⟩
  | false =>
      have hcsrs := guarded_enterTrap hcpu.csrs e.cause e.tval false
      have hmtvec : (cpu.enterTrap e.cause e.tval false).csrs.read Csr.mtvec = 0 := hcsrs.mtvec
      exact ⟨hcsrs, fun _ => ⟨rfl, hmtvec, hmtvec⟩⟩

end Cpu

namespace Machine

variable {B S : Type} [MemBacking B] [ConsoleSink S]

/-! ## Instructions -/

theorem confined_framed : Framed (Preserving fun m : Machine B S => m.cpu.Confined) where
  setReg m i v hm := by
    rw [Cpu.setReg]
    split
    · exact ⟨hm.csrs, hm.priv⟩
    · exact hm
  jump _ _ _ hm := ⟨hm.csrs, hm.priv⟩
  reserve _ _ hm := ⟨hm.csrs, hm.priv⟩
  translate := translate_keeps (fun _ _ hm => hm) (fun _ _ hm => ⟨hm.csrs, hm.priv⟩)
  busLoad := busLoad_keeps (fun _ _ _ _ hm => hm) (fun _ _ hm => hm)
  busStore := busStore_keeps (fun _ _ _ _ hm => hm) (fun _ _ hm => hm)

omit [MemBacking B] [ConsoleSink S] in
theorem privileged_confined (insn : Insn) :
    Keeps (Preserving fun m : Machine B S => m.cpu.Confined) (Rv64i.privileged insn) := by
  intro m
  rw [Rv64i.privileged, Exec.wp_bind, Exec.wp_read]
  dsimp only
  split_ifs with _ _ hmret hsret
  · exact fun hm => hm
  · exact fun hm => hm
  · exact fun hm => absurd hmret.2 hm.priv
  · intro hm
    refine ⟨hm.csrs.write Csr.mstatus _ (by decide), ?_⟩
    change (if _ then Priv.s else Priv.u) ≠ Priv.m
    split <;> exact fun heq => Priv.noConfusion heq
  · exact fun hm => hm
  · exact fun hm => ⟨hm.csrs, hm.priv⟩
  · exact fun hm => hm

theorem csrAccess_confined (insn : Insn) :
    Keeps (Preserving fun m : Machine B S => m.cpu.Confined) (Rv64i.csrAccess insn) := by
  intro m
  rw [Rv64i.csrAccess, Exec.wp_bind, Exec.wp_read]
  dsimp only
  rw [Exec.wp_ite]
  split
  · exact fun hm => hm
  next hlevel =>
  rw [Exec.wp_ite]
  split
  · exact fun hm => hm
  split
  · exact fun hm => hm
  · have hwrite (new : BitVec 64) (hm : m.cpu.Confined) :
        (m.cpu.csrs.write (Rv64i.csrAddr insn) new).Guarded := by
      apply hm.csrs.write_unprivileged
      have hpriv : m.cpu.priv.toBits.toNat ≤ 1 := by
        cases hcase : m.cpu.priv with
        | u => decide
        | s => decide
        | m => exact absurd hcase hm.priv
      omega
    rw [Rv64i.updateCsr, Exec.wp_bind, Rv64i.applyCsr, Exec.wp_ite]
    have hrest (old : BitVec 64) : Keeps (Preserving fun m : Machine B S => m.cpu.Confined)
        (do Machine.setReg (Insn.rd insn) old; pure true) :=
      .bind (confined_framed.setReg_keeps _ _) fun _ => .pure _
    split
    · rw [Rv64i.writeCsr, Exec.wp_bind, onCpu, Exec.wp_update, Exec.wp_ite]
      split
      · exact (hrest _).wp_from fun hm => ⟨hwrite _ hm, hm.priv⟩
      · exact (hrest _).wp_from fun hm => ⟨hwrite _ hm, hm.priv⟩
    · exact hrest _ m

/-- A step keeps the guest confined, whether it fails or not. -/
theorem step_confined :
    Keeps (Preserving fun m : Machine B S => m.cpu.Confined) (step : MachineM B S PUnit) := by
  apply Keeps.bind (confined_framed.reads .fetch).fetchInsn_keeps
  intro fetched
  apply Keeps.bind (.update fun _ hm => ⟨hm.csrs, hm.priv⟩)
  intro _
  apply Keeps.bind (confined_framed.execute_keeps fetched.1
    (fun _ _ => privileged_confined fetched.1) (fun _ _ => csrAccess_confined fetched.1))
  exact fun _ => .update fun _ hm => ⟨hm.csrs, hm.priv⟩

omit [MemBacking B] in
theorem deliver_confined {m : Machine B S} (hm : m.cpu.Confined)
    (result : Except Exception PUnit) :
    Exec.wp (deliver result) (fun _ after => after.cpu.AtLoop) (fun _ after => after.cpu.AtLoop)
      True m := by
  have hhandled : (Sbi.handle m).2.cpu.Confined := by
    have hkept : Preserving (fun m : Machine B S => m.cpu.Confined) m (Sbi.handle m).2 := by
      apply handle_keeps
      · intro m i v hm
        rw [Cpu.setReg]
        split
        · exact ⟨hm.csrs, hm.priv⟩
        · exact hm
      · exact fun m deadline hm => ⟨hm.csrs.write Csr.mip _ (by decide), hm.priv⟩
      · exact fun m byte hm => hm
    exact hkept hm
  unfold deliver
  split
  · exact hm.atLoop
  · rw [Exec.wp_bind, Exec.wp_call, Exec.wp_bind, Exec.wp_update, Exec.wp_pure]
    exact Cpu.Confined.atLoop ⟨hhandled.csrs, hhandled.priv⟩
  · exact hm.atLoop
  · exact hm.trap _

theorem stepTrapping_confined {m : Machine B S} (hm : m.cpu.Confined) :
    Exec.wp stepTrapping (fun _ after => after.cpu.AtLoop) (fun _ after => after.cpu.AtLoop)
      True m := by
  rw [stepTrapping, Exec.wp_bind, Exec.wp_attempt]
  exact (step_confined m).imp (fun _ _ hafter => deliver_confined (hafter hm) _)
    (fun _ _ hafter => deliver_confined (hafter hm) _) (fun hpanics => hpanics)

end Machine

end Baonix.Core

namespace Baonix.Host

open Baonix.Core

variable {B S : Type} [MemBacking B] [ConsoleSink S]

/-! ## Runs -/

/-- The states `run_until` is in at the top of its loop, console input arriving
in between. -/
inductive Turns (start : Machine B S) : Machine B S → Prop
  | start : Turns start start
  | turn {m after : Machine B S} (hturns : Turns start m) (hruns : ¬ deadEnd m.cpu)
      (hstep : Machine.stepTrapping.run m.interrupted = .ok (.ok .handled) after) :
      Turns start (after.ticked 1)
  | input {m : Machine B S} (hturns : Turns start m) (byte : LittleEndian.Byte) :
      Turns start (m.given byte)

omit [MemBacking B] [ConsoleSink S] in
theorem confined_of_atLoop {m : Machine B S} (hm : m.cpu.AtLoop) (hruns : ¬ deadEnd m.cpu) :
    m.interrupted.cpu.Confined := by
  have hcpu : m.cpu.Confined := ⟨hm.csrs, fun hpriv => hruns (hm.stops hpriv)⟩
  exact hcpu.checkInterrupts _

theorem Turns.atLoop {start m : Machine B S} (hstart : start.cpu.AtLoop)
    (hturns : Turns start m) : m.cpu.AtLoop := by
  induction hturns with
  | start => exact hstart
  | turn _ hruns hstep ih =>
      have hafter := (Machine.stepTrapping_confined (confined_of_atLoop ih hruns)).of_run_ok hstep
      exact ⟨hafter.csrs, hafter.stops⟩
  | input _ byte ih => exact ih

/-- The registers that confine the guest are as at the start when the loop ends. -/
theorem runUntil_guarded (left executed : ℕ) {m : Machine B S} (hm : m.cpu.AtLoop) :
    Exec.wp (runUntil left executed) (fun _ after => after.cpu.csrs.Guarded)
      (fun _ _ => True) True m := by
  induction left generalizing executed m with
  | zero =>
      rw [runUntil, Exec.wp_bind, Exec.wp_read, Exec.wp_ite]
      split <;> exact hm.csrs
  | succ left ih =>
      rw [runUntil, Exec.wp_bind, Exec.wp_read, Exec.wp_ite]
      split
      · exact hm.csrs
      next hruns =>
      rw [Exec.wp_bind, Exec.wp_update, Exec.wp_bind]
      apply (Machine.stepTrapping_confined (confined_of_atLoop hm hruns)).imp
      · intro outcome after hafter
        split
        · exact hafter.csrs
        · rw [Exec.wp_bind, Exec.wp_update]
          have hticked : (after.ticked 1).cpu.AtLoop := hafter
          exact ih (executed + 1) hticked
        · exact hafter.csrs
      · exact fun _ _ _ => trivial
      · exact fun hpanics => hpanics

theorem runUntil_deadEnd {m : Machine B S} (hm : deadEnd m.cpu) (left executed : ℕ) :
    (runUntil left executed).run m = .ok (.machineTrap executed (m.cpu.csrs.read Csr.mcause)
      (m.cpu.csrs.read Csr.mepc) (m.cpu.csrs.read Csr.mtval)) m := by
  have hread : (Exec.read : Exec Empty (Machine B S) (Machine B S)).run m = .ok m m := rfl
  cases left with
  | zero => rw [runUntil, Exec.run_bind_ok hread, if_pos hm]; rfl
  | succ left => rw [runUntil, Exec.run_bind_ok hread, if_pos hm]; rfl

theorem runUntil_turn {m after : Machine B S} (hruns : ¬ deadEnd m.cpu)
    (hstep : Machine.stepTrapping.run m.interrupted = .ok (.ok .handled) after)
    (left executed : ℕ) :
    (runUntil (left + 1) executed).run m = (runUntil left (executed + 1)).run (after.ticked 1) := by
  have hread : (Exec.read : Exec Empty (Machine B S) (Machine B S)).run m = .ok m m := rfl
  have hupdate (change : Machine B S → Machine B S) (state : Machine B S) :
      (Exec.update change : Exec Empty (Machine B S) PUnit).run state = .ok .unit (change state) :=
    rfl
  rw [runUntil, Exec.run_bind_ok hread, if_neg hruns, Exec.run_bind_ok (hupdate _ m),
    Exec.run_bind_ok hstep]
  dsimp only
  rw [Exec.run_bind_ok (hupdate _ after)]

/-- An undelegated trap leads to a dead end that describes it. -/
theorem stepTrapping_undelegated {m after : Machine B S} {e : Exception}
    (hstep : Machine.step.run m = .error e after) (hcall : e ≠ .environmentCallFromSMode)
    (hmedium : ∀ addr, e ≠ .backingFailure addr) (hundelegated : ¬ m.cpu.delegated e.cause) :
    Machine.stepTrapping.run m =
      .ok (.ok .handled) { after with cpu := after.cpu.enterTrap e.cause e.tval false } := by
  have hattempt : (Exec.attempt Machine.step : Exec Empty (Machine B S) _).run m =
      .ok (.error e) after := by
    rw [Exec.run] at hstep
    simp only [Exec.run, Exec.attempt, hstep]
  have hsame := (Machine.step_restores m).of_run_error hstep
  have htrap : after.cpu.trap e = after.cpu.enterTrap e.cause e.tval false := by
    have hnot : ¬ (after.cpu.priv ≠ .m ∧ after.cpu.delegated e.cause) := by
      rintro ⟨-, hdelegated⟩
      rw [Cpu.delegated, hsame.csrs] at hdelegated
      exact hundelegated hdelegated
    rw [Cpu.trap, decide_eq_false hnot]
  have hdeliver : (Machine.deliver (.error e)).run after =
      .ok (.ok .handled) { after with cpu := after.cpu.trap e } := by
    cases e with
    | environmentCallFromSMode => exact absurd rfl hcall
    | backingFailure addr => exact absurd rfl (hmedium addr)
    | _ => rfl
  rw [Machine.stepTrapping, Exec.run_bind_ok hattempt, hdeliver, htrap]

/-- **The loop stops on the first undelegated trap** and reports it. -/
theorem runUntil_undelegated {m after : Machine B S} (hm : m.cpu.AtLoop)
    (hruns : ¬ deadEnd m.cpu) {e : Exception}
    (hstep : Machine.step.run m.interrupted = .error e after)
    (hcall : e ≠ .environmentCallFromSMode) (hmedium : ∀ addr, e ≠ .backingFailure addr)
    (hundelegated : ¬ m.interrupted.cpu.delegated e.cause) (left executed : ℕ) :
    ∃ final, (runUntil (left + 1) executed).run m =
      .ok (.machineTrap (executed + 1) e.cause m.interrupted.cpu.pc e.tval) final := by
  have hconfined := confined_of_atLoop hm hruns
  have htrapped := stepTrapping_undelegated hstep hcall hmedium hundelegated
  have hsame := (Machine.step_restores m.interrupted).of_run_error hstep
  obtain ⟨hcause, hpc, htval⟩ := after.cpu.enterTrap_machine e.cause e.tval
  have hguarded : (after.cpu.enterTrap e.cause e.tval false).csrs.Guarded := by
    apply Cpu.guarded_enterTrap
    rw [hsame.csrs]
    exact hconfined.csrs
  have hdead : deadEnd (Machine.ticked 1 { after with
      cpu := after.cpu.enterTrap e.cause e.tval false }).cpu :=
    ⟨rfl, hguarded.mtvec, hguarded.mtvec⟩
  refine ⟨Machine.ticked 1 { after with cpu := after.cpu.enterTrap e.cause e.tval false }, ?_⟩
  rw [runUntil_turn hruns htrapped left executed, runUntil_deadEnd hdead left (executed + 1)]
  change Outcome.ok (RunOutcome.machineTrap (executed + 1)
    ((after.cpu.enterTrap e.cause e.tval false).csrs.read Csr.mcause)
    ((after.cpu.enterTrap e.cause e.tval false).csrs.read Csr.mepc)
    ((after.cpu.enterTrap e.cause e.tval false).csrs.read Csr.mtval)) _ = _
  rw [hcause, hpc, htval, hsame.pc]

/-- **The guest is confined below M-mode.**  From the boot state on, at the top
of the loop: the registers that confine it are as firmware leaves them, and will
be when the loop ends; and unless the loop stops here, the next instruction is
fetched and executed below M-mode, and if it raises a trap that is not delegated
then the loop ends with that trap. -/
theorem guest_confined {start m : Machine B S} {dtb : BitVec 64} (hboot : start.cpu = bootCpu dtb)
    (hturns : Turns start m) :
    m.cpu.csrs.Guarded ∧
      (∀ left executed outcome final, (runUntil left executed).run m = .ok outcome final →
        final.cpu.csrs.Guarded) ∧
      (¬ deadEnd m.cpu → m.interrupted.cpu.priv ≠ .m ∧
        (∀ insn len fetched, Machine.fetchInsn.run m.interrupted = .ok (insn, len) fetched →
          fetched.cpu.priv ≠ .m) ∧
        ∀ e after, Machine.step.run m.interrupted = .error e after →
          e ≠ .environmentCallFromSMode → (∀ addr, e ≠ .backingFailure addr) →
            ¬ m.interrupted.cpu.delegated e.cause → ∀ left executed, ∃ final,
              (runUntil (left + 1) executed).run m =
                .ok (.machineTrap (executed + 1) e.cause m.interrupted.cpu.pc e.tval) final) := by
  have hstart : start.cpu.AtLoop := by
    rw [hboot]
    exact Cpu.Confined.atLoop ⟨Csrs.guarded_default, fun heq => Priv.noConfusion heq⟩
  have hm := hturns.atLoop hstart
  refine ⟨hm.csrs, ?_, ?_⟩
  · exact fun left executed outcome final hrun => (runUntil_guarded left executed hm).of_run_ok hrun
  · intro hruns
    have hconfined := confined_of_atLoop hm hruns
    refine ⟨hconfined.priv, ?_, ?_⟩
    · intro insn len fetched hfetch
      exact (((Machine.confined_framed.reads .fetch).fetchInsn_keeps m.interrupted).of_run_ok
        hfetch hconfined).priv
    · exact fun e after hstep hcall hmedium hundelegated left executed =>
        runUntil_undelegated hm hruns hstep hcall hmedium hundelegated left executed

/-- A kernel of zeros. -/
def zeroKernel : Machine FakeBacking (List LittleEndian.Byte) :=
  Machine.overPages (fun _ _ => 0) (bootCpu 0x80400000)

/-- Its first halfword is an illegal instruction, which stops the loop. -/
theorem guest_confined_zeroKernel : ∃ final,
    (runUntil 5 0).run zeroKernel = .ok (.machineTrap 1 2 0x80200000 0) final := by
  have hfault : ((Machine.step.run zeroKernel.interrupted).reply.bind fun reply =>
      match reply.1 with
      | .error err => some err
      | .ok _ => none) = some (.illegalInstruction 0) := by
    decide +kernel
  cases hstep : Machine.step.run zeroKernel.interrupted with
  | ok value after => rw [hstep] at hfault; cases hfault
  | error err after =>
      rw [hstep] at hfault
      have herr : err = .illegalInstruction 0 := Option.some.inj hfault
      rw [herr] at hstep
      have hboot : zeroKernel.cpu = bootCpu 0x80400000 := rfl
      obtain ⟨-, -, htraps⟩ := (guest_confined hboot .start).2.2 (by decide)
      exact htraps _ after hstep (by decide) (fun _ heq => Exception.noConfusion heq)
        (by decide) 4 0
  | panic => rw [hstep] at hfault; cases hfault

end Baonix.Host

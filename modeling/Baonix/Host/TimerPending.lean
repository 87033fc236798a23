import Baonix.Host.Confinement

/-!
# The supervisor timer's pending bit

`mip.STIP` forwards the comparator to S-mode: looking for an interrupt raises it
and the timer call of the SBI acknowledges it.  The guest is not meant to touch
it otherwise, yet `sip` shows the bit and a write of `sip` under `mideleg`
reaches it.  What follows finds the writes that do, for any order in which a
program looks for interrupts, steps, lets the clock tick and passes input on.
-/

namespace Baonix.Core

open Baonix.Bits
open Exec (Keeps)

namespace Csrs

/-- `mip.STIP`. -/
def timerPending (c : Csrs) : Bool := (c.read Csr.mip).getLsbD 5

variable (c : Csrs)

/-- Writes that do not reach `mip`. -/
theorem timerPending_write {addr : Csr.Addr} (v : BitVec 64) (haddr : Csr.mip ≠ target addr) :
    (c.write addr v).timerPending = c.timerPending := by
  have hsame : (c.write addr v).regs Csr.mip = c.regs Csr.mip := write_regs_of_ne c v haddr
  exact congrArg (BitVec.getLsbD · 5) hsame

theorem timerPending_write_mip (v : BitVec 64) :
    (c.write Csr.mip v).timerPending = v.getLsbD 5 := by
  have hmip : (c.write Csr.mip v).regs Csr.mip = v := set_regs_self c Csr.mip v
  exact congrArg (BitVec.getLsbD · 5) hmip

/-- `sip` writes the bit through, since it is delegated. -/
theorem timerPending_write_sip {c : Csrs} (hc : c.Guarded) (v : BitVec 64) :
    (c.write Csr.sip v).timerPending = v.getLsbD 5 := by
  have hmip : (c.write Csr.sip v).regs Csr.mip = merge (c.regs Csr.mideleg) (c.regs Csr.mip) v :=
    set_regs_self c Csr.mip _
  have hdelegated : (c.regs Csr.mideleg).getLsbD 5 = true := by
    have hmideleg : c.regs Csr.mideleg = Csrs.default.read Csr.mideleg := hc.mideleg
    rw [hmideleg]
    decide
  change ((c.write Csr.sip v).regs Csr.mip).getLsbD 5 = v.getLsbD 5
  rw [hmip, merge, getLsbD_masked, hdelegated]
  rfl

end Csrs

namespace Cpu

variable (cpu : Cpu)

theorem timerPending_enterTrap (cause tval : BitVec 64) (toS : Bool) :
    (cpu.enterTrap cause tval toS).csrs.timerPending = cpu.csrs.timerPending := by
  cases toS with
  | true =>
      change (Csrs.write _ Csr.mstatus _).timerPending = _
      rw [Csrs.timerPending_write _ _ (by decide), Csrs.timerPending_write _ _ (by decide),
        Csrs.timerPending_write _ _ (by decide), Csrs.timerPending_write _ _ (by decide)]
  | false =>
      change (Csrs.write _ Csr.mstatus _).timerPending = _
      rw [Csrs.timerPending_write _ _ (by decide), Csrs.timerPending_write _ _ (by decide),
        Csrs.timerPending_write _ _ (by decide), Csrs.timerPending_write _ _ (by decide)]

/-- Looking for an interrupt raises the bit while the comparator is pending, and
never lowers it. -/
theorem timerPending_checkInterrupts (pending : Bool) :
    (cpu.checkInterrupts pending).csrs.timerPending = (cpu.csrs.timerPending || pending) := by
  have hbits : (timerBits pending (cpu.csrs.read Csr.mip)).getLsbD 5 =
      (cpu.csrs.timerPending || pending) := by
    cases pending with
    | true =>
        change (_ ||| (mtip ||| stip)).getLsbD 5 = _
        rw [BitVec.getLsbD_or, show (mtip ||| stip).getLsbD 5 = true by decide]
        rfl
    | false =>
        change (_ &&& ~~~mtip).getLsbD 5 = _
        rw [BitVec.getLsbD_and, show (~~~mtip).getLsbD 5 = true by decide, Bool.and_true,
          Bool.or_false]
        rfl
  rw [checkInterrupts]
  dsimp only
  split_ifs
  · rw [timerPending_enterTrap, Csrs.timerPending_write_mip, hbits]
  · rw [timerPending_enterTrap, Csrs.timerPending_write_mip, hbits]
  · rw [Csrs.timerPending_write_mip, hbits]

end Cpu

/-! ## Calls -/

namespace Sbi

variable {B S : Type} [ConsoleSink S]

/-- The call in `a7` and `a6` is one of the two that set the timer. -/
def setsTimer (cpu : Cpu) : Prop :=
  cpu.reg 17 = extSetTimer ∨ cpu.reg 17 = extTimerV02 ∧ cpu.reg 16 = 0

instance (cpu : Cpu) : Decidable (setsTimer cpu) := instDecidableOr

omit [ConsoleSink S] in
theorem setReg_csrs (cpu : Cpu) (i : BitVec 5) (v : BitVec 64) :
    (cpu.setReg i v).csrs = cpu.csrs := by
  rw [Cpu.setReg]
  split <;> rfl

/-- A call acknowledges the timer or leaves the bit alone. -/
theorem timerPending_handle (m : Machine B S) :
    (handle m).2.cpu.csrs.timerPending =
      if setsTimer m.cpu then false else m.cpu.csrs.timerPending := by
  have hset (deadline : BitVec 64) : (setTimer deadline m).cpu.csrs.timerPending = false := by
    change (m.cpu.csrs.write Csr.mip _).timerPending = false
    rw [Csrs.timerPending_write_mip, BitVec.getLsbD_and,
      show (~~~mipStip).getLsbD 5 = false by decide, Bool.and_false]
  have hreply (value : BitVec 64) (m : Machine B S) :
      (reply value m).cpu.csrs = m.cpu.csrs := setReg_csrs m.cpu 10 value
  have hpair (result : BitVec 64 × BitVec 64) (m : Machine B S) :
      (replyPair result m).cpu.csrs = m.cpu.csrs :=
    (setReg_csrs _ 11 result.2).trans (setReg_csrs m.cpu 10 result.1)
  unfold handle
  dsimp only
  by_cases htimer : m.cpu.reg 17 = extSetTimer
  · rw [if_pos htimer, hreply, hset, if_pos (.inl htimer)]
  rw [if_neg htimer]
  by_cases hlater : m.cpu.reg 17 = extTimerV02 ∧ m.cpu.reg 16 = 0
  · have hother {ext : BitVec 64} (hext : extTimerV02 ≠ ext) : m.cpu.reg 17 ≠ ext := by
      rw [hlater.1]
      exact hext
    rw [if_neg (hother (by decide)), if_neg (hother (by decide)), if_neg (hother (by decide)),
      if_pos hlater, hpair, hset, if_pos (.inr hlater)]
  · have hneither : ¬ setsTimer m.cpu := not_or.mpr ⟨htimer, hlater⟩
    rw [if_neg hlater, if_neg hneither]
    split_ifs
    · rw [hreply]
      rfl
    · rw [hreply]
    · rfl
    · rfl
    · rw [hpair]
    · rw [hpair]

end Sbi

/-! ## Instructions -/

namespace Rv64i

open Insn

/-- The instruction writes `sip` so that the bit changes. -/
def forgesTimer (insn : Insn) (cpu : Cpu) : Prop :=
  opcode insn = 0x73 ∧ funct3 insn ≠ 0 ∧ csrAddr insn = Csr.sip ∧ writesCsr insn ∧ cpu.priv ≠ .u ∧
    ∃ new, newCsr insn (cpu.csrs.read Csr.sip)
        (if funct3 insn &&& 0x4 ≠ 0 then (rs1 insn).setWidth 64 else cpu.reg (rs1 insn)) =
          some new ∧
      new.getLsbD 5 ≠ cpu.csrs.timerPending

end Rv64i

namespace Machine

open Rv64i (forgesTimer)

variable {B S : Type}

/-- The bit is as before. -/
def SameTimer (start after : Machine B S) : Prop :=
  after.cpu.csrs.timerPending = start.cpu.csrs.timerPending

instance : IsPreorder (Machine B S) SameTimer where
  refl _ := rfl
  trans _ _ _ hleft hright := Eq.trans hright hleft

variable [MemBacking B] [ConsoleSink S]

theorem sameTimer_framed : Framed (@SameTimer B S) where
  setReg m i v := congrArg Csrs.timerPending (Sbi.setReg_csrs m.cpu i v)
  jump _ _ _ := rfl
  reserve _ _ := rfl
  translate := translate_keeps (fun _ _ => rfl) (fun _ _ => rfl)
  busLoad := busLoad_keeps (fun _ _ _ _ => rfl) (fun _ _ => rfl)
  busStore := busStore_keeps (fun _ _ _ _ => rfl) (fun _ _ => rfl)

omit [MemBacking B] [ConsoleSink S] in
/-- MRET and SRET write `mstatus` only. -/
theorem privileged_sameTimer (insn : Insn) :
    Keeps SameTimer (Rv64i.privileged insn : MachineM B S Bool) := by
  have hmret (cpu : Cpu) : cpu.mret.csrs.timerPending = cpu.csrs.timerPending := by
    change (Csrs.write _ Csr.mstatus _).timerPending = _
    rw [Csrs.timerPending_write _ _ (by decide)]
  have hsret (cpu : Cpu) : cpu.sret.csrs.timerPending = cpu.csrs.timerPending := by
    change (Csrs.write _ Csr.mstatus _).timerPending = _
    rw [Csrs.timerPending_write _ _ (by decide)]
  apply Keeps.bind .read
  intro m
  dsimp only
  split_ifs
  · exact .raise _
  · exact .raise _
  · exact .bind (.update fun m => hmret m.cpu) fun _ => .pure _
  · exact .bind (.update fun m => hsret m.cpu) fun _ => .pure _
  · exact .pure _
  · exact .bind (.update fun _ => rfl) fun _ => .pure _
  · exact .raise _

omit [MemBacking B] [ConsoleSink S] in
/-- **A CSR instruction** changes the bit exactly if it forges it, and one that
fails does not. -/
theorem csrAccess_timerPending {insn : Insn} (hopcode : Insn.opcode insn = 0x73)
    (hfunct3 : Insn.funct3 insn ≠ 0) {m : Machine B S} (hm : m.cpu.Confined) :
    Exec.wp (Rv64i.csrAccess insn)
      (fun handled after => handled = true ∧ (SameTimer m after ↔ ¬ forgesTimer insn m.cpu))
      (fun _ _ => ¬ forgesTimer insn m.cpu) True m := by
  have hpriv : m.cpu.priv.toBits.toNat ≤ 1 := by
    cases hcase : m.cpu.priv with
    | u => decide
    | s => decide
    | m => exact absurd hcase hm.priv
  rw [Rv64i.csrAccess, Exec.wp_bind, Exec.wp_read]
  dsimp only
  rw [Exec.wp_ite]
  split
  · next hlevel =>
    rintro ⟨-, -, hsip, -, hpriv, -⟩
    rw [hsip] at hlevel
    cases hcase : m.cpu.priv with
    | u => exact hpriv hcase
    | s =>
        rw [hcase] at hlevel
        exact absurd hlevel (by decide)
    | m => exact hm.priv hcase
  next hlevel =>
  rw [Exec.wp_ite]
  split
  · next hreadOnly =>
    rintro ⟨-, -, hsip, -⟩
    rw [hsip] at hreadOnly
    exact absurd hreadOnly.1 (by decide)
  have hold (hsip : Rv64i.csrAddr insn = Csr.sip) :
      Rv64i.oldCsr m (Rv64i.csrAddr insn) = m.cpu.csrs.read Csr.sip := by
    rw [hsip]
    rfl
  split
  · next hnone =>
    rintro ⟨-, -, hsip, -, -, new, hnew, -⟩
    rw [hold hsip, hnew] at hnone
    cases hnone
  · next new hnew =>
    rw [Rv64i.updateCsr, Exec.wp_bind, Rv64i.applyCsr, Exec.wp_ite]
    -- what follows the write leaves the bit alone
    have hrest {middle : Machine B S} (hmiddle : SameTimer m middle ↔ ¬ forgesTimer insn m.cpu) :
        Exec.wp (do Machine.setReg (Insn.rd insn) (Rv64i.oldCsr m (Rv64i.csrAddr insn)); pure true)
          (fun handled after => handled = true ∧ (SameTimer m after ↔ ¬ forgesTimer insn m.cpu))
          (fun _ _ => ¬ forgesTimer insn m.cpu) True middle := by
      rw [Exec.wp_bind, Machine.setReg, onCpu, Exec.wp_update, Exec.wp_pure]
      refine ⟨rfl, ?_⟩
      rw [← hmiddle, SameTimer, SameTimer, Sbi.setReg_csrs]
    split
    · next hwrites =>
      have hwritten : SameTimer m { m with cpu := { m.cpu with
          csrs := m.cpu.csrs.write (Rv64i.csrAddr insn) new } } ↔ ¬ forgesTimer insn m.cpu := by
        by_cases hsip : Rv64i.csrAddr insn = Csr.sip
        · have hbit : (m.cpu.csrs.write (Rv64i.csrAddr insn) new).timerPending =
              new.getLsbD 5 := by
            rw [hsip]
            exact Csrs.timerPending_write_sip hm.csrs new
          rw [SameTimer, hbit]
          constructor
          · rintro hsame ⟨-, -, -, -, -, forged, hforged, hchanged⟩
            rw [← hold hsip, hnew, Option.some.injEq] at hforged
            rw [hforged] at hsame
            exact hchanged hsame
          · intro hhonest
            by_contra hchanged
            apply hhonest
            refine ⟨hopcode, hfunct3, hsip, hwrites, ?_, new, ?_, hchanged⟩
            · intro huser
              rw [hsip, huser] at hlevel
              exact hlevel (by decide)
            · rw [← hold hsip]
              exact hnew
        · have hmip : Csr.mip ≠ Csrs.target (Rv64i.csrAddr insn) := by
            rw [Csrs.target]
            split_ifs
            · decide
            · decide
            · intro heq
              rw [← heq] at hlevel
              have hmachine : ((Csr.mip >>> 8) &&& 3).toNat = 3 := by decide
              omega
          constructor
          · rintro - ⟨-, -, hforged, -⟩
            exact hsip hforged
          · exact fun _ => m.cpu.csrs.timerPending_write new hmip
      rw [Rv64i.writeCsr, Exec.wp_bind, onCpu, Exec.wp_update, Exec.wp_ite]
      split
      · exact hrest hwritten
      · exact hrest hwritten
    · next hreads =>
      apply hrest
      constructor
      · rintro - ⟨-, -, -, hwrites, -⟩
        exact hreads hwrites
      · exact fun _ => rfl

/-- **An instruction** changes the bit exactly if it forges it. -/
theorem execute_timerPending (insn : Insn) {m : Machine B S} (hm : m.cpu.Confined) :
    Exec.wp (execute insn) (fun _ after => SameTimer m after ↔ ¬ forgesTimer insn m.cpu)
      (fun _ _ => ¬ forgesTimer insn m.cpu) True m := by
  by_cases hcsr : Insn.opcode insn = 0x73 ∧ Insn.funct3 insn ≠ 0
  · obtain ⟨hopcode, hfunct3⟩ := hcsr
    rw [execute, handled_system hopcode, if_neg hfunct3, Exec.wp_bind]
    apply (csrAccess_timerPending hopcode hfunct3 hm).imp_post
    rintro handled after ⟨rfl, hafter⟩
    exact hafter
  · have hhonest : ¬ forgesTimer insn m.cpu := fun hforges => hcsr ⟨hforges.1, hforges.2.1⟩
    have hkeeps := sameTimer_framed.execute_keeps insn (fun _ _ => privileged_sameTimer insn)
      (fun hopcode hfunct3 => absurd ⟨hopcode, hfunct3⟩ hcsr) m
    exact hkeeps.imp (fun _ _ hsame => ⟨fun _ => hhonest, fun _ => hsame⟩) (fun _ _ _ => hhonest)
      (fun hpanics => hpanics)

/-- The next instruction forges the bit. -/
def NextForges (m : Machine B S) : Prop :=
  ∃ insn len fetched, fetchInsn.run m = .ok (insn, len) fetched ∧ forgesTimer insn m.cpu

/-- **A step below M-mode** changes the bit exactly if its instruction forges it. -/
theorem step_timerPending {m : Machine B S} (hm : m.cpu.Confined) :
    Exec.wp step (fun _ after => SameTimer m after ↔ ¬ NextForges m) (fun _ _ => ¬ NextForges m)
      True m := by
  rw [step, Exec.wp_bind]
  apply ((sameCore_reads .fetch).fetchInsn_keeps m).attach.imp
  · rintro ⟨insn, len⟩ fetched ⟨hfetch, hsame⟩
    have hforges : NextForges m ↔
        forgesTimer insn { fetched.cpu with insnLen := len, nextPc := none } := by
      have hcpu : forgesTimer insn { fetched.cpu with insnLen := len, nextPc := none } ↔
          forgesTimer insn m.cpu := by
        simp only [forgesTimer, Cpu.reg, hsame.regs, hsame.csrs, hsame.priv]
      rw [hcpu]
      constructor
      · rintro ⟨other, otherLen, after, hother, hforges⟩
        rw [hfetch] at hother
        cases hother
        exact hforges
      · exact fun hforges => ⟨insn, len, fetched, hfetch, hforges⟩
    have hbegun : ({ fetched with cpu := fetched.cpu.begin len } : Machine B S).cpu.Confined := by
      constructor
      · exact hsame.csrs ▸ hm.csrs
      · exact hsame.priv ▸ hm.priv
    dsimp only
    rw [executeFetched, Exec.wp_bind, onCpu, Exec.wp_update, Exec.wp_bind]
    apply (execute_timerPending insn hbegun).imp
    · intro _ after hafter
      rw [onCpu, Exec.wp_update, hforges]
      refine Iff.trans ?_ hafter
      change _ = m.cpu.csrs.timerPending ↔ _ = fetched.cpu.csrs.timerPending
      rw [hsame.csrs]
      rfl
    · exact fun _ _ hhonest => hforges.not.mpr hhonest
    · exact fun hpanics => hpanics
  · rintro err after ⟨hfetch, -⟩ ⟨insn, len, fetched, hok, -⟩
    rw [hfetch] at hok
    cases hok
  · exact fun hpanics => hpanics

/-! ## Actions -/

/-- The step ends in a call that sets the timer. -/
def CallsSetTimer (m : Machine B S) : Prop :=
  ∃ called, step.run m = .error .environmentCallFromSMode called ∧ Sbi.setsTimer called.cpu

/-- What the documentation of `check_interrupts` says of an action: the bit is
raised by looking for an interrupt while the comparator is pending, and lowered by
the timer call. -/
structure TimerDocumented (action : Action) (m after : Machine B S) : Prop where
  raised : m.cpu.csrs.timerPending = false → after.cpu.csrs.timerPending = true →
    action = .interrupt ∧ m.bus.clint.pending = true
  lowered : m.cpu.csrs.timerPending = true → after.cpu.csrs.timerPending = false →
    action = .step ∧ CallsSetTimer m

theorem TimerDocumented.of_same {action : Action} {m after : Machine B S}
    (hsame : SameTimer m after) : TimerDocumented action m after where
  raised hlow hhigh := by
    rw [SameTimer, hlow, hhigh] at hsame
    cases hsame
  lowered hhigh hlow := by
    rw [SameTimer, hlow, hhigh] at hsame
    cases hsame

/-- A step that does not fail calls nothing. -/
theorem timerDocumented_of_ok {m after : Machine B S} (hstep : step.run m = .ok () after) :
    TimerDocumented .step m after ↔ SameTimer m after := by
  constructor
  · intro hdocumented
    cases hbefore : m.cpu.csrs.timerPending with
    | false =>
        cases hafter : after.cpu.csrs.timerPending with
        | false => exact hafter.trans hbefore.symm
        | true => cases (hdocumented.raised hbefore hafter).1
    | true =>
        cases hafter : after.cpu.csrs.timerPending with
        | false =>
            obtain ⟨-, called, hcalled, -⟩ := hdocumented.lowered hbefore hafter
            rw [hstep] at hcalled
            cases hcalled
        | true => exact hafter.trans hbefore.symm
  · exact .of_same

/-- Servicing a failed step is documented. -/
theorem deliver_timerDocumented {m failed : Machine B S} {err : Exception}
    (hstep : step.run m = .error err failed) :
    Exec.wp (deliver (.error err)) (fun _ after => TimerDocumented .step m after)
      (fun _ _ => True) True failed := by
  have hsame : SameTimer m failed := by
    have hcore := (step_restores m).of_run_error hstep
    exact congrArg Csrs.timerPending hcore.csrs
  have htrap (e : Exception) :
      TimerDocumented .step m { failed with cpu := failed.cpu.trap e } :=
    .of_same ((failed.cpu.timerPending_enterTrap e.cause e.tval _).trans hsame)
  cases err with
  | environmentCallFromSMode =>
      rw [deliver, Exec.wp_bind, Exec.wp_call, Exec.wp_bind, Exec.wp_update, Exec.wp_pure]
      have hhandled := Sbi.timerPending_handle failed
      split at hhandled
      · next hsets =>
        constructor
        · intro _ hhigh
          cases hhandled.symm.trans hhigh
        · exact fun _ _ => ⟨rfl, failed, hstep, hsets⟩
      · exact .of_same (hhandled.trans hsame)
  | backingFailure addr => exact .of_same hsame
  | _ => exact htrap _

/-! ## Runs -/

omit [ConsoleSink S] in
/-- Nothing can be fetched from where undelegated traps end up. -/
theorem fetchInsn_deadEnd {m : Machine B S} (hdead : Host.deadEnd m.cpu) :
    Exec.wp fetchInsn (fun _ _ => False)
      (fun err _ => err = .instructionAccessFault 0) True m := by
  obtain ⟨hpriv, hpc, -⟩ := hdead
  have hfits : fitsPage m.cpu.pc 2 := by
    rw [hpc]
    decide
  have hphysical : ¬ Mmu.paging m.cpu.csrs m.cpu.priv := fun hpaging => hpaging.2 hpriv
  rw [fetchInsn, Exec.wp_bind, fetch, Exec.wp_bind, Exec.wp_read, Exec.wp_zoom, readTranslated,
    if_pos hfits, Exec.wp_bind, translate, Exec.wp_bind, Exec.wp_read, Exec.wp_bind,
    Exec.wp_update, Exec.wp_zoom]
  dsimp only [id]
  rw [Mmu.translate, if_pos hphysical, Exec.wp_pure, busLoad, Exec.wp_bind, Exec.wp_update,
    Exec.wp_zoom, hpc]
  exact rfl

theorem step_deadEnd {m : Machine B S} (hdead : Host.deadEnd m.cpu) :
    Exec.wp step (fun _ _ => False)
      (fun err _ => err = .instructionAccessFault 0 ∧ ¬ NextForges m) True m := by
  rw [step, Exec.wp_bind]
  apply (fetchInsn_deadEnd hdead).attach.imp
  · exact fun _ _ hfetched => hfetched.2.elim
  · rintro err failed ⟨hrun, rfl⟩
    refine ⟨rfl, ?_⟩
    rintro ⟨insn, len, fetched, hfetch, -⟩
    cases hrun.symm.trans hfetch
  · exact fun hpanics => hpanics

/-- **A step is documented exactly if it forges nothing**, from any state the guest
can be in. -/
theorem stepTrapping_timerDocumented {m : Machine B S} (hm : m.cpu.AtLoop) :
    Exec.wp stepTrapping (fun _ after => TimerDocumented .step m after ↔ ¬ NextForges m)
      (fun _ _ => True) True m := by
  have hfails {err : Exception} {failed : Machine B S} (hstep : step.run m = .error err failed)
      (hhonest : ¬ NextForges m) :
      Exec.wp (deliver (.error err)) (fun _ after => TimerDocumented .step m after ↔ ¬ NextForges m)
        (fun _ _ => True) True failed :=
    (deliver_timerDocumented hstep).imp (fun _ _ hafter => ⟨fun _ => hhonest, fun _ => hafter⟩)
      (fun _ _ _ => trivial) (fun _ => trivial)
  rw [stepTrapping, Exec.wp_bind, Exec.wp_attempt]
  by_cases hdead : Host.deadEnd m.cpu
  · apply (step_deadEnd hdead).attach.imp
    · exact fun _ _ hstep => hstep.2.elim
    · exact fun err failed hfailed => hfails hfailed.1 hfailed.2.2
    · exact fun _ => trivial
  · have hconfined : m.cpu.Confined := ⟨hm.csrs, fun hpriv => hdead (hm.stops hpriv)⟩
    apply (step_timerPending hconfined).attach.imp
    · rintro _ after ⟨hstep, hafter⟩
      exact (timerDocumented_of_ok hstep).trans hafter
    · exact fun err failed hfailed => hfails hfailed.1 hfailed.2
    · exact fun _ => trivial

/-- Looking for an interrupt is documented. -/
theorem interrupted_timerDocumented (m : Machine B S) :
    TimerDocumented .interrupt m m.interrupted := by
  have hafter := m.cpu.timerPending_checkInterrupts m.bus.clint.pending
  constructor
  · intro hlow hhigh
    refine ⟨rfl, ?_⟩
    rw [hlow, Bool.false_or] at hafter
    exact hafter.symm.trans hhigh
  · intro hhigh hlow
    rw [hhigh, Bool.true_or] at hafter
    cases hafter.symm.trans hlow

/-! ### Where the guest can be -/

omit [MemBacking B] [ConsoleSink S] in
theorem atLoop_interrupted {m : Machine B S} (hm : m.cpu.AtLoop) : m.interrupted.cpu.AtLoop := by
  by_cases hdead : Host.deadEnd m.cpu
  · have hcsrs (mip : BitVec 64) : (m.cpu.csrs.write Csr.mip mip).Guarded :=
      hm.csrs.write Csr.mip mip (by decide)
    have hcpu : m.interrupted.cpu = { m.cpu with
        csrs := m.cpu.csrs.write Csr.mip
          (Cpu.timerBits m.bus.clint.pending (m.cpu.csrs.read Csr.mip)) } := by
      rw [interrupted, Cpu.checkInterrupts]
      dsimp only
      rw [if_neg, if_neg]
      · rintro ⟨-, -, henabled⟩
        rw [Cpu.interruptEnabled] at henabled
        simp [hdead.1] at henabled
      · rintro ⟨-, hmie, -⟩
        exact hmie (hcsrs _).mtip
    rw [hcpu]
    exact ⟨hcsrs _, fun _ => ⟨hdead.1, hdead.2.1, (hcsrs _).mtvec⟩⟩
  · exact (Host.confined_of_atLoop hm hdead).atLoop

theorem atLoop_stepTrapping {m : Machine B S} (hm : m.cpu.AtLoop) :
    Exec.wp stepTrapping (fun _ after => after.cpu.AtLoop) (fun _ after => after.cpu.AtLoop)
      True m := by
  by_cases hdead : Host.deadEnd m.cpu
  · rw [stepTrapping, Exec.wp_bind, Exec.wp_attempt]
    apply (step_deadEnd hdead).attach.imp
    · exact fun _ _ hstep => hstep.2.elim
    · rintro err failed ⟨hstep, rfl, -⟩
      have hsame := (step_restores m).of_run_error hstep
      have hguarded : failed.cpu.csrs.Guarded := by
        rw [hsame.csrs]
        exact hm.csrs
      have htrap : failed.cpu.trap (.instructionAccessFault 0) =
          failed.cpu.enterTrap 1 0 false := by
        have hmachine : ¬ (failed.cpu.priv ≠ .m ∧ failed.cpu.delegated 1) := by
          rw [hsame.priv]
          exact fun hboth => hboth.1 hdead.1
        exact congrArg (failed.cpu.enterTrap 1 0) (decide_eq_false hmachine)
      change Cpu.AtLoop (failed.cpu.trap (.instructionAccessFault 0))
      have hcsrs := Cpu.guarded_enterTrap hguarded 1 0 false
      rw [htrap]
      exact ⟨hcsrs, fun _ => ⟨rfl, hcsrs.mtvec, hcsrs.mtvec⟩⟩
    · exact fun hpanics => hpanics
  · exact stepTrapping_confined ⟨hm.csrs, fun hpriv => hdead (hm.stops hpriv)⟩

theorem atLoop_reached {allowed : Machine B S → Prop} {start m : Machine B S}
    (hruns : Reaches allowed start m) (hstart : start.cpu.AtLoop) : m.cpu.AtLoop := by
  have hinterrupt (m : Machine B S) (hm : m.cpu.AtLoop) : m.interrupted.cpu.AtLoop :=
    atLoop_interrupted hm
  have hstep (m : Machine B S) (hm : m.cpu.AtLoop) (_ : allowed m) :
      Exec.wp stepTrapping (fun _ after => after.cpu.AtLoop) (fun _ after => after.cpu.AtLoop)
        True m := atLoop_stepTrapping hm
  exact hruns.invariant hstart hinterrupt hstep (fun _ _ hm => hm) (fun _ _ hm => hm)

end Machine

end Baonix.Core

namespace Baonix.Host

open Baonix.Core Baonix.Core.Machine

variable {B S : Type} [MemBacking B] [ConsoleSink S]

/-- **When the timer's pending bit changes as documented.**  In every run of any guest
from the boot state, in whatever order interrupts are looked for, steps are taken, the
clock ticks and input arrives: an action raises and lowers the bit only as documented,
except for exactly those steps whose instruction writes `sip` with the other value. -/
theorem timer_documented_iff {start m after : Machine B S} {dtb : BitVec 64}
    (hboot : start.cpu = bootCpu dtb) (hruns : Reaches (fun _ => True) start m) (action : Action)
    (hact : m.act action = some after) :
    TimerDocumented action m after ↔ (action = .step → ¬ NextForges m) := by
  have hstart : start.cpu.AtLoop := by
    rw [hboot]
    exact Cpu.Confined.atLoop ⟨Csrs.guarded_default, fun heq => Priv.noConfusion heq⟩
  have hm := atLoop_reached hruns hstart
  cases action with
  | interrupt =>
      cases hact
      exact ⟨fun _ heq => (by cases heq), fun _ => interrupted_timerDocumented m⟩
  | step =>
      simp only [act] at hact
      cases hrun : stepTrapping.run m with
      | ok value next =>
          rw [hrun] at hact
          cases hact
          have hafter := (stepTrapping_timerDocumented hm).of_run_ok hrun
          exact hafter.trans ⟨fun hhonest _ => hhonest, fun hhonest => hhonest rfl⟩
      | error err next => exact err.elim
      | panic => rw [hrun] at hact; cases hact
  | tick n =>
      cases hact
      exact ⟨fun _ heq => (by cases heq), fun _ => .of_same rfl⟩
  | input byte =>
      cases hact
      exact ⟨fun _ heq => (by cases heq), fun _ => .of_same rfl⟩

/-- A kernel of two instructions: `li t0, 32` and `csrw sip, t0`. -/
def forgingKernel : Machine FakeBacking (List LittleEndian.Byte) :=
  overPages (fun page => if page = 512 then Sv39.tablePage [0x1442907302000293] else fun _ => 0)
    (bootCpu 0x80400000)

/-- When its clock has run to the comparator, looking for an interrupt raises the bit. -/
theorem timer_documented_forgingKernel :
    let m := forgingKernel.ticked (BitVec.allOnes 64)
    m.interrupted.cpu.csrs.timerPending = true ∧ TimerDocumented .interrupt m m.interrupted := by
  intro m
  have hticked : Reaches (fun _ => True) forgingKernel m :=
    .single ⟨.tick (BitVec.allOnes 64), fun _ => trivial, rfl⟩
  refine ⟨by decide +kernel, ?_⟩
  exact (timer_documented_iff rfl hticked .interrupt rfl).mpr fun heq => nomatch heq

/-- Its second instruction raises the bit before the clock has ticked once. -/
theorem timer_forged : ∃ start m after : Machine FakeBacking (List LittleEndian.Byte),
    start.cpu = bootCpu 0x80400000 ∧ Reaches (fun _ => True) start m ∧
      m.act .step = some after ∧ m.bus.clint.pending = false ∧
      m.cpu.csrs.timerPending = false ∧ after.cpu.csrs.timerPending = true ∧
      ¬ TimerDocumented .step m after := by
  have hfirst : (forgingKernel.act .step).map (fun m =>
      (m.bus.clint.pending, m.cpu.csrs.timerPending)) = some (false, false) := by
    decide +kernel
  have hlast : ((forgingKernel.act .step).bind (act .step)).map (fun after =>
      after.cpu.csrs.timerPending) = some true := by
    decide +kernel
  obtain ⟨m, hm, hbefore⟩ := Option.map_eq_some_iff.mp hfirst
  rw [hm, Option.bind_some] at hlast
  obtain ⟨after, hafter, hraised⟩ := Option.map_eq_some_iff.mp hlast
  rw [Prod.mk.injEq] at hbefore
  refine ⟨forgingKernel, m, after, rfl, .single ⟨.step, fun _ => trivial, hm⟩, hafter, hbefore.1,
    hbefore.2, hraised, ?_⟩
  intro hdocumented
  cases (hdocumented.raised hbefore.2 hraised).1

end Baonix.Host

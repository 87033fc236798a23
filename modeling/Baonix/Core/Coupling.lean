import Baonix.Core.Step
import Baonix.Lib.Following

/-!
# Two machines in step

A coupling relates machines on two kinds of backing.  If it is kept by what the
guest does to its registers, and the accesses of the one machine follow those of
the other, then so does a whole step.
-/

namespace Baonix.Core.Machine

open Exec (Follows)

variable {B B' S S' : Type} [MemBacking B] [MemBacking B'] [ConsoleSink S] [ConsoleSink S']

/-- The machines agree in what instructions read, and the accesses of the first
follow those of the second. -/
structure Coupling (stops : Exception → Prop) (related : Machine B S → Machine B' S' → Prop) :
    Prop where
  cpu : ∀ {m m'}, related m m' → m.cpu = m'.cpu
  clint : ∀ {m m'}, related m m' → m.bus.clint = m'.bus.clint
  with_cpu : ∀ {m m'}, related m m' → ∀ change : Cpu → Cpu,
    related { m with cpu := change m.cpu } { m' with cpu := change m'.cpu }
  noted : ∀ {m m'}, related m m' → ∀ trace trace',
    related { m with trace := trace } { m' with trace := trace' }
  fetchError : ∀ pc err, stops err → stops (fetchError pc err)
  translate : ∀ vaddr access, Follows stops related (translate vaddr access : MachineM B S _)
    (translate vaddr access : MachineM B' S' _)
  busLoad : ∀ kind addr size, Follows stops related (busLoad kind addr size : MachineM B S _)
    (busLoad kind addr size : MachineM B' S' _)
  busStore : ∀ addr size value, Follows stops related (busStore addr size value : MachineM B S _)
    (busStore addr size value : MachineM B' S' _)
  ecall : ∀ {m m'}, related m m' →
    (Sbi.handle m).1 = (Sbi.handle m').1 ∧ related (Sbi.handle m).2 (Sbi.handle m').2

namespace Coupling

variable {stops : Exception → Prop} {related : Machine B S → Machine B' S' → Prop}
variable (hcoupling : Coupling stops related)
include hcoupling

/-! ## Registers -/

theorem onCpu (change : Cpu → Cpu) :
    Follows stops related (Machine.onCpu change : MachineM B S _)
      (Machine.onCpu change : MachineM B' S' _) :=
  .update fun _ _ hm => hcoupling.with_cpu hm change

theorem setReg (i : BitVec 5) (v : BitVec 64) :
    Follows stops related (Machine.setReg i v : MachineM B S _)
      (Machine.setReg i v : MachineM B' S' _) :=
  hcoupling.onCpu _

theorem flushMmu :
    Follows stops related (Machine.flushMmu : MachineM B S _)
      (Machine.flushMmu : MachineM B' S' _) :=
  .update fun _ _ hm =>
    hcoupling.noted (hcoupling.with_cpu hm fun cpu => { cpu with mmu := cpu.mmu.flush }) _ _

/-! ## Accesses of memory -/

theorem readTranslated (vaddr : BitVec 64) (size : ℕ) (access : Access) :
    Follows stops related (Machine.readTranslated vaddr size access : MachineM B S _)
      (Machine.readTranslated vaddr size access : MachineM B' S' _) := by
  have heach (offsets : List ℕ) :
      Follows stops related (Machine.readEach vaddr access offsets : MachineM B S _)
        (Machine.readEach vaddr access offsets : MachineM B' S' _) := by
    induction offsets with
    | nil => exact .pure _
    | cons i rest ih =>
        exact .bind (hcoupling.translate _ _) fun _ =>
          .bind (hcoupling.busLoad _ _ _) fun _ => .bind ih fun _ => .pure _
  apply Follows.ite
  · exact .bind (hcoupling.translate _ _) fun _ => hcoupling.busLoad _ _ _
  · exact .bind (heach _) fun _ => .pure _

theorem writeTranslated (vaddr : BitVec 64) (size : ℕ) (value : BitVec 64) :
    Follows stops related (Machine.writeTranslated vaddr size value : MachineM B S _)
      (Machine.writeTranslated vaddr size value : MachineM B' S' _) := by
  have heach (offsets : List ℕ) :
      Follows stops related (Machine.writeEach vaddr value offsets : MachineM B S _)
        (Machine.writeEach vaddr value offsets : MachineM B' S' _) := by
    induction offsets with
    | nil => exact .pure _
    | cons i rest ih =>
        exact .bind (hcoupling.translate _ _) fun _ =>
          .bind (hcoupling.busStore _ _ _) fun _ => .bind (hcoupling.onCpu _) fun _ => ih
  apply Follows.ite
  · exact .bind (hcoupling.translate _ _) fun _ =>
      .bind (hcoupling.busStore _ _ _) fun _ => hcoupling.onCpu _
  · exact heach _

theorem fetchInsn :
    Follows stops related (Machine.fetchInsn : MachineM B S _)
      (Machine.fetchInsn : MachineM B' S' _) := by
  have hfetch (size : ℕ) : Follows stops related (Machine.fetch size : MachineM B S _)
      (Machine.fetch size : MachineM B' S' _) := by
    apply Follows.read_bind
    intro m m' hm
    rw [← hcoupling.cpu hm]
    exact .zoom (hcoupling.readTranslated _ size .fetch) (hcoupling.fetchError _)
      (fun _ _ hm => hm) fun _ _ _ _ _ hafter => hafter
  apply Follows.bind (hfetch 2)
  intro half
  apply Follows.ite
  · exact .bind (hfetch 4) fun _ => .pure _
  · cases Rvc.expand (half.setWidth 16) with
    | none => exact .raise _
    | some expanded => exact .pure _

/-! ## Instructions -/

theorem retire (insn : Insn) (value : Option (BitVec 64)) :
    Follows stops related (Rv64i.retire insn value : MachineM B S _)
      (Rv64i.retire insn value : MachineM B' S' _) := by
  cases value with
  | none => exact .raise _
  | some v => exact .bind (hcoupling.setReg _ _) fun _ => .pure _

theorem rv64m (insn : Insn) :
    Follows stops related (Rv64m.execute insn : MachineM B S _)
      (Rv64m.execute insn : MachineM B' S' _) := by
  apply Follows.ite (.pure _)
  apply Follows.read_bind
  intro m m' hm
  rw [← hcoupling.cpu hm]
  apply Follows.ite
  · cases Rv64m.op (Insn.funct3 insn) _ _ with
    | none => exact .raise _
    | some v => exact .bind (hcoupling.setReg _ _) fun _ => .pure _
  apply Follows.ite
  · cases Rv64m.op32 (Insn.funct3 insn) _ _ with
    | none => exact .raise _
    | some v => exact .bind (hcoupling.setReg _ _) fun _ => .pure _
  · exact .pure _

theorem perform (insn : Insn) (addr src : BitVec 64) (size : ℕ) :
    Follows stops related (Rv64a.perform insn addr src size : MachineM B S _)
      (Rv64a.perform insn addr src size : MachineM B' S' _) := by
  apply Follows.ite
  · exact .bind (hcoupling.busLoad _ _ _) fun _ =>
      .bind (hcoupling.onCpu _) fun _ => hcoupling.setReg _ _
  apply Follows.ite
  · apply Follows.read_bind
    intro m m' hm
    rw [← hcoupling.cpu hm]
    apply Follows.bind (hcoupling.onCpu _)
    intro _
    exact .ite (.bind (hcoupling.busStore _ _ _) fun _ => hcoupling.setReg _ _)
      (hcoupling.setReg _ _)
  · apply Follows.bind (hcoupling.busLoad _ _ _)
    intro old
    cases Rv64a.amo (Rv64a.opOf insn) size old src with
    | none => exact .raise _
    | some new =>
        exact .bind (hcoupling.busStore _ _ _) fun _ =>
          .bind (hcoupling.onCpu _) fun _ => hcoupling.setReg _ _

theorem rv64a (insn : Insn) :
    Follows stops related (Rv64a.execute insn : MachineM B S _)
      (Rv64a.execute insn : MachineM B' S' _) := by
  apply Follows.ite (.pure _)
  cases Rv64a.sizeOf insn with
  | none => exact .raise _
  | some size =>
      apply Follows.read_bind
      intro m m' hm
      rw [← hcoupling.cpu hm]
      exact .bind (hcoupling.translate _ _) fun _ =>
        .bind (hcoupling.perform _ _ _ _) fun _ => .pure _

theorem executeRegister (insn : Insn) :
    Follows stops related (Rv64i.executeRegister insn : MachineM B S _)
      (Rv64i.executeRegister insn : MachineM B' S' _) := by
  apply Follows.read_bind
  intro m m' hm
  rw [← hcoupling.cpu hm]
  dsimp only
  have hretire (value : Option (BitVec 64)) : Follows stops related
      (Rv64i.retire insn value : MachineM B S _) (Rv64i.retire insn value : MachineM B' S' _) :=
    hcoupling.retire insn value
  have hjump (target : BitVec 64) {next : MachineM B S Bool} {next' : MachineM B' S' Bool}
      (hnext : Follows stops related next next') :
      Follows stops related (do Machine.jump target; next) (do Machine.jump target; next') :=
    .bind (hcoupling.onCpu _) fun _ => hnext
  split
  · exact hretire _
  · exact hretire _
  · exact hretire _
  · exact hretire _
  · exact hretire _
  · exact hretire _
  · split
    · exact .raise _
    · exact hjump _ (.pure _)
    · exact .pure _
  · exact hjump _ (hretire _)
  · exact hjump _ (hretire _)
  · split
    · exact .pure _
    · exact .pure _
    · exact .raise _
  · exact .pure _

theorem privileged (insn : Insn) :
    Follows stops related (Rv64i.privileged insn : MachineM B S _)
      (Rv64i.privileged insn : MachineM B' S' _) := by
  apply Follows.read_bind
  intro m m' hm
  rw [← hcoupling.cpu hm]
  apply Follows.ite (.raise _)
  apply Follows.ite (.raise _)
  apply Follows.ite (.bind (hcoupling.onCpu _) fun _ => .pure _)
  apply Follows.ite (.bind (hcoupling.onCpu _) fun _ => .pure _)
  apply Follows.ite (.pure _)
  exact .ite (.bind hcoupling.flushMmu fun _ => .pure _) (.raise _)

theorem csrAccess (insn : Insn) :
    Follows stops related (Rv64i.csrAccess insn : MachineM B S _)
      (Rv64i.csrAccess insn : MachineM B' S' _) := by
  apply Follows.read_bind
  intro m m' hm
  have hold (addr : Csr.Addr) : Rv64i.oldCsr m addr = Rv64i.oldCsr m' addr := by
    rw [Rv64i.oldCsr, Rv64i.oldCsr, hcoupling.cpu hm, hcoupling.clint hm]
  dsimp only
  rw [← hcoupling.cpu hm, ← hold]
  apply Follows.ite (.raise _)
  apply Follows.ite (.raise _)
  split
  · exact .raise _
  · apply Follows.bind
    · apply Follows.ite
      · exact .bind (hcoupling.onCpu _) fun _ => .ite hcoupling.flushMmu (.pure _)
      · exact .pure _
    · exact fun _ => .bind (hcoupling.setReg _ _) fun _ => .pure _

theorem rv64i (insn : Insn) :
    Follows stops related (Rv64i.execute insn : MachineM B S _)
      (Rv64i.execute insn : MachineM B' S' _) := by
  apply Follows.ite
  · apply Follows.read_bind
    intro m m' hm
    rw [← hcoupling.cpu hm]
    cases Rv64i.loadOf insn with
    | none => exact .raise _
    | some width =>
        exact .bind (hcoupling.readTranslated _ _ _) fun _ => hcoupling.retire _ _
  apply Follows.ite
  · apply Follows.read_bind
    intro m m' hm
    rw [← hcoupling.cpu hm]
    cases Rv64i.storeOf insn with
    | none => exact .raise _
    | some size => exact .bind (hcoupling.writeTranslated _ _ _) fun _ => .pure _
  apply Follows.ite
  · exact .ite (hcoupling.privileged insn) (hcoupling.csrAccess insn)
  · exact hcoupling.executeRegister insn

/-! ## Steps -/

/-- **A step** follows the step of the machine it is coupled to. -/
theorem step :
    Follows stops related (Machine.step : MachineM B S _) (Machine.step : MachineM B' S' _) := by
  have hhandled (insn : Insn) : Follows stops related (handled insn : MachineM B S _)
      (handled insn : MachineM B' S' _) :=
    .bind (hcoupling.rv64m insn) fun _ => .ite (.pure _) <|
      .bind (hcoupling.rv64a insn) fun _ => .ite (.pure _) (hcoupling.rv64i insn)
  apply Follows.bind hcoupling.fetchInsn
  intro fetched
  apply Follows.bind (hcoupling.onCpu _)
  intro _
  apply Follows.bind
  · exact .bind (hhandled _) fun _ => .ite (.pure _) (.raise _)
  · exact fun _ => hcoupling.onCpu _

theorem deliver (result : Except Exception PUnit) :
    Exec.Alike related (Machine.deliver result : Exec Empty (Machine B S) _)
      (Machine.deliver result : Exec Empty (Machine B' S') _) := by
  unfold Machine.deliver
  split
  · exact .pure _
  · apply Exec.Alike.bind
    · exact .call fun _ _ hm => hcoupling.ecall hm
    · exact fun _ => .bind (.update fun _ _ hm =>
        hcoupling.with_cpu hm fun cpu => { cpu with pc := cpu.pc + cpu.insnLen }) fun _ => .pure _
  · exact .pure _
  · exact .bind (.update fun _ _ hm => hcoupling.with_cpu hm (·.trap _)) fun _ => .pure _

/-- The step is stopped, or `step_trapping` of the coupled machines ends alike. -/
theorem stepTrapping {m : Machine B S} {m' : Machine B' S'} (hm : related m m') :
    (∃ err after, (Machine.step : MachineM B S _).run m = .error err after ∧ stops err) ∨
      ((Machine.stepTrapping : Exec Empty (Machine B S) _).run m).Alike related
        ((Machine.stepTrapping : Exec Empty (Machine B' S') _).run m') := by
  have hfollows := hcoupling.step m m' hm
  generalize hstep : (Machine.step : MachineM B S _).run m = outcome at hfollows
  generalize hstep' : (Machine.step : MachineM B' S' _).run m' = outcome' at hfollows
  cases hfollows with
  | stopped hstops => exact .inl ⟨_, _, rfl, hstops⟩
  | alike halike =>
      have hattempt : ((Exec.attempt Machine.step : Exec Empty (Machine B S) _).run m).Alike related
          ((Exec.attempt Machine.step : Exec Empty (Machine B' S') _).run m') := by
        simp only [Exec.run, Exec.attempt] at hstep hstep' ⊢
        rw [hstep, hstep']
        cases halike with
        | ok hafter => exact .ok hafter
        | error hafter => exact .ok hafter
      exact .inr (Exec.Alike.bind_from hattempt (fun _ _ hafter => hafter)
        fun result after after' _ hafter => hcoupling.deliver result after after' hafter)

end Coupling

end Baonix.Core.Machine

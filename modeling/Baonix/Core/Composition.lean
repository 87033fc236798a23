import Baonix.Core.Step

/-!
# How a step is put together

A step is a composition of a few parts: reads of registers, changes of the processor,
translations and accesses of the bus.  A property of computations that composition keeps
and the parts have is one of the step, as soon as the SYSTEM instructions have it too.
-/

namespace Baonix.Core

/-- A change of the processor that neither touches its CSRs and its privilege level nor
depends on the CSRs. -/
structure Cpu.Plain (change : Cpu → Cpu) : Prop where
  csrs : ∀ cpu csrs, change { cpu with csrs := csrs } = { change cpu with csrs := csrs }
  priv : ∀ cpu, (change cpu).priv = cpu.priv

namespace Cpu.Plain

theorem setReg (i : BitVec 5) (v : BitVec 64) : Plain (·.setReg i v) where
  csrs cpu csrs := by
    unfold Cpu.setReg
    split <;> rfl
  priv cpu := by
    unfold Cpu.setReg
    split <;> rfl

theorem invalidateReservation (addr : BitVec 64) (size : ℕ) :
    Plain (·.invalidateReservation addr size) where
  csrs cpu csrs := by
    unfold Cpu.invalidateReservation
    dsimp only
    split
    · rfl
    · split <;> rfl
  priv cpu := by
    unfold Cpu.invalidateReservation
    split
    · rfl
    · split <;> rfl

/-- What is left of the change is left of the registers. -/
theorem csrs_eq {change : Cpu → Cpu} (hplain : Plain change) (cpu : Cpu) :
    (change cpu).csrs = cpu.csrs := by
  have hchanged := congrArg Cpu.csrs (hplain.csrs cpu cpu.csrs)
  exact hchanged

end Cpu.Plain

namespace Machine

variable {B S : Type} [MemBacking B] [ConsoleSink S]

/-- The machine with all but its registers, its `pc` and its reservation taken from
another. -/
def withRest (m rest : Machine B S) : Machine B S :=
  ⟨{ rest.cpu with
      regs := m.cpu.regs
      pc := m.cpu.pc
      reservation := m.cpu.reservation
      insnLen := m.cpu.insnLen }, rest.bus, rest.trace⟩

/-- Composition keeps the property, and the parts of an instruction have it. -/
structure Compositional (good : (Value : Type) → MachineM B S Value → Prop) : Prop where
  pure : ∀ {Value : Type} (value : Value), good Value (pure value)
  bind : ∀ {Value Next : Type} {program : MachineM B S Next} {next : Next → MachineM B S Value},
    good Next program → (∀ value, good Value (next value)) → good Value (program >>= next)
  illegal : ∀ {Value : Type} (code : BitVec 64),
    good Value (Exec.raise (.illegalInstruction code))
  read : ∀ {Value : Type} {next : Machine B S → MachineM B S Value},
    (∀ m rest, next (withRest m rest) = next m) → (∀ m, good Value (next m)) →
      good Value (Exec.read >>= next)
  onCpu : ∀ {change : Cpu → Cpu}, Cpu.Plain change → good PUnit (onCpu change)
  translate : ∀ vaddr access, good _ (translate vaddr access)
  busLoad : ∀ kind addr size, good _ (busLoad kind addr size)
  busStore : ∀ addr size value, good _ (busStore addr size value)
  fetch : ∀ size, (∀ vaddr, good _ (readTranslated vaddr size .fetch)) → good _ (fetch size)

namespace Compositional

variable {good : (Value : Type) → MachineM B S Value → Prop} (hgood : Compositional good)
include hgood

/-! ## Accesses of memory -/

theorem readEach (vaddr : BitVec 64) (access : Access) (offsets : List ℕ) :
    good _ (Machine.readEach vaddr access offsets) := by
  induction offsets with
  | nil => exact hgood.pure _
  | cons i rest ih =>
      exact hgood.bind (hgood.translate _ _) fun _ => hgood.bind (hgood.busLoad _ _ _) fun _ =>
        hgood.bind ih fun _ => hgood.pure _

theorem readTranslated (vaddr : BitVec 64) (size : ℕ) (access : Access) :
    good _ (Machine.readTranslated vaddr size access) := by
  unfold Machine.readTranslated
  split
  · exact hgood.bind (hgood.translate _ _) fun _ => hgood.busLoad _ _ _
  · exact hgood.bind (hgood.readEach _ _ _) fun _ => hgood.pure _

theorem invalidate (addr : BitVec 64) (size : ℕ) :
    good _ (Machine.onCpu (·.invalidateReservation addr size)) :=
  hgood.onCpu (.invalidateReservation addr size)

theorem writeEach (vaddr value : BitVec 64) (offsets : List ℕ) :
    good _ (Machine.writeEach vaddr value offsets) := by
  induction offsets with
  | nil => exact hgood.pure _
  | cons i rest ih =>
      exact hgood.bind (hgood.translate _ _) fun _ => hgood.bind (hgood.busStore _ _ _) fun _ =>
        hgood.bind (hgood.invalidate _ _) fun _ => ih

theorem writeTranslated (vaddr : BitVec 64) (size : ℕ) (value : BitVec 64) :
    good _ (Machine.writeTranslated vaddr size value) := by
  unfold Machine.writeTranslated
  split
  · exact hgood.bind (hgood.translate _ _) fun _ => hgood.bind (hgood.busStore _ _ _) fun _ =>
      hgood.invalidate _ _
  · exact hgood.writeEach _ _ _

theorem fetchInsn : good _ Machine.fetchInsn := by
  have hfetch (size : ℕ) : good _ (Machine.fetch size) :=
    hgood.fetch size fun _ => hgood.readTranslated _ _ _
  apply hgood.bind (hfetch 2)
  intro half
  unfold decode
  split
  · exact hgood.bind (hfetch 4) fun _ => hgood.pure _
  · split
    · exact hgood.illegal _
    · exact hgood.pure _

/-! ## Instructions -/

theorem setReg (i : BitVec 5) (v : BitVec 64) : good _ (Machine.setReg i v) :=
  hgood.onCpu (.setReg i v)

theorem retire (insn : Insn) (value : Option (BitVec 64)) : good _ (Rv64i.retire insn value) := by
  cases value with
  | none => exact hgood.illegal _
  | some v => exact hgood.bind (hgood.setReg _ _) fun _ => hgood.pure _

theorem rv64m (insn : Insn) : good _ (Rv64m.execute insn) := by
  unfold Rv64m.execute
  split
  · exact hgood.pure _
  · refine hgood.read (fun _ _ => rfl) fun m => ?_
    dsimp only
    split
    · split
      · exact hgood.illegal _
      · exact hgood.bind (hgood.setReg _ _) fun _ => hgood.pure _
    · split
      · split
        · exact hgood.illegal _
        · exact hgood.bind (hgood.setReg _ _) fun _ => hgood.pure _
      · exact hgood.pure _

theorem perform (insn : Insn) (addr src : BitVec 64) (size : ℕ) :
    good _ (Rv64a.perform insn addr src size) := by
  have hreserve (reservation : Option (BitVec 64)) :
      good _ (Machine.onCpu fun cpu => { cpu with reservation := reservation }) :=
    hgood.onCpu ⟨fun _ _ => rfl, fun _ => rfl⟩
  unfold Rv64a.perform
  split
  · exact hgood.bind (hgood.busLoad _ _ _) fun _ => hgood.bind (hreserve _) fun _ =>
      hgood.setReg _ _
  split
  · refine hgood.read (fun _ _ => rfl) fun m => hgood.bind (hreserve none) fun _ => ?_
    split
    · exact hgood.bind (hgood.busStore _ _ _) fun _ => hgood.setReg _ _
    · exact hgood.setReg _ _
  · refine hgood.bind (hgood.busLoad _ _ _) fun old => ?_
    split
    · exact hgood.illegal _
    · exact hgood.bind (hgood.busStore _ _ _) fun _ => hgood.bind (hgood.invalidate _ _) fun _ =>
        hgood.setReg _ _

theorem rv64a (insn : Insn) : good _ (Rv64a.execute insn) := by
  unfold Rv64a.execute
  split
  · exact hgood.pure _
  split
  · exact hgood.illegal _
  · refine hgood.read (fun _ _ => rfl) fun m => ?_
    exact hgood.bind (hgood.translate _ _) fun _ => hgood.bind (hgood.perform _ _ _ _) fun _ =>
      hgood.pure _

theorem load (insn : Insn) : good _ (Rv64i.load insn) := by
  refine hgood.read (fun _ _ => rfl) fun m => ?_
  dsimp only
  split
  · exact hgood.illegal _
  · exact hgood.bind (hgood.readTranslated _ _ _) fun _ => hgood.retire _ _

theorem store (insn : Insn) : good _ (Rv64i.store insn) := by
  refine hgood.read (fun _ _ => rfl) fun m => ?_
  dsimp only
  split
  · exact hgood.illegal _
  · exact hgood.bind (hgood.writeTranslated _ _ _) fun _ => hgood.pure _

theorem executeRegister (insn : Insn) : good _ (Rv64i.executeRegister insn) := by
  have hjump (target : BitVec 64) : good _ (Machine.jump target) :=
    hgood.onCpu ⟨fun _ _ => rfl, fun _ => rfl⟩
  refine hgood.read (fun _ _ => rfl) fun m => ?_
  dsimp only
  split
  · exact hgood.retire _ _
  · exact hgood.retire _ _
  · exact hgood.retire _ _
  · exact hgood.retire _ _
  · exact hgood.retire _ _
  · exact hgood.retire _ _
  · split
    · exact hgood.illegal _
    · exact hgood.bind (hjump _) fun _ => hgood.pure _
    · exact hgood.pure _
  · exact hgood.bind (hjump _) fun _ => hgood.retire _ _
  · exact hgood.bind (hjump _) fun _ => hgood.retire _ _
  · split
    · exact hgood.pure _
    · exact hgood.pure _
    · exact hgood.illegal _
  · exact hgood.pure _

/-- **A step has the property**, as soon as the SYSTEM instructions have it. -/
theorem step (hprivileged : ∀ insn, good _ (Rv64i.privileged insn))
    (hcsr : ∀ insn, good _ (Rv64i.csrAccess insn)) : good _ Machine.step := by
  have hrv64i (insn : Insn) : good _ (Rv64i.execute insn) := by
    unfold Rv64i.execute
    split
    · exact hgood.load insn
    split
    · exact hgood.store insn
    split
    · split
      · exact hprivileged insn
      · exact hcsr insn
    · exact hgood.executeRegister insn
  have hhandled (insn : Insn) : good _ (handled insn) := by
    refine hgood.bind (hgood.rv64m insn) fun _ => ?_
    split
    · exact hgood.pure _
    · refine hgood.bind (hgood.rv64a insn) fun _ => ?_
      split
      · exact hgood.pure _
      · exact hrv64i insn
  have hexecute (insn : Insn) : good _ (execute insn) := by
    refine hgood.bind (hhandled insn) fun _ => ?_
    split
    · exact hgood.pure _
    · exact hgood.illegal _
  refine hgood.bind hgood.fetchInsn fun fetched => ?_
  refine hgood.bind (hgood.onCpu ⟨fun _ _ => rfl, fun _ => rfl⟩) fun _ => ?_
  exact hgood.bind (hexecute _) fun _ => hgood.onCpu ⟨fun _ _ => rfl, fun _ => rfl⟩

end Compositional

end Machine

end Baonix.Core

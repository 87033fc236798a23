import Baonix.Core.AccessSpecs
import Baonix.Core.Runs
import Baonix.Lib.Simulation

/-!
# The guest cannot see its host

Two machines match if their processors, the contents of their RAM, their
interruptors and the registers of their UARTs agree, whatever backs the RAM,
whatever is cached and wherever the output goes.  Over backings that do not fail
a step takes matching machines to matching machines.
-/

namespace Baonix.Core

open Baonix.LittleEndian
open Exec (Alike)
open PageCache (Holds Width)

/-! ## What the guest sees -/

/-- A sink that drops the output. -/
instance : ConsoleSink Unit := ⟨fun sink _ => sink⟩

namespace Uart

variable {S : Type}

/-- The UART as the guest sees it. -/
def registers (u : Uart S) : Uart Unit := { u with sink := () }

theorem dlab_registers (u : Uart S) : u.registers.dlab = u.dlab := rfl

theorem load_registers (u : Uart S) (off : BitVec 64) :
    u.registers.load off = ((u.load off).1, (u.load off).2.registers) := by
  have hregisters := u.dlab_registers
  unfold load
  cases hdlab : u.dlab with
  | true =>
      rw [hdlab] at hregisters
      simp only [hregisters]
      split_ifs <;> rfl
  | false =>
      rw [hdlab] at hregisters
      simp only [hregisters]
      split_ifs <;> rfl

theorem store_registers [ConsoleSink S] (u : Uart S) (off v : BitVec 64) :
    (u.store off v).registers = u.registers.store off v := by
  have hregisters := u.dlab_registers
  unfold store
  cases hdlab : u.dlab with
  | true =>
      rw [hdlab] at hregisters
      simp only [hregisters]
      split_ifs <;> rfl
  | false =>
      rw [hdlab] at hregisters
      simp only [hregisters]
      split_ifs <;> rfl

end Uart

namespace PageCache

variable {B B' : Type} [FlatBacking B] [FlatBacking B']

/-- The same contents of RAM. -/
def Matches (c : PageCache B) (c' : PageCache B') : Prop := ∃ m, Holds m c ∧ Holds m c'

theorem readLe_alike (hB : ¬ Fallible B) (hB' : ¬ Fallible B') (N : Width) {gpa : ℕ}
    (hram : InRam gpa N) :
    Alike Matches (readLe N gpa : CacheM B (BitVec 64)) (readLe N gpa : CacheM B' _) := by
  rintro c c' ⟨m, hc, hc'⟩
  obtain ⟨_, next, hrun, hnext, rfl⟩ := ((readLe_spec N gpa hc).imp (fun _ _ hpost => hpost)
    (fun _ _ hfails => hB (hfails.2 hram)) (fun hfalse => hfalse)).exists_ok
  obtain ⟨_, next', hrun', hnext', rfl⟩ := ((readLe_spec N gpa hc').imp (fun _ _ hpost => hpost)
    (fun _ _ hfails => hB' (hfails.2 hram)) (fun hfalse => hfalse)).exists_ok
  exact Alike.of_ok hrun hrun' ⟨m, hnext, hnext'⟩

theorem writeLe_alike (hB : ¬ Fallible B) (hB' : ¬ Fallible B') (N : Width) {gpa : ℕ}
    (value : BitVec 64) (hram : InRam gpa N) :
    Alike Matches (writeLe N gpa value : CacheM B PUnit) (writeLe N gpa value : CacheM B' _) := by
  rintro c c' ⟨m, hc, hc'⟩
  obtain ⟨_, next, hrun, hnext⟩ := ((writeLe_spec N gpa value hc).imp (fun _ _ hpost => hpost)
    (fun _ _ hfails => hB (hfails.2 hram)) (fun hfalse => hfalse)).exists_ok
  obtain ⟨_, next', hrun', hnext'⟩ := ((writeLe_spec N gpa value hc').imp
    (fun _ _ hpost => hpost) (fun _ _ hfails => hB' (hfails.2 hram))
    (fun hfalse => hfalse)).exists_ok
  exact Alike.of_ok hrun hrun' ⟨_, hnext, hnext'⟩

end PageCache

/-- The same RAM, interruptor and UART registers. -/
structure Bus.Matches {B B' S S' : Type} [FlatBacking B] [FlatBacking B'] (bus : Bus B S)
    (bus' : Bus B' S') : Prop where
  ram : bus.cache.Matches bus'.cache
  clint : bus.clint = bus'.clint
  uart : bus.uart.registers = bus'.uart.registers

/-- The same translation buffer over the same bus. -/
structure MemSystem.Matches {B B' S S' : Type} [FlatBacking B] [FlatBacking B']
    (system : MemSystem B S) (system' : MemSystem B' S') : Prop where
  mmu : system.mmu = system'.mmu
  bus : system.bus.Matches system'.bus

/-- The same processor on the same bus. -/
structure Machine.Matches {B B' S S' : Type} [FlatBacking B] [FlatBacking B']
    (m : Machine B S) (m' : Machine B' S') : Prop where
  cpu : m.cpu = m'.cpu
  bus : m.bus.Matches m'.bus

section Steps

variable {B B' S S' : Type} [FlatBacking B] [FlatBacking B']
variable (hB : ¬ Fallible B) (hB' : ¬ Fallible B')

/-! ## Accesses -/

namespace Bus

include hB hB' in
theorem load_alike (addr : BitVec 64) (size : ℕ) :
    Alike Matches (load addr size : Exec Exception (Bus B S) _)
      (load addr size : Exec Exception (Bus B' S') _) := by
  unfold load
  cases hwidth : widthOf size with
  | none => exact .raise _
  | some width =>
      dsimp only
      by_cases hram : inRam addr size
      · rw [if_pos hram, if_pos hram]
        have hwhole : InRam addr.toNat width := by
          rw [eq_of_widthOf hwidth]
          exact inRam_iff.mp hram
        exact .zoom (PageCache.readLe_alike hB hB' width hwhole) (fun _ _ hbus => hbus.ram)
          fun _ _ _ _ hbus hcache => ⟨hcache, hbus.clint, hbus.uart⟩
      rw [if_neg hram, if_neg hram]
      apply Alike.ite
      · apply Alike.read_bind
        intro bus bus' hbus
        rw [← hbus.clint]
        exact .pure _
      apply Alike.ite
      · apply Alike.call
        intro bus bus' hbus
        have hload := bus.uart.load_registers (addr - uartBase)
        rw [hbus.uart, bus'.uart.load_registers] at hload
        obtain ⟨hvalue, hregisters⟩ := Prod.mk.inj hload
        exact ⟨hvalue.symm, hbus.ram, hbus.clint, hregisters.symm⟩
      · exact .raise _

include hB hB' in
theorem store_alike [ConsoleSink S] [ConsoleSink S'] (addr : BitVec 64) (size : ℕ)
    (value : BitVec 64) :
    Alike Matches (store addr size value : Exec Exception (Bus B S) _)
      (store addr size value : Exec Exception (Bus B' S') _) := by
  unfold store
  cases hwidth : widthOf size with
  | none => exact .raise _
  | some width =>
      dsimp only
      by_cases hram : inRam addr size
      · rw [if_pos hram, if_pos hram]
        have hwhole : InRam addr.toNat width := by
          rw [eq_of_widthOf hwidth]
          exact inRam_iff.mp hram
        exact .zoom (PageCache.writeLe_alike hB hB' width value hwhole) (fun _ _ hbus => hbus.ram)
          fun _ _ _ _ hbus hcache => ⟨hcache, hbus.clint, hbus.uart⟩
      rw [if_neg hram, if_neg hram]
      apply Alike.ite
      · apply Alike.update
        intro bus bus' hbus
        exact ⟨hbus.ram, congrArg (·.store (addr - clintBase) value) hbus.clint, hbus.uart⟩
      apply Alike.ite
      · apply Alike.update
        intro bus bus' hbus
        refine ⟨hbus.ram, hbus.clint, ?_⟩
        calc (bus.uart.store (addr - uartBase) value).registers
            = bus.uart.registers.store (addr - uartBase) value := Uart.store_registers ..
          _ = bus'.uart.registers.store (addr - uartBase) value := by rw [hbus.uart]
          _ = (bus'.uart.store (addr - uartBase) value).registers :=
              (Uart.store_registers ..).symm
      · exact .raise _

end Bus

namespace Mmu

include hB hB' in
theorem walk_alike (priv : Priv) (access : Access) (vaddr : BitVec 64) (levels : List Level)
    (table : BitVec 64) :
    Alike MemSystem.Matches (walk priv access vaddr levels table : Exec Exception (MemSystem B S) _)
      (walk priv access vaddr levels table : Exec Exception (MemSystem B' S') _) := by
  induction levels generalizing table with
  | nil => exact .raise _
  | cons level levels ih =>
      have hload (addr : BitVec 64) : Alike MemSystem.Matches
          (loadPte access vaddr addr : Exec Exception (MemSystem B S) _)
          (loadPte access vaddr addr : Exec Exception (MemSystem B' S') _) :=
        .zoom (Bus.load_alike hB hB' addr 8) (fun _ _ hsystem => hsystem.bus)
          fun _ _ _ _ hsystem hbus => ⟨hsystem.mmu, hbus⟩
      apply Alike.bind (hload _)
      intro pte
      apply Alike.ite (.raise _)
      apply Alike.ite
      · apply Alike.bind (.ofExcept _)
        intro _
        apply Alike.ite (.raise _)
        apply Alike.bind
        · apply Alike.update
          exact fun _ _ hsystem => ⟨congrArg (fill vaddr _ pte) hsystem.mmu, hsystem.bus⟩
        · exact fun _ => .pure _
      · exact ih _

include hB hB' in
theorem translate_alike (csrs : Csrs) (priv : Priv) (vaddr : BitVec 64) (access : Access) :
    Alike MemSystem.Matches (translate csrs priv vaddr access : Exec Exception (MemSystem B S) _)
      (translate csrs priv vaddr access : Exec Exception (MemSystem B' S') _) := by
  apply Alike.ite (.pure _)
  apply Alike.read_bind
  intro system system' hsystem
  rw [← hsystem.mmu]
  apply Alike.ite
  · exact .bind (.ofExcept _) fun _ => .pure _
  · apply Alike.bind
    · apply Alike.update
      intro system system' hsystem
      exact ⟨congrArg (fun mmu : Mmu => { mmu with walks := mmu.walks + 1 }) hsystem.mmu,
        hsystem.bus⟩
    · exact fun _ => walk_alike hB hB' priv access vaddr _ _

end Mmu

namespace Machine

omit [FlatBacking B] [FlatBacking B'] in
/-- What a computation on the guest's view alone leaves. -/
theorem Matches.with_cpu [FlatBacking B] [FlatBacking B'] {m : Machine B S} {m' : Machine B' S'}
    (hm : Matches m m') (change : Cpu → Cpu) :
    Matches { m with cpu := change m.cpu } { m' with cpu := change m'.cpu } :=
  ⟨congrArg change hm.cpu, hm.bus⟩

theorem onCpu_alike (change : Cpu → Cpu) :
    Alike Matches (onCpu change : MachineM B S PUnit) (onCpu change : MachineM B' S' _) :=
  .update fun _ _ hm => hm.with_cpu change

theorem setReg_alike (i : BitVec 5) (v : BitVec 64) :
    Alike Matches (setReg i v : MachineM B S PUnit) (setReg i v : MachineM B' S' _) :=
  onCpu_alike _

theorem flushMmu_alike :
    Alike Matches (flushMmu : MachineM B S PUnit) (flushMmu : MachineM B' S' _) :=
  .update fun _ _ hm => ⟨congrArg (fun cpu : Cpu => { cpu with mmu := cpu.mmu.flush }) hm.cpu, hm.bus⟩

include hB hB' in
theorem translate_alike (vaddr : BitVec 64) (access : Access) :
    Alike Matches (translate vaddr access : MachineM B S _)
      (translate vaddr access : MachineM B' S' _) := by
  apply Alike.read_bind
  intro m m' hm
  rw [← hm.cpu]
  apply Alike.bind
  · exact .update fun _ _ hm => ⟨hm.cpu, hm.bus⟩
  · intro _
    apply Alike.zoom (Mmu.translate_alike hB hB' _ _ vaddr access)
    · exact fun m m' hm => ⟨congrArg Cpu.mmu hm.cpu, hm.bus⟩
    · intro m m' system system' hm hsystem
      refine ⟨?_, hsystem.bus⟩
      change ({ m.cpu with mmu := system.mmu } : Cpu) = { m'.cpu with mmu := system'.mmu }
      rw [hm.cpu, hsystem.mmu]

include hB hB' in
theorem busLoad_alike (kind : Access) (addr : BitVec 64) (size : ℕ) :
    Alike Matches (busLoad kind addr size : MachineM B S _)
      (busLoad kind addr size : MachineM B' S' _) :=
  .bind (.update fun _ _ hm => ⟨hm.cpu, hm.bus⟩) fun _ =>
    .zoom (Bus.load_alike hB hB' addr size) (fun _ _ hm => hm.bus)
      fun _ _ _ _ hm hbus => ⟨hm.cpu, hbus⟩

include hB hB' in
theorem readTranslated_alike (vaddr : BitVec 64) (size : ℕ) (access : Access) :
    Alike Matches (readTranslated vaddr size access : MachineM B S _)
      (readTranslated vaddr size access : MachineM B' S' _) := by
  have heach (offsets : List ℕ) : Alike Matches
      (readEach vaddr access offsets : MachineM B S _)
      (readEach vaddr access offsets : MachineM B' S' _) := by
    induction offsets with
    | nil => exact .pure _
    | cons i rest ih =>
        exact .bind (translate_alike hB hB' _ _) fun _ =>
          .bind (busLoad_alike hB hB' _ _ _) fun _ => .bind ih fun _ => .pure _
  apply Alike.ite
  · exact .bind (translate_alike hB hB' _ _) fun _ => busLoad_alike hB hB' _ _ _
  · exact .bind (heach _) fun _ => .pure _

include hB hB' in
theorem fetchInsn_alike :
    Alike Matches (fetchInsn : MachineM B S _) (fetchInsn : MachineM B' S' _) := by
  have hfetch (size : ℕ) : Alike Matches (fetch size : MachineM B S _)
      (fetch size : MachineM B' S' _) := by
    apply Alike.read_bind
    intro m m' hm
    rw [← hm.cpu]
    exact .zoom (readTranslated_alike hB hB' _ _ _) (fun _ _ hm => hm)
      fun _ _ _ _ _ hafter => hafter
  apply Alike.bind (hfetch 2)
  intro half
  apply Alike.ite
  · exact .bind (hfetch 4) fun _ => .pure _
  · cases Rvc.expand (half.setWidth 16) with
    | none => exact .raise _
    | some expanded => exact .pure _

variable [ConsoleSink S] [ConsoleSink S']

include hB hB' in
theorem busStore_alike (addr : BitVec 64) (size : ℕ) (value : BitVec 64) :
    Alike Matches (busStore addr size value : MachineM B S _)
      (busStore addr size value : MachineM B' S' _) :=
  .bind (.update fun _ _ hm => ⟨hm.cpu, hm.bus⟩) fun _ =>
    .zoom (Bus.store_alike hB hB' addr size value) (fun _ _ hm => hm.bus)
      fun _ _ _ _ hm hbus => ⟨hm.cpu, hbus⟩

include hB hB' in
theorem writeTranslated_alike (vaddr : BitVec 64) (size : ℕ) (value : BitVec 64) :
    Alike Matches (writeTranslated vaddr size value : MachineM B S _)
      (writeTranslated vaddr size value : MachineM B' S' _) := by
  have heach (offsets : List ℕ) : Alike Matches
      (writeEach vaddr value offsets : MachineM B S _)
      (writeEach vaddr value offsets : MachineM B' S' _) := by
    induction offsets with
    | nil => exact .pure _
    | cons i rest ih =>
        exact .bind (translate_alike hB hB' _ _) fun _ =>
          .bind (busStore_alike hB hB' _ _ _) fun _ => .bind (onCpu_alike _) fun _ => ih
  apply Alike.ite
  · exact .bind (translate_alike hB hB' _ _) fun _ =>
      .bind (busStore_alike hB hB' _ _ _) fun _ => onCpu_alike _
  · exact heach _

/-! ## Instructions -/

omit [ConsoleSink S] [ConsoleSink S'] in
theorem retire_alike (insn : Insn) (value : Option (BitVec 64)) :
    Alike Matches (Rv64i.retire insn value : MachineM B S _)
      (Rv64i.retire insn value : MachineM B' S' _) := by
  cases value with
  | none => exact .raise _
  | some v => exact .bind (setReg_alike _ _) fun _ => .pure _

omit [ConsoleSink S] [ConsoleSink S'] in
theorem rv64m_alike (insn : Insn) :
    Alike Matches (Rv64m.execute insn : MachineM B S _)
      (Rv64m.execute insn : MachineM B' S' _) := by
  apply Alike.ite (.pure _)
  apply Alike.read_bind
  intro m m' hm
  rw [← hm.cpu]
  apply Alike.ite
  · cases Rv64m.op (Insn.funct3 insn) _ _ with
    | none => exact .raise _
    | some v => exact .bind (setReg_alike _ _) fun _ => .pure _
  apply Alike.ite
  · cases Rv64m.op32 (Insn.funct3 insn) _ _ with
    | none => exact .raise _
    | some v => exact .bind (setReg_alike _ _) fun _ => .pure _
  · exact .pure _

omit [ConsoleSink S] [ConsoleSink S'] in
theorem executeRegister_alike (insn : Insn) :
    Alike Matches (Rv64i.executeRegister insn : MachineM B S _)
      (Rv64i.executeRegister insn : MachineM B' S' _) := by
  apply Alike.read_bind
  intro m m' hm
  rw [← hm.cpu]
  dsimp only
  have hretire (value : Option (BitVec 64)) : Alike Matches
      (Rv64i.retire insn value : MachineM B S _) (Rv64i.retire insn value : MachineM B' S' _) :=
    retire_alike insn value
  have hjump (target : BitVec 64) {next : MachineM B S Bool} {next' : MachineM B' S' Bool}
      (hnext : Alike Matches next next') :
      Alike Matches (do Machine.jump target; next) (do Machine.jump target; next') :=
    .bind (onCpu_alike _) fun _ => hnext
  split
  · exact hretire _
  · exact hretire _
  · exact hretire _
  · exact hretire _
  · exact hretire _
  · exact hretire _
  · split
    · exact .raise _
    · exact hjump _ (.pure _)
    · exact .pure _
  · exact hjump _ (hretire _)
  · exact hjump _ (hretire _)
  · split
    · exact .pure _
    · exact .pure _
    · exact .raise _
  · exact .pure _

omit [ConsoleSink S] [ConsoleSink S'] in
theorem privileged_alike (insn : Insn) :
    Alike Matches (Rv64i.privileged insn : MachineM B S _)
      (Rv64i.privileged insn : MachineM B' S' _) := by
  apply Alike.read_bind
  intro m m' hm
  rw [← hm.cpu]
  apply Alike.ite (.raise _)
  apply Alike.ite (.raise _)
  apply Alike.ite (.bind (onCpu_alike _) fun _ => .pure _)
  apply Alike.ite (.bind (onCpu_alike _) fun _ => .pure _)
  apply Alike.ite (.pure _)
  exact .ite (.bind flushMmu_alike fun _ => .pure _) (.raise _)

omit [ConsoleSink S] [ConsoleSink S'] in
theorem csrAccess_alike (insn : Insn) :
    Alike Matches (Rv64i.csrAccess insn : MachineM B S _)
      (Rv64i.csrAccess insn : MachineM B' S' _) := by
  apply Alike.read_bind
  intro m m' hm
  have hold (addr : Csr.Addr) : Rv64i.oldCsr m addr = Rv64i.oldCsr m' addr := by
    rw [Rv64i.oldCsr, Rv64i.oldCsr, hm.cpu, hm.bus.clint]
  dsimp only
  rw [← hm.cpu, ← hold]
  apply Alike.ite (.raise _)
  apply Alike.ite (.raise _)
  split
  · exact .raise _
  · apply Alike.bind
    · apply Alike.ite
      · exact .bind (onCpu_alike _) fun _ => .ite flushMmu_alike (.pure _)
      · exact .pure _
    · exact fun _ => .bind (setReg_alike _ _) fun _ => .pure _

include hB hB' in
theorem rv64i_alike (insn : Insn) :
    Alike Matches (Rv64i.execute insn : MachineM B S _)
      (Rv64i.execute insn : MachineM B' S' _) := by
  apply Alike.ite
  · apply Alike.read_bind
    intro m m' hm
    rw [← hm.cpu]
    cases Rv64i.loadOf insn with
    | none => exact .raise _
    | some width =>
        exact .bind (readTranslated_alike hB hB' _ _ _) fun _ => retire_alike _ _
  apply Alike.ite
  · apply Alike.read_bind
    intro m m' hm
    rw [← hm.cpu]
    cases Rv64i.storeOf insn with
    | none => exact .raise _
    | some size => exact .bind (writeTranslated_alike hB hB' _ _ _) fun _ => .pure _
  apply Alike.ite
  · exact .ite (privileged_alike insn) (csrAccess_alike insn)
  · exact executeRegister_alike insn

include hB hB' in
theorem rv64a_alike (insn : Insn) :
    Alike Matches (Rv64a.execute insn : MachineM B S _)
      (Rv64a.execute insn : MachineM B' S' _) := by
  have hperform (addr src : BitVec 64) (size : ℕ) :
      Alike Matches (Rv64a.perform insn addr src size : MachineM B S _)
        (Rv64a.perform insn addr src size : MachineM B' S' _) := by
    apply Alike.ite
    · exact .bind (busLoad_alike hB hB' _ _ _) fun _ =>
        .bind (onCpu_alike _) fun _ => setReg_alike _ _
    apply Alike.ite
    · apply Alike.read_bind
      intro m m' hm
      rw [← hm.cpu]
      apply Alike.bind (onCpu_alike _)
      intro _
      exact .ite (.bind (busStore_alike hB hB' _ _ _) fun _ => setReg_alike _ _)
        (setReg_alike _ _)
    · apply Alike.bind (busLoad_alike hB hB' _ _ _)
      intro old
      cases Rv64a.amo (Rv64a.opOf insn) size old src with
      | none => exact .raise _
      | some new =>
          exact .bind (busStore_alike hB hB' _ _ _) fun _ =>
            .bind (onCpu_alike _) fun _ => setReg_alike _ _
  apply Alike.ite (.pure _)
  cases Rv64a.sizeOf insn with
  | none => exact .raise _
  | some size =>
      apply Alike.read_bind
      intro m m' hm
      rw [← hm.cpu]
      exact .bind (translate_alike hB hB' _ _) fun _ => .bind (hperform _ _ _) fun _ => .pure _

/-! ## Steps -/

theorem handle_matches {m : Machine B S} {m' : Machine B' S'} (hm : Matches m m') :
    (Sbi.handle m).1 = (Sbi.handle m').1 ∧ Matches (Sbi.handle m).2 (Sbi.handle m').2 := by
  have hreply {m : Machine B S} {m' : Machine B' S'} (hm : Matches m m') (value : BitVec 64) :
      Matches (Sbi.reply value m) (Sbi.reply value m') := hm.with_cpu (·.setReg 10 value)
  have hpair {m : Machine B S} {m' : Machine B' S'} (hm : Matches m m')
      (result : BitVec 64 × BitVec 64) :
      Matches (Sbi.replyPair result m) (Sbi.replyPair result m') :=
    hm.with_cpu fun cpu => (cpu.setReg 10 result.1).setReg 11 result.2
  have htimer (deadline : BitVec 64) :
      Matches (Sbi.setTimer deadline m) (Sbi.setTimer deadline m') := by
    refine ⟨(hm.with_cpu fun cpu => { cpu with
      csrs := cpu.csrs.write Csr.mip (cpu.csrs.read Csr.mip &&& ~~~Sbi.mipStip) }).cpu,
      hm.bus.ram, ?_, hm.bus.uart⟩
    exact congrArg (fun clint : Clint => { clint with mtimecmp := deadline }) hm.bus.clint
  have hputchar (byte : Byte) : Matches (Sbi.putchar byte m) (Sbi.putchar byte m') :=
    ⟨hm.cpu, hm.bus.ram, hm.bus.clint, hm.bus.uart⟩
  unfold Sbi.handle
  simp only [← hm.cpu]
  split_ifs
  · exact ⟨rfl, hreply (htimer _) 0⟩
  · exact ⟨rfl, hreply (hputchar _) 0⟩
  · exact ⟨rfl, hreply hm _⟩
  · exact ⟨rfl, hm⟩
  · exact ⟨rfl, hpair (htimer _) _⟩
  · exact ⟨rfl, hm⟩
  · exact ⟨rfl, hpair hm _⟩
  · exact ⟨rfl, hpair hm _⟩

include hB hB' in
theorem step_alike : Alike Matches (step : MachineM B S PUnit) (step : MachineM B' S' _) := by
  have hhandled (insn : Insn) : Alike Matches (handled insn : MachineM B S _)
      (handled insn : MachineM B' S' _) :=
    .bind (rv64m_alike insn) fun _ => .ite (.pure _) <|
      .bind (rv64a_alike hB hB' insn) fun _ => .ite (.pure _) (rv64i_alike hB hB' insn)
  apply Alike.bind (fetchInsn_alike hB hB')
  intro fetched
  apply Alike.bind (onCpu_alike _)
  intro _
  apply Alike.bind
  · exact .bind (hhandled _) fun _ => .ite (.pure _) (.raise _)
  · exact fun _ => onCpu_alike _

theorem deliver_alike (result : Except Exception PUnit) :
    Alike Matches (deliver result : Exec Empty (Machine B S) _)
      (deliver result : Exec Empty (Machine B' S') _) := by
  unfold deliver
  split
  · exact .pure _
  · apply Alike.bind
    · exact .call fun _ _ hm => handle_matches hm
    · exact fun _ => .bind
        (.update fun _ _ hm => hm.with_cpu fun cpu => { cpu with pc := cpu.pc + cpu.insnLen })
        fun _ => .pure _
  · exact .pure _
  · exact .bind (.update fun _ _ hm => hm.with_cpu (·.trap _)) fun _ => .pure _

include hB hB' in
/-- **A step** of matching machines ends alike and leaves them matching. -/
theorem stepTrapping_alike :
    Alike Matches (stepTrapping : Exec Empty (Machine B S) _)
      (stepTrapping : Exec Empty (Machine B' S') _) :=
  .bind (.attempt (step_alike hB hB')) fun result => deliver_alike result

omit [ConsoleSink S] [ConsoleSink S'] in
theorem Matches.interrupted {m : Machine B S} {m' : Machine B' S'} (hm : Matches m m') :
    Matches m.interrupted m'.interrupted := by
  refine ⟨?_, hm.bus⟩
  rw [Machine.interrupted, Machine.interrupted, hm.cpu, hm.bus.clint]

omit [ConsoleSink S] [ConsoleSink S'] in
theorem Matches.ticked {m : Machine B S} {m' : Machine B' S'} (hm : Matches m m')
    (n : BitVec 64) : Matches (m.ticked n) (m'.ticked n) :=
  ⟨hm.cpu, hm.bus.ram, congrArg (·.tick n) hm.bus.clint, hm.bus.uart⟩

end Machine

end Steps

end Baonix.Core

import Baonix.Core.Alike
import Baonix.Core.Coupling

/-!
# A machine on memory that may fail

One machine runs on a backing that may fail, the other on one that does not.
They mirror each other if the guest's view of them and what was printed agree.
A step keeps that, unless a failure of the backing stops it.
-/

namespace Baonix.Core

open Exec (Follows)
open PageCache (Holds Width)

/-- The error is a failure of the backing. -/
def Exception.FromBacking (err : Exception) : Prop := ∃ addr, err = .backingFailure addr

variable {B B' S : Type} [FlatBacking B] [FlatBacking B']

/-- The same RAM and the same devices, the output included. -/
structure Bus.Mirrors (bus : Bus B S) (bus' : Bus B' S) : Prop where
  ram : bus.cache.Matches bus'.cache
  clint : bus.clint = bus'.clint
  uart : bus.uart = bus'.uart

structure MemSystem.Mirrors (system : MemSystem B S) (system' : MemSystem B' S) : Prop where
  mmu : system.mmu = system'.mmu
  bus : system.bus.Mirrors system'.bus

structure Machine.Mirrors (m : Machine B S) (m' : Machine B' S) : Prop where
  cpu : m.cpu = m'.cpu
  bus : m.bus.Mirrors m'.bus

variable (hB' : ¬ Fallible B')

/-! ## Accesses -/

namespace PageCache

include hB' in
theorem readLe_follows (N : Width) {gpa : ℕ} (hram : InRam gpa N) :
    Follows (fun _ => True) Matches (readLe N gpa : CacheM B (BitVec 64))
      (readLe N gpa : CacheM B' _) := by
  rintro c c' ⟨m, hc, hc'⟩
  obtain ⟨_, next', hrun', hnext', rfl⟩ := ((readLe_spec N gpa hc').imp (fun _ _ hpost => hpost)
    (fun _ _ hfails => hB' (hfails.2 hram)) (fun hfalse => hfalse)).exists_ok
  exact Follows.of_wp hrun' <| (readLe_spec N gpa hc).imp
    (fun _ _ hpost => ⟨hpost.2, m, hpost.1, hnext'⟩) (fun _ _ _ => trivial) fun hfalse => hfalse

include hB' in
theorem writeLe_follows (N : Width) {gpa : ℕ} (value : BitVec 64) (hram : InRam gpa N) :
    Follows (fun _ => True) Matches (writeLe N gpa value : CacheM B PUnit)
      (writeLe N gpa value : CacheM B' _) := by
  rintro c c' ⟨m, hc, hc'⟩
  obtain ⟨_, next', hrun', hnext'⟩ := ((writeLe_spec N gpa value hc').imp
    (fun _ _ hpost => hpost) (fun _ _ hfails => hB' (hfails.2 hram))
    (fun hfalse => hfalse)).exists_ok
  exact Follows.of_wp hrun' <| (writeLe_spec N gpa value hc).imp
    (fun _ _ hnext => ⟨rfl, _, hnext, hnext'⟩) (fun _ _ _ => trivial) fun hfalse => hfalse

end PageCache

namespace Bus

include hB' in
theorem load_follows (addr : BitVec 64) (size : ℕ) :
    Follows Exception.FromBacking Mirrors (load addr size : Exec Exception (Bus B S) _)
      (load addr size : Exec Exception (Bus B' S) _) := by
  unfold load
  cases hwidth : widthOf size with
  | none => exact .raise _
  | some width =>
      dsimp only
      by_cases hram : inRam addr size
      · rw [if_pos hram, if_pos hram]
        have hwhole : InRam addr.toNat width := by
          rw [eq_of_widthOf hwidth]
          exact inRam_iff.mp hram
        exact .zoom (PageCache.readLe_follows hB' width hwhole) (fun _ _ => ⟨addr, rfl⟩)
          (fun _ _ hbus => hbus.ram) fun _ _ _ _ hbus hcache => ⟨hcache, hbus.clint, hbus.uart⟩
      rw [if_neg hram, if_neg hram]
      apply Follows.ite
      · apply Follows.read_bind
        intro bus bus' hbus
        rw [← hbus.clint]
        exact .pure _
      apply Follows.ite
      · apply Exec.Alike.follows
        apply Exec.Alike.call
        intro bus bus' hbus
        rw [hbus.uart]
        exact ⟨rfl, hbus.ram, hbus.clint, rfl⟩
      · exact .raise _

include hB' in
theorem store_follows [ConsoleSink S] (addr : BitVec 64) (size : ℕ) (value : BitVec 64) :
    Follows Exception.FromBacking Mirrors (store addr size value : Exec Exception (Bus B S) _)
      (store addr size value : Exec Exception (Bus B' S) _) := by
  unfold store
  cases hwidth : widthOf size with
  | none => exact .raise _
  | some width =>
      dsimp only
      by_cases hram : inRam addr size
      · rw [if_pos hram, if_pos hram]
        have hwhole : InRam addr.toNat width := by
          rw [eq_of_widthOf hwidth]
          exact inRam_iff.mp hram
        exact .zoom (PageCache.writeLe_follows hB' width value hwhole) (fun _ _ => ⟨addr, rfl⟩)
          (fun _ _ hbus => hbus.ram) fun _ _ _ _ hbus hcache => ⟨hcache, hbus.clint, hbus.uart⟩
      rw [if_neg hram, if_neg hram]
      apply Follows.ite
      · apply Follows.update
        intro bus bus' hbus
        exact ⟨hbus.ram, congrArg (·.store (addr - clintBase) value) hbus.clint, hbus.uart⟩
      apply Follows.ite
      · apply Follows.update
        intro bus bus' hbus
        exact ⟨hbus.ram, hbus.clint, congrArg (·.store (addr - uartBase) value) hbus.uart⟩
      · exact .raise _

end Bus

namespace Mmu

/-- The walk passes a failure of the backing on. -/
theorem walkError_fromBacking (access : Access) (vaddr : BitVec 64) {err : Exception}
    (herr : err.FromBacking) : (walkError access vaddr err).FromBacking := by
  obtain ⟨addr, rfl⟩ := herr
  exact ⟨addr, rfl⟩

include hB' in
theorem walk_follows (priv : Priv) (access : Access) (vaddr : BitVec 64) (levels : List Level)
    (table : BitVec 64) :
    Follows Exception.FromBacking MemSystem.Mirrors
      (walk priv access vaddr levels table : Exec Exception (MemSystem B S) _)
      (walk priv access vaddr levels table : Exec Exception (MemSystem B' S) _) := by
  induction levels generalizing table with
  | nil => exact .raise _
  | cons level levels ih =>
      have hload (addr : BitVec 64) : Follows Exception.FromBacking MemSystem.Mirrors
          (loadPte access vaddr addr : Exec Exception (MemSystem B S) _)
          (loadPte access vaddr addr : Exec Exception (MemSystem B' S) _) :=
        .zoom (Bus.load_follows hB' addr 8) (fun _ => walkError_fromBacking access vaddr)
          (fun _ _ hsystem => hsystem.bus) fun _ _ _ _ hsystem hbus => ⟨hsystem.mmu, hbus⟩
      apply Follows.bind (hload _)
      intro pte
      apply Follows.ite (.raise _)
      apply Follows.ite
      · apply Follows.bind (Exec.Alike.ofExcept _).follows
        intro _
        apply Follows.ite (.raise _)
        apply Follows.bind
        · apply Follows.update
          exact fun _ _ hsystem => ⟨congrArg (fill vaddr _ pte) hsystem.mmu, hsystem.bus⟩
        · exact fun _ => .pure _
      · exact ih _

include hB' in
theorem translate_follows (csrs : Csrs) (priv : Priv) (vaddr : BitVec 64) (access : Access) :
    Follows Exception.FromBacking MemSystem.Mirrors
      (translate csrs priv vaddr access : Exec Exception (MemSystem B S) _)
      (translate csrs priv vaddr access : Exec Exception (MemSystem B' S) _) := by
  apply Follows.ite (.pure _)
  apply Follows.read_bind
  intro system system' hsystem
  rw [← hsystem.mmu]
  apply Follows.ite
  · exact .bind (Exec.Alike.ofExcept _).follows fun _ => .pure _
  · apply Follows.bind
    · apply Follows.update
      intro system system' hsystem
      exact ⟨congrArg (fun mmu : Mmu => { mmu with walks := mmu.walks + 1 }) hsystem.mmu,
        hsystem.bus⟩
    · exact fun _ => walk_follows hB' priv access vaddr _ _

end Mmu

namespace Machine

variable [ConsoleSink S]

omit [ConsoleSink S] in
theorem Mirrors.with_cpu {m : Machine B S} {m' : Machine B' S} (hm : Mirrors m m')
    (change : Cpu → Cpu) :
    Mirrors { m with cpu := change m.cpu } { m' with cpu := change m'.cpu } :=
  ⟨congrArg change hm.cpu, hm.bus⟩

/-- An SBI call never touches RAM. -/
theorem Mirrors.handle {m : Machine B S} {m' : Machine B' S} (hm : Mirrors m m') :
    (Sbi.handle m).1 = (Sbi.handle m').1 ∧ Mirrors (Sbi.handle m).2 (Sbi.handle m').2 := by
  have hreply {m : Machine B S} {m' : Machine B' S} (hm : Mirrors m m') (value : BitVec 64) :
      Mirrors (Sbi.reply value m) (Sbi.reply value m') := hm.with_cpu (·.setReg 10 value)
  have hpair {m : Machine B S} {m' : Machine B' S} (hm : Mirrors m m')
      (result : BitVec 64 × BitVec 64) :
      Mirrors (Sbi.replyPair result m) (Sbi.replyPair result m') :=
    hm.with_cpu fun cpu => (cpu.setReg 10 result.1).setReg 11 result.2
  have htimer (deadline : BitVec 64) :
      Mirrors (Sbi.setTimer deadline m) (Sbi.setTimer deadline m') := by
    refine ⟨(hm.with_cpu fun cpu => { cpu with
      csrs := cpu.csrs.write Csr.mip (cpu.csrs.read Csr.mip &&& ~~~Sbi.mipStip) }).cpu,
      hm.bus.ram, ?_, hm.bus.uart⟩
    exact congrArg (fun clint : Clint => { clint with mtimecmp := deadline }) hm.bus.clint
  have hputchar (byte : LittleEndian.Byte) :
      Mirrors (Sbi.putchar byte m) (Sbi.putchar byte m') := by
    refine ⟨hm.cpu, hm.bus.ram, hm.bus.clint, ?_⟩
    exact congrArg (fun uart : Uart S => { uart with sink := ConsoleSink.put uart.sink byte })
      hm.bus.uart
  unfold Sbi.handle
  simp only [← hm.cpu]
  split_ifs
  · exact ⟨rfl, hreply (htimer _) 0⟩
  · exact ⟨rfl, hreply (hputchar _) 0⟩
  · exact ⟨rfl, hreply hm _⟩
  · exact ⟨rfl, hm⟩
  · exact ⟨rfl, hpair (htimer _) _⟩
  · exact ⟨rfl, hm⟩
  · exact ⟨rfl, hpair hm _⟩
  · exact ⟨rfl, hpair hm _⟩

include hB' in
/-- **Mirroring** machines are coupled, up to the failures of the first one's backing. -/
theorem coupling_mirrors :
    Coupling Exception.FromBacking (Mirrors : Machine B S → Machine B' S → Prop) where
  cpu := fun hm => hm.cpu
  clint := fun hm => hm.bus.clint
  with_cpu := fun hm => hm.with_cpu
  noted := fun hm _ _ => ⟨hm.cpu, hm.bus⟩
  fetchError := by
    rintro pc _ ⟨addr, rfl⟩
    exact ⟨addr, rfl⟩
  translate := by
    intro vaddr access
    apply Follows.read_bind
    intro m m' hm
    rw [← hm.cpu]
    apply Follows.bind
    · exact .update fun _ _ hm => ⟨hm.cpu, hm.bus⟩
    · intro _
      apply Follows.zoom (Mmu.translate_follows hB' _ _ vaddr access) (fun _ herr => herr)
      · exact fun m m' hm => ⟨congrArg Cpu.mmu hm.cpu, hm.bus⟩
      · intro m m' system system' hm hsystem
        refine ⟨?_, hsystem.bus⟩
        change ({ m.cpu with mmu := system.mmu } : Cpu) = { m'.cpu with mmu := system'.mmu }
        rw [hm.cpu, hsystem.mmu]
  busLoad := fun _ addr size => .bind (.update fun _ _ hm => ⟨hm.cpu, hm.bus⟩) fun _ =>
    .zoom (Bus.load_follows hB' addr size) (fun _ herr => herr) (fun _ _ hm => hm.bus)
      fun _ _ _ _ hm hbus => ⟨hm.cpu, hbus⟩
  busStore := fun addr size value => .bind (.update fun _ _ hm => ⟨hm.cpu, hm.bus⟩) fun _ =>
    .zoom (Bus.store_follows hB' addr size value) (fun _ herr => herr) (fun _ _ hm => hm.bus)
      fun _ _ _ _ hm hbus => ⟨hm.cpu, hbus⟩
  ecall := fun hm => hm.handle

omit [ConsoleSink S] in
theorem Mirrors.interrupted {m : Machine B S} {m' : Machine B' S} (hm : Mirrors m m') :
    Mirrors m.interrupted m'.interrupted := by
  refine ⟨?_, hm.bus⟩
  rw [Machine.interrupted, Machine.interrupted, hm.cpu, hm.bus.clint]

omit [ConsoleSink S] in
theorem Mirrors.ticked {m : Machine B S} {m' : Machine B' S} (hm : Mirrors m m')
    (n : BitVec 64) : Mirrors (m.ticked n) (m'.ticked n) :=
  ⟨hm.cpu, hm.bus.ram, congrArg (·.tick n) hm.bus.clint, hm.bus.uart⟩

end Machine

end Baonix.Core

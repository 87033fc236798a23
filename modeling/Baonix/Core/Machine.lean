import Baonix.Core.Mmu

/-!
# The processor and its memory accesses

The registers of `Cpu`, and the path of every access of an instruction: each
page it touches is translated on its own, so an access that straddles two pages
goes byte by byte.

A `Machine` carries a `Trace` besides the processor and the bus.  It records the
translations, the flushes and the accesses issued on the bus, and nothing reads
it: it is there for properties of runs to talk about.
-/

namespace Baonix.Core

open Baonix.LittleEndian Baonix.Proto

structure Cpu where
  regs : BitVec 5 → BitVec 64
  pc : BitVec 64
  reservation : Option (BitVec 64)
  insnLen : BitVec 64
  instret : BitVec 64
  csrs : Csrs
  priv : Priv
  mmu : Mmu
  nextPc : Option (BitVec 64)

namespace Cpu

def new (pc : BitVec 64) : Cpu where
  regs := fun _ => 0
  pc := pc
  reservation := none
  insnLen := 4
  instret := 0
  csrs := .default
  priv := .m
  mmu := .default
  nextPc := none

def reg (cpu : Cpu) (i : BitVec 5) : BitVec 64 := cpu.regs i

/-- Writes to `x0` are discarded. -/
def setReg (cpu : Cpu) (i : BitVec 5) (v : BitVec 64) : Cpu :=
  if i ≠ 0 then { cpu with regs := Function.update cpu.regs i v } else cpu

def jump (cpu : Cpu) (target : BitVec 64) : Cpu := { cpu with nextPc := some target }

/-- A store that overlaps the eight bytes reserved breaks the reservation. -/
def invalidateReservation (cpu : Cpu) (addr : BitVec 64) (size : ℕ) : Cpu :=
  match cpu.reservation with
  | none => cpu
  | some reserved =>
      if addr.toNat < Bus.saturatingAdd reserved 8 ∧
          reserved.toNat < Bus.saturatingAdd addr size then
        { cpu with reservation := none }
      else cpu

end Cpu

/-- A call of `translate` and everything it was given. -/
structure Translation (B S : Type) where
  system : MemSystem B S
  csrs : Csrs
  priv : Priv
  vaddr : BitVec 64
  access : Access

/-- What concerns the translation buffer. -/
inductive TlbEvent (B S : Type)
  | translated (translation : Translation B S)
  | flushed

/-- An access issued on the bus, and the latest translation at that time. -/
structure BusAccess (B S : Type) where
  kind : Access
  addr : BitVec 64
  size : ℕ
  under : Option (Translation B S)

/-- What happened so far, the latest first. -/
structure Trace (B S : Type) where
  events : List (TlbEvent B S)
  accesses : List (BusAccess B S)

/-- The translation made last. -/
def TlbEvent.latest {B S : Type} : List (TlbEvent B S) → Option (Translation B S)
  | [] => none
  | .translated translation :: _ => some translation
  | .flushed :: events => latest events

structure Machine (B S : Type) where
  cpu : Cpu
  bus : Bus B S
  trace : Trace B S

abbrev MachineM (B S : Type) := Exec Exception (Machine B S)

namespace Machine

variable {B S : Type}

def onCpu (change : Cpu → Cpu) : MachineM B S PUnit :=
  Exec.update fun m => { m with cpu := change m.cpu }

def setReg (i : BitVec 5) (v : BitVec 64) : MachineM B S PUnit := onCpu (·.setReg i v)

def jump (target : BitVec 64) : MachineM B S PUnit := onCpu (·.jump target)

def system (m : Machine B S) : MemSystem B S := ⟨m.cpu.mmu, m.bus⟩

def putSystem (m : Machine B S) (system : MemSystem B S) : Machine B S :=
  { m with cpu := { m.cpu with mmu := system.mmu }, bus := system.bus }

/-- Records an event of the translation buffer. -/
def note (event : TlbEvent B S) (m : Machine B S) : Machine B S :=
  { m with trace := { m.trace with events := event :: m.trace.events } }

/-- Records an access. -/
def noteAccess (kind : Access) (addr : BitVec 64) (size : ℕ) (m : Machine B S) :
    Machine B S :=
  let issued : BusAccess B S := ⟨kind, addr, size, TlbEvent.latest m.trace.events⟩
  { m with trace := { m.trace with accesses := issued :: m.trace.accesses } }

def flushMmu : MachineM B S PUnit :=
  Exec.update fun m =>
    { m with cpu := { m.cpu with mmu := m.cpu.mmu.flush } }.note .flushed

variable [MemBacking B]

def translate (vaddr : BitVec 64) (access : Access) : MachineM B S (BitVec 64) := do
  let m ← Exec.read
  Exec.update (note (.translated ⟨m.system, m.cpu.csrs, m.cpu.priv, vaddr, access⟩))
  Exec.zoom system putSystem id (Mmu.translate m.cpu.csrs m.cpu.priv vaddr access)

/-- `bus.load`. -/
def busLoad (kind : Access) (addr : BitVec 64) (size : ℕ) : MachineM B S (BitVec 64) := do
  Exec.update (noteAccess kind addr size)
  Exec.zoom (·.bus) (fun m bus => { m with bus := bus }) id (Bus.load addr size)

/-- The bytes of a straddling read, for the offsets that are left. -/
def readEach (vaddr : BitVec 64) (access : Access) : List ℕ → MachineM B S (List Byte)
  | [] => pure []
  | i :: rest => do
      let pa ← translate (vaddr + BitVec.ofNat 64 i) access
      let byte ← busLoad access pa 1
      let bytes ← readEach vaddr access rest
      pure (byte.setWidth 8 :: bytes)

/-- The access stays in the page of its address. -/
def fitsPage (vaddr : BitVec 64) (size : ℕ) : Prop := (vaddr &&& 0xFFF).toNat + size ≤ pageSize

instance (vaddr : BitVec 64) (size : ℕ) : Decidable (fitsPage vaddr size) := Nat.decLe ..

def readTranslated (vaddr : BitVec 64) (size : ℕ) (access : Access) :
    MachineM B S (BitVec 64) :=
  if fitsPage vaddr size then do
    let pa ← translate vaddr access
    busLoad access pa size
  else do
    let bytes ← readEach vaddr access (List.range size)
    pure (BitVec.ofNat 64 (ofBytes bytes))

/-- What a failed fetch is reported as. -/
def fetchError (pc : BitVec 64) : Exception → Exception
  | .backingFailure addr => .backingFailure addr
  | .instructionPageFault addr => .instructionPageFault addr
  | _ => .instructionAccessFault pc

def fetch (size : ℕ) : MachineM B S (BitVec 64) := do
  let m ← Exec.read
  Exec.zoom id (fun _ after => after) (fetchError m.cpu.pc)
    (readTranslated m.cpu.pc size .fetch)

def vload (vaddr : BitVec 64) (size : ℕ) : MachineM B S (BitVec 64) :=
  readTranslated vaddr size .load

variable [ConsoleSink S]

/-- `bus.store`. -/
def busStore (addr : BitVec 64) (size : ℕ) (value : BitVec 64) : MachineM B S PUnit := do
  Exec.update (noteAccess .store addr size)
  Exec.zoom (·.bus) (fun m bus => { m with bus := bus }) id (Bus.store addr size value)

/-- The stores of a straddling write, for the offsets that are left. -/
def writeEach (vaddr value : BitVec 64) : List ℕ → MachineM B S PUnit
  | [] => pure ()
  | i :: rest => do
      let pa ← translate (vaddr + BitVec.ofNat 64 i) .store
      busStore pa 1 ((value >>> (8 * i)) &&& 0xFF)
      onCpu (·.invalidateReservation pa 1)
      writeEach vaddr value rest

def writeTranslated (vaddr : BitVec 64) (size : ℕ) (value : BitVec 64) : MachineM B S PUnit :=
  if fitsPage vaddr size then do
    let pa ← translate vaddr .store
    busStore pa size value
    onCpu (·.invalidateReservation pa size)
  else writeEach vaddr value (List.range size)

def vstore (vaddr : BitVec 64) (size : ℕ) (value : BitVec 64) : MachineM B S PUnit :=
  writeTranslated vaddr size value

end Machine

end Baonix.Core

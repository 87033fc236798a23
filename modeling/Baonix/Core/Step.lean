import Baonix.Core.Rv64a
import Baonix.Core.Rv64i
import Baonix.Core.Rv64m
import Baonix.Core.Sbi

/-!
# One step of the processor

Fetching and dispatching an instruction, entering a trap, delivering the timer
and servicing an `ecall`.
-/

namespace Baonix.Core

namespace Cpu

/-- `enter_trap`: the entry sequence exceptions and interrupts share. -/
def enterTrap (cpu : Cpu) (cause tval : BitVec 64) (toS : Bool) : Cpu :=
  if toS then
    let csrs := ((cpu.csrs.write Csr.sepc cpu.pc).write Csr.scause cause).write Csr.stval tval
    let status := csrs.read Csr.mstatus
    let sie := (status >>> 1) &&& 1
    let spp := cpu.priv.toBits &&& 1
    let new := status &&& ~~~((1 : BitVec 64) <<< 1 ||| 1 <<< 5 ||| 1 <<< 8) |||
      sie <<< 5 ||| spp <<< 8
    let csrs := csrs.write Csr.mstatus new
    { cpu with csrs := csrs, priv := .s, pc := csrs.read Csr.stvec }
  else
    let csrs := ((cpu.csrs.write Csr.mepc cpu.pc).write Csr.mcause cause).write Csr.mtval tval
    let status := csrs.read Csr.mstatus
    let mie := (status >>> 3) &&& 1
    let mpp := cpu.priv.toBits
    let new := status &&& ~~~((1 : BitVec 64) <<< 3 ||| 1 <<< 7 ||| 0b11 <<< 11) |||
      mie <<< 7 ||| mpp <<< 11
    let csrs := csrs.write Csr.mstatus new
    { cpu with csrs := csrs, priv := .m, pc := csrs.read Csr.mtvec }

/-- `medeleg` hands the cause to S-mode. -/
def delegated (cpu : Cpu) (cause : BitVec 64) : Prop :=
  (cpu.csrs.read Csr.medeleg >>> cause) &&& 1 = 1

instance (cpu : Cpu) (cause : BitVec 64) : Decidable (cpu.delegated cause) :=
  inferInstanceAs (Decidable (_ = _))

def trap (cpu : Cpu) (e : Exception) : Cpu :=
  cpu.enterTrap e.cause e.tval (cpu.priv ≠ .m ∧ cpu.delegated e.cause)

/-- `interrupt_enabled`. -/
def interruptEnabled (cpu : Cpu) (toS : Bool) : Bool :=
  let status := cpu.csrs.read Csr.mstatus
  if toS then
    match cpu.priv with
    | .m => false
    | .s => (status >>> 1) &&& 1 = 1
    | .u => true
  else cpu.priv ≠ .m ∨ (status >>> 3) &&& 1 = 1

def mtip : BitVec 64 := 1 <<< 7
def stip : BitVec 64 := 1 <<< 5

/-- `mip` as the comparator drives it: the timer is raised and lowered, its
forward to S-mode only raised. -/
def timerBits (pending : Bool) (mip : BitVec 64) : BitVec 64 :=
  if pending then mip ||| (mtip ||| stip) else mip &&& ~~~mtip

/-- `check_interrupts`, given whether the timer is pending. -/
def checkInterrupts (cpu : Cpu) (pending : Bool) : Cpu :=
  let mip := timerBits pending (cpu.csrs.read Csr.mip)
  let cpu := { cpu with csrs := cpu.csrs.write Csr.mip mip }
  if mip &&& mtip ≠ 0 ∧ cpu.csrs.read Csr.mie &&& mtip ≠ 0 ∧ cpu.interruptEnabled false then
    cpu.enterTrap Interrupt.machineTimer.cause 0 false
  else if mip &&& stip ≠ 0 ∧ cpu.csrs.read Csr.mie &&& stip ≠ 0 ∧
      cpu.interruptEnabled true then
    cpu.enterTrap Interrupt.supervisorTimer.cause 0 true
  else cpu

/-- The next instruction replaces the length and the pending target. -/
def begin (cpu : Cpu) (len : BitVec 64) : Cpu := { cpu with insnLen := len, nextPc := none }

/-- The end of `step`. -/
def retire (cpu : Cpu) (len : BitVec 64) : Cpu :=
  { cpu with
    pc := cpu.nextPc.getD (cpu.pc + len)
    nextPc := none
    instret := cpu.instret + 1 }

end Cpu

namespace Machine

open Sbi (SbiOutcome)

variable {B S : Type} [MemBacking B] [ConsoleSink S]

/-- The instruction a probe of two bytes announces, and its length. -/
def decode (half : BitVec 16) : MachineM B S (Insn × BitVec 64) :=
  if half &&& 0x3 = 0x3 then do
    let word ← fetch 4
    pure (word.setWidth 32, 4)
  else
    match Rvc.expand half with
    | none => Exec.raise (.illegalInstruction (half.setWidth 64))
    | some expanded => pure (expanded, 2)

def fetchInsn : MachineM B S (Insn × BitVec 64) := do
  let half ← fetch 2
  decode (half.setWidth 16)

/-- Whether one of the decoders handles the instruction. -/
def handled (insn : Insn) : MachineM B S Bool := do
  if ← Rv64m.execute insn then pure true
  else do
    if ← Rv64a.execute insn then pure true
    else Rv64i.execute insn

def execute (insn : Insn) : MachineM B S PUnit := do
  if ← handled insn then pure ()
  else Exec.raise (.illegalInstruction (insn.setWidth 64))

/-- The rest of `step`, with the instruction fetched. -/
def executeFetched (insn : Insn) (len : BitVec 64) : MachineM B S PUnit := do
  onCpu (·.begin len)
  execute insn
  onCpu (·.retire len)

def step : MachineM B S PUnit := do
  let (insn, len) ← fetchInsn
  executeFetched insn len

/-- `step_trapping` after `step`: `none` is its `Err`, with the address. -/
def deliver (result : Except Exception PUnit) :
    Exec Empty (Machine B S) (Except (BitVec 64) SbiOutcome) :=
  match result with
  | .ok _ => pure (.ok .handled)
  | .error .environmentCallFromSMode => do
      let outcome ← Exec.call id (fun _ after => after) Sbi.handle
      Exec.update fun m => { m with cpu := { m.cpu with pc := m.cpu.pc + m.cpu.insnLen } }
      pure (.ok outcome)
  | .error (.backingFailure addr) => pure (.error addr)
  | .error e => do
      Exec.update fun m => { m with cpu := m.cpu.trap e }
      pure (.ok .handled)

def stepTrapping : Exec Empty (Machine B S) (Except (BitVec 64) SbiOutcome) := do
  deliver (← Exec.attempt step)

end Machine

end Baonix.Core

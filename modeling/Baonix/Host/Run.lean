import Baonix.Core.Runs

/-!
# The run loop

`run_until` steps the guest until it shuts down, its memory fails, the budget is
spent, or a trap lands in M-mode, where nothing handles it.
-/

namespace Baonix.Host

open Baonix.Core Baonix.LittleEndian

/-- `KERNEL_LOAD_ADDR`. -/
def kernelLoadAddr : BitVec 64 := 0x80200000

/-- The processor `load_boot_images` and `start_cpu` hand over, with the device
tree at `dtb`. -/
def bootCpu (dtb : BitVec 64) : Cpu :=
  ({ Cpu.new kernelLoadAddr with priv := .s }.setReg 10 0).setReg 11 dtb

inductive RunOutcome
  | shutdown (executed : ℕ)
  | capped (executed : ℕ)
  | backingFailure (executed : ℕ) (addr : BitVec 64)
  | machineTrap (executed : ℕ) (mcause mepc mtval : BitVec 64)
  deriving DecidableEq

variable {B S : Type}

/-- A trap was vectored to a handler that does not exist. -/
def deadEnd (cpu : Cpu) : Prop := cpu.priv = .m ∧ cpu.pc = 0 ∧ cpu.csrs.read Csr.mtvec = 0

instance (cpu : Cpu) : Decidable (deadEnd cpu) := instDecidableAnd

variable [MemBacking B] [ConsoleSink S]

/-- `run_until`, with the instructions executed so far and the budget that is
left. -/
def runUntil : (left executed : ℕ) → Exec Empty (Machine B S) RunOutcome
  | left, executed => do
      let cpu := (← Exec.read).cpu
      if deadEnd cpu then
        pure (.machineTrap executed (cpu.csrs.read Csr.mcause) (cpu.csrs.read Csr.mepc)
          (cpu.csrs.read Csr.mtval))
      else
        match left with
        | 0 => pure (.capped executed)
        | left + 1 => do
            Exec.update Machine.interrupted
            match ← Machine.stepTrapping with
            | .ok .shutdown => pure (.shutdown (executed + 1))
            | .ok .handled => do
                Exec.update (Machine.ticked 1)
                runUntil left (executed + 1)
            | .error addr => pure (.backingFailure executed addr)

end Baonix.Host

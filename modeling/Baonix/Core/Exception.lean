import Mathlib

/-!
# Exceptions and interrupts

The causes a trap is entered with and the value it reports.  `backingFailure` is
not an exception of the machine: the emulator's own storage medium failed.
-/

namespace Baonix.Core

inductive Exception
  | instructionAddressMisaligned (addr : BitVec 64)
  | instructionAccessFault (addr : BitVec 64)
  | illegalInstruction (insn : BitVec 64)
  | breakpoint
  | loadAddressMisaligned (addr : BitVec 64)
  | loadAccessFault (addr : BitVec 64)
  | storeAddressMisaligned (addr : BitVec 64)
  | storeAccessFault (addr : BitVec 64)
  | environmentCallFromUMode
  | environmentCallFromSMode
  | environmentCallFromMMode
  | instructionPageFault (addr : BitVec 64)
  | loadPageFault (addr : BitVec 64)
  | storePageFault (addr : BitVec 64)
  | backingFailure (addr : BitVec 64)
  deriving DecidableEq

namespace Exception

def cause : Exception → BitVec 64
  | instructionAddressMisaligned _ => 0
  | instructionAccessFault _ => 1
  | illegalInstruction _ => 2
  | breakpoint => 3
  | loadAddressMisaligned _ => 4
  | loadAccessFault _ => 5
  | storeAddressMisaligned _ => 6
  | storeAccessFault _ => 7
  | environmentCallFromUMode => 8
  | environmentCallFromSMode => 9
  | environmentCallFromMMode => 11
  | instructionPageFault _ => 12
  | loadPageFault _ => 13
  | storePageFault _ => 15
  -- a placeholder: it must never reach the delivery of a trap
  | backingFailure _ => 5

def tval : Exception → BitVec 64
  | instructionAddressMisaligned v | instructionAccessFault v | illegalInstruction v
  | loadAddressMisaligned v | loadAccessFault v
  | storeAddressMisaligned v | storeAccessFault v
  | instructionPageFault v | loadPageFault v | storePageFault v
  | backingFailure v => v
  | breakpoint | environmentCallFromUMode | environmentCallFromSMode
  | environmentCallFromMMode => 0

end Exception

inductive Interrupt
  | supervisorSoftware
  | supervisorTimer
  | supervisorExternal
  | machineSoftware
  | machineTimer
  | machineExternal
  deriving DecidableEq

def Interrupt.code : Interrupt → BitVec 64
  | supervisorSoftware => 1
  | machineSoftware => 3
  | supervisorTimer => 5
  | machineTimer => 7
  | supervisorExternal => 9
  | machineExternal => 11

/-- Bit 63 tells an interrupt from an exception. -/
def Interrupt.cause (interrupt : Interrupt) : BitVec 64 := interrupt.code ||| 1 <<< 63

end Baonix.Core

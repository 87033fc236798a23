import Baonix.Core.Machine

/-!
# The SBI stub

The emulator plays the machine-mode firmware: an `ecall` from S-mode is serviced
here.  The legacy calls return one value, the later ones an error and a value.
-/

namespace Baonix.Core.Sbi

def extSetTimer : BitVec 64 := 0x00
def extConsolePutchar : BitVec 64 := 0x01
def extConsoleGetchar : BitVec 64 := 0x02
def extShutdown : BitVec 64 := 0x08
def extBase : BitVec 64 := 0x10
def extTimerV02 : BitVec 64 := 0x54494D45
def extSrst : BitVec 64 := 0x53525354

def sbiSuccess : BitVec 64 := 0
def sbiErrNotSupported : BitVec 64 := BitVec.ofInt 64 (-2)

def mipStip : BitVec 64 := 1 <<< 5

inductive SbiOutcome
  | handled
  | shutdown
  deriving DecidableEq

variable {B S : Type}

/-- Programs the comparator and acknowledges the pending supervisor timer. -/
def setTimer (deadline : BitVec 64) (m : Machine B S) : Machine B S :=
  { m with
    cpu := { m.cpu with
      csrs := m.cpu.csrs.write Csr.mip (m.cpu.csrs.read Csr.mip &&& ~~~mipStip) }
    bus := { m.bus with clint := { m.bus.clint with mtimecmp := deadline } } }

/-- The functions of the base extension. -/
def base (func a0 : BitVec 64) : BitVec 64 × BitVec 64 :=
  let extensions := [extSetTimer, extConsolePutchar, extConsoleGetchar, extShutdown, extBase,
    extTimerV02, extSrst]
  match func.toNat with
  | 0 => (sbiSuccess, 0x00000002)
  | 1 => (sbiSuccess, 1)
  | 2 => (sbiSuccess, 1)
  | 3 => (sbiSuccess, if a0 ∈ extensions then 1 else 0)
  | 4 => (sbiSuccess, 0)
  | 5 => (sbiSuccess, 0)
  | 6 => (sbiSuccess, 0)
  | _ => (sbiErrNotSupported, 0)

/-- The single value of a legacy call, in `a0`. -/
def reply (value : BitVec 64) (m : Machine B S) : Machine B S :=
  { m with cpu := m.cpu.setReg 10 value }

/-- The pair of a later call, in `a0` and `a1`. -/
def replyPair (result : BitVec 64 × BitVec 64) (m : Machine B S) : Machine B S :=
  { m with cpu := (m.cpu.setReg 10 result.1).setReg 11 result.2 }

variable [ConsoleSink S]

def putchar (byte : LittleEndian.Byte) (m : Machine B S) : Machine B S :=
  { m with bus := { m.bus with
    uart := { m.bus.uart with sink := ConsoleSink.put m.bus.uart.sink byte } } }

def handle (m : Machine B S) : SbiOutcome × Machine B S :=
  let ext := m.cpu.reg 17
  let func := m.cpu.reg 16
  let a0 := m.cpu.reg 10
  if ext = extSetTimer then (.handled, reply 0 (setTimer a0 m))
  else if ext = extConsolePutchar then (.handled, reply 0 (putchar (a0.setWidth 8) m))
  else if ext = extConsoleGetchar then (.handled, reply (BitVec.allOnes 64) m)
  else if ext = extShutdown then (.shutdown, m)
  else if ext = extTimerV02 ∧ func = 0 then
    (.handled, replyPair (sbiSuccess, 0) (setTimer a0 m))
  else if ext = extSrst ∧ func = 0 then (.shutdown, m)
  else if ext = extBase then (.handled, replyPair (base func a0) m)
  else (.handled, replyPair (sbiErrNotSupported, 0) m)

end Baonix.Core.Sbi

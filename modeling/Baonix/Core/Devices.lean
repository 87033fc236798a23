import Baonix.Proto.Frame

/-!
# The core-local interruptor and the UART

The two devices of the guest: a timer with its comparator, and the registers of
an 8250 as far as a serial driver needs them.
-/

namespace Baonix.Core

open Baonix.LittleEndian

structure Clint where
  mtime : BitVec 64
  mtimecmp : BitVec 64
  msip : BitVec 32

namespace Clint

def msipOff : BitVec 64 := 0x0000
def mtimecmpOff : BitVec 64 := 0x4000
def mtimeOff : BitVec 64 := 0xBFF8

def default : Clint := ⟨0, BitVec.allOnes 64, 0⟩

def tick (c : Clint) (n : BitVec 64) : Clint := { c with mtime := c.mtime + n }

def pending (c : Clint) : Bool := c.mtimecmp ≤ c.mtime

def load (c : Clint) (off : BitVec 64) : BitVec 64 :=
  if off = msipOff then c.msip.setWidth 64
  else if off = mtimecmpOff then c.mtimecmp
  else if off = mtimeOff then c.mtime
  else 0

/-- The size of the access is ignored. -/
def store (c : Clint) (off v : BitVec 64) : Clint :=
  if off = msipOff then { c with msip := v.setWidth 32 }
  else if off = mtimecmpOff then { c with mtimecmp := v }
  else if off = mtimeOff then { c with mtime := v }
  else c

end Clint

/-- Where the console output of the guest goes. -/
class ConsoleSink (S : Type) where
  put : S → Byte → S

/-- `VecSink`: the bytes the guest printed. -/
instance : ConsoleSink (List Byte) := ⟨fun bytes byte => bytes ++ [byte]⟩

structure Uart (S : Type) where
  sink : S
  input : List Byte
  ier : Byte
  lcr : Byte
  dll : Byte
  dlm : Byte

namespace Uart

def rbr : BitVec 64 := 0
def thr : BitVec 64 := 0
def ierReg : BitVec 64 := 1
def iir : BitVec 64 := 2
def lcrReg : BitVec 64 := 3
def lsr : BitVec 64 := 5

def lsrDr : BitVec 64 := 1 <<< 0
def lsrThre : BitVec 64 := 1 <<< 5
def lsrTemt : BitVec 64 := 1 <<< 6
def lcrDlab : Byte := 1 <<< 7
def iirNoInterrupt : BitVec 64 := 0x01
def iirThrEmpty : BitVec 64 := 0x02
def iirRxAvailable : BitVec 64 := 0x04
def ierRxAvailable : Byte := 1 <<< 0
def ierThrEmpty : Byte := 1 <<< 1

variable {S : Type}

def new (sink : S) : Uart S := ⟨sink, [], 0, 0, 0, 0⟩

def pushInput (u : Uart S) (byte : Byte) : Uart S := { u with input := u.input ++ [byte] }

def dlab (u : Uart S) : Bool := u.lcr &&& lcrDlab ≠ 0

/-- The transmitter always has room. -/
def thrEmpty (_ : Uart S) : Bool := true

/-- The pending cause: only an enabled source is reported, and received data
outranks an empty transmitter. -/
def loadIir (u : Uart S) : BitVec 64 :=
  if u.ier &&& ierRxAvailable ≠ 0 ∧ u.input ≠ [] then iirRxAvailable
  else if u.ier &&& ierThrEmpty ≠ 0 ∧ u.thrEmpty then iirThrEmpty
  else iirNoInterrupt

def loadLsr (u : Uart S) : BitVec 64 :=
  (if u.input = [] then 0 else lsrDr) ||| (if u.thrEmpty then lsrThre ||| lsrTemt else 0)

def load (u : Uart S) (off : BitVec 64) : BitVec 64 × Uart S :=
  if off = rbr then
    if u.dlab then (u.dll.setWidth 64, u)
    else ((u.input.head?.getD 0).setWidth 64, { u with input := u.input.tail })
  else if off = ierReg then
    if u.dlab then (u.dlm.setWidth 64, u) else (u.ier.setWidth 64, u)
  else if off = iir then (u.loadIir, u)
  else if off = lcrReg then (u.lcr.setWidth 64, u)
  else if off = lsr then (u.loadLsr, u)
  else (0, u)

def store [ConsoleSink S] (u : Uart S) (off v : BitVec 64) : Uart S :=
  if off = thr then
    if u.dlab then { u with dll := v.setWidth 8 }
    else { u with sink := ConsoleSink.put u.sink (v.setWidth 8) }
  else if off = ierReg then
    if u.dlab then { u with dlm := v.setWidth 8 } else { u with ier := v.setWidth 8 }
  else if off = lcrReg then { u with lcr := v.setWidth 8 }
  else u

end Uart

end Baonix.Core

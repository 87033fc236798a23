import Baonix.Core.CacheAccess
import Baonix.Core.Csr
import Baonix.Core.Devices

/-!
# The bus

Guest physical accesses go to RAM, through the page cache, to the interruptor or
to the UART, each if the whole access lies in its window.
-/

namespace Baonix.Core

open Baonix.LittleEndian
open PageCache (Width)

structure Bus (B S : Type) where
  cache : PageCache B
  clint : Clint
  uart : Uart S

namespace Bus

def clintBase : BitVec 64 := 0x02000000
def clintSize : BitVec 64 := 0x00010000
def uartBase : BitVec 64 := 0x10000000
def uartSize : BitVec 64 := 0x100

/-- `addr.saturating_add(size)`. -/
def saturatingAdd (addr : BitVec 64) (size : ℕ) : ℕ := min (addr.toNat + size) (2 ^ 64 - 1)

/-- The whole access lies in `[base, base + length)`. -/
def inWindow (base length : ℕ) (addr : BitVec 64) (size : ℕ) : Bool :=
  base ≤ addr.toNat ∧ saturatingAdd addr size ≤ base + length

def inRam (addr : BitVec 64) (size : ℕ) : Bool := inWindow ramBase ramSize addr size

def isClint (addr : BitVec 64) (size : ℕ) : Bool :=
  inWindow clintBase.toNat clintSize.toNat addr size

def isUart (addr : BitVec 64) (size : ℕ) : Bool :=
  inWindow uartBase.toNat uartSize.toNat addr size

/-- `matches!(size, 1 | 2 | 4 | 8)`. -/
def widthOf : ℕ → Option Width
  | 1 => some ⟨1, by norm_num⟩
  | 2 => some ⟨2, by norm_num⟩
  | 4 => some ⟨4, by norm_num⟩
  | 8 => some ⟨8, by norm_num⟩
  | _ => none

variable {B S : Type} [MemBacking B]

/-- A call of the page cache; its failure is the emulator's, not the guest's. -/
def onCache {Value : Type} (addr : BitVec 64) (program : CacheM B Value) :
    Exec Exception (Bus B S) Value :=
  Exec.zoom (·.cache) (fun bus cache => { bus with cache := cache })
    (fun _ => .backingFailure addr) program

def load (addr : BitVec 64) (size : ℕ) : Exec Exception (Bus B S) (BitVec 64) :=
  match widthOf size with
  | none => Exec.raise (.loadAccessFault addr)
  | some width =>
      if inRam addr size then onCache addr (PageCache.readLe width addr.toNat)
      else if isClint addr size then do
        pure ((← Exec.read).clint.load (addr - clintBase))
      else if isUart addr size then
        Exec.call (·.uart) (fun bus uart => { bus with uart := uart })
          (fun uart => uart.load (addr - uartBase))
      else Exec.raise (.loadAccessFault addr)

def store [ConsoleSink S] (addr : BitVec 64) (size : ℕ) (value : BitVec 64) :
    Exec Exception (Bus B S) PUnit :=
  match widthOf size with
  | none => Exec.raise (.storeAccessFault addr)
  | some width =>
      if inRam addr size then onCache addr (PageCache.writeLe width addr.toNat value)
      else if isClint addr size then
        Exec.update fun bus => { bus with clint := bus.clint.store (addr - clintBase) value }
      else if isUart addr size then
        Exec.update fun bus => { bus with uart := bus.uart.store (addr - uartBase) value }
      else Exec.raise (.storeAccessFault addr)

end Bus

end Baonix.Core

import Baonix.Core.Bus
import Baonix.Lib.Checked

/-!
# The ELF loader

The segments of a 64-bit RISC-V object go to their physical addresses.  The
offsets and sizes come from the file and are trusted as far as the source trusts
them, so that sums of them may overflow.
-/

namespace Baonix.Host.Elf

open Baonix.Core Baonix.LittleEndian
open Exec (addU64)

inductive Error
  | notAnElf64Riscv
  | truncated
  | unmapped (addr : BitVec 64)
  deriving DecidableEq

def ehdrLen : ℕ := 64
def phdrLen : ℕ := 56

/-- `\x7fELF`. -/
def magic : List Byte := [0x7F, 0x45, 0x4C, 0x46]

section Readers

variable {Err State : Type}

/-- `b.get(off..off + n)`. -/
def bytesAt (bytes : List Byte) (off n : ℕ) : Exec Err State (Option (List Byte)) := do
  let last ← addU64 off n
  pure (if last ≤ bytes.length then some ((bytes.drop off).take n) else none)

/-- `u16_at`, `u32_at` and `u64_at`: a number of `n` bytes. -/
def numberAt (n : ℕ) (bytes : List Byte) (off : ℕ) : Exec Err State (Option ℕ) := do
  pure ((← bytesAt bytes off n).map ofBytes)

def u16At (bytes : List Byte) (off : ℕ) : Exec Err State (Option ℕ) := numberAt 2 bytes off
def u32At (bytes : List Byte) (off : ℕ) : Exec Err State (Option ℕ) := numberAt 4 bytes off
def u64At (bytes : List Byte) (off : ℕ) : Exec Err State (Option ℕ) := numberAt 8 bytes off

end Readers

variable {State : Type}

/-- `.ok_or(Error::Truncated)?`. -/
def present {Value : Type} : Option Value → Exec Error State Value
  | some value => pure value
  | none => Exec.raise .truncated

/-- `Header`, without the section table. -/
structure Header where
  entry : ℕ
  phoff : ℕ
  phentsize : ℕ
  phnum : ℕ

/-- The file is a little-endian 64-bit RISC-V object. -/
def recognized (bytes : List Byte) : Prop :=
  ehdrLen ≤ bytes.length ∧ bytes.take 4 = magic ∧ bytes[4]? = some 2 ∧ bytes[5]? = some 1 ∧
    ofBytes ((bytes.drop 18).take 2) = 243

instance (bytes : List Byte) : Decidable (recognized bytes) :=
  inferInstanceAs (Decidable (_ ∧ _))

def header (bytes : List Byte) : Exec Error State Header := do
  if ¬ recognized bytes then Exec.raise .notAnElf64Riscv
  else do
    let entry ← present (← u64At bytes 24)
    let phoff ← present (← u64At bytes 32)
    let phentsize ← present (← u16At bytes 54)
    let phnum ← present (← u16At bytes 56)
    pure ⟨entry, phoff, phentsize, phnum⟩

/-- The header, if its program headers are long enough. -/
def programHeader (bytes : List Byte) : Exec Error State Header := do
  let h ← header bytes
  if h.phnum ≠ 0 ∧ h.phentsize < phdrLen then Exec.raise .truncated else pure h

/-- The offset of the `i`-th program header, if it is a `PT_LOAD`. -/
def loadSegment (bytes : List Byte) (h : Header) (i : ℕ) : Exec Error State (Option ℕ) := do
  let base ← addU64 h.phoff (i * h.phentsize)
  let kind ← present (← u32At bytes base)
  pure (if kind = 1 then some base else none)

/-- A field of a program header. -/
def fieldAt (bytes : List Byte) (base off : ℕ) : Exec Error State ℕ := do
  present (← u64At bytes (← addU64 base off))

/-- The highest end of the segments from `is` on, `last` being that of the others. -/
def extentOver (bytes : List Byte) (h : Header) : List ℕ → ℕ → Exec Error State ℕ
  | [], last => pure last
  | i :: is, last => do
      match ← loadSegment bytes h i with
      | none => extentOver bytes h is last
      | some base => do
          let paddr ← fieldAt bytes base 24
          let memsz ← fieldAt bytes base 40
          extentOver bytes h is (max last (min (paddr + memsz) (2 ^ 64 - 1)))

def extent (bytes : List Byte) : Exec Error State ℕ := do
  let h ← programHeader bytes
  extentOver bytes h (List.range h.phnum) 0

variable {B S : Type} [MemBacking B] [ConsoleSink S]

/-- A store of the loader. -/
def storeAt (addr : BitVec 64) (size : ℕ) (value : BitVec 64) : Exec Error (Bus B S) PUnit :=
  Exec.zoom id (fun _ after => after) (fun _ => .unmapped addr) (Bus.store addr size value)

/-- The loop of `write_segment` over the bytes that are left, the zeros at the end
included. -/
def writeBytes (addr : BitVec 64) (bytes : List Byte) : Exec Error (Bus B S) PUnit :=
  if _hdone : bytes = [] then pure ()
  else if addr.toNat % 8 = 0 ∧ 8 ≤ bytes.length then do
    storeAt addr 8 (BitVec.ofNat 64 (ofBytes (bytes.take 8)))
    writeBytes (addr + 8) (bytes.drop 8)
  else do
    storeAt addr 1 ((bytes.headD 0).setWidth 64)
    writeBytes (addr + 1) bytes.tail
termination_by bytes.length
decreasing_by
  · have _hpos := List.length_pos_iff.mpr _hdone
    rw [List.length_drop]
    omega
  · have _hpos := List.length_pos_iff.mpr _hdone
    rw [List.length_tail]
    omega

def writeSegment (addr : BitVec 64) (data : List Byte) (memsz : ℕ) :
    Exec Error (Bus B S) PUnit :=
  writeBytes addr (data ++ List.replicate (memsz - data.length) 0)

/-- The body of the loop of `load`. -/
def loadOne (bytes : List Byte) (h : Header) (i : ℕ) : Exec Error (Bus B S) PUnit := do
  match ← loadSegment bytes h i with
  | none => pure ()
  | some base => do
      let offset ← fieldAt bytes base 8
      let paddr ← fieldAt bytes base 24
      let filesz ← fieldAt bytes base 32
      let memsz ← fieldAt bytes base 40
      let last ← present (Exec.checkedAdd offset filesz)
      let data ← present (if last ≤ bytes.length then some ((bytes.drop offset).take filesz) else none)
      writeSegment (BitVec.ofNat 64 paddr) data memsz

def load (bytes : List Byte) : Exec Error (Bus B S) ℕ := do
  let h ← programHeader bytes
  Exec.each (loadOne bytes h) (List.range h.phnum)
  pure h.entry

end Baonix.Host.Elf

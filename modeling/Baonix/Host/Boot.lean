import Baonix.Host.Elf
import Baonix.Host.Run

/-!
# Placing the boot images

The kernel goes to its load address, the device tree above the memory the kernel
declares, the initial ramdisk on a page of its own above that.
-/

namespace Baonix.Host

open Baonix.Core Baonix.LittleEndian
open Exec (addU64 checkedAdd nextMultipleOf)
open Proto (pageSize)

/-! ## The boot header -/

def riscvImageHeaderLen : ℕ := 64

/-- `RSC\x05`. -/
def riscvImageMagic2 : List Byte := [0x52, 0x53, 0x43, 0x05]

def hasRiscvImageHeader (bytes : List Byte) : Prop :=
  riscvImageHeaderLen ≤ bytes.length ∧ (bytes.drop 56).take 4 = riscvImageMagic2

instance (bytes : List Byte) : Decidable (hasRiscvImageHeader bytes) :=
  inferInstanceAs (Decidable (_ ∧ _))

/-- The field `image_size`. -/
def imageSize (bytes : List Byte) : ℕ := ofBytes ((bytes.drop 16).take 8)

/-- The field `text_offset`. -/
def textOffset (bytes : List Byte) : ℕ := ofBytes ((bytes.drop 8).take 8)

/-- The memory the kernel declares, unless that is less than the file. -/
def riscvImageFootprint (bytes : List Byte) : Option ℕ :=
  if ¬ hasRiscvImageHeader bytes then none
  else if bytes.length ≤ imageSize bytes then some (imageSize bytes) else none

def riscvImageTextOffset (bytes : List Byte) : Option ℕ :=
  if hasRiscvImageHeader bytes then some (textOffset bytes) else none

/-! ## Loading the kernel -/

variable {B S : Type} [MemBacking B] [ConsoleSink S]

/-- The loop of `write_blob` over the bytes that are left. -/
def writeBlob (addr : ℕ) (data : List Byte) : Exec Exception (Bus B S) PUnit :=
  if _hdone : data = [] then pure ()
  else do
    let a ← Exec.fits addr
    if a % 8 = 0 ∧ 8 ≤ data.length then do
      Bus.store (BitVec.ofNat 64 a) 8 (BitVec.ofNat 64 (ofBytes (data.take 8)))
      writeBlob (addr + 8) (data.drop 8)
    else do
      Bus.store (BitVec.ofNat 64 a) 1 ((data.headD 0).setWidth 64)
      writeBlob (addr + 1) data.tail
termination_by data.length
decreasing_by
  · have _hpos := List.length_pos_iff.mpr _hdone
    rw [List.length_drop]
    omega
  · have _hpos := List.length_pos_iff.mpr _hdone
    rw [List.length_tail]
    omega

/-- Why a kernel was refused. -/
inductive KernelError
  | elf (err : Elf.Error)
  | textOffset (want : ℕ)
  | doesNotFit (length : ℕ) (err : Exception)
  | imageSize (length span : ℕ)

/-- The memory a raw image occupies. -/
def span (bytes : List Byte) : ℕ := (riscvImageFootprint bytes).getD bytes.length

/-- The raw image of `load_kernel`, its offset accepted. -/
def placeImage (bytes : List Byte) : Exec KernelError (Bus B S) ℕ := do
  Exec.zoom id (fun _ after => after) (.doesNotFit bytes.length)
    (writeBlob kernelLoadAddr.toNat bytes)
  match checkedAdd kernelLoadAddr.toNat (span bytes) with
  | some kernelEnd => pure kernelEnd
  | none => Exec.raise (.imageSize bytes.length (span bytes))

/-- The offset of the load address in RAM, which an image must be linked for. -/
def loadOffset : ℕ := kernelLoadAddr.toNat - ramBase

/-- `load_kernel`: the address past the memory the kernel occupies. -/
def loadKernel (bytes : List Byte) : Exec KernelError (Bus B S) ℕ :=
  if Elf.magic <+: bytes then do
    let _ ← Exec.zoom id (fun _ after => after) .elf (Elf.load bytes)
    Exec.zoom id (fun _ after => after) .elf (Elf.extent bytes)
  else
    match riscvImageTextOffset bytes with
    | some want =>
        if want ≠ loadOffset then Exec.raise (.textOffset want) else placeImage bytes
    | none => placeImage bytes

/-! ## The layout -/

structure BootLayout where
  dtb : ℕ
  initrd : Option (ℕ × ℕ)
  deriving DecidableEq

/-- The images do not fit in RAM: what the message says. -/
structure LayoutError where
  kernelEnd : ℕ
  dtb : ℕ
  dtbLen : ℕ
  initrd : Option (ℕ × ℕ)
  top : ℕ
  deriving DecidableEq

def ramEnd : ℕ := ramBase + ramSize

variable {State : Type}

/-- Where the initial ramdisk goes. -/
def placeInitrd (dtbEnd : ℕ) : Option ℕ → Exec LayoutError State (Option (ℕ × ℕ))
  | none => pure none
  | some len => do
      let start ← nextMultipleOf dtbEnd pageSize
      let last ← addU64 start len
      pure (some (start, last))

def bootLayout (kernelEnd dtbLen : ℕ) (initrdLen : Option ℕ) :
    Exec LayoutError State BootLayout := do
  let dtb ← nextMultipleOf kernelEnd 8
  let dtbEnd ← addU64 dtb dtbLen
  let initrd ← placeInitrd dtbEnd initrdLen
  let top := (initrd.map Prod.snd).getD dtbEnd
  if top > ramEnd then Exec.raise ⟨kernelEnd, dtb, dtbLen, initrd, top⟩
  else pure ⟨dtb, initrd⟩

end Baonix.Host

import Baonix.Core.AccessSpecs
import Baonix.Host.Boot

/-!
# What writing a blob does

`write_blob` stores words where the alignment allows and bytes elsewhere.  In RAM
this is one write of the whole blob, whatever the alignment.
-/

namespace Baonix.Host

open Baonix.Core Baonix.LittleEndian
open Exec (checkedAdd)
open PageCache (Holds)

variable {B S : Type} [FlatBacking B] [ConsoleSink S]

/-- An address above a window is not in it. -/
theorem not_inWindow {base length : ℕ} (hbelow : base + length < ramBase) {addr : BitVec 64}
    (hbase : ramBase ≤ addr.toNat) {size : ℕ} : ¬ Bus.inWindow base length addr size := by
  have hwidth := addr.isLt
  rw [Bus.inWindow, decide_eq_true_iff, Bus.saturatingAdd]
  omega

/-- The windows of the devices end below RAM. -/
theorem inRam_of_served {addr : BitVec 64} {size : ℕ} (hbase : ramBase ≤ addr.toNat)
    (hserved : Bus.Served addr size) : Bus.inRam addr size := by
  rcases hserved.2 with hram | hclint | huart
  · exact hram
  · exact absurd hclint (not_inWindow (by decide) hbase)
  · exact absurd huart (not_inWindow (by decide) hbase)

/-- A store above the devices is a store into RAM. -/
theorem storeRam_spec {m : Memory} {bus : Bus B S} (hbus : Holds m bus.cache)
    {addr : BitVec 64} (hbase : ramBase ≤ addr.toNat) {size : ℕ}
    (hsize : (Bus.widthOf size).isSome) (value : BitVec 64) :
    Exec.wp (Bus.store addr size value)
      (fun _ after => Holds (m.write addr.toNat (Bus.bytesOf size value)) after.cache ∧
        InRam addr.toNat size)
      (fun _ _ => Fallible B ∨ ¬ InRam addr.toNat size) False bus := by
  apply (Bus.store_spec hbus addr size value).imp
  · rintro _ after ⟨hholds, hserved⟩
    have hram := inRam_of_served hbase hserved
    rw [Bus.stored, if_pos hram] at hholds
    exact ⟨hholds, Bus.inRam_iff.mp hram⟩
  · rintro err after (⟨-, hserved, -⟩ | ⟨-, -, hfallible, -⟩)
    · exact .inr fun hram => hserved ⟨hsize, .inl (Bus.inRam_iff.mpr hram)⟩
    · exact .inl hfallible
  · exact fun hfalse => hfalse

theorem bytesOf_word {bytes : List Byte} (hlength : bytes.length = 8) :
    Bus.bytesOf 8 (BitVec.ofNat 64 (ofBytes bytes)) = bytes := by
  rw [Bus.bytesOf, toBytes_ofNat_ofBytes hlength le_rfl, List.take_of_length_le hlength.le]

theorem bytesOf_byte (byte : Byte) : Bus.bytesOf 1 (byte.setWidth 64) = [byte] := by
  rw [Bus.bytesOf, toBytes, List.take_succ_cons, List.take_zero, BitVec.toNat_setWidth,
    Nat.mod_eq_of_lt (by have := byte.isLt; omega), BitVec.ofNat_toNat, BitVec.setWidth_eq]

/-- **`write_blob`** from an address in RAM writes the blob, if the blob ends in
RAM and the backing does not fail. -/
theorem writeBlob_spec {m : Memory} {bus : Bus B S} (hbus : Holds m bus.cache) {addr : ℕ}
    (hbase : ramBase ≤ addr) (htop : addr ≤ ramEnd) (data : List Byte) :
    Exec.wp (writeBlob addr data)
      (fun _ after => Holds (m.write addr data) after.cache ∧ addr + data.length ≤ ramEnd)
      (fun _ _ => Fallible B ∨ ramEnd < addr + data.length) False bus := by
  induction hleft : data.length using Nat.strong_induction_on generalizing m bus addr data with
  | _ left ih =>
  rw [writeBlob]
  by_cases hdone : data = []
  · subst hdone hleft
    rw [dif_pos rfl, Memory.write_nil]
    exact ⟨hbus, htop⟩
  have hpos := List.length_pos_iff.mpr hdone
  have hfits : addr < 2 ^ 64 := by
    simp only [ramEnd, ramBase, ramSize] at htop
    omega
  have haddr : (BitVec.ofNat 64 addr).toNat = addr := by
    rw [BitVec.toNat_ofNat, Nat.mod_eq_of_lt hfits]
  rw [dif_neg hdone, Exec.wp_bind, Exec.wp_fits]
  refine ⟨fun _ => ?_, fun hover => absurd hfits hover.not_gt⟩
  -- After the piece is stored the rest of the blob starts behind it.
  have hpiece (size : ℕ) (hwidth : (Bus.widthOf size).isSome) (hsize : 0 < size)
      (value : BitVec 64) (hbytes : Bus.bytesOf size value = data.take size)
      (hle : size ≤ data.length) :
      Exec.wp (do
          Bus.store (BitVec.ofNat 64 addr) size value
          writeBlob (addr + size) (data.drop size))
        (fun _ after => Holds (m.write addr data) after.cache ∧ addr + left ≤ ramEnd)
        (fun _ _ => Fallible B ∨ ramEnd < addr + left) False bus := by
    have hlength : (data.take size).length = size := by rw [List.length_take, min_eq_left hle]
    have hrest : (data.drop size).length = left - size := by rw [List.length_drop, hleft]
    rw [Exec.wp_bind]
    apply (storeRam_spec hbus (haddr.symm ▸ hbase) hwidth value).imp
    · rintro _ middle ⟨hholds, -, hend⟩
      rw [haddr, hbytes] at hholds
      rw [haddr] at hend
      apply (ih (left - size) (by omega) hholds (by omega) hend (data.drop size) hrest).imp
      · rintro _ after ⟨hafter, hbound⟩
        refine ⟨?_, by omega⟩
        have hwrite := Memory.write_append m addr (data.take size) (data.drop size)
        rw [List.take_append_drop, hlength] at hwrite
        rw [hwrite]
        exact hafter
      · exact fun _ _ => Or.imp_right fun hover => by omega
      · exact fun hfalse => hfalse
    · rintro _ _ (hfallible | hover)
      · exact .inl hfallible
      · rw [haddr, InRam] at hover
        rw [ramEnd]
        right
        omega
    · exact fun hfalse => hfalse
  rw [Exec.wp_ite]
  by_cases hword : addr % 8 = 0 ∧ 8 ≤ data.length
  · rw [if_pos hword]
    apply hpiece 8 rfl (by norm_num) _ _ hword.2
    exact bytesOf_word (by rw [List.length_take, min_eq_left hword.2])
  · rw [if_neg hword]
    obtain ⟨byte, rest, hdata⟩ := List.exists_cons_of_ne_nil hdone
    have hbyte := hpiece 1 rfl Nat.one_pos ((data.headD 0).setWidth 64)
      (by rw [bytesOf_byte, hdata]; rfl) hpos
    rwa [List.drop_one] at hbyte

/-- Why a raw image was refused. -/
def ImageRefused (B : Type) [MemBacking B] (bytes : List Byte) : Prop :=
  Fallible B ∨ ramEnd < kernelLoadAddr.toNat + bytes.length ∨
    hasRiscvImageHeader bytes ∧ textOffset bytes ≠ loadOffset ∨
    2 ^ 64 ≤ kernelLoadAddr.toNat + span bytes

/-- A raw image was loaded, and the memory it declares ends at `kernelEnd`. -/
structure ImageLoaded (m : Memory) (bytes : List Byte) (kernelEnd : ℕ) (after : Bus B S) :
    Prop where
  holds : Holds (m.write kernelLoadAddr.toNat bytes) after.cache
  inRam : kernelLoadAddr.toNat + bytes.length ≤ ramEnd
  kernelEnd_eq : kernelEnd = kernelLoadAddr.toNat + span bytes
  fits : kernelEnd < 2 ^ 64

theorem placeImage_spec {m : Memory} {bus : Bus B S} (hbus : Holds m bus.cache)
    (bytes : List Byte) :
    Exec.wp (placeImage bytes) (fun kernelEnd after => ImageLoaded m bytes kernelEnd after)
      (fun _ _ => ImageRefused B bytes) False bus := by
  rw [placeImage, Exec.wp_bind, Exec.wp_zoom]
  apply (writeBlob_spec hbus (by decide) (by decide) bytes).imp
  · rintro _ after ⟨hholds, hram⟩
    rw [checkedAdd]
    by_cases hfits : kernelLoadAddr.toNat + span bytes < 2 ^ 64
    · rw [if_pos hfits]
      exact ⟨hholds, hram, rfl, hfits⟩
    · rw [if_neg hfits]
      exact .inr (.inr (.inr (not_lt.mp hfits)))
  · rintro _ _ (hfallible | hover)
    · exact .inl hfallible
    · exact .inr (.inl hover)
  · exact fun hfalse => hfalse

/-- **`load_kernel`** writes a raw image at the load address. -/
theorem loadKernel_spec {m : Memory} {bus : Bus B S} (hbus : Holds m bus.cache)
    {bytes : List Byte} (hraw : ¬ Elf.magic <+: bytes) :
    Exec.wp (loadKernel bytes)
      (fun kernelEnd after => ImageLoaded m bytes kernelEnd after ∧
        (hasRiscvImageHeader bytes → textOffset bytes = loadOffset))
      (fun _ _ => ImageRefused B bytes) False bus := by
  have hplace := placeImage_spec hbus bytes
  rw [loadKernel, if_neg hraw, riscvImageTextOffset]
  by_cases hheader : hasRiscvImageHeader bytes
  · rw [if_pos hheader]
    dsimp only
    rw [Exec.wp_ite]
    split
    · exact .inr (.inr (.inl ⟨hheader, ‹_›⟩))
    · exact hplace.imp_post (fun _ _ hloaded => ⟨hloaded, fun _ => not_not.mp ‹_›⟩)
  · rw [if_neg hheader]
    exact hplace.imp_post (fun _ _ hloaded => ⟨hloaded, fun hhas => absurd hhas hheader⟩)

end Baonix.Host

import Baonix.Host.Blobs
import Baonix.Host.ElfPlacement

/-!
# Blobs and segments, byte for byte

The loops of `write_blob` and `write_segment` as the source counts them: by an offset
from the start, the byte at an offset behind the data being zero.  Where the range is in
RAM they leave the bytes given and no other change, however the words and the bytes of
the loop fall.
-/

namespace Baonix.Host

open Baonix.Core Baonix.LittleEndian
open Exec (addU64)
open Elf (storeAt)
open PageCache (Holds)

/-! ## The loops, by offset -/

/-- `byte_of`. -/
def byteOf (data : List Byte) (i : ℕ) : Byte := data[i]?.getD 0

section Loops

variable {B S : Type} [MemBacking B] [ConsoleSink S]

/-- The loop of `write_blob` from `off` on. -/
def writeBlobFrom (addr : ℕ) (data : List Byte) (off : ℕ) : Exec Exception (Bus B S) PUnit :=
  if _hleft : off < data.length then do
    let a ← addU64 addr off
    if a % 8 = 0 ∧ 8 ≤ data.length - off then do
      Bus.store (BitVec.ofNat 64 a) 8 (BitVec.ofNat 64 (ofBytes ((data.drop off).take 8)))
      writeBlobFrom addr data (off + 8)
    else do
      Bus.store (BitVec.ofNat 64 a) 1 ((byteOf data off).setWidth 64)
      writeBlobFrom addr data (off + 1)
  else pure ()
termination_by data.length - off

/-- The loop of `write_segment` from `off` on. -/
def writeSegmentFrom (addr : BitVec 64) (data : List Byte) (total off : ℕ) :
    Exec Elf.Error (Bus B S) PUnit :=
  if _hleft : off < total then
    let a := addr + BitVec.ofNat 64 off
    if a.toNat % 8 = 0 ∧ 8 ≤ total - off then do
      let w := (List.range 8).map fun i => byteOf data (off + i)
      storeAt a 8 (BitVec.ofNat 64 (ofBytes w))
      writeSegmentFrom addr data total (off + 8)
    else do
      storeAt a 1 ((byteOf data off).setWidth 64)
      writeSegmentFrom addr data total (off + 1)
  else pure ()
termination_by total - off

theorem headD_drop {data : List Byte} {off : ℕ} (hleft : off < data.length) :
    (data.drop off).headD 0 = byteOf data off := by
  rw [byteOf, List.drop_eq_getElem_cons hleft, List.getElem?_eq_getElem hleft]
  rfl

/-- Counting by offset or by what is left is the same, for a blob -/
theorem writeBlobFrom_eq (addr : ℕ) (data : List Byte) (off : ℕ) :
    (writeBlobFrom addr data off : Exec Exception (Bus B S) PUnit) =
      writeBlob (addr + off) (data.drop off) := by
  induction hcount : data.length - off using Nat.strong_induction_on generalizing off with
  | _ count ih =>
  by_cases hleft : off < data.length
  · have hsome : data.drop off ≠ [] := by
      rw [ne_eq, List.drop_eq_nil_iff]
      omega
    rw [writeBlobFrom, dif_pos hleft, writeBlob, dif_neg hsome, addU64, List.length_drop,
      headD_drop hleft, List.tail_drop, List.drop_drop, Nat.add_assoc, Nat.add_assoc,
      ih _ (by omega) (off + 8) rfl, ih _ (by omega) (off + 1) rfl]
  · rw [writeBlobFrom, dif_neg hleft, List.drop_eq_nil_iff.mpr (not_lt.mp hleft), writeBlob,
      dif_pos rfl]

/-- The bytes of a segment: those of the data, and zeros up to the size in memory. -/
def padded (data : List Byte) (memsz : ℕ) : List Byte :=
  data ++ List.replicate (memsz - data.length) 0

theorem length_padded (data : List Byte) (memsz : ℕ) :
    (padded data memsz).length = max memsz data.length := by
  rw [padded, List.length_append, List.length_replicate]
  omega

/-- Behind the data a segment is zero. -/
theorem getElem?_padded {data : List Byte} {memsz i : ℕ} (hi : i < max memsz data.length) :
    (padded data memsz)[i]? = some (byteOf data i) := by
  rw [padded, byteOf]
  by_cases hdata : i < data.length
  · rw [List.getElem?_append_left hdata, List.getElem?_eq_getElem hdata, Option.getD_some]
  · rw [List.getElem?_append_right (not_lt.mp hdata), List.getElem?_replicate, if_pos (by omega),
      List.getElem?_eq_none (not_lt.mp hdata), Option.getD_none]

/-- The word a turn puts together is what the segment has there. -/
theorem word_eq (data : List Byte) (memsz : ℕ) {off : ℕ} (hword : off + 8 ≤ max memsz data.length) :
    ((List.range 8).map fun i => byteOf data (off + i)) =
      ((padded data memsz).drop off).take 8 := by
  apply List.ext_getElem?
  intro i
  by_cases hi : i < 8
  · rw [List.getElem?_map, List.getElem?_range hi, List.getElem?_take, if_pos hi,
      List.getElem?_drop, getElem?_padded (by omega), Option.map_some]
  · rw [List.getElem?_eq_none (by simpa using hi), List.getElem?_take, if_neg hi]

/-- and for a segment, whose data may end inside a word. -/
theorem writeSegmentFrom_eq (addr : BitVec 64) (data : List Byte) (memsz off : ℕ) :
    (writeSegmentFrom addr data (max memsz data.length) off : Exec Elf.Error (Bus B S) PUnit) =
      Elf.writeBytes (addr + BitVec.ofNat 64 off) ((padded data memsz).drop off) := by
  induction hcount : max memsz data.length - off using Nat.strong_induction_on generalizing off with
  | _ count ih =>
  by_cases hleft : off < max memsz data.length
  · have hlength := length_padded data memsz
    have hsome : (padded data memsz).drop off ≠ [] := by
      rw [ne_eq, List.drop_eq_nil_iff]
      omega
    have hbyte : ((padded data memsz).drop off).headD 0 = byteOf data off := by
      rw [List.headD_eq_head?_getD, List.head?_drop, getElem?_padded hleft, Option.getD_some]
    have hnext (n : ℕ) : addr + BitVec.ofNat 64 off + BitVec.ofNat 64 n =
        addr + BitVec.ofNat 64 (off + n) := by
      rw [BitVec.add_assoc, BitVec.ofNat_add]
    rw [writeSegmentFrom, dif_pos hleft, Elf.writeBytes, dif_neg hsome, List.length_drop, hlength,
      hbyte, List.tail_drop, List.drop_drop]
    dsimp only
    by_cases hword : (addr + BitVec.ofNat 64 off).toNat % 8 = 0 ∧ 8 ≤ max memsz data.length - off
    · rw [if_pos hword, if_pos hword, word_eq data memsz (by omega), ih _ (by omega) (off + 8) rfl, ← hnext]
      rfl
    · rw [if_neg hword, if_neg hword, ih _ (by omega) (off + 1) rfl, ← hnext]
      rfl
  · rw [writeSegmentFrom, dif_neg hleft, Elf.writeBytes, dif_pos]
    rw [List.drop_eq_nil_iff, length_padded]
    omega

end Loops

/-! ## The bytes -/

/-- The bytes are there, and every other byte is as it was. -/
structure ByteExact (before after : Memory) (addr : ℕ) (bytes : List Byte) : Prop where
  written : ∀ (i : ℕ) (byte : Byte), bytes[i]? = some byte → after (addr + i) = byte
  untouched : ∀ place, place < addr ∨ addr + bytes.length ≤ place → after place = before place

theorem byteExact_write (m : Memory) (addr : ℕ) (bytes : List Byte) :
    ByteExact m (m.write addr bytes) addr bytes where
  written := by
    intro i byte hbyte
    rw [Memory.write, if_pos (Nat.le_add_right ..), Nat.add_sub_cancel_left, hbyte,
      Option.getD_some]
  untouched := fun _ houtside => m.write_of_outside houtside

variable {B S : Type} [FlatBacking B] [ConsoleSink S]

/-- **Blobs and segments are written byte for byte**: where the range is in RAM and the
backing does not fail, both loops end, and leave exactly the bytes given, those of a
segment followed by zeros up to its size in memory, and every other byte as it was. -/
theorem writes_byteExact (hbacking : ¬ Fallible B) {m : Memory} {bus : Bus B S}
    (hbus : Holds m bus.cache) (addr : BitVec 64) (data : List Byte) (memsz : ℕ) :
    (InRam addr.toNat data.length → ∃ after left,
      (writeBlobFrom addr.toNat data 0).run bus = .ok ⟨⟩ after ∧ Holds left after.cache ∧
        ByteExact m left addr.toNat data) ∧
    (InRam addr.toNat (max memsz data.length) → ∃ after left,
      (writeSegmentFrom addr data (max memsz data.length) 0).run bus = .ok ⟨⟩ after ∧
        Holds left after.cache ∧ ByteExact m left addr.toNat (padded data memsz)) := by
  constructor
  · intro hram
    have hrange := hram
    rw [InRam] at hrange
    have hspec := writeBlob_spec hbus hrange.1 (by rw [ramEnd]; omega) data
    rw [writeBlobFrom_eq, Nat.add_zero, List.drop_zero]
    obtain ⟨⟨⟩, after, hrun, hholds, -⟩ :=
      (hspec.imp (fun _ _ hpost => hpost) (fun _ _ hfails => by
        rcases hfails with hfallible | hover
        · exact hbacking hfallible
        · rw [ramEnd] at hover
          omega) fun hfalse => hfalse).exists_ok
    exact ⟨after, _, hrun, hholds, byteExact_write m addr.toNat data⟩
  · intro hram
    rw [← length_padded] at hram
    have hrange := hram
    rw [InRam] at hrange
    have hclear : Elf.Clear addr.toNat (padded data memsz).length := by
      intro place hfrom hto
      exact Elf.not_deviceByte ⟨by omega, by rw [ramEnd]; omega⟩
    have hspec := Elf.stores_spec hbus addr (padded data memsz) hclear
    rw [writeSegmentFrom_eq, BitVec.add_zero, List.drop_zero, Elf.writeBytes_eq]
    obtain ⟨⟨⟩, after, hrun, hlanded⟩ :=
      (hspec.imp (fun _ _ hpost => hpost)
        (fun _ _ hfails => hfails.elim hbacking fun hover => hover hram)
        fun hfalse => hfalse).exists_ok
    exact ⟨after, _, hrun, hlanded.holds, byteExact_write m addr.toNat _⟩

/-- Three bytes at the last word of RAM but one, with zeros into the last. -/
theorem writes_byteExact_at_end :
    ∃ (after : Bus FakeBacking (List Byte)) (left : Memory),
      (writeSegmentFrom (BitVec.ofNat 64 (ramEnd - 11)) [1, 2, 3] 11 0).run
          (Sv39.busOver fun _ _ => 0) = .ok ⟨⟩ after ∧
        Holds left after.cache ∧ left (ramEnd - 10) = 2 ∧ left (ramEnd - 1) = 0 := by
  have hholds := Sv39.holds_busOver fun _ _ => 0
  obtain ⟨after, left, hrun, hleft, hexact⟩ :=
    (writes_byteExact not_fallible_fakeBacking hholds (BitVec.ofNat 64 (ramEnd - 11)) [1, 2, 3]
      11).2 ⟨by decide, by decide⟩
  exact ⟨after, left, hrun, hleft, hexact.written 1 2 rfl, hexact.written 10 0 rfl⟩

end Baonix.Host

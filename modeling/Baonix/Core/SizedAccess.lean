import Baonix.Core.CacheAccess

/-!
# Sized accesses are general ones

`read_le` and `write_le` handle an access within one page on their own.  They are
the same computations as `read_bytes` and `write_bytes` over the bytes of the
number: the same frames, counters and calls of the backing, whatever fails.
-/

namespace Baonix.Core.PageCache

open Baonix.LittleEndian Baonix.Proto

variable {B : Type} [MemBacking B]

/-- An access within one page is one turn of the loops. -/
theorem chunks_of_fits {addr n : ℕ} (hpos : 0 < n) (hfits : addr % pageSize + n ≤ pageSize) :
    chunks addr n = [(addr, n)] := by
  have hlength : chunkLength addr n = n := by
    rw [chunkLength]
    omega
  rw [chunks, dif_neg hpos.ne', hlength, Nat.sub_self, chunks, dif_pos rfl]

omit [MemBacking B] in
/-- Checking the range again changes nothing. -/
theorem propagate_checkRange_twice {Value : Type} (gpa len : ℕ) (next : CacheM B Value) :
    (do
      propagate (checkRange gpa len)
      propagate (checkRange gpa len)
      next) = (do
      propagate (checkRange gpa len)
      next) := by
  cases checkRange gpa len with
  | ok done => rfl
  | error err => rfl

theorem propagate_checkRange_readSized (N : Width) (gpa : ℕ) :
    (do
      propagate (checkRange gpa N)
      readSized N gpa : CacheM B (List Byte)) = readBytes gpa N := by
  rw [readSized]
  split
  · rw [readBytes, chunks_of_fits N.property.1 ‹_›]
    simp only [readChunks, pure_bind, List.append_nil]
  · rw [readBytes, propagate_checkRange_twice]

/-- **`read_le`** reads the bytes of the number. -/
theorem readLe_eq (N : Width) (gpa : ℕ) :
    (readLe N gpa : CacheM B (BitVec 64)) =
      (fun bytes => BitVec.ofNat 64 (ofBytes bytes)) <$> readBytes gpa N := by
  rw [readLe, ← propagate_checkRange_readSized, map_eq_pure_bind, bind_assoc]

/-- **`write_le`** writes the bytes of the number. -/
theorem writeLe_eq (N : Width) (gpa : ℕ) (value : BitVec 64) :
    (writeLe N gpa value : CacheM B PUnit) = writeBytes gpa (leBytes N value) := by
  have hlength := length_leBytes N value
  rw [writeLe, ← leBytes]
  dsimp only
  split
  · rw [writeBytes, hlength, propagate_checkRange_twice]
  · have htake : (leBytes N value).take N = leBytes N value :=
      List.take_of_length_le hlength.le
    rw [writeBytes, hlength, chunks_of_fits N.property.1 (not_lt.mp ‹_›)]
    simp only [writeChunks, htake, bind_pure_unit]

/-- **Sized accesses agree with general ones**, as computations: from every state of
the cache and the backing they give the same result and leave the same state. -/
theorem sized_accesses_agree (N : Width) (gpa : ℕ) :
    (readLe N gpa : CacheM B (BitVec 64)) =
        (fun bytes => BitVec.ofNat 64 (ofBytes bytes)) <$> readBytes gpa N ∧
      ∀ value, (writeLe N gpa value : CacheM B PUnit) = writeBytes gpa (leBytes N value) :=
  ⟨readLe_eq N gpa, writeLe_eq N gpa⟩

end Baonix.Core.PageCache

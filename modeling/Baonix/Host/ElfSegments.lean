import Baonix.Host.Boot

/-!
# The segments of an object

The loader reads a program header in each turn of its loop.  Where no sum of offsets
leaves 64 bits, it reads what the file says there, and a load is the stores of the
`PT_LOAD` segments, one after the other.
-/

namespace Baonix.Host.Elf

open Baonix.Core Baonix.LittleEndian
open Exec (addU64 checkedAdd)

/-! ## The stores of a segment -/

/-- A store of the loader: a word or a byte. -/
structure Store where
  addr : BitVec 64
  bytes : List Byte

/-- The stores of `write_segment`, one for each turn of its loop. -/
def stores (addr : BitVec 64) (bytes : List Byte) : List Store :=
  if _hdone : bytes = [] then []
  else if addr.toNat % 8 = 0 ∧ 8 ≤ bytes.length then
    ⟨addr, bytes.take 8⟩ :: stores (addr + 8) (bytes.drop 8)
  else ⟨addr, bytes.take 1⟩ :: stores (addr + 1) (bytes.drop 1)
termination_by bytes.length
decreasing_by
  all_goals
    have _hpos := List.length_pos_iff.mpr _hdone
    rw [List.length_drop]
    omega

theorem stores_nil (addr : BitVec 64) : stores addr [] = [] := by
  rw [stores, dif_pos rfl]

/-- **The stores of a segment are** none, or that of a byte or of a word and those of the
rest. -/
theorem stores_induction {motive : BitVec 64 → List Byte → Prop} (nil : ∀ addr, motive addr [])
    (cons : ∀ (addr : BitVec 64) (first rest : List Byte), first.length = 1 ∨ first.length = 8 →
      stores addr (first ++ rest) =
        ⟨addr, first⟩ :: stores (addr + BitVec.ofNat 64 first.length) rest →
      motive (addr + BitVec.ofNat 64 first.length) rest → motive addr (first ++ rest))
    (addr : BitVec 64) (bytes : List Byte) : motive addr bytes := by
  induction hleft : bytes.length using Nat.strong_induction_on generalizing addr bytes with
  | _ left ih =>
  by_cases hdone : bytes = []
  · rw [hdone]
    exact nil addr
  have hpos := List.length_pos_iff.mpr hdone
  have hpiece (size : ℕ) (hsize : size = 1 ∨ size = 8) (hle : size ≤ bytes.length)
      (hstores : stores addr bytes =
        ⟨addr, bytes.take size⟩ :: stores (addr + BitVec.ofNat 64 size) (bytes.drop size)) :
      motive addr bytes := by
    have hlength : (bytes.take size).length = size := by rw [List.length_take, min_eq_left hle]
    have hrest : (bytes.drop size).length = left - size := by rw [List.length_drop, hleft]
    have hbehind := ih (left - size) (by omega) (addr + BitVec.ofNat 64 size) _ hrest
    have hwhole := cons addr (bytes.take size) (bytes.drop size)
    rw [List.take_append_drop, hlength] at hwhole
    exact hwhole hsize hstores hbehind
  by_cases hword : addr.toNat % 8 = 0 ∧ 8 ≤ bytes.length
  · apply hpiece 8 (.inr rfl) hword.2
    rw [stores, dif_neg hdone, if_pos hword]
    rfl
  · apply hpiece 1 (.inl rfl) hpos
    rw [stores, dif_neg hdone, if_neg hword]
    rfl

/-- An address that stays in the address space. -/
theorem toNat_advance {addr : BitVec 64} {n : ℕ} (hfits : addr.toNat + n < 2 ^ 64) :
    (addr + BitVec.ofNat 64 n).toNat = addr.toNat + n := by
  rw [BitVec.toNat_add, BitVec.toNat_ofNat]
  omega

/-- A word at its place is one store. -/
theorem stores_word {addr : BitVec 64} {bytes : List Byte} (haligned : addr.toNat % 8 = 0)
    (hlength : bytes.length = 8) : stores addr bytes = [⟨addr, bytes⟩] := by
  have hsome : bytes ≠ [] := by
    rintro rfl
    cases hlength
  rw [stores, dif_neg hsome, if_pos ⟨haligned, hlength.ge⟩, List.take_of_length_le hlength.le,
    List.drop_of_length_le hlength.le, stores_nil]

/-- Only so many entries of a table begin inside a file. -/
theorem entry_lt {start entsize least i length : ℕ} (hpos : 0 < least) (hleast : least ≤ entsize)
    (hinside : start + i * entsize ≤ length) : i < length / least + 1 := by
  have hmul : i * least ≤ i * entsize := Nat.mul_le_mul_left i hleast
  have hquotient : i ≤ length / least := by
    rw [Nat.le_div_iff_mul_le hpos]
    omega
  omega

/-- A `PT_LOAD` program header. -/
structure Segment where
  offset : ℕ
  paddr : ℕ
  filesz : ℕ
  memsz : ℕ
  deriving DecidableEq

namespace Segment

/-- The bytes the loader takes the segment to have. -/
def size (s : Segment) : ℕ := max s.filesz s.memsz

/-- The bytes in the file, and zeros behind them. -/
def image (bytes : List Byte) (s : Segment) : List Byte :=
  (bytes.drop s.offset).take s.filesz ++ List.replicate (s.memsz - s.filesz) 0

def stores (bytes : List Byte) (s : Segment) : List Store :=
  Elf.stores (BitVec.ofNat 64 s.paddr) (s.image bytes)

theorem length_image {bytes : List Byte} {s : Segment} (hinside : s.offset + s.filesz ≤ bytes.length) :
    (s.image bytes).length = s.size := by
  rw [image, List.length_append, List.length_take, List.length_drop, List.length_replicate, size]
  omega

end Segment

/-! ## The headers of a file -/

/-- A number of `n` bytes. -/
def number (n : ℕ) (bytes : List Byte) (off : ℕ) : ℕ := ofBytes ((bytes.drop off).take n)

def headerOf (bytes : List Byte) : Header :=
  ⟨number 8 bytes 24, number 8 bytes 32, number 2 bytes 54, number 2 bytes 56⟩

/-- Where the `i`-th program header is. -/
def baseOf (bytes : List Byte) (i : ℕ) : ℕ :=
  (headerOf bytes).phoff + i * (headerOf bytes).phentsize

/-- The `i`-th program header, if it is a `PT_LOAD`. -/
def segmentOf (bytes : List Byte) (i : ℕ) : Option Segment :=
  if number 4 bytes (baseOf bytes i) = 1 then
    some ⟨number 8 bytes (baseOf bytes i + 8), number 8 bytes (baseOf bytes i + 24),
      number 8 bytes (baseOf bytes i + 32), number 8 bytes (baseOf bytes i + 40)⟩
  else none

def segmentsOf (bytes : List Byte) (is : List ℕ) : List Segment := is.filterMap (segmentOf bytes)

/-- The `PT_LOAD` segments, in the order of the program headers. -/
def segments (bytes : List Byte) : List Segment :=
  segmentsOf bytes (List.range (headerOf bytes).phnum)

/-- The stores of a load. -/
def loadStores (bytes : List Byte) : List Store := (segments bytes).flatMap (Segment.stores bytes)

/-- A program header that is inside the file, and its segment too. -/
structure ReadableAt (bytes : List Byte) (i : ℕ) : Prop where
  kind : baseOf bytes i + 4 ≤ bytes.length
  fields : ∀ s ∈ segmentOf bytes i, baseOf bytes i + 48 ≤ bytes.length
  data : ∀ s ∈ segmentOf bytes i, s.offset + s.filesz ≤ bytes.length

theorem number_lt {n : ℕ} (bytes : List Byte) (off : ℕ) : number n bytes off < 256 ^ n := by
  refine (ofBytes_lt _).trans_le (Nat.pow_le_pow_right (by norm_num) ?_)
  exact List.length_take_le ..

/-! ## Reading -/

section Reading

variable {Err State : Type} {bytes : List Byte}

theorem addU64_eq {first second : ℕ} (hfits : first + second < 2 ^ 64) :
    (addU64 first second : Exec Err State ℕ) = pure (first + second) := by
  rw [addU64, Exec.fits, if_pos hfits]

theorem numberAt_eq {n off : ℕ} (hfits : off + n < 2 ^ 64) :
    (numberAt n bytes off : Exec Err State (Option ℕ)) =
      pure (if off + n ≤ bytes.length then some (number n bytes off) else none) := by
  rw [numberAt, bytesAt, addU64_eq hfits, pure_bind, pure_bind]
  split <;> rfl

theorem fieldAt_eq {base off : ℕ} (hfits : base + off + 8 < 2 ^ 64) :
    (fieldAt bytes base off : Exec Error State ℕ) =
      if base + off + 8 ≤ bytes.length then pure (number 8 bytes (base + off))
      else Exec.raise .truncated := by
  rw [fieldAt, addU64_eq (by omega), pure_bind, u64At, numberAt_eq hfits, pure_bind]
  split <;> rfl

theorem header_eq : (header bytes : Exec Error State Header) =
    if recognized bytes then pure (headerOf bytes) else Exec.raise .notAnElf64Riscv := by
  rw [header]
  by_cases hrecognized : recognized bytes
  · have hlength : 64 ≤ bytes.length := hrecognized.1
    rw [if_neg (not_not.mpr hrecognized), if_pos hrecognized]
    simp only [u64At, u16At]
    rw [numberAt_eq (by norm_num), numberAt_eq (by norm_num), numberAt_eq (by norm_num),
      numberAt_eq (by norm_num), if_pos (by omega), if_pos (by omega), if_pos (by omega),
      if_pos (by omega)]
    rfl
  · rw [if_pos hrecognized, if_neg hrecognized]

/-- The loader goes on behind the header. -/
def Accepted (bytes : List Byte) : Prop :=
  recognized bytes ∧ ((headerOf bytes).phnum = 0 ∨ phdrLen ≤ (headerOf bytes).phentsize)

instance (bytes : List Byte) : Decidable (Accepted bytes) := inferInstanceAs (Decidable (_ ∧ _))

theorem programHeader_eq (haccepted : Accepted bytes) :
    (programHeader bytes : Exec Error State Header) = pure (headerOf bytes) := by
  have hlong : ¬ ((headerOf bytes).phnum ≠ 0 ∧ (headerOf bytes).phentsize < phdrLen) := by
    have hor := haccepted.2
    omega
  rw [programHeader, header_eq, if_pos haccepted.1, pure_bind, if_neg hlong]

theorem programHeader_refuses (haccepted : ¬ Accepted bytes) (state : State) :
    Exec.wp (programHeader bytes : Exec Error State Header) (fun _ _ => False) (fun _ _ => True)
      False state := by
  rw [programHeader, header_eq]
  by_cases hrecognized : recognized bytes
  · have hshort : (headerOf bytes).phnum ≠ 0 ∧ (headerOf bytes).phentsize < phdrLen := by
      rw [Accepted, not_and_or, not_or, not_le] at haccepted
      exact haccepted.resolve_left (not_not.mpr hrecognized)
    rw [if_pos hrecognized, pure_bind, if_pos hshort]
    trivial
  · rw [if_neg hrecognized]
    trivial

theorem loadSegment_eq {i : ℕ} (hfits : baseOf bytes i + 4 < 2 ^ 64) :
    (loadSegment bytes (headerOf bytes) i : Exec Error State (Option ℕ)) =
      if baseOf bytes i + 4 ≤ bytes.length then
        pure (if number 4 bytes (baseOf bytes i) = 1 then some (baseOf bytes i) else none)
      else Exec.raise .truncated := by
  rw [baseOf] at hfits
  rw [loadSegment, addU64_eq (by omega), pure_bind, u32At, numberAt_eq hfits, pure_bind]
  change (present (if baseOf bytes i + 4 ≤ bytes.length then _ else none) >>= _) = _
  split <;> rfl

/-- A header out of the address space. -/
theorem loadSegment_panic {i : ℕ} (hover : 2 ^ 64 ≤ baseOf bytes i + 4) (state : State) :
    (loadSegment bytes (headerOf bytes) i : Exec Error State (Option ℕ)).run state = .panic := by
  rw [loadSegment, addU64, Exec.fits]
  change 2 ^ 64 ≤ (headerOf bytes).phoff + i * (headerOf bytes).phentsize + 4 at hover
  by_cases hbase : (headerOf bytes).phoff + i * (headerOf bytes).phentsize < 2 ^ 64
  · rw [if_pos hbase, pure_bind, u32At, numberAt, bytesAt, addU64, Exec.fits, if_neg (by omega)]
    rfl
  · rw [if_neg hbase]
    rfl

end Reading

/-! ## Loading -/

variable {B S : Type} [MemBacking B] [ConsoleSink S] {bytes : List Byte}

/-- Puts a store on the bus. -/
def issue (store : Store) : Exec Error (Bus B S) PUnit :=
  storeAt store.addr store.bytes.length (BitVec.ofNat 64 (ofBytes store.bytes))

theorem writeBytes_eq (addr : BitVec 64) (bytes : List Byte) :
    (writeBytes addr bytes : Exec Error (Bus B S) PUnit) = Exec.each issue (stores addr bytes) := by
  induction hleft : bytes.length using Nat.strong_induction_on generalizing addr bytes with
  | _ left ih =>
  rw [writeBytes, stores]
  by_cases hdone : bytes = []
  · rw [dif_pos hdone, dif_pos hdone]
    rfl
  have hpos := List.length_pos_iff.mpr hdone
  rw [dif_neg hdone, dif_neg hdone]
  by_cases hword : addr.toNat % 8 = 0 ∧ 8 ≤ bytes.length
  · rw [if_pos hword, if_pos hword, Exec.each, issue]
    dsimp only
    rw [List.length_take, min_eq_left hword.2,
      ih _ (by rw [List.length_drop]; omega) (addr + 8) (bytes.drop 8) rfl]
  · obtain ⟨byte, rest, rfl⟩ := List.exists_cons_of_ne_nil hdone
    have hbyte : BitVec.ofNat 64 (ofBytes [byte]) = byte.setWidth 64 := by
      rw [← BitVec.ofNat_toNat]
      rfl
    rw [if_neg hword, if_neg hword, Exec.each, issue]
    change (storeAt addr 1 (byte.setWidth 64) >>= fun _ => writeBytes (addr + 1) rest) =
      storeAt addr 1 (BitVec.ofNat 64 (ofBytes [byte])) >>= fun _ =>
        Exec.each issue (stores (addr + 1) rest)
    rw [hbyte, ih rest.length (by rw [← hleft, List.length_cons]; omega) (addr + 1) rest rfl]

/-- A header that is read. -/
theorem loadOne_eq (hlength : bytes.length < 2 ^ 63) {i : ℕ} (hreadable : ReadableAt bytes i) :
    (loadOne bytes (headerOf bytes) i : Exec Error (Bus B S) PUnit) =
      Exec.each issue ((segmentOf bytes i).elim [] (Segment.stores bytes)) := by
  have hkind := hreadable.kind
  rw [loadOne, loadSegment_eq (by omega), if_pos hkind, pure_bind]
  cases hsegment : segmentOf bytes i with
  | none =>
      rw [segmentOf] at hsegment
      split at hsegment
      · cases hsegment
      · rename_i hother
        rw [if_neg hother]
        rfl
  | some s =>
      have hfields := hreadable.fields s hsegment
      have hdata := hreadable.data s hsegment
      rw [segmentOf] at hsegment
      split at hsegment
      · rename_i hload
        cases hsegment
        dsimp only at hdata
        rw [if_pos hload]
        dsimp only
        rw [fieldAt_eq (by omega), if_pos (by omega), pure_bind, fieldAt_eq (by omega),
          if_pos (by omega), pure_bind, fieldAt_eq (by omega), if_pos (by omega), pure_bind,
          fieldAt_eq (by omega), if_pos (by omega), pure_bind, checkedAdd, if_pos (by omega)]
        simp only [present, pure_bind]
        rw [if_pos hdata]
        simp only [pure_bind]
        rw [writeSegment, List.length_take, List.length_drop, min_eq_left (by omega),
          writeBytes_eq]
        rfl
      · cases hsegment

/-- A header that is not inside the file, or whose segment is not. -/
theorem loadOne_truncated (hlength : bytes.length < 2 ^ 63) {i : ℕ}
    (hfits : baseOf bytes i + 4 < 2 ^ 64) (hunread : ¬ ReadableAt bytes i) :
    (loadOne bytes (headerOf bytes) i : Exec Error (Bus B S) PUnit) = Exec.raise .truncated := by
  rw [loadOne, loadSegment_eq hfits]
  split
  on_goal 2 => rfl
  rename_i hkind
  rw [pure_bind]
  by_cases hload : number 4 bytes (baseOf bytes i) = 1
  · rw [if_pos hload]
    dsimp only
    -- each field is inside, or the file is cut off there
    rw [fieldAt_eq (by omega)]
    split
    on_goal 2 => rfl
    rw [pure_bind, fieldAt_eq (by omega)]
    split
    on_goal 2 => rfl
    rw [pure_bind, fieldAt_eq (by omega)]
    split
    on_goal 2 => rfl
    rw [pure_bind, fieldAt_eq (by omega)]
    split
    on_goal 2 => rfl
    rename_i hfields
    rw [pure_bind, checkedAdd]
    split
    on_goal 2 => rfl
    simp only [present, pure_bind]
    by_cases hdata : number 8 bytes (baseOf bytes i + 8) + number 8 bytes (baseOf bytes i + 32) ≤
        bytes.length
    · refine absurd ⟨hkind, fun s _ => by omega, fun s hs => ?_⟩ hunread
      rw [segmentOf, if_pos hload] at hs
      cases hs
      exact hdata
    · rw [if_neg hdata]
      rfl
  · refine absurd ⟨hkind, fun s hs => ?_, fun s hs => ?_⟩ hunread <;>
    · rw [segmentOf, if_neg hload] at hs
      cases hs

theorem loadOne_panic {i : ℕ} (hover : 2 ^ 64 ≤ baseOf bytes i + 4) (bus : Bus B S) :
    (loadOne bytes (headerOf bytes) i).run bus = .panic := by
  rw [loadOne, Exec.run_bind, loadSegment_panic hover]

/-- A turn that ends well has read its header. -/
theorem readable_of_loadOne (hlength : bytes.length < 2 ^ 63) {i : ℕ} {bus after : Bus B S}
    (hrun : (loadOne bytes (headerOf bytes) i).run bus = .ok ⟨⟩ after) : ReadableAt bytes i := by
  by_contra hunread
  by_cases hfits : baseOf bytes i + 4 < 2 ^ 64
  · rw [loadOne_truncated hlength hfits hunread] at hrun
    cases hrun
  · rw [loadOne_panic (not_lt.mp hfits)] at hrun
    cases hrun

/-- **A loop over headers** that are read is the stores of their segments. -/
theorem each_loadOne_eq (hlength : bytes.length < 2 ^ 63) {is : List ℕ}
    (hreadable : ∀ i ∈ is, ReadableAt bytes i) :
    (Exec.each (loadOne bytes (headerOf bytes)) is : Exec Error (Bus B S) PUnit) =
      Exec.each issue ((segmentsOf bytes is).flatMap (Segment.stores bytes)) := by
  induction is with
  | nil => rfl
  | cons i is ih =>
      obtain ⟨hone, hrest⟩ := List.forall_mem_cons.mp hreadable
      rw [Exec.each, loadOne_eq hlength hone, ih hrest, segmentsOf, segmentsOf, List.filterMap_cons]
      cases segmentOf bytes i with
      | none => rfl
      | some s =>
          dsimp only
          rw [List.flatMap_cons, Exec.each_append, Option.elim_some]

theorem readable_of_each (hlength : bytes.length < 2 ^ 63) {is : List ℕ} {bus after : Bus B S}
    (hrun : (Exec.each (loadOne bytes (headerOf bytes)) is).run bus = .ok ⟨⟩ after) :
    ∀ i ∈ is, ReadableAt bytes i := by
  induction is generalizing bus with
  | nil => exact fun i hi => absurd hi List.not_mem_nil
  | cons i is ih =>
      obtain ⟨⟨⟩, middle, hone, hrest⟩ := Exec.run_bind_eq_ok.mp hrun
      exact List.forall_mem_cons.mpr ⟨readable_of_loadOne hlength hone, ih hrest⟩

/-- A file that is read to its end: its headers are inside, and the segments too. -/
structure Readable (bytes : List Byte) : Prop where
  accepted : Accepted bytes
  headers : ∀ i < (headerOf bytes).phnum, ReadableAt bytes i

theorem load_eq (hlength : bytes.length < 2 ^ 63) (hreadable : Readable bytes) :
    (load bytes : Exec Error (Bus B S) ℕ) =
      Exec.each issue (loadStores bytes) >>= fun _ => pure (headerOf bytes).entry := by
  have hheaders (i : ℕ) (hi : i ∈ List.range (headerOf bytes).phnum) : ReadableAt bytes i :=
    hreadable.headers i (List.mem_range.mp hi)
  rw [load, programHeader_eq hreadable.accepted, pure_bind, each_loadOne_eq hlength hheaders]
  rfl

/-- **A load that succeeds** is the stores of the segments. -/
theorem load_ok (hlength : bytes.length < 2 ^ 63) {bus after : Bus B S} {entry : ℕ}
    (hrun : (load bytes).run bus = .ok entry after) :
    Readable bytes ∧ (Exec.each issue (loadStores bytes)).run bus = .ok ⟨⟩ after := by
  have hreadable : Readable bytes := by
    obtain ⟨h, middle, hheader, hrun⟩ := Exec.run_bind_eq_ok.mp hrun
    by_cases haccepted : Accepted bytes
    · rw [programHeader_eq haccepted] at hheader
      cases hheader
      obtain ⟨⟨⟩, last, heach, -⟩ := Exec.run_bind_eq_ok.mp hrun
      exact ⟨haccepted, fun i hi => readable_of_each hlength heach i (List.mem_range.mpr hi)⟩
    · exact ((programHeader_refuses haccepted bus).of_run_ok hheader).elim
  rw [load_eq hlength hreadable] at hrun
  obtain ⟨⟨⟩, middle, hstores, hpure⟩ := Exec.run_bind_eq_ok.mp hrun
  cases hpure
  exact ⟨hreadable, hstores⟩

/-- A file of one header. -/
theorem readable_of_one (haccepted : Accepted bytes) (hphnum : (headerOf bytes).phnum = 1)
    {s : Segment} (hsegment : segmentOf bytes 0 = some s)
    (hheader : baseOf bytes 0 + 48 ≤ bytes.length) (hdata : s.offset + s.filesz ≤ bytes.length) :
    Readable bytes ∧ segments bytes = [s] := by
  refine ⟨⟨haccepted, fun i hi => ?_⟩, ?_⟩
  · obtain rfl : i = 0 := by omega
    refine ⟨by omega, fun _ _ => hheader, fun other hother => ?_⟩
    obtain rfl : s = other := Option.some.inj (hsegment.symm.trans hother)
    exact hdata
  · rw [segments, hphnum, List.range_one, segmentsOf, List.filterMap_cons, hsegment]
    rfl

/-- The segments of a file that is read are in it, -/
theorem Readable.inside (hreadable : Readable bytes) {s : Segment} (hs : s ∈ segments bytes) :
    s.offset + s.filesz ≤ bytes.length := by
  obtain ⟨i, hi, hsegment⟩ := List.mem_filterMap.mp hs
  exact (hreadable.headers i (List.mem_range.mp hi)).data s hsegment

/-- and their addresses are of 64 bits. -/
theorem paddr_lt {s : Segment} (hs : s ∈ segments bytes) : s.paddr < 2 ^ 64 := by
  obtain ⟨i, -, hsegment⟩ := List.mem_filterMap.mp hs
  rw [segmentOf] at hsegment
  split at hsegment
  · cases hsegment
    exact number_lt bytes _
  · cases hsegment

end Baonix.Host.Elf

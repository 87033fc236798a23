import Baonix.Host.ElfPlacement

/-!
# The extent of an object

`extent` walks the program headers once more, without a bus, to say how far the loader
writes.  It goes by the size in memory of a segment alone, the loader by the larger of
the sizes in memory and in the file.
-/

namespace Baonix.Host.Elf

open Baonix.Core Baonix.LittleEndian

/-! ## What `extent` returns -/

/-- The highest end of segments, as far as 64 bits go. -/
def highestEnd (ss : List Segment) (last : ℕ) : ℕ :=
  ss.foldl (fun last s => max last (min (s.paddr + s.memsz) (2 ^ 64 - 1))) last

theorem lt_highestEnd_iff {ss : List Segment} {last place : ℕ} :
    place < highestEnd ss last ↔
      place < last ∨ ∃ s ∈ ss, place < min (s.paddr + s.memsz) (2 ^ 64 - 1) := by
  induction ss generalizing last with
  | nil => simp [highestEnd]
  | cons s ss ih =>
      rw [highestEnd, List.foldl_cons, ← highestEnd, ih, lt_max_iff, or_assoc,
        List.exists_mem_cons_iff]

section Extent

variable {State : Type} {bytes : List Byte}

theorem extentOver_eq (hlength : bytes.length < 2 ^ 63) {is : List ℕ}
    (hreadable : ∀ i ∈ is, ReadableAt bytes i) (last : ℕ) :
    (extentOver bytes (headerOf bytes) is last : Exec Error State ℕ) =
      pure (highestEnd (segmentsOf bytes is) last) := by
  induction is generalizing last with
  | nil => rfl
  | cons i is ih =>
      obtain ⟨hone, hrest⟩ := List.forall_mem_cons.mp hreadable
      have hkind := hone.kind
      have hfields := hone.fields
      rw [extentOver, loadSegment_eq (by omega), if_pos hkind, pure_bind, segmentsOf,
        List.filterMap_cons]
      rw [segmentOf] at hfields ⊢
      by_cases hload : number 4 bytes (baseOf bytes i) = 1
      · rw [if_pos hload] at hfields
        have hinside := hfields _ rfl
        rw [if_pos hload, if_pos hload]
        dsimp only
        rw [fieldAt_eq (by omega), if_pos (by omega), pure_bind, fieldAt_eq (by omega),
          if_pos (by omega), pure_bind, ih hrest]
        rfl
      · rw [if_neg hload, if_neg hload]
        exact ih hrest last

/-- **`extent`** of a file that is read. -/
theorem extent_eq (hlength : bytes.length < 2 ^ 63) (hreadable : Readable bytes) :
    (extent bytes : Exec Error State ℕ) = pure (highestEnd (segments bytes) 0) := by
  have hheaders (i : ℕ) (hi : i ∈ List.range (headerOf bytes).phnum) : ReadableAt bytes i :=
    hreadable.headers i (List.mem_range.mp hi)
  rw [extent, programHeader_eq hreadable.accepted, pure_bind, extentOver_eq hlength hheaders]
  rfl

end Extent

/-! ## What `load` writes -/

/-- One of the stores writes the byte. -/
def Written (ss : List Store) (place : ℕ) : Prop :=
  ∃ store ∈ ss, store.addr.toNat ≤ place ∧ place < store.addr.toNat + store.bytes.length

theorem written_cons {store : Store} {ss : List Store} {place : ℕ} :
    Written (store :: ss) place ↔
      store.addr.toNat ≤ place ∧ place < store.addr.toNat + store.bytes.length ∨ Written ss place :=
  List.exists_mem_cons_iff ..

theorem written_flatMap {bytes : List Byte} {ss : List Segment} {place : ℕ} :
    Written (ss.flatMap (Segment.stores bytes)) place ↔
      ∃ s ∈ ss, Written (s.stores bytes) place := by
  simp only [Written, List.mem_flatMap]
  constructor
  · rintro ⟨store, ⟨s, hs, hstore⟩, hplace⟩
    exact ⟨s, hs, store, hstore, hplace⟩
  · rintro ⟨s, hs, store, hstore, hplace⟩
    exact ⟨store, ⟨s, hs, hstore⟩, hplace⟩

/-- The stores of a segment write its bytes, each of them. -/
theorem written_stores {addr : BitVec 64} {bytes : List Byte}
    (hfits : addr.toNat + bytes.length < 2 ^ 64) {place : ℕ} :
    Written (stores addr bytes) place ↔
      addr.toNat ≤ place ∧ place < addr.toNat + bytes.length := by
  induction addr, bytes using stores_induction with
  | nil addr =>
      rw [stores_nil, List.length_nil]
      constructor
      · rintro ⟨store, hstore, -⟩
        exact absurd hstore List.not_mem_nil
      · omega
  | cons addr first rest _ hstores ih =>
      rw [List.length_append] at hfits
      have hnext := toNat_advance (show addr.toNat + first.length < 2 ^ 64 by omega)
      rw [hstores, written_cons, ih (by omega), hnext, List.length_append]
      dsimp only
      omega

/-! ## Stores that succeed -/

variable {B S : Type} [MemBacking B] [ConsoleSink S]

/-- A store the bus does not refuse is in a window. -/
theorem store_inSomeWindow (addr : BitVec 64) (size : ℕ) (value : BitVec 64) (bus : Bus B S) :
    Exec.wp (Bus.store addr size value) (fun _ _ => Bus.inSomeWindow addr size)
      (fun _ _ => True) True bus := by
  rw [Bus.store]
  cases Bus.widthOf size with
  | none => trivial
  | some width =>
      dsimp only
      rw [Exec.wp_ite]
      split
      · rename_i hram
        exact (Exec.wp_any _ _).imp (fun _ _ _ => .inl hram) (fun _ _ _ => trivial)
          (fun _ => trivial)
      rw [Exec.wp_ite]
      split
      · rename_i hclint
        exact .inr (.inl hclint)
      rw [Exec.wp_ite]
      split
      · rename_i huart
        exact .inr (.inr huart)
      · trivial

theorem issue_inSomeWindow (store : Store) (bus : Bus B S) :
    Exec.wp (issue store) (fun _ _ => Bus.inSomeWindow store.addr store.bytes.length)
      (fun _ _ => True) True bus := by
  rw [issue, storeAt, Exec.wp_zoom]
  exact store_inSomeWindow store.addr _ _ bus

/-- The windows end before the last address. -/
theorem fits_of_inSomeWindow {addr : BitVec 64} {size : ℕ} (hwindow : Bus.inSomeWindow addr size) :
    addr.toNat + size < 2 ^ 64 := by
  rcases hwindow with hram | hclint | huart
  · exact (bounds_of_inWindow (by decide) hram).2.trans_lt (by decide)
  · exact (bounds_of_inWindow (by decide) hclint).2.trans_lt (by decide)
  · exact (bounds_of_inWindow (by decide) huart).2.trans_lt (by decide)

theorem stores_fit {addr : BitVec 64} {bytes : List Byte} {bus after : Bus B S}
    (hrun : (Exec.each issue (stores addr bytes)).run bus = .ok ⟨⟩ after) :
    addr.toNat + bytes.length < 2 ^ 64 := by
  induction addr, bytes using stores_induction generalizing bus with
  | nil addr => exact addr.isLt
  | cons addr first rest _ hstores ih =>
      rw [hstores] at hrun
      obtain ⟨⟨⟩, middle, hstore, hrest⟩ := Exec.run_bind_eq_ok.mp hrun
      have hfits : addr.toNat + first.length < 2 ^ 64 :=
        fits_of_inSomeWindow ((issue_inSomeWindow _ bus).of_run_ok hstore)
      have hbehind := ih hrest
      rw [toNat_advance hfits] at hbehind
      rw [List.length_append]
      omega

theorem segments_fit {bytes : List Byte} {ss : List Segment} {bus after : Bus B S}
    (hrun : (Exec.each issue (ss.flatMap (Segment.stores bytes))).run bus = .ok ⟨⟩ after) :
    ∀ s ∈ ss, (BitVec.ofNat 64 s.paddr).toNat + (s.image bytes).length < 2 ^ 64 := by
  induction ss generalizing bus with
  | nil => exact fun s hs => absurd hs List.not_mem_nil
  | cons s ss ih =>
      rw [List.flatMap_cons, Exec.each_append] at hrun
      obtain ⟨⟨⟩, middle, hfirst, hrest⟩ := Exec.run_bind_eq_ok.mp hrun
      exact List.forall_mem_cons.mpr ⟨stores_fit hfirst, ih hrest⟩

/-- **A load writes the segments**, and nothing besides. -/
theorem written_load {bytes : List Byte} (hreadable : Readable bytes) {bus after : Bus B S}
    (hrun : (Exec.each issue (loadStores bytes)).run bus = .ok ⟨⟩ after) {place : ℕ} :
    Written (loadStores bytes) place ↔
      ∃ s ∈ segments bytes, s.paddr ≤ place ∧ place < s.paddr + s.size := by
  rw [loadStores, written_flatMap]
  apply exists_congr
  intro s
  apply and_congr_right
  intro hs
  have hfits := segments_fit hrun s hs
  rw [Segment.stores, written_stores hfits, Segment.length_image (hreadable.inside hs),
    BitVec.toNat_ofNat, Nat.mod_eq_of_lt (paddr_lt hs)]

/-! ## The extent bounds the load -/

/-- **The extent of an object is above all a load writes exactly when no segment ends
higher in the file than in memory.**  Where `load` and `extent` both succeed, the load is
a run of stores; each byte they write is below the extent if and only if for each segment
with more bytes in the file than in memory there is one that ends in memory no lower than
it does with the bytes in the file. -/
theorem extent_bounds_load_iff {bytes : List Byte} (hlength : bytes.length < 2 ^ 63)
    {bus after : Bus B S} {entry : ℕ} (hload : (load bytes).run bus = .ok entry after)
    {State : Type} {state state' : State} {last : ℕ}
    (hextent : (extent bytes).run state = .ok last state') :
    (Exec.each issue (loadStores bytes)).run bus = .ok ⟨⟩ after ∧
      ((∀ place, Written (loadStores bytes) place → place < last) ↔
        ∀ s ∈ segments bytes, s.memsz < s.filesz →
          ∃ t ∈ segments bytes, s.paddr + s.filesz ≤ t.paddr + t.memsz) := by
  obtain ⟨hreadable, hstores⟩ := load_ok hlength hload
  rw [extent_eq hlength hreadable] at hextent
  cases hextent
  refine ⟨hstores, ?_⟩
  -- a segment ends in the address space
  have hend (s : Segment) (hs : s ∈ segments bytes) : s.paddr + s.size < 2 ^ 64 := by
    have hfits := segments_fit hstores s hs
    rwa [Segment.length_image (hreadable.inside hs), BitVec.toNat_ofNat,
      Nat.mod_eq_of_lt (paddr_lt hs)] at hfits
  constructor
  · intro hbelow s hs hless
    have hsize : s.size = s.filesz := max_eq_left hless.le
    have hlast : Written (loadStores bytes) (s.paddr + (s.filesz - 1)) :=
      (written_load hreadable hstores).mpr ⟨s, hs, by omega, by omega⟩
    rcases lt_highestEnd_iff.mp (hbelow _ hlast) with hzero | ⟨t, ht, hplace⟩
    · exact absurd hzero (Nat.not_lt_zero _)
    · exact ⟨t, ht, by omega⟩
  · intro hcovered place hplace
    obtain ⟨s, hs, hfrom, hto⟩ := (written_load hreadable hstores).mp hplace
    have hfits := hend s hs
    rw [lt_highestEnd_iff]
    right
    by_cases hless : s.memsz < s.filesz
    · obtain ⟨t, ht, hhigher⟩ := hcovered s hs hless
      rw [Segment.size, max_eq_left hless.le] at hto hfits
      exact ⟨t, ht, by omega⟩
    · rw [Segment.size, max_eq_right (not_lt.mp hless)] at hto hfits
      exact ⟨s, hs, by omega⟩

/-- Eight bytes in the file and in memory. -/
theorem extent_bounds_load_iff_tiny :
    ∃ (after : Bus FakeBacking (List Byte)) (last : ℕ),
      (load tinyElf).run (Sv39.busOver fun _ _ => 0) = .ok (headerOf tinyElf).entry after ∧
        (extent tinyElf).run () = .ok last () ∧
        ∀ place, Written (loadStores tinyElf) place → place < last := by
  obtain ⟨hreadable, hsegments⟩ := readable_tinyElf
  have hram : ∀ s ∈ segments tinyElf, InRam s.paddr s.size := by
    rw [hsegments, List.forall_mem_singleton]
    exact ⟨by decide, by decide⟩
  obtain ⟨after, hload⟩ := exists_load (by decide +kernel) hreadable not_fallible_fakeBacking
    (Sv39.holds_busOver fun _ _ => 0) hram
  have hextent : (extent tinyElf).run () = .ok (highestEnd (segments tinyElf) 0) () := by
    rw [extent_eq (by decide +kernel) hreadable]
    rfl
  refine ⟨after, _, hload, hextent,
    (extent_bounds_load_iff (by decide +kernel) hload hextent).2.mpr ?_⟩
  rw [hsegments, List.forall_mem_singleton]
  exact fun hless => absurd hless (by decide)

/-- Eight bytes in the file, and none in memory. -/
def fileOnlyElf : List Byte := oneSegment ramBase 0 [1, 2, 3, 4, 5, 6, 7, 8]

/-- They are written where the extent ends. -/
theorem load_writes_above_extent :
    ∃ after : Bus FakeBacking (List Byte),
      (load fileOnlyElf).run (Sv39.busOver fun _ _ => 0) = .ok ramBase after ∧
        (extent fileOnlyElf).run () = .ok ramBase () ∧
        (Exec.each issue (loadStores fileOnlyElf)).run (Sv39.busOver fun _ _ => 0) =
          .ok ⟨⟩ after ∧
        Written (loadStores fileOnlyElf) ramBase := by
  obtain ⟨hreadable, hsegments⟩ : Readable fileOnlyElf ∧
      segments fileOnlyElf = [⟨120, ramBase, 8, 0⟩] :=
    readable_of_one (by decide +kernel) (by decide +kernel) (by decide +kernel)
      (by decide +kernel) (by decide +kernel)
  have hram : ∀ s ∈ segments fileOnlyElf, InRam s.paddr s.size := by
    rw [hsegments, List.forall_mem_singleton]
    exact ⟨by decide, by decide⟩
  have hentry : (headerOf fileOnlyElf).entry = ramBase := by decide +kernel
  have hshort : fileOnlyElf.length < 2 ^ 63 := by decide +kernel
  obtain ⟨after, hload⟩ := exists_load hshort hreadable not_fallible_fakeBacking
    (Sv39.holds_busOver fun _ _ => 0) hram
  rw [hentry] at hload
  obtain ⟨-, hstores⟩ := load_ok hshort hload
  refine ⟨after, hload, ?_, hstores, (written_load hreadable hstores).mpr ?_⟩
  · rw [extent_eq hshort hreadable, hsegments]
    rfl
  · rw [hsegments]
    exact ⟨⟨120, ramBase, 8, 0⟩, List.mem_singleton_self _, le_rfl, by decide⟩

end Baonix.Host.Elf

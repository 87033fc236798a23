import Baonix.Core.Sv39
import Baonix.Host.Blobs
import Baonix.Host.ElfSegments

/-!
# Where a load puts the segments

The loader stores through the bus, which also serves the windows of the interruptor
and of the UART.  An object is placed in RAM, its segments over each other in the order
of their headers, exactly when none of their bytes is in one of these windows.
-/

namespace Baonix.Host.Elf

open Baonix.Core Baonix.LittleEndian
open PageCache (Holds)

/-! ## The map of the bus -/

/-- A byte of RAM. -/
def RamByte (place : ℕ) : Prop := ramBase ≤ place ∧ place < ramEnd

/-- A byte of the window of a device. -/
def DeviceByte (place : ℕ) : Prop :=
  Bus.clintBase.toNat ≤ place ∧ place < Bus.clintBase.toNat + Bus.clintSize.toNat ∨
    Bus.uartBase.toNat ≤ place ∧ place < Bus.uartBase.toNat + Bus.uartSize.toNat

/-- The devices are below RAM. -/
theorem not_deviceByte {place : ℕ} (hram : RamByte place) : ¬ DeviceByte place := by
  have hclint : Bus.clintBase.toNat + Bus.clintSize.toNat ≤ ramBase := by decide
  have huart : Bus.uartBase.toNat + Bus.uartSize.toNat ≤ ramBase := by decide
  have hbase := hram.1
  rw [DeviceByte]
  omega

/-- An access in a window begins and ends in it. -/
theorem bounds_of_inWindow {base length : ℕ} {addr : BitVec 64} {size : ℕ}
    (hbase : base + length < 2 ^ 64 - 1) (hwindow : Bus.inWindow base length addr size) :
    base ≤ addr.toNat ∧ addr.toNat + size ≤ base + length := by
  rw [Bus.inWindow, decide_eq_true_iff, Bus.saturatingAdd] at hwindow
  omega

theorem inRam_of_clear {addr : BitVec 64} {size : ℕ} (hsize : 0 < size)
    (hclear : ¬ DeviceByte addr.toNat) (hserved : Bus.Served addr size) : Bus.inRam addr size := by
  rcases hserved.2 with hram | hclint | huart
  · exact hram
  · have hbounds := bounds_of_inWindow (by decide) hclint
    exact absurd (.inl ⟨hbounds.1, by omega⟩) hclear
  · have hbounds := bounds_of_inWindow (by decide) huart
    exact absurd (.inr ⟨hbounds.1, by omega⟩) hclear

variable {B S : Type} [FlatBacking B] [ConsoleSink S]

/-- The devices are as they were. -/
structure SameDevices (bus after : Bus B S) : Prop where
  clint : after.clint = bus.clint
  uart : after.uart = bus.uart

omit [FlatBacking B] [ConsoleSink S] in
theorem SameDevices.trans {bus middle after : Bus B S} (hfirst : SameDevices bus middle)
    (hlast : SameDevices middle after) : SameDevices bus after :=
  ⟨hlast.clint.trans hfirst.clint, hlast.uart.trans hfirst.uart⟩

/-- A store that goes to RAM goes past the devices. -/
theorem store_sameDevices {addr : BitVec 64} {size : ℕ} (hram : Bus.inRam addr size)
    (value : BitVec 64) (bus : Bus B S) :
    Exec.wp (Bus.store addr size value) (fun _ after => SameDevices bus after)
      (fun _ _ => True) True bus := by
  rw [Bus.store]
  cases Bus.widthOf size with
  | none => trivial
  | some width =>
      dsimp only
      rw [if_pos hram, Bus.onCache, Exec.wp_zoom]
      exact (Exec.wp_any _ _).imp (fun _ _ _ => ⟨rfl, rfl⟩) (fun _ _ _ => trivial)
        (fun _ => trivial)

/-- Bytes are in RAM now, and nothing else has changed. -/
structure Landed (m : Memory) (bus : Bus B S) (addr : ℕ) (bytes : List Byte) (after : Bus B S) :
    Prop where
  inRam : ∀ place, addr ≤ place → place < addr + bytes.length → RamByte place
  holds : Holds (m.write addr bytes) after.cache
  devices : SameDevices bus after

/-- The widths of the loader's stores. -/
def Store.Sized (store : Store) : Prop := store.bytes.length = 1 ∨ store.bytes.length = 8

/-- What a store writes is its bytes. -/
theorem Store.Sized.bytesOf_eq {store : Store} (hsized : store.Sized) :
    Bus.bytesOf store.bytes.length (BitVec.ofNat 64 (ofBytes store.bytes)) = store.bytes := by
  rcases hsized with hbyte | hword
  · obtain ⟨byte, hbytes⟩ := List.length_eq_one_iff.mp hbyte
    rw [hbytes, List.length_singleton]
    have hvalue : BitVec.ofNat 64 (ofBytes [byte]) = byte.setWidth 64 := by
      rw [← BitVec.ofNat_toNat]
      rfl
    rw [hvalue, bytesOf_byte]
  · rw [hword, bytesOf_word hword]

/-- A store of the loader that does not begin in a device's window. -/
theorem issue_spec {m : Memory} {bus : Bus B S} (hbus : Holds m bus.cache) {store : Store}
    (hsized : store.Sized) (hclear : ¬ DeviceByte store.addr.toNat) :
    Exec.wp (issue store) (fun _ after => Landed m bus store.addr.toNat store.bytes after)
      (fun _ _ => Fallible B ∨ ¬ InRam store.addr.toNat store.bytes.length) False bus := by
  have hwidth : (Bus.widthOf store.bytes.length).isSome ∧ 0 < store.bytes.length := by
    rcases hsized with hsize | hsize <;> rw [hsize] <;> exact ⟨rfl, by norm_num⟩
  have hstore := Bus.store_spec hbus store.addr store.bytes.length
    (BitVec.ofNat 64 (ofBytes store.bytes))
  rw [issue, storeAt, Exec.wp_zoom]
  by_cases hram : Bus.inRam store.addr store.bytes.length
  · have hdevices := store_sameDevices hram (BitVec.ofNat 64 (ofBytes store.bytes)) bus
    apply (hstore.and hdevices).imp
    · rintro _ after ⟨⟨hholds, -⟩, hsame⟩
      rw [Bus.stored, if_pos hram, hsized.bytesOf_eq] at hholds
      have hinside := Bus.inRam_iff.mp hram
      refine ⟨fun place hfrom hto => ?_, hholds, hsame⟩
      rw [InRam] at hinside
      rw [RamByte, ramEnd]
      omega
    · rintro err after ⟨hrefused, -⟩
      rcases hrefused with ⟨-, hserved, -⟩ | ⟨-, -, hfallible, -⟩
      · exact absurd ⟨hwidth.1, .inl hram⟩ hserved
      · exact .inl hfallible
    · exact fun hboth => hboth.1
  · apply hstore.imp
    · rintro _ after ⟨-, hserved⟩
      exact absurd (inRam_of_clear hwidth.2 hclear hserved) hram
    · exact fun _ _ _ => .inr fun hinside => hram (Bus.inRam_iff.mpr hinside)
    · exact fun hfalse => hfalse

/-! ## The stores of a segment -/

/-- None of the bytes is in a device's window. -/
def Clear (addr length : ℕ) : Prop :=
  ∀ place, addr ≤ place → place < addr + length → ¬ DeviceByte place

/-- **The stores of a segment** that go past the devices write all of it to RAM. -/
theorem stores_spec {m : Memory} {bus : Bus B S} (hbus : Holds m bus.cache) (addr : BitVec 64)
    (bytes : List Byte) (hclear : Clear addr.toNat bytes.length) :
    Exec.wp (Exec.each issue (stores addr bytes))
      (fun _ after => Landed m bus addr.toNat bytes after)
      (fun _ _ => Fallible B ∨ ¬ InRam addr.toNat bytes.length) False bus := by
  induction addr, bytes using stores_induction generalizing m bus with
  | nil addr =>
      rw [stores_nil]
      refine ⟨fun place hfrom hto => ?_, ?_, rfl, rfl⟩
      · rw [List.length_nil] at hto
        omega
      · rw [Memory.write_nil]
        exact hbus
  | cons addr first rest hsize hstores ih =>
      have hsized : Store.Sized ⟨addr, first⟩ := hsize
      rw [List.length_append] at hclear
      rw [hstores, Exec.each, Exec.wp_bind, List.length_append]
      apply (issue_spec hbus hsized (hclear addr.toNat le_rfl (by omega))).imp
      · intro _ middle hlanded
        dsimp only at hlanded
        have hlast := hlanded.inRam (addr.toNat + (first.length - 1)) (by omega) (by omega)
        rw [RamByte, ramEnd] at hlast
        simp only [ramBase, ramSize] at hlast
        have hnext := toNat_advance (show addr.toNat + first.length < 2 ^ 64 by omega)
        have hafter : Clear (addr + BitVec.ofNat 64 first.length).toNat rest.length := by
          intro place hfrom hto
          exact hclear place (by omega) (by omega)
        apply (ih hlanded.holds hafter).imp
        · intro _ after hbehind
          refine ⟨fun place hfrom hto => ?_, ?_, hlanded.devices.trans hbehind.devices⟩
          · rw [List.length_append] at hto
            by_cases hfirst : place < addr.toNat + first.length
            · exact hlanded.inRam place hfrom hfirst
            · exact hbehind.inRam place (by omega) (by omega)
          · rw [Memory.write_append, ← hnext]
            exact hbehind.holds
        · refine fun _ _ => Or.imp_right fun hover hinside => hover ?_
          rw [InRam] at hinside ⊢
          omega
        · exact fun hfalse => hfalse
      · refine fun _ _ => Or.imp_right fun hover hinside => hover ?_
        rw [InRam] at hinside ⊢
        dsimp only
        omega
      · exact fun hfalse => hfalse

/-! ## The segments of an object -/

/-- Memory with segments laid over it, one after the other. -/
def overlay (bytes : List Byte) (m : Memory) (ss : List Segment) : Memory :=
  ss.foldl (fun m s => m.write s.paddr (s.image bytes)) m

/-- The segments are in RAM, laid over what was there, and no device has changed. -/
structure Placed (bytes : List Byte) (ss : List Segment) (m : Memory) (bus after : Bus B S) :
    Prop where
  inRam : ∀ s ∈ ss, ∀ place, s.paddr ≤ place → place < s.paddr + s.size → RamByte place
  holds : Holds (overlay bytes m ss) after.cache
  devices : SameDevices bus after

variable {bytes : List Byte}

theorem segments_spec {ss : List Segment} {m : Memory} {bus : Bus B S} (hbus : Holds m bus.cache)
    (hinside : ∀ s ∈ ss, s.offset + s.filesz ≤ bytes.length) (hpaddr : ∀ s ∈ ss, s.paddr < 2 ^ 64)
    (hclear : ∀ s ∈ ss, Clear s.paddr s.size) :
    Exec.wp (Exec.each issue (ss.flatMap (Segment.stores bytes)))
      (fun _ after => Placed bytes ss m bus after)
      (fun _ _ => Fallible B ∨ ∃ s ∈ ss, ¬ InRam s.paddr s.size) False bus := by
  induction ss generalizing m bus with
  | nil => exact ⟨fun s hs => absurd hs List.not_mem_nil, hbus, rfl, rfl⟩
  | cons s ss ih =>
      obtain ⟨hinsideHead, hinsideTail⟩ := List.forall_mem_cons.mp hinside
      obtain ⟨hpaddrHead, hpaddrTail⟩ := List.forall_mem_cons.mp hpaddr
      obtain ⟨hclearHead, hclearTail⟩ := List.forall_mem_cons.mp hclear
      have hlength := Segment.length_image hinsideHead
      have haddr : (BitVec.ofNat 64 s.paddr).toNat = s.paddr := by
        rw [BitVec.toNat_ofNat, Nat.mod_eq_of_lt hpaddrHead]
      rw [← hlength, ← haddr] at hclearHead
      rw [List.flatMap_cons, Exec.each_append, Exec.wp_bind]
      apply (stores_spec hbus (BitVec.ofNat 64 s.paddr) (s.image bytes) hclearHead).imp
      · intro _ middle hlanded
        rw [haddr] at hlanded
        apply (ih hlanded.holds hinsideTail hpaddrTail hclearTail).imp
        · intro _ after hplaced
          refine ⟨List.forall_mem_cons.mpr ⟨?_, hplaced.inRam⟩, hplaced.holds,
            hlanded.devices.trans hplaced.devices⟩
          rw [← hlength]
          exact hlanded.inRam
        · rintro _ _ (hfallible | ⟨other, hother, hover⟩)
          · exact .inl hfallible
          · exact .inr ⟨other, List.mem_cons_of_mem _ hother, hover⟩
        · exact fun hfalse => hfalse
      · rw [haddr, hlength]
        exact fun _ _ => Or.imp_right fun hover => ⟨s, List.mem_cons_self .., hover⟩
      · exact fun hfalse => hfalse

/-! ## Objects -/

/-- The header of a little-endian RISC-V object. -/
def elfHeader (phoff phnum shoff shnum : ℕ) : List Byte :=
  magic ++ [2, 1] ++ List.replicate 12 0 ++ toBytes 2 243 ++ List.replicate 4 0 ++
    toBytes 8 ramBase ++ toBytes 8 phoff ++ toBytes 8 shoff ++ List.replicate 6 0 ++
    toBytes 2 phdrLen ++ toBytes 2 phnum ++ toBytes 2 64 ++ toBytes 2 shnum ++
    List.replicate 2 0

/-- The `PT_LOAD` header of a segment. -/
def segmentHeader (s : Segment) : List Byte :=
  toBytes 4 1 ++ List.replicate 4 0 ++ toBytes 8 s.offset ++ toBytes 8 s.paddr ++
    toBytes 8 s.paddr ++ toBytes 8 s.filesz ++ toBytes 8 s.memsz ++ List.replicate 8 0

/-- An object of one segment. -/
def oneSegment (paddr memsz : ℕ) (data : List Byte) : List Byte :=
  elfHeader 64 1 0 0 ++ segmentHeader ⟨120, paddr, data.length, memsz⟩ ++ data

/-- Eight bytes for the comparator of the timer. -/
def timerElf : List Byte := oneSegment 0x02004000 8 [1, 2, 3, 4, 5, 6, 7, 8]

/-- Eight bytes for the start of RAM. -/
def tinyElf : List Byte := oneSegment ramBase 8 [1, 2, 3, 4, 5, 6, 7, 8]

theorem readable_timerElf : Readable timerElf ∧ segments timerElf = [⟨120, 0x02004000, 8, 8⟩] :=
  readable_of_one (by decide +kernel) (by decide +kernel) (by decide +kernel) (by decide +kernel)
    (by decide +kernel)

theorem readable_tinyElf : Readable tinyElf ∧ segments tinyElf = [⟨120, ramBase, 8, 8⟩] :=
  readable_of_one (by decide +kernel) (by decide +kernel) (by decide +kernel) (by decide +kernel)
    (by decide +kernel)

/-- Stores that succeed are a load that succeeds. -/
theorem load_run (hlength : bytes.length < 2 ^ 63) (hreadable : Readable bytes)
    {bus after : Bus B S} (hstores : (Exec.each issue (loadStores bytes)).run bus = .ok ⟨⟩ after) :
    (load bytes).run bus = .ok (headerOf bytes).entry after := by
  rw [load_eq hlength hreadable, Exec.run_bind_ok hstores]
  rfl

/-- Segments in RAM are loaded. -/
theorem exists_load (hlength : bytes.length < 2 ^ 63) (hreadable : Readable bytes)
    (hfallible : ¬ Fallible B) {m : Memory} {bus : Bus B S} (hbus : Holds m bus.cache)
    (hram : ∀ s ∈ segments bytes, InRam s.paddr s.size) :
    ∃ after, (load bytes).run bus = .ok (headerOf bytes).entry after := by
  have hclear : ∀ s ∈ segments bytes, Clear s.paddr s.size := by
    intro s hs place hfrom hto
    have hinside := hram s hs
    rw [InRam] at hinside
    exact not_deviceByte ⟨by omega, by rw [ramEnd]; omega⟩
  have hspec := segments_spec hbus (fun _ => hreadable.inside) (fun _ => paddr_lt) hclear
  have hnotOver : ¬ ∃ s ∈ segments bytes, ¬ InRam s.paddr s.size := by
    rintro ⟨s, hs, hover⟩
    exact hover (hram s hs)
  have htotal := hspec.imp (fun _ _ hplaced => hplaced)
    (fun _ _ hrefused => hrefused.elim hfallible hnotOver) (fun hfalse => hfalse)
  obtain ⟨⟨⟩, after, hstores, -⟩ := htotal.exists_ok
  exact ⟨after, load_run hlength hreadable hstores⟩

/-! ## The placement -/

/-- **A load places the segments exactly when none is in a device's window.**  Whenever
`load` accepts an object, each byte of each segment is in RAM, memory is what it was with
the segments over it in the order of the program headers, and the devices are as they
were, if and only if no byte of a segment is in the window of the interruptor or of the
UART. -/
theorem load_places_iff (hlength : bytes.length < 2 ^ 63) {m : Memory} {bus after : Bus B S}
    (hbus : Holds m bus.cache) {entry : ℕ} (hload : (load bytes).run bus = .ok entry after) :
    Placed bytes (segments bytes) m bus after ↔ ∀ s ∈ segments bytes, Clear s.paddr s.size := by
  obtain ⟨hreadable, hstores⟩ := load_ok hlength hload
  constructor
  · intro hplaced s hs place hfrom hto
    exact not_deviceByte (hplaced.inRam s hs place hfrom hto)
  · intro hclear
    have hspec := segments_spec hbus (fun _ => hreadable.inside) (fun _ => paddr_lt) hclear
    exact hspec.of_run_ok hstores

/-- Eight bytes at the start of RAM are placed. -/
theorem load_places_iff_tiny :
    ∃ after : Bus FakeBacking (List Byte),
      (load tinyElf).run (Sv39.busOver fun _ _ => 0) = .ok (headerOf tinyElf).entry after ∧
        Placed tinyElf (segments tinyElf) (flat fun _ _ => 0) (Sv39.busOver fun _ _ => 0) after := by
  obtain ⟨hreadable, hsegments⟩ := readable_tinyElf
  have hholds := Sv39.holds_busOver fun _ _ => 0
  have hram : ∀ s ∈ segments tinyElf, InRam s.paddr s.size := by
    rw [hsegments, List.forall_mem_singleton]
    exact ⟨by decide, by decide⟩
  obtain ⟨after, hload⟩ :=
    exists_load (by decide +kernel) hreadable not_fallible_fakeBacking hholds hram
  refine ⟨after, hload, (load_places_iff (by decide +kernel) hholds hload).mpr ?_⟩
  rw [hsegments, List.forall_mem_singleton]
  exact fun place hfrom hto => not_deviceByte ⟨hfrom, hto.trans_le (by decide)⟩

/-- An object whose segment is the comparator of the timer is accepted: the comparator is
written, and the segment is nowhere in memory. -/
theorem load_sets_timer :
    ∃ after : Bus FakeBacking (List Byte),
      (load timerElf).run (Sv39.busOver fun _ _ => 0) = .ok ramBase after ∧
        after.clint.mtimecmp = 0x0807060504030201 ∧
        ¬ Placed timerElf (segments timerElf) (flat fun _ _ => 0) (Sv39.busOver fun _ _ => 0)
          after := by
  obtain ⟨hreadable, hsegments⟩ := readable_timerElf
  have hstores : loadStores timerElf = [⟨0x02004000, [1, 2, 3, 4, 5, 6, 7, 8]⟩] := by
    have himage : Segment.image timerElf ⟨120, 0x02004000, 8, 8⟩ = [1, 2, 3, 4, 5, 6, 7, 8] := by
      decide +kernel
    rw [loadStores, hsegments, List.flatMap_singleton, Segment.stores, himage,
      stores_word (by decide) rfl]
    rfl
  have hrun : (Exec.each issue (loadStores timerElf)).run (Sv39.busOver fun _ _ => 0) =
      .ok ⟨⟩ { Sv39.busOver fun _ _ => 0 with clint := ⟨0, 0x0807060504030201, 0⟩ } := by
    rw [hstores]
    rfl
  have hentry : (headerOf timerElf).entry = ramBase := by decide +kernel
  have hload := load_run (by decide +kernel) hreadable hrun
  rw [hentry] at hload
  refine ⟨_, hload, rfl, fun hplaced => ?_⟩
  have hbyte := hplaced.inRam ⟨120, 0x02004000, 8, 8⟩ (hsegments ▸ List.mem_singleton_self _)
    0x02004000 le_rfl (by decide)
  exact absurd hbyte.1 (by decide)

end Baonix.Host.Elf

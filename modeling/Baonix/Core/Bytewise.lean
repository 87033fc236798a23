import Baonix.Core.Alike
import Baonix.Core.BaseEffect
import Baonix.Core.Isolation
import Baonix.Lib.Scatter

/-!
# Accesses byte by byte

An access that stays in its page asks for one translation, and one that straddles two
pages goes byte by byte.  A translation that succeeds leaves the buffer with the page it
found, so that the other bytes of the page would be found there too: the short way
comes to what the long way comes to.
-/

namespace Baonix.Core

open Baonix.LittleEndian
open PageCache (Holds)

namespace Mmu

/-! ## A page that was looked up -/

/-- Every address of a page is translated without a walk, to the page `ppn`. -/
def Settled (csrs : Csrs) (priv : Priv) (access : Access) (vaddr ppn : BitVec 64) (mmu : Mmu) :
    Prop :=
  if paging csrs priv then
    ∃ pte, mmu.tlb (slot (vaddr >>> 12)) = ⟨true, vaddr >>> 12, ppn, pte⟩ ∧
      checkPerms pte priv access vaddr = .ok ()
  else ppn = vaddr >>> 12

theorem physical_page (vaddr : BitVec 64) : physical (vaddr >>> 12) vaddr = vaddr := by
  have hmask : (0xFFF : BitVec 64) = Bits.mask 64 12 := by decide
  rw [physical, hmask]
  apply BitVec.eq_of_getLsbD_eq
  intro j hj
  simp only [BitVec.getLsbD_or, BitVec.getLsbD_and, BitVec.getLsbD_shiftLeft,
    BitVec.getLsbD_ushiftRight, Bits.getLsbD_mask 12 hj]
  by_cases hlow : j < 12
  · simp [hlow]
  · simp [hlow, hj, Nat.add_sub_cancel' (not_lt.mp hlow)]

variable {B S : Type} [MemBacking B]

/-- A walk that succeeds leaves its page in the buffer. -/
theorem walk_settles (priv : Priv) (access : Access) (vaddr : BitVec 64) (levels : List Level)
    (table : BitVec 64) (system : MemSystem B S) :
    Exec.wp (walk priv access vaddr levels table)
      (fun pa after => ∃ ppn pte, pa = physical ppn vaddr ∧
        after.mmu.tlb (slot (vaddr >>> 12)) = ⟨true, vaddr >>> 12, ppn, pte⟩ ∧
          checkPerms pte priv access vaddr = .ok ())
      (fun _ _ => True) True system := by
  induction levels generalizing table system with
  | nil => trivial
  | cons level levels ih =>
      rw [walk, Exec.wp_bind]
      apply (Exec.wp_any _ system).imp _ (fun _ _ _ => trivial) (fun _ => trivial)
      intro pte middle _
      rw [Exec.wp_ite]
      by_cases hvalid : pte &&& 1 = 0
      · rw [if_pos hvalid]
        trivial
      rw [if_neg hvalid, Exec.wp_ite]
      by_cases hleaf : isLeaf pte
      · rw [if_pos hleaf, Exec.wp_bind, Exec.wp_ofExcept]
        refine ⟨fun _ hperms => ?_, fun _ _ => trivial⟩
        rw [Exec.wp_ite]
        by_cases haligned : ppnOf pte &&& superpageMask level ≠ 0
        · rw [if_pos haligned]
          trivial
        · rw [if_neg haligned, Exec.wp_bind, Exec.wp_update, Exec.wp_pure]
          exact ⟨_, pte, rfl, Function.update_self .., hperms⟩
      · rw [if_neg hleaf]
        exact ih _ middle

/-- **A translation that succeeds settles its page.** -/
theorem translate_settles (csrs : Csrs) (priv : Priv) (vaddr : BitVec 64) (access : Access)
    (system : MemSystem B S) :
    Exec.wp (translate csrs priv vaddr access)
      (fun pa after => ∃ ppn, pa = physical ppn vaddr ∧
        Settled csrs priv access vaddr ppn after.mmu)
      (fun _ _ => True) True system := by
  rw [translate, Exec.wp_ite]
  by_cases hpaging : paging csrs priv
  · simp only [Settled, if_pos hpaging, if_neg (not_not_intro hpaging)]
    rw [Exec.wp_bind, Exec.wp_read, Exec.wp_ite]
    by_cases hhit : (system.mmu.tlb (slot (vaddr >>> 12))).valid ∧
        (system.mmu.tlb (slot (vaddr >>> 12))).vpn = vaddr >>> 12
    · rw [if_pos hhit, Exec.wp_bind, Exec.wp_ofExcept]
      refine ⟨fun _ hperms => ?_, fun _ _ => trivial⟩
      rw [Exec.wp_pure]
      refine ⟨_, rfl, (system.mmu.tlb (slot (vaddr >>> 12))).perms, ?_, hperms⟩
      generalize system.mmu.tlb (slot (vaddr >>> 12)) = entry at hhit
      obtain ⟨valid, vpn, ppn, perms⟩ := entry
      obtain ⟨hvalid, hvpn⟩ := hhit
      simp only at hvalid hvpn
      rw [hvalid, hvpn]
    · rw [if_neg hhit, Exec.wp_bind, Exec.wp_update]
      apply (walk_settles priv access vaddr _ _ _).imp _ (fun _ _ _ => trivial) (fun _ => trivial)
      rintro pa after ⟨ppn, pte, hpa, htlb, hperms⟩
      exact ⟨ppn, hpa, pte, htlb, hperms⟩
  · simp only [Settled, if_neg hpaging, if_pos hpaging]
    exact ⟨_, (physical_page vaddr).symm, rfl⟩

/-- A settled page is found again, and nothing is changed. -/
theorem Settled.run {csrs : Csrs} {priv : Priv} {access : Access} {vaddr ppn : BitVec 64}
    {mmu : Mmu} (hsettled : Settled csrs priv access vaddr ppn mmu) {other : BitVec 64}
    (hpage : other >>> 12 = vaddr >>> 12) (bus : Bus B S) :
    (translate csrs priv other access).run ⟨mmu, bus⟩ = .ok (physical ppn other) ⟨mmu, bus⟩ := by
  rw [Settled] at hsettled
  rw [translate]
  by_cases hpaging : paging csrs priv
  · rw [if_pos hpaging] at hsettled
    obtain ⟨pte, htlb, hperms⟩ := hsettled
    rw [if_neg (not_not_intro hpaging), Exec.run_read_bind, hpage, htlb]
    simp only [and_self, if_true, checkPerms_congr other hperms]
    rfl
  · rw [if_neg hpaging] at hsettled
    rw [if_pos hpaging, hsettled, ← hpage, physical_page]
    rfl

/-- A page lies in RAM as a whole. -/
theorem inRam_page {ppn vaddr : BitVec 64} (hram : Bus.inRam (physical ppn vaddr) 1) (i size : ℕ)
    (hfits : (vaddr &&& 0xFFF).toNat + i + size ≤ 4096) :
    Bus.inRam (physical ppn vaddr + BitVec.ofNat 64 i) size ∧
      (physical ppn vaddr + BitVec.ofNat 64 i).toNat = (physical ppn vaddr).toNat + i := by
  have hoffset := congrArg BitVec.toNat (physical_offset ppn vaddr)
  rw [toNat_and_offset] at hoffset
  obtain ⟨hbase, hend⟩ := Bus.inRam_iff.mp hram
  have hnat : (physical ppn vaddr + BitVec.ofNat 64 i).toNat = (physical ppn vaddr).toNat + i := by
    rw [BitVec.toNat_add, BitVec.toNat_ofNat]
    simp only [ramBase, ramSize] at hbase hend
    omega
  refine ⟨Bus.inRam_iff.mpr ?_, hnat⟩
  rw [hnat]
  simp only [InRam, ramBase, ramSize] at hbase hend ⊢
  omega

end Mmu

namespace Machine

variable {B S : Type}

/-! ## One byte after the other -/

/-- Byte `i` of a value. -/
def byteOf (value : BitVec 64) (i : ℕ) : Byte := (value >>> (8 * i)).setWidth 8

theorem bytesOf_byteOf (value : BitVec 64) (i : ℕ) :
    Bus.bytesOf 1 ((value >>> (8 * i)) &&& 0xFF) = [byteOf value i] := by
  have hbyte : BitVec.ofNat 8 ((value >>> (8 * i)) &&& 0xFF).toNat = byteOf value i := by
    rw [byteOf]
    apply BitVec.eq_of_toNat_eq
    rw [BitVec.toNat_ofNat, BitVec.toNat_and, BitVec.toNat_setWidth]
    exact congrArg (· % 2 ^ 8) (Nat.and_two_pow_sub_one_eq_mod _ 8) |>.trans (Nat.mod_mod _ _)
  rw [Bus.bytesOf, take_toBytes (by norm_num), toBytes, toBytes, hbyte]

/-- A byte that was loaded. -/
theorem byte_read (memory : Memory) (addr : ℕ) :
    (BitVec.ofNat 64 (ofBytes (memory.read addr 1))).setWidth 8 = memory addr := by
  simp [Memory.read, ofBytes]

theorem bytesOf_eq_map {size : ℕ} (hsize : size ≤ 8) (value : BitVec 64) :
    Bus.bytesOf size value = (List.range size).map (byteOf value) := by
  have hdigits (length : ℕ) : ∀ number : ℕ, toBytes length number =
      (List.range length).map fun i => BitVec.ofNat 8 (number / 256 ^ i) := by
    induction length with
    | zero => exact fun _ => rfl
    | succ length ih =>
        intro number
        rw [toBytes, ih, List.range_succ_eq_map, List.map_cons, List.map_map, pow_zero, Nat.div_one]
        congr 1
        apply List.map_congr_left
        intro i _
        rw [Function.comp_apply, pow_succ', Nat.div_div_eq_div_mul]
  rw [Bus.bytesOf, take_toBytes hsize, hdigits]
  apply List.map_congr_left
  intro i _
  rw [byteOf]
  apply BitVec.eq_of_toNat_eq
  rw [BitVec.toNat_ofNat, BitVec.toNat_setWidth, BitVec.toNat_ushiftRight,
    Nat.shiftRight_eq_div_pow, pow_mul]
  norm_num

section Reading

variable [MemBacking B]

/-- The bytes of a read, each read on its own, for the offsets that are left. -/
def readSingly (vaddr : BitVec 64) (access : Access) : List ℕ → MachineM B S (List Byte)
  | [] => pure []
  | i :: rest => do
      let byte ← readTranslated (vaddr + BitVec.ofNat 64 i) 1 access
      let bytes ← readSingly vaddr access rest
      pure (byte.setWidth 8 :: bytes)

/-- The read, one byte at a time. -/
def readBytewise (vaddr : BitVec 64) (size : ℕ) (access : Access) : MachineM B S (BitVec 64) := do
  let bytes ← readSingly vaddr access (List.range size)
  pure (BitVec.ofNat 64 (ofBytes bytes))

/-- The stores of the bytes of a write, each on its own, for the offsets that are left. -/
def writeSingly [ConsoleSink S] (vaddr value : BitVec 64) : List ℕ → MachineM B S PUnit
  | [] => pure ()
  | i :: rest => do
      writeTranslated (vaddr + BitVec.ofNat 64 i) 1 ((value >>> (8 * i)) &&& 0xFF)
      writeSingly vaddr value rest

/-- The write, one byte at a time. -/
def writeBytewise [ConsoleSink S] (vaddr : BitVec 64) (size : ℕ) (value : BitVec 64) :
    MachineM B S PUnit :=
  writeSingly vaddr value (List.range size)

/-- A byte stays in its page. -/
theorem fitsPage_byte (vaddr : BitVec 64) : fitsPage vaddr 1 := by
  rw [fitsPage, Mmu.toNat_and_offset, Proto.pageSize]
  omega

theorem readSingly_eq (vaddr : BitVec 64) (access : Access) (offsets : List ℕ) :
    (readSingly vaddr access offsets : MachineM B S _) = readEach vaddr access offsets := by
  induction offsets with
  | nil => rfl
  | cons i rest ih =>
      rw [readSingly, readEach, readTranslated, if_pos (fitsPage_byte _), bind_assoc, ih]

theorem writeSingly_eq [ConsoleSink S] (vaddr value : BitVec 64) (offsets : List ℕ) :
    (writeSingly vaddr value offsets : MachineM B S _) = writeEach vaddr value offsets := by
  induction offsets with
  | nil => rfl
  | cons i rest ih =>
      rw [writeSingly, writeEach, writeTranslated, if_pos (fitsPage_byte _), bind_assoc, ih]
      simp only [bind_assoc]

/-! ## The rest of a settled page -/

/-- Every address of the page is translated without a walk, to the page `ppn`. -/
def Settled (access : Access) (vaddr ppn : BitVec 64) (m : Machine B S) : Prop :=
  Mmu.Settled m.cpu.csrs m.cpu.priv access vaddr ppn m.cpu.mmu

theorem translate_settles (vaddr : BitVec 64) (access : Access) (m : Machine B S) :
    Exec.wp (translate vaddr access)
      (fun pa after => ∃ ppn, pa = Mmu.physical ppn vaddr ∧ after.Settled access vaddr ppn)
      (fun _ _ => True) True m := by
  rw [translate, Exec.wp_bind, Exec.wp_read, Exec.wp_bind, Exec.wp_update, Exec.wp_zoom]
  exact Mmu.translate_settles m.cpu.csrs m.cpu.priv vaddr access m.system

theorem Settled.translate_spec {access : Access} {vaddr ppn : BitVec 64} {m : Machine B S}
    (hsettled : m.Settled access vaddr ppn) {i : ℕ} (hi : (vaddr &&& 0xFFF).toNat + i < 4096) :
    Exec.wp (translate (vaddr + BitVec.ofNat 64 i) access)
      (fun pa after => pa = Mmu.physical ppn vaddr + BitVec.ofNat 64 i ∧ after.cpu = m.cpu ∧
        after.bus = m.bus)
      (fun _ _ => False) False m := by
  have hrun := Mmu.Settled.run hsettled (Mmu.page_add hi) m.bus
  rw [Mmu.physical_add ppn hi] at hrun
  rw [translate, Exec.wp_bind, Exec.wp_read, Exec.wp_bind, Exec.wp_update, Exec.wp_zoom]
  exact Exec.wp_of_run_ok hrun ⟨rfl, rfl, rfl⟩

end Reading

section SettledPage

variable [FlatBacking B] (hreliable : ¬ Fallible B) {vaddr ppn : BitVec 64}
  (hram : Bus.inRam (Mmu.physical ppn vaddr) 1)
include hreliable hram

theorem readEach_settled {access : Access} {offsets : List ℕ}
    (hoffsets : ∀ i ∈ offsets, (vaddr &&& 0xFFF).toNat + i < 4096) {memory : Memory}
    {m : Machine B S} (hm : Holds memory m.bus.cache) (hsettled : m.Settled access vaddr ppn) :
    Exec.wp (readEach vaddr access offsets)
      (fun bytes after =>
        bytes = offsets.map (fun i => memory ((Mmu.physical ppn vaddr).toNat + i)) ∧
          Holds memory after.bus.cache)
      (fun _ _ => False) False m := by
  induction offsets generalizing m with
  | nil => exact ⟨rfl, hm⟩
  | cons i rest ih =>
      have hi := hoffsets i (List.mem_cons_self ..)
      obtain ⟨hbyte, hnat⟩ := Mmu.inRam_page hram i 1 (by omega)
      rw [readEach, Exec.wp_bind]
      apply (hsettled.translate_spec hi).imp _ (fun _ _ hfalse => hfalse) (fun hfalse => hfalse)
      rintro _ middle ⟨rfl, hcpu, hbus⟩
      have hmiddle : Holds memory middle.bus.cache := hbus ▸ hm
      rw [Exec.wp_bind]
      apply (busLoad_ram hreliable hmiddle rfl hbyte access).imp _ (fun _ _ hfalse => hfalse)
        (fun hfalse => hfalse)
      rintro _ next ⟨rfl, hquiet, hsame⟩
      have hnext : next.Settled access vaddr ppn := by
        rw [Settled, hsame, hcpu]
        exact hsettled
      rw [Exec.wp_bind]
      apply (ih (fun j hj => hoffsets j (List.mem_cons_of_mem _ hj)) hquiet.holds hnext).imp _
        (fun _ _ hfalse => hfalse) (fun hfalse => hfalse)
      rintro _ after ⟨rfl, hafter⟩
      rw [Exec.wp_pure]
      refine ⟨?_, hafter⟩
      rw [List.map_cons, byte_read, hnat]

omit [FlatBacking B] hreliable hram in
theorem Settled.invalidateReservation {access : Access} {m : Machine B S}
    (hsettled : m.Settled access vaddr ppn) (addr : BitVec 64) (size : ℕ) :
    ({ m with cpu := m.cpu.invalidateReservation addr size } : Machine B S).Settled access vaddr
      ppn := by
  rw [Settled, Cpu.invalidateReservation]
  split
  · exact hsettled
  · split
    · exact hsettled
    · exact hsettled

theorem writeEach_settled [ConsoleSink S] (value : BitVec 64) {offsets : List ℕ}
    (hoffsets : ∀ i ∈ offsets, (vaddr &&& 0xFFF).toNat + i < 4096) {memory : Memory}
    {m : Machine B S} (hm : Holds memory m.bus.cache) (hsettled : m.Settled .store vaddr ppn) :
    Exec.wp (writeEach vaddr value offsets)
      (fun _ after => Holds (memory.scatter
        (offsets.map fun i => ((Mmu.physical ppn vaddr).toNat + i, byteOf value i)))
          after.bus.cache)
      (fun _ _ => False) False m := by
  induction offsets generalizing memory m with
  | nil => exact hm
  | cons i rest ih =>
      have hi := hoffsets i (List.mem_cons_self ..)
      obtain ⟨hbyte, hnat⟩ := Mmu.inRam_page hram i 1 (by omega)
      rw [writeEach, Exec.wp_bind]
      apply (hsettled.translate_spec hi).imp _ (fun _ _ hfalse => hfalse) (fun hfalse => hfalse)
      rintro _ middle ⟨rfl, hcpu, hbus⟩
      have hmiddle : Holds memory middle.bus.cache := hbus ▸ hm
      rw [Exec.wp_bind]
      apply (busStore_ram hreliable hmiddle rfl hbyte _).imp _ (fun _ _ hfalse => hfalse)
        (fun hfalse => hfalse)
      rintro _ next ⟨hstored, -, hsame⟩
      have hnext : next.Settled .store vaddr ppn := by
        rw [Settled, hsame, hcpu]
        exact hsettled
      rw [bytesOf_byteOf, hnat] at hstored
      rw [Exec.wp_bind, onCpu, Exec.wp_update, List.map_cons]
      exact ih (fun j hj => hoffsets j (List.mem_cons_of_mem _ hj)) hstored
        (hnext.invalidateReservation ..)

end SettledPage

/-! ## Both ways -/

/-- Where the bytes of an access lie if each is translated on its own, in order and as far
as that succeeds, and the fault that ends it. -/
def mapping [MemBacking B] (vaddr : BitVec 64) (access : Access) :
    List ℕ → Machine B S → List (BitVec 64) × Option Exception
  | [], _ => ([], none)
  | i :: rest, m =>
      match (translate (vaddr + BitVec.ofNat 64 i) access).run m with
      | .ok pa after =>
          (pa :: (mapping vaddr access rest after).1, (mapping vaddr access rest after).2)
      | .error err _ => ([], some err)
      | .panic => ([], none)

/-- Each byte of an access is mapped to RAM or faults in translation. -/
def MapsToRam [MemBacking B] (m : Machine B S) (vaddr : BitVec 64) (size : ℕ)
    (access : Access) : Prop :=
  ∀ pa ∈ (mapping vaddr access (List.range size) m).1, Bus.inRam pa 1

/-- The same contents of RAM. -/
def SameContents [FlatBacking B] (m m' : Machine B S) : Prop := m.bus.cache.Matches m'.bus.cache

section Both

variable [FlatBacking B] (hreliable : ¬ Fallible B) {memory : Memory} {m : Machine B S}
  (hm : Holds memory m.bus.cache)
include hreliable hm

omit hreliable in
/-- A run and itself. -/
theorem alike_self {Value : Type} {program : MachineM B S Value}
    (hprogram : Exec.Alike Matches program program) :
    (program.run m).Alike SameContents (program.run m) :=
  (hprogram m m ⟨rfl, ⟨memory, hm, hm⟩, rfl, rfl⟩).imp fun _ _ hafter => hafter.bus.ram

omit hreliable hm in
/-- The bytes behind the first are in its page too. -/
theorem later_offsets {vaddr : BitVec 64} {rest : ℕ} (hfits : fitsPage vaddr (rest + 1)) :
    ∀ i ∈ (List.range rest).map Nat.succ, (vaddr &&& 0xFFF).toNat + i < 4096 := by
  have hend : (vaddr &&& 0xFFF).toNat + (rest + 1) ≤ 4096 := hfits
  intro i hi
  obtain ⟨j, hj, rfl⟩ := List.mem_map.mp hi
  rw [List.mem_range] at hj
  omega

/-- **A read comes to what its bytes come to**, read one at a time. -/
theorem readTranslated_bytewise {vaddr : BitVec 64} {size : ℕ} (hsize : size ∈ [1, 2, 4, 8])
    {access : Access} (hmapped : m.MapsToRam vaddr size access) :
    ((readTranslated vaddr size access).run m).Alike SameContents
      ((readBytewise vaddr size access).run m) := by
  have hself := alike_self hm (readTranslated_alike hreliable hreliable vaddr size access)
  by_cases hfits : fitsPage vaddr size
  swap
  · rw [readTranslated, if_neg hfits] at hself ⊢
    rw [readBytewise, readSingly_eq]
    exact hself
  have hwidth := widthOf_isSome hsize
  obtain ⟨rest, rfl⟩ : ∃ rest, size = rest + 1 :=
    Nat.exists_eq_succ_of_ne_zero (by rintro rfl; simp at hsize)
  rw [readTranslated, if_pos hfits, readBytewise, readSingly_eq, List.range_succ_eq_map, readEach,
    BitVec.add_zero, bind_assoc]
  apply Exec.Alike.of_same_beginning
  apply ((translate_settles vaddr access m).and (translate_spec hm vaddr access)).attach.imp
  · rintro _ middle ⟨hrun, ⟨ppn, rfl, hsettled⟩, -, hquiet⟩
    have hram : Bus.inRam (Mmu.physical ppn vaddr) 1 := hmapped _ (by
      rw [List.range_succ_eq_map, mapping, BitVec.add_zero, hrun]
      exact List.mem_cons_self ..)
    have hoffsets : ∀ i ∈ (List.range rest).map Nat.succ, (vaddr &&& 0xFFF).toNat + i < 4096 :=
      later_offsets hfits
    obtain ⟨hwhole, -⟩ := Mmu.inRam_page hram 0 (rest + 1) hfits
    rw [BitVec.add_zero] at hwhole
    obtain ⟨_, after, hfast, rfl, hafter, -⟩ :=
      (busLoad_ram hreliable hquiet.holds hwidth hwhole access).exists_ok
    obtain ⟨_, first, hfirst, rfl, hheld, hcpu⟩ :=
      (busLoad_ram hreliable hquiet.holds rfl hram access).exists_ok
    have hfirstSettled : first.Settled access vaddr ppn := by
      rw [Settled, hcpu]
      exact hsettled
    obtain ⟨_, last, hlast, rfl, hlastHolds⟩ :=
      (readEach_settled hreliable hram hoffsets hheld.holds hfirstSettled).exists_ok
    rw [hfast, bind_assoc, Exec.run_bind_ok hfirst, bind_assoc, Exec.run_bind_ok hlast, byte_read,
      Memory.read, List.range_succ_eq_map]
    exact .ok ⟨memory, hafter.holds, hlastHolds⟩
  · exact fun _ after hafter => ⟨memory, hafter.2.2.2.holds, hafter.2.2.2.holds⟩
  · exact fun hpanics => hpanics.2

/-- **A write comes to what its bytes come to**, written one at a time. -/
theorem writeTranslated_bytewise [ConsoleSink S] {vaddr : BitVec 64} {size : ℕ}
    (hsize : size ∈ [1, 2, 4, 8]) (value : BitVec 64) (hmapped : m.MapsToRam vaddr size .store) :
    ((writeTranslated vaddr size value).run m).Alike SameContents
      ((writeBytewise vaddr size value).run m) := by
  have hself := alike_self hm (writeTranslated_alike hreliable hreliable vaddr size value)
  by_cases hfits : fitsPage vaddr size
  swap
  · rw [writeTranslated, if_neg hfits] at hself ⊢
    rw [writeBytewise, writeSingly_eq]
    exact hself
  have hle : size ≤ 8 := by
    simp only [List.mem_cons, List.not_mem_nil, or_false] at hsize
    omega
  have hwidth := widthOf_isSome hsize
  obtain ⟨rest, rfl⟩ : ∃ rest, size = rest + 1 :=
    Nat.exists_eq_succ_of_ne_zero (by rintro rfl; simp at hsize)
  rw [writeTranslated, if_pos hfits, writeBytewise, writeSingly_eq, List.range_succ_eq_map,
    writeEach, BitVec.add_zero]
  apply Exec.Alike.of_same_beginning
  apply ((translate_settles vaddr .store m).and (translate_spec hm vaddr .store)).attach.imp
  · rintro _ middle ⟨hrun, ⟨ppn, rfl, hsettled⟩, -, hquiet⟩
    have hram : Bus.inRam (Mmu.physical ppn vaddr) 1 := hmapped _ (by
      rw [List.range_succ_eq_map, mapping, BitVec.add_zero, hrun]
      exact List.mem_cons_self ..)
    obtain ⟨hwhole, -⟩ := Mmu.inRam_page hram 0 (rest + 1) hfits
    rw [BitVec.add_zero] at hwhole
    obtain ⟨_, after, hfast, hafter, -⟩ :=
      (busStore_ram hreliable hquiet.holds hwidth hwhole value).exists_ok
    obtain ⟨_, first, hfirst, hheld, -, hcpu⟩ :=
      (busStore_ram hreliable hquiet.holds rfl hram ((value >>> (8 * 0)) &&& 0xFF)).exists_ok
    have hfirstSettled : first.Settled .store vaddr ppn := by
      rw [Settled, hcpu]
      exact hsettled
    have hoffsets : ∀ i ∈ (List.range rest).map Nat.succ, (vaddr &&& 0xFFF).toNat + i < 4096 :=
      later_offsets hfits
    obtain ⟨_, last, hlast, hlastHolds⟩ :=
      (writeEach_settled hreliable hram value hoffsets (m := { first with
        cpu := first.cpu.invalidateReservation (Mmu.physical ppn vaddr) 1 }) hheld
        (hfirstSettled.invalidateReservation ..)).exists_ok
    have hbroken : (onCpu (·.invalidateReservation (Mmu.physical ppn vaddr) 1) :
        MachineM B S PUnit).run first = .ok () { first with
          cpu := first.cpu.invalidateReservation (Mmu.physical ppn vaddr) 1 } := rfl
    rw [Exec.run_bind_ok hfast, Exec.run_bind_ok hfirst, Exec.run_bind_ok hbroken, hlast]
    rw [bytesOf_byteOf] at hlastHolds
    rw [bytesOf_eq_map hle, ← Memory.scatter_range, List.range_succ_eq_map] at hafter
    exact .ok ⟨_, hafter, hlastHolds⟩
  · exact fun _ after hafter => ⟨memory, hafter.2.2.2.holds, hafter.2.2.2.holds⟩
  · exact fun hpanics => hpanics.2

end Both

end Machine

end Baonix.Core

import Baonix.Core.FaultAddress

/-!
# Address-space isolation

What a process reads and writes in RAM lies where its own addresses are mapped.
Loads and stores look every page up.  The atomics look one page up and take the
rest of the access to lie behind it.
-/

namespace Baonix.Core

open LittleEndian (Byte)
open Exec (Keeps Preserving)
open PageCache (Holds)

namespace Mmu

/-! ## One page -/

theorem and_offset_add {addr : BitVec 64} {i : ℕ} (hi : (addr &&& 0xFFF).toNat + i < 4096) :
    (addr + BitVec.ofNat 64 i) &&& 0xFFF = (addr &&& 0xFFF) + BitVec.ofNat 64 i := by
  apply BitVec.eq_of_toNat_eq
  rw [toNat_and_offset] at hi ⊢
  rw [BitVec.toNat_add, BitVec.toNat_add, toNat_and_offset, BitVec.toNat_ofNat]
  omega

theorem page_add {addr : BitVec 64} {i : ℕ} (hi : (addr &&& 0xFFF).toNat + i < 4096) :
    (addr + BitVec.ofNat 64 i) >>> 12 = addr >>> 12 := by
  apply BitVec.eq_of_toNat_eq
  rw [toNat_and_offset] at hi
  have haddr := addr.isLt
  rw [BitVec.toNat_ushiftRight, BitVec.toNat_ushiftRight, BitVec.toNat_add, BitVec.toNat_ofNat,
    Nat.shiftRight_eq_div_pow, Nat.shiftRight_eq_div_pow]
  omega

theorem physical_eq_add (ppn vaddr : BitVec 64) :
    physical ppn vaddr = ppn <<< 12 + (vaddr &&& 0xFFF) := by
  have hdisjoint : ppn <<< 12 &&& (vaddr &&& 0xFFF) = 0 := by
    have hmask : (0xFFF : BitVec 64) = Bits.mask 64 12 := by decide
    rw [hmask]
    apply BitVec.eq_of_getLsbD_eq
    intro j hj
    simp only [BitVec.getLsbD_and, BitVec.getLsbD_shiftLeft, Bits.getLsbD_mask 12 hj]
    by_cases hlow : j < 12
    · simp [hlow]
    · simp [hlow]
  exact (BitVec.add_eq_or_of_and_eq_zero _ _ hdisjoint).symm

/-- Bytes of one page lie side by side. -/
theorem physical_add (ppn : BitVec 64) {vaddr : BitVec 64} {i : ℕ}
    (hi : (vaddr &&& 0xFFF).toNat + i < 4096) :
    physical ppn (vaddr + BitVec.ofNat 64 i) = physical ppn vaddr + BitVec.ofNat 64 i :=
  calc
    physical ppn (vaddr + BitVec.ofNat 64 i) =
        ppn <<< 12 + ((vaddr &&& 0xFFF) + BitVec.ofNat 64 i) := by
      rw [physical_eq_add, and_offset_add hi]
    _ = physical ppn vaddr + BitVec.ofNat 64 i := by rw [physical_eq_add, BitVec.add_assoc]

variable {B S : Type} [MemBacking B]

theorem checkPerms_congr {pte : BitVec 64} {priv : Priv} {access : Access} {vaddr : BitVec 64}
    (other : BitVec 64) (hperms : checkPerms pte priv access vaddr = .ok ()) :
    checkPerms pte priv access other = .ok () := by
  unfold checkPerms at hperms ⊢
  split_ifs at hperms ⊢
  rfl

theorem loadPte_congr {access : Access} {vaddr addr pte : BitVec 64} {system after : MemSystem B S}
    (other : BitVec 64) (hload : (loadPte access vaddr addr).run system = .ok pte after) :
    (loadPte access other addr).run system = .ok pte after := by
  simp only [Exec.run, loadPte, Exec.zoom] at hload ⊢
  cases hbus : Bus.load addr 8 system.bus with
  | ok word bus =>
      rw [hbus] at hload
      exact hload
  | error err bus => rw [hbus] at hload; cases hload
  | panic => rw [hbus] at hload; cases hload

/-- A walk for another address of the page ends on the same page. -/
theorem walk_congr {vaddr other : BitVec 64} (hpage : vaddr >>> 12 = other >>> 12) (priv : Priv)
    (access : Access) (levels : List Level) (table : BitVec 64) (system : MemSystem B S) :
    Exec.wp (walk priv access vaddr levels table)
      (fun pa _ => ∃ ppn after, pa = physical ppn vaddr ∧
        (walk priv access other levels table).run system = .ok (physical ppn other) after)
      (fun _ _ => True) True system := by
  induction levels generalizing table system with
  | nil => trivial
  | cons level levels ih =>
      rw [walk, Exec.wp_bind]
      apply (Exec.wp_any _ system).attach.imp _ (fun _ _ _ => trivial) (fun _ => trivial)
      rintro pte middle ⟨hload, -⟩
      have hother := loadPte_congr other hload
      rw [index_congr hpage] at hother
      simp only [walk, Exec.run_bind_ok hother]
      by_cases hvalid : pte &&& 1 = 0
      · simp only [if_pos hvalid]
        trivial
      simp only [if_neg hvalid]
      by_cases hleaf : isLeaf pte
      · simp only [if_pos hleaf]
        rw [Exec.wp_bind, Exec.wp_ofExcept]
        refine ⟨?_, fun _ _ => trivial⟩
        intro _ hperms
        have hothers : (Exec.ofExcept (checkPerms pte priv access other) :
            Exec Exception (MemSystem B S) Unit).run middle = .ok () middle := by
          rw [checkPerms_congr other hperms]
          rfl
        simp only [Exec.run_bind_ok hothers]
        by_cases haligned : ppnOf pte &&& superpageMask level ≠ 0
        · simp only [if_pos haligned]
          trivial
        · simp only [if_neg haligned]
          rw [Exec.wp_bind, Exec.wp_update, Exec.wp_pure, splice_congr hpage]
          exact ⟨_, _, rfl, rfl⟩
      · simp only [if_neg hleaf]
        exact ih _ middle

/-- `translate` yields the address. -/
def Yields (csrs : Csrs) (priv : Priv) (system : MemSystem B S) (vaddr : BitVec 64)
    (access : Access) (pa : BitVec 64) : Prop :=
  ∃ after, (translate csrs priv vaddr access).run system = .ok pa after

theorem Yields.unique {csrs : Csrs} {priv : Priv} {system : MemSystem B S} {vaddr pa other : BitVec 64}
    {access : Access} (hyields : Yields csrs priv system vaddr access pa)
    (hother : Yields csrs priv system vaddr access other) : pa = other := by
  obtain ⟨after, hrun⟩ := hyields
  obtain ⟨after', hrun'⟩ := hother
  rw [hrun] at hrun'
  cases hrun'
  rfl

/-- A page is translated as a whole. -/
theorem Yields.within {csrs : Csrs} {priv : Priv} {system : MemSystem B S} {vaddr pa : BitVec 64}
    {access : Access} (hyields : Yields csrs priv system vaddr access pa) {i : ℕ}
    (hi : (vaddr &&& 0xFFF).toNat + i < 4096) :
    Yields csrs priv system (vaddr + BitVec.ofNat 64 i) access (pa + BitVec.ofNat 64 i) := by
  obtain ⟨after, hrun⟩ := hyields
  have hpage := page_add hi
  have hwp : Exec.wp (translate csrs priv vaddr access)
      (fun pa _ => Yields csrs priv system (vaddr + BitVec.ofNat 64 i) access
        (pa + BitVec.ofNat 64 i)) (fun _ _ => True) True system := by
    simp only [Yields, translate]
    by_cases hpaging : ¬ paging csrs priv
    · simp only [if_pos hpaging]
      exact ⟨_, rfl⟩
    simp only [if_neg hpaging, Exec.run_read_bind, hpage]
    rw [Exec.wp_bind, Exec.wp_read]
    by_cases hhit : (system.mmu.tlb (slot (vaddr >>> 12))).valid ∧
        (system.mmu.tlb (slot (vaddr >>> 12))).vpn = vaddr >>> 12
    · simp only [if_pos hhit]
      rw [Exec.wp_bind, Exec.wp_ofExcept]
      refine ⟨?_, fun _ _ => trivial⟩
      intro _ hperms
      rw [Exec.wp_pure, checkPerms_congr (vaddr + BitVec.ofNat 64 i) hperms, ← physical_add _ hi]
      exact ⟨_, rfl⟩
    · simp only [if_neg hhit]
      rw [Exec.wp_bind, Exec.wp_update]
      apply (walk_congr hpage.symm priv access _ _ _).imp _ (fun _ _ _ => trivial)
        (fun _ => trivial)
      rintro pa _ ⟨ppn, other, rfl, hother⟩
      refine ⟨other, ?_⟩
      rw [← physical_add ppn hi]
      exact hother
  exact hwp.of_run_ok hrun

end Mmu

namespace Machine

variable {B S : Type}

/-! ## What is issued -/

/-- Only such accesses are issued on the way. -/
def OnlyIssues (allowed : BusAccess B S → Prop) (start after : Machine B S) : Prop :=
  ∃ new, after.trace.accesses = new ++ start.trace.accesses ∧ ∀ issued ∈ new, allowed issued

theorem onlyIssues_of_eq {allowed : BusAccess B S → Prop} {start after : Machine B S}
    (hsame : after.trace.accesses = start.trace.accesses) : OnlyIssues allowed start after :=
  ⟨[], hsame, fun _ hissued => nomatch hissued⟩

instance (allowed : BusAccess B S → Prop) : IsPreorder (Machine B S) (OnlyIssues allowed) where
  refl _ := onlyIssues_of_eq rfl
  trans := by
    rintro start middle after ⟨first, hfirst, hallowed⟩ ⟨last, hlast, hallowed'⟩
    refine ⟨last ++ first, by rw [hlast, hfirst, List.append_assoc], ?_⟩
    intro issued hissued
    rcases List.mem_append.mp hissued with hlater | hearlier
    · exact hallowed' issued hlater
    · exact hallowed issued hearlier

/-- The access is issued, under the translation made last. -/
def Adds (kind : Access) (addr : BitVec 64) (size : ℕ) (start after : Machine B S) : Prop :=
  after.trace.accesses =
      ⟨kind, addr, size, TlbEvent.latest start.trace.events⟩ :: start.trace.accesses ∧
    after.trace.events = start.trace.events

section Issues

variable [MemBacking B]

theorem busLoad_adds (kind : Access) (addr : BitVec 64) (size : ℕ) (m : Machine B S) :
    Exec.wp (busLoad kind addr size) (fun _ after => Adds kind addr size m after)
      (fun _ after => Adds kind addr size m after) True m := by
  rw [busLoad, Exec.wp_bind, Exec.wp_update, Exec.wp_zoom]
  exact (Exec.wp_any _ _).imp (fun _ _ _ => ⟨rfl, rfl⟩) (fun _ _ _ => ⟨rfl, rfl⟩) (fun _ => trivial)

theorem busStore_adds [ConsoleSink S] (addr : BitVec 64) (size : ℕ) (value : BitVec 64)
    (m : Machine B S) :
    Exec.wp (busStore addr size value) (fun _ after => Adds .store addr size m after)
      (fun _ after => Adds .store addr size m after) True m := by
  rw [busStore, Exec.wp_bind, Exec.wp_update, Exec.wp_zoom]
  exact (Exec.wp_any _ _).imp (fun _ _ _ => ⟨rfl, rfl⟩) (fun _ _ _ => ⟨rfl, rfl⟩) (fun _ => trivial)

/-- What `translate` yields in this state. -/
def Yields (m : Machine B S) (vaddr : BitVec 64) (access : Access) (pa : BitVec 64) : Prop :=
  Mmu.Yields m.cpu.csrs m.cpu.priv m.system vaddr access pa

/-- The translation made in this state. -/
def translation (m : Machine B S) (vaddr : BitVec 64) (access : Access) : Translation B S :=
  ⟨m.system, m.cpu.csrs, m.cpu.priv, vaddr, access⟩

theorem translate_latest (vaddr : BitVec 64) (access : Access) (m : Machine B S) :
    Exec.wp (translate vaddr access)
      (fun pa after => m.Yields vaddr access pa ∧
        after.trace.accesses = m.trace.accesses ∧
        TlbEvent.latest after.trace.events = some (m.translation vaddr access) ∧
        after.cpu.reservation = m.cpu.reservation)
      (fun _ after => after.trace.accesses = m.trace.accesses ∧
        ∀ pa, ¬ m.Yields vaddr access pa) True m := by
  rw [translate, Exec.wp_bind, Exec.wp_read, Exec.wp_bind, Exec.wp_update, Exec.wp_zoom]
  apply (Exec.wp_any (Mmu.translate m.cpu.csrs m.cpu.priv vaddr access) m.system).attach.imp
  · exact fun pa after hrun => ⟨⟨after, hrun.1⟩, rfl, rfl, rfl⟩
  · rintro err after ⟨hrun, -⟩
    refine ⟨rfl, ?_⟩
    rintro pa ⟨other, hother⟩
    have hsame := hrun.symm.trans hother
    cases hsame
  · exact fun _ => trivial

/-! ## Loads and stores -/

/-- Each byte lies where, at the time, a byte of the range is translated to. -/
def Justified (access : DataAccess) (issued : BusAccess B S) : Prop :=
  ∃ t, issued.under = some t ∧ ∀ k < issued.size, ∃ i < access.size,
    Mmu.Yields t.csrs t.priv t.system (access.vaddr + BitVec.ofNat 64 i) access.kind
      (issued.addr + BitVec.ofNat 64 k)

/-- Part of the range, in one page, is accessed at the address translated. -/
structure Aimed (access : DataAccess) (first size : ℕ) (pa : BitVec 64) (m : Machine B S) :
    Prop where
  range : first + size ≤ access.size
  fits : ((access.vaddr + BitVec.ofNat 64 first) &&& 0xFFF).toNat + size ≤ 4096
  under : ∃ t, TlbEvent.latest m.trace.events = some t ∧
    Mmu.Yields t.csrs t.priv t.system (access.vaddr + BitVec.ofNat 64 first) access.kind pa

theorem Aimed.adds {access : DataAccess} {first size : ℕ} {pa : BitVec 64} {m after : Machine B S}
    (haimed : Aimed access first size pa m) {kind : Access} (hadds : Adds kind pa size m after) :
    OnlyIssues (Justified access) m after := by
  obtain ⟨t, ht, hyields⟩ := haimed.under
  refine ⟨[_], hadds.1, ?_⟩
  intro issued hissued
  rw [List.mem_singleton.mp hissued]
  refine ⟨t, ht, ?_⟩
  intro k hk
  have hrange := haimed.range
  have hfits := haimed.fits
  have hk' : k < size := hk
  refine ⟨first + k, by omega, ?_⟩
  have hsplit : access.vaddr + BitVec.ofNat 64 (first + k) =
      access.vaddr + BitVec.ofNat 64 first + BitVec.ofNat 64 k := by
    rw [BitVec.ofNat_add, BitVec.add_assoc]
  rw [hsplit]
  exact hyields.within (by omega)

theorem aimed_whole {access : DataAccess} (hfits : fitsPage access.vaddr access.size)
    {pa : BitVec 64} {start m : Machine B S} (hyields : start.Yields access.vaddr access.kind pa)
    (hlatest : TlbEvent.latest m.trace.events =
      some (start.translation access.vaddr access.kind)) : Aimed access 0 access.size pa m := by
  have hzero : access.vaddr + BitVec.ofNat 64 0 = access.vaddr := BitVec.add_zero _
  refine ⟨by omega, ?_, _, hlatest, ?_⟩
  · rw [hzero]
    exact hfits
  · rw [hzero]
    exact hyields

theorem aimed_byte {access : DataAccess} {i : ℕ} (hi : i < access.size) {pa : BitVec 64}
    {start m : Machine B S}
    (hyields : start.Yields (access.vaddr + BitVec.ofNat 64 i) access.kind pa)
    (hlatest : TlbEvent.latest m.trace.events =
      some (start.translation (access.vaddr + BitVec.ofNat 64 i) access.kind)) :
    Aimed access i 1 pa m := by
  refine ⟨hi, ?_, _, hlatest, hyields⟩
  rw [Mmu.toNat_and_offset]
  omega

theorem readEach_justified {access : DataAccess} {offsets : List ℕ}
    (hoffsets : ∀ i ∈ offsets, i < access.size) :
    Keeps (OnlyIssues (Justified access))
      (readEach access.vaddr access.kind offsets : MachineM B S (List Byte)) := by
  induction offsets with
  | nil => exact .pure _
  | cons i rest ih =>
      intro m
      have hrest : Keeps (OnlyIssues (Justified access))
          (readEach access.vaddr access.kind rest : MachineM B S (List Byte)) :=
        ih fun j hj => hoffsets j (List.mem_cons_of_mem _ hj)
      rw [readEach, Exec.wp_bind]
      apply (translate_latest _ _ m).imp
      · rintro pa middle ⟨hyields, hsame, hlatest, -⟩
        have haimed := aimed_byte (hoffsets i (List.mem_cons_self ..)) hyields hlatest
        rw [Exec.wp_bind]
        apply (busLoad_adds _ pa 1 middle).imp
        · intro byte next hadds
          have hnext := trans_of _ (onlyIssues_of_eq hsame) (haimed.adds hadds)
          exact (hrest.bind fun _ => .pure _).wp_from hnext
        · exact fun _ next hadds => trans_of _ (onlyIssues_of_eq hsame) (haimed.adds hadds)
        · exact fun hpanics => hpanics
      · exact fun _ after hafter => onlyIssues_of_eq hafter.1
      · exact fun hpanics => hpanics

theorem readTranslated_justified (access : DataAccess) :
    Keeps (OnlyIssues (Justified access))
      (readTranslated access.vaddr access.size access.kind : MachineM B S (BitVec 64)) := by
  rw [readTranslated]
  split
  · next hfits =>
    intro m
    rw [Exec.wp_bind]
    apply (translate_latest _ _ m).imp
    · rintro pa middle ⟨hyields, hsame, hlatest, -⟩
      have haimed := aimed_whole hfits hyields hlatest
      exact (busLoad_adds _ pa _ middle).imp
        (fun _ _ hadds => trans_of _ (onlyIssues_of_eq hsame) (haimed.adds hadds))
        (fun _ _ hadds => trans_of _ (onlyIssues_of_eq hsame) (haimed.adds hadds))
        (fun hpanics => hpanics)
    · exact fun _ after hafter => onlyIssues_of_eq hafter.1
    · exact fun hpanics => hpanics
  · exact .bind (readEach_justified fun i hi => List.mem_range.mp hi) fun _ => .pure _

variable [ConsoleSink S]

omit [MemBacking B] [ConsoleSink S] in
theorem invalidate_keepsIssued (allowed : BusAccess B S → Prop) (addr : BitVec 64) (size : ℕ) :
    Keeps (OnlyIssues allowed)
      (onCpu (·.invalidateReservation addr size) : MachineM B S PUnit) :=
  .update fun _ => onlyIssues_of_eq rfl

theorem writeEach_justified {vaddr : BitVec 64} {size : ℕ} (value : BitVec 64)
    {offsets : List ℕ} (hoffsets : ∀ i ∈ offsets, i < size) :
    Keeps (OnlyIssues (Justified ⟨vaddr, size, .store⟩))
      (writeEach vaddr value offsets : MachineM B S PUnit) := by
  induction offsets with
  | nil => exact .pure _
  | cons i rest ih =>
      intro m
      have hrest : Keeps (OnlyIssues (Justified ⟨vaddr, size, .store⟩))
          (writeEach vaddr value rest : MachineM B S PUnit) :=
        ih fun j hj => hoffsets j (List.mem_cons_of_mem _ hj)
      rw [writeEach, Exec.wp_bind]
      apply (translate_latest _ _ m).imp
      · rintro pa middle ⟨hyields, hsame, hlatest, -⟩
        have haimed : Aimed ⟨vaddr, size, .store⟩ i 1 pa middle :=
          aimed_byte (hoffsets i (List.mem_cons_self ..)) hyields hlatest
        rw [Exec.wp_bind]
        apply (busStore_adds pa 1 _ middle).imp
        · intro _ next hadds
          have hnext := trans_of _ (onlyIssues_of_eq hsame) (haimed.adds hadds)
          exact ((invalidate_keepsIssued _ _ _).bind fun _ => hrest).wp_from hnext
        · exact fun _ next hadds => trans_of _ (onlyIssues_of_eq hsame) (haimed.adds hadds)
        · exact fun hpanics => hpanics
      · exact fun _ after hafter => onlyIssues_of_eq hafter.1
      · exact fun hpanics => hpanics

theorem writeTranslated_justified (vaddr : BitVec 64) (size : ℕ) (value : BitVec 64) :
    Keeps (OnlyIssues (Justified ⟨vaddr, size, .store⟩))
      (writeTranslated vaddr size value : MachineM B S PUnit) := by
  rw [writeTranslated]
  split
  · next hfits =>
    intro m
    rw [Exec.wp_bind]
    apply (translate_latest _ _ m).imp
    · rintro pa middle ⟨hyields, hsame, hlatest, -⟩
      have haimed : Aimed ⟨vaddr, size, .store⟩ 0 size pa middle :=
        aimed_whole hfits hyields hlatest
      rw [Exec.wp_bind]
      apply (busStore_adds pa size _ middle).imp
      · exact fun _ next hadds => (invalidate_keepsIssued _ _ _).wp_from
          (trans_of _ (onlyIssues_of_eq hsame) (haimed.adds hadds))
      · exact fun _ next hadds => trans_of _ (onlyIssues_of_eq hsame) (haimed.adds hadds)
      · exact fun hpanics => hpanics
    · exact fun _ after hafter => onlyIssues_of_eq hafter.1
    · exact fun hpanics => hpanics
  · exact writeEach_justified value fun i hi => List.mem_range.mp hi

/-! ## Atomics -/

/-- The accesses of an atomic, all of the range behind one translation. -/
def AtomicIssued (insn : Insn) (size : ℕ) (start after : Machine B S) : Prop :=
  ∃ new, after.trace.accesses = new ++ start.trace.accesses ∧
    (∀ issued ∈ new, issued.kind ≠ .fetch ∧ issued.size = size ∧
      issued.under = some (start.translation (start.cpu.reg (Insn.rs1 insn)) .store) ∧
      start.Yields (start.cpu.reg (Insn.rs1 insn)) .store issued.addr ∧
      Issues insn start issued.addr) ∧
    ∀ pa, start.Yields (start.cpu.reg (Insn.rs1 insn)) .store pa → Issues insn start pa →
      ∃ issued ∈ new, issued.addr = pa

/-- What an atomic does once it has its address: it issues its accesses there, or
is an SC without its reservation. -/
def PerformIssued (insn : Insn) (pa : BitVec 64) (size : ℕ) (m after : Machine B S) : Prop :=
  ∃ new, after.trace.accesses = new ++ m.trace.accesses ∧
    (∀ issued ∈ new, issued.kind ≠ .fetch ∧ issued.size = size ∧
      issued.under = TlbEvent.latest m.trace.events ∧ issued.addr = pa) ∧
    (new ≠ [] ↔ Issues insn m pa)

omit [MemBacking B] [ConsoleSink S] in
theorem performIssued_one {insn : Insn} {pa : BitVec 64} {size : ℕ} {m : Machine B S}
    (hissues : Issues insn m pa) {kind : Access} (hkind : kind ≠ .fetch)
    {start after : Machine B S} (hstart : start.trace = m.trace)
    (hadds : Adds kind pa size start after) : PerformIssued insn pa size m after := by
  rw [Adds, hstart] at hadds
  refine ⟨[_], hadds.1, ?_, iff_of_true (List.cons_ne_nil _ _) hissues⟩
  intro issued hissued
  rw [List.mem_singleton.mp hissued]
  exact ⟨hkind, rfl, rfl, rfl⟩

theorem perform_issued {insn : Insn} (hopcode : Insn.opcode insn = 0x2F) (pa src : BitVec 64)
    (size : ℕ) (m : Machine B S) :
    Exec.wp (Rv64a.perform insn pa src size) (fun _ after => PerformIssued insn pa size m after)
      (fun _ after => PerformIssued insn pa size m after) True m := by
  have hloads : Access.load ≠ .fetch := by decide
  have hstores : Access.store ≠ .fetch := by decide
  rw [Rv64a.perform, Exec.wp_ite]
  split
  · next hlr =>
    have hissues : Issues insn m pa := by
      intro _ hsc
      rw [hlr] at hsc
      exact absurd hsc (by decide)
    rw [Rv64a.loadReserved, Exec.wp_bind]
    exact (busLoad_adds .load pa size m).imp
      (fun _ _ hadds => performIssued_one hissues hloads rfl hadds)
      (fun _ _ hadds => performIssued_one hissues hloads rfl hadds) (fun hpanics => hpanics)
  rw [Exec.wp_ite]
  split
  · next hsc =>
    rw [Rv64a.storeConditional, Exec.wp_bind, Exec.wp_read, Exec.wp_bind, onCpu,
      Exec.wp_update, Exec.wp_ite]
    split
    · next hreserved =>
      have hissues : Issues insn m pa := fun _ _ => hreserved
      rw [Exec.wp_bind]
      exact (busStore_adds pa size src _).imp
        (fun _ _ hadds => performIssued_one hissues hstores rfl hadds)
        (fun _ _ hadds => performIssued_one hissues hstores rfl hadds) (fun hpanics => hpanics)
    · next hnot =>
      have hidle : ¬ Issues insn m pa := fun hissues => hnot (hissues hopcode hsc)
      exact ⟨[], rfl, List.forall_mem_nil _, iff_of_false (not_not_intro rfl) hidle⟩
  · next hnotSc =>
    have hissues : Issues insn m pa := fun _ hsc => absurd hsc hnotSc
    rw [Rv64a.readModifyWrite, Exec.wp_bind]
    apply (busLoad_adds .load pa size m).imp
    · intro old next hload
      have hboth {after : Machine B S} (hstore : Adds .store pa size next after) :
          PerformIssued insn pa size m after := by
        rw [Adds, hload.1, hload.2] at hstore
        refine ⟨[_, _], hstore.1, ?_, iff_of_true (List.cons_ne_nil _ _) hissues⟩
        intro issued hissued
        rcases List.mem_pair.mp hissued with rfl | rfl
        · exact ⟨hstores, rfl, rfl, rfl⟩
        · exact ⟨hloads, rfl, rfl, rfl⟩
      split
      · exact performIssued_one hissues hloads rfl hload
      · rw [Exec.wp_bind]
        exact (busStore_adds pa size _ next).imp (fun _ _ hstore => hboth hstore)
          (fun _ _ hstore => hboth hstore) (fun hpanics => hpanics)
    · exact fun _ _ hadds => performIssued_one hissues hloads rfl hadds
    · exact fun hpanics => hpanics

/-- An atomic issues its accesses behind the one address it translates. -/
theorem atomic_issued {insn : Insn} (hopcode : Insn.opcode insn = 0x2F) {size : ℕ}
    (hsize : Rv64a.sizeOf insn = some size) (start : Machine B S) :
    Exec.wp (execute insn) (fun _ after => AtomicIssued insn size start after)
      (fun _ after => AtomicIssued insn size start after) True start := by
  rw [execute_atomic hopcode, Exec.wp_bind, Rv64a.execute, if_neg (not_not_intro hopcode), hsize]
  dsimp only
  rw [Exec.wp_bind, Exec.wp_read, Exec.wp_bind]
  apply (translate_latest (start.cpu.reg (Insn.rs1 insn)) .store start).imp
  · rintro pa middle ⟨hyields, hsame, hlatest, hreservation⟩
    have hissues : Issues insn middle pa ↔ Issues insn start pa := by
      rw [Issues, Issues, hreservation]
    have hafter {after : Machine B S} (hperform : PerformIssued insn pa size middle after) :
        AtomicIssued insn size start after := by
      obtain ⟨new, hnew, hall, hsome⟩ := hperform
      rw [hissues] at hsome
      rw [hsame] at hnew
      refine ⟨new, hnew, ?_, ?_⟩
      · intro issued hissued
        obtain ⟨hkind, hissuedSize, hunder, haddr⟩ := hall issued hissued
        rw [haddr]
        exact ⟨hkind, hissuedSize, hunder.trans hlatest, hyields,
          hsome.mp (List.ne_nil_of_mem hissued)⟩
      · intro other hother hissuesOther
        have hpa : other = pa := Mmu.Yields.unique hother hyields
        subst hpa
        obtain ⟨issued, hissued⟩ := List.exists_mem_of_ne_nil new (hsome.mpr hissuesOther)
        exact ⟨issued, hissued, (hall issued hissued).2.2.2⟩
    rw [Exec.wp_bind]
    exact (perform_issued hopcode pa _ size middle).imp (fun _ _ hperform => hafter hperform)
      (fun _ _ hperform => hafter hperform) (fun hpanics => hpanics)
  · rintro err after ⟨hsame, hnowhere⟩
    exact ⟨[], hsame, List.forall_mem_nil _, fun pa hyields => absurd hyields (hnowhere pa)⟩
  · exact fun hpanics => hpanics

/-! ## Steps -/

omit [MemBacking B] [ConsoleSink S] in
theorem OnlyIssues.imp {allowed allowed' : BusAccess B S → Prop} {start after : Machine B S}
    (honly : OnlyIssues allowed start after)
    (himp : ∀ issued, allowed issued → allowed' issued) : OnlyIssues allowed' start after := by
  obtain ⟨new, hnew, hall⟩ := honly
  exact ⟨new, hnew, fun issued hissued => himp issued (hall issued hissued)⟩

/-- An access of data in RAM is justified by the range of the instruction. -/
def InRange (insn : Insn) (start : Machine B S) (issued : BusAccess B S) : Prop :=
  issued.kind ≠ .fetch → Bus.inRam issued.addr issued.size →
    ∃ access, dataAccess start.cpu insn = some access ∧ Justified access issued

omit [MemBacking B] in
theorem onlyIssues_controls (allowed : BusAccess B S → Prop) :
    Controls (OnlyIssues allowed) where
  setReg _ _ _ := onlyIssues_of_eq rfl
  jump _ _ _ := onlyIssues_of_eq rfl
  starts _ _ := onlyIssues_of_eq rfl
  retires _ _ := onlyIssues_of_eq rfl
  traps _ _ := onlyIssues_of_eq rfl
  skips _ _ := onlyIssues_of_eq rfl
  mret _ := onlyIssues_of_eq rfl
  sret _ := onlyIssues_of_eq rfl
  flush := .update fun _ => onlyIssues_of_eq rfl
  writeCsr _ _ := .bind (.update fun _ => onlyIssues_of_eq rfl) fun _ =>
    .ite (.update fun _ => onlyIssues_of_eq rfl) (.pure _)
  setTimer _ _ := onlyIssues_of_eq rfl
  putchar _ _ := onlyIssues_of_eq rfl

/-- Everything but the atomics keeps to its range. -/
theorem execute_inRange {insn : Insn} (hopcode : Insn.opcode insn ≠ 0x2F) (start : Machine B S) :
    Exec.wp (execute insn) (fun _ after => OnlyIssues (InRange insn start) start after)
      (fun _ after => OnlyIssues (InRange insn start) start after) True start := by
  have hcontrols : Controls (OnlyIssues (InRange insn start)) := onlyIssues_controls _
  have hjustified {access : DataAccess} (haccess : dataAccess start.cpu insn = some access)
      {after : Machine B S} (honly : OnlyIssues (Justified access) start after) :
      OnlyIssues (InRange insn start) start after :=
    honly.imp fun _ hissued _ _ => ⟨access, haccess, hissued⟩
  by_cases hload : Insn.opcode insn = 0x03
  · rw [execute_load hload, Exec.wp_bind, Rv64i.load, Exec.wp_bind, Exec.wp_read]
    cases hwidth : Rv64i.loadOf insn with
    | none => exact onlyIssues_of_eq rfl
    | some width =>
        have haccess : dataAccess start.cpu insn =
            some ⟨start.cpu.reg (Insn.rs1 insn) + Insn.immI insn, width.1, .load⟩ := by
          rw [dataAccess, if_pos hload, hwidth]
          rfl
        dsimp only
        rw [Exec.wp_bind, vload]
        apply (readTranslated_justified ⟨_, width.1, .load⟩ start).imp
        · exact fun v after hafter => (hcontrols.retire_keeps insn _).wp_from
            (hjustified haccess hafter)
        · exact fun _ after hafter => hjustified haccess hafter
        · exact fun hpanics => hpanics
  by_cases hstore : Insn.opcode insn = 0x23
  · rw [execute_store hstore, Exec.wp_bind, Rv64i.store, Exec.wp_bind, Exec.wp_read]
    cases hwidth : Rv64i.storeOf insn with
    | none => exact onlyIssues_of_eq rfl
    | some size =>
        have haccess : dataAccess start.cpu insn =
            some ⟨start.cpu.reg (Insn.rs1 insn) + Insn.immS insn, size, .store⟩ := by
          rw [dataAccess, if_neg hload, if_pos hstore, hwidth]
          rfl
        dsimp only
        rw [Exec.wp_bind, vstore]
        exact (writeTranslated_justified _ size _ start).imp
          (fun _ _ hafter => hjustified haccess hafter)
          (fun _ _ hafter => hjustified haccess hafter) (fun hpanics => hpanics)
  · exact hcontrols.dispatch_keeps insn (fun heq => absurd heq hopcode)
      (fun heq => absurd heq hload) (fun heq => absurd heq hstore)
      (fun _ _ => hcontrols.privileged_keeps insn) (fun _ _ => hcontrols.csrAccess_keeps insn) start

omit [ConsoleSink S] in
theorem fetchInsn_onlyFetches :
    Keeps (OnlyIssues fun issued => issued.kind = .fetch)
      (fetchInsn : MachineM B S (Insn × BitVec 64)) := by
  have hadds {addr : BitVec 64} {size : ℕ} {start after : Machine B S}
      (hadds : Adds .fetch addr size start after) :
      OnlyIssues (fun issued => issued.kind = .fetch) start after :=
    ⟨[_], hadds.1, List.forall_mem_singleton.mpr rfl⟩
  have hreads : Reads .fetch (OnlyIssues fun issued : BusAccess B S => issued.kind = .fetch) := by
    constructor
    · exact fun vaddr => translate_keeps (fun _ _ => onlyIssues_of_eq rfl)
        (fun _ _ => onlyIssues_of_eq rfl) vaddr .fetch
    · exact fun addr size state => (busLoad_adds .fetch addr size state).imp
        (fun _ _ hafter => hadds hafter) (fun _ _ hafter => hadds hafter) (fun _ => trivial)
  exact hreads.fetchInsn_keeps

end Issues

section Isolation

variable [FlatBacking B]

/-- The bytes left in the page of an address. -/
def untilNextPage (vaddr : BitVec 64) : ℕ := Proto.pageSize - (vaddr &&& 0xFFF).toNat

/-- An atomic reaches into a second page that is not mapped behind the first. -/
structure TornApart (insn : Insn) (size : ℕ) (pa : BitVec 64) (start : Machine B S) : Prop where
  crosses : ¬ fitsPage (start.cpu.reg (Insn.rs1 insn)) size
  yields : start.Yields (start.cpu.reg (Insn.rs1 insn)) .store pa
  issues : Issues insn start pa
  inRam : Bus.inRam pa size
  apart : ¬ start.Yields (start.cpu.reg (Insn.rs1 insn) +
      BitVec.ofNat 64 (untilNextPage (start.cpu.reg (Insn.rs1 insn)))) .store
    (pa + BitVec.ofNat 64 (untilNextPage (start.cpu.reg (Insn.rs1 insn))))

theorem offset_lt (vaddr : BitVec 64) : (vaddr &&& 0xFFF).toNat < 4096 := by
  rw [Mmu.toNat_and_offset]
  exact Nat.mod_lt _ (by norm_num)

theorem next_page (vaddr : BitVec 64) :
    (vaddr + BitVec.ofNat 64 (untilNextPage vaddr)) &&& 0xFFF = 0 := by
  have hoffset := offset_lt vaddr
  apply BitVec.eq_of_toNat_eq
  rw [untilNextPage, Mmu.toNat_and_offset, BitVec.toNat_add, BitVec.toNat_ofNat]
  rw [Mmu.toNat_and_offset] at hoffset ⊢
  have hvaddr := vaddr.isLt
  simp only [Proto.pageSize]
  change _ = 0
  omega

/-- Both pages of an atomic side by side justify all of it. -/
theorem justified_of_adjacent {start : Machine B S} {vaddr pa : BitVec 64} {size : ℕ}
    (hsize : size ≤ 8) (hyields : start.Yields vaddr .store pa)
    (hadjacent : fitsPage vaddr size ∨
      start.Yields (vaddr + BitVec.ofNat 64 (untilNextPage vaddr)) .store
        (pa + BitVec.ofNat 64 (untilNextPage vaddr)))
    {issued : BusAccess B S} (haddr : issued.addr = pa) (hissued : issued.size = size)
    (hunder : issued.under = some (start.translation vaddr .store)) :
    Justified ⟨vaddr, size, .store⟩ issued := by
  refine ⟨_, hunder, ?_⟩
  intro k hk
  rw [hissued] at hk
  refine ⟨k, hk, ?_⟩
  rw [haddr]
  by_cases hfirst : (vaddr &&& 0xFFF).toNat + k < 4096
  · exact hyields.within hfirst
  · have hoffset := offset_lt vaddr
    have hnext : start.Yields (vaddr + BitVec.ofNat 64 (untilNextPage vaddr)) .store
        (pa + BitVec.ofNat 64 (untilNextPage vaddr)) := by
      apply hadjacent.resolve_left
      intro hfits
      simp only [fitsPage, Proto.pageSize] at hfits
      omega
    have hsplit (addr : BitVec 64) : addr + BitVec.ofNat 64 k =
        addr + BitVec.ofNat 64 (untilNextPage vaddr) +
          BitVec.ofNat 64 (k - untilNextPage vaddr) := by
      have hk' : untilNextPage vaddr + (k - untilNextPage vaddr) = k := by
        simp only [untilNextPage, Proto.pageSize]
        omega
      rw [BitVec.add_assoc, ← BitVec.ofNat_add, hk']
    rw [hsplit vaddr, hsplit pa]
    apply Mmu.Yields.within hnext
    rw [next_page]
    change 0 + (k - untilNextPage vaddr) < 4096
    omega

/-- A justified atomic that crosses has its second page behind the first. -/
theorem adjacent_of_justified {memory : Memory} {start : Machine B S}
    (hstart : Holds memory start.bus.cache) {vaddr pa : BitVec 64} {size : ℕ} (hsize : size ≤ 8)
    (hcrosses : ¬ fitsPage vaddr size) (hyields : start.Yields vaddr .store pa)
    {issued : BusAccess B S} (haddr : issued.addr = pa) (hissued : issued.size = size)
    (hunder : issued.under = some (start.translation vaddr .store))
    (hjustified : Justified ⟨vaddr, size, .store⟩ issued) :
    start.Yields (vaddr + BitVec.ofNat 64 (untilNextPage vaddr)) .store
      (pa + BitVec.ofNat 64 (untilNextPage vaddr)) := by
  obtain ⟨t, ht, hbytes⟩ := hjustified
  rw [hunder] at ht
  cases ht
  have hoffset := offset_lt vaddr
  have hlt : untilNextPage vaddr < size := by
    simp only [fitsPage, untilNextPage, Proto.pageSize] at hcrosses ⊢
    omega
  rw [hissued, haddr] at hbytes
  obtain ⟨i, hi, hbyte⟩ := hbytes _ hlt
  -- a translation keeps the offset, so the byte can only be that one
  have hsystem : Holds memory start.system.bus.cache := hstart
  have hkept {v p : BitVec 64} (hv : start.Yields v .store p) : p &&& 0xFFF = v &&& 0xFFF := by
    obtain ⟨after, hrun⟩ := hv
    exact ((Mmu.translate_quiet _ _ _ _ hsystem).of_run_ok hrun).1
  have hpage : (vaddr + BitVec.ofNat 64 i) &&& 0xFFF = 0 := by
    rw [← hkept hbyte]
    have hpa := hkept hyields
    have hsame : untilNextPage pa = untilNextPage vaddr := by rw [untilNextPage, hpa, untilNextPage]
    rw [← hsame]
    exact next_page pa
  have hindex : i = untilNextPage vaddr := by
    have hi' : i < size := hi
    have hzero := congrArg BitVec.toNat hpage
    rw [Mmu.toNat_and_offset, BitVec.toNat_add, BitVec.toNat_ofNat] at hzero
    change _ = 0 at hzero
    simp only [untilNextPage, Proto.pageSize, Mmu.toNat_and_offset] at hlt hoffset ⊢
    have hvaddr := vaddr.isLt
    omega
  rw [hindex] at hbyte
  exact hbyte

variable [ConsoleSink S]

/-- An access of data in RAM is justified by the range of the instruction
fetched. -/
def Allowed (m : Machine B S) (issued : BusAccess B S) : Prop :=
  issued.kind ≠ .fetch → Bus.inRam issued.addr issued.size →
    ∃ insn len fetched access, fetchInsn.run m = .ok (insn, len) fetched ∧
      dataAccess fetched.cpu insn = some access ∧ Justified access issued

/-- A step touches no data in RAM but what its range is mapped to. -/
def Isolated (m : Machine B S) : Prop :=
  ∀ result after, (step.run m).reply = some (result, after) → OnlyIssues (Allowed m) m after

/-- The step is of an atomic torn apart. -/
def StepsTornApart (m : Machine B S) : Prop :=
  ∃ insn len fetched size pa, fetchInsn.run m = .ok (insn, len) fetched ∧
    Insn.opcode insn = 0x2F ∧ Rv64a.sizeOf insn = some size ∧ TornApart insn size pa fetched

omit [ConsoleSink S] in
theorem fetchInsn_allowed (m state : Machine B S) :
    Exec.wp fetchInsn (fun _ => OnlyIssues (Allowed m) state)
      (fun _ => OnlyIssues (Allowed m) state) True state := by
  have hfetches (issued : BusAccess B S) (hfetch : issued.kind = .fetch) : Allowed m issued :=
    fun hkind => absurd hfetch hkind
  exact (fetchInsn_onlyFetches state).imp (fun _ _ hafter => hafter.imp hfetches)
    (fun _ _ hafter => hafter.imp hfetches) (fun hpanics => hpanics)

theorem sizeOf_le {insn : Insn} {size : ℕ} (hsize : Rv64a.sizeOf insn = some size) : size ≤ 8 := by
  unfold Rv64a.sizeOf at hsize
  split at hsize <;> cases hsize <;> norm_num

theorem dataAccess_atomic {cpu : Cpu} {insn : Insn} (hopcode : Insn.opcode insn = 0x2F) {size : ℕ}
    (hsize : Rv64a.sizeOf insn = some size) :
    dataAccess cpu insn = some ⟨cpu.reg (Insn.rs1 insn), size, .store⟩ := by
  rw [dataAccess, if_neg (by rw [hopcode]; decide), if_neg (by rw [hopcode]; decide),
    if_pos hopcode, hsize]
  rfl

/-- Without torn atomics a step is isolated. -/
theorem isolated_of_together {m : Machine B S} (htogether : ¬ StepsTornApart m) : Isolated m := by
  intro result after hreply
  have hwp : Exec.wp step (fun _ => OnlyIssues (Allowed m) m) (fun _ => OnlyIssues (Allowed m) m)
      True m := by
    rw [step, Exec.wp_bind]
    apply (fetchInsn_allowed m m).attach.imp
    · rintro ⟨insn, len⟩ fetched ⟨hfetch, hfetched⟩
      dsimp only
      rw [executeFetched, Exec.wp_bind, onCpu, Exec.wp_update, Exec.wp_bind]
      have hrange (issued : BusAccess B S)
          (hissued : InRange insn { fetched with cpu := fetched.cpu.begin len } issued) :
          Allowed m issued := by
        intro hkind hram
        obtain ⟨access, haccess, hjustified⟩ := hissued hkind hram
        exact ⟨insn, len, fetched, access, hfetch, haccess, hjustified⟩
      have hexecute : Exec.wp (execute insn)
          (fun _ => OnlyIssues (InRange insn { fetched with cpu := fetched.cpu.begin len })
            { fetched with cpu := fetched.cpu.begin len })
          (fun _ => OnlyIssues (InRange insn { fetched with cpu := fetched.cpu.begin len })
            { fetched with cpu := fetched.cpu.begin len }) True
          { fetched with cpu := fetched.cpu.begin len } := by
        by_cases hopcode : Insn.opcode insn = 0x2F
        · cases hsize : Rv64a.sizeOf insn with
          | none =>
              rw [execute_atomic hopcode, Exec.wp_bind, Rv64a.execute,
                if_neg (not_not_intro hopcode), hsize]
              exact onlyIssues_of_eq rfl
          | some size =>
              have hatomic {state : Machine B S} (hstate : AtomicIssued insn size
                  { fetched with cpu := fetched.cpu.begin len } state) :
                  OnlyIssues (InRange insn { fetched with cpu := fetched.cpu.begin len })
                    { fetched with cpu := fetched.cpu.begin len } state := by
                obtain ⟨new, hnew, hall, -⟩ := hstate
                refine ⟨new, hnew, ?_⟩
                intro issued hissued hkind hram
                obtain ⟨-, hissuedSize, hunder, hyields, hissues⟩ := hall issued hissued
                rw [hissuedSize] at hram
                refine ⟨_, dataAccess_atomic hopcode hsize, ?_⟩
                apply justified_of_adjacent (sizeOf_le hsize) hyields _ rfl hissuedSize hunder
                by_contra hapart
                rw [not_or] at hapart
                exact htogether ⟨insn, len, fetched, size, issued.addr, hfetch, hopcode, hsize,
                  hapart.1, hyields, hissues, hram, hapart.2⟩
              exact (atomic_issued hopcode hsize _).imp (fun _ _ hstate => hatomic hstate)
                (fun _ _ hstate => hatomic hstate) (fun hpanics => hpanics)
        · exact execute_inRange hopcode _
      apply hexecute.imp
      · intro _ state hstate
        rw [onCpu, Exec.wp_update]
        exact trans_of (OnlyIssues (Allowed m)) hfetched (hstate.imp hrange)
      · exact fun _ state hstate =>
          trans_of (OnlyIssues (Allowed m)) hfetched (hstate.imp hrange)
      · exact fun hpanics => hpanics
    · exact fun _ _ hafter => hafter.2
    · exact fun hpanics => hpanics
  exact hwp.of_reply hreply

/-- An access behind one translation is among those issued. -/
def IssuedBehind (t : Translation B S) (pa : BitVec 64) (size : ℕ) (start after : Machine B S) :
    Prop :=
  ∃ new issued, after.trace.accesses = new ++ start.trace.accesses ∧ issued ∈ new ∧
    issued.kind ≠ .fetch ∧ issued.addr = pa ∧ issued.size = size ∧ issued.under = some t

/-- A torn atomic issues its access all the same. -/
theorem StepsTornApart.not_isolated {memory : Memory} {m : Machine B S}
    (hm : Holds memory m.bus.cache) (htorn : StepsTornApart m) : ¬ Isolated m := by
  intro hisolated
  obtain ⟨insn, len, fetched, size, pa, hfetch, hopcode, hsize, hcrosses, hyields, hissues, hram,
    hapart⟩ := htorn
  obtain ⟨⟨before, hbefore, -⟩, memory', hmemory⟩ :=
    ((fetchInsn_allowed m m).and
      ((intact_accesses.reads .fetch).fetchInsn_keeps m)).of_run_ok hfetch |>.imp_right
        fun hintact => hintact ⟨memory, hm⟩
  have hbegun : Holds memory' ({ fetched with cpu := fetched.cpu.begin len } :
      Machine B S).bus.cache := hmemory
  have hwp : Exec.wp step
      (fun _ => IssuedBehind (fetched.translation (fetched.cpu.reg (Insn.rs1 insn)) .store) pa size m)
      (fun _ => IssuedBehind (fetched.translation (fetched.cpu.reg (Insn.rs1 insn)) .store) pa size m)
      False m := by
    rw [step, Exec.wp_bind]
    apply Exec.wp_of_run_ok hfetch
    dsimp only
    rw [executeFetched, Exec.wp_bind, onCpu, Exec.wp_update, Exec.wp_bind]
    have hissued {after : Machine B S}
        (hafter : AtomicIssued insn size { fetched with cpu := fetched.cpu.begin len } after) :
        IssuedBehind (fetched.translation (fetched.cpu.reg (Insn.rs1 insn)) .store) pa size m
          after := by
      obtain ⟨new, hnew, hall, hsome⟩ := hafter
      obtain ⟨issued, hmem, haddr⟩ := hsome pa hyields hissues
      obtain ⟨hkind, hissuedSize, hunder, -⟩ := hall issued hmem
      refine ⟨new ++ before, issued, ?_, List.mem_append_left _ hmem, hkind, haddr, hissuedSize,
        hunder⟩
      rw [hnew, List.append_assoc, ← hbefore]
    apply ((atomic_issued hopcode hsize _).and (atomic_piece hopcode hsize hbegun)).imp
    · intro _ after hafter
      rw [onCpu, Exec.wp_update]
      exact hissued hafter.1
    · exact fun _ after hafter => hissued hafter.1
    · exact fun hpanics => hpanics.2
  obtain ⟨result, after, hreply, hok, herr⟩ := hwp.exists_reply
  have hafter : IssuedBehind (fetched.translation (fetched.cpu.reg (Insn.rs1 insn)) .store) pa size
      m after := by
    cases result with
    | ok value => exact hok value rfl
    | error err => exact herr err rfl
  obtain ⟨new, issued, hnew, hmem, hkind, haddr, hissuedSize, hunder⟩ := hafter
  obtain ⟨new', hnew', hall⟩ := hisolated result after hreply
  have hsame : new = new' := List.append_cancel_right (hnew.symm.trans hnew')
  rw [← hsame] at hall
  have hinRam : Bus.inRam issued.addr issued.size := by
    rw [haddr, hissuedSize]
    exact hram
  obtain ⟨insn', len', fetched', access, hfetch', haccess, hjustified⟩ :=
    hall issued hmem hkind hinRam
  rw [hfetch] at hfetch'
  cases hfetch'
  rw [dataAccess_atomic hopcode hsize] at haccess
  cases haccess
  exact hapart (adjacent_of_justified hmemory (sizeOf_le hsize) hcrosses hyields haddr hissuedSize
    hunder hjustified)

/-- **A step is isolated** exactly if it is not of an atomic that reaches into a
page not mapped behind the first. -/
theorem isolated_iff {memory : Memory} {m : Machine B S} (hm : Holds memory m.bus.cache) :
    Isolated m ↔ ¬ StepsTornApart m :=
  ⟨fun hisolated htorn => htorn.not_isolated hm hisolated, isolated_of_together⟩

end Isolation

/-! The program sees a megapage, and nothing behind it. -/

def beforeUnmapped : Machine FakeBacking (List Byte) :=
  overPages
    (fun page =>
      if page = 0 then Sv39.tablePage [0x0020B1AF]
      else if page = 1 then Sv39.tablePage [0x80002 <<< 10 ||| 1]
      else if page = 2 then Sv39.tablePage [0x80000 <<< 10 ||| 0xDF]
      else fun _ => 0)
    ({ Cpu.new 0 with csrs := Sv39.pagingCsrs, priv := .u }.setReg 1 0x1FFFFC)

/-- `amoadd.d x3, x2, (x1)`, four bytes before its end. -/
theorem stepsTornApart_beforeUnmapped : StepsTornApart beforeUnmapped := by
  have hvalue : (fetchInsn.run beforeUnmapped).value = some (0x0020B1AF, 4) := by decide +kernel
  have hfirst : ((fetchInsn >>= fun _ => translate 0x1FFFFC .store).run beforeUnmapped).value =
      some 0x801FFFFC := by
    decide +kernel
  have hsecond : ((fetchInsn >>= fun _ => translate 0x200000 .store).run
      beforeUnmapped).failure = some (.storePageFault 0x200000) := by
    decide +kernel
  obtain ⟨fetched, hfetch⟩ := Outcome.eq_ok_of_value hvalue
  rw [Exec.run_bind_ok hfetch] at hfirst hsecond
  obtain ⟨_, hfirst⟩ := Outcome.eq_ok_of_value hfirst
  obtain ⟨_, hsecond⟩ := Outcome.eq_error_of_failure hsecond
  have hregs := ((sameCore_reads .fetch).fetchInsn_keeps beforeUnmapped).of_run_ok hfetch
  have hvaddr : fetched.cpu.reg (Insn.rs1 0x0020B1AF) = 0x1FFFFC := by
    rw [Cpu.reg, hregs.regs]
    rfl
  refine ⟨0x0020B1AF, 4, fetched, 8, 0x801FFFFC, hfetch, by decide, by decide, ?_⟩
  constructor
  · rw [hvaddr]
    decide
  · rw [hvaddr]
    exact ((translate_latest 0x1FFFFC .store fetched).of_run_ok hfirst).1
  · exact fun _ hsc => absurd hsc (by decide)
  · decide
  · rw [hvaddr]
    exact ((translate_latest 0x200000 .store fetched).of_run_error hsecond).2 _

/-- It reads and writes behind the megapage. -/
theorem not_isolated_beforeUnmapped :
    ¬ ∀ (memory : Memory) (m : Machine FakeBacking (List Byte)), Holds memory m.bus.cache →
      Mmu.paging m.cpu.csrs m.cpu.priv → Isolated m :=
  fun hclaim => stepsTornApart_beforeUnmapped.not_isolated (Sv39.holds_busOver _)
    (hclaim _ _ (Sv39.holds_busOver _) (by decide))

/-- A step in M-mode, of an instruction that is not there. -/
theorem isolated_iff_nowhere : Isolated atNowhere ↔ ¬ StepsTornApart atNowhere :=
  isolated_iff (Sv39.holds_busOver _)

end Machine

end Baonix.Core

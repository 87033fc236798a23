import Baonix.Core.Bytewise

/-!
# A store done again

A store that straddles two pages may fault at its second page with the bytes of the
first already in RAM.  The guest maps the page and executes the store again, which
stores those bytes once more.  As long as no byte it stores is part of the tables that
say where the bytes lie, the first try leaves no trace.
-/

namespace Baonix.Core

open Baonix.LittleEndian
open PageCache (Holds)

/-- The eight bytes of an entry hold none of the places. -/
def Mmu.ApartFrom (touched : Set ℕ) (entry : BitVec 64) : Prop :=
  ∀ place ∈ touched, place < entry.toNat ∨ entry.toNat + 8 ≤ place

/-! ## Machines that differ in what is touched -/

section Beside

variable {B S : Type} [FlatBacking B]

/-- The same devices over RAM that differs in the places touched only. -/
structure Bus.Beside (touched : Set ℕ) (bus bus' : Bus B S) : Prop where
  clint : bus.clint = bus'.clint
  uart : bus.uart = bus'.uart
  ram : ∃ memory memory', Holds memory bus.cache ∧ Holds memory' bus'.cache ∧
    ∀ place, place ∉ touched → memory place = memory' place

structure MemSystem.Beside (touched : Set ℕ) (system system' : MemSystem B S) : Prop where
  mmu : system.mmu = system'.mmu
  bus : system.bus.Beside touched system'.bus

variable (hreliable : ¬ Fallible B) {touched : Set ℕ}

namespace Bus

include hreliable in
theorem load_beside {entry : BitVec 64} (hapart : Mmu.ApartFrom touched entry) {bus bus' : Bus B S}
    (hbus : bus.Beside touched bus') :
    ((load entry 8).run bus).Alike (Beside touched) ((load entry 8).run bus') := by
  obtain ⟨memory, memory', hm, hm', hsame⟩ := hbus.ram
  by_cases hram : inRam entry 8
  · have hword : wordAt memory entry = wordAt memory' entry := by
      rw [wordAt, wordAt, Memory.read, Memory.read]
      congr 2
      apply List.map_congr_left
      intro i hi
      rw [List.mem_range] at hi
      exact hsame _ fun htouched => by have := hapart _ htouched; omega
    obtain ⟨_, next, hrun, rfl, _, rfl, hnext⟩ := ((load_word hm hram).imp (fun _ _ hpost => hpost)
      (fun _ _ hfails => hreliable hfails.1) (fun hfalse => hfalse)).exists_ok
    obtain ⟨_, next', hrun', rfl, _, rfl, hnext'⟩ := ((load_word hm' hram).imp
      (fun _ _ hpost => hpost) (fun _ _ hfails => hreliable hfails.1)
      (fun hfalse => hfalse)).exists_ok
    rw [hrun, hrun', hword]
    exact .ok ⟨hbus.clint, hbus.uart, memory, memory', hnext, hnext', hsame⟩
  · simp only [load, widthOf, if_neg hram]
    by_cases hclint : isClint entry 8
    · simp only [if_pos hclint, Exec.run_read_bind, hbus.clint]
      exact .ok hbus
    · by_cases huart : isUart entry 8
      · simp only [if_neg hclint, if_pos huart, Exec.run, Exec.call, hbus.uart]
        exact .ok ⟨hbus.clint, rfl, hbus.ram⟩
      · simp only [if_neg hclint, if_neg huart]
        exact .error hbus

end Bus

namespace Mmu

/-- The entries a walk reads, in order. -/
def entriesRead (vaddr : BitVec 64) :
    List Level → BitVec 64 → Bus B S → List (BitVec 64)
  | [], _, _ => []
  | level :: levels, table, bus =>
      entryAddr vaddr level table ::
        match (Bus.load (entryAddr vaddr level table) 8).run bus with
        | .ok pte after =>
            if isPointer pte then entriesRead vaddr levels (ppnOf pte <<< 12) after else []
        | _ => []

omit [FlatBacking B] in
theorem loadPte_eq_ok [MemBacking B] {access : Access} {vaddr addr pte : BitVec 64}
    {system after : MemSystem B S}
    (hload : (loadPte access vaddr addr).run system = .ok pte after) :
    (Bus.load addr 8).run system.bus = .ok pte after.bus := by
  simp only [Exec.run, loadPte, Exec.zoom] at hload ⊢
  cases hbus : Bus.load addr 8 system.bus with
  | ok word bus => rw [hbus] at hload; cases hload; rfl
  | error err bus => rw [hbus] at hload; cases hload
  | panic => rw [hbus] at hload; cases hload

include hreliable

theorem walk_beside (priv : Priv) (access : Access) (vaddr : BitVec 64) (levels : List Level)
    (table : BitVec 64) {system system' : MemSystem B S} (hsystem : system.Beside touched system')
    (hapart : ∀ entry ∈ entriesRead vaddr levels table system.bus, ApartFrom touched entry) :
    ((walk priv access vaddr levels table).run system).Alike (MemSystem.Beside touched)
      ((walk priv access vaddr levels table).run system') := by
  induction levels generalizing table system system' with
  | nil => exact .error hsystem
  | cons level levels ih =>
      have hentry := hapart _ (List.mem_cons_self ..)
      have hload : ((loadPte access vaddr (table + index vaddr level * 8)).run system).Alike
          (MemSystem.Beside touched)
          ((loadPte access vaddr (table + index vaddr level * 8)).run system') :=
        Exec.Alike.zoom_from (Bus.load_beside hreliable hentry hsystem.bus)
          fun _ _ hbus => ⟨hsystem.mmu, hbus⟩
      apply Exec.Alike.bind_from hload (fun _ _ hafter => hafter)
      · intro pte after after' hrun hafter
        have hentryLoad := loadPte_eq_ok hrun
        change (Bus.load (entryAddr vaddr level table) 8).run system.bus = _ at hentryLoad
        dsimp only
        by_cases hvalid : pte &&& 1 = 0
        · simp only [if_pos hvalid]
          exact .error hafter
        simp only [if_neg hvalid]
        by_cases hleaf : isLeaf pte
        · simp only [if_pos hleaf]
          apply Exec.Alike.bind (.ofExcept _) _ _ _ hafter
          intro _
          apply Exec.Alike.ite (.raise _)
          apply Exec.Alike.bind (.update _) fun _ => .pure _
          exact fun _ _ hsystem => ⟨congrArg (fill vaddr _ pte) hsystem.mmu, hsystem.bus⟩
        · simp only [if_neg hleaf]
          apply ih _ hafter
          intro entry hmem
          have hpointer : isPointer pte := decide_eq_true ⟨hvalid, hleaf⟩
          apply hapart
          rw [entriesRead, hentryLoad]
          simp only [if_pos hpointer]
          exact List.mem_cons_of_mem _ hmem

theorem translate_beside (csrs : Csrs) (priv : Priv) (vaddr : BitVec 64) (access : Access)
    {system system' : MemSystem B S} (hsystem : system.Beside touched system')
    (hapart : paging csrs priv → ∀ entry ∈ entriesRead vaddr levels (root (csrs.read Csr.satp))
      system.bus, ApartFrom touched entry) :
    ((translate csrs priv vaddr access).run system).Alike (MemSystem.Beside touched)
      ((translate csrs priv vaddr access).run system') := by
  rw [translate]
  by_cases hpaging : paging csrs priv
  swap
  · rw [if_pos hpaging]
    exact .ok hsystem
  rw [if_neg (not_not_intro hpaging), Exec.run_read_bind, Exec.run_read_bind, ← hsystem.mmu]
  by_cases hhit : (system.mmu.tlb (slot (vaddr >>> 12))).valid ∧
      (system.mmu.tlb (slot (vaddr >>> 12))).vpn = vaddr >>> 12
  · simp only [if_pos hhit]
    exact Exec.Alike.bind (.ofExcept _) (fun _ => .pure _) _ _ hsystem
  · simp only [if_neg hhit]
    have hcounted : MemSystem.Beside touched
        { system with mmu := { system.mmu with walks := system.mmu.walks + 1 } }
        { system' with mmu := { system'.mmu with walks := system'.mmu.walks + 1 } } :=
      ⟨congrArg (fun mmu : Mmu => { mmu with walks := mmu.walks + 1 }) hsystem.mmu, hsystem.bus⟩
    exact walk_beside hreliable priv access vaddr levels _ hcounted (hapart hpaging)

end Mmu

namespace Machine

/-- The same translations and devices over RAM that differs in the places touched only. -/
structure Beside (touched : Set ℕ) (m m' : Machine B S) : Prop where
  csrs : m.cpu.csrs = m'.cpu.csrs
  priv : m.cpu.priv = m'.cpu.priv
  mmu : m.cpu.mmu = m'.cpu.mmu
  bus : m.bus.Beside touched m'.bus

/-- The entries a translation may read. -/
def tablesOf (vaddr : BitVec 64) (m : Machine B S) : List (BitVec 64) :=
  if Mmu.paging m.cpu.csrs m.cpu.priv then
    Mmu.entriesRead vaddr Mmu.levels (Mmu.root (m.cpu.csrs.read Csr.satp)) m.bus
  else []

include hreliable in
theorem translate_beside (vaddr : BitVec 64) (access : Access) {m m' : Machine B S}
    (hm : m.Beside touched m') (hapart : ∀ entry ∈ m.tablesOf vaddr, Mmu.ApartFrom touched entry) :
    ((translate vaddr access).run m).Alike (Beside touched)
      ((translate vaddr access).run m') := by
  rw [translate, Exec.run_read_bind, Exec.run_read_bind, ← hm.csrs, ← hm.priv]
  have hsystems : m.system.Beside touched m'.system := ⟨hm.mmu, hm.bus⟩
  have htranslated := Mmu.translate_beside hreliable m.cpu.csrs m.cpu.priv vaddr access hsystems
    fun hpaging => by
      rw [tablesOf, if_pos hpaging] at hapart
      exact hapart
  have hput (after after' : MemSystem B S) (hafter : after.Beside touched after') :
      Beside touched (putSystem (note (.translated (m.translation vaddr access)) m) after)
        (putSystem (note (.translated ⟨m'.system, m.cpu.csrs, m.cpu.priv, vaddr, access⟩) m')
          after') := ⟨hm.csrs, hm.priv, hafter.mmu, hafter.bus⟩
  exact Exec.Alike.zoom_from htranslated hput

variable [ConsoleSink S]

include hreliable in
/-- A byte stored where it is touched. -/
theorem busStore_beside {memory : Memory} {m m' : Machine B S} (hm : m.Beside touched m')
    (hm' : Holds memory m'.bus.cache) {pa : BitVec 64} (hram : Bus.inRam pa 1)
    (htouched : pa.toNat ∈ touched) (value : BitVec 64) :
    Exec.wp (busStore pa 1 value)
      (fun _ after => m.Beside touched after ∧
        Holds (memory.write pa.toNat (Bus.bytesOf 1 value)) after.bus.cache)
      (fun _ _ => False) False m' := by
  have huart : Exec.wp (busStore pa 1 value) (fun _ after => after.bus.uart = m'.bus.uart)
      (fun _ _ => True) True m' := by
    rw [busStore, Exec.wp_bind, Exec.wp_update, Exec.wp_zoom, Bus.store]
    simp only [Bus.widthOf, if_pos hram]
    rw [Bus.onCache, Exec.wp_zoom]
    exact (Exec.wp_any _ _).imp (fun _ _ _ => rfl) (fun _ _ _ => trivial) fun _ => trivial
  apply ((busStore_ram hreliable hm' rfl hram value).and huart).imp
  · rintro _ after ⟨⟨hstored, hclint, hcpu⟩, huart⟩
    obtain ⟨before, before', hbefore, hbefore', hsame⟩ := hm.bus.ram
    have hmemory : before' = memory := hbefore'.memory.symm.trans hm'.memory
    refine ⟨⟨?_, ?_, ?_, ?_, ?_, before, _, hbefore, hstored, ?_⟩, hstored⟩
    · rw [hcpu, hm.csrs]
    · rw [hcpu, hm.priv]
    · rw [hcpu, hm.mmu]
    · rw [hclint, hm.bus.clint]
    · rw [huart, hm.bus.uart]
    · intro place hplace
      have hapart : place < pa.toNat ∨ pa.toNat + 1 ≤ place := by
        have hne : place ≠ pa.toNat := fun heq => hplace (heq ▸ htouched)
        omega
      rw [hsame place hplace, hmemory, Memory.write_of_outside]
      rw [Bus.length_bytesOf (by norm_num)]
      exact hapart
  · exact fun _ _ hfalse => hfalse.1
  · exact fun hfalse => hfalse.1

omit [ConsoleSink S] in
theorem Beside.invalidateReservation {m m' : Machine B S} (hm : m.Beside touched m')
    (addr : BitVec 64) (size : ℕ) :
    m.Beside touched { m' with cpu := m'.cpu.invalidateReservation addr size } := by
  rw [Cpu.invalidateReservation]
  split
  · exact hm
  · split
    · exact ⟨hm.csrs, hm.priv, hm.mmu, hm.bus⟩
    · exact hm

omit [ConsoleSink S] in
/-- The entries the translations of an access may read, byte by byte. -/
def tablesEach (vaddr : BitVec 64) : List ℕ → Machine B S → List (BitVec 64)
  | [], _ => []
  | i :: rest, m =>
      tablesOf (vaddr + BitVec.ofNat 64 i) m ++
        match (translate (vaddr + BitVec.ofNat 64 i) .store).run m with
        | .ok _ after => tablesEach vaddr rest after
        | _ => []

/-- The bytes of a store that are mapped, and where. -/
def storesOf (vaddr value : BitVec 64) (offsets : List ℕ) (m : Machine B S) : List (ℕ × Byte) :=
  List.zipWith (fun pa i => (pa.toNat, byteOf value i)) (mapping vaddr .store offsets m).1 offsets

include hreliable in
/-- **A store that goes byte by byte** stores the bytes that are mapped, and ends as their
translations end, which the bytes stored on the way do not change. -/
theorem writeEach_mapped (vaddr value : BitVec 64) (offsets : List ℕ) {memory : Memory}
    {m m' : Machine B S} (hm : m.Beside touched m') (hm' : Holds memory m'.bus.cache)
    (hram : ∀ pa ∈ (mapping vaddr .store offsets m).1, Bus.inRam pa 1 ∧ pa.toNat ∈ touched)
    (hapart : ∀ entry ∈ tablesEach vaddr offsets m, Mmu.ApartFrom touched entry) :
    Exec.wp (writeEach vaddr value offsets)
      (fun _ after => (mapping vaddr .store offsets m).2 = none ∧
        Holds (memory.scatter (storesOf vaddr value offsets m)) after.bus.cache)
      (fun err after => (mapping vaddr .store offsets m).2 = some err ∧
        Holds (memory.scatter (storesOf vaddr value offsets m)) after.bus.cache) False m' := by
  induction offsets generalizing memory m m' with
  | nil => exact ⟨rfl, hm'⟩
  | cons i rest ih =>
      rw [tablesEach] at hapart
      have halike := translate_beside hreliable (vaddr + BitVec.ofNat 64 i) .store hm
        fun entry hmem => hapart entry (List.mem_append_left _ hmem)
      have hquiet := translate_spec hm' (vaddr + BitVec.ofNat 64 i) .store
      rw [storesOf]
      cases hrun : (translate (vaddr + BitVec.ofNat 64 i) .store).run m with
      | ok pa middle =>
          rw [hrun] at halike
          obtain ⟨middle', hrun', hmiddle⟩ := halike.of_ok_left
          rw [hrun] at hapart
          simp only [mapping, hrun] at hram ⊢
          obtain ⟨hpa, htouched⟩ := hram pa (List.mem_cons_self ..)
          have hheld := (hquiet.of_run_ok hrun').2.holds
          rw [writeEach, Exec.wp_bind]
          apply Exec.wp_of_run_ok hrun'
          rw [Exec.wp_bind]
          apply (busStore_beside hreliable hmiddle hheld hpa htouched _).imp _
            (fun _ _ hfalse => hfalse.elim) (fun hfalse => hfalse)
          rintro _ next ⟨hnext, hstored⟩
          rw [bytesOf_byteOf] at hstored
          rw [Exec.wp_bind, onCpu, Exec.wp_update, List.zipWith_cons_cons, Memory.scatter_cons]
          exact ih (hnext.invalidateReservation pa 1) hstored
            (fun other hother => hram other (List.mem_cons_of_mem _ hother))
            fun entry hmem => hapart entry (List.mem_append_right _ hmem)
      | error err after =>
          rw [hrun] at halike
          obtain ⟨after', hrun', -⟩ := halike.of_error_left
          have hheld := (hquiet.of_run_error hrun').2.holds
          simp only [mapping, hrun]
          rw [Exec.run] at hrun'
          rw [writeEach, Exec.wp_bind, Exec.wp, hrun']
          exact ⟨rfl, hheld⟩
      | panic =>
          rw [hrun] at halike
          cases halike

end Machine

end Beside

/-! ## The first try and the next -/

namespace Machine

variable {B S : Type} [FlatBacking B]

/-- The bytes of a store lie in RAM or fault, and none of them is part of the tables that
say so. -/
structure ClearOfTables (m : Machine B S) (vaddr : BitVec 64) (size : ℕ) : Prop where
  ram : m.MapsToRam vaddr size .store
  apart : ∀ pa ∈ (mapping vaddr .store (List.range size) m).1,
    ∀ entry ∈ tablesEach vaddr (List.range size) m,
      pa.toNat < entry.toNat ∨ entry.toNat + 8 ≤ pa.toNat

/-- RAM is `memory` but for the places patched, and every byte of the store is mapped. -/
structure Mended (memory : Memory) (patch : ℕ → Option Byte) (vaddr : BitVec 64) (size : ℕ)
    (places : List (BitVec 64)) (m : Machine B S) : Prop where
  holds : Holds (memory.patched patch) m.bus.cache
  mapped : mapping vaddr .store (List.range size) m = (places, none)
  clear : m.ClearOfTables vaddr size

variable [ConsoleSink S] (hreliable : ¬ Fallible B) {vaddr : BitVec 64} {size : ℕ}
  (hstraddles : ¬ fitsPage vaddr size) {memory : Memory}
include hreliable hstraddles

/-- A store that straddles two pages stores the bytes that are mapped. -/
theorem writeTranslated_mapped (value : BitVec 64) {m : Machine B S}
    (hm : Holds memory m.bus.cache) (hclear : m.ClearOfTables vaddr size) :
    Exec.wp (writeTranslated vaddr size value)
      (fun _ after => (mapping vaddr .store (List.range size) m).2 = none ∧
        Holds (memory.scatter (storesOf vaddr value (List.range size) m)) after.bus.cache)
      (fun err after => (mapping vaddr .store (List.range size) m).2 = some err ∧
        Holds (memory.scatter (storesOf vaddr value (List.range size) m)) after.bus.cache)
      False m := by
  have hself (touched : Set ℕ) : m.Beside touched m :=
    ⟨rfl, rfl, rfl, rfl, rfl, memory, memory, hm, hm, fun _ _ => rfl⟩
  rw [writeTranslated, if_neg hstraddles]
  refine writeEach_mapped hreliable vaddr value (List.range size)
    (hself {place | ∃ pa ∈ (mapping vaddr .store (List.range size) m).1, pa.toNat = place}) hm
    (fun pa hpa => ⟨hclear.ram pa hpa, pa, hpa, rfl⟩) ?_
  rintro entry hentry _ ⟨pa, hpa, rfl⟩
  exact hclear.apart pa hpa entry hentry

/-- **A store done again leaves what one clean store leaves**: the bytes of the first try are
stored again where they are, or lie where they did. -/
theorem straddling_store_again {value : BitVec 64} {start failed again clean : Machine B S}
    {err : Exception} (hstart : Holds memory start.bus.cache) (hclear : start.ClearOfTables vaddr size)
    (hfailed : (writeTranslated vaddr size value).run start = .error err failed) {left : Memory}
    (hleft : Holds left failed.bus.cache) {patch : ℕ → Option Byte} {places : List (BitVec 64)}
    (hkept : (mapping vaddr .store (List.range size) start).1 <+: places)
    (hagain : again.Mended left patch vaddr size places)
    (hclean : clean.Mended memory patch vaddr size places) :
    ∃ final done done', (writeTranslated vaddr size value).run again = .ok () done ∧
      (writeTranslated vaddr size value).run clean = .ok () done' ∧
        Holds final done.bus.cache ∧ Holds final done'.bus.cache := by
  have htried := (writeTranslated_mapped hreliable hstraddles value hstart hclear).of_run_error
    hfailed
  have hmemory : left = memory.scatter (storesOf vaddr value (List.range size) start) :=
    hleft.memory.symm.trans htried.2.memory
  have hcompletes {m : Machine B S} {ram : Memory} (hm : m.Mended ram patch vaddr size places) :
      ∃ done, (writeTranslated vaddr size value).run m = .ok () done ∧
        Holds ((ram.patched patch).scatter (List.zipWith (fun pa i => (pa.toNat, byteOf value i))
          places (List.range size))) done.bus.cache := by
    have hwp := writeTranslated_mapped hreliable hstraddles value hm.holds hm.clear
    rw [storesOf, hm.mapped] at hwp
    obtain ⟨_, done, hrun, -, hdone⟩ := (hwp.imp (fun _ _ hpost => hpost)
      (fun _ _ hfails => nomatch hfails.1) (fun hfalse => hfalse)).exists_ok
    exact ⟨done, hrun, hdone⟩
  obtain ⟨done, hrun, hdone⟩ := hcompletes hagain
  obtain ⟨done', hrun', hdone'⟩ := hcompletes hclean
  refine ⟨_, done, done', hrun, hrun', hdone, ?_⟩
  rw [hmemory, Memory.scatter_patched_scatter]
  · exact hdone'
  · exact List.map_subset _ (Memory.zipWith_prefix _ hkept _).subset

omit hstraddles in
/-- **The short way of an access comes to the long way**, and a store that straddles two
pages may be done again. -/
theorem accesses_bytewise {m : Machine B S} (hm : Holds memory m.bus.cache)
    (hsize : size ∈ [1, 2, 4, 8]) :
    (∀ access, m.MapsToRam vaddr size access →
      ((readTranslated vaddr size access).run m).Alike SameContents
        ((readBytewise vaddr size access).run m)) ∧
    (∀ value, m.MapsToRam vaddr size .store →
      ((writeTranslated vaddr size value).run m).Alike SameContents
        ((writeBytewise vaddr size value).run m)) ∧
    ∀ {value err failed left patch places} {again clean : Machine B S}, ¬ fitsPage vaddr size →
      m.ClearOfTables vaddr size → (writeTranslated vaddr size value).run m = .error err failed →
      Holds left failed.bus.cache → (mapping vaddr .store (List.range size) m).1 <+: places →
      again.Mended left patch vaddr size places → clean.Mended memory patch vaddr size places →
        ∃ final done done', (writeTranslated vaddr size value).run again = .ok () done ∧
          (writeTranslated vaddr size value).run clean = .ok () done' ∧
            Holds final done.bus.cache ∧ Holds final done'.bus.cache := by
  refine ⟨fun access hmapped => ?_, fun value hmapped => ?_, ?_⟩
  · exact readTranslated_bytewise hreliable hm hsize hmapped
  · exact writeTranslated_bytewise hreliable hm hsize value hmapped
  · intro value err failed left patch places again clean hstraddles hclear hfailed hleft hkept
      hagain hclean
    exact straddling_store_again hreliable hstraddles hm hclear hfailed hleft hkept hagain hclean

end Machine

namespace Straddle

open Machine

/-! ## A page is mapped between two tries -/

/-- `0x1000` is mapped to `0x80005000`, and `0x2000` is not mapped. -/
def start : Machine FakeBacking (List Byte) :=
  overPages
    (fun page =>
      if page = 1 then Sv39.tablePage [0x80002 <<< 10 ||| 1]
      else if page = 2 then Sv39.tablePage [0x80003 <<< 10 ||| 1]
      else if page = 3 then Sv39.tablePage [0, 0x80005 <<< 10 ||| 0xC7]
      else fun _ => 0)
    { Cpu.new 0 with csrs := Sv39.pagingCsrs, priv := .s }

def store : MachineM FakeBacking (List Byte) PUnit := writeTranslated 0x1FFE 4 0x44332211

/-- The machine an outcome leaves. -/
def leftBy (outcome : Outcome Exception (Machine FakeBacking (List Byte)) PUnit) :
    Machine FakeBacking (List Byte) :=
  match outcome with
  | .ok _ after => after
  | .error _ after => after
  | .panic => start

theorem eq_error_leftBy {outcome : Outcome Exception (Machine FakeBacking (List Byte)) PUnit}
    {err : Exception} (hfailure : outcome.failure = some err) :
    outcome = .error err (leftBy outcome) := by
  obtain ⟨_, rfl⟩ := Outcome.eq_error_of_failure hfailure
  rfl

/-- The first try, which faults at `0x2000`. -/
def failed : Machine FakeBacking (List Byte) := leftBy (store.run start)

/-- The guest maps `0x2000` to `0x80009000`. -/
def mapsPage (m : Machine FakeBacking (List Byte)) : Machine FakeBacking (List Byte) :=
  leftBy ((busStore 0x80003010 8 (0x80009 <<< 10 ||| 0xC7)).run m)

def places : List (BitVec 64) := [0x80005FFE, 0x80005FFF, 0x80009000, 0x80009001]

/-- The entry the guest writes. -/
def patch (place : ℕ) : Option Byte :=
  if 0x80003010 ≤ place then
    (Bus.bytesOf 8 (0x80009 <<< 10 ||| 0xC7))[place - 0x80003010]?
  else none

theorem run_start : store.run start = .error (.storePageFault 0x2000) failed :=
  eq_error_leftBy (by decide +kernel)

theorem holds_mapsPage {memory : Memory} {m : Machine FakeBacking (List Byte)}
    (hm : Holds memory m.bus.cache) :
    Holds (memory.patched patch) (mapsPage m).bus.cache := by
  have hwidth : (Bus.widthOf 8).isSome := rfl
  have hram : Bus.inRam 0x80003010 8 := by decide
  obtain ⟨_, after, hrun, hafter, -⟩ := (busStore_ram not_fallible_fakeBacking hm hwidth hram
    (0x80009 <<< 10 ||| 0xC7)).exists_ok
  rw [Memory.write_eq_patched] at hafter
  rw [mapsPage, hrun]
  exact hafter

theorem mapping_start : mapping 0x1FFE .store (List.range 4) start =
    ([0x80005FFE, 0x80005FFF], some (.storePageFault 0x2000)) := by
  decide +kernel

/-- Bytes in `0x80005000` and above, and tables below. -/
theorem clearOfTables {m : Machine FakeBacking (List Byte)} {found : List (BitVec 64)}
    {fault : Option Exception} (hmapped : mapping 0x1FFE .store (List.range 4) m = (found, fault))
    (hram : found.all fun pa => Bus.inRam pa 1 ∧ 0x80005000 ≤ pa.toNat)
    (htables : (tablesEach 0x1FFE (List.range 4) m).all fun entry =>
      entry.toNat + 8 ≤ 0x80005000) : m.ClearOfTables 0x1FFE 4 := by
  simp only [List.all_eq_true, decide_eq_true_eq] at hram htables
  constructor
  · intro pa hpa
    rw [hmapped] at hpa
    exact (hram pa hpa).1
  · intro pa hpa entry hentry
    rw [hmapped] at hpa
    exact .inr ((htables entry hentry).trans (hram pa hpa).2)

theorem clearOfTables_start : start.ClearOfTables 0x1FFE 4 :=
  clearOfTables mapping_start (by decide) (by decide +kernel)

theorem mended {memory : Memory} {m : Machine FakeBacking (List Byte)}
    (hm : Holds memory m.bus.cache)
    (hmapped : mapping 0x1FFE .store (List.range 4) (mapsPage m) = (places, none))
    (htables : (tablesEach 0x1FFE (List.range 4) (mapsPage m)).all fun entry =>
      entry.toNat + 8 ≤ 0x80005000) : (mapsPage m).Mended memory patch 0x1FFE 4 places :=
  ⟨holds_mapsPage hm, hmapped, clearOfTables hmapped (by decide) htables⟩

theorem mended_failed {left : Memory} (hleft : Holds left failed.bus.cache) :
    (mapsPage failed).Mended left patch 0x1FFE 4 places :=
  mended hleft (by decide +kernel) (by decide +kernel)

theorem mended_start {memory : Memory} (hstart : Holds memory start.bus.cache) :
    (mapsPage start).Mended memory patch 0x1FFE 4 places :=
  mended hstart (by decide +kernel) (by decide +kernel)

theorem exists_holds_start : ∃ memory, Holds memory start.bus.cache := ⟨_, Sv39.holds_busOver _⟩

/-- The store done again after the handler, and the store that never faulted. -/
theorem accesses_bytewise_mapsPage :
    ∃ final done done', store.run (mapsPage failed) = .ok () done ∧
      store.run (mapsPage start) = .ok () done' ∧
        Holds final done.bus.cache ∧ Holds final done'.bus.cache := by
  obtain ⟨memory, hstart⟩ := exists_holds_start
  have hstraddles : ¬ fitsPage 0x1FFE 4 := by decide
  have hsize : 4 ∈ [1, 2, 4, 8] := by decide
  have hprefix : (mapping 0x1FFE .store (List.range 4) start).1 <+: places := by
    rw [mapping_start]
    decide
  have hagain {left : Memory} (hleft : Holds left failed.bus.cache) := mended_failed hleft
  have hclean := mended_start hstart
  have hfailed := run_start
  have hclear := clearOfTables_start
  rw [store] at hfailed ⊢
  -- from here on the machines are known by these facts only
  generalize mapsPage failed = again at hagain ⊢
  generalize mapsPage start = clean at hclean ⊢
  generalize failed = failed at hfailed hagain
  generalize start = m at hstart hfailed hprefix hclear
  have htried := (writeTranslated_mapped not_fallible_fakeBacking hstraddles 0x44332211 hstart
    hclear).of_run_error hfailed
  exact (accesses_bytewise not_fallible_fakeBacking hstart hsize).2.2 hstraddles hclear hfailed
    htried.2 hprefix (hagain htried.2) hclean

end Straddle

end Baonix.Core

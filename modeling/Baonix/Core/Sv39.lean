import Baonix.Core.CacheRefinement
import Baonix.Core.Tlb
import Baonix.Lib.Bits

/-!
# Sv39

The virtual-address translation algorithm of the privileged specification, in
its own terms, and how far `translate` with an empty buffer conforms to it.
-/

namespace Baonix.Core

open Baonix.LittleEndian Baonix.Proto
open PageCache (Holds)
open Mmu (leafUnder levels root)

namespace Sv39

/-! ## The algorithm -/

/-- Bits 63 to 39 equal bit 38. -/
def canonical (vaddr : BitVec 64) : Prop :=
  ∀ i < 64, 39 ≤ i → vaddr.getLsbD i = vaddr.getLsbD 38

def vpn (vaddr : BitVec 64) (i : ℕ) : BitVec 64 := (vaddr.extractLsb' (12 + 9 * i) 9).setWidth 64

/-! The fields of a page-table entry. -/

def v (pte : BitVec 64) : Bool := pte.getLsbD 0
def r (pte : BitVec 64) : Bool := pte.getLsbD 1
def w (pte : BitVec 64) : Bool := pte.getLsbD 2
def x (pte : BitVec 64) : Bool := pte.getLsbD 3
def u (pte : BitVec 64) : Bool := pte.getLsbD 4
def a (pte : BitVec 64) : Bool := pte.getLsbD 6
def d (pte : BitVec 64) : Bool := pte.getLsbD 7
def ppn (pte : BitVec 64) : BitVec 64 := (pte.extractLsb' 10 44).setWidth 64

/-- The reserved encoding: writable but not readable. -/
def reserved (pte : BitVec 64) : Prop := r pte = false ∧ w pte = true

instance (pte : BitVec 64) : Decidable (reserved pte) := instDecidableAnd

/-- The leaf at the end of the tables, from the table at `table` with `i` levels
left. -/
def walk (m : Memory) (vaddr : BitVec 64) : ℕ → BitVec 64 → Option (ℕ × BitVec 64)
  | 0, _ => none
  | i + 1, table =>
      let pte := wordAt m (table + vpn vaddr i * 8)
      if v pte = false ∨ reserved pte then none
      else if r pte ∨ x pte then some (i, pte)
      else walk m vaddr i (ppn pte * 4096)

def grants (pte : BitVec 64) (mxr : Bool) : Access → Prop
  | .fetch => x pte
  | .load => r pte ∨ mxr ∧ x pte
  | .store => w pte

/-- U-mode uses user pages only; S-mode never executes from one, and accesses
one only with SUM. -/
def mayUse (pte : BitVec 64) (priv : Priv) (access : Access) (sum : Bool) : Prop :=
  (priv = .u → u pte) ∧ (priv = .s → u pte → access ≠ .fetch ∧ sum)

/-- The page-number bits below level `i` are zero. -/
def aligned (i : ℕ) (pte : BitVec 64) : Prop := ∀ j < 9 * i, (ppn pte).getLsbD j = false

/-- Accessed, and dirty for a store. -/
def marked (pte : BitVec 64) (access : Access) : Prop := a pte ∧ (access = .store → d pte)

/-- The page number of the leaf, with the bits below level `i` and the offset
from the virtual address. -/
def physical (i : ℕ) (pte vaddr : BitVec 64) : BitVec 64 :=
  Bits.splice (12 + 9 * i) (ppn pte <<< 12) vaddr

/-- The algorithm permits the access and yields `pa`. -/
structure Permits (m : Memory) (satp vaddr : BitVec 64) (access : Access) (priv : Priv)
    (sum mxr : Bool) (pa : BitVec 64) : Prop where
  canonical : canonical vaddr
  leaf : ∃ i pte, walk m vaddr 3 ((satp.extractLsb' 0 44).setWidth 64 * 4096) = some (i, pte) ∧
    grants pte mxr access ∧ mayUse pte priv access sum ∧ aligned i pte ∧ marked pte access ∧
      pa = physical i pte vaddr

/-- The page fault of an access, by its cause. -/
def pageFault : Access → BitVec 64
  | .fetch => 12
  | .load => 13
  | .store => 15

/-! ## The fields as the code reads them -/

theorem bit_eq (pte : BitVec 64) {n : ℕ} (hn : n < 64) : Mmu.bit pte n = pte.getLsbD n := by
  have hzero : pte &&& (1 : BitVec 64) <<< n = 0 ↔ pte.getLsbD n = false :=
    Bits.and_one_shiftLeft_eq_zero hn
  cases hbit : pte.getLsbD n
  · exact decide_eq_false (not_not_intro (hzero.mpr hbit))
  · exact decide_eq_true fun hclear => by simp [hzero.mp hclear] at hbit

theorem valid_iff (pte : BitVec 64) : pte &&& 1 = 0 ↔ v pte = false :=
  Bits.and_one_shiftLeft_eq_zero (n := 0) (by norm_num)

theorem isLeaf_iff (pte : BitVec 64) : Mmu.isLeaf pte = true ↔ r pte ∨ w pte ∨ x pte := by
  have hbits : pte &&& 0b1110 = 0 ↔
      pte.getLsbD 1 = false ∧ pte.getLsbD 2 = false ∧ pte.getLsbD 3 = false := by
    change pte &&& ((1#64 <<< 1) ||| (1#64 <<< 2 ||| 1#64 <<< 3)) = 0#64 ↔ _
    rw [Bits.and_or_eq_zero, Bits.and_or_eq_zero, Bits.and_one_shiftLeft_eq_zero (by norm_num),
      Bits.and_one_shiftLeft_eq_zero (by norm_num), Bits.and_one_shiftLeft_eq_zero (by norm_num)]
  rw [Mmu.isLeaf, decide_eq_true_iff, ne_eq, hbits, r, w, x]
  cases pte.getLsbD 1 <;> cases pte.getLsbD 2 <;> cases pte.getLsbD 3 <;> simp

theorem ppnOf_eq (pte : BitVec 64) : Mmu.ppnOf pte = ppn pte :=
  Bits.shift_and_mask pte 10 44

theorem root_eq (satp : BitVec 64) :
    root satp = (satp.extractLsb' 0 44).setWidth 64 * 4096 := by
  have hfield : satp &&& 0x0FFFFFFFFFFF = (satp.extractLsb' 0 44).setWidth 64 :=
    Bits.shift_and_mask satp 0 44
  rw [root, hfield]
  exact BitVec.shiftLeft_eq_mul_twoPow ..

theorem table_eq (pte : BitVec 64) : Mmu.ppnOf pte <<< 12 = ppn pte * 4096 := by
  rw [ppnOf_eq]
  exact BitVec.shiftLeft_eq_mul_twoPow ..

/-- The levels of the code, with `i` left. -/
def levelsLeft : ℕ → List Level
  | 0 => []
  | i + 1 => Fin.ofNat 3 (2 - i) :: levelsLeft i

theorem index_eq (vaddr : BitVec 64) {i : ℕ} (hi : i < 3) :
    Mmu.index vaddr (Fin.ofNat 3 (2 - i)) = vpn vaddr i := by
  match i with
  | 0 => exact Bits.shift_and_mask vaddr 12 9
  | 1 => exact Bits.shift_and_mask vaddr 21 9
  | 2 => exact Bits.shift_and_mask vaddr 30 9

/-- The code reaches the leaf the algorithm reaches, unless it is reserved. -/
theorem walk_eq (m : Memory) (vaddr : BitVec 64) {i : ℕ} (hi : i ≤ 3) (table : BitVec 64) :
    walk m vaddr i table =
      ((Mmu.leafOf m vaddr (levelsLeft i) table).filter fun leaf => ¬ reserved leaf.2).map
        fun leaf => (2 - leaf.1.val, leaf.2) := by
  induction i generalizing table with
  | zero => rfl
  | succ i ih =>
      have haddr : Mmu.entryAddr vaddr (Fin.ofNat 3 (2 - i)) table = table + vpn vaddr i * 8 := by
        rw [Mmu.entryAddr, index_eq vaddr hi]
      have hlevel : 2 - (2 - i) % 3 = i := by omega
      simp only [walk, levelsLeft, Mmu.leafOf, haddr, valid_iff]
      generalize wordAt m (table + vpn vaddr i * 8) = pte
      by_cases hvalid : v pte = false
      · simp [hvalid]
      by_cases hreserved : reserved pte
      · have hleaf : Mmu.isLeaf pte = true := (isLeaf_iff pte).mpr (.inr (.inl hreserved.2))
        simp [hvalid, hreserved, hleaf]
      by_cases hreadable : r pte ∨ x pte
      · have hleaf : Mmu.isLeaf pte = true := by
          rw [isLeaf_iff]
          tauto
        simp [hvalid, hreserved, hleaf, hreadable, hlevel]
      · have hleaf : ¬ Mmu.isLeaf pte = true := by
          rw [reserved] at hreserved
          rw [isLeaf_iff]
          cases hr : r pte <;> cases hw : w pte <;> simp_all
        simp only [hvalid, hreserved, hleaf, hreadable, if_false, table_eq]
        exact ih (by omega) _

theorem aligned_iff (level : Level) (pte : BitVec 64) :
    Mmu.aligned level pte ↔ aligned (2 - level.val) pte := by
  rw [Mmu.aligned, ppnOf_eq]
  match level with
  | 0 => exact Bits.and_mask_eq_zero (n := 18)
  | 1 => exact Bits.and_mask_eq_zero (n := 9)
  | 2 => exact Bits.and_mask_eq_zero (n := 0)

theorem physical_eq (level : Level) (pte vaddr : BitVec 64) :
    Mmu.physical (Mmu.splice (Mmu.ppnOf pte) vaddr level) vaddr =
      physical (2 - level.val) pte vaddr := by
  rw [ppnOf_eq]
  match level with
  | 0 => exact Bits.splice_shift 18 12 (ppn pte) vaddr
  | 1 => exact Bits.splice_shift 9 12 (ppn pte) vaddr
  | 2 =>
      have hbelow := Bits.splice_shift 0 12 (ppn pte) vaddr
      rwa [Bits.splice_zero] at hbelow

/-- What the code checks of a leaf. -/
theorem checkPerms_iff (pte : BitVec 64) (priv : Priv) (access : Access) (vaddr : BitVec 64) :
    Mmu.checkPerms pte priv access vaddr = .ok () ↔
      grants pte false access ∧ (priv = .u → u pte) ∧ marked pte access := by
  have hgranted : Mmu.granted pte access = true ↔ grants pte false access := by
    cases access <;> simp [Mmu.granted, grants, bit_eq, x, r, w]
  have hu : Mmu.bit pte 4 = u pte := bit_eq pte (by norm_num)
  have ha : Mmu.bit pte 6 = a pte := bit_eq pte (by norm_num)
  have hd : Mmu.bit pte 7 = d pte := bit_eq pte (by norm_num)
  rw [← hgranted, Mmu.checkPerms, hu, ha, hd, marked]
  cases a pte <;> cases d pte <;> split_ifs <;> simp_all

/-! ## Conformance -/

/-- `mstatus.SUM` and `mstatus.MXR`. -/
def sumOf (csrs : Csrs) : Bool := (csrs.read Csr.mstatus).getLsbD 18
def mxrOf (csrs : Csrs) : Bool := (csrs.read Csr.mstatus).getLsbD 19

variable {B S : Type} [FlatBacking B]

/-- What `translate` with an empty buffer owes the algorithm: an address only if
the algorithm yields it, and otherwise the page fault of the access. -/
def Conforms (m : Memory) (call : Mmu.Call B S) : Prop :=
  ∃ result after, call.reply .default = some (result, after) ∧
    (∀ pa, result = .ok pa → Permits m (call.csrs.read Csr.satp) call.vaddr call.access
      call.priv (sumOf call.csrs) (mxrOf call.csrs) pa) ∧
    ∀ err, result = .error err → err.cause = pageFault call.access ∧ err.tval = call.vaddr

/-- If the tables reach a leaf that passes the checks the code makes, the rules
it does not check hold as well. -/
def Lawful (m : Memory) (call : Mmu.Call B S) : Prop :=
  ∀ level pte, leafUnder m (call.csrs.read Csr.satp) call.vaddr = some (level, pte) →
    Mmu.checkPerms pte call.priv call.access call.vaddr = .ok () → Mmu.aligned level pte →
      canonical call.vaddr ∧ ¬ reserved pte ∧
        (call.priv = .s → u pte → call.access ≠ .fetch ∧ sumOf call.csrs)

theorem cause_fault (access : Access) (vaddr : BitVec 64) :
    (Mmu.fault access vaddr).cause = pageFault access ∧ (Mmu.fault access vaddr).tval = vaddr := by
  cases access <;> exact ⟨rfl, rfl⟩

/-- An address obtained from a leaf, as the algorithm sees it. -/
theorem permits_iff {m : Memory} {satp vaddr pa : BitVec 64} {access : Access} {priv : Priv}
    {sum mxr : Bool} {level : Level} {pte : BitVec 64}
    (hleaf : leafUnder m satp vaddr = some (level, pte))
    (hpa : Mmu.throughLeaf priv access vaddr level pte = .ok pa) :
    Permits m satp vaddr access priv sum mxr pa ↔
      canonical vaddr ∧ ¬ reserved pte ∧ (priv = .s → u pte → access ≠ .fetch ∧ sum) := by
  obtain ⟨hperms, haligned, rfl⟩ := Mmu.throughLeaf_eq_ok.mp hpa
  obtain ⟨hgrants, huser, hmarked⟩ := (checkPerms_iff ..).mp hperms
  have hwalk := walk_eq m vaddr (le_refl 3) (root satp)
  rw [root_eq, show levelsLeft 3 = levels from rfl] at hwalk
  rw [leafUnder, root_eq] at hleaf
  rw [hleaf] at hwalk
  constructor
  · rintro ⟨hcanonical, i, found, hfound, -, hmay, -⟩
    rw [hfound] at hwalk
    have hsame : (pte = found ∧ ¬ reserved found) ∧ 2 - level.val = i := by simpa using hwalk
    obtain ⟨⟨rfl, hreserved⟩, -⟩ := hsame
    exact ⟨hcanonical, hreserved, hmay.2⟩
  · rintro ⟨hcanonical, hreserved, hsupervisor⟩
    refine ⟨hcanonical, 2 - level.val, pte, ?_, ?_, ⟨huser, hsupervisor⟩,
      (aligned_iff level pte).mp haligned, hmarked, physical_eq level pte vaddr⟩
    · rw [hwalk]
      simp [Option.filter, hreserved]
    · cases access
      · exact hgrants
      · exact .inl (hgrants.resolve_right fun hexecute => nomatch hexecute.1)
      · exact hgrants

/-- **Where a cold walk conforms to Sv39.**  Over tables in RAM and a backing that
does not fail, `translate` with an empty buffer returns only what the algorithm
yields, and page-faults otherwise, exactly if no leaf that passes its checks is
reached from an address that is not canonical, is writable but not readable, or
is a user page S-mode may not use. -/
theorem conforms_iff_lawful (hreliable : ¬ Fallible B) {m : Memory} (call : Mmu.Call B S)
    (hpaging : Mmu.paging call.csrs call.priv) (hbus : Holds m call.bus.cache)
    (htables : Mmu.TablesInRam m call.vaddr levels (root (call.csrs.read Csr.satp))) :
    Conforms m call ↔ Lawful m call := by
  obtain ⟨after, hreply, -⟩ := Mmu.reply_eq hreliable call hbus (fun _ => htables)
    (fun _ => Mmu.trusted_default _ _)
  have hcold : Mmu.coldResult m call.csrs call.priv call.vaddr call.access =
      Mmu.throughWalk call.priv call.access call.vaddr
        (leafUnder m (call.csrs.read Csr.satp) call.vaddr) := by
    rw [Mmu.coldResult, Mmu.coldLeaf, if_pos hpaging, if_pos hpaging]
  rw [hcold] at hreply
  constructor
  · rintro ⟨result, other, hother, hok, -⟩ level pte hleaf hperms haligned
    rw [hreply, Option.some.injEq, Prod.mk.injEq] at hother
    obtain ⟨hresult, -⟩ := hother
    rw [hleaf] at hresult
    have hpa : Mmu.throughLeaf call.priv call.access call.vaddr level pte = .ok _ :=
      Mmu.throughLeaf_eq_ok.mpr ⟨hperms, haligned, rfl⟩
    exact (permits_iff hleaf hpa).mp (hok _ (by rw [← hresult]; exact hpa))
  · intro hlawful
    refine ⟨_, after, hreply, ?_, ?_⟩
    · intro pa hpa
      cases hleaf : leafUnder m (call.csrs.read Csr.satp) call.vaddr with
      | none => rw [hleaf] at hpa; cases hpa
      | some leaf =>
          rw [hleaf] at hpa
          obtain ⟨hperms, haligned, -⟩ := Mmu.throughLeaf_eq_ok.mp hpa
          exact (permits_iff hleaf hpa).mpr (hlawful leaf.1 leaf.2 hleaf hperms haligned)
    · intro err herr
      rw [Mmu.throughWalk_error herr]
      exact cause_fault call.access call.vaddr

/-! A machine whose root table is the second page of RAM. -/

/-- A page that starts with the given words. -/
def tablePage (words : List (BitVec 64)) : Page := fun off =>
  (words.flatMap fun word => toBytes 8 word.toNat)[(off : ℕ)]?.getD 0

def tables (words : List (BitVec 64)) : BitVec 32 → Page := fun page =>
  if page = 1 then tablePage words else fun _ => 0

/-- A bus over an empty cache of one frame. -/
def busOver (pages : BitVec 32 → Page) : Bus FakeBacking (List Byte) :=
  ⟨⟨⟨pages⟩, [], fun _ => 0, 0, 1, ⟨0, 0, 0, 0, 0⟩⟩, .default, .new []⟩

theorem holds_busOver (pages : BitVec 32 → Page) :
    Holds (flat pages) (busOver pages).cache := by
  have hnew : PageCache.new (⟨pages⟩ : FakeBacking) 1 = some (busOver pages).cache := rfl
  exact holds_new hnew

/-- The processor's registers with that root table. -/
def pagingCsrs : Csrs := Csrs.default.write Csr.satp (8 <<< 60 ||| 0x80001)

def userLoad (words : List (BitVec 64)) (vaddr : BitVec 64) :
    Mmu.Call FakeBacking (List Byte) :=
  ⟨pagingCsrs, .u, vaddr, .load, busOver (tables words)⟩

/-- A gigapage over RAM, user, readable, writable, executable, accessed, dirty. -/
def gigapage : BitVec 64 := 0x80000 <<< 10 ||| 0xDF

theorem tablesInRam_userLoad {vaddr : BitVec 64} (hroot : Mmu.index vaddr 0 = 0) :
    Mmu.TablesInRam (flat (tables [gigapage])) vaddr levels (root (pagingCsrs.read Csr.satp)) := by
  have haddr : Mmu.entryAddr vaddr 0 (root (pagingCsrs.read Csr.satp)) = 0x80001000 := by
    rw [Mmu.entryAddr, hroot]
    decide
  have hword : Mmu.isPointer (wordAt (flat (tables [gigapage])) 0x80001000) = false := by
    decide +kernel
  simp only [Mmu.TablesInRam, haddr, hword, Bool.false_eq_true, false_implies, and_true]
  decide

/-- A load at `0x80_0000_0000`, whose bit 39 is set and bit 38 is not, is let
through to the first byte of RAM. -/
theorem not_conforms_noncanonical :
    Mmu.paging pagingCsrs .u ∧ ¬ Fallible FakeBacking ∧
      Holds (flat (tables [gigapage])) (userLoad [gigapage] 0x8000000000).bus.cache ∧
      Mmu.TablesInRam (flat (tables [gigapage])) 0x8000000000 levels
        (root (pagingCsrs.read Csr.satp)) ∧
      ¬ Conforms (flat (tables [gigapage])) (userLoad [gigapage] 0x8000000000) := by
  have hpaging : Mmu.paging pagingCsrs .u := by decide
  have hholds := holds_busOver (tables [gigapage])
  have htables := tablesInRam_userLoad (show Mmu.index 0x8000000000 0 = 0 by decide)
  refine ⟨hpaging, not_fallible_fakeBacking, hholds, htables, ?_⟩
  rintro ⟨result, after, hreply, hok, -⟩
  obtain ⟨other, hcold, -⟩ := Mmu.reply_eq not_fallible_fakeBacking
    (userLoad [gigapage] 0x8000000000) hholds (fun _ => htables)
    (fun _ => Mmu.trusted_default _ _)
  rw [hcold, Option.some.injEq, Prod.mk.injEq] at hreply
  have hpa : Mmu.coldResult (flat (tables [gigapage])) pagingCsrs .u 0x8000000000 .load =
      .ok 0x80000000 := by
    decide +kernel
  have hcanonical := (hok 0x80000000 (by rw [← hreply.1]; exact hpa)).canonical
  exact absurd (hcanonical 39 (by norm_num) le_rfl) (by decide)

/-- An ordinary load through the same table conforms. -/
theorem conforms_iff_lawful_gigapage :
    Conforms (flat (tables [gigapage])) (userLoad [gigapage] 0x1234) ↔
      Lawful (flat (tables [gigapage])) (userLoad [gigapage] 0x1234) :=
  conforms_iff_lawful not_fallible_fakeBacking (userLoad [gigapage] 0x1234) (by decide)
    (holds_busOver (tables [gigapage])) (tablesInRam_userLoad (by decide))

end Sv39

end Baonix.Core

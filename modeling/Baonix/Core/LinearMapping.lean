import Baonix.Core.Sv39

/-!
# Leaf mappings are linear

A walk reads the same entries for all addresses of the region its last entry covers, and
so they share the leaf and what it permits.  Inside the region an address is translated
by moving it, whether the walk does it or an entry of the buffer.
-/

namespace Baonix.Core

open PageCache (Holds)

namespace Mmu

/-! ## Regions -/

/-- The bits of an address inside the region an entry of a level covers. -/
def regionBits (level : Level) : ℕ := 12 + 9 * (2 - level.val)

/-- Two addresses in one region of a level: 1 GiB, 2 MiB or 4 KiB. -/
def SameRegion (level : Level) (vaddr other : BitVec 64) : Prop :=
  vaddr >>> regionBits level = other >>> regionBits level

instance (level : Level) (vaddr other : BitVec 64) : Decidable (SameRegion level vaddr other) :=
  inferInstanceAs (Decidable (_ = _))

theorem index_eq_region (vaddr : BitVec 64) (level : Level) :
    index vaddr level = vaddr >>> regionBits level &&& 0x1FF := by
  match level with
  | 0 => rfl
  | 1 => rfl
  | 2 => rfl

theorem SameRegion.of_le {level outer : Level} {vaddr other : BitVec 64}
    (hsame : SameRegion level vaddr other) (hle : outer ≤ level) :
    SameRegion outer vaddr other := by
  have hbits : regionBits outer = regionBits level + (regionBits outer - regionBits level) := by
    have := Fin.le_def.mp hle
    simp only [regionBits]
    omega
  rw [SameRegion, hbits, BitVec.shiftRight_add, BitVec.shiftRight_add, hsame]

theorem SameRegion.entryAddr {level outer : Level} {vaddr other : BitVec 64}
    (hsame : SameRegion level vaddr other) (hle : outer ≤ level) (table : BitVec 64) :
    entryAddr vaddr outer table = entryAddr other outer table := by
  rw [Mmu.entryAddr, Mmu.entryAddr, index_eq_region, index_eq_region, hsame.of_le hle]

/-- Spliced over a region, two addresses stay as far apart as they were. -/
theorem SameRegion.physical_sub {level : Level} {vaddr other : BitVec 64}
    (hsame : SameRegion level vaddr other) (pte : BitVec 64) :
    ((physical (splice (ppnOf pte) vaddr level) vaddr).toNat : ℤ) -
        (physical (splice (ppnOf pte) other level) other).toNat =
      vaddr.toNat - other.toNat := by
  have hhigh : vaddr.toNat / 2 ^ regionBits level = other.toNat / 2 ^ regionBits level := by
    rw [← Nat.shiftRight_eq_div_pow, ← Nat.shiftRight_eq_div_pow, ← BitVec.toNat_ushiftRight,
      ← BitVec.toNat_ushiftRight, hsame]
  have hvaddr := Nat.div_add_mod vaddr.toNat (2 ^ regionBits level)
  have hother := Nat.div_add_mod other.toNat (2 ^ regionBits level)
  rw [Sv39.physical_eq, Sv39.physical_eq, Sv39.physical, Sv39.physical, Bits.toNat_splice,
    Bits.toNat_splice]
  rw [hhigh] at hvaddr
  simp only [regionBits] at hvaddr hother ⊢
  omega

/-! ## The end of a walk -/

/-- How the entries of a walk end: at a leaf, at an entry that leads nowhere, or at one
that cannot be read. -/
inductive WalkEnd
  | leaf (pte : BitVec 64)
  | nowhere
  | unread (err : Exception)
  deriving DecidableEq

variable {B S : Type}

/-- What a walk does at its end. -/
def settle (priv : Priv) (access : Access) (vaddr : BitVec 64) :
    Level × WalkEnd → Exec Exception (MemSystem B S) (BitVec 64)
  | (_, .unread err) => Exec.raise (walkError access vaddr err)
  | (_, .nowhere) => Exec.raise (fault access vaddr)
  | (level, .leaf pte) => do
      Exec.ofExcept (checkPerms pte priv access vaddr)
      if ppnOf pte &&& superpageMask level ≠ 0 then Exec.raise (fault access vaddr)
      else do
        let ppn := splice (ppnOf pte) vaddr level
        Exec.update fun system => { system with mmu := system.mmu.fill vaddr ppn pte }
        pure (physical ppn vaddr)

/-- What a translation returns that descends to an end. -/
def endResult (priv : Priv) (access : Access) (vaddr : BitVec 64) :
    Level × WalkEnd → Except Exception (BitVec 64)
  | (_, .unread err) => .error (walkError access vaddr err)
  | (_, .nowhere) => .error (fault access vaddr)
  | (level, .leaf pte) => throughLeaf priv access vaddr level pte

theorem settle_reply (priv : Priv) (access : Access) (vaddr : BitVec 64) (last : Level × WalkEnd)
    (system : MemSystem B S) :
    ∃ after, ((settle priv access vaddr last).run system).reply =
      some (endResult priv access vaddr last, after) := by
  obtain ⟨level, found⟩ := last
  cases found with
  | unread err => exact ⟨system, rfl⟩
  | nowhere => exact ⟨system, rfl⟩
  | leaf pte =>
      rw [settle, Exec.run_bind, endResult, throughLeaf]
      cases hperms : checkPerms pte priv access vaddr with
      | error err => exact ⟨system, rfl⟩
      | ok value =>
          by_cases haligned : aligned level pte
          · have hpass : ¬ppnOf pte &&& superpageMask level ≠ 0 := not_not_intro haligned
            simp only [Exec.ofExcept, if_neg hpass, if_pos haligned]
            exact ⟨_, rfl⟩
          · have hrefused : ppnOf pte &&& superpageMask level ≠ 0 := haligned
            simp only [Exec.ofExcept, if_pos hrefused, if_neg haligned]
            exact ⟨_, rfl⟩

variable [MemBacking B]

/-- Reads the entries of a walk, and tells the level of the last. -/
def descend (vaddr : BitVec 64) (level : Level) :
    List Level → BitVec 64 → Exec Exception (Bus B S) (Level × WalkEnd)
  | rest, table => do
      match ← Exec.attempt (Bus.load (entryAddr vaddr level table) 8) with
      | .error err => pure (level, .unread err)
      | .ok pte =>
          if pte &&& 1 = 0 then pure (level, .nowhere)
          else if isLeaf pte then pure (level, .leaf pte)
          else
            match rest with
            | [] => pure (level, .nowhere)
            | next :: rest => descend vaddr next rest (ppnOf pte <<< 12)

/-- The outcome of a walk, from that of its descent. -/
def settled (priv : Priv) (access : Access) (vaddr : BitVec 64) (system : MemSystem B S) :
    Outcome Exception (Bus B S) (Level × WalkEnd) → Outcome Exception (MemSystem B S) (BitVec 64)
  | .ok last bus => settle priv access vaddr last { system with bus := bus }
  | .error err bus => .error err { system with bus := bus }
  | .panic => .panic

theorem walk_eq_descend (priv : Priv) (access : Access) (vaddr : BitVec 64) (level : Level)
    (rest : List Level) (table : BitVec 64) (system : MemSystem B S) :
    (walk priv access vaddr (level :: rest) table).run system =
      settled priv access vaddr system ((descend vaddr level rest table).run system.bus) := by
  induction rest generalizing level table system with
  | nil =>
      rw [walk, descend, Exec.run_bind, Exec.run_bind]
      simp only [loadPte, Exec.zoom, Exec.attempt, Exec.run, entryAddr]
      cases Bus.load (table + index vaddr level * 8) 8 system.bus with
      | error err bus => rfl
      | panic => rfl
      | ok pte bus =>
          by_cases hvalid : pte &&& 1 = 0
          · simp only [if_pos hvalid]
            rfl
          by_cases hleaf : isLeaf pte
          · simp only [if_neg hvalid, if_pos hleaf]
            rfl
          · simp only [if_neg hvalid, if_neg hleaf]
            rfl
  | cons next rest ih =>
      rw [walk, descend, Exec.run_bind, Exec.run_bind]
      simp only [loadPte, Exec.zoom, Exec.attempt, Exec.run, entryAddr]
      cases Bus.load (table + index vaddr level * 8) 8 system.bus with
      | error err bus => rfl
      | panic => rfl
      | ok pte bus =>
          by_cases hvalid : pte &&& 1 = 0
          · simp only [if_pos hvalid]
            rfl
          by_cases hleaf : isLeaf pte
          · simp only [if_neg hvalid, if_pos hleaf]
            rfl
          · simp only [if_neg hvalid, if_neg hleaf]
            exact ih next (ppnOf pte <<< 12) { system with bus := bus }

/-- A descent ends at its first level or below. -/
theorem le_of_descend {vaddr : BitVec 64} {level : Level} {rest : List Level}
    {table : BitVec 64} {bus after : Bus B S} {last : Level × WalkEnd}
    (hsorted : (level :: rest).Pairwise (· < ·))
    (hrun : (descend vaddr level rest table).run bus = .ok last after) : level ≤ last.1 := by
  induction rest generalizing level table bus with
  | nil =>
      rw [descend, Exec.run_bind] at hrun
      simp only [Exec.attempt, Exec.run] at hrun
      cases hload : Bus.load (entryAddr vaddr level table) 8 bus with
      | error err bus =>
          rw [hload] at hrun
          cases hrun
          exact le_rfl
      | panic =>
          rw [hload] at hrun
          cases hrun
      | ok pte bus =>
          rw [hload] at hrun
          dsimp only at hrun
          split_ifs at hrun <;> cases hrun <;> exact le_rfl
  | cons next rest ih =>
      rw [descend, Exec.run_bind] at hrun
      simp only [Exec.attempt, Exec.run] at hrun
      cases hload : Bus.load (entryAddr vaddr level table) 8 bus with
      | error err bus =>
          rw [hload] at hrun
          cases hrun
          exact le_rfl
      | panic =>
          rw [hload] at hrun
          cases hrun
      | ok pte bus =>
          rw [hload] at hrun
          dsimp only at hrun
          split_ifs at hrun
          · cases hrun
            exact le_rfl
          · cases hrun
            exact le_rfl
          · have hnext : level < next := List.rel_of_pairwise_cons hsorted List.mem_cons_self
            exact le_trans hnext.le (ih (List.Pairwise.of_cons hsorted) hrun)

/-- All addresses of the region the last entry covers descend alike. -/
theorem descend_congr {vaddr other : BitVec 64} {level : Level} {rest : List Level}
    {table : BitVec 64} {bus after : Bus B S} {last : Level × WalkEnd}
    (hsorted : (level :: rest).Pairwise (· < ·))
    (hrun : (descend vaddr level rest table).run bus = .ok last after)
    (hsame : SameRegion last.1 vaddr other) :
    (descend other level rest table).run bus = .ok last after := by
  have haddr := hsame.entryAddr (le_of_descend hsorted hrun) table
  induction rest generalizing level table bus with
  | nil =>
      rw [descend, haddr] at hrun
      rw [descend]
      exact hrun
  | cons next rest ih =>
      rw [descend, Exec.run_bind] at hrun ⊢
      rw [haddr] at hrun
      simp only [Exec.attempt, Exec.run] at hrun ⊢
      cases hload : Bus.load (entryAddr other level table) 8 bus with
      | error err bus =>
          rw [hload] at hrun
          exact hrun
      | panic =>
          rw [hload] at hrun
          cases hrun
      | ok pte bus =>
          rw [hload] at hrun
          by_cases hvalid : pte &&& 1 = 0
          · simp only [if_pos hvalid] at hrun ⊢
            exact hrun
          by_cases hleaf : isLeaf pte
          · simp only [if_neg hvalid, if_pos hleaf] at hrun ⊢
            exact hrun
          · simp only [if_neg hvalid, if_neg hleaf] at hrun ⊢
            have hrest := List.Pairwise.of_cons hsorted
            exact ih hrest hrun (hsame.entryAddr (le_of_descend hrest hrun) _)

/-! ## What a translation returns -/

/-- The descent from the root table. -/
def descent (satp vaddr : BitVec 64) : Exec Exception (Bus B S) (Level × WalkEnd) :=
  descend vaddr 0 [1, 2] (root satp)

/-- The leaf a descent finds on a bus as it is. -/
def leafAt (satp : BitVec 64) (bus : Bus B S) (vaddr : BitVec 64) : Option (Level × BitVec 64) :=
  match ((descent satp vaddr).run bus).value with
  | some (level, .leaf pte) => some (level, pte)
  | _ => none

/-- A translation returns what the end of its descent gives, also if the buffer knows the
page from a leaf that is still there. -/
theorem translate_reply {csrs : Csrs} {priv : Priv} (hpaging : paging csrs priv)
    (access : Access) {vaddr : BitVec 64} {last : Level × WalkEnd} {system : MemSystem B S}
    (hend : ((descent (csrs.read Csr.satp) vaddr).run system.bus).value = some last)
    (htrusted : Trusted (leafAt (csrs.read Csr.satp) system.bus vaddr) vaddr system.mmu) :
    ∃ after, ((translate csrs priv vaddr access).run system).reply =
      some (endResult priv access vaddr last, after) := by
  rw [translate, if_neg (not_not_intro hpaging), Exec.run_read_bind]
  by_cases hhit : (system.mmu.tlb (slot (vaddr >>> 12))).valid ∧
      (system.mmu.tlb (slot (vaddr >>> 12))).vpn = vaddr >>> 12
  · have hstands := htrusted hhit.1 hhit.2
    have hresult : hitResult (system.mmu.tlb (slot (vaddr >>> 12))) priv access vaddr =
        endResult priv access vaddr last := by
      rw [hstands.hitResult, leafAt, hend]
      obtain ⟨level, found⟩ := last
      cases found with
      | leaf pte => rfl
      | nowhere =>
          obtain ⟨_, hleaf, -⟩ := hstands.leaf
          rw [leafAt, hend] at hleaf
          cases hleaf
      | unread err =>
          obtain ⟨_, hleaf, -⟩ := hstands.leaf
          rw [leafAt, hend] at hleaf
          cases hleaf
    rw [if_pos hhit, ← hresult, hitResult, Exec.run_bind]
    cases checkPerms (system.mmu.tlb (slot (vaddr >>> 12))).perms priv access vaddr with
    | ok value => exact ⟨system, rfl⟩
    | error err => exact ⟨system, rfl⟩
  · rw [if_neg hhit]
    obtain ⟨bus, hrun⟩ := Outcome.eq_ok_of_value hend
    let walking : MemSystem B S :=
      { system with mmu := { system.mmu with walks := system.mmu.walks + 1 } }
    have hwalk : (walk priv access vaddr [0, 1, 2] (root (csrs.read Csr.satp))).run walking =
        (settle priv access vaddr last).run { walking with bus := bus } := by
      rw [walk_eq_descend, show walking.bus = system.bus from rfl,
        show (descend vaddr 0 [1, 2] (root (csrs.read Csr.satp))).run system.bus = .ok last bus
          from hrun]
      rfl
    obtain ⟨after, hreply⟩ := settle_reply priv access vaddr last { walking with bus := bus }
    exact ⟨after, (congrArg Outcome.reply hwalk).trans hreply⟩

/-- Both faults of the access or failures of the backing, or addresses as far apart as the
virtual ones. -/
def Moved (access : Access) (vaddr other : BitVec 64) :
    Except Exception (BitVec 64) → Except Exception (BitVec 64) → Prop
  | .ok pa, .ok otherPa => (pa.toNat : ℤ) - otherPa.toNat = vaddr.toNat - other.toNat
  | .error err, .error otherErr =>
      err = fault access vaddr ∧ otherErr = fault access other ∨
        ∃ addr, err = .backingFailure addr ∧ otherErr = .backingFailure addr
  | _, _ => False

theorem moved_endResult (priv : Priv) (access : Access) {vaddr other : BitVec 64}
    {last : Level × WalkEnd} (hsame : SameRegion last.1 vaddr other) :
    Moved access vaddr other (endResult priv access vaddr last)
      (endResult priv access other last) := by
  obtain ⟨level, found⟩ := last
  cases found with
  | nowhere => exact .inl ⟨rfl, rfl⟩
  | unread err =>
      cases err with
      | backingFailure addr => exact .inr ⟨addr, rfl, rfl⟩
      | _ => exact .inl ⟨rfl, rfl⟩
  | leaf pte =>
      have hboth : checkPerms pte priv access vaddr = .ok () ↔
          checkPerms pte priv access other = .ok () := by
        rw [Sv39.checkPerms_iff, Sv39.checkPerms_iff]
      rw [endResult, endResult, throughLeaf, throughLeaf]
      rcases checkPerms_eq pte priv access vaddr with hperms | hperms
      · rw [hperms, hboth.mp hperms]
        by_cases haligned : aligned level pte
        · simp only [if_pos haligned]
          exact hsame.physical_sub pte
        · simp only [if_neg haligned]
          exact .inl ⟨rfl, rfl⟩
      · have hother : checkPerms pte priv access other = .error (fault access other) := by
          refine (checkPerms_eq pte priv access other).resolve_left fun hok => ?_
          rw [hboth.mpr hok] at hperms
          cases hperms
        rw [hperms, hother]
        exact .inl ⟨rfl, rfl⟩

theorem endResult_misaligned (priv : Priv) (access : Access) (vaddr : BitVec 64) {level : Level}
    {pte : BitVec 64} (hmisaligned : ¬aligned level pte) :
    endResult priv access vaddr (level, .leaf pte) = .error (fault access vaddr) := by
  rw [endResult, throughLeaf]
  rcases checkPerms_eq pte priv access vaddr with hperms | hperms
  · rw [hperms]
    exact if_neg hmisaligned
  · rw [hperms]

/-- The page numbers, tables and addresses a walk computes, none of which loses a bit. -/
structure NoOverflow (satp pte vaddr : BitVec 64) (level : Level) : Prop where
  root : (root satp).toNat = (satp &&& 0x0FFFFFFFFFFF).toNat * 2 ^ 12
  table : (ppnOf pte <<< 12).toNat = (ppnOf pte).toNat * 2 ^ 12
  rootEntry : (entryAddr vaddr level (Mmu.root satp)).toNat =
    (Mmu.root satp).toNat + (index vaddr level).toNat * 8
  entry : (entryAddr vaddr level (ppnOf pte <<< 12)).toNat =
    (ppnOf pte <<< 12).toNat + (index vaddr level).toNat * 8
  physical : (physical (splice (ppnOf pte) vaddr level) vaddr).toNat =
    (splice (ppnOf pte) vaddr level).toNat * 2 ^ 12 + vaddr.toNat % 2 ^ 12

theorem toNat_and_lt {x m : BitVec 64} {n : ℕ} (hm : m.toNat < n) : (x &&& m).toNat < n :=
  lt_of_le_of_lt (by rw [BitVec.toNat_and]; exact Nat.and_le_right) hm

theorem toNat_shiftLeft_page {x : BitVec 64} (hx : x.toNat < 2 ^ 44) :
    (x <<< 12).toNat = x.toNat * 2 ^ 12 := by
  rw [BitVec.toNat_shiftLeft, Nat.shiftLeft_eq]
  exact Nat.mod_eq_of_lt (by omega)

theorem toNat_ppnOf_lt (pte : BitVec 64) : (ppnOf pte).toNat < 2 ^ 44 :=
  toNat_and_lt (by decide)

theorem toNat_entryAddr (vaddr : BitVec 64) (level : Level) {table : BitVec 64}
    (htable : table.toNat < 2 ^ 56) (hpage : table.toNat % 2 ^ 12 = 0) :
    (entryAddr vaddr level table).toNat = table.toNat + (index vaddr level).toNat * 8 := by
  have hindex : (index vaddr level).toNat < 2 ^ 9 := by
    rw [index_eq_region]
    exact toNat_and_lt (by decide)
  rw [entryAddr]
  bv_omega

theorem toNat_splice_lt (pte vaddr : BitVec 64) (level : Level) :
    (splice (ppnOf pte) vaddr level).toNat < 2 ^ 44 := by
  have hppn := toNat_ppnOf_lt pte
  have hkept : ∀ m : BitVec 64, (ppnOf pte &&& m).toNat < 2 ^ 44 := by
    intro m
    rw [BitVec.toNat_and]
    exact lt_of_le_of_lt Nat.and_le_left hppn
  match level with
  | 0 =>
      rw [splice, BitVec.toNat_or]
      exact Nat.or_lt_two_pow (hkept _) (toNat_and_lt (by decide))
  | 1 =>
      rw [splice, BitVec.toNat_or]
      exact Nat.or_lt_two_pow (hkept _) (toNat_and_lt (by decide))
  | 2 => exact hppn

theorem toNat_physical {ppn : BitVec 64} (hppn : ppn.toNat < 2 ^ 44) (vaddr : BitVec 64) :
    (physical ppn vaddr).toNat = ppn.toNat * 2 ^ 12 + vaddr.toNat % 2 ^ 12 := by
  have hoffset : (vaddr &&& 0xFFF).toNat = vaddr.toNat % 2 ^ 12 := by
    rw [BitVec.toNat_and]
    exact Nat.and_two_pow_sub_one_eq_mod vaddr.toNat 12
  have hlt : vaddr.toNat % 2 ^ 12 < 2 ^ 12 := Nat.mod_lt _ (Nat.two_pow_pos 12)
  rw [physical, BitVec.toNat_or, toNat_shiftLeft_page hppn, hoffset, ← Nat.shiftLeft_eq,
    Nat.shiftLeft_add_eq_or_of_lt hlt]

theorem noOverflow (satp pte vaddr : BitVec 64) (level : Level) :
    NoOverflow satp pte vaddr level := by
  have hroot : (satp &&& 0x0FFFFFFFFFFF).toNat < 2 ^ 44 := toNat_and_lt (by decide)
  have hppn := toNat_ppnOf_lt pte
  have hentry : ∀ {x : BitVec 64}, x.toNat < 2 ^ 44 →
      (entryAddr vaddr level (x <<< 12)).toNat =
        (x <<< 12).toNat + (index vaddr level).toNat * 8 := by
    intro x hx
    have htable := toNat_shiftLeft_page hx
    exact toNat_entryAddr vaddr level (by omega) (by omega)
  exact ⟨toNat_shiftLeft_page hroot, toNat_shiftLeft_page hppn, hentry hroot, hentry hppn,
    toNat_physical (toNat_splice_lt pte vaddr level) vaddr⟩

/-! ## The mappings -/

theorem sorted_levels : ([0, 1, 2] : List Level).Pairwise (· < ·) := by decide

theorem SameRegion.descent {satp vaddr other : BitVec 64} {bus : Bus B S}
    {last : Level × WalkEnd} (hsame : SameRegion last.1 vaddr other)
    (hend : ((descent satp vaddr).run bus).value = some last) :
    ((descent satp other).run bus).value = some last := by
  obtain ⟨after, hrun⟩ := Outcome.eq_ok_of_value hend
  rw [Mmu.descent] at hrun ⊢
  rw [descend_congr sorted_levels hrun hsame]
  rfl

theorem leafAt_congr (satp : BitVec 64) (bus : Bus B S) {vaddr other : BitVec 64}
    (hpage : vaddr >>> 12 = other >>> 12) : leafAt satp bus vaddr = leafAt satp bus other := by
  have hsame : ∀ level : Level, SameRegion level vaddr other := by
    intro level
    have hpages : SameRegion 2 vaddr other := hpage
    exact hpages.of_le (Fin.le_last level)
  have hsame' : ∀ level : Level, SameRegion level other vaddr := fun level => (hsame level).symm
  rw [leafAt, leafAt]
  cases hend : ((descent satp vaddr).run bus).value with
  | some last => rw [(hsame last.1).descent hend]
  | none =>
      cases hother : ((descent satp other).run bus).value with
      | some last =>
          rw [(hsame' last.1).descent hother] at hend
          cases hend
      | none => rfl

end Mmu

section Mappings

open Mmu

variable {B S : Type} [FlatBacking B]

/-- What an empty buffer gives is what the end of the descent gives. -/
theorem coldResult_eq_endResult (hreliable : ¬ Fallible B) {m : Memory} {csrs : Csrs} {priv : Priv}
    (hpaging : paging csrs priv) (access : Access) {vaddr : BitVec 64} {bus : Bus B S}
    (hbus : Holds m bus.cache)
    (htables : TablesInRam m vaddr levels (root (csrs.read Csr.satp))) {last : Level × WalkEnd}
    (hend : ((descent (csrs.read Csr.satp) vaddr).run bus).value = some last) :
    coldResult m csrs priv vaddr access = endResult priv access vaddr last := by
  obtain ⟨after, hreply, -⟩ := reply_eq hreliable ⟨csrs, priv, vaddr, access, bus⟩ hbus
    (fun _ => htables) (fun _ => trusted_default _ _)
  have hempty : ((descent (csrs.read Csr.satp) vaddr).run
      (⟨.default, bus⟩ : MemSystem B S).bus).value = some last := hend
  obtain ⟨after', hreply'⟩ := translate_reply hpaging access hempty (trusted_default _ _)
  have hsame := hreply.symm.trans hreply'
  exact (Prod.mk.inj (Option.some.inj hsame)).1

/-- **Leaf mappings are linear.**  Two addresses in one region of the level at which the
walk of the first ends are translated to both faults, or to addresses as far apart; the
same holds if the second is translated after the first.  A misaligned leaf faults for
every address it covers, and no computation of a walk overflows. -/
theorem translate_linear (csrs : Csrs) (priv : Priv) (access : Access) {vaddr other : BitVec 64}
    {system : MemSystem B S} {last : Level × WalkEnd} (hpaging : paging csrs priv)
    (hend : ((descent (csrs.read Csr.satp) vaddr).run system.bus).value = some last)
    (hsame : SameRegion last.1 vaddr other)
    (hreflects : Reflects (leafAt (csrs.read Csr.satp) system.bus) system.mmu) :
    (∃ result after result' after',
      ((translate csrs priv vaddr access).run system).reply = some (result, after) ∧
      ((translate csrs priv other access).run system).reply = some (result', after') ∧
      Moved access vaddr other result result' ∧
      ∀ pte, last.2 = .leaf pte → ¬aligned last.1 pte → result' = .error (fault access other)) ∧
    (∀ m, ¬Fallible B → Holds m system.bus.cache →
      TablesInRam m vaddr levels (root (csrs.read Csr.satp)) →
      TablesInRam m other levels (root (csrs.read Csr.satp)) →
      Reflects (leafUnder m (csrs.read Csr.satp)) system.mmu →
      ∃ result after result' after',
        ((translate csrs priv vaddr access).run system).reply = some (result, after) ∧
        ((translate csrs priv other access).run after).reply = some (result', after') ∧
        Moved access vaddr other result result') ∧
    ∀ satp pte vaddr level, NoOverflow satp pte vaddr level := by
  have hotherEnd := hsame.descent hend
  refine ⟨?_, ?_, noOverflow⟩
  · obtain ⟨after, hreply⟩ := translate_reply hpaging access hend
      (hreflects.trusted_of_congr (leafAt_congr _ _) vaddr)
    obtain ⟨after', hreply'⟩ := translate_reply hpaging access hotherEnd
      (hreflects.trusted_of_congr (leafAt_congr _ _) other)
    refine ⟨_, after, _, after', hreply, hreply', moved_endResult priv access hsame, ?_⟩
    intro pte hleaf hmisaligned
    obtain ⟨level, found⟩ := last
    obtain rfl : found = .leaf pte := hleaf
    exact endResult_misaligned priv access other hmisaligned
  · intro m hreliable hholds htables hotherTables hmemory
    obtain ⟨after, hreply, hfilled⟩ := reply_eq hreliable ⟨csrs, priv, vaddr, access, system.bus⟩
      hholds (fun _ => htables) (fun _ => hmemory.trusted vaddr)
    have hkept : Reflects (leafUnder m (csrs.read Csr.satp)) after.mmu := by
      refine hfilled.reflects ?_ hmemory
      rw [coldLeaf, if_pos hpaging]
      exact .inr rfl
    obtain ⟨after', hreply', -⟩ := reply_eq hreliable ⟨csrs, priv, other, access, after.bus⟩
      hfilled.1.holds (fun _ => hotherTables) (fun _ => hkept.trusted other)
    refine ⟨_, after, _, after', hreply, hreply', ?_⟩
    rw [coldResult_eq_endResult hreliable hpaging access hholds htables hend,
      coldResult_eq_endResult hreliable hpaging access hholds hotherTables hotherEnd]
    exact moved_endResult priv access hsame

/-- Two loads through a gigapage. -/
theorem translate_linear_gigapage :
    ∃ result after result' after',
      ((translate Sv39.pagingCsrs .u 0x1234 .load).run
        ⟨.default, Sv39.busOver (Sv39.tables [Sv39.gigapage])⟩).reply = some (result, after) ∧
      ((translate Sv39.pagingCsrs .u 0x20005678 .load).run
        ⟨.default, Sv39.busOver (Sv39.tables [Sv39.gigapage])⟩).reply = some (result', after') ∧
      Moved .load 0x1234 0x20005678 result result' := by
  have hend : ((descent (Sv39.pagingCsrs.read Csr.satp) 0x1234).run
      (⟨.default, Sv39.busOver (Sv39.tables [Sv39.gigapage])⟩ :
        MemSystem FakeBacking (List LittleEndian.Byte)).bus).value =
      some (0, .leaf Sv39.gigapage) := by
    decide +kernel
  have hsame : SameRegion 0 0x1234 0x20005678 := by decide
  obtain ⟨⟨result, after, result', after', hreply, hreply', hmoved, -⟩, -⟩ :=
    translate_linear Sv39.pagingCsrs .u .load (by decide) hend hsame
      (reflects_flushed _ fun _ => rfl)
  exact ⟨result, after, result', after', hreply, hreply', hmoved⟩

end Mappings

end Baonix.Core

import Baonix.Core.PageWalk

/-!
# The translation buffer is transparent

An entry of the buffer stands for the leaf a walk of its page reaches.  As long
as it does, a call that finds the entry makes the checks the walk would make on
the same leaf, and returns what the walk would return.
-/

namespace Baonix.Core

open PageCache (Holds)

namespace Mmu

/-! ## Tables that did not change -/

/-- The entries a walk of `other` reads hold what they hold in `m`. -/
def SameTables (m other : Memory) (vaddr : BitVec 64) : List Level → BitVec 64 → Prop
  | [], _ => True
  | level :: rest, table =>
      let addr := entryAddr vaddr level table
      wordAt m addr = wordAt other addr ∧
        (isPointer (wordAt other addr) → SameTables m other vaddr rest
          (ppnOf (wordAt other addr) <<< 12))

/-- A walk reaches the same leaf through the same tables. -/
theorem SameTables.leafOf {m other : Memory} {vaddr : BitVec 64} {rest : List Level}
    {table : BitVec 64} (hsame : SameTables m other vaddr rest table) :
    leafOf m vaddr rest table = leafOf other vaddr rest table := by
  induction rest generalizing table with
  | nil => rfl
  | cons level rest ih =>
      obtain ⟨hword, hrest⟩ := hsame
      simp only [Mmu.leafOf, hword]
      by_cases hvalid : wordAt other (entryAddr vaddr level table) &&& 1 = 0
      · rw [if_pos hvalid, if_pos hvalid]
      rw [if_neg hvalid, if_neg hvalid]
      by_cases hleaf : isLeaf (wordAt other (entryAddr vaddr level table))
      · rw [if_pos hleaf, if_pos hleaf]
      rw [if_neg hleaf, if_neg hleaf]
      exact ih (hrest (decide_eq_true ⟨hvalid, hleaf⟩))

theorem SameTables.refl (m : Memory) (vaddr : BitVec 64) (rest : List Level)
    (table : BitVec 64) : SameTables m m vaddr rest table := by
  induction rest generalizing table with
  | nil => trivial
  | cons level rest ih => exact ⟨rfl, fun _ => ih _⟩

/-! ## Entries and leaves -/

/-- The leaf of a page under a value of `satp`. -/
def leafUnder (m : Memory) (satp vaddr : BitVec 64) : Option (Level × BitVec 64) :=
  leafOf m vaddr levels (root satp)

/-- The leaf a call walks to when the buffer is empty. -/
def coldLeaf (m : Memory) (csrs : Csrs) (priv : Priv) (vaddr : BitVec 64) :
    Option (Level × BitVec 64) :=
  if paging csrs priv then leafUnder m (csrs.read Csr.satp) vaddr else none

/-- What a call returns when the buffer is empty. -/
def coldResult (m : Memory) (csrs : Csrs) (priv : Priv) (vaddr : BitVec 64)
    (access : Access) : Except Exception (BitVec 64) :=
  if paging csrs priv then throughWalk priv access vaddr (coldLeaf m csrs priv vaddr)
  else .ok vaddr

/-- The entry of a page that was filled from a leaf. -/
structure Stands (entry : TlbEntry) (vaddr : BitVec 64) (leaf : Option (Level × BitVec 64)) :
    Prop where
  vpn : entry.vpn = vaddr >>> 12
  leaf : ∃ level, leaf = some (level, entry.perms) ∧ aligned level entry.perms ∧
    entry.ppn = splice (ppnOf entry.perms) vaddr level

/-- Every valid entry stands for a leaf. -/
def Reflects (leaf : BitVec 64 → Option (Level × BitVec 64)) (mmu : Mmu) : Prop :=
  ∀ index, (mmu.tlb index).valid → ∃ vaddr, Stands (mmu.tlb index) vaddr (leaf vaddr)

theorem reflects_flushed (leaf : BitVec 64 → Option (Level × BitVec 64)) {mmu : Mmu}
    (hflushed : ∀ index, mmu.tlb index = .default) : Reflects leaf mmu := by
  intro index hvalid
  rw [hflushed] at hvalid
  cases hvalid

theorem leafUnder_congr (m : Memory) (satp : BitVec 64) {vaddr other : BitVec 64}
    (hpage : vaddr >>> 12 = other >>> 12) : leafUnder m satp vaddr = leafUnder m satp other :=
  leafOf_congr m hpage levels (root satp)

/-- What a hit returns. -/
def hitResult (entry : TlbEntry) (priv : Priv) (access : Access) (vaddr : BitVec 64) :
    Except Exception (BitVec 64) :=
  match checkPerms entry.perms priv access vaddr with
  | .error err => .error err
  | .ok () => .ok (physical entry.ppn vaddr)

/-- **A hit returns what the walk would return**, whoever filled the entry. -/
theorem Stands.hitResult {entry : TlbEntry} {vaddr : BitVec 64}
    {leaf : Option (Level × BitVec 64)} (hstands : Stands entry vaddr leaf) (priv : Priv)
    (access : Access) : hitResult entry priv access vaddr = throughWalk priv access vaddr leaf := by
  obtain ⟨level, hleaf, haligned, hppn⟩ := hstands.leaf
  rw [hleaf]
  cases hperms : checkPerms entry.perms priv access vaddr with
  | ok value => simp only [Mmu.hitResult, throughWalk, throughLeaf, if_pos haligned, hppn, hperms]
  | error err => simp only [Mmu.hitResult, throughWalk, throughLeaf, hperms]

/-! ## One call -/

variable {B S : Type} [FlatBacking B]

/-- The entry a page would be found in stands for the leaf of the page. -/
def Trusted (leaf : Option (Level × BitVec 64)) (vaddr : BitVec 64) (mmu : Mmu) : Prop :=
  (mmu.tlb (slot (vaddr >>> 12))).valid → (mmu.tlb (slot (vaddr >>> 12))).vpn = vaddr >>> 12 →
    Stands (mmu.tlb (slot (vaddr >>> 12))) vaddr leaf

/-- **A call returns what an empty buffer would give it.** -/
theorem translate_spec (hreliable : ¬ Fallible B) {m : Memory} (csrs : Csrs) (priv : Priv)
    (vaddr : BitVec 64) (access : Access) {system : MemSystem B S}
    (hsystem : Holds m system.bus.cache)
    (htables : paging csrs priv → TablesInRam m vaddr levels (root (csrs.read Csr.satp)))
    (htrusted : paging csrs priv →
      Trusted (leafUnder m (csrs.read Csr.satp) vaddr) vaddr system.mmu) :
    Exec.wp (translate csrs priv vaddr access)
      (fun pa after => coldResult m csrs priv vaddr access = .ok pa ∧
        Filled m vaddr (coldLeaf m csrs priv vaddr) system after)
      (fun err after => coldResult m csrs priv vaddr access = .error err ∧
        Filled m vaddr (coldLeaf m csrs priv vaddr) system after) False system := by
  rw [translate, Exec.wp_ite, coldResult, coldLeaf]
  by_cases hpaging : paging csrs priv
  · simp only [if_neg (not_not_intro hpaging), if_pos hpaging]
    rw [Exec.wp_bind, Exec.wp_read, Exec.wp_ite]
    by_cases hhit : (system.mmu.tlb (slot (vaddr >>> 12))).valid ∧
        (system.mmu.tlb (slot (vaddr >>> 12))).vpn = vaddr >>> 12
    · rw [if_pos hhit, ← (htrusted hpaging hhit.1 hhit.2).hitResult, hitResult, Exec.wp_bind,
        Exec.wp_ofExcept]
      constructor
      · intro _ hperms
        rw [hperms, Exec.wp_pure]
        exact ⟨rfl, .refl hsystem, .inl rfl⟩
      · intro _ hperms
        rw [hperms]
        exact ⟨rfl, .refl hsystem, .inl rfl⟩
    · rw [if_neg hhit, Exec.wp_bind, Exec.wp_update]
      exact walk_spec hreliable priv access vaddr levels _ hsystem (htables hpaging)
  · simp only [if_pos hpaging, if_neg hpaging]
    rw [Exec.wp_pure]
    exact ⟨rfl, .refl hsystem, .inl rfl⟩

theorem trusted_default (leaf : Option (Level × BitVec 64)) (vaddr : BitVec 64) :
    Trusted leaf vaddr default :=
  fun hvalid => nomatch hvalid

/-- An entry filled is valid, for the page and from the leaf. -/
theorem fill_tlb (vaddr ppn pte : BitVec 64) (mmu : Mmu) (index : Fin tlbEntries) :
    (mmu.fill vaddr ppn pte).tlb index =
      if index = slot (vaddr >>> 12) then ⟨true, vaddr >>> 12, ppn, pte⟩
      else mmu.tlb index := by
  change Function.update mmu.tlb _ _ index = _
  rw [Function.update_apply]

/-- A translation keeps the buffer faithful. -/
theorem Filled.reflects {m : Memory} {vaddr : BitVec 64} {found : Option (Level × BitVec 64)}
    {leaf : BitVec 64 → Option (Level × BitVec 64)} {system after : MemSystem B S}
    (hfilled : Filled m vaddr found system after) (hfound : found = none ∨ found = leaf vaddr)
    (hreflects : Reflects leaf system.mmu) : Reflects leaf after.mmu := by
  intro index hvalid
  rcases hfilled.2 with hsame | ⟨level, pte, hleaf, haligned, hfill⟩
  · rw [hsame] at hvalid ⊢
    exact hreflects index hvalid
  · rw [hfill, fill_tlb] at hvalid ⊢
    by_cases hindex : index = slot (vaddr >>> 12)
    · rw [if_pos hindex]
      have hvaddr : leaf vaddr = some (level, pte) := by
        rw [hleaf] at hfound
        exact (hfound.resolve_left (Option.some_ne_none _)).symm
      exact ⟨vaddr, rfl, level, hvaddr, haligned, rfl⟩
    · rw [if_neg hindex] at hvalid ⊢
      exact hreflects index hvalid

/-! ## Sequences of calls -/

/-- A call of `translate`, and the bus at that time. -/
structure Call (B S : Type) where
  csrs : Csrs
  priv : Priv
  vaddr : BitVec 64
  access : Access
  bus : Bus B S

def Call.reply (call : Call B S) (mmu : Mmu) :
    Option (Except Exception (BitVec 64) × MemSystem B S) :=
  ((translate call.csrs call.priv call.vaddr call.access).run ⟨mmu, call.bus⟩).reply

/-- Every call of the sequence returns what it would return with an empty
buffer. -/
def Transparent : List (Call B S) → Mmu → Prop
  | [], _ => True
  | call :: calls, mmu => ∃ result after coldAfter,
      call.reply mmu = some (result, after) ∧ call.reply default = some (result, coldAfter) ∧
        Transparent calls after.mmu

/-- The call is made under `satp`, and while the tables it walks are in RAM and
hold what they hold in `m`. -/
def Call.Unchanged (satp : BitVec 64) (m : Memory) (call : Call B S) : Prop :=
  call.csrs.read Csr.satp = satp ∧ ∃ now, Holds now call.bus.cache ∧
    (paging call.csrs call.priv → SameTables m now call.vaddr levels (root satp) ∧
      TablesInRam now call.vaddr levels (root satp))

/-- A call with an empty buffer is a special case of a call. -/
theorem reply_eq (hreliable : ¬ Fallible B) {m : Memory} (call : Call B S) {mmu : Mmu}
    (hbus : Holds m call.bus.cache)
    (htables : paging call.csrs call.priv →
      TablesInRam m call.vaddr levels (root (call.csrs.read Csr.satp)))
    (htrusted : paging call.csrs call.priv →
      Trusted (leafUnder m (call.csrs.read Csr.satp) call.vaddr) call.vaddr mmu) :
    ∃ after, call.reply mmu =
        some (coldResult m call.csrs call.priv call.vaddr call.access, after) ∧
      Filled m call.vaddr (coldLeaf m call.csrs call.priv call.vaddr) ⟨mmu, call.bus⟩ after := by
  have hsystem : Holds m (⟨mmu, call.bus⟩ : MemSystem B S).bus.cache := hbus
  obtain ⟨result, after, hreply, hok, herr⟩ := (translate_spec hreliable call.csrs call.priv
    call.vaddr call.access hsystem htables htrusted).exists_reply
  cases result with
  | ok pa =>
      obtain ⟨hcold, hfilled⟩ := hok pa rfl
      exact ⟨after, by rw [hcold]; exact hreply, hfilled⟩
  | error err =>
      obtain ⟨hcold, hfilled⟩ := herr err rfl
      exact ⟨after, by rw [hcold]; exact hreply, hfilled⟩

/-- A faithful buffer is trusted for every page it is asked for. -/
theorem Reflects.trusted_of_congr {leaf : BitVec 64 → Option (Level × BitVec 64)} {mmu : Mmu}
    (hreflects : Reflects leaf mmu)
    (hcongr : ∀ {vaddr other : BitVec 64}, vaddr >>> 12 = other >>> 12 → leaf vaddr = leaf other)
    (vaddr : BitVec 64) : Trusted (leaf vaddr) vaddr mmu := by
  intro hvalid hvpn
  obtain ⟨other, hstands⟩ := hreflects _ hvalid
  have hpage : other >>> 12 = vaddr >>> 12 := by rw [← hstands.vpn, hvpn]
  obtain ⟨level, hleaf, haligned, hppn⟩ := hstands.leaf
  exact ⟨hvpn, level, by rw [← hcongr hpage, hleaf], haligned,
    by rw [hppn, splice_congr hpage]⟩

theorem Reflects.trusted {m : Memory} {satp : BitVec 64} {mmu : Mmu}
    (hreflects : Reflects (leafUnder m satp) mmu) (vaddr : BitVec 64) :
    Trusted (leafUnder m satp vaddr) vaddr mmu :=
  hreflects.trusted_of_congr (leafUnder_congr m satp) vaddr

/-- A call through a faithful buffer returns what it would return with an empty
one, and keeps the buffer faithful. -/
theorem Call.Unchanged.reply (hreliable : ¬ Fallible B) {satp : BitVec 64} {m : Memory}
    {call : Call B S} (hcall : call.Unchanged satp m) {mmu : Mmu}
    (hreflects : Reflects (leafUnder m satp) mmu) :
    ∃ result after coldAfter, call.reply mmu = some (result, after) ∧
      call.reply default = some (result, coldAfter) ∧ Reflects (leafUnder m satp) after.mmu := by
  obtain ⟨hsatp, now, hbus, htables⟩ := hcall
  subst hsatp
  have hleaf (hpaging : paging call.csrs call.priv) :
      leafUnder m (call.csrs.read Csr.satp) call.vaddr =
        leafUnder now (call.csrs.read Csr.satp) call.vaddr :=
    (htables hpaging).1.leafOf
  have htrusted (hpaging : paging call.csrs call.priv) :
      Trusted (leafUnder now (call.csrs.read Csr.satp) call.vaddr) call.vaddr mmu := by
    rw [← hleaf hpaging]
    exact hreflects.trusted call.vaddr
  obtain ⟨after, hreply, hfilled⟩ :=
    reply_eq hreliable call hbus (fun hpaging => (htables hpaging).2) htrusted
  obtain ⟨coldAfter, hcold, -⟩ :=
    reply_eq hreliable call hbus (fun hpaging => (htables hpaging).2)
      (fun _ => trusted_default _ _)
  refine ⟨_, after, coldAfter, hreply, hcold, hfilled.reflects ?_ hreflects⟩
  by_cases hpaging : paging call.csrs call.priv
  · rw [coldLeaf, if_pos hpaging, hleaf hpaging]
    exact .inr rfl
  · exact .inl (if_neg hpaging)

/-- **The buffer is transparent.**  After a flush, as long as `satp` and the
tables walked stay what they are, every call returns what it would return with
an empty buffer, whatever else happens to memory between the calls. -/
theorem transparent_of_unchanged (hreliable : ¬ Fallible B) {satp : BitVec 64} {m : Memory}
    {calls : List (Call B S)} (hcalls : ∀ call ∈ calls, call.Unchanged satp m) {mmu : Mmu}
    (hreflects : Reflects (leafUnder m satp) mmu) : Transparent calls mmu := by
  induction calls generalizing mmu with
  | nil => trivial
  | cons call calls ih =>
      obtain ⟨result, after, coldAfter, hreply, hcold, hafter⟩ :=
        (hcalls call (List.mem_cons_self ..)).reply hreliable hreflects
      exact ⟨result, after, coldAfter, hreply, hcold,
        ih (fun other hother => hcalls other (List.mem_cons_of_mem _ hother)) hafter⟩

end Mmu

end Baonix.Core

import Baonix.Core.Mmu

/-!
# The walk as a function of memory

What `translate` returns without help from its buffer is a function of the page
tables in memory: the leaf the walk reaches, the checks on it, and the address
it gives.
-/

namespace Baonix.Core

open Baonix.LittleEndian
open PageCache (Holds Width)

/-! ## Loads from RAM -/

/-- The little-endian word at an address. -/
def wordAt (m : Memory) (addr : BitVec 64) : BitVec 64 :=
  BitVec.ofNat 64 (ofBytes (m.read addr.toNat 8))

namespace Bus

theorem inRam_iff {addr : BitVec 64} {size : ℕ} :
    inRam addr size = true ↔ InRam addr.toNat size := by
  have haddr := addr.isLt
  rw [inRam, inWindow, decide_eq_true_iff, InRam, saturatingAdd]
  simp only [ramBase, ramSize]
  omega

variable {B S : Type} [FlatBacking B]

/-- The bus as before, its cache still holding `m`. -/
def Reads (m : Memory) (bus after : Bus B S) : Prop :=
  ∃ cache, after = { bus with cache := cache } ∧ Holds m cache

theorem Reads.refl {m : Memory} {bus : Bus B S} (hbus : Holds m bus.cache) : Reads m bus bus :=
  ⟨bus.cache, rfl, hbus⟩

theorem Reads.trans {m : Memory} {bus middle after : Bus B S} (hleft : Reads m bus middle)
    (hright : Reads m middle after) : Reads m bus after := by
  obtain ⟨_, rfl, -⟩ := hleft
  obtain ⟨cache, rfl, hholds⟩ := hright
  exact ⟨cache, rfl, hholds⟩

theorem Reads.holds {m : Memory} {bus after : Bus B S} (hreads : Reads m bus after) :
    Holds m after.cache := by
  obtain ⟨_, rfl, hholds⟩ := hreads
  exact hholds

/-- Loading a word from RAM reads memory, unless the backing fails. -/
theorem load_word {m : Memory} {bus : Bus B S} (hbus : Holds m bus.cache) {addr : BitVec 64}
    (hram : inRam addr 8) :
    Exec.wp (load addr 8) (fun word after => word = wordAt m addr ∧ Reads m bus after)
      (fun _ after => Fallible B ∧ Reads m bus after) False bus := by
  simp only [load, widthOf, if_pos hram]
  rw [onCache, Exec.wp_zoom]
  apply (PageCache.readLe_spec ⟨8, by norm_num⟩ addr.toNat hbus).imp
  · rintro word cache ⟨hholds, rfl⟩
    exact ⟨rfl, cache, rfl, hholds⟩
  · rintro err cache ⟨hholds, hfallible⟩
    exact ⟨hfallible (inRam_iff.mp hram), cache, rfl, hholds⟩
  · exact fun hfalse => hfalse

end Bus

namespace Mmu

/-! ## The leaf of a walk -/

/-- The address of the entry a walk reads at a level. -/
def entryAddr (vaddr : BitVec 64) (level : Level) (table : BitVec 64) : BitVec 64 :=
  table + index vaddr level * 8

/-- The levels of a walk. -/
abbrev levels : List Level := [0, 1, 2]

/-- An entry that is valid and points to the next table. -/
def isPointer (pte : BitVec 64) : Bool := pte &&& 1 ≠ 0 ∧ ¬ isLeaf pte

/-- The leaf a walk reaches, and its level. -/
def leafOf (m : Memory) (vaddr : BitVec 64) :
    List Level → BitVec 64 → Option (Level × BitVec 64)
  | [], _ => none
  | level :: levels, table =>
      let pte := wordAt m (entryAddr vaddr level table)
      if pte &&& 1 = 0 then none
      else if isLeaf pte then some (level, pte)
      else leafOf m vaddr levels (ppnOf pte <<< 12)

/-- Every entry a walk reads lies in RAM. -/
def TablesInRam (m : Memory) (vaddr : BitVec 64) : List Level → BitVec 64 → Prop
  | [], _ => True
  | level :: levels, table =>
      let addr := entryAddr vaddr level table
      Bus.inRam addr 8 ∧
        (isPointer (wordAt m addr) → TablesInRam m vaddr levels (ppnOf (wordAt m addr) <<< 12))

/-- A leaf whose superpage is aligned. -/
def aligned (level : Level) (pte : BitVec 64) : Prop := ppnOf pte &&& superpageMask level = 0

instance (level : Level) (pte : BitVec 64) : Decidable (aligned level pte) :=
  inferInstanceAs (Decidable (_ = _))

/-- What a leaf gives for an address. -/
def throughLeaf (priv : Priv) (access : Access) (vaddr : BitVec 64) (level : Level)
    (pte : BitVec 64) : Except Exception (BitVec 64) :=
  match checkPerms pte priv access vaddr with
  | .error err => .error err
  | .ok () =>
      if aligned level pte then .ok (physical (splice (ppnOf pte) vaddr level) vaddr)
      else .error (fault access vaddr)

/-- What a walk gives. -/
def throughWalk (priv : Priv) (access : Access) (vaddr : BitVec 64) :
    Option (Level × BitVec 64) → Except Exception (BitVec 64)
  | none => .error (fault access vaddr)
  | some (level, pte) => throughLeaf priv access vaddr level pte

theorem checkPerms_eq (pte : BitVec 64) (priv : Priv) (access : Access) (vaddr : BitVec 64) :
    checkPerms pte priv access vaddr = .ok () ∨
      checkPerms pte priv access vaddr = .error (fault access vaddr) := by
  rw [checkPerms]
  split
  · exact .inr rfl
  split
  · exact .inr rfl
  split
  · exact .inr rfl
  · exact .inl rfl

theorem throughLeaf_eq_ok {priv : Priv} {access : Access} {vaddr pa : BitVec 64}
    {level : Level} {pte : BitVec 64} :
    throughLeaf priv access vaddr level pte = .ok pa ↔
      checkPerms pte priv access vaddr = .ok () ∧ aligned level pte ∧
        pa = physical (splice (ppnOf pte) vaddr level) vaddr := by
  unfold throughLeaf
  rcases checkPerms_eq pte priv access vaddr with hperms | hperms
  · rw [hperms]
    dsimp only
    split
    · rename_i haligned
      simp only [Except.ok.injEq, true_and, haligned, eq_comm]
    · rename_i haligned
      simp [haligned]
  · rw [hperms]
    simp

/-- Every refusal is a page fault of the access. -/
theorem throughWalk_error {priv : Priv} {access : Access} {vaddr : BitVec 64}
    {leaf : Option (Level × BitVec 64)} {err : Exception}
    (herr : throughWalk priv access vaddr leaf = .error err) : err = fault access vaddr := by
  cases leaf with
  | none => exact (Except.error.inj herr).symm
  | some leaf =>
      simp only [throughWalk, throughLeaf] at herr
      rcases checkPerms_eq leaf.2 priv access vaddr with hperms | hperms
      · rw [hperms] at herr
        dsimp only at herr
        split at herr
        · cases herr
        · exact (Except.error.inj herr).symm
      · rw [hperms] at herr
        exact (Except.error.inj herr).symm

/-! ## Addresses of one page -/

theorem shift_congr {vaddr other : BitVec 64} (hpage : vaddr >>> 12 = other >>> 12) (n : ℕ) :
    vaddr >>> (12 + n) = other >>> (12 + n) := by
  rw [BitVec.shiftRight_add, BitVec.shiftRight_add, hpage]

/-- The tables a walk reads depend on the page only. -/
theorem index_congr {vaddr other : BitVec 64} (hpage : vaddr >>> 12 = other >>> 12)
    (level : Level) : index vaddr level = index other level := by
  match level with
  | 0 => exact congrArg (· &&& 0x1FF) (shift_congr hpage 18)
  | 1 => exact congrArg (· &&& 0x1FF) (shift_congr hpage 9)
  | 2 => exact congrArg (· &&& 0x1FF) hpage

theorem splice_congr {vaddr other : BitVec 64} (hpage : vaddr >>> 12 = other >>> 12)
    (ppn : BitVec 64) (level : Level) : splice ppn vaddr level = splice ppn other level := by
  match level with
  | 0 => exact congrArg (ppn &&& ~~~(0x3FFFF : BitVec 64) ||| · &&& 0x3FFFF) hpage
  | 1 => exact congrArg (ppn &&& ~~~(0x1FF : BitVec 64) ||| · &&& 0x1FF) hpage
  | 2 => rfl

theorem leafOf_congr (m : Memory) {vaddr other : BitVec 64}
    (hpage : vaddr >>> 12 = other >>> 12) (levels : List Level) (table : BitVec 64) :
    leafOf m vaddr levels table = leafOf m other levels table := by
  induction levels generalizing table with
  | nil => rfl
  | cons level levels ih =>
      have haddr : entryAddr vaddr level table = entryAddr other level table := by
        rw [entryAddr, entryAddr, index_congr hpage]
      simp only [leafOf, haddr, ih]

/-! ## The walk -/

variable {B S : Type} [FlatBacking B]

/-- The system a translation leaves behind: at most one entry of the buffer is
filled, with the leaf the walk reached. -/
def Filled (m : Memory) (vaddr : BitVec 64) (leaf : Option (Level × BitVec 64))
    (system after : MemSystem B S) : Prop :=
  Bus.Reads m system.bus after.bus ∧
    (after.mmu.tlb = system.mmu.tlb ∨
      ∃ level pte, leaf = some (level, pte) ∧ aligned level pte ∧
        after.mmu.tlb = (system.mmu.fill vaddr (splice (ppnOf pte) vaddr level) pte).tlb)

theorem walkError_ne {access : Access} {vaddr : BitVec 64} {err : Exception}
    (herr : ∀ addr, err ≠ .backingFailure addr) : walkError access vaddr err = fault access vaddr := by
  cases err <;> first | rfl | exact absurd rfl (herr _)

theorem walk_spec (hreliable : ¬ Fallible B) {m : Memory} (priv : Priv) (access : Access)
    (vaddr : BitVec 64) (levels : List Level) (table : BitVec 64) {system : MemSystem B S}
    (hsystem : Holds m system.bus.cache) (htables : TablesInRam m vaddr levels table) :
    Exec.wp (walk priv access vaddr levels table)
      (fun pa after => throughWalk priv access vaddr (leafOf m vaddr levels table) = .ok pa ∧
        Filled m vaddr (leafOf m vaddr levels table) system after)
      (fun err after => throughWalk priv access vaddr (leafOf m vaddr levels table) = .error err ∧
        Filled m vaddr (leafOf m vaddr levels table) system after) False system := by
  induction levels generalizing table system with
  | nil =>
      rw [walk, Exec.wp_raise]
      exact ⟨rfl, .refl hsystem, .inl rfl⟩
  | cons level levels ih =>
      obtain ⟨hram, hrest⟩ := htables
      rw [walk, Exec.wp_bind, loadPte, Exec.wp_zoom]
      apply (Bus.load_word hsystem hram).imp
      · rintro pte bus ⟨hpte, hreads⟩
        have hword : pte = wordAt m (entryAddr vaddr level table) := hpte
        have hunchanged : Filled m vaddr (leafOf m vaddr (level :: levels) table) system
            { system with bus := bus } := ⟨hreads, .inl rfl⟩
        simp only [leafOf, ← hword] at hunchanged ⊢
        by_cases hvalid : pte &&& 1 = 0
        · simp only [if_pos hvalid] at hunchanged ⊢
          rw [Exec.wp_raise]
          exact ⟨rfl, hunchanged⟩
        simp only [if_neg hvalid] at hunchanged ⊢
        by_cases hleaf : isLeaf pte
        · simp only [if_pos hleaf] at hunchanged ⊢
          rw [Exec.wp_bind, Exec.wp_ofExcept]
          constructor
          · intro _ hperms
            rw [Exec.wp_ite]
            by_cases haligned : aligned level pte
            · rw [if_neg (show ¬ ppnOf pte &&& superpageMask level ≠ 0 from
                not_not_intro haligned), Exec.wp_bind, Exec.wp_update, Exec.wp_pure]
              exact ⟨throughLeaf_eq_ok.mpr ⟨hperms, haligned, rfl⟩, hreads,
                .inr ⟨level, pte, rfl, haligned, rfl⟩⟩
            · rw [if_pos (show ppnOf pte &&& superpageMask level ≠ 0 from haligned),
                Exec.wp_raise]
              refine ⟨?_, hunchanged⟩
              simp only [throughWalk, throughLeaf, hperms, if_neg haligned]
          · intro err hperms
            refine ⟨?_, hunchanged⟩
            simp only [throughWalk, throughLeaf, hperms]
        · simp only [if_neg hleaf] at hunchanged ⊢
          have hpointer : isPointer pte := decide_eq_true ⟨hvalid, hleaf⟩
          have hnext : TablesInRam m vaddr levels (ppnOf pte <<< 12) := by
            rw [hword] at hpointer ⊢
            exact hrest hpointer
          have hbefore {after : MemSystem B S}
              (hafter : Filled m vaddr (leafOf m vaddr levels (ppnOf pte <<< 12))
                { system with bus := bus } after) :
              Filled m vaddr (leafOf m vaddr levels (ppnOf pte <<< 12)) system after :=
            ⟨hreads.trans hafter.1, hafter.2⟩
          have hholds : Holds m ({ system with bus := bus } : MemSystem B S).bus.cache :=
            hreads.holds
          apply (ih (ppnOf pte <<< 12) hholds hnext).imp
          · exact fun _ _ hafter => ⟨hafter.1, hbefore hafter.2⟩
          · exact fun _ _ hafter => ⟨hafter.1, hbefore hafter.2⟩
          · exact fun hfalse => hfalse
      · exact fun _ _ hfails => absurd hfails.1 hreliable
      · exact fun hfalse => hfalse

end Mmu

end Baonix.Core

import Baonix.Core.Cache
import Baonix.Lib.WriteBack

/-!
# The invariant of the page cache

The index names exactly the frames, and a clean frame holds what the backing
holds.  Under that invariant the cache and its backing together stand for one
array of pages, `PageCache.pages`.
-/

namespace Baonix.Core

open Baonix.LittleEndian Baonix.Proto

namespace PageCache

variable {B : Type}

/-! ## The index -/

theorem residentSlot_lt {c : PageCache B} {page : BitVec 32} {slot : ℕ}
    (hslot : c.residentSlot page = some slot) : page.toNat < ramPages := by
  by_contra hpage
  rw [residentSlot, dif_neg hpage] at hslot
  cases hslot

theorem residentSlot_setResident_self (c : PageCache B) {page : BitVec 32} {slot : ℕ}
    (hpage : page.toNat < ramPages) (hslot : slot < ramPages) :
    (c.setResident page slot).residentSlot page = some slot := by
  have hbiased : (BitVec.ofNat 16 slot + 1).toNat = slot + 1 := by
    have hone : (1 : BitVec 16).toNat = 1 := rfl
    simp only [ramPages, pageSize, ramSize] at hslot
    rw [BitVec.toNat_add, BitVec.toNat_ofNat, hone]
    omega
  have hne : BitVec.ofNat 16 slot + 1 ≠ 0 := by
    intro hzero
    rw [hzero] at hbiased
    simp at hbiased
  simp only [residentSlot, setResident, dif_pos hpage, if_true, if_neg hne, hbiased,
    Nat.add_sub_cancel]

theorem residentSlot_setResident_ne (c : PageCache B) {page other : BitVec 32} (slot : ℕ)
    (hother : other ≠ page) :
    (c.setResident page slot).residentSlot other = c.residentSlot other := by
  have hne : other.toNat ≠ page.toNat := fun heq => hother (BitVec.eq_of_toNat_eq heq)
  simp only [residentSlot, setResident, if_neg hne]

theorem residentSlot_clearResident_self (c : PageCache B) (page : BitVec 32) :
    (c.clearResident page).residentSlot page = none := by
  rw [residentSlot]
  split
  · simp [clearResident]
  · rfl

theorem residentSlot_clearResident_ne (c : PageCache B) {page other : BitVec 32}
    (hother : other ≠ page) :
    (c.clearResident page).residentSlot other = c.residentSlot other := by
  have hne : other.toNat ≠ page.toNat := fun heq => hother (BitVec.eq_of_toNat_eq heq)
  simp only [residentSlot, clearResident, if_neg hne]

/-- The index of a cache depends on nothing but `slot_of`. -/
theorem residentSlot_congr {c next : PageCache B} (hslotOf : next.slotOf = c.slotOf)
    (page : BitVec 32) : next.residentSlot page = c.residentSlot page := by
  rw [residentSlot, residentSlot, hslotOf]

/-- The data of a resident page. -/
def cached (c : PageCache B) (page : BitVec 32) : Option Page :=
  (c.residentSlot page).bind fun slot => c.frames[slot]?.map CacheFrame.data

theorem cached_of_absent {c : PageCache B} {page : BitVec 32} (habsent : c.residentSlot page = none) :
    c.cached page = none := by
  rw [cached, habsent, Option.bind_none]

/-- There is room for another page, or a frame that may be evicted. -/
def CanAdmit (c : PageCache B) : Prop :=
  c.frames.length < c.capacity ∨ ∃ (slot : ℕ) (frame : CacheFrame), c.frames[slot]? = some frame ∧ frame.pinned = false

/-! ## Ageing -/

/-- A frame without its reference bit. -/
def CacheFrame.unreferenced (frame : CacheFrame) : CacheFrame := { frame with referenced := false }

/-- Nothing changed but reference bits, the hand and the statistics. -/
structure Ages (c next : PageCache B) : Prop where
  backing : next.backing = c.backing
  slotOf : next.slotOf = c.slotOf
  capacity : next.capacity = c.capacity
  frames : next.frames.map CacheFrame.unreferenced = c.frames.map CacheFrame.unreferenced
  hand_lt : next.hand < max 1 next.frames.length

namespace Ages

variable {c middle next : PageCache B}

theorem refl (hhand : c.hand < max 1 c.frames.length) : Ages c c :=
  ⟨rfl, rfl, rfl, rfl, hhand⟩

theorem trans (hleft : Ages c middle) (hright : Ages middle next) : Ages c next :=
  ⟨hright.backing.trans hleft.backing, hright.slotOf.trans hleft.slotOf,
    hright.capacity.trans hleft.capacity, hright.frames.trans hleft.frames, hright.hand_lt⟩

theorem length (hages : Ages c next) : next.frames.length = c.frames.length := by
  have hlength := congrArg List.length hages.frames
  rwa [List.length_map, List.length_map] at hlength

/-- A frame after ageing was there before it. -/
theorem frame (hages : Ages c next) {slot : ℕ} {frame : CacheFrame}
    (hframe : next.frames[slot]? = some frame) :
    ∃ before, c.frames[slot]? = some before ∧ before.page = frame.page ∧
      before.dirty = frame.dirty ∧ before.pinned = frame.pinned ∧ before.data = frame.data := by
  have hslot := congrArg (·[slot]?) hages.frames
  simp only [List.getElem?_map, hframe, Option.map_some] at hslot
  obtain ⟨before, hbefore, hequal⟩ := Option.map_eq_some_iff.mp hslot.symm
  simp only [CacheFrame.unreferenced, CacheFrame.mk.injEq] at hequal
  exact ⟨before, hbefore, hequal.1, hequal.2.1, hequal.2.2.2.1, hequal.2.2.2.2⟩

/-- A frame before ageing is there after it. -/
theorem frame_after (hages : Ages c next) {slot : ℕ} {frame : CacheFrame}
    (hframe : c.frames[slot]? = some frame) :
    ∃ after, next.frames[slot]? = some after ∧ after.page = frame.page ∧
      after.dirty = frame.dirty ∧ after.pinned = frame.pinned ∧ after.data = frame.data := by
  have hslot := congrArg (·[slot]?) hages.frames
  simp only [List.getElem?_map, hframe, Option.map_some] at hslot
  obtain ⟨after, hafter, hequal⟩ := Option.map_eq_some_iff.mp hslot
  simp only [CacheFrame.unreferenced, CacheFrame.mk.injEq] at hequal
  exact ⟨after, hafter, hequal.1, hequal.2.1, hequal.2.2.2.1, hequal.2.2.2.2⟩

theorem residentSlot (hages : Ages c next) (page : BitVec 32) :
    next.residentSlot page = c.residentSlot page :=
  residentSlot_congr hages.slotOf page

theorem cached (hages : Ages c next) : next.cached = c.cached := by
  funext page
  rw [PageCache.cached, PageCache.cached, hages.residentSlot]
  congr 1
  funext slot
  have hslot := congrArg (fun frames => frames[slot]?.map CacheFrame.data) hages.frames
  simpa [List.getElem?_map, Function.comp_def, CacheFrame.unreferenced] using hslot

theorem canAdmit (hages : Ages c next) (hcan : CanAdmit c) : CanAdmit next := by
  rcases hcan with hroom | ⟨slot, frame, hframe, hpinned⟩
  · left
    rwa [hages.length, hages.capacity]
  · obtain ⟨after, hafter, -, -, hafterPinned, -⟩ := hages.frame_after hframe
    exact .inr ⟨slot, after, hafter, hafterPinned.trans hpinned⟩

end Ages

/-! ## What the cache stands for -/

variable [FlatBacking B]

open FlatBacking (contents)

/-- The array of pages that the cache and its backing stand for. -/
def pages (c : PageCache B) : BitVec 32 → Page :=
  WriteBack.view c.cached (contents c.backing)

structure WellFormed (c : PageCache B) : Prop where
  indexed : ∀ (slot : ℕ) (frame : CacheFrame), c.frames[slot]? = some frame → c.residentSlot frame.page = some slot
  backed : ∀ page slot, c.residentSlot page = some slot →
    ∃ frame, c.frames[slot]? = some frame ∧ frame.page = page
  clean : ∀ (slot : ℕ) (frame : CacheFrame), c.frames[slot]? = some frame → frame.dirty = false →
    frame.data = contents c.backing frame.page
  hand_lt : c.hand < max 1 c.frames.length
  length_le : c.frames.length ≤ c.capacity
  capacity_pos : 1 ≤ c.capacity
  capacity_le : c.capacity ≤ ramPages

namespace WellFormed

variable {c : PageCache B}

theorem cached_of_frame (hc : WellFormed c) {slot : ℕ} {frame : CacheFrame}
    (hframe : c.frames[slot]? = some frame) : c.cached frame.page = some frame.data := by
  rw [cached, hc.indexed slot frame hframe, Option.bind_some, hframe, Option.map_some]

theorem pages_of_frame (hc : WellFormed c) {slot : ℕ} {frame : CacheFrame}
    (hframe : c.frames[slot]? = some frame) : c.pages frame.page = frame.data :=
  WriteBack.view_of_resident (hc.cached_of_frame hframe)

theorem pages_of_absent {page : BitVec 32} (habsent : c.residentSlot page = none) :
    c.pages page = contents c.backing page :=
  WriteBack.view_of_absent (cached_of_absent habsent)

end WellFormed

namespace Ages

variable {c next : PageCache B}

theorem pages (hages : Ages c next) : next.pages = c.pages := by
  rw [PageCache.pages, PageCache.pages, hages.cached, hages.backing]

theorem wellFormed (hages : Ages c next) (hc : WellFormed c) : WellFormed next where
  indexed := by
    intro slot frame hframe
    obtain ⟨before, hbefore, hpage, -⟩ := hages.frame hframe
    rw [hages.residentSlot, ← hpage]
    exact hc.indexed slot before hbefore
  backed := by
    intro page slot hslot
    rw [hages.residentSlot] at hslot
    obtain ⟨before, hbefore, hpage⟩ := hc.backed page slot hslot
    obtain ⟨after, hafter, hafterPage, -⟩ := hages.frame_after hbefore
    exact ⟨after, hafter, hafterPage.trans hpage⟩
  clean := by
    intro slot frame hframe hdirty
    obtain ⟨before, hbefore, hpage, hdirtyBefore, -, hdata⟩ := hages.frame hframe
    rw [hages.backing, ← hpage, ← hdata]
    exact hc.clean slot before hbefore (hdirtyBefore.trans hdirty)
  hand_lt := hages.hand_lt
  length_le := by rw [hages.length, hages.capacity]; exact hc.length_le
  capacity_pos := by rw [hages.capacity]; exact hc.capacity_pos
  capacity_le := by rw [hages.capacity]; exact hc.capacity_le

end Ages

end PageCache

end Baonix.Core

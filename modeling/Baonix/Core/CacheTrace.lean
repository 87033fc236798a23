import Baonix.Core.CacheRefinement

/-!
# What the page cache does to its frames

The methods of the cache are sequences of a few changes of the frame table:
ageing, a store into a frame, a writeback, the admission of a page into a new
frame or in place of an old one, and a miss that fails.  A trace is such a
sequence, with what each change needs to be allowed.  Nothing is assumed of the
backing.
-/

namespace Baonix.Core.PageCache

open Baonix.LittleEndian Baonix.Proto

variable {B : Type}

/-! ## The representation invariant -/

/-- The index and the frames agree, and the frames fit. -/
structure Represented (c : PageCache B) : Prop where
  agree : ∀ page slot, c.residentSlot page = some slot ↔
    ∃ frame : CacheFrame, c.frames[slot]? = some frame ∧ frame.page = page
  hand_lt : c.hand < max 1 c.frames.length
  length_le : c.frames.length ≤ c.capacity
  capacity_pos : 1 ≤ c.capacity
  capacity_le : c.capacity ≤ ramPages

namespace Represented

variable {c : PageCache B}

/-- No page occupies two frames. -/
theorem unique (hc : Represented c) {slot other : ℕ} {frame otherFrame : CacheFrame}
    (hframe : c.frames[slot]? = some frame) (hother : c.frames[other]? = some otherFrame)
    (hpage : otherFrame.page = frame.page) : other = slot := by
  have hslot := (hc.agree frame.page slot).mpr ⟨frame, hframe, rfl⟩
  have hotherSlot := (hc.agree frame.page other).mpr ⟨otherFrame, hother, hpage⟩
  rw [hslot, Option.some.injEq] at hotherSlot
  exact hotherSlot.symm

theorem not_mem_of_absent (hc : Represented c) {page : BitVec 32}
    (habsent : c.residentSlot page = none) {slot : ℕ} {frame : CacheFrame}
    (hframe : c.frames[slot]? = some frame) : frame.page ≠ page := by
  rintro rfl
  have hslot := (hc.agree frame.page slot).mpr ⟨frame, hframe, rfl⟩
  rw [habsent] at hslot
  cases hslot

/-- The invariant does not depend on the backing and the statistics. -/
theorem congr (hc : Represented c) {next : PageCache B} (hframes : next.frames = c.frames)
    (hslotOf : next.slotOf = c.slotOf) (hhand : next.hand = c.hand)
    (hcapacity : next.capacity = c.capacity) : Represented next where
  agree page slot := by
    rw [residentSlot_congr hslotOf, hframes]
    exact hc.agree page slot
  hand_lt := by rw [hhand, hframes]; exact hc.hand_lt
  length_le := by rw [hframes, hcapacity]; exact hc.length_le
  capacity_pos := by rw [hcapacity]; exact hc.capacity_pos
  capacity_le := by rw [hcapacity]; exact hc.capacity_le

end Represented

/-! ## Changes -/

/-- The frames hold the same pages with the same data; some may have been pinned. -/
structure Tended (c next : PageCache B) : Prop where
  slotOf : next.slotOf = c.slotOf
  capacity : next.capacity = c.capacity
  length : next.frames.length = c.frames.length
  hand_lt : next.hand < max 1 next.frames.length
  frame : ∀ (slot : ℕ) (frame : CacheFrame), c.frames[slot]? = some frame →
    ∃ after : CacheFrame, next.frames[slot]? = some after ∧ after.page = frame.page ∧
      after.dirty = frame.dirty ∧ after.data = frame.data ∧
        (frame.pinned = true → after.pinned = true)

/-- How much the counters of misses and evictions went up. -/
structure Counted (misses evictions : ℕ) (c next : PageCache B) : Prop where
  misses : next.stats.misses = c.stats.misses + misses
  evictions : next.stats.evictions = c.stats.evictions + evictions

variable [MemBacking B]

/-- The backing accepted the bytes of the frame, as its latest call. -/
def Saved (frame : CacheFrame) (backing : B) : Prop :=
  ∃ before, MemBacking.writePage frame.page frame.data before = (.ok (), backing)

/-- The latest call of the backing was refused: the read of a page, or the writeback
of a dirty frame. -/
inductive Refused (c : PageCache B) (backing : B) : Prop
  | read {page : BitVec 32} {before : B} {err : Error}
      (hrefused : MemBacking.readPage page before = (.error err, backing))
  | writeback {slot : ℕ} {frame : CacheFrame} {before : B} {err : Error}
      (hframe : c.frames[slot]? = some frame) (hdirty : frame.dirty = true)
      (hrefused : MemBacking.writePage frame.page frame.data before = (.error err, backing))

/-- `next` is `c` with a page in a new frame. -/
structure Filled (page : BitVec 32) (c next : PageCache B) : Prop where
  room : c.frames.length < c.capacity
  absent : c.residentSlot page = none
  inRam : page.toNat < ramPages
  frames : ∃ data, next.frames = c.frames ++ [incoming page data]
  slotOf : next.slotOf = (c.setResident page c.frames.length).slotOf
  capacity : next.capacity = c.capacity
  hand : next.hand = c.hand

/-- `next` is `c` with a page in place of one that is not pinned and that the backing
has. -/
structure Replaced (page : BitVec 32) (victim : ℕ) (outgoing : CacheFrame)
    (c next : PageCache B) : Prop where
  absent : c.residentSlot page = none
  inRam : page.toNat < ramPages
  frame : c.frames[victim]? = some outgoing
  unpinned : outgoing.pinned = false
  saved : outgoing.dirty = true → Saved outgoing next.backing
  frames : ∃ data, next.frames = c.frames.set victim (incoming page data)
  slotOf : next.slotOf = ((c.clearResident outgoing.page).setResident page victim).slotOf
  capacity : next.capacity = c.capacity
  hand : next.hand = c.hand

/-- A sequence of changes from `start`, with the number of misses that failed. -/
inductive Trace (start : PageCache B) : ℕ → PageCache B → Prop
  | refl : Trace start 0 start
  | tend {failed : ℕ} {c next : PageCache B} (htrace : Trace start failed c)
      (htended : Tended c next) (hcounted : Counted 0 0 c next) : Trace start failed next
  | store {failed : ℕ} {c : PageCache B} (htrace : Trace start failed c) {slot : ℕ}
      {frame : CacheFrame} (hframe : c.frames[slot]? = some frame) (off : ℕ) (bytes : List Byte) :
      Trace start failed { c with frames := c.frames.set slot (frame.store off bytes) }
  | clean {failed : ℕ} {c : PageCache B} (htrace : Trace start failed c) {slot : ℕ}
      {frame : CacheFrame} (hframe : c.frames[slot]? = some frame) {backing : B} {stats : Stats}
      (hsaved : Saved frame backing) (hmisses : stats.misses = c.stats.misses)
      (hevictions : stats.evictions = c.stats.evictions) :
      Trace start failed { c with
        backing := backing
        frames := c.frames.set slot { frame with dirty := false }
        stats := stats }
  | fill {failed : ℕ} {c next : PageCache B} (htrace : Trace start failed c) {page : BitVec 32}
      (hfilled : Filled page c next) (hcounted : Counted 1 0 c next) : Trace start failed next
  | replace {failed : ℕ} {c next : PageCache B} (htrace : Trace start failed c)
      {page : BitVec 32} {victim : ℕ} {outgoing : CacheFrame}
      (hreplaced : Replaced page victim outgoing c next) (hcounted : Counted 1 1 c next) :
      Trace start failed next
  | fail {failed : ℕ} {c next : PageCache B} (htrace : Trace start failed c)
      (htended : Tended c next) (hrefused : Refused c next.backing)
      (hcounted : Counted 1 0 c next) : Trace start (failed + 1) next

/-! ## The changes keep the invariant -/

section Changes

variable {c next : PageCache B}

omit [MemBacking B] in
theorem Tended.represented (htended : Tended c next) (hc : Represented c) : Represented next where
  agree page slot := by
    rw [residentSlot_congr htended.slotOf, hc.agree]
    constructor
    · rintro ⟨frame, hframe, hpage⟩
      obtain ⟨after, hafter, hsame, -⟩ := htended.frame slot frame hframe
      exact ⟨after, hafter, hsame.trans hpage⟩
    · rintro ⟨after, hafter, hpage⟩
      have hlt := (List.getElem?_eq_some_iff.mp hafter).1
      obtain ⟨frame, hframe⟩ := exists_frame (htended.length ▸ hlt)
      obtain ⟨found, hfound, hsame, -⟩ := htended.frame slot frame hframe
      rw [hafter, Option.some.injEq] at hfound
      exact ⟨frame, hframe, by rw [← hsame, ← hfound, hpage]⟩
  hand_lt := htended.hand_lt
  length_le := by rw [htended.length, htended.capacity]; exact hc.length_le
  capacity_pos := by rw [htended.capacity]; exact hc.capacity_pos
  capacity_le := by rw [htended.capacity]; exact hc.capacity_le

omit [MemBacking B] in
/-- A frame that keeps its page may be replaced by any other. -/
theorem Represented.set (hc : Represented c) {slot : ℕ} {frame changed : CacheFrame}
    (hframe : c.frames[slot]? = some frame) (hpage : changed.page = frame.page) :
    Represented { c with frames := c.frames.set slot changed } where
  agree page other := by
    have hslotOf : ({ c with frames := c.frames.set slot changed } : PageCache B).residentSlot page =
        c.residentSlot page := residentSlot_congr rfl page
    rw [hslotOf, hc.agree]
    by_cases hother : other = slot
    · subst hother
      have hlt := (List.getElem?_eq_some_iff.mp hframe).1
      simp only [List.getElem?_set_self hlt, hframe, Option.some.injEq, exists_eq_left', hpage]
    · simp only [List.getElem?_set_ne (Ne.symm hother)]
  hand_lt := by simpa using hc.hand_lt
  length_le := by simpa using hc.length_le
  capacity_pos := hc.capacity_pos
  capacity_le := hc.capacity_le

omit [MemBacking B] in
theorem Filled.represented {page : BitVec 32} (hfilled : Filled page c next)
    (hc : Represented c) : Represented next where
  agree other slot := by
    obtain ⟨data, hframes⟩ := hfilled.frames
    have hslots := residentSlot_congr hfilled.slotOf other
    rw [hslots, hframes]
    by_cases hother : other = page
    · subst hother
      rw [residentSlot_setResident_self _ hfilled.inRam (hfilled.room.trans_le hc.capacity_le),
        Option.some.injEq]
      constructor
      · rintro rfl
        exact ⟨incoming other data, List.getElem?_concat_length .., rfl⟩
      · rintro ⟨frame, hframe, hpage⟩
        by_contra hne
        have hlt := (List.getElem?_eq_some_iff.mp hframe).1
        rw [List.length_append, List.length_singleton] at hlt
        rw [List.getElem?_append_left (by omega)] at hframe
        exact hc.not_mem_of_absent hfilled.absent hframe hpage
    · rw [residentSlot_setResident_ne _ _ hother, hc.agree]
      rcases lt_trichotomy slot c.frames.length with hlt | heq | hgt
      · rw [List.getElem?_append_left hlt]
      · subst heq
        rw [List.getElem?_concat_length, List.getElem?_eq_none le_rfl]
        simp [incoming, Ne.symm hother]
      · rw [List.getElem?_eq_none hgt.le, List.getElem?_eq_none (by simpa using hgt)]
  hand_lt := by
    obtain ⟨data, hframes⟩ := hfilled.frames
    have hhand := hc.hand_lt
    rw [hfilled.hand, hframes, List.length_append, List.length_singleton]
    omega
  length_le := by
    obtain ⟨data, hframes⟩ := hfilled.frames
    rw [hframes, hfilled.capacity, List.length_append, List.length_singleton]
    exact hfilled.room
  capacity_pos := by rw [hfilled.capacity]; exact hc.capacity_pos
  capacity_le := by rw [hfilled.capacity]; exact hc.capacity_le

theorem Replaced.represented {page : BitVec 32} {victim : ℕ} {outgoing : CacheFrame}
    (hreplaced : Replaced page victim outgoing c next) (hc : Represented c) :
    Represented next where
  agree other slot := by
    obtain ⟨data, hframes⟩ := hreplaced.frames
    have hlt := (List.getElem?_eq_some_iff.mp hreplaced.frame).1
    rw [residentSlot_congr hreplaced.slotOf other, hframes]
    by_cases hother : other = page
    · subst hother
      rw [residentSlot_setResident_self _ hreplaced.inRam
        (hlt.trans_le (hc.length_le.trans hc.capacity_le)), Option.some.injEq]
      constructor
      · rintro rfl
        exact ⟨incoming other data, List.getElem?_set_self hlt, rfl⟩
      · rintro ⟨frame, hframe, hpage⟩
        by_contra hne
        rw [List.getElem?_set_ne hne] at hframe
        exact hc.not_mem_of_absent hreplaced.absent hframe hpage
    · rw [residentSlot_setResident_ne _ _ hother]
      by_cases hout : other = outgoing.page
      · -- the page that made room is nowhere
        rw [hout, residentSlot_clearResident_self]
        simp only [reduceCtorEq, false_iff]
        rintro ⟨frame, hframe, hpage⟩
        by_cases hslot : victim = slot
        · subst hslot
          rw [List.getElem?_set_self hlt, Option.some.injEq] at hframe
          rw [← hframe] at hpage
          exact hother (hout.trans hpage.symm)
        · rw [List.getElem?_set_ne hslot] at hframe
          exact hslot (hc.unique hreplaced.frame hframe hpage).symm
      · rw [residentSlot_clearResident_ne _ hout, hc.agree]
        by_cases hslot : victim = slot
        · subst hslot
          rw [List.getElem?_set_self hlt, hreplaced.frame]
          simp [incoming, Ne.symm hother, Ne.symm hout]
        · rw [List.getElem?_set_ne hslot]
  hand_lt := by
    obtain ⟨data, hframes⟩ := hreplaced.frames
    rw [hreplaced.hand, hframes, List.length_set]
    exact hc.hand_lt
  length_le := by
    obtain ⟨data, hframes⟩ := hreplaced.frames
    rw [hframes, hreplaced.capacity, List.length_set]
    exact hc.length_le
  capacity_pos := by rw [hreplaced.capacity]; exact hc.capacity_pos
  capacity_le := by rw [hreplaced.capacity]; exact hc.capacity_le

end Changes

namespace Trace

variable {start c : PageCache B} {failed : ℕ}

/-- **Every change keeps the invariant.** -/
theorem represented (htrace : Trace start failed c) (hstart : Represented start) :
    Represented c := by
  induction htrace with
  | refl => exact hstart
  | tend _ htended _ ih => exact htended.represented ih
  | store _ hframe off bytes ih => exact ih.set hframe rfl
  | @clean _ c _ slot frame hframe _ _ _ _ _ ih =>
      have hset : Represented { c with frames := c.frames.set slot { frame with dirty := false } } :=
        ih.set hframe rfl
      exact hset.congr rfl rfl rfl rfl
  | fill _ hfilled _ ih => exact hfilled.represented ih
  | replace _ hreplaced _ ih => exact hreplaced.represented ih
  | fail _ htended _ _ ih => exact htended.represented ih

/-- **The frames are accounted for**: each miss added one, replaced one or failed. -/
theorem balance (htrace : Trace start failed c) :
    c.frames.length + c.stats.evictions + failed + start.stats.misses =
      start.frames.length + start.stats.evictions + c.stats.misses := by
  induction htrace with
  | refl => omega
  | tend _ htended hcounted ih =>
      rw [htended.length, hcounted.misses, hcounted.evictions]
      exact ih
  | store _ hframe off bytes ih =>
      rw [List.length_set]
      exact ih
  | clean _ hframe _ hmisses hevictions ih =>
      rw [List.length_set, hmisses, hevictions]
      exact ih
  | fill _ hfilled hcounted ih =>
      obtain ⟨data, hframes⟩ := hfilled.frames
      rw [hframes, List.length_append, List.length_singleton, hcounted.misses, hcounted.evictions]
      omega
  | replace _ hreplaced hcounted ih =>
      obtain ⟨data, hframes⟩ := hreplaced.frames
      rw [hframes, List.length_set, hcounted.misses, hcounted.evictions]
      omega
  | fail _ htended _ hcounted ih =>
      rw [htended.length, hcounted.misses, hcounted.evictions]
      omega

theorem capacity (htrace : Trace start failed c) : c.capacity = start.capacity := by
  induction htrace with
  | refl => rfl
  | tend _ htended _ ih => exact htended.capacity.trans ih
  | store _ _ _ _ ih => exact ih
  | clean _ _ _ _ _ ih => exact ih
  | fill _ hfilled _ ih => exact hfilled.capacity.trans ih
  | replace _ hreplaced _ ih => exact hreplaced.capacity.trans ih
  | fail _ htended _ _ ih => exact htended.capacity.trans ih

/-- The page of a frame that is pinned. -/
def PinnedAt (c : PageCache B) (slot : ℕ) (page : BitVec 32) : Prop :=
  ∃ frame : CacheFrame, c.frames[slot]? = some frame ∧ frame.page = page ∧ frame.pinned = true

/-- **A pinned page stays** where it is, and stays pinned. -/
theorem pinnedAt (htrace : Trace start failed c) {slot : ℕ} {page : BitVec 32}
    (hpinned : PinnedAt start slot page) : PinnedAt c slot page := by
  -- a change of another frame, or of this one that leaves its page and its pin
  have hset {c : PageCache B} (hpinned : PinnedAt c slot page) {other : ℕ}
      {frame changed : CacheFrame} (hframe : c.frames[other]? = some frame)
      (hpage : changed.page = frame.page) (hpin : changed.pinned = frame.pinned) :
      ∃ after : CacheFrame, (c.frames.set other changed)[slot]? = some after ∧
        after.page = page ∧ after.pinned = true := by
    obtain ⟨found, hfound, hfoundPage, hfoundPinned⟩ := hpinned
    by_cases hother : other = slot
    · subst hother
      rw [hframe, Option.some.injEq] at hfound
      subst hfound
      have hlt := (List.getElem?_eq_some_iff.mp hframe).1
      exact ⟨changed, List.getElem?_set_self hlt, hpage.trans hfoundPage,
        hpin.trans hfoundPinned⟩
    · exact ⟨found, by rwa [List.getElem?_set_ne hother], hfoundPage, hfoundPinned⟩
  have htend {c next : PageCache B} (hpinned : PinnedAt c slot page) (htended : Tended c next) :
      PinnedAt next slot page := by
    obtain ⟨frame, hframe, hpage, hpin⟩ := hpinned
    obtain ⟨after, hafter, hsame, -, -, hkept⟩ := htended.frame slot frame hframe
    exact ⟨after, hafter, hsame.trans hpage, hkept hpin⟩
  induction htrace with
  | refl => exact hpinned
  | tend _ htended _ ih => exact htend ih htended
  | store _ hframe off bytes ih => exact hset ih hframe rfl rfl
  | clean _ hframe _ _ _ ih => exact hset ih hframe rfl rfl
  | fill _ hfilled _ ih =>
      obtain ⟨frame, hframe, hpage, hpin⟩ := ih
      obtain ⟨data, hframes⟩ := hfilled.frames
      have hlt := (List.getElem?_eq_some_iff.mp hframe).1
      exact ⟨frame, by rwa [hframes, List.getElem?_append_left hlt], hpage, hpin⟩
  | replace _ hreplaced _ ih =>
      obtain ⟨frame, hframe, hpage, hpin⟩ := ih
      obtain ⟨data, hframes⟩ := hreplaced.frames
      refine ⟨frame, ?_, hpage, hpin⟩
      rw [hframes, List.getElem?_set_ne]
      · exact hframe
      · -- the victim is not pinned
        rintro rfl
        rw [hreplaced.frame, Option.some.injEq] at hframe
        have hunpinned := hreplaced.unpinned
        rw [hframe, hpin] at hunpinned
        cases hunpinned
  | fail _ htended _ _ ih => exact htend ih htended

end Trace

end Baonix.Core.PageCache

import Baonix.Core.CacheInvariant

/-!
# What the methods of the page cache do

One specification for each method, under the invariant: none of them panics,
none changes the pages the cache stands for except the stores, and the
invariant is kept however they end.
-/

namespace Baonix.Core

open Baonix.LittleEndian Baonix.Proto
open FlatBacking (contents)

namespace PageCache

variable {B : Type}

theorem wp_frameAt {slot : ℕ} {c : PageCache B} {post : CacheFrame → PageCache B → Prop}
    {fails : Error → PageCache B → Prop} {panics : Prop} {frame : CacheFrame}
    (hframe : c.frames[slot]? = some frame) :
    Exec.wp (frameAt slot) post fails panics c ↔ post frame c := by
  simp [frameAt, hframe]

theorem wp_modifyFrame {slot : ℕ} {c : PageCache B} {change : CacheFrame → CacheFrame}
    {post : PUnit → PageCache B → Prop} {fails : Error → PageCache B → Prop} {panics : Prop}
    {frame : CacheFrame} (hframe : c.frames[slot]? = some frame) :
    Exec.wp (modifyFrame slot change) post fails panics c ↔
      post .unit { c with frames := c.frames.set slot (change frame) } := by
  simp [modifyFrame, wp_frameAt hframe]

@[simp]
theorem wp_setHand {hand : ℕ} {c : PageCache B} {post : PUnit → PageCache B → Prop}
    {fails : Error → PageCache B → Prop} {panics : Prop} :
    Exec.wp (setHand hand) post fails panics c ↔ post .unit { c with hand := hand } :=
  Iff.rfl

@[simp]
theorem wp_count {change : Stats → Stats} {c : PageCache B} {post : PUnit → PageCache B → Prop}
    {fails : Error → PageCache B → Prop} {panics : Prop} :
    Exec.wp (count change) post fails panics c ↔
      post .unit { c with stats := change c.stats } :=
  Iff.rfl

@[simp]
theorem wp_onBacking [MemBacking B] {Value : Type} {operation : B → Value × B} {c : PageCache B}
    {post : Value → PageCache B → Prop} {fails : Error → PageCache B → Prop} {panics : Prop} :
    Exec.wp (onBacking operation) post fails panics c ↔
      post (operation c.backing).1 { c with backing := (operation c.backing).2 } :=
  Iff.rfl

@[simp]
theorem wp_propagate [MemBacking B] {Value : Type} {result : Except Error Value} {c : PageCache B}
    {post : Value → PageCache B → Prop} {fails : Error → PageCache B → Prop} {panics : Prop} :
    Exec.wp (propagate result) post fails panics c ↔
      (∀ value, result = .ok value → post value c) ∧
        ∀ err, result = .error err → fails err c := by
  cases result <;> simp [propagate]

/-! ## Victims -/

theorem Ages.setReferenced {c : PageCache B} {slot : ℕ} {frame : CacheFrame}
    (hframe : c.frames[slot]? = some frame) (hhand : c.hand < max 1 c.frames.length)
    (referenced : Bool) :
    Ages c { c with frames := c.frames.set slot { frame with referenced := referenced } } := by
  refine ⟨rfl, rfl, rfl, ?_, ?_⟩
  · rw [List.map_set]
    apply List.ext_getElem?
    intro index
    by_cases hindex : slot = index
    · subst hindex
      have hlength := (List.getElem?_eq_some_iff.mp hframe).1
      rw [List.getElem?_set_self (by simpa using hlength), List.getElem?_map, hframe]
      rfl
    · rw [List.getElem?_set_ne hindex]
  · simpa using hhand

theorem Ages.setHand {c : PageCache B} {hand : ℕ}
    (hhand : hand < max 1 c.frames.length) : Ages c { c with hand := hand } :=
  ⟨rfl, rfl, rfl, rfl, hhand⟩

theorem exists_frame {c : PageCache B} {slot : ℕ} (hslot : slot < c.frames.length) :
    ∃ frame, c.frames[slot]? = some frame :=
  ⟨c.frames[slot], List.getElem?_eq_getElem hslot⟩

/-- The sweep ages the frames, and what it stops at is not pinned. -/
theorem sweep_spec (turns : ℕ) {c : PageCache B} (hframes : c.frames ≠ [])
    (hhand : c.hand < max 1 c.frames.length) :
    Exec.wp (sweep turns)
      (fun found next => Ages c next ∧ ∀ slot ∈ found, ∃ frame : CacheFrame,
        next.frames[slot]? = some frame ∧ frame.pinned = false)
      (fun _ _ => False) False c := by
  induction turns generalizing c with
  | zero =>
      simp only [sweep, Exec.wp_pure, Option.not_mem_none, false_implies, implies_true, and_true]
      exact .refl hhand
  | succ turns ih =>
      have hlength := List.length_pos_iff.mpr hframes
      obtain ⟨frame, hframe⟩ := exists_frame (show c.hand < c.frames.length by omega)
      have hnext : (c.hand + 1) % c.frames.length < max 1 c.frames.length :=
        (Nat.mod_lt _ hlength).trans_le (le_max_right ..)
      have hmoved : Ages c { c with hand := (c.hand + 1) % c.frames.length } :=
        .setHand hnext
      have hrest {middle : PageCache B} (hages : Ages c middle) :
          Exec.wp (sweep turns)
            (fun found next => Ages c next ∧ ∀ slot ∈ found, ∃ frame : CacheFrame,
              next.frames[slot]? = some frame ∧ frame.pinned = false)
            (fun _ _ => False) False middle := by
        have hne : middle.frames ≠ [] := by
          intro hnil
          apply hframes
          have hlength := hages.length
          rw [hnil] at hlength
          exact List.eq_nil_of_length_eq_zero hlength.symm
        apply (ih hne hages.hand_lt).imp_post
        intro found next hnext
        exact ⟨hages.trans hnext.1, hnext.2⟩
      have hmovedFrame : ({ c with hand := (c.hand + 1) % c.frames.length } :
          PageCache B).frames[c.hand]? = some frame := hframe
      simp only [sweep, Exec.wp_bind, Exec.wp_read, wp_setHand]
      rw [wp_frameAt hmovedFrame, Exec.wp_ite]
      split
      · exact hrest hmoved
      · rw [Exec.wp_ite]
        split
        · rw [Exec.wp_bind, wp_modifyFrame hmovedFrame]
          exact hrest (hmoved.trans (.setReferenced hmovedFrame hnext false))
        · rename_i hpinned _
          rw [Exec.wp_pure]
          refine ⟨hmoved, ?_⟩
          intro slot hslot
          rw [Option.mem_some_iff] at hslot
          subst hslot
          exact ⟨frame, hframe, by simpa using hpinned⟩

/-- What is chosen is not pinned; where every frame is pinned, nothing is. -/
theorem selectVictim_unpinned {c : PageCache B} (hframes : c.frames ≠ [])
    (hhand : c.hand < max 1 c.frames.length) :
    Exec.wp selectVictim
      (fun victim next => Ages c next ∧ ∃ frame : CacheFrame,
        next.frames[victim]? = some frame ∧ frame.pinned = false)
      (fun _ _ => False)
      (∀ (slot : ℕ) (frame : CacheFrame), c.frames[slot]? = some frame → frame.pinned = true) c := by
  rw [selectVictim, Exec.wp_bind, Exec.wp_read, Exec.wp_bind]
  apply (sweep_spec _ hframes hhand).imp
  · rintro found next ⟨hages, hfound⟩
    cases found with
    | some victim =>
        rw [Exec.wp_pure]
        exact ⟨hages, hfound victim rfl⟩
    | none =>
        rw [Exec.wp_bind, Exec.wp_read]
        cases hfind : next.frames.findIdx? (! ·.pinned) with
        | some victim =>
            rw [Exec.wp_pure]
            refine ⟨hages, ?_⟩
            obtain ⟨hvictim, hfree, -⟩ := List.findIdx?_eq_some_iff_getElem.mp hfind
            exact ⟨next.frames[victim], List.getElem?_eq_getElem hvictim, by simpa using hfree⟩
        | none =>
            -- ageing keeps the pins
            intro slot frame hframe
            obtain ⟨after, hafter, -, -, hafterPinned, -⟩ := hages.frame_after hframe
            have hall := List.findIdx?_eq_none_iff.mp hfind after (List.mem_of_getElem? hafter)
            rw [← hafterPinned]
            simpa using hall
  · exact fun _ _ hfalse => hfalse.elim
  · exact fun hfalse => hfalse.elim

theorem selectVictim_spec {c : PageCache B} (hhand : c.hand < max 1 c.frames.length)
    {slot : ℕ} {frame : CacheFrame} (hframe : c.frames[slot]? = some frame)
    (hpinned : frame.pinned = false) :
    Exec.wp selectVictim
      (fun victim next => Ages c next ∧ ∃ frame : CacheFrame,
        next.frames[victim]? = some frame ∧ frame.pinned = false)
      (fun _ _ => False) False c := by
  have hne : c.frames ≠ [] := by
    rintro hnil
    rw [hnil] at hframe
    cases hframe
  apply (selectVictim_unpinned hne hhand).imp
  · exact fun _ _ hnext => hnext
  · exact fun _ _ hfalse => hfalse
  · intro hall
    have hboth := hall slot frame hframe
    rw [hpinned] at hboth
    cases hboth

/-- **The fallback never names a dirty frame.** -/
theorem searchClean_spec (distances : List ℕ) (hot : Option ℕ) {c : PageCache B}
    (hframes : c.frames ≠ []) (hhand : c.hand < max 1 c.frames.length)
    (hhot : ∀ slot ∈ hot, ∃ frame : CacheFrame, c.frames[slot]? = some frame ∧
      frame.pinned = false ∧ frame.dirty = false) :
    Exec.wp (searchClean distances hot)
      (fun found next => Ages c next ∧ ∀ slot ∈ found, ∃ frame : CacheFrame,
        next.frames[slot]? = some frame ∧ frame.pinned = false ∧ frame.dirty = false)
      (fun _ _ => False) False c := by
  have hlength := List.length_pos_iff.mpr hframes
  have hwrap (hand : ℕ) : hand % c.frames.length < max 1 c.frames.length :=
    (Nat.mod_lt _ hlength).trans_le (le_max_right ..)
  induction distances generalizing hot with
  | nil =>
      cases hot with
      | none =>
          simp only [searchClean, Exec.wp_pure]
          exact ⟨.refl hhand, hhot⟩
      | some slot =>
          simp only [searchClean, Exec.wp_bind, Exec.wp_read, wp_setHand, Exec.wp_pure]
          exact ⟨.setHand (hwrap _), hhot⟩
  | cons distance distances ih =>
      obtain ⟨frame, hframe⟩ :=
        exists_frame (Nat.mod_lt (c.hand + distance) hlength)
      simp only [searchClean, Exec.wp_bind, Exec.wp_read]
      rw [wp_frameAt hframe, Exec.wp_ite]
      split
      · exact ih hot hhot
      · rename_i hkept
        rw [Bool.or_eq_true, not_or, Bool.not_eq_true, Bool.not_eq_true] at hkept
        rw [Exec.wp_ite]
        split
        · rw [Exec.wp_bind, wp_setHand, Exec.wp_pure]
          refine ⟨.setHand (hwrap _), ?_⟩
          intro slot hslot
          rw [Option.mem_some_iff] at hslot
          subst hslot
          exact ⟨frame, hframe, hkept⟩
        · apply ih
          intro slot hslot
          rcases Option.or_eq_some_iff.mp hslot with hslot | ⟨-, hslot⟩
          · exact hhot slot hslot
          · cases hslot
            exact ⟨frame, hframe, hkept⟩

theorem selectCleanVictim_spec {c : PageCache B} (hframes : c.frames ≠ [])
    (hhand : c.hand < max 1 c.frames.length) :
    Exec.wp selectCleanVictim
      (fun found next => Ages c next ∧ ∀ slot ∈ found, ∃ frame : CacheFrame,
        next.frames[slot]? = some frame ∧ frame.pinned = false ∧ frame.dirty = false)
      (fun _ _ => False) False c := by
  rw [selectCleanVictim, Exec.wp_bind, Exec.wp_read]
  exact searchClean_spec _ none hframes hhand (by simp)

/-! ## Admission -/

variable [FlatBacking B]

/-- The pages the cache stands for are the same, and it can still admit one. -/
structure Keeps (c next : PageCache B) : Prop where
  wellFormed : WellFormed next
  pages : next.pages = c.pages
  canAdmit : CanAdmit next

theorem Keeps.trans {c middle next : PageCache B} (hleft : Keeps c middle)
    (hright : Keeps middle next) : Keeps c next :=
  ⟨hright.wellFormed, hright.pages.trans hleft.pages, hright.canAdmit⟩

/-- The statistics do not matter. -/
theorem Keeps.setStats {c next : PageCache B} (hkeeps : Keeps c next) (stats : Stats) :
    Keeps c { next with stats := stats } := by
  have hwell := hkeeps.wellFormed
  exact ⟨⟨hwell.indexed, hwell.backed, hwell.clean, hwell.hand_lt, hwell.length_le,
    hwell.capacity_pos, hwell.capacity_le⟩, hkeeps.pages, hkeeps.canAdmit⟩

theorem Ages.keeps {c next : PageCache B} (hages : Ages c next) (hc : WellFormed c)
    (hcan : CanAdmit c) : Keeps c next :=
  ⟨hages.wellFormed hc, hages.pages, hages.canAdmit hcan⟩

/-- The frames are told apart by their pages. -/
theorem WellFormed.slot_unique {c : PageCache B} (hc : WellFormed c) {slot other : ℕ}
    {frame otherFrame : CacheFrame} (hframe : c.frames[slot]? = some frame)
    (hother : c.frames[other]? = some otherFrame) (hpage : otherFrame.page = frame.page) :
    other = slot ∧ otherFrame = frame := by
  have hslot := hc.indexed slot frame hframe
  have hotherSlot := hc.indexed other otherFrame hother
  rw [hpage, hslot, Option.some.injEq] at hotherSlot
  subst hotherSlot
  rw [hframe, Option.some.injEq] at hother
  exact ⟨rfl, hother.symm⟩

/-- A writeback of a frame, whether the backing stored the page or not. -/
theorem WellFormed.writeBack {c : PageCache B} (hc : WellFormed c) {slot : ℕ}
    {frame : CacheFrame} (hframe : c.frames[slot]? = some frame) {backing : B}
    (hbacking : contents backing = contents c.backing ∨
      contents backing = Function.update (contents c.backing) frame.page frame.data) :
    WellFormed { c with backing := backing } ∧ { c with backing := backing }.pages = c.pages := by
  have hcached : c.cached frame.page ≠ none := by
    rw [hc.cached_of_frame hframe]
    exact Option.some_ne_none _
  constructor
  · refine ⟨hc.indexed, hc.backed, ?_, hc.hand_lt, hc.length_le, hc.capacity_pos,
      hc.capacity_le⟩
    intro other otherFrame hother hdirty
    have hclean := hc.clean other otherFrame hother hdirty
    rcases hbacking with hsame | hstored
    · rw [hsame]
      exact hclean
    · rw [hstored]
      by_cases hpage : otherFrame.page = frame.page
      · obtain ⟨-, rfl⟩ := hc.slot_unique hframe hother hpage
        rw [Function.update_self]
      · rw [Function.update_of_ne hpage]
        exact hclean
  · rcases hbacking with hsame | hstored
    · simp only [PageCache.pages, hsame]
      rfl
    · simp only [PageCache.pages, hstored]
      exact WriteBack.view_store_behind hcached _

/-- The page read for a miss and the frame it is put in. -/
def incoming (page : BitVec 32) (data : Page) : CacheFrame := ⟨page, false, true, false, data⟩

/-- `next` is `c` with a page admitted into `slot`, in place of whatever clean
page was there. -/
structure Admits (c next : PageCache B) (page : BitVec 32) (data : Page) (slot : ℕ) : Prop where
  backing : next.backing = c.backing
  frame_self : next.frames[slot]? = some (incoming page data)
  frame_ne : ∀ other, other ≠ slot → next.frames[other]? = c.frames[other]?
  slot_self : next.residentSlot page = some slot
  slot_ne : ∀ other, other ≠ page → next.residentSlot other =
    if c.residentSlot other = some slot then none else c.residentSlot other
  outgoing : ∀ frame : CacheFrame, c.frames[slot]? = some frame →
    frame.data = contents c.backing frame.page
  capacity : next.capacity = c.capacity
  length_ge : c.frames.length ≤ next.frames.length
  length_le : next.frames.length ≤ next.capacity
  hand : next.hand = c.hand

namespace Admits

variable {c next : PageCache B} {page : BitVec 32} {data : Page} {slot : ℕ}

theorem cached_ne (hadmits : Admits c next page data slot) {other : BitVec 32} (hother : other ≠ page) (hkept : c.residentSlot other ≠ some slot) :
    next.cached other = c.cached other := by
  rw [PageCache.cached, PageCache.cached, hadmits.slot_ne other hother, if_neg hkept]
  cases hresident : c.residentSlot other with
  | none => rfl
  | some otherSlot =>
      have hne : otherSlot ≠ slot := by
        rintro rfl
        exact hkept hresident
      rw [Option.bind_some, Option.bind_some, hadmits.frame_ne otherSlot hne]

/-- Loading the page and evicting the one it replaces keep the view. -/
theorem pages (hadmits : Admits c next page data slot) (hc : WellFormed c)
    (habsent : c.residentSlot page = none) (hdata : data = contents c.backing page) :
    next.pages = c.pages := by
  have hself : next.cached page = some data := by
    rw [PageCache.cached, hadmits.slot_self, Option.bind_some, hadmits.frame_self]
    rfl
  have hcached := cached_of_absent habsent
  rw [PageCache.pages, PageCache.pages, hadmits.backing]
  cases hold : c.frames[slot]? with
  | none =>
      have hnext : next.cached = Function.update c.cached page (some (contents c.backing page)) := by
        funext other
        by_cases hother : other = page
        · rw [hother, Function.update_self, hself, hdata]
        · rw [Function.update_of_ne hother, hadmits.cached_ne hother]
          intro hresident
          obtain ⟨frame, hframe, -⟩ := hc.backed other slot hresident
          rw [hold] at hframe
          cases hframe
      rw [hnext, WriteBack.view_load hcached]
  | some frame =>
      have hresident := hc.indexed slot frame hold
      have hclean : c.cached frame.page = some (contents c.backing frame.page) := by
        rw [hc.cached_of_frame hold, hadmits.outgoing frame hold]
      have hne : page ≠ frame.page := by
        rintro rfl
        rw [habsent] at hresident
        cases hresident
      have hevicted : Function.update c.cached frame.page none page = none := by
        rw [Function.update_of_ne hne, hcached]
      have hnext : next.cached = Function.update (Function.update c.cached frame.page none) page
          (some (contents c.backing page)) := by
        funext other
        by_cases hother : other = page
        · rw [hother, Function.update_self, hself, hdata]
        · rw [Function.update_of_ne hother]
          by_cases hout : other = frame.page
          · rw [hout, Function.update_self, PageCache.cached,
              hadmits.slot_ne _ hne.symm, if_pos hresident, Option.bind_none]
          · rw [Function.update_of_ne hout, hadmits.cached_ne hother]
            intro hsame
            obtain ⟨found, hfound, hpage⟩ := hc.backed other slot hsame
            rw [hold, Option.some.injEq] at hfound
            exact hout (hpage.symm.trans (congrArg CacheFrame.page hfound.symm))
      rw [hnext, WriteBack.view_load hevicted, WriteBack.view_evict hclean]

theorem wellFormed (hadmits : Admits c next page data slot) (hc : WellFormed c)
    (habsent : c.residentSlot page = none) (hdata : data = contents c.backing page) :
    WellFormed next where
  indexed := by
    intro other frame hframe
    by_cases hother : other = slot
    · rw [hother, hadmits.frame_self, Option.some.injEq] at hframe
      rw [← hframe, hother]
      exact hadmits.slot_self
    · rw [hadmits.frame_ne other hother] at hframe
      have hindexed := hc.indexed other frame hframe
      have hpage : frame.page ≠ page := by
        rintro hsame
        rw [hsame, habsent] at hindexed
        cases hindexed
      rw [hadmits.slot_ne _ hpage, hindexed, if_neg (by simpa using hother)]
  backed := by
    intro other otherSlot hresident
    by_cases hother : other = page
    · rw [hother, hadmits.slot_self, Option.some.injEq] at hresident
      rw [← hresident, hother]
      exact ⟨_, hadmits.frame_self, rfl⟩
    · rw [hadmits.slot_ne other hother] at hresident
      split at hresident
      · cases hresident
      · rename_i hkept
        have hne : otherSlot ≠ slot := by
          rintro rfl
          exact hkept hresident
        rw [hadmits.frame_ne otherSlot hne]
        exact hc.backed other otherSlot hresident
  clean := by
    intro other frame hframe hdirty
    rw [hadmits.backing]
    by_cases hother : other = slot
    · rw [hother, hadmits.frame_self, Option.some.injEq] at hframe
      rw [← hframe]
      exact hdata
    · rw [hadmits.frame_ne other hother] at hframe
      exact hc.clean other frame hframe hdirty
  hand_lt := by
    have hlt := hc.hand_lt
    have hge := hadmits.length_ge
    rw [hadmits.hand]
    omega
  length_le := hadmits.length_le
  capacity_pos := by rw [hadmits.capacity]; exact hc.capacity_pos
  capacity_le := by rw [hadmits.capacity]; exact hc.capacity_le

theorem keeps (hadmits : Admits c next page data slot) (hc : WellFormed c)
    (habsent : c.residentSlot page = none) (hdata : data = contents c.backing page) :
    Keeps c next :=
  ⟨hadmits.wellFormed hc habsent hdata, hadmits.pages hc habsent hdata,
    .inr ⟨slot, _, hadmits.frame_self, rfl⟩⟩

end Admits

/-- Admitting a page into a new frame. -/
theorem WellFormed.admits_append {c : PageCache B} (hc : WellFormed c) {page : BitVec 32}
    {data : Page} (hpage : page.toNat < ramPages) (hroom : c.frames.length < c.capacity) :
    Admits c ({ c with frames := c.frames ++ [incoming page data] }.setResident page
      c.frames.length) page data c.frames.length where
  backing := rfl
  frame_self := by simp [setResident]
  frame_ne := by
    intro other hother
    rcases hother.lt_or_gt with hlt | hgt
    · exact List.getElem?_append_left hlt
    · rw [List.getElem?_eq_none (by simp [setResident]; omega),
        List.getElem?_eq_none (by omega)]
  slot_self := residentSlot_setResident_self _ hpage (hroom.trans_le hc.capacity_le)
  slot_ne := by
    intro other hother
    have hnew : c.residentSlot other ≠ some c.frames.length := by
      intro hresident
      obtain ⟨frame, hframe, -⟩ := hc.backed other _ hresident
      have hlt := (List.getElem?_eq_some_iff.mp hframe).1
      exact lt_irrefl _ hlt
    rw [residentSlot_setResident_ne _ _ hother, if_neg hnew]
    exact residentSlot_congr rfl other
  outgoing := by simp
  capacity := rfl
  length_ge := by simp [setResident]
  length_le := by
    simp only [setResident, List.length_append, List.length_singleton]
    omega
  hand := rfl

/-- Admitting a page into the frame of one the backing has. -/
theorem WellFormed.admits_replace {c : PageCache B} (hc : WellFormed c) {page : BitVec 32}
    {data : Page} (hpage : page.toNat < ramPages) {victim : ℕ} {outgoing : CacheFrame}
    (houtgoing : c.frames[victim]? = some outgoing)
    (hclean : outgoing.data = contents c.backing outgoing.page) :
    Admits c ({ c.clearResident outgoing.page with
      frames := c.frames.set victim (incoming page data) }.setResident page victim)
      page data victim where
  backing := rfl
  frame_self := by
    have hlt := (List.getElem?_eq_some_iff.mp houtgoing).1
    simp [setResident, hlt]
  frame_ne := by
    intro other hother
    exact List.getElem?_set_ne hother.symm
  slot_self := by
    have hlt := (List.getElem?_eq_some_iff.mp houtgoing).1
    exact residentSlot_setResident_self _ hpage
      (hlt.trans_le (hc.length_le.trans hc.capacity_le))
  slot_ne := by
    intro other hother
    rw [residentSlot_setResident_ne _ _ hother]
    have hcleared : ({ c.clearResident outgoing.page with
        frames := c.frames.set victim (incoming page data) } : PageCache B).residentSlot other =
        (c.clearResident outgoing.page).residentSlot other :=
      residentSlot_congr rfl other
    rw [hcleared]
    by_cases hout : other = outgoing.page
    · rw [hout, residentSlot_clearResident_self, if_pos (hc.indexed _ _ houtgoing)]
    · rw [residentSlot_clearResident_ne _ hout, if_neg]
      intro hresident
      obtain ⟨found, hfound, hfoundPage⟩ := hc.backed other _ hresident
      rw [houtgoing, Option.some.injEq] at hfound
      exact hout (hfoundPage.symm.trans (congrArg CacheFrame.page hfound.symm))
  outgoing := by
    intro frame hframe
    rw [houtgoing, Option.some.injEq] at hframe
    rw [← hframe]
    exact hclean
  capacity := rfl
  length_ge := by simp [setResident]
  length_le := by simpa [setResident, clearResident] using hc.length_le
  hand := rfl

/-- What the victim of an eviction is left as: the backing has what it holds. -/
structure Evictable (c next : PageCache B) (victim : ℕ) : Prop where
  keeps : Keeps c next
  slotOf : next.slotOf = c.slotOf
  length : next.frames.length = c.frames.length
  capacity : next.capacity = c.capacity
  clean : ∃ frame : CacheFrame, next.frames[victim]? = some frame ∧
    frame.data = contents next.backing frame.page

/-- **An eviction is paid for**: the frame chosen is clean, or has just been
written back, and a refused writeback changes nothing. -/
theorem evictable_spec {c : PageCache B} (hc : WellFormed c) {slot : ℕ} {frame : CacheFrame}
    (hframe : c.frames[slot]? = some frame) (hpinned : frame.pinned = false) :
    Exec.wp evictable (fun victim next => Evictable c next victim)
      (fun _ next => Keeps c next ∧ Fallible B) False c := by
  have hcan : CanAdmit c := .inr ⟨slot, frame, hframe, hpinned⟩
  rw [evictable, Exec.wp_bind]
  apply (selectVictim_spec hc.hand_lt hframe hpinned).imp
  · rintro victim aged ⟨hages, chosen, hchosen, -⟩
    have haged := hages.wellFormed hc
    rw [Exec.wp_bind, wp_frameAt hchosen, Exec.wp_ite]
    split
    · rw [Exec.wp_bind, wp_onBacking]
      -- whatever the backing did with the page, the cache stands for the same
      have hback (backing : B) (hbacking : contents backing = contents aged.backing ∨
          contents backing = Function.update (contents aged.backing) chosen.page chosen.data) :
          Keeps c { aged with backing := backing } := by
        obtain ⟨hwell, hpages⟩ := haged.writeBack hchosen hbacking
        exact ⟨hwell, hpages.trans hages.pages, hages.canAdmit hcan⟩
      rcases hwrite : MemBacking.writePage chosen.page chosen.data aged.backing with
        ⟨result, backing⟩
      dsimp only
      cases result with
      | ok _ =>
          have hstored := FlatBacking.writePage_ok chosen.page chosen.data aged.backing
            (congrArg Prod.fst hwrite)
          rw [hwrite] at hstored
          rw [Exec.wp_bind, wp_count, Exec.wp_pure]
          have hkeeps := hback backing (.inr hstored)
          refine ⟨hkeeps.setStats _, hages.slotOf, hages.length, hages.capacity, chosen,
            hchosen, ?_⟩
          simp only [hstored, Function.update_self]
      | error err =>
          have hrefused := FlatBacking.writePage_error chosen.page chosen.data aged.backing err
            (congrArg Prod.fst hwrite)
          have hfallible : Fallible B := by
            have hrange := residentSlot_lt (haged.indexed victim chosen hchosen)
            exact ⟨chosen.page, aged.backing, err, hrange, .inr ⟨_, congrArg Prod.fst hwrite⟩⟩
          rw [hwrite] at hrefused
          have hkeeps := hback backing hrefused
          have hne : ({ aged with backing := backing } : PageCache B).frames ≠ [] := by
            intro hnil
            have hnone : aged.frames = [] := hnil
            rw [hnone] at hchosen
            cases hchosen
          rw [Exec.wp_bind]
          apply (selectCleanVictim_spec hne hkeeps.wellFormed.hand_lt).imp
          · rintro found next ⟨hagain, hfound⟩
            have hnext := hkeeps.trans (hagain.keeps hkeeps.wellFormed hkeeps.canAdmit)
            cases found with
            | none =>
                rw [Exec.wp_raise]
                exact ⟨hnext, hfallible⟩
            | some clean =>
                obtain ⟨spare, hspare, -, hclean⟩ := hfound clean rfl
                rw [Exec.wp_bind, wp_count, Exec.wp_pure]
                exact ⟨hnext.setStats _, hagain.slotOf.trans hages.slotOf,
                  hagain.length.trans hages.length, hagain.capacity.trans hages.capacity,
                  spare, hspare, hnext.wellFormed.clean clean spare hspare hclean⟩
          · exact fun _ _ hfalse => hfalse.elim
          · exact fun hfalse => hfalse
    · rename_i hdirty
      rw [Exec.wp_pure]
      refine ⟨hages.keeps hc hcan, hages.slotOf, hages.length, hages.capacity, chosen, hchosen,
        haged.clean victim chosen hchosen (by simpa using hdirty)⟩
  · exact fun _ _ hfalse => hfalse.elim
  · exact fun hfalse => hfalse

/-- **A page is made resident without changing what the cache stands for**,
whatever the backing does; it is the backing that makes the call fail. -/
theorem resident_spec {c : PageCache B} (hc : WellFormed c) (hcan : CanAdmit c)
    (page : BitVec 32) :
    Exec.wp (resident page)
      (fun slot next => Keeps c next ∧ ∃ frame : CacheFrame,
        next.frames[slot]? = some frame ∧ frame.page = page)
      (fun _ next => Keeps c next ∧ (page.toNat < ramPages → Fallible B)) False c := by
  have hkept : Keeps c c := ⟨hc, rfl, hcan⟩
  rw [resident, Exec.wp_bind, Exec.wp_read]
  cases hslot : c.residentSlot page with
  | some slot =>
      obtain ⟨frame, hframe, hpage⟩ := hc.backed page slot hslot
      dsimp only
      rw [Exec.wp_bind, wp_modifyFrame hframe, Exec.wp_bind, wp_count, Exec.wp_pure]
      have hkeeps := (Ages.setReferenced hframe hc.hand_lt true).keeps hc hcan
      have hlt := (List.getElem?_eq_some_iff.mp hframe).1
      exact ⟨hkeeps.setStats _, _, List.getElem?_set_self hlt, hpage⟩
  | none =>
      dsimp only
      rw [Exec.wp_ite]
      split
      · rename_i hrange
        rw [Exec.wp_raise]
        exact ⟨hkept, fun hlt => absurd hlt (not_lt.mpr hrange)⟩
      · rename_i hrange
        rw [Exec.wp_bind, wp_count, Exec.wp_bind, wp_onBacking, Exec.wp_bind, wp_propagate]
        have hcontents := FlatBacking.contents_readPage page c.backing
        have hread := FlatBacking.readPage_ok page c.backing
        rcases hresult : MemBacking.readPage page c.backing with ⟨result, backing⟩
        rw [hresult] at hcontents hread
        dsimp only at hcontents hread ⊢
        -- a read leaves the backing's pages alone
        generalize hmissed : ({ c with
          backing := backing
          stats := { c.stats with misses := c.stats.misses + 1 } } : PageCache B) = missed
        have hkeeps : Keeps c missed := by
          have hbacking : Keeps c { c with backing := backing } := by
            refine ⟨⟨hc.indexed, hc.backed, ?_, hc.hand_lt, hc.length_le, hc.capacity_pos,
              hc.capacity_le⟩, ?_, hcan⟩
            · intro slot frame hframe hdirty
              rw [hcontents]
              exact hc.clean slot frame hframe hdirty
            · simp only [PageCache.pages, hcontents]
              rfl
          rw [← hmissed]
          exact hbacking.setStats _
        have habsent : missed.residentSlot page = none := by
          rw [← hslot, ← hmissed]
          exact residentSlot_congr rfl page
        have hfallible (err : Error) (herr : result = .error err) : Fallible B :=
          ⟨page, c.backing, err, not_le.mp hrange,
            .inl ((congrArg Prod.fst hresult).trans herr)⟩
        refine ⟨?_, fun err herr => ⟨hkeeps, fun _ => hfallible err herr⟩⟩
        intro data hok
        have hdata : data = missed.pages page := by
          rw [hread data hok, WellFormed.pages_of_absent habsent, ← hmissed, hcontents]
        rw [Exec.wp_bind, Exec.wp_read, Exec.wp_ite]
        split
        · rename_i hroom
          rw [Exec.wp_bind, Exec.wp_update, Exec.wp_pure]
          have hadmits : Admits missed _ page data _ :=
            hkeeps.wellFormed.admits_append (not_le.mp hrange) hroom
          rw [WellFormed.pages_of_absent habsent] at hdata
          exact ⟨hkeeps.trans (hadmits.keeps hkeeps.wellFormed habsent hdata), _,
            hadmits.frame_self, rfl⟩
        · rename_i hfull
          rw [Exec.wp_bind]
          obtain ⟨spare, frame, hframe, hpinned⟩ := hkeeps.canAdmit.resolve_left hfull
          apply (evictable_spec hkeeps.wellFormed hframe hpinned).imp
          · rintro victim next ⟨hnext, hslotOf, -, -, outgoing, houtgoing, hclean⟩
            have hcounted :=
              hnext.setStats { next.stats with evictions := next.stats.evictions + 1 }
            rw [Exec.wp_bind, wp_count, Exec.wp_bind]
            generalize hcount : ({ next with
              stats := { next.stats with evictions := next.stats.evictions + 1 } } :
              PageCache B) = counted at hcounted
            have hvictim : counted.frames[victim]? = some outgoing := by
              rw [← hcount]
              exact houtgoing
            have hstored : outgoing.data = contents counted.backing outgoing.page := by
              rw [← hcount]
              exact hclean
            have hstill : counted.residentSlot page = none := by
              rw [← habsent, ← hcount]
              exact residentSlot_congr hslotOf page
            have hcurrent : data = contents counted.backing page := by
              rw [hdata, ← hcounted.pages]
              exact WellFormed.pages_of_absent hstill
            have hadmits : Admits counted _ page data victim :=
              hcounted.wellFormed.admits_replace (not_le.mp hrange) hvictim hstored
            rw [wp_frameAt hvictim, Exec.wp_bind, Exec.wp_update, Exec.wp_pure]
            exact ⟨(hkeeps.trans hcounted).trans
              (hadmits.keeps hcounted.wellFormed hstill hcurrent), _, hadmits.frame_self, rfl⟩
          · rintro err next ⟨hnext, hfails⟩
            exact ⟨hkeeps.trans hnext, fun _ => hfails⟩
          · exact fun hfalse => hfalse

end PageCache

end Baonix.Core

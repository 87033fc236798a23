import Baonix.Core.CacheRuns

/-!
# What a flush leaves

`flush` writes the dirty frames back in order, up to the first refusal.  The frames
before it are clean and the backing holds them; the frame refused and those after it
are as they were.  In a cache that is right, the memory it stands for stays the same
however the flush ends.
-/

namespace Baonix.Core.PageCache

open Baonix.LittleEndian Baonix.Proto
open FlatBacking (contents)

variable {B : Type}

/-- A frame without its dirty bit. -/
def CacheFrame.cleaned (frame : CacheFrame) : CacheFrame := { frame with dirty := false }

theorem CacheFrame.cleaned_of_clean {frame : CacheFrame} (hclean : frame.dirty = false) :
    CacheFrame.cleaned frame = frame := by
  rw [CacheFrame.cleaned, ← hclean]

/-! ## Writes in order -/

section Writes

variable [MemBacking B]

/-- The backing accepted the writes of these frames, in this order. -/
inductive WrittenBack : B → List CacheFrame → B → Prop
  | nil (backing : B) : WrittenBack backing [] backing
  | cons {before middle after : B} {frame : CacheFrame} {rest : List CacheFrame}
      (hwrite : MemBacking.writePage frame.page frame.data before = (.ok (), middle))
      (hrest : WrittenBack middle rest after) : WrittenBack before (frame :: rest) after

/-- The dirty ones among the frames. -/
def dirtyOf (frames : List CacheFrame) : List CacheFrame := frames.filter (·.dirty)

/-- What the backing refused: the next dirty frame, or to sync after the last. -/
inductive Stopped (err : Error) (backing after : B) : List CacheFrame → Prop
  | write {frame : CacheFrame} {rest : List CacheFrame} (hdirty : frame.dirty = true)
      (hrefused : MemBacking.writePage frame.page frame.data backing = (.error err, after)) :
      Stopped err backing after (frame :: rest)
  | sync (hrefused : MemBacking.flush backing = (.error err, after)) : Stopped err backing after []

/-- The frames changed are the first ones, and nothing else but the backing and the
statistics. -/
structure Swept (first last : List CacheFrame) (c next : PageCache B) : Prop where
  frames : c.frames = first ++ last
  swept : next.frames = first.map CacheFrame.cleaned ++ last
  slotOf : next.slotOf = c.slotOf
  hand : next.hand = c.hand
  capacity : next.capacity = c.capacity

/-- **The loop of `flush`**, with the frames it has passed. -/
theorem flushFrames_sweeps (done left : List CacheFrame) {c : PageCache B}
    (hframes : c.frames = done.map CacheFrame.cleaned ++ left) :
    Exec.wp (flushFrames (List.range' done.length left.length))
      (fun _ next => WrittenBack c.backing (dirtyOf left) next.backing ∧
        next = { c with
          frames := (done ++ left).map CacheFrame.cleaned
          backing := next.backing
          stats := next.stats })
      (fun err next => ∃ first last middle, left = first ++ last ∧
        WrittenBack c.backing (dirtyOf first) middle ∧ last ≠ [] ∧
        Stopped err middle next.backing last ∧
        next = { c with
          frames := (done ++ first).map CacheFrame.cleaned ++ last
          backing := next.backing
          stats := next.stats }) False c := by
  induction left generalizing done c with
  | nil =>
      rw [List.length_nil, List.range'_zero, flushFrames, Exec.wp_pure]
      refine ⟨.nil _, ?_⟩
      rw [List.append_nil] at hframes ⊢
      rw [← hframes]
  | cons frame left ih =>
      have hframe : c.frames[done.length]? = some frame := by
        rw [hframes, List.getElem?_append_right (by simp), List.length_map, Nat.sub_self]
        rfl
      have hdone : (done ++ [frame]).length = done.length + 1 := by
        rw [List.length_append, List.length_singleton]
      have hassoc (rest : List CacheFrame) : done ++ [frame] ++ rest = done ++ frame :: rest := by
        rw [List.append_assoc, List.singleton_append]
      rw [List.length_cons, List.range'_succ, flushFrames, Exec.wp_bind, wp_frameAt hframe,
        Exec.wp_ite]
      split
      · rename_i hdirty
        rw [Exec.wp_bind, wp_onBacking, Exec.wp_bind, wp_propagate]
        rcases hwrite : MemBacking.writePage frame.page frame.data c.backing with
          ⟨result, backing⟩
        dsimp only
        constructor
        · intro _ hstored
          subst hstored
          have hkept : ({ c with backing := backing } : PageCache B).frames[done.length]? =
              some frame := hframe
          rw [Exec.wp_bind, wp_modifyFrame hkept, Exec.wp_bind, wp_count]
          have hcleaned : c.frames.set done.length { frame with dirty := false } =
              (done ++ [frame]).map CacheFrame.cleaned ++ left := by
            rw [hframes, List.set_append_right _ _ (by simp), List.length_map, Nat.sub_self]
            simp [CacheFrame.cleaned]
          have hrest := ih (done ++ [frame]) (c := { c with
            backing := backing
            frames := c.frames.set done.length { frame with dirty := false }
            stats := { c.stats with writebacks := c.stats.writebacks + 1 } }) hcleaned
          rw [hdone] at hrest
          apply hrest.imp
          · rintro _ next ⟨hwritten, hnext⟩
            refine ⟨?_, ?_⟩
            · rw [dirtyOf, List.filter_cons_of_pos hdirty]
              exact .cons hwrite hwritten
            · rw [hassoc] at hnext
              exact hnext
          · rintro err next ⟨first, last, middle, hleft, hwritten, hne, hstopped, hnext⟩
            refine ⟨frame :: first, last, middle, ?_, ?_, hne, hstopped, ?_⟩
            · rw [hleft, List.cons_append]
            · rw [dirtyOf, List.filter_cons_of_pos hdirty]
              exact .cons hwrite hwritten
            · rw [hassoc] at hnext
              exact hnext
          · exact fun hfalse => hfalse
        · intro err hrefused
          subst hrefused
          refine ⟨[], frame :: left, c.backing, rfl, .nil _, List.cons_ne_nil _ _,
            .write hdirty hwrite, ?_⟩
          rw [List.append_nil, ← hframes]
      · rename_i hdirty
        have hclean : CacheFrame.cleaned frame = frame :=
          CacheFrame.cleaned_of_clean (by simpa using hdirty)
        have hskipped : c.frames = (done ++ [frame]).map CacheFrame.cleaned ++ left := by
          rw [hframes, List.map_append, List.map_singleton, hclean, List.append_assoc,
            List.singleton_append]
        have hrest := ih (done ++ [frame]) hskipped
        rw [hdone] at hrest
        have hfilter (rest : List CacheFrame) : dirtyOf (frame :: rest) = dirtyOf rest :=
          List.filter_cons_of_neg hdirty
        apply hrest.imp
        · rintro _ next ⟨hwritten, hnext⟩
          rw [hassoc] at hnext
          rw [hfilter]
          exact ⟨hwritten, hnext⟩
        · rintro err next ⟨first, last, middle, hleft, hwritten, hne, hstopped, hnext⟩
          refine ⟨frame :: first, last, middle, ?_, ?_, hne, hstopped, ?_⟩
          · rw [hleft, List.cons_append]
          · rw [hfilter]
            exact hwritten
          · rw [hassoc] at hnext
            exact hnext
        · exact fun hfalse => hfalse

/-- **A flush writes the dirty frames in order**, all of them or up to a refusal. -/
theorem flush_sweeps (c : PageCache B) :
    Exec.wp flush
      (fun _ next => Swept c.frames [] c next ∧ ∃ middle,
        WrittenBack c.backing (dirtyOf c.frames) middle ∧
          MemBacking.flush middle = (.ok (), next.backing))
      (fun err next => ∃ first last middle, Swept first last c next ∧
        WrittenBack c.backing (dirtyOf first) middle ∧ Stopped err middle next.backing last)
      False c := by
  rw [flush, Exec.wp_bind, Exec.wp_read, Exec.wp_bind]
  have hloop := flushFrames_sweeps [] c.frames (c := c) rfl
  rw [List.length_nil, ← List.range_eq_range'] at hloop
  apply hloop.imp
  · rintro _ swept ⟨hwritten, hswept⟩
    rw [Exec.wp_bind, wp_onBacking, wp_propagate]
    rcases hsync : MemBacking.flush swept.backing with ⟨result, backing⟩
    dsimp only
    have hall : Swept c.frames [] c { swept with backing := backing } := by
      rw [hswept]
      exact ⟨(List.append_nil _).symm, (List.append_nil _).symm, rfl, rfl, rfl⟩
    constructor
    · intro _ hok
      subst hok
      exact ⟨hall, swept.backing, hwritten, hsync⟩
    · intro err hrefused
      subst hrefused
      exact ⟨c.frames, [], swept.backing, hall, hwritten, .sync hsync⟩
  · rintro err next ⟨first, last, middle, hframes, hwritten, -, hstopped, hnext⟩
    refine ⟨first, last, middle, ?_, hwritten, hstopped⟩
    rw [hnext]
    exact ⟨hframes, rfl, rfl, rfl, rfl⟩
  · exact fun hfalse => hfalse

end Writes

/-! ## The memory behind it -/

variable [FlatBacking B]

/-- Accepted writes of what an array of pages holds bring the backing's pages to it. -/
theorem WrittenBack.contents_eq {before after : B} {frames : List CacheFrame}
    (hwritten : WrittenBack before frames after) {view : BitVec 32 → Page}
    (hview : ∀ frame ∈ frames, frame.data = view frame.page) (page : BitVec 32) :
    contents after page =
      if page ∈ frames.map CacheFrame.page then view page else contents before page := by
  induction hwritten with
  | nil => simp
  | @cons before middle after frame rest hwrite _ ih =>
      have hstored := FlatBacking.writePage_ok frame.page frame.data before
        (congrArg Prod.fst hwrite)
      rw [hwrite] at hstored
      rw [ih fun other hother => hview other (List.mem_cons_of_mem _ hother), hstored]
      by_cases hpage : page = frame.page
      · subst hpage
        rw [Function.update_self, hview frame (List.mem_cons_self ..), ite_self, if_pos]
        exact List.mem_map_of_mem (List.mem_cons_self ..)
      · rw [Function.update_of_ne hpage]
        simp only [List.map_cons, List.mem_cons, hpage, false_or]

/-- A refusal may still have stored the page refused, and changes no other. -/
theorem Stopped.contents_eq {err : Error} {backing after : B} {last : List CacheFrame}
    (hstopped : Stopped err backing after last) {page : BitVec 32}
    (hpage : ∀ frame ∈ last, frame.dirty = true → frame.page ≠ page) :
    contents after page = contents backing page := by
  cases hstopped with
  | @write frame rest hdirty hrefused =>
      have hstored := FlatBacking.writePage_error frame.page frame.data backing err
        (congrArg Prod.fst hrefused)
      rw [hrefused] at hstored
      rcases hstored with hsame | hupdated
      · exact congrFun hsame page
      · have hne := hpage frame (List.mem_cons_self ..) hdirty
        exact (congrFun hupdated page).trans (Function.update_of_ne hne.symm ..)
  | sync hrefused =>
      have hsame := FlatBacking.contents_flush backing
      rw [hrefused] at hsame
      exact congrFun hsame page

namespace Swept

variable {first last : List CacheFrame} {c next : PageCache B}

omit [FlatBacking B]

theorem cleaned (hswept : Swept first last c next) :
    next.frames.map CacheFrame.cleaned = c.frames.map CacheFrame.cleaned := by
  rw [hswept.frames, hswept.swept, List.map_append, List.map_append, List.map_map]
  rfl

theorem length (hswept : Swept first last c next) : next.frames.length = c.frames.length := by
  have hlength := congrArg List.length hswept.cleaned
  rwa [List.length_map, List.length_map] at hlength

/-- A frame after the sweep was there before it, and the other way round. -/
theorem exists_frame_iff (hswept : Swept first last c next) {slot : ℕ} {page : BitVec 32}
    {data : Page} :
    (∃ frame : CacheFrame, next.frames[slot]? = some frame ∧ frame.page = page ∧
        frame.data = data) ↔
      ∃ frame : CacheFrame, c.frames[slot]? = some frame ∧ frame.page = page ∧
        frame.data = data := by
  have hslot := congrArg (·[slot]?) hswept.cleaned
  simp only [List.getElem?_map] at hslot
  cases hnext : next.frames[slot]? with
  | none =>
      rw [hnext] at hslot
      rw [Option.map_none, eq_comm, Option.map_eq_none_iff] at hslot
      rw [hslot]
  | some frame =>
      rw [hnext] at hslot
      obtain ⟨before, hbefore, hequal⟩ := Option.map_eq_some_iff.mp hslot.symm
      simp only [CacheFrame.cleaned, CacheFrame.mk.injEq] at hequal
      simp only [hbefore, Option.some.injEq, exists_eq_left', hequal]

end Swept

namespace WellFormed

/-- The statistics do not matter, and a backing with the same contents serves as
well. -/
theorem setStats {c : PageCache B} (hc : WellFormed c) (stats : Stats) :
    WellFormed { c with stats := stats } :=
  ⟨hc.indexed, hc.backed, hc.clean, hc.hand_lt, hc.length_le, hc.capacity_pos, hc.capacity_le⟩

theorem setBacking {c : PageCache B} (hc : WellFormed c) {backing : B}
    (hcontents : contents backing = contents c.backing) :
    WellFormed { c with backing := backing } where
  indexed := hc.indexed
  backed := hc.backed
  clean slot frame hframe hdirty := by
    rw [hcontents]
    exact hc.clean slot frame hframe hdirty
  hand_lt := hc.hand_lt
  length_le := hc.length_le
  capacity_pos := hc.capacity_pos
  capacity_le := hc.capacity_le

end WellFormed

/-- The frames hold pages that are all different. -/
theorem WellFormed.nodup {c : PageCache B} (hc : WellFormed c) :
    (c.frames.map CacheFrame.page).Nodup := by
  rw [List.nodup_iff_injective_getElem]
  intro slot other hpage
  have hslot := List.getElem?_eq_getElem (l := c.frames) (by simpa using slot.isLt)
  have hother := List.getElem?_eq_getElem (l := c.frames) (by simpa using other.isLt)
  simp only [List.getElem_map] at hpage
  exact Fin.ext (hc.slot_unique hother hslot hpage).1

namespace Swept

variable {first last : List CacheFrame} {c next : PageCache B}

/-- A sweep after which the clean frames are what the backing holds, and the backing
has only changed behind frames, leaves the same memory. -/
theorem wellFormed (hswept : Swept first last c next) (hc : WellFormed c)
    (hclean : ∀ (slot : ℕ) (frame : CacheFrame), next.frames[slot]? = some frame →
      frame.dirty = false → frame.data = contents next.backing frame.page)
    (habsent : ∀ page, c.residentSlot page = none →
      contents next.backing page = contents c.backing page) :
    WellFormed next ∧ next.pages = c.pages := by
  have hslots (page : BitVec 32) : next.residentSlot page = c.residentSlot page :=
    residentSlot_congr hswept.slotOf page
  have hbefore {slot : ℕ} {frame : CacheFrame} (hframe : next.frames[slot]? = some frame) :
      ∃ before : CacheFrame, c.frames[slot]? = some before ∧ before.page = frame.page ∧
        before.data = frame.data :=
    hswept.exists_frame_iff.mp ⟨frame, hframe, rfl, rfl⟩
  have hafter {slot : ℕ} {frame : CacheFrame} (hframe : c.frames[slot]? = some frame) :
      ∃ after : CacheFrame, next.frames[slot]? = some after ∧ after.page = frame.page ∧
        after.data = frame.data :=
    hswept.exists_frame_iff.mpr ⟨frame, hframe, rfl, rfl⟩
  have hwell : WellFormed next := by
    refine ⟨?_, ?_, hclean, ?_, ?_, ?_, ?_⟩
    · intro slot frame hframe
      obtain ⟨before, hfound, hpage, -⟩ := hbefore hframe
      rw [hslots, ← hpage]
      exact hc.indexed slot before hfound
    · intro page slot hslot
      rw [hslots] at hslot
      obtain ⟨before, hfound, hpage⟩ := hc.backed page slot hslot
      obtain ⟨after, hframe, hsame, -⟩ := hafter hfound
      exact ⟨after, hframe, hsame.trans hpage⟩
    · rw [hswept.hand, hswept.length]
      exact hc.hand_lt
    · rw [hswept.length, hswept.capacity]
      exact hc.length_le
    · rw [hswept.capacity]
      exact hc.capacity_pos
    · rw [hswept.capacity]
      exact hc.capacity_le
  refine ⟨hwell, ?_⟩
  funext page
  cases hslot : c.residentSlot page with
  | none =>
      rw [WellFormed.pages_of_absent hslot, WellFormed.pages_of_absent ((hslots page).trans hslot)]
      exact habsent page hslot
  | some slot =>
      obtain ⟨before, hfound, rfl⟩ := hc.backed page slot hslot
      obtain ⟨after, hframe, hpage, hdata⟩ := hafter hfound
      have hsame := hwell.pages_of_frame hframe
      rw [hpage] at hsame
      rw [hsame, hc.pages_of_frame hfound, hdata]

/-- **The writes of a sweep do not change the memory**, and the backing has got the
frames that were passed. -/
theorem of_writes (hswept : Swept first last c next) (hc : WellFormed c) {middle : B}
    (hwritten : WrittenBack c.backing (dirtyOf first) middle)
    (hlast : ∀ page, (∀ frame ∈ last, frame.dirty = true → frame.page ≠ page) →
      contents next.backing page = contents middle page) :
    WellFormed next ∧ next.pages = c.pages ∧
      ∀ frame ∈ first, contents next.backing frame.page = frame.data := by
  have hmem {frame : CacheFrame} (hframe : frame ∈ c.frames) : c.pages frame.page = frame.data := by
    obtain ⟨slot, hslot⟩ := List.mem_iff_getElem?.mp hframe
    exact hc.pages_of_frame hslot
  have hfirst {frame : CacheFrame} (hframe : frame ∈ first) : frame ∈ c.frames := by
    rw [hswept.frames]
    exact List.mem_append_left _ hframe
  have hview : ∀ frame ∈ dirtyOf first, frame.data = c.pages frame.page :=
    fun frame hframe => (hmem (hfirst (List.mem_of_mem_filter hframe))).symm
  have hmiddle := hwritten.contents_eq hview
  -- a frame that was clean, and one that was passed
  have hclean {frame : CacheFrame} (hframe : frame ∈ c.frames) (hdirty : frame.dirty = false) :
      contents middle frame.page = frame.data := by
    obtain ⟨slot, hslot⟩ := List.mem_iff_getElem?.mp hframe
    rw [hmiddle, hmem hframe, ← hc.clean slot frame hslot hdirty, ite_self]
  have hpassed {frame : CacheFrame} (hframe : frame ∈ first) :
      contents middle frame.page = frame.data := by
    cases hdirty : frame.dirty with
    | false => exact hclean (hfirst hframe) hdirty
    | true =>
        have hmem' : frame ∈ dirtyOf first := List.mem_filter.mpr ⟨hframe, hdirty⟩
        rw [hmiddle, if_pos (List.mem_map_of_mem hmem'), hmem (hfirst hframe)]
  have hnodup := hc.nodup
  rw [hswept.frames, List.map_append, List.nodup_append'] at hnodup
  obtain ⟨-, hinjective, hdisjoint⟩ := hnodup
  have hkept {frame : CacheFrame} (hframe : frame ∈ first) :
      contents next.backing frame.page = frame.data := by
    rw [hlast, hpassed hframe]
    intro other hother _ hpage
    exact hdisjoint (List.mem_map_of_mem hframe) (hpage ▸ List.mem_map_of_mem hother)
  have hleft {frame : CacheFrame} (hframe : frame ∈ last) (hdirty : frame.dirty = false) :
      contents next.backing frame.page = frame.data := by
    rw [hlast, hclean _ hdirty]
    · rw [hswept.frames]
      exact List.mem_append_right _ hframe
    · intro other hother hotherDirty hpage
      rw [List.inj_on_of_nodup_map hinjective hother hframe hpage, hdirty] at hotherDirty
      cases hotherDirty
  refine and_assoc.mp ⟨hswept.wellFormed hc ?_ ?_, fun frame hframe => hkept hframe⟩
  · intro slot frame hframe hdirty
    have hin := List.mem_of_getElem? hframe
    rw [hswept.swept, List.mem_append, List.mem_map] at hin
    rcases hin with ⟨before, hbefore, rfl⟩ | hin
    · exact (hkept hbefore).symm
    · exact (hleft hin hdirty).symm
  · intro page habsent
    have hnot {frame : CacheFrame} (hframe : frame ∈ c.frames) : frame.page ≠ page := by
      rintro rfl
      obtain ⟨slot, hslot⟩ := List.mem_iff_getElem?.mp hframe
      rw [hc.indexed slot frame hslot] at habsent
      cases habsent
    rw [hlast, hmiddle, if_neg]
    · intro hin
      obtain ⟨frame, hframe, hpage⟩ := List.mem_map.mp hin
      exact hnot (hfirst (List.mem_of_mem_filter hframe)) hpage
    · intro frame hframe _
      apply hnot
      rw [hswept.frames]
      exact List.mem_append_right _ hframe

end Swept

/-- **A flush of a cache that is right.** -/
theorem flush_exact {c : PageCache B} (hc : WellFormed c) :
    Exec.wp flush
      (fun _ next => (WellFormed next ∧ next.pages = c.pages) ∧
        (∀ frame ∈ next.frames, frame.dirty = false) ∧ contents next.backing = c.pages)
      (fun err next => (WellFormed next ∧ next.pages = c.pages) ∧
        ∃ first last middle, Swept first last c next ∧
          WrittenBack c.backing (dirtyOf first) middle ∧ Stopped err middle next.backing last ∧
          ∀ frame ∈ first, contents next.backing frame.page = frame.data) False c := by
  apply (flush_sweeps c).imp
  · rintro _ next ⟨hswept, middle, hwritten, hsync⟩
    have hsame := FlatBacking.contents_flush middle
    rw [hsync] at hsame
    obtain ⟨hwell, hpages, hstored⟩ :=
      hswept.of_writes hc hwritten fun page _ => congrFun hsame page
    have hclean : ∀ frame ∈ next.frames, frame.dirty = false := by
      intro frame hframe
      rw [hswept.swept, List.append_nil] at hframe
      obtain ⟨before, -, rfl⟩ := List.mem_map.mp hframe
      rfl
    refine ⟨⟨hwell, hpages⟩, hclean, ?_⟩
    rw [← hpages]
    funext page
    cases hslot : next.residentSlot page with
    | none => exact (WellFormed.pages_of_absent hslot).symm
    | some slot =>
        obtain ⟨frame, hframe, rfl⟩ := hwell.backed page slot hslot
        rw [hwell.pages_of_frame hframe]
        exact (hwell.clean slot frame hframe (hclean frame (List.mem_of_getElem? hframe))).symm
  · rintro err next ⟨first, last, middle, hswept, hwritten, hstopped⟩
    obtain ⟨hwell, hpages, hstored⟩ :=
      hswept.of_writes hc hwritten fun page hpage => hstopped.contents_eq hpage
    exact ⟨⟨hwell, hpages⟩, first, last, middle, hswept, hwritten, hstopped, hstored⟩
  · exact fun hfalse => hfalse

/-! ## Every state of a run -/

/-- With every frame pinned there is nothing to evict. -/
theorem evictable_of_all_pinned {c : PageCache B} (hframes : c.frames ≠ [])
    (hhand : c.hand < max 1 c.frames.length) (hcan : ¬ CanAdmit c) :
    Exec.wp evictable (fun _ _ => False) (fun _ _ => False) True c := by
  rw [evictable, Exec.wp_bind]
  apply (selectVictim_unpinned hframes hhand).imp
  · rintro victim next ⟨hages, frame, hframe, hpinned⟩
    obtain ⟨before, hbefore, -, -, hsame, -⟩ := hages.frame hframe
    exact absurd (.inr ⟨victim, before, hbefore, hsame.trans hpinned⟩) hcan
  · exact fun _ _ hfalse => hfalse
  · exact fun _ => trivial

theorem resident_wellFormed (page : BitVec 32) :
    Exec.Keeps (Exec.Preserving (WellFormed (B := B))) (resident page) := by
  intro c
  by_cases hwell : WellFormed c
  · by_cases hcan : CanAdmit c
    · exact (resident_spec hwell hcan page).imp (fun _ _ hnext _ => hnext.1.wellFormed)
        (fun _ _ hnext _ => hnext.1.wellFormed) fun hfalse => hfalse.elim
    · rw [resident, Exec.wp_bind, Exec.wp_read]
      cases hslot : c.residentSlot page with
      | some slot =>
          obtain ⟨frame, hframe, -⟩ := hwell.backed page slot hslot
          dsimp only
          rw [Exec.wp_bind, wp_modifyFrame hframe, Exec.wp_bind, wp_count, Exec.wp_pure]
          have hmarked := (Ages.setReferenced hframe hwell.hand_lt true).wellFormed hwell
          exact fun _ => hmarked.setStats _
      | none =>
          dsimp only
          rw [Exec.wp_ite]
          split
          · exact fun hc => hc
          · have hcontents := FlatBacking.contents_readPage page c.backing
            have hmissed := (hwell.setBacking hcontents).setStats
              { c.stats with misses := c.stats.misses + 1 }
            rw [Exec.wp_bind, wp_count, Exec.wp_bind, wp_onBacking, Exec.wp_bind, wp_propagate]
            refine ⟨?_, fun _ _ _ => hmissed⟩
            intro data _
            have hfull : ¬ c.frames.length < c.capacity := fun hroom => hcan (.inl hroom)
            have hne : c.frames ≠ [] := by
              intro hnil
              rw [hnil] at hfull
              exact hfull hwell.capacity_pos
            rw [Exec.wp_bind, Exec.wp_read, Exec.wp_ite, if_neg hfull, Exec.wp_bind]
            have hstuck := evictable_of_all_pinned (c := { c with
              backing := (MemBacking.readPage page c.backing).2
              stats := { c.stats with misses := c.stats.misses + 1 } }) hne hwell.hand_lt hcan
            apply hstuck.imp
            · exact fun _ _ hfalse => hfalse.elim
            · exact fun _ _ hfalse => hfalse.elim
            · exact fun _ => trivial
  · exact (Exec.wp_any _ c).imp (fun _ _ _ hc => absurd hc hwell)
      (fun _ _ _ hc => absurd hc hwell) fun h => h

theorem keptByParts_wellFormed : KeptByParts (Exec.Preserving (WellFormed (B := B))) where
  resident := resident_wellFormed
  store slot off bytes := by
    apply modifyFrame_keeps
    intro c frame hframe hc
    have hdirty : (frame.store off bytes).dirty = true := rfl
    have hstored := hc.modify hframe (frame.store off bytes) rfl fun hclean => by
      rw [hdirty] at hclean
      cases hclean
    exact hstored.1
  pin page := by
    apply Exec.Keeps.bind .read
    intro c
    cases c.residentSlot page with
    | none => exact .pure _
    | some slot =>
        apply modifyFrame_keeps
        intro c frame hframe hc
        exact (hc.modify hframe { frame with pinned := true } rfl (hc.clean slot frame hframe)).1
  flush := by
    intro c
    by_cases hc : WellFormed c
    · exact (flush_exact hc).imp (fun _ _ hnext _ => hnext.1.1) (fun _ _ hnext _ => hnext.1.1)
        fun hfalse => hfalse.elim
    · exact (Exec.wp_any _ c).imp (fun _ _ _ hwell => absurd hwell hc)
        (fun _ _ _ hwell => absurd hwell hc) fun h => h

/-- **A flush is exact on success and loses nothing on failure.**  In every state a
sequence of calls on a new cache can reach, over every backing that behaves as an
array of pages whose calls may fail: a flush keeps the memory and the invariant.  If
it succeeds, every frame is clean and the backing is that memory.  If it fails, the
frames up to the refusal are clean and the backing has accepted and holds what is in
them, and the others are as they were, dirty ones dirty. -/
theorem flush_loses_nothing (backing : B) (capacity : ℕ) (start : PageCache B)
    (hnew : PageCache.new backing capacity = some start) (ops : List Op) {replies : List Reply}
    {c : PageCache B} (hreached : performAll ops start = some (replies, c)) :
    ∃ result next, (flush.run c).reply = some (result, next) ∧
      WellFormed next ∧ next.pages = c.pages ∧
      (result = .ok ⟨⟩ →
        (∀ frame ∈ next.frames, frame.dirty = false) ∧ contents next.backing = c.pages) ∧
      ∀ err, result = .error err → ∃ first last middle,
        c.frames = first ++ last ∧ next.frames = first.map CacheFrame.cleaned ++ last ∧
        WrittenBack c.backing (dirtyOf first) middle ∧ Stopped err middle next.backing last ∧
        ∀ frame ∈ first, contents next.backing frame.page = frame.data := by
  have hc : WellFormed c := keptByParts_wellFormed.performAll hreached (holds_new hnew).wellFormed
  obtain ⟨result, next, hreply, hok, herror⟩ := (flush_exact hc).exists_reply
  refine ⟨result, next, hreply, ?_⟩
  cases result with
  | ok done =>
      obtain ⟨⟨hwell, hpages⟩, hclean, hcontents⟩ := hok done rfl
      exact ⟨hwell, hpages, fun _ => ⟨hclean, hcontents⟩, fun _ heq => nomatch heq⟩
  | error err =>
      obtain ⟨⟨hwell, hpages⟩, first, last, middle, hswept, hwritten, hstopped, hstored⟩ :=
        herror err rfl
      refine ⟨hwell, hpages, fun heq => (nomatch heq), ?_⟩
      intro err' heq
      cases heq
      exact ⟨first, last, middle, hswept.frames, hswept.swept, hwritten, hstopped, hstored⟩

/-- One dirty frame over a backing that refuses every write. -/
theorem flush_loses_nothing_refused :
    let start : PageCache WriteOnlyFails :=
      ⟨⟨fun _ _ => 0, 0⟩, [], fun _ => 0, 0, 1, ⟨0, 0, 0, 0, 0⟩⟩
    ∃ replies c result next, performAll [.writeBytes 0x80000000 [0xAB]] start = some (replies, c) ∧
      (flush.run c).reply = some (result, next) ∧ next.pages = c.pages := by
  intro start
  have hnew : PageCache.new (⟨fun _ _ => 0, 0⟩ : WriteOnlyFails) 1 = some start := by
    rw [PageCache.new, if_pos ⟨le_rfl, by decide⟩]
  have hpins := neverPinsAll_of_no_pin [.writeBytes 0x80000000 [0xAB]] (holds_new hnew) (by simp)
  obtain ⟨replies, c, after, hperform, -⟩ := performAll_refines _ (holds_new hnew) hpins
  obtain ⟨result, next, hreply, -, hpages, -⟩ := flush_loses_nothing _ 1 start hnew _ hperform
  exact ⟨replies, c, result, next, hperform, hreply, hpages⟩

end Baonix.Core.PageCache

import Baonix.Core.CacheTrace
import Baonix.Core.SizedAccess

/-!
# The methods of the page cache as traces

Whatever the backing does, and however a method ends, it has made a trace of
changes.  What every change keeps therefore holds after any sequence of calls.
-/

namespace Baonix.Core

open Baonix.LittleEndian Baonix.Proto

namespace PageCache

variable {B : Type}

/-! ## Counters -/

/-- The statistics are untouched. -/
def SameStats (c next : PageCache B) : Prop := next.stats = c.stats

instance : IsPreorder (PageCache B) SameStats where
  refl _ := rfl
  trans _ _ _ hleft hright := Eq.trans hright hleft

theorem frameAt_keeps {related : PageCache B → PageCache B → Prop}
    [IsPreorder (PageCache B) related] (slot : ℕ) : Exec.Keeps related (frameAt slot) := by
  apply Exec.Keeps.bind .read
  intro c
  cases c.frames[slot]? with
  | none => exact fun _ => trivial
  | some frame => exact .pure frame

theorem modifyFrame_keeps {related : PageCache B → PageCache B → Prop} (slot : ℕ)
    {change : CacheFrame → CacheFrame}
    (hchange : ∀ (c : PageCache B) (frame : CacheFrame), c.frames[slot]? = some frame →
      related c { c with frames := c.frames.set slot (change frame) }) :
    Exec.Keeps related (modifyFrame slot change) := by
  intro c
  cases hframe : c.frames[slot]? with
  | none => simp [modifyFrame, frameAt, hframe]
  | some frame =>
      rw [wp_modifyFrame hframe]
      exact hchange c frame hframe

theorem propagate_keeps {related : PageCache B → PageCache B → Prop}
    [IsPreorder (PageCache B) related] {Value : Type} (result : Except Error Value) :
    Exec.Keeps related (propagate result) := by
  cases result with
  | ok value => exact .pure value
  | error err => exact .raise err

/-! ## Searching for a victim -/

/-- A relation that a search keeps: it moves the hand and marks frames. -/
structure KeptBySearch (related : PageCache B → PageCache B → Prop) : Prop where
  hand : ∀ (c : PageCache B) hand, related c { c with hand := hand }
  mark : ∀ (c : PageCache B) slot frame, related c { c with frames := c.frames.set slot frame }

namespace KeptBySearch

variable {related : PageCache B → PageCache B → Prop} [IsPreorder (PageCache B) related]

theorem sweep (hsearch : KeptBySearch related) (turns : ℕ) :
    Exec.Keeps related (sweep turns) := by
  induction turns with
  | zero => exact .pure none
  | succ turns ih =>
      apply Exec.Keeps.bind .read
      intro c
      apply Exec.Keeps.bind (.update fun c => hsearch.hand c _)
      intro _
      apply Exec.Keeps.bind (frameAt_keeps _)
      intro frame
      apply Exec.Keeps.ite ih
      apply Exec.Keeps.ite
      · exact .bind (modifyFrame_keeps _ fun _ _ _ => hsearch.mark _ _ _) fun _ => ih
      · exact .pure _

theorem selectVictim (hsearch : KeptBySearch related) : Exec.Keeps related selectVictim := by
  apply Exec.Keeps.bind .read
  intro c
  apply Exec.Keeps.bind (hsearch.sweep _)
  intro found
  cases found with
  | some slot => exact .pure slot
  | none =>
      apply Exec.Keeps.bind .read
      intro c
      cases c.frames.findIdx? (! ·.pinned) with
      | some slot => exact .pure slot
      | none => exact fun _ => trivial

theorem searchClean (hsearch : KeptBySearch related) (distances : List ℕ) (hot : Option ℕ) :
    Exec.Keeps related (searchClean distances hot) := by
  induction distances generalizing hot with
  | nil =>
      cases hot with
      | none => exact .pure none
      | some slot =>
          apply Exec.Keeps.bind .read
          intro c
          exact .bind (.update fun c => hsearch.hand c _) fun _ => .pure _
  | cons distance distances ih =>
      apply Exec.Keeps.bind .read
      intro c
      apply Exec.Keeps.bind (frameAt_keeps _)
      intro frame
      apply Exec.Keeps.ite (ih hot)
      apply Exec.Keeps.ite
      · exact .bind (.update fun c => hsearch.hand c _) fun _ => .pure _
      · exact ih _

theorem selectCleanVictim (hsearch : KeptBySearch related) :
    Exec.Keeps related selectCleanVictim :=
  .bind .read fun _ => hsearch.searchClean _ none

end KeptBySearch

theorem sameStats_search : KeptBySearch (@SameStats B) := ⟨fun _ _ => rfl, fun _ _ _ => rfl⟩

theorem Counted.of_stats {c next : PageCache B} (hstats : next.stats = c.stats) :
    Counted 0 0 c next :=
  ⟨congrArg Stats.misses hstats, congrArg Stats.evictions hstats⟩

theorem Counted.trans {c middle next : PageCache B} {misses evictions misses' evictions' : ℕ}
    (hleft : Counted misses evictions c middle) (hright : Counted misses' evictions' middle next) :
    Counted (misses + misses') (evictions + evictions') c next :=
  ⟨by rw [hright.misses, hleft.misses, Nat.add_assoc],
    by rw [hright.evictions, hleft.evictions, Nat.add_assoc]⟩

/-! ## Tending -/

theorem Tended.refl {c : PageCache B} (hhand : c.hand < max 1 c.frames.length) : Tended c c where
  slotOf := rfl
  capacity := rfl
  length := rfl
  hand_lt := hhand
  frame _ frame hframe := ⟨frame, hframe, rfl, rfl, rfl, id⟩

theorem Tended.trans {c middle next : PageCache B} (hleft : Tended c middle)
    (hright : Tended middle next) : Tended c next where
  slotOf := hright.slotOf.trans hleft.slotOf
  capacity := hright.capacity.trans hleft.capacity
  length := hright.length.trans hleft.length
  hand_lt := hright.hand_lt
  frame slot frame hframe := by
    obtain ⟨between, hbetween, hpage, hdirty, hdata, hpinned⟩ := hleft.frame slot frame hframe
    obtain ⟨after, hafter, hpage', hdirty', hdata', hpinned'⟩ := hright.frame slot between hbetween
    exact ⟨after, hafter, hpage'.trans hpage, hdirty'.trans hdirty, hdata'.trans hdata,
      hpinned' ∘ hpinned⟩

/-- The backing and the statistics are not part of the frame table. -/
theorem Tended.apart {c next : PageCache B} (htended : Tended c next) (backing : B)
    (stats : Stats) : Tended c { next with backing := backing, stats := stats } :=
  ⟨htended.slotOf, htended.capacity, htended.length, htended.hand_lt, htended.frame⟩

theorem Ages.tended {c next : PageCache B} (hages : Ages c next) : Tended c next where
  slotOf := hages.slotOf
  capacity := hages.capacity
  length := hages.length
  hand_lt := hages.hand_lt
  frame slot frame hframe := by
    obtain ⟨after, hafter, hpage, hdirty, hpinned, hdata⟩ := hages.frame_after hframe
    exact ⟨after, hafter, hpage, hdirty, hdata, fun hpin => hpinned.trans hpin⟩

/-- Marking a frame without touching its page, its data or its dirty bit. -/
theorem Tended.set {c : PageCache B} (hhand : c.hand < max 1 c.frames.length) {slot : ℕ}
    {frame changed : CacheFrame} (hframe : c.frames[slot]? = some frame)
    (hpage : changed.page = frame.page) (hdirty : changed.dirty = frame.dirty)
    (hdata : changed.data = frame.data) (hpinned : frame.pinned = true → changed.pinned = true) :
    Tended c { c with frames := c.frames.set slot changed } where
  slotOf := rfl
  capacity := rfl
  length := List.length_set
  hand_lt := by simpa using hhand
  frame other found hfound := by
    by_cases hother : slot = other
    · subst hother
      rw [hframe, Option.some.injEq] at hfound
      subst hfound
      have hlt := (List.getElem?_eq_some_iff.mp hframe).1
      exact ⟨changed, List.getElem?_set_self hlt, hpage, hdirty, hdata, hpinned⟩
    · exact ⟨found, by rwa [List.getElem?_set_ne hother], rfl, rfl, rfl, id⟩

/-! ## Evolution -/

variable [MemBacking B]

/-- The changes from a frame table that is right. -/
def Evolves (c next : PageCache B) : Prop := Represented c → ∃ failed, Trace c failed next

theorem Trace.trans {start middle final : PageCache B} {failed failed' : ℕ}
    (hleft : Trace start failed middle) (hright : Trace middle failed' final) :
    Trace start (failed + failed') final := by
  induction hright with
  | refl => exact hleft
  | tend _ htended hcounted ih => exact ih.tend htended hcounted
  | store _ hframe off bytes ih => exact ih.store hframe off bytes
  | clean _ hframe hsaved hmisses hevictions ih => exact ih.clean hframe hsaved hmisses hevictions
  | fill _ hfilled hcounted ih => exact ih.fill hfilled hcounted
  | replace _ hreplaced hcounted ih => exact ih.replace hreplaced hcounted
  | fail _ htended hrefused hcounted ih => exact ih.fail htended hrefused hcounted

instance : IsPreorder (PageCache B) Evolves where
  refl _ _ := ⟨0, .refl⟩
  trans _ _ _ hleft hright hstart := by
    obtain ⟨failed, htrace⟩ := hleft hstart
    obtain ⟨failed', htrace'⟩ := hright (htrace.represented hstart)
    exact ⟨failed + failed', htrace.trans htrace'⟩

theorem Evolves.tend {c next : PageCache B} (htended : Represented c → Tended c next)
    (hcounted : Counted 0 0 c next) : Evolves c next :=
  fun hc => ⟨0, Trace.refl.tend (htended hc) hcounted⟩

/-- The victim of an eviction: not pinned, and if it is dirty then the backing has
just accepted it. -/
theorem evictable_tended {c : PageCache B} (hc : Represented c) (hframes : c.frames ≠ []) :
    Exec.wp evictable
      (fun victim next => Tended c next ∧ Counted 0 0 c next ∧ ∃ frame : CacheFrame,
        next.frames[victim]? = some frame ∧ frame.pinned = false ∧
          (frame.dirty = true → Saved frame next.backing))
      (fun _ next => Tended c next ∧ Counted 0 0 c next ∧ Refused c next.backing) True c := by
  rw [evictable, Exec.wp_bind]
  apply ((selectVictim_unpinned hframes hc.hand_lt).and (sameStats_search.selectVictim c)).imp
  · rintro victim aged ⟨⟨hages, chosen, hchosen, hpinned⟩, hstats⟩
    have hcounted : Counted 0 0 c aged := .of_stats hstats
    rw [Exec.wp_bind, wp_frameAt hchosen, Exec.wp_ite]
    split
    · rename_i hdirty
      rw [Exec.wp_bind, wp_onBacking]
      rcases hwrite : MemBacking.writePage chosen.page chosen.data aged.backing with
        ⟨result, backing⟩
      dsimp only
      cases result with
      | ok _ =>
          rw [Exec.wp_bind, wp_count, Exec.wp_pure]
          exact ⟨hages.tended.apart _ _, ⟨hcounted.misses, hcounted.evictions⟩, chosen, hchosen,
            hpinned, fun _ => ⟨_, hwrite⟩⟩
      | error err =>
          have hrefused : Refused c backing := by
            obtain ⟨before, hbefore, hpage, hsame, -, hdata⟩ := hages.frame hchosen
            rw [← hpage, ← hdata] at hwrite
            exact .writeback hbefore (hsame.trans hdirty) hwrite
          have hne : ({ aged with backing := backing } : PageCache B).frames ≠ [] := by
            intro hnil
            have hnone : aged.frames = [] := hnil
            rw [hnone] at hchosen
            cases hchosen
          rw [Exec.wp_bind]
          apply ((selectCleanVictim_spec hne hages.hand_lt).and
            (sameStats_search.selectCleanVictim _)).imp
          · rintro found next ⟨⟨hagain, hfound⟩, hsame⟩
            have htended : Tended c next :=
              (hages.tended.apart backing aged.stats).trans hagain.tended
            have hcounted : Counted 0 0 c next := .of_stats (Eq.trans hsame hstats)
            cases found with
            | none =>
                rw [Exec.wp_raise, hagain.backing]
                exact ⟨htended, hcounted, hrefused⟩
            | some clean =>
                obtain ⟨spare, hspare, hfree, hclean⟩ := hfound clean rfl
                rw [Exec.wp_bind, wp_count, Exec.wp_pure]
                refine ⟨htended.apart _ _, ⟨hcounted.misses, hcounted.evictions⟩, spare, hspare,
                  hfree, ?_⟩
                rw [hclean]
                intro hfalse
                cases hfalse
          · exact fun _ _ hfalse => hfalse.1.elim
          · exact fun _ => trivial
    · rename_i hdirty
      rw [Exec.wp_pure]
      exact ⟨hages.tended, hcounted, chosen, hchosen, hpinned, fun h => absurd h hdirty⟩
  · exact fun _ _ hfalse => hfalse.1.elim
  · exact fun _ => trivial

/-- It is enough to follow the computation from a frame table that is right. -/
theorem keeps_evolves {Value : Type} {program : CacheM B Value}
    (htraces : ∀ c, Represented c → Exec.wp program (fun _ next => ∃ failed, Trace c failed next)
      (fun _ next => ∃ failed, Trace c failed next) True c) :
    Exec.Keeps Evolves program := by
  intro c
  by_cases hc : Represented c
  · exact (htraces c hc).imp (fun _ _ hnext _ => hnext) (fun _ _ hnext _ => hnext) fun h => h
  · exact (Exec.wp_any program c).imp (fun _ _ _ hright => absurd hright hc)
      (fun _ _ _ hright => absurd hright hc) fun h => h

/-- **Each path of `resident` is a trace**: a hit, a failed read, a first fill, an
eviction, an eviction of a clean frame instead, a refused writeback. -/
theorem resident_evolves (page : BitVec 32) : Exec.Keeps (Evolves (B := B)) (resident page) := by
  apply keeps_evolves
  intro c hc
  rw [resident, Exec.wp_bind, Exec.wp_read]
  cases hslot : c.residentSlot page with
  | some slot =>
      obtain ⟨frame, hframe, -⟩ := (hc.agree page slot).mp hslot
      dsimp only
      rw [Exec.wp_bind, wp_modifyFrame hframe, Exec.wp_bind, wp_count, Exec.wp_pure]
      have hmarked : Tended c { c with
          frames := c.frames.set slot { frame with referenced := true } } :=
        Tended.set hc.hand_lt hframe rfl rfl rfl id
      exact ⟨0, Trace.refl.tend (hmarked.apart c.backing _) ⟨rfl, rfl⟩⟩
  | none =>
      dsimp only
      rw [Exec.wp_ite]
      split
      · rw [Exec.wp_raise]
        exact ⟨0, .refl⟩
      · rename_i hrange
        rw [Exec.wp_bind, wp_count, Exec.wp_bind, wp_onBacking, Exec.wp_bind, wp_propagate]
        rcases hread : MemBacking.readPage page c.backing with ⟨result, backing⟩
        dsimp only
        have htended : Tended c { c with
            backing := backing
            stats := { c.stats with misses := c.stats.misses + 1 } } :=
          (Tended.refl hc.hand_lt).apart backing _
        constructor
        · intro data _
          rw [Exec.wp_bind, Exec.wp_read, Exec.wp_ite]
          split
          · rename_i hroom
            rw [Exec.wp_bind, Exec.wp_update, Exec.wp_pure]
            refine ⟨0, Trace.refl.fill (?_ : Filled page c _) ⟨rfl, rfl⟩⟩
            exact ⟨hroom, hslot, not_le.mp hrange, ⟨data, rfl⟩, rfl, rfl, rfl⟩
          · rename_i hfull
            generalize hmissed : ({ c with
              backing := backing
              stats := { c.stats with misses := c.stats.misses + 1 } } : PageCache B) = missed
              at htended hfull
            have hrepresented := htended.represented hc
            have hcounted : Counted 1 0 c missed := by
              rw [← hmissed]
              exact ⟨rfl, rfl⟩
            have hframes : missed.frames ≠ [] := by
              intro hnil
              have hpos := hrepresented.capacity_pos
              rw [hnil] at hfull
              exact hfull hpos
            rw [Exec.wp_bind]
            apply (evictable_tended hrepresented hframes).imp
            · rintro victim next ⟨haged, hsame, outgoing, hvictim, hpinned, hsaved⟩
              rw [Exec.wp_bind, wp_count, Exec.wp_bind]
              have hframe : ({ next with
                  stats := { next.stats with evictions := next.stats.evictions + 1 } } :
                  PageCache B).frames[victim]? = some outgoing := hvictim
              rw [wp_frameAt hframe, Exec.wp_bind, Exec.wp_update, Exec.wp_pure]
              have htotal := htended.trans haged
              have habsent : next.residentSlot page = none := by
                rw [← hslot]
                exact residentSlot_congr htotal.slotOf page
              -- the table before the replacement, with the counters from before the miss
              have hbefore : Trace c 0 { next with stats := c.stats } :=
                Trace.refl.tend (htotal.apart next.backing c.stats) ⟨rfl, rfl⟩
              refine ⟨0, hbefore.replace (?_ : Replaced page victim outgoing _ _) ?_⟩
              · exact ⟨habsent, not_le.mp hrange, hvictim, hpinned, hsaved, ⟨data, rfl⟩, rfl, rfl,
                  rfl⟩
              · have hboth := hcounted.trans hsame
                exact ⟨hboth.misses, congrArg (· + 1) hboth.evictions⟩
            · rintro err next ⟨haged, hsame, hrefused⟩
              have hboth : Counted 1 0 c next := hcounted.trans hsame
              have hrefused' : Refused c next.backing := by
                cases hrefused with
                | read hread => exact .read hread
                | writeback hframe hdirty hwrite =>
                    rw [← hmissed] at hframe
                    exact .writeback hframe hdirty hwrite
              exact ⟨1, Trace.refl.fail (htended.trans haged) hrefused' hboth⟩
            · exact fun _ => trivial
        · intro err hrefused
          subst hrefused
          exact ⟨1, Trace.refl.fail htended (.read hread) ⟨rfl, rfl⟩⟩

theorem store_evolves (slot off : ℕ) (bytes : List Byte) :
    Exec.Keeps (Evolves (B := B)) (modifyFrame slot (CacheFrame.store · off bytes)) :=
  modifyFrame_keeps slot fun _ _ hframe _ => ⟨0, Trace.refl.store hframe off bytes⟩

theorem pin_evolves (page : BitVec 32) : Exec.Keeps (Evolves (B := B)) (pin page) := by
  apply Exec.Keeps.bind .read
  intro c
  cases c.residentSlot page with
  | none => exact .pure _
  | some slot =>
      apply modifyFrame_keeps
      intro c frame hframe
      exact .tend (fun hc => .set hc.hand_lt hframe rfl rfl rfl fun _ => rfl) ⟨rfl, rfl⟩

/-- A writeback of `flush`: the dirty bit goes once the backing has the page. -/
theorem flushFrames_evolves (slots : List ℕ) :
    Exec.Keeps (Evolves (B := B)) (flushFrames slots) := by
  induction slots with
  | nil => exact .pure _
  | cons slot slots ih =>
      intro c
      rw [flushFrames, Exec.wp_bind]
      cases hframe : c.frames[slot]? with
      | none => simp [frameAt, hframe]
      | some frame =>
          rw [wp_frameAt hframe, Exec.wp_ite]
          split
          · rw [Exec.wp_bind, wp_onBacking, Exec.wp_bind, wp_propagate]
            rcases hwrite : MemBacking.writePage frame.page frame.data c.backing with
              ⟨result, backing⟩
            dsimp only
            constructor
            · intro _ hstored
              subst hstored
              have hkept : ({ c with backing := backing } : PageCache B).frames[slot]? =
                  some frame := hframe
              rw [Exec.wp_bind, wp_modifyFrame hkept, Exec.wp_bind, wp_count]
              exact ih.wp_from fun _ =>
                ⟨0, Trace.refl.clean hframe ⟨c.backing, hwrite⟩ rfl rfl⟩
            · intro err _
              exact .tend (fun hc => (Tended.refl hc.hand_lt).apart backing c.stats) ⟨rfl, rfl⟩
          · exact ih c

theorem flush_evolves : Exec.Keeps (Evolves (B := B)) flush := by
  apply Exec.Keeps.bind .read
  intro c
  apply Exec.Keeps.bind (flushFrames_evolves _)
  intro _
  apply Exec.Keeps.bind
  · intro c
    rw [wp_onBacking]
    exact .tend (fun hc => (Tended.refl hc.hand_lt).apart _ c.stats) ⟨rfl, rfl⟩
  · exact propagate_keeps

end PageCache

/-! ## Calls and sequences of calls -/

open PageCache

section Calls

variable {B : Type} [MemBacking B]

/-- A relation that the parts calls are made of keep. -/
structure KeptByParts (related : PageCache B → PageCache B → Prop) : Prop where
  resident : ∀ page, Exec.Keeps related (resident page)
  store : ∀ slot off bytes, Exec.Keeps related (modifyFrame slot (CacheFrame.store · off bytes))
  pin : ∀ page, Exec.Keeps related (pin page)
  flush : Exec.Keeps related flush

namespace KeptByParts

variable {related : PageCache B → PageCache B → Prop} [IsPreorder (PageCache B) related]

theorem readBytes (hparts : KeptByParts related) (gpa len : ℕ) :
    Exec.Keeps related (readBytes gpa len) := by
  apply Exec.Keeps.bind (propagate_keeps _)
  intro _
  induction chunks gpa len with
  | nil => exact .pure []
  | cons turn turns ih =>
      apply Exec.Keeps.bind (hparts.resident _)
      intro slot
      apply Exec.Keeps.bind (frameAt_keeps slot)
      intro frame
      exact .bind ih fun _ => .pure _

theorem writeBytes (hparts : KeptByParts related) (gpa : ℕ) (bytes : List Byte) :
    Exec.Keeps related (writeBytes gpa bytes) := by
  apply Exec.Keeps.bind (propagate_keeps _)
  intro _
  induction chunks gpa bytes.length generalizing bytes with
  | nil => exact .pure _
  | cons turn turns ih =>
      apply Exec.Keeps.bind (hparts.resident _)
      intro slot
      exact .bind (hparts.store slot _ _) fun _ => ih _

/-- **A call keeps what its parts keep**, -/
theorem program (hparts : KeptByParts related) (op : Op) : Exec.Keeps related op.program := by
  cases op with
  | readBytes gpa len => exact (hparts.readBytes _ _).map _
  | writeBytes gpa bytes => exact (hparts.writeBytes _ _).map _
  | readLe N gpa =>
      rw [Op.program, readLe_eq]
      exact ((hparts.readBytes _ _).map _).map _
  | writeLe N gpa value =>
      rw [Op.program, writeLe_eq]
      exact (hparts.writeBytes _ _).map _
  | pin page => exact (hparts.pin page).map _
  | flush => exact hparts.flush.map _

theorem perform (hparts : KeptByParts related) {op : Op} {c next : PageCache B} {reply : Reply}
    (hperform : op.perform c = some (reply, next)) : related c next := by
  have hcall := hparts.program op c
  rw [Op.perform] at hperform
  cases hrun : op.program.run c with
  | ok value after =>
      rw [hrun] at hperform
      cases hperform
      exact hcall.of_run_ok hrun
  | error err after =>
      rw [hrun] at hperform
      cases hperform
      exact hcall.of_run_error hrun
  | panic =>
      rw [hrun] at hperform
      cases hperform

/-- and so does a sequence of calls. -/
theorem performAll (hparts : KeptByParts related) {ops : List Op} {c final : PageCache B}
    {replies : List Reply} (hperform : performAll ops c = some (replies, final)) :
    related c final := by
  induction ops generalizing c replies with
  | nil =>
      cases hperform
      exact refl_of related final
  | cons op ops ih =>
      rw [Core.performAll] at hperform
      cases hfirst : op.perform c with
      | none =>
          rw [hfirst] at hperform
          cases hperform
      | some result =>
          obtain ⟨reply, middle⟩ := result
          rw [hfirst] at hperform
          obtain ⟨rest, hrest, hboth⟩ := Option.map_eq_some_iff.mp hperform
          cases hboth
          exact trans_of related (hparts.perform hfirst) (ih hrest)

end KeptByParts

end Calls

/-! ## The representation invariant of runs -/

variable {B : Type} [MemBacking B]

/-- **Every call is a trace**, whether it returns a value or an error. -/
theorem performAll_evolves {ops : List Op} {c final : PageCache B} {replies : List Reply}
    (hperform : performAll ops c = some (replies, final)) : Evolves c final :=
  KeptByParts.performAll ⟨resident_evolves, store_evolves, pin_evolves, flush_evolves⟩ hperform

omit [MemBacking B] in
theorem represented_new {backing : B} {capacity : ℕ} {c : PageCache B}
    (hnew : PageCache.new backing capacity = some c) :
    Represented c ∧ c.frames = [] ∧ c.stats = ⟨0, 0, 0, 0, 0⟩ ∧ c.capacity = capacity := by
  rw [PageCache.new] at hnew
  split at hnew
  · rename_i hcapacity
    rw [Option.some.injEq] at hnew
    subst hnew
    refine ⟨⟨?_, by simp, by simp, hcapacity.1, hcapacity.2⟩, rfl, rfl, rfl⟩
    intro page slot
    simp [PageCache.residentSlot]
  · cases hnew

end Baonix.Core

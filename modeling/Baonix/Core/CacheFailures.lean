import Baonix.Core.CacheRuns
import Baonix.Lib.Endings

/-!
# The accesses of the cache that fail

A miss fills a frame, replaces one, or fails.  The counters and the frames in use
therefore tell how many accesses have failed, whatever state the cache is in and
whatever its backing does.
-/

namespace Baonix.Core

open Baonix.LittleEndian Baonix.Proto

namespace PageCache

variable {B : Type}

/-- The misses that neither filled a frame nor replaced one. -/
def failures (c : PageCache B) : ℤ := c.stats.misses - c.stats.evictions - c.frames.length

/-- As many misses, evictions and frames as before. -/
structure Steady (c next : PageCache B) : Prop where
  misses : next.stats.misses = c.stats.misses
  evictions : next.stats.evictions = c.stats.evictions
  length : next.frames.length = c.frames.length

instance : IsPreorder (PageCache B) Steady where
  refl _ := ⟨rfl, rfl, rfl⟩
  trans _ _ _ hleft hright :=
    ⟨hright.misses.trans hleft.misses, hright.evictions.trans hleft.evictions,
      hright.length.trans hleft.length⟩

theorem Steady.failures {c next : PageCache B} (hsteady : Steady c next) :
    next.failures = c.failures := by
  rw [PageCache.failures, PageCache.failures, hsteady.misses, hsteady.evictions, hsteady.length]

theorem steady_search : KeptBySearch (@Steady B) where
  hand _ _ := ⟨rfl, rfl, rfl⟩
  mark _ _ _ := ⟨rfl, rfl, List.length_set⟩

/-- One more for each call that fails, and none for the others. -/
def counted : Endings Error (PageCache B) where
  success c next := next.failures = c.failures
  failure _ c next := next.failures = c.failures + 1
  refl _ := rfl
  trans hleft hright := hright.trans hleft
  fails hleft hright := by rw [hright, hleft]

theorem frameAt_counted (slot : ℕ) : counted.Of (frameAt slot : CacheM B CacheFrame) := by
  apply Endings.Of.read
  intro c
  cases c.frames[slot]? with
  | none => exact .panic
  | some frame => exact .pure frame

theorem modifyFrame_counted (slot : ℕ) (change : CacheFrame → CacheFrame) :
    counted.Of (modifyFrame slot change : CacheM B PUnit) :=
  .bind (frameAt_counted slot) fun _ => .update fun _ => Steady.failures ⟨rfl, rfl, List.length_set⟩

variable [MemBacking B]

/-- Finding a frame to evict leaves the balance alone, whether it succeeds or not. -/
theorem evictable_steady : Exec.Keeps Steady (evictable : CacheM B ℕ) := by
  have hcount (change : Stats → Stats) (hmisses : ∀ stats, (change stats).misses = stats.misses)
      (hevictions : ∀ stats, (change stats).evictions = stats.evictions) :
      Exec.Keeps Steady (count change : CacheM B PUnit) :=
    .update fun _ => ⟨hmisses _, hevictions _, rfl⟩
  apply Exec.Keeps.bind steady_search.selectVictim
  intro victim
  apply Exec.Keeps.bind (frameAt_keeps _)
  intro frame
  apply Exec.Keeps.ite _ (.pure _)
  have hbacking : Exec.Keeps Steady
      (onBacking (MemBacking.writePage frame.page frame.data) : CacheM B _) :=
    fun _ => ⟨rfl, rfl, rfl⟩
  apply Exec.Keeps.bind hbacking
  intro result
  cases result with
  | ok _ => exact .bind (hcount _ (fun _ => rfl) fun _ => rfl) fun _ => .pure _
  | error err =>
      apply Exec.Keeps.bind steady_search.selectCleanVictim
      intro found
      cases found with
      | some clean => exact .bind (hcount _ (fun _ => rfl) fun _ => rfl) fun _ => .pure _
      | none => exact .raise _

/-- **A miss that fails is counted**, and nothing else is. -/
theorem resident_counted {page : BitVec 32} (hpage : page.toNat < ramPages) :
    counted.Of (resident page : CacheM B ℕ) := by
  intro c
  rw [resident, Exec.wp_bind, Exec.wp_read]
  cases c.residentSlot page with
  | some slot =>
      have hhit : counted.Of (do
          modifyFrame slot fun frame => { frame with referenced := true }
          count fun stats => { stats with hits := stats.hits + 1 }
          pure slot : CacheM B ℕ) :=
        .bind (modifyFrame_counted _ _) fun _ =>
          .bind (.update fun _ => Steady.failures ⟨rfl, rfl, rfl⟩) fun _ => .pure _
      exact hhit c
  | none =>
      dsimp only
      rw [if_neg (not_le.mpr hpage), Exec.wp_bind, wp_count, Exec.wp_bind, wp_onBacking,
        Exec.wp_bind, wp_propagate]
      dsimp only
      rcases MemBacking.readPage page c.backing with ⟨result, backing⟩
      generalize hmissed : ({ c with
        backing := backing
        stats := { c.stats with misses := c.stats.misses + 1 } } : PageCache B) = missed
      have hmiss : missed.failures = c.failures + 1 := by
        rw [← hmissed, failures, failures]
        push_cast
        ring
      constructor
      · intro data _
        rw [Exec.wp_bind, Exec.wp_read, Exec.wp_ite]
        split
        · rw [Exec.wp_bind, Exec.wp_update, Exec.wp_pure]
          simp only [counted, failures, setResident, List.length_append,
            List.length_singleton] at hmiss ⊢
          push_cast
          omega
        · rw [Exec.wp_bind]
          apply (evictable_steady missed).imp
          · intro victim next hsteady
            have hnext := hsteady.failures.trans hmiss
            rw [Exec.wp_bind, wp_count, Exec.wp_bind]
            generalize hevicted : ({ next with
              stats := { next.stats with evictions := next.stats.evictions + 1 } } :
              PageCache B) = evicted
            have hevict : evicted.failures = c.failures := by
              rw [← hevicted, failures]
              rw [failures] at hnext
              push_cast
              omega
            cases hframe : evicted.frames[victim]? with
            | none => simp [frameAt, hframe]
            | some outgoing =>
                rw [wp_frameAt hframe, Exec.wp_bind, Exec.wp_update, Exec.wp_pure]
                have hreplaced : Steady evicted (setResident { evicted.clearResident outgoing.page with
                    frames := evicted.frames.set victim ⟨page, false, true, false, data⟩ } page
                      victim) :=
                  ⟨rfl, rfl, List.length_set⟩
                exact hreplaced.failures.trans hevict
          · exact fun _ _ hsteady => hsteady.failures.trans hmiss
          · exact fun _ => trivial
      · exact fun _ _ => hmiss

/-! ## Accesses of RAM -/

/-- The pages of an access of RAM are pages of RAM. -/
theorem pageOf_chunks {addr left : ℕ} (hram : InRam addr left) {turn : ℕ × ℕ}
    (hturn : turn ∈ chunks addr left) : (pageOf turn.1).toNat < ramPages := by
  fun_induction chunks addr left with
  | case1 => cases hturn
  | case2 addr left hleft ih =>
      have hlength := chunkLength_le addr left
      have hpos := chunkLength_pos addr hleft
      rcases List.mem_cons.mp hturn with rfl | hrest
      · exact pageOf_lt (Nat.pos_of_ne_zero hleft) hram
      · rw [InRam] at hram
        exact ih ⟨by omega, by omega⟩ hrest

omit [MemBacking B] in
theorem propagate_checkRange {gpa len : ℕ} (hram : InRam gpa len) :
    (propagate (checkRange gpa len) : CacheM B Unit) = pure () := by
  rw [checkRange_ok.mpr hram]
  rfl

theorem readBytes_counted {gpa len : ℕ} (hram : InRam gpa len) :
    counted.Of (readBytes gpa len : CacheM B (List Byte)) := by
  have hturns (turns : List (ℕ × ℕ)) (hpages : ∀ turn ∈ turns, (pageOf turn.1).toNat < ramPages) :
      counted.Of (readChunks turns : CacheM B (List Byte)) := by
    induction turns with
    | nil => exact .pure _
    | cons turn turns ih =>
        rw [List.forall_mem_cons] at hpages
        exact .bind (resident_counted hpages.1) fun _ => .bind (frameAt_counted _) fun _ =>
          .bind (ih hpages.2) fun _ => .pure _
  rw [readBytes, propagate_checkRange hram, pure_bind]
  exact hturns _ fun _ => pageOf_chunks hram

theorem writeBytes_counted {gpa : ℕ} {bytes : List Byte} (hram : InRam gpa bytes.length) :
    counted.Of (writeBytes gpa bytes : CacheM B PUnit) := by
  have hturns (turns : List (ℕ × ℕ)) (bytes : List Byte)
      (hpages : ∀ turn ∈ turns, (pageOf turn.1).toNat < ramPages) :
      counted.Of (writeChunks turns bytes : CacheM B PUnit) := by
    induction turns generalizing bytes with
    | nil => exact .pure _
    | cons turn turns ih =>
        rw [List.forall_mem_cons] at hpages
        exact .bind (resident_counted hpages.1) fun _ => .bind (modifyFrame_counted _ _) fun _ =>
          ih _ hpages.2
  rw [writeBytes, propagate_checkRange hram, pure_bind]
  exact hturns _ _ fun _ => pageOf_chunks hram

end PageCache

/-- A call the bus makes: a sized access of RAM. -/
def Op.OfBus : Op → Prop
  | .readLe N gpa => InRam gpa.toNat N
  | .writeLe N gpa _ => InRam gpa.toNat N
  | _ => False

open PageCache

variable {B : Type} [MemBacking B]

theorem Op.counted {op : Op} (hop : op.OfBus) : counted.Of (op.program : CacheM B Reply) := by
  cases op with
  | readLe N gpa =>
      rw [Op.program, readLe_eq]
      exact .map (.map (readBytes_counted hop) _) _
  | writeLe N gpa value =>
      have hram : InRam gpa.toNat (leBytes N value).length := by
        rw [length_leBytes]
        exact hop
      rw [Op.program, writeLe_eq]
      exact .map (writeBytes_counted hram) _
  | _ => exact hop.elim

/-- The reply tells the caller of a failure. -/
def Reply.isFailed : Reply → Bool
  | .failed _ => true
  | _ => false

/-- A call that returns a value does not report a failure. -/
theorem Op.answers (op : Op) (c : PageCache B) :
    Exec.wp op.program (fun reply _ => reply.isFailed = false) (fun _ _ => True) True c := by
  cases op <;>
    (rw [Op.program, Exec.wp_map]
     exact (Exec.wp_any _ c).imp (fun _ _ _ => rfl) (fun _ _ _ => trivial) (fun _ => trivial))

/-- What the counters say of a call. -/
theorem perform_failures {op : Op} (hop : op.OfBus) {c next : PageCache B} {reply : Reply}
    (hperform : op.perform c = some (reply, next)) :
    next.failures = c.failures + if reply.isFailed then 1 else 0 := by
  have hcounted := op.counted hop c
  rw [Op.perform] at hperform
  cases hrun : op.program.run c with
  | ok value after =>
      rw [hrun] at hperform
      cases hperform
      rw [(op.answers c).of_run_ok hrun]
      exact (hcounted.of_run_ok hrun).trans (add_zero _).symm
  | error err after =>
      rw [hrun] at hperform
      cases hperform
      exact hcounted.of_run_error hrun
  | panic =>
      rw [hrun] at hperform
      cases hperform

/-- **The counters tell how many calls failed.** -/
theorem performAll_failures {ops : List Op} (hops : ∀ op ∈ ops, op.OfBus) {c final : PageCache B}
    {replies : List Reply} (hperform : performAll ops c = some (replies, final)) :
    final.failures = c.failures + (replies.countP Reply.isFailed : ℕ) := by
  induction ops generalizing c replies with
  | nil =>
      cases hperform
      simp
  | cons op ops ih =>
      rw [List.forall_mem_cons] at hops
      rw [performAll] at hperform
      cases hfirst : op.perform c with
      | none =>
          rw [hfirst] at hperform
          cases hperform
      | some result =>
          obtain ⟨reply, next⟩ := result
          rw [hfirst] at hperform
          dsimp only at hperform
          obtain ⟨⟨rest, last⟩, hrest, heq⟩ := Option.map_eq_some_iff.mp hperform
          cases heq
          rw [ih hops.2 hrest, perform_failures hops.1 hfirst, List.countP_cons]
          push_cast
          ring

end Baonix.Core

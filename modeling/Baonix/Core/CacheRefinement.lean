import Baonix.Core.CacheAccess

/-!
# The page cache refines a flat memory

A caller makes any sequence of calls over a backing that may refuse any of
them.  What it is told is what a flat memory would have told it, in which every
write that succeeded was applied whole and every write that failed was applied
as far as the page that failed.
-/

namespace Baonix.Core

open Baonix.LittleEndian Baonix.Proto
open FlatBacking (contents)
open PageCache (Width Holds StoredUpTo leBytes WellFormed)

/-- A call on the cache. -/
inductive Op
  | readBytes (gpa : BitVec 64) (len : ℕ)
  | writeBytes (gpa : BitVec 64) (bytes : List Byte)
  | readLe (N : Width) (gpa : BitVec 64)
  | writeLe (N : Width) (gpa : BitVec 64) (value : BitVec 64)
  | pin (page : BitVec 32)
  | flush
  deriving DecidableEq

/-- What a call returns. -/
inductive Reply
  | bytes (bytes : List Byte)
  | word (value : BitVec 64)
  | done
  | failed (err : Error)
  deriving DecidableEq

variable {B : Type}

section

variable [MemBacking B]

def Op.program : Op → CacheM B Reply
  | .readBytes gpa len => .bytes <$> PageCache.readBytes gpa.toNat len
  | .writeBytes gpa bytes => (fun _ => .done) <$> PageCache.writeBytes gpa.toNat bytes
  | .readLe N gpa => .word <$> PageCache.readLe N gpa.toNat
  | .writeLe N gpa value => (fun _ => .done) <$> PageCache.writeLe N gpa.toNat value
  | .pin page => (fun _ => .done) <$> PageCache.pin page
  | .flush => (fun _ => .done) <$> PageCache.flush

/-- A call as its caller sees it; `none` is a panic. -/
def Op.perform (op : Op) (c : PageCache B) : Option (Reply × PageCache B) :=
  match op.program.run c with
  | .ok reply next => some (reply, next)
  | .error err next => some (.failed err, next)
  | .panic => none

/-- A sequence of calls. -/
def performAll : List Op → PageCache B → Option (List Reply × PageCache B)
  | [], c => some ([], c)
  | op :: ops, c =>
      match op.perform c with
      | none => none
      | some (reply, next) =>
          (performAll ops next).map fun rest => (reply :: rest.1, rest.2)

/-- Every frame the cache may have is in use and pinned. -/
def AllPinned (c : PageCache B) : Prop :=
  c.frames.length = c.capacity ∧ ∀ frame ∈ c.frames, frame.pinned = true

/-- No call of the sequence leaves every frame pinned. -/
def NeverPinsAll : List Op → PageCache B → Prop
  | [], _ => True
  | op :: ops, c => ∀ reply next, op.perform c = some (reply, next) →
      ¬ AllPinned next ∧ NeverPinsAll ops next

end

/-- What a call does to a flat memory, given what it returned. -/
inductive FlatStep : Op → Reply → Memory → Memory → Prop
  | readBytes (gpa len m) :
      FlatStep (.readBytes gpa len) (.bytes (m.read gpa.toNat len)) m m
  | readBytesFailed (gpa len err m) : FlatStep (.readBytes gpa len) (.failed err) m m
  | writeBytes (gpa bytes m) :
      FlatStep (.writeBytes gpa bytes) .done m (m.write gpa.toNat bytes)
  | writeBytesFailed (gpa bytes err m after) (hstored : StoredUpTo m gpa.toNat bytes after) :
      FlatStep (.writeBytes gpa bytes) (.failed err) m after
  | readLe (N gpa m) :
      FlatStep (.readLe N gpa) (.word (BitVec.ofNat 64 (ofBytes (m.read gpa.toNat N)))) m m
  | readLeFailed (N gpa err m) : FlatStep (.readLe N gpa) (.failed err) m m
  | writeLe (N gpa value m) :
      FlatStep (.writeLe N gpa value) .done m (m.write gpa.toNat (leBytes N value))
  | writeLeFailed (N gpa value err m after)
      (hstored : StoredUpTo m gpa.toNat (leBytes N value) after) :
      FlatStep (.writeLe N gpa value) (.failed err) m after
  | pin (page m) : FlatStep (.pin page) .done m m
  | flush (m) : FlatStep .flush .done m m
  | flushFailed (err m) : FlatStep .flush (.failed err) m m

/-- A sequence of calls on a flat memory. -/
inductive FlatRun : List Op → List Reply → Memory → Memory → Prop
  | nil (m : Memory) : FlatRun [] [] m m
  | cons {op reply ops replies} {m middle after : Memory}
      (hstep : FlatStep op reply m middle) (hrest : FlatRun ops replies middle after) :
      FlatRun (op :: ops) (reply :: replies) m after

variable [FlatBacking B]

/-- The cache a call leaves: only a pin can leave nothing to evict. -/
structure Leaves (op : Op) (after : Memory) (next : PageCache B) : Prop where
  wellFormed : WellFormed next
  memory : next.memory = after
  canAdmit : (∀ page, op ≠ .pin page) → next.CanAdmit

theorem Leaves.of_holds {op : Op} {after : Memory} {next : PageCache B}
    (hnext : Holds after next) : Leaves op after next :=
  ⟨hnext.wellFormed, hnext.memory, fun _ => hnext.canAdmit⟩

/-- **One call refines one step of the flat memory**, and does not panic. -/
theorem perform_refines (op : Op) {c : PageCache B} {m : Memory} (hc : Holds m c) :
    ∃ reply next after, op.perform c = some (reply, next) ∧ FlatStep op reply m after ∧
      Leaves op after next := by
  -- a specification of the call's program is what is wanted of the call
  have hcall (hwp : Exec.wp op.program
      (fun reply next => ∃ after, FlatStep op reply m after ∧ Leaves op after next)
      (fun err next => ∃ after, FlatStep op (.failed err) m after ∧ Leaves op after next)
      False c) :
      ∃ reply next after, op.perform c = some (reply, next) ∧ FlatStep op reply m after ∧
        Leaves op after next := by
    rw [Op.perform]
    cases hrun : op.program.run c with
    | ok reply next =>
        obtain ⟨after, hafter⟩ := hwp.of_run_ok hrun
        exact ⟨reply, next, after, rfl, hafter⟩
    | error err next =>
        obtain ⟨after, hafter⟩ := hwp.of_run_error hrun
        exact ⟨.failed err, next, after, rfl, hafter⟩
    | panic => exact (hwp.of_run_panic hrun).elim
  apply hcall
  cases op with
  | readBytes gpa len =>
      rw [Op.program, Exec.wp_map]
      apply (PageCache.readBytes_spec gpa.toNat len hc).imp
      · rintro bytes next ⟨hnext, rfl⟩
        exact ⟨m, .readBytes .., .of_holds hnext⟩
      · exact fun err next hnext => ⟨m, .readBytesFailed .., .of_holds hnext.1⟩
      · exact fun hfalse => hfalse
  | writeBytes gpa bytes =>
      rw [Op.program, Exec.wp_map]
      apply (PageCache.writeBytes_spec gpa.toNat bytes hc).imp
      · exact fun _ next hnext => ⟨_, .writeBytes .., .of_holds hnext⟩
      · rintro err next ⟨⟨after, hstored, hnext⟩, -⟩
        exact ⟨after, .writeBytesFailed _ _ _ _ _ hstored, .of_holds hnext⟩
      · exact fun hfalse => hfalse
  | readLe N gpa =>
      rw [Op.program, Exec.wp_map]
      apply (PageCache.readLe_spec N gpa.toNat hc).imp
      · rintro value next ⟨hnext, rfl⟩
        exact ⟨m, .readLe .., .of_holds hnext⟩
      · exact fun err next hnext => ⟨m, .readLeFailed .., .of_holds hnext.1⟩
      · exact fun hfalse => hfalse
  | writeLe N gpa value =>
      rw [Op.program, Exec.wp_map]
      apply (PageCache.writeLe_spec N gpa.toNat value hc).imp
      · exact fun _ next hnext => ⟨_, .writeLe .., .of_holds hnext⟩
      · rintro err next ⟨⟨after, hstored, hnext⟩, -⟩
        exact ⟨after, .writeLeFailed _ _ _ _ _ _ hstored, .of_holds hnext⟩
      · exact fun hfalse => hfalse
  | pin page =>
      rw [Op.program, Exec.wp_map]
      apply (PageCache.pin_spec page hc.wellFormed).imp
      · intro _ next hnext
        exact ⟨m, .pin .., hnext.1, hnext.2.trans hc.memory, fun hop => absurd rfl (hop page)⟩
      · exact fun _ _ hfalse => hfalse.elim
      · exact fun hfalse => hfalse
  | flush =>
      rw [Op.program, Exec.wp_map]
      apply (PageCache.flush_spec hc).imp
      · exact fun _ next hnext => ⟨m, .flush .., .of_holds hnext⟩
      · exact fun err next hnext => ⟨m, .flushFailed .., .of_holds hnext⟩
      · exact fun hfalse => hfalse

theorem canAdmit_of_not_allPinned {c : PageCache B} (hc : WellFormed c)
    (hpinned : ¬ AllPinned c) : c.CanAdmit := by
  by_cases hroom : c.frames.length < c.capacity
  · exact .inl hroom
  · right
    by_contra hnone
    apply hpinned
    refine ⟨le_antisymm hc.length_le (not_lt.mp hroom), ?_⟩
    intro frame hframe
    obtain ⟨slot, hslot⟩ := List.mem_iff_getElem?.mp hframe
    by_contra hfree
    exact hnone ⟨slot, frame, hslot, by simpa using hfree⟩

/-- A whole sequence of calls refines a run of the flat memory. -/
theorem performAll_refines (ops : List Op) {c : PageCache B} {m : Memory} (hc : Holds m c)
    (hpins : NeverPinsAll ops c) :
    ∃ replies final after, performAll ops c = some (replies, final) ∧
      FlatRun ops replies m after ∧ final.memory = after := by
  induction ops generalizing c m with
  | nil => exact ⟨[], c, m, rfl, .nil m, hc.memory⟩
  | cons op ops ih =>
      obtain ⟨reply, next, middle, hperform, hstep, hwell, hmiddle, -⟩ := perform_refines op hc
      obtain ⟨hpinned, hrest⟩ := hpins reply next hperform
      have hholds : Holds middle next :=
        ⟨hwell, canAdmit_of_not_allPinned hwell hpinned, hmiddle⟩
      obtain ⟨replies, final, after, hall, hrun, hfinal⟩ := ih hholds hrest
      refine ⟨reply :: replies, final, after, ?_, .cons hstep hrun, hfinal⟩
      rw [performAll, hperform]
      dsimp only
      rw [hall]
      rfl

/-- A caller that does not pin leaves a frame to evict. -/
theorem neverPinsAll_of_no_pin (ops : List Op) {c : PageCache B} {m : Memory} (hc : Holds m c)
    (hops : ∀ op ∈ ops, ∀ page, op ≠ .pin page) : NeverPinsAll ops c := by
  induction ops generalizing c m with
  | nil => trivial
  | cons op ops ih =>
      intro reply next hperform
      obtain ⟨_, _, after, hagain, -, hleaves⟩ := perform_refines op hc
      rw [hperform, Option.some.injEq, Prod.mk.injEq] at hagain
      obtain ⟨rfl, rfl⟩ := hagain
      have hcan := hleaves.canAdmit (hops op (List.mem_cons_self ..))
      constructor
      · rintro ⟨hfull, hpinned⟩
        rcases hcan with hroom | ⟨slot, frame, hframe, hfree⟩
        · exact hroom.ne hfull
        · have hframePinned := hpinned frame (List.mem_of_getElem? hframe)
          rw [hfree] at hframePinned
          cases hframePinned
      · apply ih ⟨hleaves.wellFormed, hcan, hleaves.memory⟩
        exact fun other hother => hops other (List.mem_cons_of_mem _ hother)

theorem holds_new {backing : B} {capacity : ℕ} {c : PageCache B}
    (hnew : PageCache.new backing capacity = some c) : Holds (flat (contents backing)) c := by
  rw [PageCache.new] at hnew
  split at hnew
  · rename_i hcapacity
    rw [Option.some.injEq] at hnew
    subst hnew
    have habsent (page : BitVec 32) : PageCache.residentSlot
        ⟨backing, [], fun _ => 0, 0, capacity, ⟨0, 0, 0, 0, 0⟩⟩ page = none := by
      simp [PageCache.residentSlot]
    refine ⟨⟨by simp, ?_, by simp, by simp, by simp, hcapacity.1, hcapacity.2⟩, .inl ?_, ?_⟩
    · intro page slot hslot
      rw [habsent] at hslot
      cases hslot
    · exact hcapacity.1
    · rw [PageCache.memory]
      congr 1
      funext page
      exact WellFormed.pages_of_absent (habsent page)
  · cases hnew

/-- **The page cache refines a flat memory under any backing failures.**  From a
new cache of any capacity the assertions of `new` accept, over any backing that
behaves as a flat array of pages whose calls may fail at any time, any sequence
of calls that never pins every frame runs without a panic and returns what the
flat memory of the backing's contents returns. -/
theorem cache_refines_flat (backing : B) (capacity : ℕ) (c : PageCache B)
    (hnew : PageCache.new backing capacity = some c) (ops : List Op)
    (hpins : NeverPinsAll ops c) :
    ∃ replies final after, performAll ops c = some (replies, final) ∧
      FlatRun ops replies (flat (contents backing)) after ∧ final.memory = after :=
  performAll_refines ops (holds_new hnew) hpins

/-- A backing that reads fine and cannot write. -/
structure WriteOnlyFails where
  contents : BitVec 32 → Page
  writesAttempted : ℕ

instance : FlatBacking WriteOnlyFails where
  readPage page backing := (.ok (backing.contents page), backing)
  writePage _ _ backing :=
    (.error .medium, { backing with writesAttempted := backing.writesAttempted + 1 })
  flush backing := (.error .medium, backing)
  contents := WriteOnlyFails.contents
  contents_readPage _ _ := rfl
  readPage_ok _ _ _ hok := (Except.ok.inj hok).symm
  writePage_ok _ _ _ hok := by cases hok
  writePage_error _ _ _ _ _ := .inl rfl
  contents_flush _ := rfl

/-- One frame, dirtied, over a backing that refuses the writeback: the miss fails
and the byte is still there. -/
theorem cache_refines_flat_refused_writeback :
    let backing : WriteOnlyFails := ⟨fun _ _ => 0, 0⟩
    let ops := [Op.writeBytes 0x80000000 [0xAB], .readBytes 0x80001000 1,
      .readBytes 0x80000000 1]
    ∃ replies final after,
      performAll ops (⟨backing, [], fun _ => 0, 0, 1, ⟨0, 0, 0, 0, 0⟩⟩ : PageCache _) =
        some (replies, final) ∧
      FlatRun ops replies (flat backing.contents) after ∧ final.memory = after := by
  intro backing ops
  have hnew : PageCache.new backing 1 =
      some ⟨backing, [], fun _ => 0, 0, 1, ⟨0, 0, 0, 0, 0⟩⟩ := by
    rw [PageCache.new, if_pos ⟨le_rfl, by decide⟩]
  apply cache_refines_flat backing 1 _ hnew ops
  apply neverPinsAll_of_no_pin ops (holds_new hnew)
  simp [ops]

end Baonix.Core

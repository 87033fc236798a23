import Baonix.Core.CacheFailures
import Baonix.Core.Composition
import Baonix.Core.PageWalk
import Baonix.Core.Precise

/-!
# Failures of the backing

Four layers hand an error of the page cache up: the bus, the walk, the fetch and the
step.  Each of them rewrites other errors and leaves this one alone, so that a step tells
its caller of it, and of nothing else.
-/

namespace Baonix.Core

/-- Where a call of the bus goes. -/
def Op.At (addr : BitVec 64) : Op → Prop
  | .readLe _ gpa => gpa = addr
  | .writeLe _ gpa _ => gpa = addr
  | _ => False

/-- The address of a failure that is not the guest's. -/
def Exception.medium : Exception → Option (BitVec 64)
  | .backingFailure addr => some addr
  | _ => none

namespace PageCache

variable {B : Type} [MemBacking B]

/-- A call of the bus that succeeds. -/
def Serves (c next : PageCache B) : Prop :=
  ∃ (op : Op) (reply : Reply), op.OfBus ∧ op.perform c = some (reply, next) ∧ reply.isFailed = false

/-- Calls of the bus, all of which succeed. -/
def AllServed : PageCache B → PageCache B → Prop := Relation.ReflTransGen Serves

/-- Calls of the bus, of which the last fails, at the address. -/
def FailsAt (addr : BitVec 64) (c next : PageCache B) : Prop :=
  ∃ (middle : PageCache B) (op : Op) (err : Error), AllServed c middle ∧ op.OfBus ∧ op.At addr ∧
    op.perform middle = some (.failed err, next)

theorem AllServed.failures {c next : PageCache B} (hserved : AllServed c next) :
    next.failures = c.failures := by
  induction hserved with
  | refl => rfl
  | tail _ hserves ih =>
      obtain ⟨op, reply, hop, hperform, hreply⟩ := hserves
      rw [perform_failures hop hperform, hreply, ih]
      exact add_zero _

theorem FailsAt.failures {addr : BitVec 64} {c next : PageCache B} (hfails : FailsAt addr c next) :
    next.failures = c.failures + 1 := by
  obtain ⟨middle, op, err, hserved, hop, -, hperform⟩ := hfails
  rw [perform_failures hop hperform, hserved.failures]
  rfl

/-- What the caller is told of: nothing, or the call that failed. -/
def Reported : Option (BitVec 64) → PageCache B → PageCache B → Prop
  | none => AllServed
  | some addr => FailsAt addr

/-- The cache has failed a call just in case an error says so. -/
def reporting {State : Type} (cache : State → PageCache B) : Endings Exception State where
  success start after := AllServed (cache start) (cache after)
  failure err start after := Reported err.medium (cache start) (cache after)
  refl _ := .refl
  trans := Relation.ReflTransGen.trans
  fails := by
    intro err start middle after hmiddle hafter
    cases hmedium : err.medium with
    | none =>
        rw [hmedium] at hafter
        exact hmiddle.trans hafter
    | some addr =>
        rw [hmedium] at hafter
        obtain ⟨last, op, failed, hserved, hop⟩ := hafter
        exact ⟨last, op, failed, hmiddle.trans hserved, hop⟩

end PageCache

open PageCache

section Reports

variable {B S : Type} [MemBacking B]

/-- Errors that are the guest's say nothing of the cache. -/
theorem raise_reported {State Value : Type} {cache : State → PageCache B} {err : Exception}
    (herr : err.medium = none) :
    (reporting cache).Of (Exec.raise err : Exec Exception State Value) := by
  refine .raise fun state => ?_
  change Reported err.medium (cache state) (cache state)
  rw [herr]
  exact .refl

/-- A part of the state, whose errors are handed up. -/
theorem zoom_reported {State Part Value : Type} {cache : State → PageCache B}
    {partCache : Part → PageCache B} {part : State → Part} {put : State → Part → State}
    {errOf : Exception → Exception} {program : Exec Exception Part Value}
    (hprogram : (reporting partCache).Of program)
    (hpart : ∀ state, partCache (part state) = cache state)
    (hput : ∀ state after, cache (put state after) = partCache after)
    (herr : ∀ err, (errOf err).medium = err.medium) :
    (reporting cache).Of (Exec.zoom part put errOf program) := by
  refine .zoom hprogram (fun state after hafter => ?_) fun err state after hafter => ?_
  · change AllServed (cache state) (cache (put state after))
    rw [hput, ← hpart]
    exact hafter
  · change Reported (errOf err).medium (cache state) (cache (put state after))
    rw [herr, hput, ← hpart]
    exact hafter

/-! ## The bus -/

namespace Bus

/-- A call of the cache is reported at its address. -/
theorem onCache_reported {Value : Type} {program : CacheM B Value} {op : Op} (hop : op.OfBus)
    {addr : BitVec 64} (haddr : op.At addr) {answer : Value → Reply}
    (hprogram : op.program = answer <$> program)
    (hanswer : ∀ value, (answer value).isFailed = false) :
    (reporting Bus.cache).Of (onCache addr program : Exec Exception (Bus B S) Value) := by
  intro bus
  rw [onCache, Exec.wp_zoom]
  rw [Exec.wp]
  cases hrun : program bus.cache with
  | ok value next =>
      have hreply : op.program.run bus.cache = .ok (answer value) next := by
        rw [hprogram]
        exact Exec.run_bind_ok hrun
      have hperform : op.perform bus.cache = some (answer value, next) := by
        rw [Op.perform, hreply]
      exact Relation.ReflTransGen.single ⟨op, _, hop, hperform, hanswer value⟩
  | error err next =>
      have hreply : op.program.run bus.cache = .error err next := by
        rw [hprogram]
        exact Exec.run_bind_error.mpr (.inl hrun)
      have hperform : op.perform bus.cache = some (.failed err, next) := by
        rw [Op.perform, hreply]
      exact ⟨bus.cache, op, err, .refl, hop, haddr, hperform⟩
  | panic => trivial

theorem load_reported (addr : BitVec 64) (size : ℕ) :
    (reporting Bus.cache).Of (load addr size : Exec Exception (Bus B S) (BitVec 64)) := by
  unfold load
  cases hwidth : widthOf size with
  | none => exact raise_reported rfl
  | some width =>
      dsimp only
      split
      · next hram =>
          have hop : (Op.readLe width addr).OfBus := by
            rw [inRam_iff, ← eq_of_widthOf hwidth] at hram
            exact hram
          exact onCache_reported hop rfl rfl fun _ => rfl
      · refine .ite (.read fun _ => .pure _) (.ite (fun _ => ?_) (raise_reported rfl))
        exact .refl

variable [ConsoleSink S]

theorem store_reported (addr : BitVec 64) (size : ℕ) (value : BitVec 64) :
    (reporting Bus.cache).Of (store addr size value : Exec Exception (Bus B S) PUnit) := by
  unfold store
  cases hwidth : widthOf size with
  | none => exact raise_reported rfl
  | some width =>
      dsimp only
      split
      · next hram =>
          have hop : (Op.writeLe width addr value).OfBus := by
            rw [inRam_iff, ← eq_of_widthOf hwidth] at hram
            exact hram
          exact onCache_reported hop rfl rfl fun _ => rfl
      · refine .ite (.update fun _ => .refl) (.ite (.update fun _ => .refl) (raise_reported rfl))

end Bus

/-! ## The walk -/

namespace Mmu

theorem walkError_medium (access : Access) (vaddr : BitVec 64) (err : Exception) :
    (walkError access vaddr err).medium = err.medium := by
  cases err with
  | backingFailure addr => rfl
  | _ => cases access <;> rfl

theorem fault_medium (access : Access) (vaddr : BitVec 64) :
    (fault access vaddr).medium = none := by
  cases access <;> rfl

theorem checkPerms_reported (pte : BitVec 64) (priv : Priv) (access : Access) (vaddr : BitVec 64) :
    (reporting fun system : MemSystem B S => system.bus.cache).Of
      (Exec.ofExcept (checkPerms pte priv access vaddr)) := by
  unfold checkPerms
  split
  · exact raise_reported (fault_medium access vaddr)
  split
  · exact raise_reported (fault_medium access vaddr)
  split
  · exact raise_reported (fault_medium access vaddr)
  · exact .pure _

theorem walk_reported (priv : Priv) (access : Access) (vaddr : BitVec 64) (levels : List Level)
    (table : BitVec 64) :
    (reporting fun system : MemSystem B S => system.bus.cache).Of
      (walk priv access vaddr levels table) := by
  induction levels generalizing table with
  | nil => exact raise_reported (fault_medium access vaddr)
  | cons level levels ih =>
      have hload (addr : BitVec 64) : (reporting fun system : MemSystem B S => system.bus.cache).Of
          (loadPte access vaddr addr) :=
        zoom_reported (Bus.load_reported addr 8) (fun _ => rfl) (fun _ _ => rfl)
          (walkError_medium access vaddr)
      refine .bind (hload _) fun pte => ?_
      refine .ite (raise_reported (fault_medium access vaddr)) (.ite ?_ (ih _))
      refine .bind (checkPerms_reported pte priv access vaddr) fun _ => ?_
      refine .ite (raise_reported (fault_medium access vaddr)) ?_
      exact .bind (.update fun _ => .refl) fun _ => .pure _

theorem translate_reported (csrs : Csrs) (priv : Priv) (vaddr : BitVec 64) (access : Access) :
    (reporting fun system : MemSystem B S => system.bus.cache).Of
      (translate csrs priv vaddr access) := by
  refine .ite (.pure _) (.read fun system => .ite ?_ ?_)
  · exact .bind (checkPerms_reported _ priv access vaddr) fun _ => .pure _
  · exact .bind (.update fun _ => .refl) fun _ => walk_reported priv access vaddr _ _

end Mmu

/-! ## The step -/

namespace Machine

theorem fetchError_medium (pc : BitVec 64) (err : Exception) :
    (fetchError pc err).medium = err.medium := by
  cases err <;> rfl

variable [ConsoleSink S]

theorem compositional_reported : Compositional fun Value (program : MachineM B S Value) =>
    (reporting fun m : Machine B S => m.bus.cache).Of program where
  pure value := .pure value
  bind hprogram hnext := .bind hprogram hnext
  illegal _ := raise_reported rfl
  read _ hnext := .read hnext
  onCpu _ := .update fun _ => .refl
  translate vaddr access := .read fun _ => .bind (.update fun _ => .refl) fun _ =>
    zoom_reported (Mmu.translate_reported _ _ vaddr access) (fun _ => rfl) (fun _ _ => rfl)
      fun _ => rfl
  busLoad _ addr size := .bind (.update fun _ => .refl) fun _ =>
    zoom_reported (Bus.load_reported addr size) (fun _ => rfl) (fun _ _ => rfl) fun _ => rfl
  busStore addr size value := .bind (.update fun _ => .refl) fun _ =>
    zoom_reported (Bus.store_reported addr size value) (fun _ => rfl) (fun _ _ => rfl) fun _ => rfl
  fetch _ hread := .read fun m =>
    zoom_reported (hread m.cpu.pc) (fun _ => rfl) (fun _ _ => rfl) (fetchError_medium m.cpu.pc)

theorem step_reported :
    (reporting fun m : Machine B S => m.bus.cache).Of (step : MachineM B S PUnit) := by
  apply compositional_reported.step
  · intro insn
    refine .read fun m => .ite (raise_reported ?_) (.ite (raise_reported rfl) ?_)
    · cases m.cpu.priv <;> rfl
    have hchange (change : Machine B S → Machine B S)
        (hcache : ∀ m, (change m).bus.cache = m.bus.cache) :
        (reporting fun m : Machine B S => m.bus.cache).Of
          (do Exec.update change; pure true : MachineM B S Bool) := by
      refine .bind (.update fun m => ?_) fun _ => .pure _
      change AllServed m.bus.cache (change m).bus.cache
      rw [hcache]
      exact .refl
    exact .ite (hchange _ fun _ => rfl) (.ite (hchange _ fun _ => rfl) (.ite (.pure _)
      (.ite (hchange _ fun _ => rfl) (raise_reported rfl))))
  · intro insn
    refine .read fun m => .ite (raise_reported rfl) (.ite (raise_reported rfl) ?_)
    have hwrite (new : BitVec 64) : (reporting fun m : Machine B S => m.bus.cache).Of
        (Rv64i.applyCsr insn new : MachineM B S PUnit) :=
      .ite (.bind (.update fun _ => .refl) fun _ => .ite (.update fun _ => .refl) (.pure _))
        (.pure _)
    dsimp only
    split
    · exact raise_reported rfl
    · exact .bind (hwrite _) fun _ => .bind (compositional_reported.setReg _ _) fun _ => .pure _

/-- The machine with the same cache. -/
def SameCache (start after : Machine B S) : Prop := after.bus.cache = start.bus.cache

instance : IsPreorder (Machine B S) SameCache where
  refl _ := rfl
  trans _ _ _ hleft hright := Eq.trans hright hleft

omit [MemBacking B] in
/-- What becomes of an error: the caller is told of one of the backing, and the guest, or
its firmware, of any other. -/
theorem deliver_error {err : Exception} {middle after : Machine B S}
    {reply : Except (BitVec 64) Sbi.SbiOutcome}
    (hrun : (deliver (.error err)).run middle = .ok reply after) :
    match err.medium with
    | some addr => reply = .error addr ∧ after = middle
    | none => (∃ outcome, reply = .ok outcome) ∧ SameCache middle after := by
  cases err with
  | backingFailure addr =>
      cases hrun
      exact ⟨rfl, rfl⟩
  | environmentCallFromSMode =>
      cases hrun
      have hhandled : SameCache middle (Sbi.handle middle).2 :=
        handle_keeps (fun _ _ _ => rfl) (fun _ _ => rfl) (fun _ _ => rfl) middle
      exact ⟨⟨_, rfl⟩, hhandled⟩
  | _ =>
      cases hrun
      exact ⟨⟨_, rfl⟩, rfl⟩

/-- How a step that delivers ends. -/
theorem stepTrapping_reported {m after : Machine B S} {reply : Except (BitVec 64) Sbi.SbiOutcome}
    (hrun : stepTrapping.run m = .ok reply after) :
    (∃ addr, reply = .error addr ∧ FailsAt addr m.bus.cache after.bus.cache ∧ SameCore m after) ∨
      ∃ outcome, reply = .ok outcome ∧ AllServed m.bus.cache after.bus.cache := by
  rw [stepTrapping, Exec.run_bind_eq_ok] at hrun
  obtain ⟨result, middle, hattempt, hdeliver⟩ := hrun
  have hreported := step_reported m
  have hcore := step_restores m
  rw [Exec.run, Exec.attempt] at hattempt
  rw [Exec.wp] at hreported hcore
  cases hstep : step m with
  | ok value end_ =>
      rw [hstep] at hattempt hreported
      cases hattempt
      cases hdeliver
      exact .inr ⟨_, rfl, hreported⟩
  | error err end_ =>
      rw [hstep] at hattempt hreported hcore
      cases hattempt
      have hended := deliver_error hdeliver
      change Reported err.medium m.bus.cache middle.bus.cache at hreported
      cases hmedium : err.medium with
      | some addr =>
          rw [hmedium] at hended hreported
          obtain ⟨rfl, rfl⟩ := hended
          exact .inl ⟨addr, rfl, hreported, hcore⟩
      | none =>
          rw [hmedium] at hended hreported
          obtain ⟨⟨outcome, rfl⟩, hcache⟩ := hended
          rw [SameCache] at hcache
          rw [hcache]
          exact .inr ⟨outcome, rfl, hreported⟩
  | panic =>
      rw [hstep] at hattempt
      cases hattempt

/-- **A failure of the backing is handed to the caller**, whole and alone.  Where a step
ends in `Err`, an access of RAM at the address it carries has failed, all those before it
have succeeded, and no trap has been entered; where it does not, all accesses have
succeeded.  So whichever accesses led from the cache the step found to the one it left,
it ended in `Err` just in case one of them failed. -/
theorem backing_failure_reported {m after : Machine B S}
    {reply : Except (BitVec 64) Sbi.SbiOutcome} (hrun : stepTrapping.run m = .ok reply after) :
    (∀ addr, reply = .error addr →
      FailsAt addr m.bus.cache after.bus.cache ∧ SameCore m after) ∧
    (∀ outcome, reply = .ok outcome → AllServed m.bus.cache after.bus.cache) ∧
    ∀ ops replies, (∀ op ∈ ops, op.OfBus) →
      performAll ops m.bus.cache = some (replies, after.bus.cache) →
      ((∃ err, .failed err ∈ replies) ↔ ∃ addr, reply = .error addr) := by
  have hfailed {replies : List Reply} :
      (∃ err, .failed err ∈ replies) ↔ 0 < replies.countP Reply.isFailed := by
    rw [List.countP_pos_iff]
    constructor
    · rintro ⟨err, hmem⟩
      exact ⟨.failed err, hmem, rfl⟩
    · rintro ⟨reply, hmem, hreply⟩
      cases reply with
      | failed err => exact ⟨err, hmem⟩
      | _ => cases hreply
  rcases stepTrapping_reported hrun with ⟨addr, rfl, hfails, hcore⟩ | ⟨outcome, rfl, hserved⟩
  · refine ⟨?_, by rintro outcome ⟨⟩, fun ops replies hops hperform => ?_⟩
    · rintro _ ⟨⟩
      exact ⟨hfails, hcore⟩
    · have hcount := performAll_failures hops hperform
      rw [hfails.failures] at hcount
      rw [hfailed]
      exact iff_of_true (by omega) ⟨addr, rfl⟩
  · refine ⟨by rintro addr ⟨⟩, fun _ _ => hserved, fun ops replies hops hperform => ?_⟩
    have hcount := performAll_failures hops hperform
    rw [hserved.failures] at hcount
    rw [hfailed]
    refine iff_of_false (by omega) ?_
    rintro ⟨addr, heq⟩
    cases heq

/-! A store across two pages, over a cache of one frame and a backing that takes nothing. -/

/-- `sd x2, 0(x1)` four bytes before the end of a page. -/
def storeAcross : Machine WriteOnlyFails (List LittleEndian.Byte) :=
  ⟨((Cpu.new 0x80000000).setReg 1 0x80001FFC).setReg 2 0x1122334455667788,
    ⟨⟨⟨firstPage [0x0020B023], 0⟩, [], fun _ => 0, 0, 1, ⟨0, 0, 0, 0, 0⟩⟩, .default, .new []⟩,
    ⟨[], []⟩⟩

/-- The fifth byte needs the frame of the first four, and the step ends there. -/
theorem backing_failure_reported_storeAcross :
    ∃ after, stepTrapping.run storeAcross = .ok (.error 0x80002000) after ∧
      FailsAt 0x80002000 storeAcross.bus.cache after.bus.cache ∧ SameCore storeAcross after := by
  have hvalue : (stepTrapping.run storeAcross).value.bind
      (fun reply => match reply with
        | .error addr => some addr
        | .ok _ => none) = some 0x80002000 := by
    decide +kernel
  obtain ⟨reply, hreply, hsome⟩ := Option.bind_eq_some_iff.mp hvalue
  obtain ⟨after, hrun⟩ := Outcome.eq_ok_of_value hreply
  cases reply with
  | ok outcome => cases hsome
  | error addr =>
      cases hsome
      exact ⟨after, hrun, (backing_failure_reported hrun).1 _ rfl⟩

end Machine

end Reports

/-! ## No panic -/

namespace Machine

variable {B S : Type} [FlatBacking B]

/-- The cache is in order. -/
def InOrder (m : Machine B S) : Prop := ∃ memory, Holds memory m.bus.cache

/-- Started with a cache in order, the computation does not panic and leaves one. -/
def Safe {Value : Type} (program : MachineM B S Value) : Prop :=
  ∀ m : Machine B S, m.InOrder →
    Exec.wp program (fun _ after => after.InOrder) (fun _ after => after.InOrder) False m

theorem Safe.bind {Value Next : Type} {program : MachineM B S Next}
    {next : Next → MachineM B S Value} (hprogram : Safe program)
    (hnext : ∀ value, Safe (next value)) : Safe (program >>= next) := by
  intro m hm
  rw [Exec.wp_bind]
  exact (hprogram m hm).imp_post fun value middle hmiddle => hnext value middle hmiddle

theorem Safe.update {change : Machine B S → Machine B S}
    (hcache : ∀ m, (change m).bus.cache = m.bus.cache) :
    Safe (Exec.update change : MachineM B S PUnit) := by
  rintro m ⟨memory, hm⟩
  refine ⟨memory, ?_⟩
  rw [hcache]
  exact hm

variable [ConsoleSink S]

theorem compositional_safe :
    Compositional fun Value (program : MachineM B S Value) => Safe program where
  pure _ _ hm := hm
  bind := Safe.bind
  illegal _ _ hm := hm
  read _ hnext m hm := hnext m m hm
  onCpu _ := .update fun _ => rfl
  translate vaddr access := by
    rintro m ⟨memory, hm⟩
    exact (translate_spec hm vaddr access).imp (fun _ _ hafter => ⟨memory, hafter.2.holds⟩)
      (fun _ _ hafter => ⟨memory, hafter.2.holds⟩) (fun hfalse => hfalse)
  busLoad kind addr size := by
    rintro m ⟨memory, hm⟩
    exact (busLoad_spec hm kind addr size).imp (fun _ _ hafter => ⟨memory, hafter.1.holds⟩)
      (fun _ _ hafter => ⟨memory, hafter.1.holds⟩) (fun hfalse => hfalse)
  busStore addr size value := by
    rintro m ⟨memory, hm⟩
    apply (busStore_spec hm addr size value).imp
    · exact fun _ _ hafter => ⟨_, hafter.1⟩
    · rintro err after (⟨-, -, hafter⟩ | ⟨-, -, -, left, -, hafter⟩)
      · exact ⟨_, hafter⟩
      · exact ⟨_, hafter⟩
    · exact fun hfalse => hfalse
  fetch size hread := by
    intro m hm
    rw [fetch, Exec.wp_bind, Exec.wp_read, Exec.wp_zoom]
    exact hread _ m hm

theorem step_safe : Safe (step : MachineM B S PUnit) := by
  have hillegal (insn : Insn) : Safe (Rv64i.illegal insn : MachineM B S Bool) :=
    fun _ hm => hm
  have hdone {change : Machine B S → Machine B S}
      (hcache : ∀ m, (change m).bus.cache = m.bus.cache) :
      Safe (do Exec.update change; pure true : MachineM B S Bool) :=
    .bind (.update hcache) fun _ _ hm => hm
  apply compositional_safe.step
  · intro insn m hm
    rw [Rv64i.privileged, Exec.wp_bind, Exec.wp_read]
    dsimp only
    split_ifs
    · exact hm
    · exact hm
    · exact hdone (fun _ => rfl) m hm
    · exact hdone (fun _ => rfl) m hm
    · exact hm
    · exact hdone (fun _ => rfl) m hm
    · exact hillegal insn m hm
  · intro insn m hm
    have happly (new : BitVec 64) : Safe (Rv64i.applyCsr insn new : MachineM B S PUnit) := by
      unfold Rv64i.applyCsr
      split
      · refine .bind (.update fun _ => rfl) fun _ => ?_
        split
        · exact .update fun _ => rfl
        · exact fun _ hm => hm
      · exact fun _ hm => hm
    have hupdate (old new : BitVec 64) :
        Safe (Rv64i.updateCsr insn old new : MachineM B S Bool) :=
      .bind (happly new) fun _ => .bind (compositional_safe.setReg _ _) fun _ _ hm => hm
    rw [Rv64i.csrAccess, Exec.wp_bind, Exec.wp_read]
    dsimp only
    split
    · exact hillegal insn m hm
    split
    · exact hillegal insn m hm
    split
    · exact hillegal insn m hm
    · exact hupdate _ _ m hm

/-- Over a cache in order a step always returns. -/
theorem stepTrapping_returns {m : Machine B S} (hm : m.InOrder) :
    ∃ reply after, stepTrapping.run m = .ok reply after := by
  have hstep := step_safe m hm
  rw [stepTrapping, Exec.run_bind]
  rw [Exec.wp] at hstep
  simp only [Exec.run, Exec.attempt]
  cases hrun : step m with
  | ok value after => exact ⟨_, _, rfl⟩
  | error err after =>
      cases err with
      | _ => exact ⟨_, _, rfl⟩
  | panic =>
      rw [hrun] at hstep
      exact hstep.elim

end Machine

end Baonix.Core

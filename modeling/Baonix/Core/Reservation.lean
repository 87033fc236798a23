import Baonix.Core.Isolation

/-!
# LR and SC

A run is looked at through what happened to the reserved bytes: LRs completed,
SCs past their translation, bytes written by stores and AMOs.  The reservation
the processor holds is always backed by that past.
-/

namespace Baonix.Core

open Exec (Keeps KeepsUnless)
open PageCache (Holds)

/-- The emulator's own failure. -/
def Exception.isBackingFailure : Exception → Prop
  | .backingFailure _ => True
  | _ => False

/-- A store of `size` bytes touches the eight bytes reserved. -/
def Overlaps (addr : BitVec 64) (size : ℕ) (reserved : BitVec 64) : Prop :=
  ∃ byte, addr.toNat ≤ byte ∧ byte < addr.toNat + size ∧
    reserved.toNat ≤ byte ∧ byte < reserved.toNat + 8

inductive Happening
  /-- An LR completed. -/
  | reserved (addr : BitVec 64)
  /-- An SC got past its translation. -/
  | conditional (addr : BitVec 64)
  /-- A store or an AMO wrote its bytes. -/
  | wrote (addr : BitVec 64) (size : ℕ)

/-- The past, the latest first, entitles an SC to the address: the latest LR was
there, and since then there was no SC and no write over its bytes. -/
def Entitles (addr : BitVec 64) : List Happening → Prop
  | [] => False
  | .reserved lr :: _ => lr = addr
  | .conditional _ :: _ => False
  | .wrote written size :: past => ¬ Overlaps written size addr ∧ Entitles addr past

namespace Machine

variable {B S : Type}

/-- An access that wrote: the bus serves every store it does not refuse. -/
def Wrote (issued : BusAccess B S) : Prop :=
  issued.kind = .store ∧ Bus.Served issued.addr issued.size

instance (issued : BusAccess B S) : Decidable (Wrote issued) := instDecidableAnd

/-- The writes among the accesses. -/
def written (accesses : List (BusAccess B S)) : List Happening :=
  (accesses.filter (Wrote ·)).map fun issued => .wrote issued.addr issued.size

theorem written_append (later earlier : List (BusAccess B S)) :
    written (later ++ earlier) = written later ++ written earlier := by
  rw [written, List.filter_append, List.map_append, written, written]

theorem written_of_wrote {issued : BusAccess B S} (hwrote : Wrote issued) :
    written [issued] = [.wrote issued.addr issued.size] := by
  rw [written, List.filter_singleton, decide_eq_true hwrote]
  rfl

theorem written_of_not {issued : BusAccess B S} (hidle : ¬ Wrote issued) : written [issued] = [] := by
  rw [written, List.filter_singleton, decide_eq_false hidle]
  rfl

/-- The accesses issued since. -/
def newAccesses (start after : Machine B S) : List (BusAccess B S) :=
  after.trace.accesses.take (after.trace.accesses.length - start.trace.accesses.length)

theorem newAccesses_eq {start after : Machine B S} {new : List (BusAccess B S)}
    (hnew : after.trace.accesses = new ++ start.trace.accesses) : newAccesses start after = new := by
  rw [newAccesses, hnew, List.length_append, Nat.add_sub_cancel, List.take_left']
  rfl

def isLr (insn : Insn) : Prop :=
  Insn.opcode insn = 0x2F ∧ (Rv64a.sizeOf insn).isSome ∧ Rv64a.opOf insn = 0x02

def isSc (insn : Insn) : Prop :=
  Insn.opcode insn = 0x2F ∧ (Rv64a.sizeOf insn).isSome ∧ Rv64a.opOf insn = 0x03

instance (insn : Insn) : Decidable (isLr insn) := instDecidableAnd

instance (insn : Insn) : Decidable (isSc insn) := instDecidableAnd

/-- The reservation is entitled by the past. -/
def Backed (past : List Happening) (m : Machine B S) : Prop :=
  ∀ addr, m.cpu.reservation = some addr → Entitles addr past

/-- What the writes on the way leave of a reservation is still backed. -/
def Spares (start after : Machine B S) : Prop :=
  ∃ new, after.trace.accesses = new ++ start.trace.accesses ∧
    ∀ past, Backed past start → Backed (written new ++ past) after

instance : IsPreorder (Machine B S) Spares where
  refl _ := ⟨[], rfl, fun _ hbacked => hbacked⟩
  trans := by
    rintro start middle after ⟨first, hfirst, hbacked⟩ ⟨last, hlast, hbacked'⟩
    refine ⟨last ++ first, by rw [hlast, hfirst, List.append_assoc], ?_⟩
    intro past hpast
    rw [written_append, List.append_assoc]
    exact hbacked' _ (hbacked past hpast)

theorem spares_of_same {start after : Machine B S}
    (haccesses : after.trace.accesses = start.trace.accesses)
    (hreservation : after.cpu.reservation = start.cpu.reservation) : Spares start after := by
  refine ⟨[], haccesses, ?_⟩
  intro past hbacked addr haddr
  rw [hreservation] at haddr
  exact hbacked addr haddr

theorem enterTrap_reservation (cpu : Cpu) (cause tval : BitVec 64) (toS : Bool) :
    (cpu.enterTrap cause tval toS).reservation = cpu.reservation := by
  cases toS <;> rfl

theorem checkInterrupts_reservation (cpu : Cpu) (pending : Bool) :
    (cpu.checkInterrupts pending).reservation = cpu.reservation := by
  rw [Cpu.checkInterrupts]
  dsimp only
  split_ifs
  · exact enterTrap_reservation ..
  · exact enterTrap_reservation ..
  · rfl

/-! ## Writes -/

section Writes

theorem end_of_inWindow {base length : ℕ} {addr : BitVec 64} {size : ℕ}
    (hwindow : Bus.inWindow base length addr size) (hend : base + length < 2 ^ 64 - 1) :
    addr.toNat + size < 2 ^ 64 - 1 := by
  rw [Bus.inWindow, decide_eq_true_iff, Bus.saturatingAdd] at hwindow
  omega

/-- No window reaches the end of the address space. -/
theorem end_of_served {addr : BitVec 64} {size : ℕ} (hserved : Bus.Served addr size) :
    addr.toNat + size < 2 ^ 64 - 1 := by
  rcases hserved.2 with hram | hclint | huart
  · exact end_of_inWindow hram (by norm_num [ramBase, ramSize])
  · exact end_of_inWindow hclint (by decide)
  · exact end_of_inWindow huart (by decide)

theorem reservation_of_invalidated {cpu : Cpu} {addr reserved : BitVec 64} {size : ℕ}
    (hreserved : (cpu.invalidateReservation addr size).reservation = some reserved) :
    cpu.reservation = some reserved := by
  unfold Cpu.invalidateReservation at hreserved
  split at hreserved
  · exact hreserved
  · split at hreserved
    · cases hreserved
    · exact hreserved

/-- What survives an invalidation does not overlap the bytes written. -/
theorem not_overlaps_of_reserved {cpu : Cpu} {addr reserved : BitVec 64} {size : ℕ}
    (hserved : Bus.Served addr size)
    (hreserved : (cpu.invalidateReservation addr size).reservation = some reserved) :
    ¬ Overlaps addr size reserved := by
  have hend := end_of_served hserved
  rintro ⟨byte, hlow, hhigh, hreservedLow, hreservedHigh⟩
  unfold Cpu.invalidateReservation at hreserved
  split at hreserved
  · next hnone => rw [hnone] at hreserved; cases hreserved
  · next other hother =>
    split at hreserved
    · cases hreserved
    · next hapart =>
      rw [hother] at hreserved
      cases hreserved
      apply hapart
      rw [Bus.saturatingAdd, Bus.saturatingAdd]
      omega

variable [MemBacking B] [ConsoleSink S]

/-- The bus refuses a store, or the backing does. -/
theorem bus_store_refused (addr : BitVec 64) (size : ℕ) (value : BitVec 64) (bus : Bus B S) :
    Exec.wp (Bus.store addr size value) (fun _ _ => True)
      (fun err _ => err.isBackingFailure ∨ ¬ Bus.Served addr size) True bus := by
  rw [Bus.store]
  split
  · next hwidth =>
    right
    rintro ⟨hsome, -⟩
    rw [hwidth] at hsome
    cases hsome
  · split_ifs with hram hclint huart
    · rw [Bus.onCache, Exec.wp_zoom]
      exact (Exec.wp_any _ _).imp (fun _ _ _ => trivial) (fun _ _ _ => .inl trivial)
        (fun _ => trivial)
    · trivial
    · trivial
    · right
      rintro ⟨-, hwindow⟩
      rcases hwindow with hother | hother | hother
      · exact hram hother
      · exact hclint hother
      · exact huart hother

omit [MemBacking B] [ConsoleSink S] in
/-- A write that gives up the reservation it hits spares it. -/
theorem spares_of_invalidated {addr : BitVec 64} {size : ℕ} {start middle : Machine B S}
    (hadds : Adds .store addr size start middle) (hsame : middle.cpu = start.cpu) :
    Spares start { middle with cpu := middle.cpu.invalidateReservation addr size } := by
  refine ⟨[_], hadds.1, ?_⟩
  intro past hbacked reserved hreserved
  have hsurvives : (start.cpu.invalidateReservation addr size).reservation = some reserved := by
    rw [← hsame]
    exact hreserved
  have hentitles := hbacked reserved (reservation_of_invalidated hsurvives)
  by_cases hserved : Bus.Served addr size
  · rw [written_of_wrote ⟨rfl, hserved⟩]
    exact ⟨not_overlaps_of_reserved hserved hsurvives, hentitles⟩
  · rw [written_of_not fun hwrote => hserved hwrote.2]
    exact hentitles

omit [MemBacking B] [ConsoleSink S] in
/-- An access that writes nothing. -/
theorem spares_of_adds {kind : Access} {addr : BitVec 64} {size : ℕ} {start after : Machine B S}
    (hadds : Adds kind addr size start after) (hsame : after.cpu = start.cpu)
    (hidle : kind = .store → ¬ Bus.Served addr size) : Spares start after := by
  refine ⟨[_], hadds.1, ?_⟩
  intro past hbacked reserved hreserved
  rw [hsame] at hreserved
  rw [written_of_not fun hwrote => hidle hwrote.1 hwrote.2]
  exact hbacked reserved hreserved

instance : IsPreorder (Machine B S) fun start after => after.cpu = start.cpu where
  refl _ := rfl
  trans _ _ _ hleft hright := hright.trans hleft

/-- A store, and what follows it. -/
theorem store_then {addr : BitVec 64} {size : ℕ} {Value : Type} {next : MachineM B S Value}
    (value : BitVec 64)
    (hnext : ∀ start middle : Machine B S, Adds .store addr size start middle →
      middle.cpu = start.cpu →
        Exec.wp next (fun _ => Spares start)
          (fun err after => err.isBackingFailure ∨ Spares start after) True middle) :
    KeepsUnless Exception.isBackingFailure Spares (busStore addr size value >>= fun _ => next) := by
  intro m
  have hcpu : Keeps (fun start after : Machine B S => after.cpu = start.cpu)
      (busStore addr size value) :=
    busStore_keeps (fun _ _ _ _ => rfl) (fun _ _ => rfl) addr size value
  have hrefused : Exec.wp (busStore addr size value) (fun _ _ => True)
      (fun err _ => err.isBackingFailure ∨ ¬ Bus.Served addr size) True m := by
    rw [busStore, Exec.wp_bind, Exec.wp_update, Exec.wp_zoom]
    exact bus_store_refused addr size value _
  rw [Exec.wp_bind]
  apply (((busStore_adds addr size value m).and (hcpu m)).and hrefused).imp
  · exact fun _ middle hmiddle => hnext m middle hmiddle.1.1 hmiddle.1.2
  · exact fun _ after hafter => hafter.2.imp_right fun hrefused =>
      spares_of_adds hafter.1.1 hafter.1.2 fun _ => hrefused
  · exact fun _ => trivial

theorem write_spares (addr : BitVec 64) (size : ℕ) (value : BitVec 64) :
    KeepsUnless Exception.isBackingFailure Spares (do
      busStore addr size value
      onCpu (·.invalidateReservation addr size) : MachineM B S PUnit) := by
  apply store_then
  intro start middle hadds hsame
  rw [onCpu, Exec.wp_update]
  exact spares_of_invalidated hadds hsame

theorem write_then {addr : BitVec 64} {size : ℕ} {Value : Type} {next : MachineM B S Value}
    (value : BitVec 64) (hnext : KeepsUnless Exception.isBackingFailure Spares next) :
    KeepsUnless Exception.isBackingFailure Spares (do
      busStore addr size value
      onCpu (·.invalidateReservation addr size)
      next) := by
  apply store_then
  intro start middle hadds hsame
  rw [Exec.wp_bind, onCpu, Exec.wp_update]
  exact hnext.wp_from (spares_of_invalidated hadds hsame)

omit [ConsoleSink S] in
theorem translate_spares (vaddr : BitVec 64) (access : Access) :
    Keeps Spares (translate vaddr access : MachineM B S (BitVec 64)) :=
  translate_keeps (fun _ _ => spares_of_same rfl rfl) (fun _ _ => spares_of_same rfl rfl) vaddr
    access

omit [ConsoleSink S] in
theorem spares_reads {kind : Access} (hkind : kind ≠ .store) : Reads kind (@Spares B S) where
  translate vaddr := translate_spares vaddr kind
  busLoad addr size m := by
    have hcpu : Keeps (fun start after : Machine B S => after.cpu = start.cpu)
        (busLoad kind addr size) :=
      busLoad_keeps (fun _ _ _ _ => rfl) (fun _ _ => rfl) kind addr size
    exact ((busLoad_adds kind addr size m).and (hcpu m)).imp
      (fun _ _ hafter => spares_of_adds hafter.1 hafter.2 fun heq => absurd heq hkind)
      (fun _ _ hafter => spares_of_adds hafter.1 hafter.2 fun heq => absurd heq hkind)
      (fun _ => trivial)

omit [MemBacking B] in
theorem spares_controls : Controls (@Spares B S) where
  setReg m i v := by
    unfold Cpu.setReg
    split
    · exact spares_of_same rfl rfl
    · exact refl_of Spares m
  jump _ _ _ := spares_of_same rfl rfl
  starts _ _ := spares_of_same rfl rfl
  retires _ _ := spares_of_same rfl rfl
  traps m err := spares_of_same rfl (enterTrap_reservation ..)
  skips _ _ := spares_of_same rfl rfl
  mret _ := spares_of_same rfl rfl
  sret _ := spares_of_same rfl rfl
  flush := .update fun _ => spares_of_same rfl rfl
  writeCsr _ _ := .bind (.update fun _ => spares_of_same rfl rfl) fun _ =>
    .ite (.update fun _ => spares_of_same rfl rfl) (.pure _)
  setTimer _ _ := spares_of_same rfl rfl
  putchar _ _ := spares_of_same rfl rfl

/-! ## Instructions -/

theorem writeEach_spares (vaddr value : BitVec 64) (offsets : List ℕ) :
    KeepsUnless Exception.isBackingFailure Spares
      (writeEach vaddr value offsets : MachineM B S PUnit) := by
  induction offsets with
  | nil => exact .of_keeps (.pure _)
  | cons i rest ih =>
      exact .bind (.of_keeps (translate_spares _ _)) fun pa => write_then _ ih

theorem store_spares (insn : Insn) :
    KeepsUnless Exception.isBackingFailure Spares (Rv64i.store insn : MachineM B S Bool) := by
  apply KeepsUnless.bind (.of_keeps .read)
  intro m
  dsimp only
  split
  · exact .of_keeps (.raise _)
  · apply KeepsUnless.bind _ fun _ => .of_keeps (.pure _)
    rw [vstore, writeTranslated]
    split
    · exact .bind (.of_keeps (translate_spares _ _)) fun pa => write_spares pa _ _
    · exact writeEach_spares _ _ _

/-- The AMOs. -/
theorem atomic_spares {insn : Insn} (hlr : ¬ isLr insn) (hsc : ¬ isSc insn) :
    KeepsUnless Exception.isBackingFailure Spares (Rv64a.execute insn : MachineM B S Bool) := by
  have hload := (spares_reads (B := B) (S := S) (show Access.load ≠ .store by decide)).busLoad
  rw [Rv64a.execute]
  split
  · exact .of_keeps (.pure _)
  · next hopcode =>
    split
    · exact .of_keeps (.raise _)
    · next size hsize =>
      have hsome : (Rv64a.sizeOf insn).isSome := by rw [hsize]; rfl
      apply KeepsUnless.bind (.of_keeps .read)
      intro m
      apply KeepsUnless.bind (.of_keeps (translate_spares _ _))
      intro addr
      apply KeepsUnless.bind _ fun _ => .of_keeps (.pure _)
      rw [Rv64a.perform, if_neg fun hop => hlr ⟨not_not.mp hopcode, hsome, hop⟩,
        if_neg fun hop => hsc ⟨not_not.mp hopcode, hsome, hop⟩, Rv64a.readModifyWrite]
      apply KeepsUnless.bind (.of_keeps (hload _ _))
      intro old
      split
      · exact .of_keeps (.raise _)
      · exact write_then _ (.of_keeps (spares_controls.setReg_keeps _ _))

/-- Everything but LR and SC. -/
theorem execute_spares {insn : Insn} (hlr : ¬ isLr insn) (hsc : ¬ isSc insn) :
    KeepsUnless Exception.isBackingFailure Spares (execute insn : MachineM B S PUnit) := by
  by_cases hatomic : Insn.opcode insn = 0x2F
  · rw [execute_atomic hatomic]
    exact .bind (atomic_spares hlr hsc) fun _ => .of_keeps (.pure _)
  by_cases hstore : Insn.opcode insn = 0x23
  · rw [execute_store hstore]
    exact .bind (store_spares insn) fun _ => .of_keeps (.pure _)
  · have hreads : Reads .load (@Spares B S) := spares_reads (by decide)
    exact .of_keeps (spares_controls.dispatch_keeps insn (fun heq => absurd heq hatomic)
      (fun _ => spares_controls.load_keeps hreads insn) (fun heq => absurd heq hstore)
      (fun _ _ => spares_controls.privileged_keeps insn)
      (fun _ _ => spares_controls.csrAccess_keeps insn))

/-! ## Steps -/

/-- The address an atomic translates. -/
def atomicAddr (insn : Insn) (m : Machine B S) : Option (BitVec 64) :=
  ((translate (m.cpu.reg (Insn.rs1 insn)) .store).run m).value

omit [ConsoleSink S] in
theorem atomicAddr_eq_some {insn : Insn} {m : Machine B S} {addr : BitVec 64} :
    atomicAddr insn m = some addr ↔ m.Yields (m.cpu.reg (Insn.rs1 insn)) .store addr := by
  constructor
  · intro haddr
    obtain ⟨after, hrun⟩ := Outcome.eq_ok_of_value haddr
    exact ((translate_latest _ _ m).of_run_ok hrun).1
  · rintro ⟨after, hrun⟩
    have hnoted : Mmu.translate m.cpu.csrs m.cpu.priv (m.cpu.reg (Insn.rs1 insn)) .store
        (m.note (.translated (m.translation (m.cpu.reg (Insn.rs1 insn)) .store))).system =
          .ok addr after := hrun
    rw [translation] at hnoted
    simp only [atomicAddr, translate, Exec.run, bind, Exec.read, Exec.update, Exec.zoom, hnoted]
    rfl

/-- What the step from a state does, the latest first. -/
def happened (m : Machine B S) : List Happening :=
  match (step.run m).reply with
  | none => []
  | some (result, after) =>
      match fetchInsn.run m with
      | .ok (insn, _) fetched =>
          if isLr insn then
            if result.isOk then (atomicAddr insn fetched).toList.map .reserved else []
          else if isSc insn then (atomicAddr insn fetched).toList.map .conditional
          else written (newAccesses m after)
      | _ => written (newAccesses m after)

theorem step_lr {m fetched : Machine B S} {insn : Insn} {len : BitVec 64}
    (hfetch : fetchInsn.run m = .ok (insn, len) fetched) (hlr : isLr insn) :
    Exec.wp step (fun _ after => after.cpu.reservation = atomicAddr insn fetched)
      (fun _ after => after.cpu.reservation = fetched.cpu.reservation) True m := by
  obtain ⟨hopcode, hsome, hop⟩ := hlr
  obtain ⟨size, hsize⟩ := Option.isSome_iff_exists.mp hsome
  apply wp_step_of_fetch hfetch
  rw [execute_atomic hopcode, Exec.wp_bind, Rv64a.execute, if_neg (not_not_intro hopcode), hsize]
  dsimp only
  rw [Exec.wp_bind, Exec.wp_read, Exec.wp_bind]
  have hcpu (addr : BitVec 64) : Keeps (fun start after : Machine B S => after.cpu = start.cpu)
      (busLoad .load addr size) :=
    busLoad_keeps (fun _ _ _ _ => rfl) (fun _ _ => rfl) .load addr size
  have hreservation : Keeps
      (Exec.Preserving fun m : Machine B S => m.cpu.reservation = fetched.cpu.reservation)
      (translate (fetched.cpu.reg (Insn.rs1 insn)) .store) :=
    translate_keeps (fun _ _ hm => hm) (fun _ _ hm => hm) _ _
  apply ((translate_latest _ .store _).and (hreservation _)).imp
  · rintro addr middle ⟨⟨hyields, -, -, -⟩, hkept⟩
    have haddr : atomicAddr insn fetched = some addr := atomicAddr_eq_some.mpr hyields
    rw [Exec.wp_bind, Rv64a.perform, if_pos hop, Rv64a.loadReserved, Exec.wp_bind]
    apply (hcpu addr middle).imp
    · intro v next hnext
      rw [Exec.wp_bind, onCpu, Exec.wp_update, setReg, onCpu, Exec.wp_update, Exec.wp_pure,
        Exec.wp_pure, haddr]
      unfold Cpu.setReg
      split <;> rfl
    · intro err next hnext
      rw [hnext]
      exact hkept rfl
    · exact fun hpanics => hpanics
  · exact fun _ _ hafter => hafter.2 rfl
  · exact fun hpanics => hpanics.1

theorem step_sc {m fetched : Machine B S} {insn : Insn} {len : BitVec 64}
    (hfetch : fetchInsn.run m = .ok (insn, len) fetched) (hsc : isSc insn) :
    Exec.wp step (fun _ after => after.cpu.reservation = none)
      (fun _ after => after.cpu.reservation = none ∨
        after.cpu.reservation = fetched.cpu.reservation ∧ atomicAddr insn fetched = none) True
      m := by
  obtain ⟨hopcode, hsome, hop⟩ := hsc
  obtain ⟨size, hsize⟩ := Option.isSome_iff_exists.mp hsome
  have hnotLr : Rv64a.opOf insn ≠ 0x02 := by
    rw [hop]
    decide
  apply wp_step_of_fetch hfetch
  rw [execute_atomic hopcode, Exec.wp_bind, Rv64a.execute, if_neg (not_not_intro hopcode), hsize]
  dsimp only
  rw [Exec.wp_bind, Exec.wp_read, Exec.wp_bind]
  have hreservation : Keeps
      (Exec.Preserving fun m : Machine B S => m.cpu.reservation = fetched.cpu.reservation)
      (translate (fetched.cpu.reg (Insn.rs1 insn)) .store) :=
    translate_keeps (fun _ _ hm => hm) (fun _ _ hm => hm) _ _
  have hsetReg (start : Machine B S) (v : BitVec 64) (hstart : start.cpu.reservation = none) :
      (start.cpu.setReg (Insn.rd insn) v).reservation = none := by
    unfold Cpu.setReg
    split <;> exact hstart
  apply ((translate_latest _ _ _).and (hreservation _)).imp
  · rintro addr middle -
    have hcpu : Keeps (fun start after : Machine B S => after.cpu = start.cpu)
        (busStore addr size (fetched.cpu.reg (Insn.rs2 insn))) :=
      busStore_keeps (fun _ _ _ _ => rfl) (fun _ _ => rfl) addr size _
    rw [Exec.wp_bind, Rv64a.perform, if_neg hnotLr, if_pos hop, Rv64a.storeConditional,
      Exec.wp_bind, Exec.wp_read, Exec.wp_bind, onCpu, Exec.wp_update, Exec.wp_ite]
    split
    · rw [Exec.wp_bind]
      apply (hcpu _).imp
      · intro _ next hnext
        rw [setReg, onCpu, Exec.wp_update, Exec.wp_pure, Exec.wp_pure]
        exact hsetReg next 0 (congrArg Cpu.reservation hnext)
      · exact fun _ next hnext => .inl (congrArg Cpu.reservation hnext)
      · exact fun hpanics => hpanics
    · rw [setReg, onCpu, Exec.wp_update, Exec.wp_pure, Exec.wp_pure]
      exact hsetReg _ 1 rfl
  · rintro err after ⟨⟨-, hnowhere⟩, hkept⟩
    right
    refine ⟨hkept rfl, Option.eq_none_iff_forall_ne_some.mpr ?_⟩
    intro addr haddr
    have hyields : fetched.Yields (fetched.cpu.reg (Insn.rs1 insn)) .store addr :=
      atomicAddr_eq_some.mp haddr
    exact hnowhere addr hyields
  · exact fun hpanics => hpanics.1

theorem step_spares {m fetched : Machine B S} {insn : Insn} {len : BitVec 64}
    (hfetch : fetchInsn.run m = .ok (insn, len) fetched) (hlr : ¬ isLr insn) (hsc : ¬ isSc insn) :
    Exec.wp step (fun _ => Spares m) (fun err after => err.isBackingFailure ∨ Spares m after) True
      m := by
  have hfetched : Spares m fetched :=
    ((spares_reads (by decide)).fetchInsn_keeps m).of_run_ok hfetch
  apply wp_step_of_fetch hfetch
  apply ((execute_spares hlr hsc).wp_from
    (trans_of Spares hfetched (spares_controls.starts fetched len))).imp_post
  exact fun _ after hafter => trans_of Spares hafter (spares_controls.retires after len)

omit [MemBacking B] [ConsoleSink S] in
theorem Spares.backed {start after : Machine B S} (hspares : Spares start after)
    {past : List Happening} (hbacked : Backed past start) :
    Backed (written (newAccesses start after) ++ past) after := by
  obtain ⟨new, hnew, hkeeps⟩ := hspares
  rw [newAccesses_eq hnew]
  exact hkeeps past hbacked

theorem happened_of_fetch {m fetched after : Machine B S} {insn : Insn} {len : BitVec 64}
    {result : Except Exception PUnit} (hreply : (step.run m).reply = some (result, after))
    (hfetch : fetchInsn.run m = .ok (insn, len) fetched) :
    happened m =
      if isLr insn then
        if result.isOk then (atomicAddr insn fetched).toList.map .reserved else []
      else if isSc insn then (atomicAddr insn fetched).toList.map .conditional
      else written (newAccesses m after) := by
  simp only [happened, hreply, hfetch]

theorem happened_of_not_fetched {m fetched after : Machine B S} {err : Exception}
    {result : Except Exception PUnit} (hreply : (step.run m).reply = some (result, after))
    (hfetch : fetchInsn.run m = .error err fetched) :
    happened m = written (newAccesses m after) := by
  simp only [happened, hreply, hfetch]

/-- After an LR the reservation is its address, or what it was. -/
theorem backed_lr {m fetched after : Machine B S} {insn : Insn} {len : BitVec 64}
    {result : Except Exception PUnit} (hreply : (step.run m).reply = some (result, after))
    (hfetch : fetchInsn.run m = .ok (insn, len) fetched) (hlr : isLr insn)
    (hkept : fetched.cpu.reservation = m.cpu.reservation) {past : List Happening}
    (hbacked : Backed past m) : Backed (happened m ++ past) after := by
  rw [happened_of_fetch hreply hfetch, if_pos hlr]
  intro addr haddr
  cases hrun : step.run m with
  | ok value other =>
      rw [hrun] at hreply
      cases hreply
      rw [(step_lr hfetch hlr).of_run_ok hrun] at haddr
      have hok : (Except.ok value : Except Exception PUnit).isOk = true := rfl
      rw [if_pos hok, haddr]
      rfl
  | error err other =>
      rw [hrun] at hreply
      cases hreply
      rw [(step_lr hfetch hlr).of_run_error hrun, hkept] at haddr
      exact hbacked addr haddr
  | panic => rw [hrun] at hreply; cases hreply

/-- After an SC there is no reservation, unless it did not get as far. -/
theorem backed_sc {m fetched after : Machine B S} {insn : Insn} {len : BitVec 64}
    {result : Except Exception PUnit} (hreply : (step.run m).reply = some (result, after))
    (hfetch : fetchInsn.run m = .ok (insn, len) fetched) (hsc : isSc insn)
    (hkept : fetched.cpu.reservation = m.cpu.reservation) {past : List Happening}
    (hbacked : Backed past m) : Backed (happened m ++ past) after := by
  have hnotLr : ¬ isLr insn := by
    intro hlr
    have hops := hlr.2.2.symm.trans hsc.2.2
    exact absurd hops (by decide)
  rw [happened_of_fetch hreply hfetch, if_neg hnotLr, if_pos hsc]
  intro addr haddr
  cases hrun : step.run m with
  | ok value other =>
      rw [hrun] at hreply
      cases hreply
      rw [(step_sc hfetch hsc).of_run_ok hrun] at haddr
      cases haddr
  | error err other =>
      rw [hrun] at hreply
      cases hreply
      rcases (step_sc hfetch hsc).of_run_error hrun with hnone | ⟨hsame, hnowhere⟩
      · rw [hnone] at haddr
        cases haddr
      · rw [hsame, hkept] at haddr
        rw [hnowhere]
        exact hbacked addr haddr
  | panic => rw [hrun] at hreply; cases hreply

/-- A step keeps the reservation backed by what happened. -/
theorem backed_step {m after : Machine B S} {result : Except Exception PUnit}
    (hreply : (step.run m).reply = some (result, after))
    (hreliable : ∀ addr, result ≠ .error (.backingFailure addr)) {past : List Happening}
    (hbacked : Backed past m) : Backed (happened m ++ past) after := by
  have hfetchSpares := (spares_reads (B := B) (S := S) (show Access.fetch ≠ .store by decide)
    ).fetchInsn_keeps m
  have hkept : Reads .fetch (Exec.Preserving fun state : Machine B S =>
      state.cpu.reservation = m.cpu.reservation) :=
    ⟨fun vaddr => translate_keeps (fun _ _ hm => hm) (fun _ _ hm => hm) vaddr .fetch,
      busLoad_keeps (fun _ _ _ _ hm => hm) (fun _ _ hm => hm) .fetch⟩
  cases hfetch : fetchInsn.run m with
  | panic =>
      have hwp : Exec.wp step (fun _ (_ : Machine B S) => False) (fun _ _ => False) True m := by
        rw [step, Exec.wp_bind, Exec.wp, show fetchInsn m = .panic from hfetch]
        trivial
      exact (hwp.of_reply hreply).elim
  | error err fetched =>
      have hrun : step.run m = .error err fetched := Exec.run_bind_error.mpr (.inl hfetch)
      rw [happened_of_not_fetched hreply hfetch]
      rw [hrun] at hreply
      cases hreply
      exact (hfetchSpares.of_run_error hfetch).backed hbacked
  | ok fetchResult fetched =>
      obtain ⟨insn, len⟩ := fetchResult
      have hreservation := (hkept.fetchInsn_keeps m).of_run_ok hfetch rfl
      by_cases hlr : isLr insn
      · exact backed_lr hreply hfetch hlr hreservation hbacked
      by_cases hsc : isSc insn
      · exact backed_sc hreply hfetch hsc hreservation hbacked
      · rw [happened_of_fetch hreply hfetch, if_neg hlr, if_neg hsc]
        have hspares := step_spares hfetch hlr hsc
        cases hrun : step.run m with
        | ok value other =>
            rw [hrun] at hreply
            cases hreply
            exact (hspares.of_run_ok hrun).backed hbacked
        | error err other =>
            rw [hrun] at hreply
            cases hreply
            have hnot : ¬ err.isBackingFailure := by
              intro hfailure
              cases err with
              | backingFailure addr => exact hreliable addr rfl
              | _ => exact hfailure
            exact ((hspares.of_run_error hrun).resolve_left hnot).backed hbacked
        | panic => rw [hrun] at hreply; cases hreply

/-! ## Runs -/

/-- The step does not fail in the backing. -/
def Reliable (m : Machine B S) : Prop :=
  ∀ addr after, step.run m ≠ .error (.backingFailure addr) after

/-- A run of reliable steps, and what happened in it, the latest first. -/
inductive Past (start : Machine B S) : List Happening → Machine B S → Prop
  | start : Past start [] start
  | step {past : List Happening} {m after : Machine B S} (hpast : Past start past m)
      (hreliable : m.Reliable) (hact : m.act .step = some after) :
      Past start (m.happened ++ past) after
  | other {past : List Happening} {m after : Machine B S} {action : Action}
      (hpast : Past start past m) (haction : action ≠ .step) (hact : m.act action = some after) :
      Past start past after

/-- A run goes on. -/
theorem Past.trans {start m after : Machine B S} {past later : List Happening}
    (hpast : Past start past m) (hlater : Past m later after) :
    Past start (later ++ past) after := by
  induction hlater with
  | start => exact hpast
  | step _ hreliable hact ih =>
      rw [List.append_assoc]
      exact ih.step hreliable hact
  | other _ haction hact ih => exact ih.other haction hact

def SameReservation (start after : Machine B S) : Prop :=
  after.cpu.reservation = start.cpu.reservation

instance : IsPreorder (Machine B S) SameReservation where
  refl _ := rfl
  trans _ _ _ hleft hright := hright.trans hleft

omit [MemBacking B] in
/-- Nothing but LR, SC and the writes touches the reservation. -/
theorem sameReservation_controls : Controls (@SameReservation B S) where
  setReg m i v := by
    unfold Cpu.setReg
    split <;> exact rfl
  jump _ _ _ := rfl
  starts _ _ := rfl
  retires _ _ := rfl
  traps m err := enterTrap_reservation ..
  skips _ _ := rfl
  mret _ := rfl
  sret _ := rfl
  flush := .update fun _ => rfl
  writeCsr _ _ := .bind (.update fun _ => rfl) fun _ => .ite (.update fun _ => rfl) (.pure _)
  setTimer _ _ := rfl
  putchar _ _ := rfl

theorem backed_stepTrapping {m : Machine B S} (hreliable : m.Reliable) {past : List Happening}
    (hbacked : Backed past m) :
    Exec.wp stepTrapping (fun _ => Backed (m.happened ++ past))
      (fun _ => Backed (m.happened ++ past)) True m := by
  have hdeliver {result : Except Exception PUnit} {middle : Machine B S}
      (hreply : (step.run m).reply = some (result, middle)) :
      Exec.wp (deliver result) (fun _ => Backed (m.happened ++ past))
        (fun _ => Backed (m.happened ++ past)) True middle := by
    have hresult (addr : BitVec 64) : result ≠ .error (.backingFailure addr) := by
      rintro rfl
      cases hrun : step.run m with
      | ok value after => rw [hrun] at hreply; cases hreply
      | error err after =>
          rw [hrun] at hreply
          cases hreply
          exact hreliable addr middle hrun
      | panic => rw [hrun] at hreply; cases hreply
    have hmiddle := backed_step hreply hresult hbacked
    exact (sameReservation_controls.deliver_keeps result middle).imp
      (fun _ _ hsame addr haddr => hmiddle addr (hsame.symm.trans haddr))
      (fun _ _ hsame addr haddr => hmiddle addr (hsame.symm.trans haddr)) (fun hpanics => hpanics)
  rw [stepTrapping, Exec.wp_bind, Exec.wp_attempt]
  apply (Exec.wp_any step m).attach.imp
  · exact fun _ _ hrun => hdeliver (congrArg Outcome.reply hrun.1)
  · exact fun _ _ hrun => hdeliver (congrArg Outcome.reply hrun.1)
  · exact fun hpanics => hpanics

theorem Past.backed {start m : Machine B S} {past : List Happening} (hpast : Past start past m)
    (hstart : start.cpu.reservation = none) : Backed past m := by
  induction hpast with
  | start =>
      intro addr haddr
      rw [hstart] at haddr
      cases haddr
  | @step past m after _ hreliable hact ih =>
      obtain ⟨⟨result, _⟩, hreply, rfl⟩ := Option.map_eq_some_iff.mp hact
      exact (backed_stepTrapping hreliable ih).of_reply hreply
  | @other past m after action _ haction hact ih =>
      cases action with
      | interrupt =>
          cases hact
          intro addr haddr
          exact ih addr ((checkInterrupts_reservation ..).symm.trans haddr)
      | step => exact absurd rfl haction
      | tick n =>
          cases hact
          exact ih
      | input byte =>
          cases hact
          exact ih

/-! ## Conditional stores -/

/-- The step is of an SC that gets past its translation, and writes. -/
def ScWrites (m : Machine B S) (addr : BitVec 64) : Prop :=
  ∃ insn len fetched result after, fetchInsn.run m = .ok (insn, len) fetched ∧ isSc insn ∧
    atomicAddr insn fetched = some addr ∧ (step.run m).reply = some (result, after) ∧
      written (newAccesses m after) ≠ []

omit [MemBacking B] [ConsoleSink S] in
theorem written_eq_nil {accesses : List (BusAccess B S)}
    (hidle : ∀ issued ∈ accesses, ¬ Wrote issued) : written accesses = [] := by
  have hfilter : accesses.filter (Wrote ·) = [] :=
    List.filter_eq_nil_iff.mpr fun issued hissued => by simpa using hidle issued hissued
  rw [written, hfilter]
  rfl

omit [MemBacking B] [ConsoleSink S] in
theorem written_of_fetches {accesses : List (BusAccess B S)}
    (hfetches : ∀ issued ∈ accesses, issued.kind = .fetch) : written accesses = [] := by
  apply written_eq_nil
  intro issued hissued hwrote
  have hkinds := (hfetches issued hissued).symm.trans hwrote.1
  exact absurd hkinds (by decide)

/-- An SC writes only where the reservation is. -/
theorem ScWrites.reserved {m : Machine B S} {addr : BitVec 64} (hwrites : ScWrites m addr) :
    m.cpu.reservation = some addr := by
  obtain ⟨insn, len, fetched, result, after, hfetch, hsc, haddr, hreply, hwritten⟩ := hwrites
  obtain ⟨hopcode, hsome, hop⟩ := hsc
  obtain ⟨size, hsize⟩ := Option.isSome_iff_exists.mp hsome
  have hkept : Reads .fetch (@SameReservation B S) :=
    ⟨fun vaddr => translate_keeps (fun _ _ => rfl) (fun _ _ => rfl) vaddr .fetch,
      busLoad_keeps (fun _ _ _ _ => rfl) (fun _ _ => rfl) .fetch⟩
  have hreservation : fetched.cpu.reservation = m.cpu.reservation :=
    (hkept.fetchInsn_keeps m).of_run_ok hfetch
  obtain ⟨before, hbefore, hfetches⟩ := (fetchInsn_onlyFetches m).of_run_ok hfetch
  have hwp : Exec.wp step
      (fun _ => AtomicIssued insn size { fetched with cpu := fetched.cpu.begin len })
      (fun _ => AtomicIssued insn size { fetched with cpu := fetched.cpu.begin len }) True m :=
    wp_step_of_fetch hfetch (atomic_issued hopcode hsize _)
  obtain ⟨new, hnew, hall, -⟩ := hwp.of_reply hreply
  have haccesses : after.trace.accesses = (new ++ before) ++ m.trace.accesses := by
    rw [hnew, List.append_assoc, ← hbefore]
  rw [newAccesses_eq haccesses, written_append, written_of_fetches hfetches,
    List.append_nil] at hwritten
  by_contra hnot
  apply hwritten
  apply written_eq_nil
  intro issued hissued _
  obtain ⟨-, -, -, hyields, hissues⟩ := hall issued hissued
  have hother : fetched.Yields (fetched.cpu.reg (Insn.rs1 insn)) .store addr :=
    atomicAddr_eq_some.mp haddr
  have hsame : issued.addr = addr := Mmu.Yields.unique hyields hother
  rw [hsame] at hissues
  exact hnot (hreservation.symm.trans (hissues hopcode hop))

theorem ScWrites.happened {m : Machine B S} {addr : BitVec 64} (hwrites : ScWrites m addr) :
    m.happened = [.conditional addr] := by
  obtain ⟨insn, len, fetched, result, after, hfetch, hsc, haddr, hreply, -⟩ := hwrites
  have hnotLr : ¬ isLr insn := by
    intro hlr
    have hops := hlr.2.2.symm.trans hsc.2.2
    exact absurd hops (by decide)
  rw [happened_of_fetch hreply hfetch, if_neg hnotLr, if_pos hsc, haddr]
  rfl

end Writes

/-- What entitles an SC to its address lies after the SC before it. -/
theorem exists_reserved {addr other : BitVec 64} {later past : List Happening}
    (hentitles : Entitles addr (later ++ .conditional other :: past)) :
    .reserved addr ∈ later := by
  induction later with
  | nil => exact hentitles.elim
  | cons happening later ih =>
      cases happening with
      | reserved lr =>
          have heq : lr = addr := hentitles
          rw [heq]
          exact List.mem_cons_self ..
      | conditional _ => exact hentitles.elim
      | wrote _ _ => exact List.mem_cons_of_mem _ (ih hentitles.2)

section Sound

variable [FlatBacking B] [ConsoleSink S]

/-- What an SC leaves that completed without writing. -/
structure ScRefused (insn : Insn) (memory : Memory) (after : Machine B S) : Prop where
  holds : Holds memory after.bus.cache
  rd : Insn.rd insn ≠ 0 → after.cpu.reg (Insn.rd insn) = 1
  reservation : after.cpu.reservation = none

theorem sc_refused {insn : Insn} (hsc : isSc insn) {memory : Memory} {start : Machine B S}
    (hstart : Holds memory start.bus.cache) :
    Exec.wp (execute insn)
      (fun _ after => (∃ new, after.trace.accesses = new ++ start.trace.accesses ∧
        written new ≠ []) ∨ ScRefused insn memory after)
      (fun _ _ => True) True start := by
  obtain ⟨hopcode, hsome, hop⟩ := hsc
  obtain ⟨size, hsize⟩ := Option.isSome_iff_exists.mp hsome
  have hnotLr : Rv64a.opOf insn ≠ 0x02 := by
    rw [hop]
    decide
  rw [execute_atomic hopcode, Exec.wp_bind, Rv64a.execute, if_neg (not_not_intro hopcode), hsize]
  dsimp only
  rw [Exec.wp_bind, Exec.wp_read, Exec.wp_bind]
  apply ((translate_latest _ .store start).and (translate_spec hstart _ .store)).imp
  · rintro addr middle ⟨⟨-, hsame, -, -⟩, -, hmiddle⟩
    rw [Exec.wp_bind, Rv64a.perform, if_neg hnotLr, if_pos hop, Rv64a.storeConditional,
      Exec.wp_bind, Exec.wp_read, Exec.wp_bind, onCpu, Exec.wp_update, Exec.wp_ite]
    split
    · have hcleared : Holds memory ({ middle with
          cpu := { middle.cpu with reservation := none } } : Machine B S).bus.cache :=
        hmiddle.holds
      rw [Exec.wp_bind]
      apply ((busStore_adds addr size _ _).and (busStore_spec hcleared addr size _)).imp
      · rintro _ next ⟨hadds, -, hserved⟩
        rw [Adds, hsame] at hadds
        refine .inl ⟨[_], hadds.1, ?_⟩
        rw [written_of_wrote ⟨rfl, hserved⟩]
        exact List.cons_ne_nil _ _
      · exact fun _ _ _ => trivial
      · exact fun _ => trivial
    · rw [setReg, onCpu, Exec.wp_update, Exec.wp_pure, Exec.wp_pure]
      right
      unfold Cpu.setReg
      split
      · next hrd => exact ⟨hmiddle.holds, fun _ => Function.update_self .., rfl⟩
      · next hrd => exact ⟨hmiddle.holds, fun hne => absurd hne hrd, rfl⟩
  · exact fun _ _ _ => trivial
  · exact fun _ => trivial

/-- An SC that completes without writing only reports so. -/
theorem refused_of_idle {memory : Memory} {m fetched after : Machine B S}
    (hm : Holds memory m.bus.cache) {insn : Insn} {len : BitVec 64}
    (hfetch : fetchInsn.run m = .ok (insn, len) fetched) (hsc : isSc insn)
    (hstep : step.run m = .ok ⟨⟩ after) (hidle : written (newAccesses m after) = []) :
    ScRefused insn memory after := by
  have hfetched : Holds memory fetched.bus.cache :=
    ((sameRam_reads .fetch).fetchInsn_keeps m).of_run_ok hfetch memory hm
  obtain ⟨before, hbefore, hfetches⟩ := (fetchInsn_onlyFetches m).of_run_ok hfetch
  have hbegun : Holds memory ({ fetched with cpu := fetched.cpu.begin len } :
      Machine B S).bus.cache := hfetched
  have hwp : Exec.wp step
      (fun _ after => (∃ new, after.trace.accesses = new ++ fetched.trace.accesses ∧
        written new ≠ []) ∨ ScRefused insn memory after) (fun _ _ => True) True m := by
    apply wp_step_of_fetch hfetch
    apply (sc_refused hsc hbegun).imp
    · intro _ after hafter
      exact hafter.imp_right fun hrefused => ⟨hrefused.holds, hrefused.rd, hrefused.reservation⟩
    · exact fun _ _ _ => trivial
    · exact fun _ => trivial
  apply (hwp.of_run_ok hstep).resolve_left
  rintro ⟨new, hnew, hwritten⟩
  have haccesses : after.trace.accesses = (new ++ before) ++ m.trace.accesses := by
    rw [hnew, List.append_assoc, ← hbefore]
  rw [newAccesses_eq haccesses, written_append] at hidle
  exact hwritten (List.append_eq_nil_iff.mp hidle).1

/-- **Reservations are sound.**  Along every run whose steps are reliable, an SC
that writes is entitled to by the past, an LR enables one at most, and an SC that
completes without writing only reports so. -/
theorem reservation_sound :
    (∀ (start m : Machine B S) (past : List Happening) (addr : BitVec 64),
      start.cpu.reservation = none → Past start past m → ScWrites m addr → Entitles addr past) ∧
    (∀ (start m after m' : Machine B S) (past later : List Happening) (addr addr' : BitVec 64),
      start.cpu.reservation = none → Past start past m → ScWrites m addr → m.Reliable →
        m.act .step = some after → Past after later m' → ScWrites m' addr' →
          .reserved addr' ∈ later) ∧
    ∀ (memory : Memory) (m fetched after : Machine B S) (insn : Insn) (len : BitVec 64),
      Holds memory m.bus.cache → fetchInsn.run m = .ok (insn, len) fetched → isSc insn →
        step.run m = .ok ⟨⟩ after → written (newAccesses m after) = [] →
          ScRefused insn memory after := by
  have hentitles {start m : Machine B S} {past : List Happening} {addr : BitVec 64}
      (hstart : start.cpu.reservation = none) (hpast : Past start past m)
      (hwrites : ScWrites m addr) : Entitles addr past :=
    hpast.backed hstart addr hwrites.reserved
  refine ⟨?_, ?_, ?_⟩
  · exact fun _ _ _ _ hstart hpast hwrites => hentitles hstart hpast hwrites
  · intro start m after m' past later addr addr' hstart hpast hwrites hreliable hact hlater hwrites'
    have hwhole := (hpast.step hreliable hact).trans hlater
    have hboth := hentitles hstart hwhole hwrites'
    rw [hwrites.happened] at hboth
    exact exists_reserved hboth
  · exact fun _ _ _ _ _ _ hm hfetch hsc hstep hidle => refused_of_idle hm hfetch hsc hstep hidle

end Sound

/-! `lr.d x3, (x1)`, and then `sc.d x4, x2, (x1)`. -/

def lrThenSc : Machine FakeBacking (List LittleEndian.Byte) :=
  overPages (firstPage [0x1820B22F1000B1AF]) ((Cpu.new 0x80000000).setReg 1 0x80000100)

/-- The SC is entitled to the address of the LR. -/
theorem reservation_sound_lrThenSc :
    ∃ past m, Past lrThenSc past m ∧ ScWrites m 0x80000100 ∧ Entitles 0x80000100 past := by
  have hstep : (step.run lrThenSc).value = some ⟨⟩ := by decide +kernel
  have hact : (lrThenSc.act .step).isSome := by decide +kernel
  have hvalue : ((lrThenSc.act .step).bind fun m => (fetchInsn.run m).value) =
      some (0x1820B22F, 4) := by
    decide +kernel
  have haddr : ((lrThenSc.act .step).bind fun m =>
      match fetchInsn.run m with
      | .ok _ fetched => atomicAddr 0x1820B22F fetched
      | _ => none) = some 0x80000100 := by
    decide +kernel
  have hwritten : ((lrThenSc.act .step).bind fun m => (step.run m).reply.map fun reply =>
      (written (newAccesses m reply.2)).length) = some 1 := by
    decide +kernel
  obtain ⟨m, hm⟩ := Option.isSome_iff_exists.mp hact
  rw [hm, Option.bind_some] at hvalue haddr hwritten
  obtain ⟨fetched, hfetch⟩ := Outcome.eq_ok_of_value hvalue
  obtain ⟨⟨result, after⟩, hreply, hlength⟩ := Option.map_eq_some_iff.mp hwritten
  simp only [hfetch] at haddr
  have hwrites : ScWrites m 0x80000100 := by
    refine ⟨_, _, _, _, _, hfetch, by decide, haddr, hreply, ?_⟩
    intro hnil
    rw [hnil] at hlength
    exact absurd hlength (by decide)
  have hreliable : lrThenSc.Reliable := by
    intro addr after herr
    rw [herr] at hstep
    cases hstep
  obtain ⟨past, hpast⟩ : ∃ past, Past lrThenSc past m := ⟨_, Past.start.step hreliable hm⟩
  exact ⟨past, m, hpast, hwrites, reservation_sound.1 lrThenSc m past _ rfl hpast hwrites⟩

end Machine

end Baonix.Core

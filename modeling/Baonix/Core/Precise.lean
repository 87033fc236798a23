import Baonix.Core.AccessSpecs
import Baonix.Core.Runs

/-!
# Precise exceptions

Every instruction does what can fail before it changes a register, so that a
failed step leaves the registers alone.  Memory is another matter: the bytes of
a store that crosses into a second page are stored one by one.
-/

namespace Baonix.Core

open Baonix.LittleEndian
open Exec (Keeps Restores Total)
open PageCache (Holds)

namespace Machine

variable {B S : Type}

/-! ## Decoders in turn -/

/-- A decoder that fails or declines has changed nothing of note. -/
def Declines (related : Machine B S → Machine B S → Prop) (program : MachineM B S Bool) : Prop :=
  ∀ m, Exec.wp program (fun handled after => handled = false → related m after)
    (fun _ after => related m after) True m

namespace Declines

variable {related : Machine B S → Machine B S → Prop}

theorem of_keeps {program : MachineM B S Bool} (hkeeps : Keeps related program) :
    Declines related program :=
  fun m => (hkeeps m).imp_post (fun _ _ hafter _ => hafter)

/-- Work that only a failure undoes, and then the answer that it was done. -/
theorem of_restores {Value : Type} {program : MachineM B S Value}
    (hrestores : Restores related program) : Declines related (do let _ ← program; pure true) := by
  intro m
  rw [Exec.wp_bind]
  exact (hrestores m).imp_post (fun _ _ _ heq => Bool.noConfusion heq)

protected theorem ite {condition : Prop} [Decidable condition] {first second : MachineM B S Bool}
    (hfirst : Declines related first) (hsecond : Declines related second) :
    Declines related (if condition then first else second) := by
  split
  · exact hfirst
  · exact hsecond

variable [IsPreorder (Machine B S) related]

protected theorem bind {Value : Type} {program : MachineM B S Value}
    {next : Value → MachineM B S Bool} (hprogram : Keeps related program)
    (hnext : ∀ value, Declines related (next value)) : Declines related (program >>= next) := by
  intro m
  rw [Exec.wp_bind]
  exact (hprogram m).imp_post
    (fun value middle hmiddle => (hnext value middle).imp
      (fun _ _ hafter heq => trans_of related hmiddle (hafter heq))
      (fun _ _ hafter => trans_of related hmiddle hafter) (fun hpanics => hpanics))

/-- The second decoder is asked if the first declines. -/
theorem orElse {first second : MachineM B S Bool} (hfirst : Declines related first)
    (hsecond : Declines related second) :
    Declines related (do if ← first then pure true else second) := by
  intro m
  rw [Exec.wp_bind]
  apply (hfirst m).imp_post
  intro handled middle hmiddle
  cases handled with
  | true => exact fun heq => Bool.noConfusion heq
  | false =>
      exact (hsecond middle).imp
        (fun _ _ hafter heq => trans_of related (hmiddle rfl) (hafter heq))
        (fun _ _ hafter => trans_of related (hmiddle rfl) hafter) (fun hpanics => hpanics)

omit [IsPreorder (Machine B S) related] in
/-- An instruction no decoder takes is refused. -/
theorem refuse {program : MachineM B S Bool} (hprogram : Declines related program)
    (err : Exception) : Restores related (do if ← program then pure () else Exec.raise err) := by
  intro m
  rw [Exec.wp_bind]
  apply (hprogram m).imp_post
  intro handled middle hmiddle
  cases handled with
  | true => trivial
  | false => exact hmiddle rfl

end Declines

/-! ## Registers -/

/-- The registers of the machine are as before. -/
structure SameCore (start after : Machine B S) : Prop where
  regs : after.cpu.regs = start.cpu.regs
  pc : after.cpu.pc = start.cpu.pc
  instret : after.cpu.instret = start.cpu.instret
  csrs : after.cpu.csrs = start.cpu.csrs
  priv : after.cpu.priv = start.cpu.priv

instance : IsPreorder (Machine B S) SameCore where
  refl _ := ⟨rfl, rfl, rfl, rfl, rfl⟩
  trans _ _ _ hleft hright :=
    ⟨hright.regs.trans hleft.regs, hright.pc.trans hleft.pc,
      hright.instret.trans hleft.instret, hright.csrs.trans hleft.csrs,
      hright.priv.trans hleft.priv⟩

theorem total_onCpu (change : Cpu → Cpu) : Total (onCpu change : MachineM B S PUnit) :=
  .update _

theorem declines_illegal (insn : Insn) :
    Declines SameCore (Rv64i.illegal insn : MachineM B S Bool) :=
  .of_keeps (.raise _)

theorem declines_retire (insn : Insn) (value : Option (BitVec 64)) :
    Declines SameCore (Rv64i.retire insn value : MachineM B S Bool) := by
  cases value with
  | none => exact declines_illegal insn
  | some v => exact .of_restores (.of_total (total_onCpu _))

theorem declines_rv64m (insn : Insn) :
    Declines SameCore (Rv64m.execute insn : MachineM B S Bool) := by
  unfold Rv64m.execute
  apply Declines.ite (.of_keeps (.pure _))
  apply Declines.bind .read
  intro m
  apply Declines.ite
  · split
    · exact .of_keeps (.raise _)
    · exact .of_restores (.of_total (total_onCpu _))
  apply Declines.ite _ (.of_keeps (.pure _))
  split
  · exact .of_keeps (.raise _)
  · exact .of_restores (.of_total (total_onCpu _))

theorem declines_privileged (insn : Insn) :
    Declines SameCore (Rv64i.privileged insn : MachineM B S Bool) := by
  apply Declines.bind .read
  intro m
  dsimp only
  split_ifs
  · exact .of_keeps (.raise _)
  · exact .of_keeps (.raise _)
  · exact .of_restores (.of_total (total_onCpu _))
  · exact .of_restores (.of_total (total_onCpu _))
  · exact .of_keeps (.pure _)
  · exact .of_restores (.of_total (.update _))
  · exact declines_illegal insn

theorem declines_csrAccess (insn : Insn) :
    Declines SameCore (Rv64i.csrAccess insn : MachineM B S Bool) := by
  have happly (new : BitVec 64) : Total (Rv64i.applyCsr insn new : MachineM B S PUnit) :=
    .ite (.bind (total_onCpu _) fun _ => .ite (.update _) (.pure _)) (.pure _)
  have hupdate (old new : BitVec 64) :
      Declines SameCore (Rv64i.updateCsr insn old new : MachineM B S Bool) := by
    intro m
    rw [Rv64i.updateCsr, Exec.wp_bind]
    apply (happly new m).imp _ (fun _ _ hfalse => hfalse.elim) (fun hpanics => hpanics)
    exact fun _ _ _ heq => Bool.noConfusion heq
  apply Declines.bind .read
  intro m
  apply Declines.ite (declines_illegal insn)
  apply Declines.ite (declines_illegal insn)
  dsimp only
  split
  · exact declines_illegal insn
  · exact hupdate _ _

theorem declines_executeRegister (insn : Insn) :
    Declines SameCore (Rv64i.executeRegister insn : MachineM B S Bool) := by
  have hjump (target : BitVec 64) : Keeps SameCore (jump target : MachineM B S PUnit) :=
    .update fun _ => ⟨rfl, rfl, rfl, rfl, rfl⟩
  apply Declines.bind .read
  intro m
  dsimp only
  split
  · exact declines_retire insn _
  · exact declines_retire insn _
  · exact declines_retire insn _
  · exact declines_retire insn _
  · exact declines_retire insn _
  · exact declines_retire insn _
  · split
    · exact declines_illegal insn
    · exact .of_restores (.of_total (total_onCpu _))
    · exact .of_keeps (.pure _)
  · exact .bind (hjump _) fun _ => declines_retire insn _
  · exact .bind (hjump _) fun _ => declines_retire insn _
  · split
    · exact .of_keeps (.pure _)
    · exact .of_keeps (.pure _)
    · exact declines_illegal insn
  · exact .of_keeps (.pure _)

section

variable [MemBacking B] [ConsoleSink S]

omit [ConsoleSink S] in
theorem sameCore_reads (kind : Access) : Reads kind (@SameCore B S) where
  translate vaddr := translate_keeps (fun _ _ => ⟨rfl, rfl, rfl, rfl, rfl⟩)
    (fun _ _ => ⟨rfl, rfl, rfl, rfl, rfl⟩) vaddr kind
  busLoad := busLoad_keeps (fun _ _ _ _ => ⟨rfl, rfl, rfl, rfl, rfl⟩)
    (fun _ _ => ⟨rfl, rfl, rfl, rfl, rfl⟩) kind

theorem sameCore_accesses : Accesses (@SameCore B S) where
  reserve _ _ := ⟨rfl, rfl, rfl, rfl, rfl⟩
  translate := translate_keeps (fun _ _ => ⟨rfl, rfl, rfl, rfl, rfl⟩)
    (fun _ _ => ⟨rfl, rfl, rfl, rfl, rfl⟩)
  busLoad := busLoad_keeps (fun _ _ _ _ => ⟨rfl, rfl, rfl, rfl, rfl⟩)
    (fun _ _ => ⟨rfl, rfl, rfl, rfl, rfl⟩)
  busStore := busStore_keeps (fun _ _ _ _ => ⟨rfl, rfl, rfl, rfl, rfl⟩)
    (fun _ _ => ⟨rfl, rfl, rfl, rfl, rfl⟩)

omit [ConsoleSink S] in
theorem declines_load (insn : Insn) :
    Declines SameCore (Rv64i.load insn : MachineM B S Bool) := by
  apply Declines.bind .read
  intro m
  dsimp only
  split
  · exact declines_illegal insn
  · exact .bind ((sameCore_reads .load).readTranslated_keeps _ _) fun _ =>
      declines_retire insn _

theorem declines_store (insn : Insn) :
    Declines SameCore (Rv64i.store insn : MachineM B S Bool) := by
  apply Declines.bind .read
  intro m
  dsimp only
  split
  · exact declines_illegal insn
  · exact .of_keeps (.bind (sameCore_accesses.writeTranslated_keeps _ _ _) fun _ => .pure _)

theorem declines_rv64a (insn : Insn) :
    Declines SameCore (Rv64a.execute insn : MachineM B S Bool) := by
  have hperform (addr src : BitVec 64) (size : ℕ) :
      Restores SameCore (Rv64a.perform insn addr src size : MachineM B S PUnit) := by
    apply Restores.ite
    · exact .bind (sameCore_accesses.busLoad _ _ _) fun _ =>
        .of_total (.bind (total_onCpu _) fun _ => total_onCpu _)
    apply Restores.ite
    · apply Restores.bind .read
      intro m
      apply Restores.bind (.update fun m => sameCore_accesses.reserve m none)
      intro _
      exact .ite (.bind (sameCore_accesses.busStore _ _ _) fun _ => .of_total (total_onCpu _))
        (.of_total (total_onCpu _))
    · apply Restores.bind (sameCore_accesses.busLoad _ _ _)
      intro old
      split
      · exact .raise _
      · exact .bind (sameCore_accesses.busStore _ _ _) fun _ =>
          .of_total (.bind (total_onCpu _) fun _ => total_onCpu _)
  unfold Rv64a.execute
  apply Declines.ite (.of_keeps (.pure _))
  split
  · exact .of_keeps (.raise _)
  · exact .bind .read fun _ => .bind (sameCore_accesses.translate _ _) fun _ =>
      .of_restores (hperform _ _ _)

theorem execute_restores (insn : Insn) :
    Restores SameCore (execute insn : MachineM B S PUnit) := by
  have hrv64i : Declines SameCore (Rv64i.execute insn : MachineM B S Bool) :=
    .ite (declines_load insn) (.ite (declines_store insn)
      (.ite (.ite (declines_privileged insn) (declines_csrAccess insn))
        (declines_executeRegister insn)))
  have hhandled : Declines SameCore (handled insn : MachineM B S Bool) :=
    (declines_rv64m insn).orElse ((declines_rv64a insn).orElse hrv64i)
  exact hhandled.refuse _

/-- A step that fails leaves the registers as they were. -/
theorem step_restores : Restores SameCore (step : MachineM B S PUnit) := by
  apply Restores.bind (sameCore_reads .fetch).fetchInsn_keeps
  intro fetched
  apply Restores.bind (.update fun _ => ⟨rfl, rfl, rfl, rfl, rfl⟩)
  intro _
  exact (execute_restores fetched.1).bind_total fun _ => total_onCpu _

end

/-! ## Memory -/

section

variable [FlatBacking B]

/-- RAM holds what it held. -/
def SameRam (start after : Machine B S) : Prop :=
  ∀ m, Holds m start.bus.cache → Holds m after.bus.cache

instance : IsPreorder (Machine B S) SameRam where
  refl _ _ hm := hm
  trans _ _ _ hleft hright m hm := hright m (hleft m hm)

/-- What is proved about the memory a machine stands for. -/
theorem sameRam_of_spec {Value : Type} {program : MachineM B S Value}
    (hprogram : ∀ (m : Memory) (machine : Machine B S), Holds m machine.bus.cache →
      Exec.wp program (fun _ after => Holds m after.bus.cache)
        (fun _ after => Holds m after.bus.cache) False machine) : Keeps SameRam program := by
  intro machine
  by_cases hholds : ∃ m, Holds m machine.bus.cache
  · obtain ⟨m, hm⟩ := hholds
    have hsame {after : Machine B S} (hafter : Holds m after.bus.cache) :
        SameRam machine after := by
      intro other hother
      rw [← hother.memory, hm.memory]
      exact hafter
    exact (hprogram m machine hm).imp (fun _ _ hafter => hsame hafter)
      (fun _ _ hafter => hsame hafter) (fun _ => trivial)
  · exact (Exec.wp_any program machine).imp
      (fun _ _ _ m hm => absurd ⟨m, hm⟩ hholds) (fun _ _ _ m hm => absurd ⟨m, hm⟩ hholds)
      (fun _ => trivial)

theorem sameRam_reads (kind : Access) : Reads kind (@SameRam B S _) where
  translate vaddr := sameRam_of_spec fun _ _ hm => (translate_spec hm vaddr kind).imp
    (fun _ _ hafter => hafter.2.holds) (fun _ _ hafter => hafter.2.holds) (fun hfalse => hfalse)
  busLoad addr size := sameRam_of_spec fun _ _ hm => (busLoad_spec hm kind addr size).imp
    (fun _ _ hafter => hafter.1.holds) (fun _ _ hafter => hafter.1.holds) (fun hfalse => hfalse)

theorem sameRam_registers : Registers (@SameRam B S _) where
  setReg _ _ _ _ hm := hm
  jump _ _ _ _ hm := hm

theorem sameRam_system (insn : Insn) :
    Keeps SameRam (Rv64i.privileged insn : MachineM B S Bool) ∧
      Keeps SameRam (Rv64i.csrAccess insn : MachineM B S Bool) := by
  have hcpu (change : Cpu → Cpu) : Keeps SameRam (onCpu change : MachineM B S PUnit) :=
    .update fun _ _ hm => hm
  have hflush : Keeps SameRam (flushMmu : MachineM B S PUnit) := .update fun _ _ hm => hm
  constructor
  · apply Keeps.bind .read
    intro m
    dsimp only
    split_ifs
    · exact .raise _
    · exact .raise _
    · exact .bind (hcpu _) fun _ => .pure _
    · exact .bind (hcpu _) fun _ => .pure _
    · exact .pure _
    · exact .bind hflush fun _ => .pure _
    · exact .raise _
  · apply Keeps.bind .read
    intro m
    apply Keeps.ite (.raise _)
    apply Keeps.ite (.raise _)
    dsimp only
    split
    · exact .raise _
    · exact .bind (.ite (.bind (hcpu _) fun _ => .ite hflush (.pure _)) (.pure _)) fun _ =>
        .bind (hcpu _) fun _ => .pure _

variable [ConsoleSink S]

/-- Only stores and atomics write memory. -/
theorem execute_sameRam {insn : Insn} (hstore : Insn.opcode insn ≠ 0x23)
    (hatomic : Insn.opcode insn ≠ 0x2F) :
    Keeps SameRam (execute insn : MachineM B S PUnit) :=
  sameRam_registers.dispatch_keeps insn (fun hopcode => absurd hopcode hatomic)
    (fun _ => sameRam_registers.load_keeps (sameRam_reads .load) insn)
    (fun hopcode => absurd hopcode hstore) (fun _ _ => (sameRam_system insn).1)
    (fun _ _ => (sameRam_system insn).2)

/-- Memory `left` when the store of the leading bytes alone has completed. -/
def LeadingBytes (vaddr value : BitVec 64) (count : ℕ) (start : Machine B S) (left : Memory) :
    Prop :=
  ∃ done, (writeEach vaddr value (List.range count)).run start = .ok () done ∧
    Holds left done.bus.cache

/-- A straddling write that fails has stored the bytes before the one it failed
at. -/
theorem writeEach_spec (vaddr value : BitVec 64) (offsets : List ℕ) {m : Memory}
    {machine : Machine B S} (hm : Holds m machine.bus.cache) :
    Exec.wp (writeEach vaddr value offsets) (fun _ after => ∃ left, Holds left after.bus.cache)
      (fun _ after => ∃ first last done left, offsets = first ++ last ∧ last ≠ [] ∧
        (writeEach vaddr value first).run machine = .ok () done ∧
        Holds left done.bus.cache ∧ Holds left after.bus.cache) False machine := by
  induction offsets generalizing m machine with
  | nil => exact ⟨m, hm⟩
  | cons i rest ih =>
      rw [writeEach, Exec.wp_bind]
      apply (translate_spec hm (vaddr + BitVec.ofNat 64 i) .store).attach.imp
      · rintro pa middle ⟨hpa, -, hmiddle⟩
        rw [Exec.wp_bind]
        apply (busStore_spec hmiddle.holds pa 1 ((value >>> (8 * i)) &&& 0xFF)).attach.imp
        · rintro _ next ⟨hstored, hnext, -⟩
          rw [Exec.wp_bind, onCpu, Exec.wp_update]
          have hholds : Holds (Bus.stored m pa 1 ((value >>> (8 * i)) &&& 0xFF))
              ({ next with cpu := next.cpu.invalidateReservation pa 1 } : Machine B S).bus.cache :=
            hnext
          apply (ih hholds).imp
          · exact fun _ _ hafter => hafter
          · rintro _ after ⟨first, last, done, left, rfl, hlast, hdone, hleft, hafter⟩
            refine ⟨i :: first, last, done, left, rfl, hlast, ?_, hleft, hafter⟩
            rw [writeEach, Exec.run_bind_ok hpa, Exec.run_bind_ok hstored]
            exact hdone
          · exact fun hfalse => hfalse
        · rintro err after ⟨-, hrefused⟩
          have hbyte : pa.toNat % Proto.pageSize + 1 ≤ Proto.pageSize :=
            Nat.mod_lt pa.toNat (by norm_num)
          exact ⟨[], i :: rest, machine, m, rfl, List.cons_ne_nil _ _, rfl, hm,
            hrefused.holds_of_one_page hbyte⟩
        · exact fun hfalse => hfalse
      · rintro err after ⟨-, -, hafter⟩
        exact ⟨[], i :: rest, machine, m, rfl, List.cons_ne_nil _ _, rfl, hm, hafter.holds⟩
      · exact fun hfalse => hfalse

/-- What an atomic stores, if anything. -/
def atomicStores (insn : Insn) (size : ℕ) (old src : BitVec 64) : Option (BitVec 64) :=
  if Rv64a.opOf insn = 0x02 then none
  else if Rv64a.opOf insn = 0x03 then some src
  else Rv64a.amo (Rv64a.opOf insn) size old src

/-- Memory `left` when a store or an atomic whose range crosses into a second
page has written a part of its bytes only, the leading ones. -/
inductive PartlyStored (insn : Insn) (start : Machine B S) (m left : Memory) : Prop
  | store (size count : ℕ) (hopcode : Insn.opcode insn = 0x23)
      (hsize : Rv64i.storeOf insn = some size)
      (hcrosses : ¬ fitsPage (start.cpu.reg (Insn.rs1 insn) + Insn.immS insn) size)
      (hcount : count < size)
      (hleft : LeadingBytes (start.cpu.reg (Insn.rs1 insn) + Insn.immS insn)
        (start.cpu.reg (Insn.rs2 insn)) count start left)
  | atomic (size count : ℕ) (pa value : BitVec 64) (middle : Machine B S)
      (hopcode : Insn.opcode insn = 0x2F) (hsize : Rv64a.sizeOf insn = some size)
      (hcrosses : ¬ fitsPage (start.cpu.reg (Insn.rs1 insn)) size)
      (hpa : (translate (start.cpu.reg (Insn.rs1 insn)) .store).run start = .ok pa middle)
      (hvalue : atomicStores insn size (BitVec.ofNat 64 (ofBytes (m.read pa.toNat size)))
        (start.cpu.reg (Insn.rs2 insn)) = some value)
      (hcount : count < size)
      (hleft : left = m.write pa.toNat ((Bus.bytesOf size value).take count))

/-- Memory after an instruction that failed. -/
def FailedLeaving (insn : Insn) (start : Machine B S) (m : Memory) (after : Machine B S) : Prop :=
  ∃ left, Holds left after.bus.cache ∧ (left = m ∨ PartlyStored insn start m left)

theorem FailedLeaving.of_holds {insn : Insn} {start after : Machine B S} {m : Memory}
    (hafter : Holds m after.bus.cache) : FailedLeaving insn start m after :=
  ⟨m, hafter, .inl rfl⟩

theorem store_failed {insn : Insn} (hopcode : Insn.opcode insn = 0x23) {m : Memory}
    {machine : Machine B S} (hm : Holds m machine.bus.cache) :
    Exec.wp (Rv64i.store insn) (fun _ _ => True)
      (fun _ after => FailedLeaving insn machine m after) True machine := by
  rw [Rv64i.store, Exec.wp_bind, Exec.wp_read]
  cases hsize : Rv64i.storeOf insn with
  | none => exact .of_holds hm
  | some size =>
      dsimp only
      rw [Exec.wp_bind, vstore, writeTranslated, Exec.wp_ite]
      split
      · next hfits =>
          rw [Exec.wp_bind]
          apply (translate_spec hm _ .store).imp
          · rintro pa middle ⟨hoffset, hmiddle⟩
            rw [Exec.wp_bind]
            apply (busStore_spec hmiddle.holds pa size _).imp
            · exact fun _ _ _ => trivial
            · exact fun _ _ hrefused =>
                .of_holds (hrefused.holds_of_one_page (fitsPage_of_offset hoffset hfits))
            · exact fun hfalse => hfalse.elim
          · exact fun _ _ hafter => .of_holds hafter.2.holds
          · exact fun hfalse => hfalse.elim
      · next hcrosses =>
          apply (writeEach_spec _ _ (List.range size) hm).imp
          · exact fun _ _ _ => trivial
          · rintro err after ⟨first, last, done, left, hrange, hlast, hdone, hleft, hafter⟩
            have hcount : first.length < size := by
              have hlength := congrArg List.length hrange
              rw [List.length_range, List.length_append] at hlength
              have hpos := List.length_pos_of_ne_nil hlast
              omega
            have hfirst : first = List.range first.length := by
              have htake := congrArg (List.take first.length) hrange
              rw [List.take_left, List.take_range, min_eq_left hcount.le] at htake
              exact htake.symm
            rw [hfirst] at hdone
            exact ⟨left, hafter, .inr (.store size first.length hopcode hsize hcrosses hcount
              ⟨done, hdone, hleft⟩)⟩
          · exact fun hfalse => hfalse.elim

/-- A store of an atomic fails as a whole unless it crosses into a second page. -/
theorem atomic_store_failed {insn : Insn} (hopcode : Insn.opcode insn = 0x2F) {size : ℕ}
    (hsize : Rv64a.sizeOf insn = some size) {m : Memory} {start middle : Machine B S}
    {pa value old : BitVec 64} {err : Exception} {after : Machine B S}
    (hpa : (translate (start.cpu.reg (Insn.rs1 insn)) .store).run start = .ok pa middle)
    (hoffset : pa &&& 0xFFF = start.cpu.reg (Insn.rs1 insn) &&& 0xFFF)
    (hold : Bus.inRam pa size → old = BitVec.ofNat 64 (ofBytes (m.read pa.toNat size)))
    (hvalue : atomicStores insn size old (start.cpu.reg (Insn.rs2 insn)) = some value)
    (hrefused : Bus.StoreRefused m pa size value err after.bus) :
    FailedLeaving insn start m after := by
  by_cases hfits : fitsPage (start.cpu.reg (Insn.rs1 insn)) size
  · exact .of_holds (hrefused.holds_of_one_page (fitsPage_of_offset hoffset hfits))
  · rcases hrefused with ⟨-, -, hafter⟩ | ⟨-, hram, -, left, hleft, hafter⟩
    · exact .of_holds hafter
    · rcases hleft with rfl | ⟨done, hdone, -, hleft⟩
      · exact .of_holds hafter
      · rw [hold hram] at hvalue
        have hlength : (Bus.bytesOf size value).length ≤ size := List.length_take_le ..
        exact ⟨left, hafter, .inr (.atomic size done pa value middle hopcode hsize hfits hpa
          hvalue (hdone.trans_le hlength) hleft)⟩

theorem atomic_failed {insn : Insn} (hopcode : Insn.opcode insn = 0x2F) {m : Memory}
    {machine : Machine B S} (hm : Holds m machine.bus.cache) :
    Exec.wp (Rv64a.execute insn) (fun _ _ => True)
      (fun _ after => FailedLeaving insn machine m after) True machine := by
  have hend {Value : Type} {program : MachineM B S Value} (htotal : Total program)
      (state : Machine B S) : Exec.wp program (fun _ _ => True)
        (fun _ after => FailedLeaving insn machine m after) True state :=
    (htotal state).imp (fun _ _ _ => trivial) (fun _ _ hfalse => hfalse.elim)
      (fun hpanics => hpanics)
  rw [Rv64a.execute, if_neg (not_not_intro hopcode)]
  cases hsize : Rv64a.sizeOf insn with
  | none => exact .of_holds hm
  | some size =>
      dsimp only
      rw [Exec.wp_bind, Exec.wp_read, Exec.wp_bind]
      apply (translate_spec hm _ .store).attach.imp
      · rintro pa middle ⟨hpa, hoffset, hmiddle⟩
        rw [Exec.wp_bind, Rv64a.perform, Exec.wp_ite]
        split
        · rw [Rv64a.loadReserved, Exec.wp_bind]
          apply (busLoad_spec hmiddle.holds .load pa size).imp
          · exact fun _ next _ => hend (.bind (total_onCpu _) fun _ => total_onCpu _) next
          · exact fun _ _ hafter => .of_holds hafter.1.holds
          · exact fun hfalse => hfalse.elim
        rw [Exec.wp_ite]
        split
        · next hnotLr hsc =>
          rw [Rv64a.storeConditional, Exec.wp_bind, Exec.wp_read, Exec.wp_bind, onCpu,
            Exec.wp_update, Exec.wp_ite]
          have hvalue : atomicStores insn size (BitVec.ofNat 64 (ofBytes (m.read pa.toNat size)))
              (machine.cpu.reg (Insn.rs2 insn)) = some (machine.cpu.reg (Insn.rs2 insn)) := by
            rw [atomicStores, if_neg hnotLr, if_pos hsc]
          split
          · rw [Exec.wp_bind]
            have hcleared : Holds m ({ middle with
                cpu := { middle.cpu with reservation := none } } : Machine B S).bus.cache :=
              hmiddle.holds
            apply (busStore_spec hcleared pa size (machine.cpu.reg (Insn.rs2 insn))).imp
            · exact fun _ next _ => hend (total_onCpu _) next
            · exact fun _ _ hrefused => atomic_store_failed hopcode hsize hpa hoffset
                (fun _ => rfl) hvalue hrefused
            · exact fun hfalse => hfalse.elim
          · exact hend (total_onCpu _) _
        · next hnotLr hnotSc =>
          rw [Rv64a.readModifyWrite, Exec.wp_bind]
          apply (busLoad_spec hmiddle.holds .load pa size).imp
          · rintro old next ⟨hnext, -, hold⟩
            cases hvalue : Rv64a.amo (Rv64a.opOf insn) size old
                (machine.cpu.reg (Insn.rs2 insn)) with
            | none => exact .of_holds hnext.holds
            | some value =>
                dsimp only
                rw [Exec.wp_bind]
                apply (busStore_spec hnext.holds pa size value).imp
                · exact fun _ last _ => hend (.bind (total_onCpu _) fun _ => total_onCpu _) last
                · intro err after hrefused
                  have hloaded (hram : Bus.inRam pa size) :
                      old = BitVec.ofNat 64 (ofBytes (m.read pa.toNat size)) := by
                    rw [hold, Bus.answer, if_pos hram]
                  have hstores : atomicStores insn size old
                      (machine.cpu.reg (Insn.rs2 insn)) = some value := by
                    rw [atomicStores, if_neg hnotLr, if_neg hnotSc]
                    exact hvalue
                  exact atomic_store_failed hopcode hsize hpa hoffset hloaded hstores hrefused
                · exact fun hfalse => hfalse.elim
          · exact fun _ _ hafter => .of_holds hafter.1.holds
          · exact fun hfalse => hfalse.elim
      · exact fun _ _ hafter => .of_holds hafter.2.2.holds
      · exact fun hfalse => hfalse.elim

theorem execute_failed (insn : Insn) {m : Memory} {machine : Machine B S}
    (hm : Holds m machine.bus.cache) :
    Exec.wp (execute insn) (fun _ _ => True)
      (fun _ after => FailedLeaving insn machine m after) True machine := by
  by_cases hstore : Insn.opcode insn = 0x23
  · rw [execute_store hstore, Exec.wp_bind]
    exact store_failed hstore hm
  by_cases hatomic : Insn.opcode insn = 0x2F
  · rw [execute_atomic hatomic, Exec.wp_bind]
    exact atomic_failed hatomic hm
  · exact (execute_sameRam hstore hatomic machine).imp (fun _ _ _ => trivial)
      (fun _ _ hafter => .of_holds (hafter m hm)) (fun hpanics => hpanics)

/-- **Exceptions are precise.**  A step that fails leaves every register as it
was, and RAM too, but for the leading bytes of a store or an atomic whose range
crosses into a second page and which fails at a later byte. -/
theorem exceptions_precise {m : Memory} {machine after : Machine B S} {err : Exception}
    (hm : Holds m machine.bus.cache) (hstep : step.run machine = .error err after) :
    SameCore machine after ∧ ∃ left, Holds left after.bus.cache ∧
      (left = m ∨ ∃ insn len fetched, fetchInsn.run machine = .ok (insn, len) fetched ∧
        PartlyStored insn { fetched with cpu := fetched.cpu.begin len } m left) := by
  refine ⟨(step_restores machine).of_run_error hstep, ?_⟩
  have hmemory : Exec.wp step (fun _ _ => True) (fun _ after => ∃ left, Holds left after.bus.cache ∧
      (left = m ∨ ∃ insn len fetched, fetchInsn.run machine = .ok (insn, len) fetched ∧
        PartlyStored insn { fetched with cpu := fetched.cpu.begin len } m left)) True machine := by
    rw [step, Exec.wp_bind]
    apply ((sameRam_reads .fetch).fetchInsn_keeps machine).attach.imp
    · rintro ⟨insn, len⟩ fetched ⟨hfetch, hfetched⟩
      dsimp only
      rw [executeFetched, Exec.wp_bind, onCpu, Exec.wp_update, Exec.wp_bind]
      have hbegun : Holds m ({ fetched with cpu := fetched.cpu.begin len } :
          Machine B S).bus.cache := hfetched m hm
      apply (execute_failed insn hbegun).imp
      · exact fun _ _ _ => trivial
      · rintro err after ⟨left, hafter, hleft⟩
        exact ⟨left, hafter, hleft.imp_right fun hpartly => ⟨insn, len, fetched, hfetch, hpartly⟩⟩
      · exact fun hpanics => hpanics
    · exact fun _ _ hafter => ⟨m, hafter.2 m hm, .inl rfl⟩
    · exact fun hpanics => hpanics
  exact hmemory.of_run_error hstep

end

/-- `sd x2, 0(x1)` four bytes before the end of RAM. -/
def storeOverEnd : Machine FakeBacking (List Byte) :=
  overPages (firstPage [0x0020B023])
    (({ Cpu.new 0x80000000 with priv := .s }.setReg 1 0x81FFFFFC).setReg 2 0x1122334455667788)

/-- The store fails at its fifth byte. -/
theorem exceptions_precise_storeOverEnd :
    ∃ after, step.run storeOverEnd = .error (.storeAccessFault 0x82000000) after ∧
      SameCore storeOverEnd after := by
  have hfault : ((step.run storeOverEnd).reply.bind fun reply =>
      match reply.1 with
      | .error err => some err
      | .ok _ => none) = some (.storeAccessFault 0x82000000) := by
    decide +kernel
  cases hstep : step.run storeOverEnd with
  | ok value after => rw [hstep] at hfault; cases hfault
  | error err after =>
      rw [hstep] at hfault
      have herr : err = .storeAccessFault 0x82000000 := Option.some.inj hfault
      rw [herr] at hstep ⊢
      exact ⟨after, rfl, (exceptions_precise (Sv39.holds_busOver _) hstep).1⟩
  | panic => rw [hstep] at hfault; cases hfault

end Machine

end Baonix.Core

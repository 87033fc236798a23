import Baonix.Core.Step

/-!
# What an instruction can change

Every instruction is made of a few parts: translations, accesses of the bus,
writes of registers and of the reservation, jumps.  A relation between states
that all parts keep is kept by the instruction.  The SYSTEM instructions change
what they like, so a property has to look at them itself.
-/

namespace Baonix.Core

open Exec (Keeps)

/-- An address instructions may start at. -/
def halfwordAligned (addr : BitVec 64) : Prop := addr.toNat % 2 = 0

instance (addr : BitVec 64) : Decidable (halfwordAligned addr) := Nat.decEq ..

theorem halfwordAligned_add {a b : BitVec 64} (ha : halfwordAligned a) (hb : halfwordAligned b) :
    halfwordAligned (a + b) := by
  unfold halfwordAligned at ha hb ⊢
  rw [BitVec.toNat_add]
  omega

theorem halfwordAligned_iff (addr : BitVec 64) :
    halfwordAligned addr ↔ addr.getLsbD 0 = false := by
  unfold halfwordAligned
  rw [BitVec.getLsbD, Nat.testBit_zero, decide_eq_false_iff_not]
  omega

theorem halfwordAligned_extend {v : BitVec 32} (hv : v.getLsbD 0 = false) :
    halfwordAligned (Insn.extend v) := by
  rw [halfwordAligned_iff, Insn.extend, BitVec.getLsbD_signExtend]
  simp only [hv, Nat.zero_lt_succ, decide_true, if_true, Bool.and_false]

theorem halfwordAligned_immB (insn : Insn) : halfwordAligned (Insn.immB insn) := by
  apply halfwordAligned_extend
  simp only [BitVec.getLsbD_sshiftRight, BitVec.getLsbD_shiftLeft, BitVec.getLsbD_or]
  simp

theorem halfwordAligned_immJ (insn : Insn) : halfwordAligned (Insn.immJ insn) := by
  apply halfwordAligned_extend
  simp only [BitVec.getLsbD_sshiftRight, BitVec.getLsbD_shiftLeft, BitVec.getLsbD_or]
  simp

theorem halfwordAligned_and_not_one (v : BitVec 64) : halfwordAligned (v &&& ~~~1) := by
  rw [halfwordAligned_iff]
  simp

namespace Machine

variable {B S : Type} [MemBacking B] [ConsoleSink S]
variable {related : Machine B S → Machine B S → Prop}

/-- The relation holds over each part of a read. -/
structure Reads (kind : Access) (related : Machine B S → Machine B S → Prop) : Prop where
  translate : ∀ vaddr, Keeps related (Machine.translate vaddr kind)
  busLoad : ∀ addr size, Keeps related (Machine.busLoad kind addr size)

/-- The relation holds over each access of memory. -/
structure Accesses (related : Machine B S → Machine B S → Prop) : Prop where
  reserve : ∀ (m : Machine B S) reservation,
    related m { m with cpu := { m.cpu with reservation := reservation } }
  translate : ∀ vaddr access, Keeps related (Machine.translate vaddr access)
  busLoad : ∀ kind addr size, Keeps related (Machine.busLoad kind addr size)
  busStore : ∀ addr size value, Keeps related (Machine.busStore addr size value)

/-- The relation holds over each change of registers. -/
structure Registers (related : Machine B S → Machine B S → Prop) : Prop where
  setReg : ∀ (m : Machine B S) i v, related m { m with cpu := m.cpu.setReg i v }
  jump : ∀ (m : Machine B S) target, (halfwordAligned m.cpu.pc → halfwordAligned target) →
    related m { m with cpu := m.cpu.jump target }

/-- The relation holds over each part of an instruction. -/
structure Framed (related : Machine B S → Machine B S → Prop) : Prop
    extends Accesses related, Registers related

/-- Invalidating a reservation at most clears it. -/
theorem exists_reservation (cpu : Cpu) (addr : BitVec 64) (size : ℕ) :
    ∃ reservation, cpu.invalidateReservation addr size =
      { cpu with reservation := reservation } := by
  unfold Cpu.invalidateReservation
  split
  · exact ⟨cpu.reservation, rfl⟩
  · split
    · exact ⟨none, rfl⟩
    · exact ⟨cpu.reservation, rfl⟩

namespace Reads

variable [IsPreorder (Machine B S) related] {kind : Access}

omit [ConsoleSink S] in
theorem readEach_keeps (hreads : Reads kind related) (vaddr : BitVec 64) (offsets : List ℕ) :
    Keeps related (readEach vaddr kind offsets : MachineM B S (List LittleEndian.Byte)) := by
  induction offsets with
  | nil => exact .pure _
  | cons i rest ih =>
      exact .bind (hreads.translate _) fun _ =>
        .bind (hreads.busLoad _ _) fun _ => .bind ih fun _ => .pure _

omit [ConsoleSink S] in
theorem readTranslated_keeps (hreads : Reads kind related) (vaddr : BitVec 64) (size : ℕ) :
    Keeps related (readTranslated vaddr size kind : MachineM B S (BitVec 64)) := by
  apply Keeps.ite
  · exact .bind (hreads.translate _) fun _ => hreads.busLoad _ _
  · exact .bind (hreads.readEach_keeps _ _) fun _ => .pure _

omit [ConsoleSink S] in
theorem fetch_keeps (hreads : Reads .fetch related) (size : ℕ) :
    Keeps related (fetch size : MachineM B S (BitVec 64)) :=
  .bind .read fun _ => .zoom_of (hreads.readTranslated_keeps _ _) fun _ _ hafter => hafter

omit [ConsoleSink S] in
theorem fetchInsn_keeps (hreads : Reads .fetch related) :
    Keeps related (fetchInsn : MachineM B S (Insn × BitVec 64)) := by
  apply Keeps.bind (hreads.fetch_keeps 2)
  intro half
  unfold decode
  apply Keeps.ite
  · exact .bind (hreads.fetch_keeps 4) fun _ => .pure _
  · split
    · exact .raise _
    · exact .pure _

end Reads

namespace Accesses

variable (haccesses : Accesses related)
include haccesses

theorem invalidate_keeps (addr : BitVec 64) (size : ℕ) :
    Keeps related (onCpu (·.invalidateReservation addr size) : MachineM B S PUnit) := by
  apply Keeps.update
  intro m
  obtain ⟨reservation, heq⟩ := exists_reservation m.cpu addr size
  simp only [heq]
  exact haccesses.reserve m reservation

variable [IsPreorder (Machine B S) related]

theorem writeEach_keeps (vaddr value : BitVec 64) (offsets : List ℕ) :
    Keeps related (writeEach vaddr value offsets : MachineM B S PUnit) := by
  induction offsets with
  | nil => exact .pure _
  | cons i rest ih =>
      exact .bind (haccesses.translate _ _) fun _ =>
        .bind (haccesses.busStore _ _ _) fun _ => .bind (haccesses.invalidate_keeps _ _) fun _ => ih

theorem writeTranslated_keeps (vaddr : BitVec 64) (size : ℕ) (value : BitVec 64) :
    Keeps related (writeTranslated vaddr size value : MachineM B S PUnit) := by
  apply Keeps.ite
  · exact .bind (haccesses.translate _ _) fun _ =>
      .bind (haccesses.busStore _ _ _) fun _ => haccesses.invalidate_keeps _ _
  · exact haccesses.writeEach_keeps _ _ _

omit [IsPreorder (Machine B S) related] in
theorem reads (kind : Access) : Reads kind related :=
  ⟨fun vaddr => haccesses.translate vaddr kind, haccesses.busLoad kind⟩

end Accesses

namespace Registers

omit [MemBacking B] [ConsoleSink S] in
theorem setReg_keeps (hregs : Registers related) (i : BitVec 5) (v : BitVec 64) :
    Keeps related (Machine.setReg i v : MachineM B S PUnit) :=
  Keeps.update fun m => hregs.setReg m i v

/-! ## Instructions -/

variable [IsPreorder (Machine B S) related]

omit [MemBacking B] [ConsoleSink S] in
/-- The end of the instructions that compute a value. -/
theorem retire_keeps (hregs : Registers related) (insn : Insn) (value : Option (BitVec 64)) :
    Keeps related (Rv64i.retire insn value : MachineM B S Bool) := by
  cases value with
  | none => exact .raise _
  | some v => exact .bind (hregs.setReg_keeps _ v) fun _ => .pure _

omit [MemBacking B] [ConsoleSink S] in
theorem rv64m_keeps (hregs : Registers related) (insn : Insn) :
    Keeps related (Rv64m.execute insn : MachineM B S Bool) := by
  unfold Rv64m.execute
  apply Keeps.ite (.pure _)
  apply Keeps.bind .read
  intro m
  apply Keeps.ite
  · cases Rv64m.op (Insn.funct3 insn) (m.cpu.reg (Insn.rs1 insn))
      (m.cpu.reg (Insn.rs2 insn)) with
    | none => exact .raise _
    | some v => exact .bind (hregs.setReg_keeps _ _) fun _ => .pure _
  apply Keeps.ite _ (.pure _)
  cases Rv64m.op32 (Insn.funct3 insn) ((m.cpu.reg (Insn.rs1 insn)).setWidth 32)
    ((m.cpu.reg (Insn.rs2 insn)).setWidth 32) with
  | none => exact .raise _
  | some v => exact .bind (hregs.setReg_keeps _ _) fun _ => .pure _

omit [MemBacking B] [ConsoleSink S] in
/-- The jumps and the register instructions. -/
theorem executeRegister_keeps (hregs : Registers related) (insn : Insn) :
    Keeps related (Rv64i.executeRegister insn : MachineM B S Bool) := by
  intro m
  have hretire (value : Option (BitVec 64)) := hregs.retire_keeps insn value m
  have hjump {Value : Type} {target : BitVec 64} {next : MachineM B S Value}
      (htarget : halfwordAligned m.cpu.pc → halfwordAligned target)
      (hnext : Keeps related next) :
      Exec.wp (do Machine.jump target; next) (fun _ => related m) (fun _ => related m) True m := by
    rw [Exec.wp_bind, Machine.jump, onCpu, Exec.wp_update]
    exact hnext.wp_from (hregs.jump m target htarget)
  unfold Rv64i.executeRegister
  rw [Exec.wp_bind, Exec.wp_read]
  dsimp only
  split
  · exact hretire _
  · exact hretire _
  · exact hretire _
  · exact hretire _
  · exact hretire _
  · exact hretire _
  · split
    · exact Keeps.raise _ m
    · exact hjump (fun hpc => halfwordAligned_add hpc (halfwordAligned_immB insn)) (.pure _)
    · exact Keeps.pure _ m
  · exact hjump (fun hpc => halfwordAligned_add hpc (halfwordAligned_immJ insn))
      (hregs.retire_keeps _ _)
  · exact hjump (fun _ => halfwordAligned_and_not_one _) (hregs.retire_keeps _ _)
  · split
    · exact Keeps.pure _ m
    · exact Keeps.pure _ m
    · exact Keeps.raise _ m
  · exact Keeps.pure _ m

omit [ConsoleSink S] in
theorem load_keeps (hregs : Registers related) (hreads : Reads .load related) (insn : Insn) :
    Keeps related (Rv64i.load insn : MachineM B S Bool) := by
  apply Keeps.bind .read
  intro m
  cases Rv64i.loadOf insn with
  | none => exact .raise _
  | some width =>
      exact .bind (hreads.readTranslated_keeps _ _) fun _ => hregs.retire_keeps _ _

/-- An instruction keeps what the register instructions keep if it keeps it in
the other groups. -/
theorem dispatch_keeps (hregs : Registers related) (insn : Insn)
    (hatomic : Insn.opcode insn = 0x2F →
      Keeps related (Rv64a.execute insn : MachineM B S Bool))
    (hload : Insn.opcode insn = 0x03 → Keeps related (Rv64i.load insn : MachineM B S Bool))
    (hstore : Insn.opcode insn = 0x23 → Keeps related (Rv64i.store insn : MachineM B S Bool))
    (hprivileged : Insn.opcode insn = 0x73 → Insn.funct3 insn = 0 →
      Keeps related (Rv64i.privileged insn : MachineM B S Bool))
    (hcsr : Insn.opcode insn = 0x73 → Insn.funct3 insn ≠ 0 →
      Keeps related (Rv64i.csrAccess insn : MachineM B S Bool)) :
    Keeps related (execute insn : MachineM B S PUnit) := by
  have hrv64a : Keeps related (Rv64a.execute insn : MachineM B S Bool) := by
    by_cases hopcode : Insn.opcode insn = 0x2F
    · exact hatomic hopcode
    · rw [Rv64a.execute, if_pos hopcode]
      exact .pure _
  have hrv64i : Keeps related (Rv64i.execute insn : MachineM B S Bool) := by
    unfold Rv64i.execute
    split
    · next hopcode => exact hload hopcode
    split
    · next hopcode => exact hstore hopcode
    split
    · next hsystem =>
        split
        · next hfunct3 => exact hprivileged hsystem hfunct3
        · next hfunct3 => exact hcsr hsystem hfunct3
    · exact hregs.executeRegister_keeps insn
  have hhandled : Keeps related (handled insn : MachineM B S Bool) :=
    .bind (hregs.rv64m_keeps insn) fun _ =>
      .ite (.pure _) (.bind hrv64a fun _ => .ite (.pure _) hrv64i)
  exact .bind hhandled fun _ => .ite (.pure _) (.raise _)

end Registers

namespace Framed

variable [IsPreorder (Machine B S) related]

theorem perform_keeps (hframed : Framed related) (insn : Insn) (addr src : BitVec 64)
    (size : ℕ) : Keeps related (Rv64a.perform insn addr src size : MachineM B S PUnit) := by
  have hreserve (reservation : Option (BitVec 64)) :
      Keeps related (onCpu fun cpu => { cpu with reservation := reservation } :
        MachineM B S PUnit) :=
    .update fun m => hframed.reserve m reservation
  apply Keeps.ite
  · exact .bind (hframed.busLoad _ _ _) fun _ =>
      .bind (hreserve _) fun _ => hframed.setReg_keeps _ _
  apply Keeps.ite
  · apply Keeps.bind .read
    intro m
    apply Keeps.bind (hreserve none)
    intro _
    exact .ite (.bind (hframed.busStore _ _ _) fun _ => hframed.setReg_keeps _ _)
      (hframed.setReg_keeps _ _)
  · apply Keeps.bind (hframed.busLoad _ _ _)
    intro old
    cases Rv64a.amo (Rv64a.opOf insn) size old src with
    | none => exact .raise _
    | some new =>
        exact .bind (hframed.busStore _ _ _) fun _ =>
          .bind (hframed.invalidate_keeps _ _) fun _ => hframed.setReg_keeps _ _

theorem rv64a_keeps (hframed : Framed related) (insn : Insn) :
    Keeps related (Rv64a.execute insn : MachineM B S Bool) := by
  unfold Rv64a.execute
  apply Keeps.ite (.pure _)
  cases Rv64a.sizeOf insn with
  | none => exact .raise _
  | some size =>
      exact .bind .read fun _ => .bind (hframed.translate _ _) fun _ =>
        .bind (hframed.perform_keeps _ _ _ _) fun _ => .pure _

theorem store_keeps (hframed : Framed related) (insn : Insn) :
    Keeps related (Rv64i.store insn : MachineM B S Bool) := by
  apply Keeps.bind .read
  intro m
  cases Rv64i.storeOf insn with
  | none => exact .raise _
  | some size => exact .bind (hframed.writeTranslated_keeps _ _ _) fun _ => .pure _

/-- **An instruction keeps what its parts keep.** -/
theorem execute_keeps (hframed : Framed related) (insn : Insn)
    (hprivileged : Insn.opcode insn = 0x73 → Insn.funct3 insn = 0 →
      Keeps related (Rv64i.privileged insn : MachineM B S Bool))
    (hcsr : Insn.opcode insn = 0x73 → Insn.funct3 insn ≠ 0 →
      Keeps related (Rv64i.csrAccess insn : MachineM B S Bool)) :
    Keeps related (execute insn : MachineM B S PUnit) :=
  hframed.dispatch_keeps insn (fun _ => hframed.rv64a_keeps insn)
    (fun _ => hframed.load_keeps (hframed.reads .load) insn) (fun _ => hframed.store_keeps insn) hprivileged hcsr

end Framed

/-! ## Dispatch

An instruction of the groups that access memory is executed by the function of
its group alone.
-/

omit [MemBacking B] [ConsoleSink S] in
theorem rv64m_declines {insn : Insn} (hop : Insn.opcode insn ≠ 0x33)
    (hop32 : Insn.opcode insn ≠ 0x3B) :
    (Rv64m.execute insn : MachineM B S Bool) = pure false := by
  funext m
  unfold Rv64m.execute
  by_cases hfunct7 : Insn.funct7 insn ≠ 0x01
  · rw [if_pos hfunct7]
  · rw [if_neg hfunct7]
    simp only [if_neg hop, if_neg hop32]
    rfl

/-- Only the atomics decoder sees opcode `0x2F`, only the base decoder those that
are neither this nor the two of multiplication. -/
theorem handled_eq {insn : Insn} (hop : Insn.opcode insn ≠ 0x33)
    (hop32 : Insn.opcode insn ≠ 0x3B) (hatomic : Insn.opcode insn ≠ 0x2F) :
    (handled insn : MachineM B S Bool) = Rv64i.execute insn := by
  unfold handled Rv64a.execute
  rw [rv64m_declines hop hop32, if_pos hatomic]
  rfl

theorem handled_system {insn : Insn} (hopcode : Insn.opcode insn = 0x73) :
    (handled insn : MachineM B S Bool) =
      if Insn.funct3 insn = 0 then Rv64i.privileged insn else Rv64i.csrAccess insn := by
  rw [handled_eq (by rw [hopcode]; decide) (by rw [hopcode]; decide) (by rw [hopcode]; decide),
    Rv64i.execute, if_neg (by rw [hopcode]; decide), if_neg (by rw [hopcode]; decide),
    if_pos hopcode]

omit [MemBacking B] [ConsoleSink S] in
/-- What follows a decoder that never declines. -/
theorem accepted {Value : Type} {program : MachineM B S Bool} (first second : MachineM B S Value)
    (haccepts : ∀ m, Exec.wp program (fun handled _ => handled = true) (fun _ _ => True) True m) :
    (program >>= fun handled => if handled then first else second) =
      program >>= fun _ => first := by
  funext m
  have hm := haccepts m
  simp only [Exec.wp] at hm
  simp only [bind]
  cases hrun : program m with
  | ok handled middle =>
      rw [hrun] at hm
      simp only [hm, if_true]
  | error err middle => rfl
  | panic => rfl

omit [MemBacking B] [ConsoleSink S] in
theorem retire_accepts (insn : Insn) (value : Option (BitVec 64)) (m : Machine B S) :
    Exec.wp (Rv64i.retire insn value) (fun handled _ => handled = true) (fun _ _ => True) True
      m := by
  cases value with
  | none => trivial
  | some v => exact rfl

theorem execute_load {insn : Insn} (hopcode : Insn.opcode insn = 0x03) :
    (execute insn : MachineM B S PUnit) = Rv64i.load insn >>= fun _ => pure () := by
  rw [execute, handled_eq (by rw [hopcode]; decide) (by rw [hopcode]; decide)
    (by rw [hopcode]; decide), Rv64i.execute, if_pos hopcode]
  apply accepted
  intro m
  rw [Rv64i.load, Exec.wp_bind, Exec.wp_read]
  dsimp only
  split
  · trivial
  · rw [Exec.wp_bind]
    exact (Exec.wp_any _ m).imp (fun _ middle _ => retire_accepts insn _ middle)
      (fun _ _ _ => trivial) (fun _ => trivial)

theorem execute_store {insn : Insn} (hopcode : Insn.opcode insn = 0x23) :
    (execute insn : MachineM B S PUnit) = Rv64i.store insn >>= fun _ => pure () := by
  rw [execute, handled_eq (by rw [hopcode]; decide) (by rw [hopcode]; decide)
    (by rw [hopcode]; decide), Rv64i.execute, if_neg (by rw [hopcode]; decide), if_pos hopcode]
  apply accepted
  intro m
  rw [Rv64i.store, Exec.wp_bind, Exec.wp_read]
  dsimp only
  split
  · trivial
  · rw [Exec.wp_bind]
    exact (Exec.wp_any _ m).imp (fun _ _ _ => rfl) (fun _ _ _ => trivial) (fun _ => trivial)

theorem execute_atomic {insn : Insn} (hopcode : Insn.opcode insn = 0x2F) :
    (execute insn : MachineM B S PUnit) = Rv64a.execute insn >>= fun _ => pure () := by
  have haccepts (m : Machine B S) : Exec.wp (Rv64a.execute insn)
      (fun handled _ => handled = true) (fun _ _ => True) True m := by
    rw [Rv64a.execute, if_neg (not_not_intro hopcode)]
    split
    · trivial
    · rw [Exec.wp_bind, Exec.wp_read, Exec.wp_bind]
      apply (Exec.wp_any _ m).imp _ (fun _ _ _ => trivial) (fun _ => trivial)
      intro addr middle _
      rw [Exec.wp_bind]
      exact (Exec.wp_any _ middle).imp (fun _ _ _ => rfl) (fun _ _ _ => trivial)
        (fun _ => trivial)
  rw [execute, handled, rv64m_declines (by rw [hopcode]; decide) (by rw [hopcode]; decide)]
  change ((Rv64a.execute insn >>= fun handled =>
      if handled then pure true else Rv64i.execute insn) >>= fun handled =>
    if handled then pure () else Exec.raise _ : MachineM B S PUnit) = _
  rw [accepted (pure true) (Rv64i.execute insn) haccepts, accepted]
  · funext m
    simp only [bind]
    cases (Rv64a.execute insn : MachineM B S Bool) m <;> rfl
  · intro m
    rw [Exec.wp_bind]
    exact (haccepts m).imp (fun _ _ _ => rfl) (fun _ _ _ => trivial) (fun _ => trivial)

/-! ## Relations that leave memory open -/

omit [ConsoleSink S] in
theorem translate_keeps [IsPreorder (Machine B S) related]
    (hnote : ∀ (m : Machine B S) event, related m (m.note event))
    (hsystem : ∀ (m : Machine B S) system, related m (m.putSystem system))
    (vaddr : BitVec 64) (access : Access) :
    Keeps related (Machine.translate vaddr access) :=
  .bind .read fun _ => .bind (.update fun m => hnote m _) fun _ => .zoom hsystem

omit [ConsoleSink S] in
theorem busLoad_keeps [IsPreorder (Machine B S) related]
    (hnote : ∀ (m : Machine B S) kind addr size, related m (m.noteAccess kind addr size))
    (hbus : ∀ (m : Machine B S) bus, related m { m with bus := bus })
    (kind : Access) (addr : BitVec 64) (size : ℕ) :
    Keeps related (Machine.busLoad kind addr size) :=
  .bind (.update fun m => hnote m kind addr size) fun _ => .zoom hbus

theorem busStore_keeps [IsPreorder (Machine B S) related]
    (hnote : ∀ (m : Machine B S) kind addr size, related m (m.noteAccess kind addr size))
    (hbus : ∀ (m : Machine B S) bus, related m { m with bus := bus })
    (addr : BitVec 64) (size : ℕ) (value : BitVec 64) :
    Keeps related (Machine.busStore addr size value) :=
  .bind (.update fun m => hnote m .store addr size) fun _ => .zoom hbus

omit [MemBacking B] in
/-- Servicing a call writes registers, programs the timer and prints. -/
theorem handle_keeps [IsPreorder (Machine B S) related]
    (hreg : ∀ (m : Machine B S) i v, related m { m with cpu := m.cpu.setReg i v })
    (htimer : ∀ (m : Machine B S) deadline, related m (Sbi.setTimer deadline m))
    (hputchar : ∀ (m : Machine B S) byte, related m (Sbi.putchar byte m)) (m : Machine B S) :
    related m (Sbi.handle m).2 := by
  have hreply (value : BitVec 64) {middle : Machine B S} (hmiddle : related m middle) :
      related m (Sbi.reply value middle) :=
    trans_of related hmiddle (hreg middle 10 value)
  have hpair (result : BitVec 64 × BitVec 64) {middle : Machine B S}
      (hmiddle : related m middle) : related m (Sbi.replyPair result middle) :=
    trans_of related (trans_of related hmiddle (hreg middle 10 result.1)) (hreg _ 11 result.2)
  unfold Sbi.handle
  dsimp only
  split_ifs
  · exact hreply 0 (htimer m _)
  · exact hreply 0 (hputchar m _)
  · exact hreply _ (refl_of related m)
  · exact refl_of related m
  · exact hpair _ (htimer m _)
  · exact refl_of related m
  · exact hpair _ (refl_of related m)
  · exact hpair _ (refl_of related m)

/-- The registers only the end of a step, a trap or a SYSTEM instruction
changes. -/
structure SameControl (start after : Machine B S) : Prop where
  pc : after.cpu.pc = start.cpu.pc
  insnLen : after.cpu.insnLen = start.cpu.insnLen
  instret : after.cpu.instret = start.cpu.instret
  csrs : after.cpu.csrs = start.cpu.csrs
  priv : after.cpu.priv = start.cpu.priv

instance : IsPreorder (Machine B S) SameControl where
  refl _ := ⟨rfl, rfl, rfl, rfl, rfl⟩
  trans _ _ _ hleft hright :=
    ⟨hright.pc.trans hleft.pc, hright.insnLen.trans hleft.insnLen,
      hright.instret.trans hleft.instret, hright.csrs.trans hleft.csrs,
      hright.priv.trans hleft.priv⟩

theorem sameControl_framed : Framed (@SameControl B S) where
  setReg m i v := by
    unfold Cpu.setReg
    split <;> exact ⟨rfl, rfl, rfl, rfl, rfl⟩
  jump _ _ _ := ⟨rfl, rfl, rfl, rfl, rfl⟩
  reserve _ _ := ⟨rfl, rfl, rfl, rfl, rfl⟩
  translate := translate_keeps (fun _ _ => ⟨rfl, rfl, rfl, rfl, rfl⟩)
    (fun _ _ => ⟨rfl, rfl, rfl, rfl, rfl⟩)
  busLoad := busLoad_keeps (fun _ _ _ _ => ⟨rfl, rfl, rfl, rfl, rfl⟩)
    (fun _ _ => ⟨rfl, rfl, rfl, rfl, rfl⟩)
  busStore := busStore_keeps (fun _ _ _ _ => ⟨rfl, rfl, rfl, rfl, rfl⟩)
    (fun _ _ => ⟨rfl, rfl, rfl, rfl, rfl⟩)

end Machine

end Baonix.Core

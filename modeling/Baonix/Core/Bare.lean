import Baonix.Core.Compressed
import Baonix.Core.IntegerLaws
import Baonix.Core.Isolation

/-!
# Steps without translation

In machine mode an address stands for itself.  The accesses of data an instruction issues
are then those of its operands, and the instruction that is fetched is the one that lies at
the program counter.
-/

namespace Baonix.Core

open Exec (Keeps)
open LittleEndian (ofBytes ofBytes_toBytes toBytes toBytes_mod)
open PageCache (Holds)

namespace Machine

variable {B S : Type}

/-! ## Accesses issued -/

/-- Of accesses of data, the one issued is of this kind. -/
def DataWithin (allowed : BitVec 64 → ℕ → Prop) (issued : BusAccess B S) : Prop :=
  issued.kind ≠ .fetch → allowed issued.addr issued.size

/-- The accesses of data issued on the way are of this kind. -/
abbrev Reaching (allowed : BitVec 64 → ℕ → Prop) : Machine B S → Machine B S → Prop :=
  OnlyIssues (DataWithin allowed)

variable {allowed : BitVec 64 → ℕ → Prop}

theorem issues_registers : Registers (@Reaching B S allowed) where
  setReg _ _ _ := onlyIssues_of_eq rfl
  jump _ _ _ := onlyIssues_of_eq rfl

variable [FlatBacking B] [ConsoleSink S]

omit [ConsoleSink S] in
theorem translate_issues (vaddr : BitVec 64) (access : Access) :
    Keeps (Reaching allowed) (translate vaddr access : MachineM B S (BitVec 64)) :=
  translate_keeps (fun _ _ => onlyIssues_of_eq rfl) (fun _ _ => onlyIssues_of_eq rfl) vaddr access

omit [FlatBacking B] [ConsoleSink S] in
theorem issues_noteAccess (m : Machine B S) {kind : Access} {addr : BitVec 64} {size : ℕ}
    (hallowed : kind ≠ .fetch → allowed addr size) :
    Reaching allowed m (m.noteAccess kind addr size) := by
  refine ⟨[⟨kind, addr, size, _⟩], rfl, ?_⟩
  intro issued hissued
  rw [List.mem_singleton.mp hissued]
  exact hallowed

omit [ConsoleSink S] in
theorem busLoad_issues {kind : Access} {addr : BitVec 64} {size : ℕ}
    (hallowed : kind ≠ .fetch → allowed addr size) :
    Keeps (Reaching allowed) (busLoad kind addr size : MachineM B S (BitVec 64)) :=
  .bind (.update fun m => issues_noteAccess m hallowed) fun _ =>
    .zoom fun _ _ => onlyIssues_of_eq rfl

theorem busStore_issues {addr : BitVec 64} {size : ℕ} (hallowed : allowed addr size)
    (value : BitVec 64) :
    Keeps (Reaching allowed) (busStore addr size value : MachineM B S PUnit) :=
  .bind (.update fun m => issues_noteAccess m fun _ => hallowed) fun _ =>
    .zoom fun _ _ => onlyIssues_of_eq rfl

omit [ConsoleSink S] in
theorem issues_reads : Reads .fetch (@Reaching B S allowed) where
  translate vaddr := translate_issues vaddr .fetch
  busLoad _ _ := busLoad_issues fun hkind => absurd rfl hkind

omit [FlatBacking B] [ConsoleSink S] in
theorem onCpu_issues (change : Cpu → Cpu) :
    Keeps (Reaching allowed) (onCpu change : MachineM B S PUnit) :=
  .update fun _ => onlyIssues_of_eq rfl

/-- LR, SC and the AMOs go to the bus with the one address they are given. -/
theorem perform_issues (insn : Insn) {addr : BitVec 64} (src : BitVec 64) {size : ℕ}
    (hallowed : allowed addr size) :
    Keeps (Reaching allowed) (Rv64a.perform insn addr src size : MachineM B S PUnit) := by
  have hload : Keeps (Reaching allowed) (busLoad .load addr size : MachineM B S (BitVec 64)) :=
    busLoad_issues fun _ => hallowed
  apply Keeps.ite
  · exact .bind hload fun _ => .bind (onCpu_issues _) fun _ => onCpu_issues _
  apply Keeps.ite
  · apply Keeps.bind .read
    intro m
    apply Keeps.bind (onCpu_issues _)
    intro _
    exact .ite (.bind (busStore_issues hallowed _) fun _ => onCpu_issues _) (onCpu_issues _)
  · apply Keeps.bind hload
    intro old
    cases Rv64a.amo (Rv64a.opOf insn) size old src with
    | none => exact .raise _
    | some new =>
        exact .bind (busStore_issues hallowed _) fun _ =>
          .bind (onCpu_issues _) fun _ => onCpu_issues _

/-! ## Machine mode -/

omit [FlatBacking B] [ConsoleSink S] in
theorem not_paging {m : Machine B S} (hpriv : m.cpu.priv = .m) :
    ¬Mmu.paging m.cpu.csrs m.cpu.priv :=
  fun hpaging => hpaging.2 hpriv

section

variable {start : Machine B S} (hpriv : start.cpu.priv = .m) {insn : Insn}
include hpriv

omit [ConsoleSink S] in
theorem load_issues {size : ℕ} {signed : Bool}
    (hload : Riscv.decodeLoad insn = some (size, signed))
    (haligned : (start.cpu.regs (Riscv.rs1 insn) + Riscv.immI insn).toNat % size = 0)
    (hallowed : allowed (start.cpu.regs (Riscv.rs1 insn) + Riscv.immI insn) size) :
    Exec.wp (Rv64i.load insn) (fun _ => Reaching allowed start) (fun _ => Reaching allowed start)
      True start := by
  obtain ⟨extended, hsome, -⟩ := Rv64i.loadOf_eq hload
  obtain ⟨middle, hpa⟩ := translate_bare (not_paging hpriv)
    (start.cpu.regs (Riscv.rs1 insn) + Riscv.immI insn) .load
  have hmiddle : Reaching allowed start middle := (translate_issues _ .load start).of_run_ok hpa
  rw [Rv64i.load, Exec.wp_bind, Exec.wp_read, hsome, Insn.rs1_eq, Insn.immI_eq]
  dsimp only
  rw [Exec.wp_bind, vload, readTranslated, Cpu.reg,
    if_pos (fitsPage_of_aligned (Riscv.decodeLoad_size hload) haligned), Exec.wp_bind]
  apply Exec.wp_of_run_ok hpa
  apply ((busLoad_issues fun _ => hallowed).wp_from hmiddle).imp_post
  intro value after hafter
  exact (issues_registers.retire_keeps insn _).wp_from hafter

theorem store_issues {size : ℕ} (hstore : Riscv.decodeStore insn = some size)
    (haligned : (start.cpu.regs (Riscv.rs1 insn) + Riscv.immS insn).toNat % size = 0)
    (hallowed : allowed (start.cpu.regs (Riscv.rs1 insn) + Riscv.immS insn) size) :
    Exec.wp (Rv64i.store insn) (fun _ => Reaching allowed start) (fun _ => Reaching allowed start)
      True start := by
  obtain ⟨middle, hpa⟩ := translate_bare (not_paging hpriv)
    (start.cpu.regs (Riscv.rs1 insn) + Riscv.immS insn) .store
  have hmiddle : Reaching allowed start middle := (translate_issues _ .store start).of_run_ok hpa
  rw [Rv64i.store, Exec.wp_bind, Exec.wp_read, Rv64i.storeOf_eq hstore, Insn.rs1_eq, Insn.immS_eq]
  dsimp only
  rw [Exec.wp_bind, vstore, writeTranslated, Cpu.reg,
    if_pos (fitsPage_of_aligned (Riscv.decodeStore_size hstore) haligned), Exec.wp_bind]
  apply Exec.wp_of_run_ok hpa
  have hrest : Keeps (Reaching allowed) (do
      busStore (start.cpu.regs (Riscv.rs1 insn) + Riscv.immS insn) size
        (start.cpu.reg (Insn.rs2 insn))
      onCpu (·.invalidateReservation (start.cpu.regs (Riscv.rs1 insn) + Riscv.immS insn) size) :
        MachineM B S PUnit) :=
    .bind (busStore_issues hallowed _) fun _ => onCpu_issues _
  exact (hrest.wp_from hmiddle).imp_post fun _ _ hafter => hafter

theorem rv64a_issues {size : ℕ} (hopcode : Insn.opcode insn = 0x2F)
    (hsize : Rv64a.sizeOf insn = some size)
    (hallowed : allowed (start.cpu.regs (Insn.rs1 insn)) size) :
    Exec.wp (Rv64a.execute insn) (fun _ => Reaching allowed start) (fun _ => Reaching allowed start)
      True start := by
  obtain ⟨middle, hpa⟩ := translate_bare (not_paging hpriv) (start.cpu.regs (Insn.rs1 insn)) .store
  have hmiddle : Reaching allowed start middle := (translate_issues _ .store start).of_run_ok hpa
  rw [Rv64a.execute, if_neg (not_not_intro hopcode), hsize]
  dsimp only
  rw [Exec.wp_bind, Exec.wp_read, Exec.wp_bind]
  apply Exec.wp_of_run_ok hpa
  rw [Exec.wp_bind]
  exact ((perform_issues insn _ hallowed).wp_from hmiddle).imp_post fun _ _ hafter => hafter

omit hpriv in
theorem register_issues {code : BitVec 32} (hopcode : Insn.opcode insn = code)
    (hcode : code ∉ [(0x2F : BitVec 32), 0x03, 0x23, 0x73]) :
    Keeps (Reaching allowed) (execute insn : MachineM B S PUnit) := by
  have hne (other : BitVec 32) (hother : other ∈ [(0x2F : BitVec 32), 0x03, 0x23, 0x73])
      (heq : Insn.opcode insn = other) : False :=
    hcode (by rwa [← hopcode, heq])
  exact issues_registers.dispatch_keeps insn
    (fun h => (hne _ (by decide) h).elim) (fun h => (hne _ (by decide) h).elim)
    (fun h => (hne _ (by decide) h).elim) (fun h => (hne _ (by decide) h).elim)
    (fun h => (hne _ (by decide) h).elim)

/-- **An instruction** issues the accesses of its operands. -/
theorem execute_issues {instr : Riscv.Instr} (hdecode : Riscv.decode insn = some instr)
    (hallowed : ∀ addr size stores, instr.access start.cpu.regs = some (addr, size, stores) →
      addr.toNat % size = 0 ∧ allowed addr size) :
    Exec.wp (execute insn) (fun _ => Reaching allowed start) (fun _ => Reaching allowed start) True
      start := by
  have hopcode (code : BitVec 32) (hcode : (Riscv.opcode insn).toNat = code.toNat) :
      Insn.opcode insn = code := BitVec.eq_of_toNat_eq ((Insn.toNat_opcode insn).trans hcode)
  unfold Riscv.decode at hdecode
  split at hdecode
  · next h => exact register_issues (hopcode 0x37 h) (by decide) start
  · next h => exact register_issues (hopcode 0x17 h) (by decide) start
  · next h => exact register_issues (hopcode 0x6F h) (by decide) start
  · next h => exact register_issues (hopcode 0x67 h) (by decide) start
  · next h => exact register_issues (hopcode 0x63 h) (by decide) start
  · next h =>
      obtain ⟨⟨size, signed⟩, hload, rfl⟩ := Option.map_eq_some_iff.mp hdecode
      obtain ⟨haligned, haddr⟩ := hallowed _ _ _ rfl
      rw [execute_load (hopcode _ h), Exec.wp_bind]
      exact (load_issues hpriv hload haligned haddr).imp_post fun _ _ hafter => hafter
  · next h =>
      obtain ⟨size, hstore, rfl⟩ := Option.map_eq_some_iff.mp hdecode
      obtain ⟨haligned, haddr⟩ := hallowed _ _ _ rfl
      rw [execute_store (hopcode _ h), Exec.wp_bind]
      exact (store_issues hpriv hstore haligned haddr).imp_post fun _ _ hafter => hafter
  · next h => exact register_issues (hopcode 0x13 h) (by decide) start
  · next h => exact register_issues (hopcode 0x1B h) (by decide) start
  · next h => exact register_issues (hopcode 0x33 h) (by decide) start
  · next h => exact register_issues (hopcode 0x3B h) (by decide) start
  · next h => exact register_issues (hopcode 0x0F h) (by decide) start
  · next h =>
      obtain ⟨op, -, hrest⟩ := Option.bind_eq_some_iff.mp hdecode
      obtain ⟨size, hwidth, rfl⟩ := Option.map_eq_some_iff.mp hrest
      obtain ⟨-, haddr⟩ := hallowed _ _ _ rfl
      rw [← Insn.rs1_eq] at haddr
      rw [execute_atomic (hopcode _ h), Exec.wp_bind]
      exact (rv64a_issues hpriv (hopcode _ h) (Rv64a.sizeOf_eq hwidth) haddr).imp_post
        fun _ _ hafter => hafter
  · cases hdecode

end

/-- A step issues what its instruction does. -/
theorem step_issues {m fetched after : Machine B S} {insn : Insn} {len : BitVec 64}
    (hfetch : fetchInsn.run m = .ok (insn, len) fetched)
    (hexecute : Exec.wp (execute insn) (fun _ => Reaching allowed (begun len fetched))
      (fun _ => Reaching allowed (begun len fetched)) True (begun len fetched))
    (hrun : step.run m = .ok ⟨⟩ after) : Reaching allowed m after := by
  have hfetched : Reaching allowed m (begun len fetched) :=
    trans_of (Reaching allowed) ((issues_reads.fetchInsn_keeps m).of_run_ok hfetch)
      (onlyIssues_of_eq rfl)
  have hstep : Exec.wp step (fun _ => Reaching allowed m) (fun _ => Reaching allowed m) True m := by
    apply wp_step_of_fetch hfetch
    exact hexecute.imp
      (fun _ reached hreached => trans_of (Reaching allowed) hfetched
        (trans_of (Reaching allowed) hreached (onlyIssues_of_eq rfl)))
      (fun _ _ hreached => trans_of (Reaching allowed) hfetched hreached) fun hpanics => hpanics
  exact hstep.of_run_ok hrun

/-! ## Multiplication -/

omit [FlatBacking B] [ConsoleSink S] in
theorem mul_isSome {insn : Insn} (hmul : Riscv.isMul insn) (a b : BitVec 64) :
    Rv64m.handles insn ∧ (Rv64m.result (Insn.opcode insn) (Insn.funct3 insn) a b).isSome := by
  obtain ⟨hfunct7, hkind⟩ := hmul
  rw [← Insn.toNat_funct7] at hfunct7
  rw [← Insn.toNat_opcode] at hkind
  have hlt : (Insn.funct3 insn).toNat < 8 := by
    rw [Insn.toNat_funct3]
    exact (Riscv.funct3 insn).isLt
  rcases hkind with hop | ⟨hop, hfunct3⟩
  · have hopcode : Insn.opcode insn = 0x33 := BitVec.eq_of_toNat_eq hop
    refine ⟨⟨BitVec.eq_of_toNat_eq hfunct7, .inl hopcode⟩, ?_⟩
    rw [Rv64m.result, if_pos hopcode, Rv64m.op]
    generalize (Insn.funct3 insn).toNat = kind at hlt
    interval_cases kind <;> rfl
  · have hopcode : Insn.opcode insn = 0x3B := BitVec.eq_of_toNat_eq hop
    refine ⟨⟨BitVec.eq_of_toNat_eq hfunct7, .inr hopcode⟩, ?_⟩
    rw [← Insn.toNat_funct3] at hfunct3
    rw [Rv64m.result, if_neg (by rw [hopcode]; decide), Rv64m.op32]
    simp only [List.mem_cons, List.not_mem_nil, or_false] at hfunct3
    rcases hfunct3 with h | h | h | h | h
    all_goals
      rw [h]
      rfl

theorem becomes_mul {memory : Memory} {start : Machine B S} (hm : Holds memory start.bus.cache)
    {len : BitVec 64} (hbegun : Begun len start) {insn : Insn} (hmul : Riscv.isMul insn) :
    ∃ v, Becomes len ((start.hart memory).result len (Riscv.rd insn) v) insn start := by
  obtain ⟨hhandles, hsome⟩ := mul_isSome hmul (start.cpu.reg (Insn.rs1 insn))
    (start.cpu.reg (Insn.rs2 insn))
  obtain ⟨v, hv⟩ := Option.isSome_iff_exists.mp hsome
  refine ⟨v, becomes_computed hm hbegun ?_⟩
  rw [execute_mul start hhandles, hv]

/-! ## LR and SC -/

/-- At most so many bytes from this address on have been stored. -/
def Touches (memory : Memory) (addr size : ℕ) (left : Memory) : Prop :=
  ∃ bytes, bytes.length ≤ size ∧ left = memory.write addr bytes

omit [FlatBacking B] [ConsoleSink S] in
theorem sizeOf_mem {insn : Insn} {size : ℕ} (hsize : Rv64a.sizeOf insn = some size) :
    size ∈ [1, 2, 4, 8] := by
  unfold Rv64a.sizeOf at hsize
  split at hsize <;> cases hsize <;> decide

omit [FlatBacking B] [ConsoleSink S] in
theorem regs_result (h : Riscv.Hart) (len : BitVec 64) {rd r : Riscv.Reg} (v : BitVec 64)
    (hne : r ≠ rd) : (h.result len rd v).regs r = h.regs r := by
  unfold Riscv.Hart.result Riscv.Hart.set
  split
  · rfl
  · exact Function.update_of_ne hne _ _

section

variable (hreliable : ¬Fallible B) {memory : Memory} {start : Machine B S}
  (hm : Holds memory start.bus.cache) {len : BitVec 64} (hbegun : Begun len start)
  (hpriv : start.cpu.priv = .m) {insn : Insn} (hopcode : Insn.opcode insn = 0x2F) {size : ℕ}
  (hsize : Rv64a.sizeOf insn = some size)
  (hram : Bus.inRam (start.cpu.regs (Insn.rs1 insn)) size)
include hreliable hm hbegun hpriv hopcode hsize hram

theorem becomes_loadReserved (hop : Rv64a.opOf insn = 0x02) :
    ∃ v, Becomes len ((start.hart memory).result len (Riscv.rd insn) v) insn start := by
  obtain ⟨middle, hpa⟩ := translate_bare (not_paging hpriv) (start.cpu.regs (Insn.rs1 insn)) .store
  have hmiddle := ((translate_spec hm _ .store).of_run_ok hpa).2
  obtain ⟨mmu, hcpu⟩ := (translate_cpu _ .store start).of_run_ok hpa
  refine ⟨Rv64a.ext size (BitVec.ofNat 64
    (ofBytes (memory.read (start.cpu.regs (Insn.rs1 insn)).toNat size))), ?_⟩
  rw [Becomes, execute_atomic hopcode, Exec.wp_bind, Rv64a.execute,
    if_neg (not_not_intro hopcode), hsize]
  dsimp only
  rw [Exec.wp_bind, Exec.wp_read, Exec.wp_bind]
  apply Exec.wp_of_run_ok hpa
  rw [Exec.wp_bind, Rv64a.perform, if_pos hop, Rv64a.loadReserved, Exec.wp_bind]
  apply (busLoad_ram hreliable hmiddle.holds (widthOf_isSome (sizeOf_mem hsize)) hram .load).imp
  · rintro _ after ⟨rfl, hquiet, hafter⟩
    rw [Exec.wp_bind, onCpu, Exec.wp_update, setReg, onCpu, Exec.wp_update, Exec.wp_pure,
      Exec.wp_pure]
    have hregs : ({ after.cpu with reservation := some (start.cpu.regs (Insn.rs1 insn)) } :
        Cpu).regs = start.cpu.regs := by
      rw [hafter, hcpu]
    have hnextPc : ({ after.cpu with reservation := some (start.cpu.regs (Insn.rs1 insn)) } :
        Cpu).nextPc = none := by
      rw [hafter, hcpu]
      exact hbegun.nextPc
    exact became_result { after with cpu := { after.cpu with
      reservation := some (start.cpu.regs (Insn.rs1 insn)) } } hregs hnextPc hquiet.holds
      (hquiet.clint.trans hmiddle.clint) _
  · exact fun _ _ hfalse => hfalse
  · exact fun hfalse => hfalse

theorem becomes_storeConditional (hop : Rv64a.opOf insn = 0x03) :
    ∃ v left, Touches memory (start.cpu.regs (Insn.rs1 insn)).toNat size left ∧
      Becomes len ((start.hart left).result len (Riscv.rd insn) v) insn start := by
  obtain ⟨middle, hpa⟩ := translate_bare (not_paging hpriv) (start.cpu.regs (Insn.rs1 insn)) .store
  have hmiddle := ((translate_spec hm _ .store).of_run_ok hpa).2
  obtain ⟨mmu, hcpu⟩ := (translate_cpu _ .store start).of_run_ok hpa
  have hregs : ({ middle.cpu with reservation := none } : Cpu).regs = start.cpu.regs := by
    rw [hcpu]
  have hnextPc : ({ middle.cpu with reservation := none } : Cpu).nextPc = none := by
    rw [hcpu]
    exact hbegun.nextPc
  have hrun (h : Riscv.Hart) (hperform : Exec.wp
      (Rv64a.storeConditional (Insn.rd insn) (start.cpu.regs (Insn.rs1 insn))
        (start.cpu.reg (Insn.rs2 insn)) size)
      (fun _ => Became len h start) (fun _ _ => False) False middle) :
      Becomes len h insn start := by
    rw [Becomes, execute_atomic hopcode, Exec.wp_bind, Rv64a.execute,
      if_neg (not_not_intro hopcode), hsize]
    dsimp only
    rw [Exec.wp_bind, Exec.wp_read, Exec.wp_bind]
    apply Exec.wp_of_run_ok hpa
    rw [Exec.wp_bind, Rv64a.perform, if_neg (by rw [hop]; decide), if_pos hop]
    exact hperform.imp_post fun _ _ hafter => hafter
  by_cases hreserved : middle.cpu.reservation = some (start.cpu.regs (Insn.rs1 insn))
  · refine ⟨0, _, ⟨Bus.bytesOf size (start.cpu.reg (Insn.rs2 insn)), List.length_take_le _ _, rfl⟩,
      hrun _ ?_⟩
    rw [Rv64a.storeConditional, Exec.wp_bind, Exec.wp_read, Exec.wp_bind, onCpu, Exec.wp_update,
      if_pos hreserved, Exec.wp_bind]
    have hcleared : Holds memory ({ middle with
        cpu := { middle.cpu with reservation := none } } : Machine B S).bus.cache := hmiddle.holds
    apply (busStore_ram hreliable hcleared (widthOf_isSome (sizeOf_mem hsize)) hram _).imp
    · rintro _ after ⟨hholds, hclint, hafter⟩
      rw [setReg, onCpu, Exec.wp_update]
      exact became_result after (by rw [hafter]; exact hregs) (by rw [hafter]; exact hnextPc) hholds
        (hclint.trans hmiddle.clint) _
    · exact fun _ _ hfalse => hfalse
    · exact fun hfalse => hfalse
  · refine ⟨1, memory, ⟨[], Nat.zero_le _, (Memory.write_nil ..).symm⟩, hrun _ ?_⟩
    rw [Rv64a.storeConditional, Exec.wp_bind, Exec.wp_read, Exec.wp_bind, onCpu, Exec.wp_update,
      if_neg hreserved, setReg, onCpu, Exec.wp_update]
    exact became_result { middle with cpu := { middle.cpu with reservation := none } } hregs hnextPc
      hmiddle.holds hmiddle.clint _

end

/-! ## What is fetched -/

omit [FlatBacking B] [ConsoleSink S] in
/-- The low bits of a word, from the bytes that hold them. -/
theorem setWidth_ofBytes {w : ℕ} (word : BitVec w) {n k : ℕ} (hn : n ≤ 8 * k) (hk : 8 * k ≤ 64) :
    (BitVec.ofNat 64 (ofBytes (toBytes k word.toNat))).setWidth n = word.setWidth n := by
  have hpow : 256 ^ k = 2 ^ (8 * k) := by
    rw [pow_mul]
    norm_num
  have hbytes : ofBytes (toBytes k word.toNat) = word.toNat % 256 ^ k := by
    rw [← toBytes_mod, ofBytes_toBytes _ _ (Nat.mod_lt _ (by positivity))]
  apply BitVec.eq_of_toNat_eq
  rw [BitVec.toNat_setWidth, BitVec.toNat_setWidth, BitVec.toNat_ofNat, hbytes, hpow,
    Nat.mod_mod_of_dvd _ (Nat.pow_dvd_pow 2 (hn.trans hk)),
    Nat.mod_mod_of_dvd _ (Nat.pow_dvd_pow 2 hn)]

theorem fitsPage_of_le {vaddr : BitVec 64} {size size' : ℕ} (hfits : fitsPage vaddr size)
    (hle : size' ≤ size) : fitsPage vaddr size' :=
  (Nat.add_le_add_left hle _).trans hfits

theorem inRam_of_le {addr : BitVec 64} {size size' : ℕ} (hram : Bus.inRam addr size)
    (hle : size' ≤ size) : Bus.inRam addr size' := by
  rw [Bus.inRam_iff, InRam] at hram ⊢
  omega

section

variable (hreliable : ¬Fallible B) {memory : Memory} {m : Machine B S}
  (hm : Holds memory m.bus.cache) (hpriv : m.cpu.priv = .m)
include hreliable hm hpriv

omit [ConsoleSink S] in
theorem fetch_bare (size : ℕ) (hsize : size ∈ [1, 2, 4, 8]) (hfits : fitsPage m.cpu.pc size)
    (hram : Bus.inRam m.cpu.pc size) :
    ∃ fetched, (fetch size).run m =
      .ok (BitVec.ofNat 64 (ofBytes (memory.read m.cpu.pc.toNat size))) fetched := by
  obtain ⟨middle, hpa⟩ := translate_bare (not_paging hpriv) m.cpu.pc .fetch
  have hmiddle := ((translate_spec hm _ .fetch).of_run_ok hpa).2
  have hwp : Exec.wp (fetch size) (fun value _ =>
      value = BitVec.ofNat 64 (ofBytes (memory.read m.cpu.pc.toNat size))) (fun _ _ => False)
      False m := by
    rw [fetch, Exec.wp_bind, Exec.wp_read, Exec.wp_zoom, readTranslated, if_pos hfits, Exec.wp_bind]
    apply Exec.wp_of_run_ok hpa
    exact (busLoad_ram hreliable hmiddle.holds (widthOf_isSome hsize) hram .fetch).imp
      (fun _ _ hafter => hafter.1) (fun _ _ hfalse => hfalse) fun hfalse => hfalse
  obtain ⟨value, fetched, hrun, rfl⟩ := hwp.exists_ok
  exact ⟨fetched, hrun⟩

omit [ConsoleSink S] in
/-- A word that ends in two ones is fetched in two parts. -/
theorem fetchInsn_word (hfits : fitsPage m.cpu.pc 4) (hram : Bus.inRam m.cpu.pc 4) {w : Insn}
    (hbytes : memory.read m.cpu.pc.toNat 4 = toBytes 4 w.toNat)
    (hlow : w.setWidth 16 &&& 0x3 = 0x3) :
    ∃ fetched, fetchInsn.run m = .ok (w, 4) fetched := by
  have hhalf : memory.read m.cpu.pc.toNat 2 = toBytes 2 w.toNat := by
    rw [← LittleEndian.take_toBytes (n := 4) (by norm_num), ← hbytes, Memory.read_add _ _ 2 2,
      List.take_left' (Memory.length_read ..)]
  obtain ⟨middle, hprobe⟩ := fetch_bare hreliable hm hpriv 2 (by decide)
    (fitsPage_of_le hfits (by norm_num)) (inRam_of_le hram (by norm_num))
  obtain ⟨hcore, hquiet⟩ := untouched_of_fetch hm hprobe
  rw [← hcore.pc] at hfits hram hbytes
  obtain ⟨fetched, hrest⟩ := fetch_bare hreliable hquiet.holds (hcore.priv.trans hpriv) 4
    (by decide) hfits hram
  refine ⟨fetched, ?_⟩
  rw [hhalf] at hprobe
  rw [hbytes] at hrest
  rw [fetchInsn, Exec.run_bind_ok hprobe, decode, setWidth_ofBytes w (by norm_num) (by norm_num),
    if_pos hlow, Exec.run_bind_ok hrest, setWidth_ofBytes w (by norm_num) (by norm_num)]
  rfl

omit [ConsoleSink S] in
theorem fetchInsn_half (hfits : fitsPage m.cpu.pc 2) (hram : Bus.inRam m.cpu.pc 2) {w insn : Insn}
    (hbytes : memory.read m.cpu.pc.toNat 2 = toBytes 2 w.toNat)
    (hlow : w.setWidth 16 &&& 0x3 ≠ 0x3) (hexpand : Rvc.expand (w.setWidth 16) = some insn) :
    ∃ fetched, fetchInsn.run m = .ok (insn, 2) fetched := by
  obtain ⟨fetched, hprobe⟩ := fetch_bare hreliable hm hpriv 2 (by decide) hfits hram
  refine ⟨fetched, ?_⟩
  rw [hbytes] at hprobe
  rw [fetchInsn, Exec.run_bind_ok hprobe, decode, setWidth_ofBytes w (by norm_num) (by norm_num),
    if_neg hlow, hexpand]
  rfl

end

end Machine

end Baonix.Core

import Baonix.Core.Dispatch
import Baonix.Core.Operations
import Baonix.Core.Precise

/-!
# What the base instructions do

An instruction of the base set or an AMO leaves the registers, the program counter and RAM
as the manual says, if the data it accesses lies in RAM.
-/

namespace Baonix.Core

open LittleEndian (ofBytes ofBytes_lt toBytes)
open PageCache (Holds)

theorem Bus.bytesOf_eq {size : ℕ} (hsize : size ∈ [1, 2, 4, 8]) (value : BitVec 64) :
    Bus.bytesOf size value = toBytes size value.toNat := by
  apply LittleEndian.take_toBytes
  simp only [List.mem_cons, List.not_mem_nil, or_false] at hsize
  omega

/-- The bytes of a store are those of the value at its width. -/
theorem Bus.bytesOf_setWidth {size : ℕ} (hsize : size ∈ [1, 2, 4, 8]) (value : BitVec 64) :
    Bus.bytesOf size value = toBytes size (value.setWidth (8 * size)).toNat := by
  have hpow : (2 : ℕ) ^ (8 * size) = 256 ^ size := by
    rw [pow_mul]
    norm_num
  rw [Bus.bytesOf_eq hsize, BitVec.toNat_setWidth, hpow, LittleEndian.toBytes_mod]

namespace Machine

variable {B S : Type}

/-- What of a machine over this RAM the manual speaks of. -/
def hart (m : Machine B S) (memory : Memory) : Riscv.Hart := ⟨m.cpu.regs, m.cpu.pc, memory⟩

/-- An instruction has left the machine as `h`, but for the program counter, which the end
of the step sets. -/
structure Became [FlatBacking B] (len : BitVec 64) (h : Riscv.Hart) (start after : Machine B S) :
    Prop where
  regs : after.cpu.regs = h.regs
  pc : after.cpu.nextPc.getD (start.cpu.pc + len) = h.pc
  holds : Holds h.mem after.bus.cache
  clint : after.bus.clint = start.bus.clint

/-- Before an instruction of so many bytes. -/
structure Begun (len : BitVec 64) (start : Machine B S) : Prop where
  insnLen : start.cpu.insnLen = len
  nextPc : start.cpu.nextPc = none

variable [FlatBacking B] [ConsoleSink S]

/-- The instruction is done, and leaves the machine as `h`. -/
def Becomes (len : BitVec 64) (h : Riscv.Hart) (insn : Insn) (start : Machine B S) : Prop :=
  Exec.wp (execute insn) (fun _ => Became len h start) (fun _ _ => False) False start

omit [FlatBacking B] [ConsoleSink S] in
theorem regs_setReg (cpu : Cpu) (rd : BitVec 5) (v pc : BitVec 64) (memory : Memory) :
    (cpu.setReg rd v).regs = ((⟨cpu.regs, pc, memory⟩ : Riscv.Hart).set rd v).regs := by
  rw [Cpu.setReg, Riscv.Hart.set]
  by_cases hrd : rd = 0
  · rw [if_neg (not_not_intro hrd), if_pos hrd]
  · rw [if_pos hrd, if_neg hrd]

omit [FlatBacking B] [ConsoleSink S] in
theorem nextPc_setReg (cpu : Cpu) (rd : BitVec 5) (v : BitVec 64) :
    (cpu.setReg rd v).nextPc = cpu.nextPc := by
  unfold Cpu.setReg
  split <;> rfl

omit [FlatBacking B] [ConsoleSink S] in
theorem mem_set (h : Riscv.Hart) (rd : BitVec 5) (v : BitVec 64) : (h.set rd v).mem = h.mem := by
  unfold Riscv.Hart.set
  split <;> rfl

omit [FlatBacking B] [ConsoleSink S] in
theorem result_withMem (h : Riscv.Hart) (len : BitVec 64) (rd : BitVec 5) (v : BitVec 64)
    (left : Memory) :
    ({ h with mem := left } : Riscv.Hart).result len rd v =
      { h.result len rd v with mem := left } := by
  unfold Riscv.Hart.result Riscv.Hart.set
  split <;> rfl

/-! ## Registers -/

section

variable {memory : Memory} {start : Machine B S} {len : BitVec 64} {insn : Insn}

omit [ConsoleSink S] in
/-- A value is put into `rd` after some accesses. -/
theorem became_result (after : Machine B S) (hregs : after.cpu.regs = start.cpu.regs)
    (hnextPc : after.cpu.nextPc = none) (hholds : Holds memory after.bus.cache)
    (hclint : after.bus.clint = start.bus.clint) (v : BitVec 64) :
    Became len ((start.hart memory).result len (Riscv.rd insn) v) start
      { after with cpu := after.cpu.setReg (Insn.rd insn) v } := by
  constructor
  · rw [Insn.rd_eq]
    change (after.cpu.setReg (Riscv.rd insn) v).regs = _
    rw [regs_setReg after.cpu (Riscv.rd insn) v start.cpu.pc memory, hregs]
    rfl
  · change (after.cpu.setReg (Insn.rd insn) v).nextPc.getD _ = _
    rw [nextPc_setReg, hnextPc]
    rfl
  · change Holds ((start.hart memory).set _ _).mem _
    rw [mem_set]
    exact hholds
  · exact hclint

end

section

variable {memory : Memory} {start : Machine B S} (hm : Holds memory start.bus.cache)
  {len : BitVec 64} (hbegun : Begun len start) {insn : Insn}
include hm hbegun

theorem becomes_computed {v : BitVec 64}
    (hrun : (execute insn).run start = computed insn start (some v)) :
    Becomes len ((start.hart memory).result len (Riscv.rd insn) v) insn start :=
  Exec.wp_of_run_ok hrun (became_result start rfl hbegun.nextPc hm rfl v)

theorem becomes_linked {target : BitVec 64}
    (hrun : (execute insn).run start = linked insn start target) :
    Becomes len { (start.hart memory).set (Riscv.rd insn) (start.cpu.pc + len) with pc := target }
      insn start := by
  apply Exec.wp_of_run_ok hrun
  constructor
  · rw [Insn.rd_eq, hbegun.insnLen]
    exact regs_setReg (start.cpu.jump target) _ _ start.cpu.pc memory
  · rw [nextPc_setReg]
    rfl
  · change Holds ((start.hart memory).set _ _).mem _
    rw [mem_set]
    exact hm
  · rfl

theorem becomes_branched {target : BitVec 64} {taken : Bool}
    (hrun : (execute insn).run start = branched insn start target (some taken)) :
    Becomes len { start.hart memory with pc := if taken then target else start.cpu.pc + len } insn
      start := by
  cases taken with
  | true => exact Exec.wp_of_run_ok hrun ⟨rfl, rfl, hm, rfl⟩
  | false =>
      refine Exec.wp_of_run_ok hrun ⟨rfl, ?_, hm, rfl⟩
      rw [hbegun.nextPc]
      rfl

end

/-! ## Accesses of RAM -/

section

variable (hreliable : ¬Fallible B) {memory : Memory} {start : Machine B S}
  (hm : Holds memory start.bus.cache) {addr : BitVec 64} {size : ℕ}
  (hwidth : (Bus.widthOf size).isSome) (hram : Bus.inRam addr size)
include hreliable hm hwidth hram

omit [ConsoleSink S] in
theorem busLoad_ram (kind : Access) :
    Exec.wp (busLoad kind addr size)
      (fun value after => value = BitVec.ofNat 64 (ofBytes (memory.read addr.toNat size)) ∧
        Bus.Quiet memory start.bus after.bus ∧ after.cpu = start.cpu)
      (fun _ _ => False) False start := by
  rw [busLoad, Exec.wp_bind, Exec.wp_update, Exec.wp_zoom]
  apply (Bus.load_spec hm addr size).imp
  · rintro value bus ⟨hquiet, -, hvalue⟩
    rw [Bus.answer, if_pos hram] at hvalue
    exact ⟨hvalue, hquiet, rfl⟩
  · rintro err bus ⟨-, ⟨-, hrefused⟩ | ⟨-, -, hfallible⟩⟩
    · exact hrefused ⟨hwidth, .inl hram⟩
    · exact hreliable hfallible
  · exact fun hfalse => hfalse

theorem busStore_ram (value : BitVec 64) :
    Exec.wp (busStore addr size value)
      (fun _ after => Holds (memory.write addr.toNat (Bus.bytesOf size value)) after.bus.cache ∧
        after.bus.clint = start.bus.clint ∧ after.cpu = start.cpu)
      (fun _ _ => False) False start := by
  have hclint : Exec.wp (Bus.store addr size value) (fun _ after => after.clint = start.bus.clint)
      (fun _ _ => True) True start.bus := by
    obtain ⟨width, hsome⟩ := Option.isSome_iff_exists.mp hwidth
    rw [Bus.store, hsome]
    dsimp only
    rw [if_pos hram, Bus.onCache, Exec.wp_zoom]
    exact (Exec.wp_any _ _).imp (fun _ _ _ => rfl) (fun _ _ _ => trivial) fun _ => trivial
  rw [busStore, Exec.wp_bind, Exec.wp_update, Exec.wp_zoom]
  apply ((Bus.store_spec hm addr size value).and hclint).imp
  · rintro _ bus ⟨⟨hholds, -⟩, hclint⟩
    rw [Bus.stored, if_pos hram] at hholds
    exact ⟨hholds, hclint, rfl⟩
  · rintro err bus ⟨⟨-, hrefused, -⟩ | ⟨-, -, hfallible, -⟩, -⟩
    · exact hrefused ⟨hwidth, .inl hram⟩
    · exact hreliable hfallible
  · exact fun hfalse => hfalse.1

end

omit [FlatBacking B] [ConsoleSink S] in
theorem widthOf_isSome {size : ℕ} (hsize : size ∈ [1, 2, 4, 8]) : (Bus.widthOf size).isSome := by
  simp only [List.mem_cons, List.not_mem_nil, or_false] at hsize
  rcases hsize with rfl | rfl | rfl | rfl <;> rfl

omit [ConsoleSink S] in
/-- A translation changes the translation buffer alone. -/
theorem translate_cpu (vaddr : BitVec 64) (access : Access) (m : Machine B S) :
    Exec.wp (translate vaddr access) (fun _ after => ∃ mmu, after.cpu = { m.cpu with mmu := mmu })
      (fun _ _ => True) True m := by
  rw [translate, Exec.wp_bind, Exec.wp_read, Exec.wp_bind, Exec.wp_update, Exec.wp_zoom]
  exact (Exec.wp_any _ _).imp (fun _ system _ => ⟨system.mmu, rfl⟩) (fun _ _ _ => trivial)
    fun _ => trivial

omit [FlatBacking B] [ConsoleSink S] in
/-- An aligned access stays in its page. -/
theorem fitsPage_of_aligned {vaddr : BitVec 64} {size : ℕ} (hsize : size ∈ [1, 2, 4, 8])
    (haligned : vaddr.toNat % size = 0) : fitsPage vaddr size := by
  rw [fitsPage, Mmu.toNat_and_offset, Proto.pageSize]
  simp only [List.mem_cons, List.not_mem_nil, or_false] at hsize
  rcases hsize with rfl | rfl | rfl | rfl <;> omega

/-- The data an instruction accesses is aligned and translated to this place in RAM. -/
def Placed (instr : Riscv.Instr) (start : Machine B S) (place : BitVec 64) : Prop :=
  ∀ vaddr size stores, instr.access start.cpu.regs = some (vaddr, size, stores) →
    vaddr.toNat % size = 0 ∧ Bus.inRam place size ∧
      ∃ after, (translate vaddr (if stores then .store else .load)).run start = .ok place after

section

variable {memory : Memory} {start : Machine B S} {len : BitVec 64} {insn : Insn}
variable (hreliable : ¬Fallible B) (hm : Holds memory start.bus.cache)
  (hbegun : Begun len start) {place : BitVec 64}
include hreliable hm hbegun

theorem becomes_load (hopcode : Insn.opcode insn = 0x03) {size : ℕ} {signed : Bool}
    (hload : Riscv.decodeLoad insn = some (size, signed))
    (hplaced : Placed (.load size signed (Riscv.rd insn) (Riscv.rs1 insn) (Riscv.immI insn)) start
      place) :
    Becomes len (Riscv.Instr.run len place.toNat (start.hart memory)
      (.load size signed (Riscv.rd insn) (Riscv.rs1 insn) (Riscv.immI insn))) insn start := by
  obtain ⟨extended, hsome, hvalue⟩ := Rv64i.loadOf_eq hload
  obtain ⟨haligned, hram, middle, hpa⟩ := hplaced _ _ _ rfl
  have hsize := Riscv.decodeLoad_size hload
  have hmiddle := ((translate_spec hm _ .load).of_run_ok hpa).2
  obtain ⟨mmu, hcpu⟩ := (translate_cpu _ .load start).of_run_ok hpa
  have hbound : ofBytes (memory.read place.toNat size) < 256 ^ size := by
    have hlt := ofBytes_lt (memory.read place.toNat size)
    rwa [Memory.length_read] at hlt
  rw [Becomes, execute_load hopcode, Exec.wp_bind, Rv64i.load, Exec.wp_bind, Exec.wp_read, hsome,
    Insn.rs1_eq, Insn.immI_eq]
  dsimp only
  rw [Exec.wp_bind, vload, readTranslated, Cpu.reg, if_pos (fitsPage_of_aligned hsize haligned),
    Exec.wp_bind]
  apply Exec.wp_of_run_ok hpa
  apply (busLoad_ram hreliable hmiddle.holds (widthOf_isSome hsize) hram .load).imp
  · rintro value after ⟨rfl, hquiet, hafter⟩
    rw [Rv64i.retire, Exec.wp_bind, setReg, onCpu, Exec.wp_update, Exec.wp_pure, Exec.wp_pure,
      hvalue _ hbound]
    exact became_result after (by rw [hafter, hcpu]) (by rw [hafter, hcpu]; exact hbegun.nextPc)
      hquiet.holds (hquiet.clint.trans hmiddle.clint) _
  · exact fun _ _ hfalse => hfalse
  · exact fun hfalse => hfalse

theorem becomes_store (hopcode : Insn.opcode insn = 0x23) {size : ℕ}
    (hstore : Riscv.decodeStore insn = some size)
    (hplaced : Placed (.store size (Riscv.rs1 insn) (Riscv.rs2 insn) (Riscv.immS insn)) start
      place) :
    Becomes len (Riscv.Instr.run len place.toNat (start.hart memory)
      (.store size (Riscv.rs1 insn) (Riscv.rs2 insn) (Riscv.immS insn))) insn start := by
  obtain ⟨haligned, hram, middle, hpa⟩ := hplaced _ _ _ rfl
  have hsize := Riscv.decodeStore_size hstore
  have hmiddle := ((translate_spec hm _ .store).of_run_ok hpa).2
  obtain ⟨mmu, hcpu⟩ := (translate_cpu _ .store start).of_run_ok hpa
  rw [Becomes, execute_store hopcode, Exec.wp_bind, Rv64i.store, Exec.wp_bind, Exec.wp_read,
    Rv64i.storeOf_eq hstore, Insn.rs1_eq, Insn.rs2_eq, Insn.immS_eq]
  dsimp only
  rw [Exec.wp_bind, vstore, writeTranslated, Cpu.reg, if_pos (fitsPage_of_aligned hsize haligned),
    Exec.wp_bind]
  apply Exec.wp_of_run_ok hpa
  rw [Exec.wp_bind]
  apply (busStore_ram hreliable hmiddle.holds (widthOf_isSome hsize) hram _).imp
  · rintro _ after ⟨hholds, hclint, hafter⟩
    rw [onCpu, Exec.wp_update, Exec.wp_pure, Exec.wp_pure]
    obtain ⟨reservation, hreserved⟩ := exists_reservation after.cpu place size
    simp only [hreserved]
    constructor
    · change after.cpu.regs = start.cpu.regs
      rw [hafter, hcpu]
    · change after.cpu.nextPc.getD _ = _
      rw [hafter, hcpu]
      change start.cpu.nextPc.getD _ = _
      rw [hbegun.nextPc]
      rfl
    · rw [Bus.bytesOf_eq hsize] at hholds
      exact hholds
    · exact hclint.trans hmiddle.clint
  · exact fun _ _ hfalse => hfalse
  · exact fun hfalse => hfalse

theorem becomes_amo (hopcode : Insn.opcode insn = 0x2F) {op : Riscv.Amo} {size : ℕ}
    (hop : Riscv.decodeAmo insn = some op) (hwidth : Riscv.decodeWidth insn = some size)
    (hplaced : Placed (.amo op size (Riscv.rd insn) (Riscv.rs1 insn) (Riscv.rs2 insn)) start
      place) :
    Becomes len (Riscv.Instr.run len place.toNat (start.hart memory)
      (.amo op size (Riscv.rd insn) (Riscv.rs1 insn) (Riscv.rs2 insn))) insn start := by
  obtain ⟨-, hram, middle, hpa⟩ := hplaced _ _ _ rfl
  have hsize := Riscv.decodeWidth_size hwidth
  have hmem : size ∈ [1, 2, 4, 8] := by
    rcases hsize with rfl | rfl <;> decide
  have hmiddle := ((translate_spec hm _ .store).of_run_ok hpa).2
  obtain ⟨mmu, hcpu⟩ := (translate_cpu _ .store start).of_run_ok hpa
  obtain ⟨hlr, hsc⟩ : Rv64a.opOf insn ≠ 0x02 ∧ Rv64a.opOf insn ≠ 0x03 := Rv64a.opOf_ne hop
  rw [Becomes, execute_atomic hopcode, Exec.wp_bind, Rv64a.execute, if_neg (not_not_intro hopcode),
    Rv64a.sizeOf_eq hwidth, Insn.rs1_eq, Insn.rs2_eq]
  dsimp only
  rw [Exec.wp_bind, Exec.wp_read, Exec.wp_bind]
  apply Exec.wp_of_run_ok hpa
  rw [Exec.wp_bind, Rv64a.perform, if_neg hlr, if_neg hsc, Rv64a.readModifyWrite, Exec.wp_bind]
  apply (busLoad_ram hreliable hmiddle.holds (widthOf_isSome hmem) hram .load).imp
  · rintro old read ⟨rfl, hread, hreadCpu⟩
    obtain ⟨new, hsome, hnew⟩ := Rv64a.amo_eq hop hsize
      (BitVec.ofNat 64 (ofBytes (memory.read place.toNat size)))
      (start.cpu.reg (Riscv.rs2 insn))
    have hold : (BitVec.ofNat 64 (ofBytes (memory.read place.toNat size))).setWidth (8 * size) =
        (start.hart memory).fetch place.toNat size :=
      BitVec.setWidth_ofNat_of_le (by omega) _
    rw [hsome]
    dsimp only
    rw [Exec.wp_bind]
    apply (busStore_ram hreliable hread.holds (widthOf_isSome hmem) hram new).imp
    · rintro _ after ⟨hholds, hclint, hafter⟩
      rw [Exec.wp_bind, onCpu, Exec.wp_update, setReg, onCpu, Exec.wp_update, Exec.wp_pure,
        Exec.wp_pure]
      obtain ⟨reservation, hreserved⟩ := exists_reservation after.cpu place size
      simp only [hreserved]
      rw [Bus.bytesOf_setWidth hmem, hnew, hold] at hholds
      rw [Rv64a.ext_eq hsize, hold]
      have hreservedRegs : ({ after.cpu with reservation := reservation } : Cpu).regs =
          start.cpu.regs := by
        rw [hafter, hreadCpu, hcpu]
      have hreservedNext : ({ after.cpu with reservation := reservation } : Cpu).nextPc = none := by
        rw [hafter, hreadCpu, hcpu]
        exact hbegun.nextPc
      rw [Riscv.Instr.run, ← result_withMem]
      exact became_result { after with cpu := { after.cpu with reservation := reservation } }
        hreservedRegs hreservedNext hholds (hclint.trans (hread.clint.trans hmiddle.clint)) _
    · exact fun _ _ hfalse => hfalse
    · exact fun hfalse => hfalse
  · exact fun _ _ hfalse => hfalse
  · exact fun hfalse => hfalse

/-- **An instruction** has the effect the manual gives it. -/
theorem execute_becomes {instr : Riscv.Instr} (hdecode : Riscv.decode insn = some instr)
    (hplaced : Placed instr start place) :
    Becomes len (instr.run len place.toNat (start.hart memory)) insn start := by
  have hopcode {code : BitVec 32} (hcode : (Riscv.opcode insn).toNat = code.toNat) :
      Insn.opcode insn = code := BitVec.eq_of_toNat_eq ((Insn.toNat_opcode insn).trans hcode)
  unfold Riscv.decode at hdecode
  split at hdecode
  · next h =>
      cases hdecode
      have hrun := execute_lui start (hopcode h)
      rw [Insn.immU_eq] at hrun
      exact becomes_computed hm hbegun hrun
  · next h =>
      cases hdecode
      have hrun := execute_auipc start (hopcode h)
      rw [Insn.immU_eq] at hrun
      exact becomes_computed hm hbegun hrun
  · next h =>
      cases hdecode
      have hrun := execute_jal start (hopcode h)
      rw [Insn.immJ_eq] at hrun
      exact becomes_linked hm hbegun hrun
  · next h =>
      split at hdecode <;> cases hdecode
      have hrun := execute_jalr start (hopcode h)
      rw [Insn.rs1_eq, Insn.immI_eq] at hrun
      exact becomes_linked hm hbegun hrun
  · next h =>
      obtain ⟨cond, hcond, rfl⟩ := Option.map_eq_some_iff.mp hdecode
      have hrun := execute_branch start (hopcode h)
      rw [Rv64i.taken_eq hcond, Insn.rs1_eq, Insn.rs2_eq, Insn.immB_eq] at hrun
      have hbranch := becomes_branched hm hbegun hrun
      rw [← apply_ite (start.cpu.pc + ·)] at hbranch
      exact hbranch
  · next h =>
      obtain ⟨⟨size, signed⟩, hload, rfl⟩ := Option.map_eq_some_iff.mp hdecode
      exact becomes_load hreliable hm hbegun (hopcode h) hload hplaced
  · next h =>
      obtain ⟨size, hstore, rfl⟩ := Option.map_eq_some_iff.mp hdecode
      exact becomes_store hreliable hm hbegun (hopcode h) hstore hplaced
  · next h =>
      obtain ⟨op, hop, rfl⟩ := Option.map_eq_some_iff.mp hdecode
      have hrun := execute_opImm start (hopcode h)
      rw [Rv64i.opImm_eq hop, Insn.rs1_eq] at hrun
      exact becomes_computed hm hbegun hrun
  · next h =>
      obtain ⟨op, hop, rfl⟩ := Option.map_eq_some_iff.mp hdecode
      have hrun := execute_opImm32 start (hopcode h)
      rw [Rv64i.opImm32_eq hop, Insn.rs1_eq] at hrun
      exact becomes_computed hm hbegun hrun
  · next h =>
      obtain ⟨op, hop, rfl⟩ := Option.map_eq_some_iff.mp hdecode
      have hrun := execute_op start (hopcode h) (Rv64i.funct7_ne_of_op hop)
      rw [Rv64i.op_eq hop, Insn.rs1_eq, Insn.rs2_eq] at hrun
      exact becomes_computed hm hbegun hrun
  · next h =>
      obtain ⟨op, hop, rfl⟩ := Option.map_eq_some_iff.mp hdecode
      have hrun := execute_op32 start (hopcode h) (Rv64i.funct7_ne_of_op32 hop)
      rw [Rv64i.op32_eq hop, Insn.rs1_eq, Insn.rs2_eq] at hrun
      exact becomes_computed hm hbegun hrun
  · next h =>
      split at hdecode <;> cases hdecode
      next hfunct3 =>
        have hle : (Insn.funct3 insn).toNat ≤ 1 := by
          rw [Insn.toNat_funct3]
          rcases hfunct3 with hzero | hone
          · rw [hzero]; decide
          · rw [hone]; decide
        have hrun := execute_fence start (hopcode h)
        rw [if_pos hle] at hrun
        refine Exec.wp_of_run_ok hrun ⟨rfl, ?_, hm, rfl⟩
        rw [hbegun.nextPc]
        rfl
  · next h =>
      obtain ⟨op, hop, hrest⟩ := Option.bind_eq_some_iff.mp hdecode
      obtain ⟨size, hwidth, rfl⟩ := Option.map_eq_some_iff.mp hrest
      exact becomes_amo hreliable hm hbegun (hopcode h) hop hwidth hplaced
  · cases hdecode

end

/-! ## Steps -/

/-- A step has left the machine as `h`, with one more instruction retired. -/
structure Effected [FlatBacking B] (h : Riscv.Hart) (m after : Machine B S) : Prop where
  regs : after.cpu.regs = h.regs
  pc : after.cpu.pc = h.pc
  holds : Holds h.mem after.bus.cache
  clint : after.bus.clint = m.bus.clint
  csrs : after.cpu.csrs = m.cpu.csrs
  priv : after.cpu.priv = m.cpu.priv
  instret : after.cpu.instret = m.cpu.instret + 1

/-- RAM, which held this, and the interruptor are as they were. -/
def Calm (memory : Memory) (start after : Machine B S) : Prop :=
  Holds memory start.bus.cache → Bus.Quiet memory start.bus after.bus

instance (memory : Memory) : IsPreorder (Machine B S) (Calm memory) where
  refl _ hm := .refl hm
  trans _ _ _ hleft hright hm := (hleft hm).trans (hright (hleft hm).holds)

omit [ConsoleSink S] in
theorem calm_of_spec {Value : Type} {memory : Memory} {program : MachineM B S Value}
    (hprogram : ∀ m : Machine B S, Holds memory m.bus.cache →
      Exec.wp program (fun _ after => Bus.Quiet memory m.bus after.bus)
        (fun _ after => Bus.Quiet memory m.bus after.bus) False m) :
    Exec.Keeps (Calm memory) program := by
  intro m
  by_cases hm : Holds memory m.bus.cache
  · exact (hprogram m hm).imp (fun _ _ hafter _ => hafter) (fun _ _ hafter _ => hafter)
      fun _ => trivial
  · exact (Exec.wp_any program m).imp (fun _ _ _ hholds => absurd hholds hm)
      (fun _ _ _ hholds => absurd hholds hm) fun _ => trivial

omit [ConsoleSink S] in
theorem calm_reads (memory : Memory) (kind : Access) : Reads kind (@Calm B S _ memory) where
  translate vaddr := calm_of_spec fun _ hm => (translate_spec hm vaddr kind).imp
    (fun _ _ hafter => hafter.2) (fun _ _ hafter => hafter.2) (fun hfalse => hfalse)
  busLoad addr size := calm_of_spec fun _ hm => (busLoad_spec hm kind addr size).imp
    (fun _ _ hafter => hafter.1) (fun _ _ hafter => hafter.1) (fun hfalse => hfalse)

omit [FlatBacking B] [ConsoleSink S] in
theorem opcode_ne_system {insn : Insn} {instr : Riscv.Instr}
    (hdecode : Riscv.decode insn = some instr) : Insn.opcode insn ≠ 0x73 := by
  intro hsystem
  rw [Riscv.decode, ← Insn.toNat_opcode, hsystem] at hdecode
  cases hdecode

omit [ConsoleSink S] in
/-- A fetch leaves alone what the manual speaks of. -/
theorem hart_begun {memory : Memory} {m fetched : Machine B S} {fields : Insn × BitVec 64}
    (hfetch : fetchInsn.run m = .ok fields fetched) (len : BitVec 64) :
    (begun len fetched).hart memory = m.hart memory := by
  have hcore := ((sameCore_reads .fetch).fetchInsn_keeps m).of_run_ok hfetch
  change (⟨fetched.cpu.regs, fetched.cpu.pc, memory⟩ : Riscv.Hart) = _
  rw [hcore.regs, hcore.pc]
  rfl

omit [ConsoleSink S] in
theorem holds_begun {memory : Memory} {m fetched : Machine B S} (hm : Holds memory m.bus.cache)
    {fields : Insn × BitVec 64} (hfetch : fetchInsn.run m = .ok fields fetched) (len : BitVec 64) :
    Holds memory (begun len fetched).bus.cache :=
  (((calm_reads memory .fetch).fetchInsn_keeps m).of_run_ok hfetch hm).holds

/-- The end of a step, whose instruction makes the machine `h`. -/
theorem step_of_becomes {memory : Memory} {m fetched : Machine B S}
    (hm : Holds memory m.bus.cache) {insn : Insn} {len : BitVec 64}
    (hfetch : fetchInsn.run m = .ok (insn, len) fetched) (hsystem : Insn.opcode insn ≠ 0x73)
    {h : Riscv.Hart} (hbecomes : Becomes len h insn (begun len fetched)) :
    ∃ after, step.run m = .ok ⟨⟩ after ∧ Effected h m after := by
  have hcalm := ((calm_reads memory .fetch).fetchInsn_keeps m).of_run_ok hfetch hm
  have hcore := ((sameCore_reads .fetch).fetchInsn_keeps m).of_run_ok hfetch
  obtain ⟨_, middle, hrun, hmiddle⟩ := Exec.wp.exists_ok hbecomes
  have hsame : SameControl (begun len fetched) middle :=
    (sameControl_framed.execute_keeps insn (fun h _ => absurd h hsystem)
      (fun h _ => absurd h hsystem) (begun len fetched)).of_run_ok hrun
  rw [step_of_fetched hfetch, Exec.run_bind_ok hrun]
  refine ⟨_, rfl, hmiddle.regs, ?_, hmiddle.holds, hmiddle.clint.trans hcalm.clint,
    hsame.csrs.trans hcore.csrs, hsame.priv.trans hcore.priv, ?_⟩
  · rw [← hmiddle.pc, ← hsame.pc]
    rfl
  · change middle.cpu.instret + 1 = _
    rw [hsame.instret]
    exact congrArg (· + 1) hcore.instret

/-- **A step** has the effect of its instruction. -/
theorem step_effect (hreliable : ¬Fallible B) {memory : Memory} {m fetched : Machine B S}
    (hm : Holds memory m.bus.cache) {insn : Insn} {len : BitVec 64}
    (hfetch : fetchInsn.run m = .ok (insn, len) fetched) {instr : Riscv.Instr}
    (hdecode : Riscv.decode insn = some instr) {place : BitVec 64}
    (hplaced : Placed instr (begun len fetched) place) :
    ∃ after, step.run m = .ok ⟨⟩ after ∧
      Effected (instr.run len place.toNat (m.hart memory)) m after := by
  have hbecomes := execute_becomes hreliable (holds_begun hm hfetch len) ⟨rfl, rfl⟩ hdecode hplaced
  rw [hart_begun hfetch] at hbecomes
  exact step_of_becomes hm hfetch (opcode_ne_system hdecode) hbecomes

/-- **The base instructions and the AMOs** have the effect the manual gives them, whatever
the registers hold and whichever of them coincide, and `x0` reads as zero in every state
reached. -/
theorem base_instructions_effect (hreliable : ¬Fallible B) :
    (∀ (memory : Memory) (m fetched : Machine B S) (insn : Insn) (instr : Riscv.Instr)
        (place : BitVec 64), Holds memory m.bus.cache → fetchInsn.run m = .ok (insn, 4) fetched →
      Riscv.decode insn = some instr → Placed instr (begun 4 fetched) place →
        ∃ after, step.run m = .ok ⟨⟩ after ∧
          Effected (instr.run 4 place.toNat (m.hart memory)) m after) ∧
    ∀ m after : Machine B S, m.cpu.reg 0 = 0 → Reaches (fun _ => True) m after →
      after.cpu.reg 0 = 0 :=
  ⟨fun _ _ _ _ _ _ hm hfetch hdecode hplaced => step_effect hreliable hm hfetch hdecode hplaced,
    fun _ _ hstart hruns => regZero_reached hruns hstart⟩

omit [ConsoleSink S] in
/-- Where paging is off, an address stands for itself. -/
theorem translate_bare {m : Machine B S} (hbare : ¬Mmu.paging m.cpu.csrs m.cpu.priv)
    (vaddr : BitVec 64) (access : Access) :
    ∃ after, (translate vaddr access).run m = .ok vaddr after := by
  have hwp : Exec.wp (translate vaddr access) (fun pa _ => pa = vaddr) (fun _ _ => False) False
      m := by
    rw [translate, Exec.wp_bind, Exec.wp_read, Exec.wp_bind, Exec.wp_update, Exec.wp_zoom,
      Mmu.translate, if_pos hbare]
    exact rfl
  obtain ⟨_, after, hrun, rfl⟩ := hwp.exists_ok
  exact ⟨after, hrun⟩

/-- `amoadd.w x1, x1, (x1)`. -/
def addsItself : Machine FakeBacking (List LittleEndian.Byte) :=
  overPages (firstPage [0x0010A0AF, 0x11]) ((Cpu.new 0x80000000).setReg 1 0x80000008)

/-- The three registers are one. -/
theorem base_instructions_effect_addsItself :
    ∃ after, step.run addsItself = .ok ⟨⟩ after ∧
      Effected ((Riscv.Instr.amo .add 4 1 1 1).run 4 0x80000008
        (addsItself.hart (flat (firstPage [0x0010A0AF, 0x11])))) addsItself after := by
  obtain ⟨fetched, hfetch⟩ : ∃ fetched, fetchInsn.run addsItself = .ok (0x0010A0AF, 4) fetched :=
    exists_fetched (by decide +kernel)
  have hcore := ((sameCore_reads .fetch).fetchInsn_keeps addsItself).of_run_ok hfetch
  refine (base_instructions_effect not_fallible_fakeBacking).1 _ addsItself fetched 0x0010A0AF
    (.amo .add 4 1 1 1) 0x80000008 (Sv39.holds_busOver _) hfetch rfl ?_
  have haddr : (begun 4 fetched).cpu.regs 1 = 0x80000008 := congrFun hcore.regs 1
  have hbare : ¬Mmu.paging (begun 4 fetched).cpu.csrs (begun 4 fetched).cpu.priv :=
    fun hpaging => hpaging.2 hcore.priv
  intro vaddr size stores haccess
  rw [Riscv.Instr.access, haddr] at haccess
  cases haccess
  exact ⟨by decide, by decide, translate_bare hbare _ _⟩

end Machine

end Baonix.Core

import Baonix.Core.Bare
import Baonix.Difftest.Chunks

/-!
# Steps over a generated image

The image lies at the base of RAM, and nothing but its scratch page changes.  A step of the
processor then executes the instruction that lies where the program counter is.
-/

namespace Baonix.Difftest

open Baonix.Core (Cpu FlatBacking ConsoleSink Insn Machine Fallible)
open Baonix.Core.Machine
open LittleEndian (toBytes)
open Core.PageCache (Holds)
open Riscv (Hart Instr Reg)
open Window (window)

/-! ## Layout -/

/-- The instructions lie in the image one after the other. -/
def Laid (image : List LittleEndian.Byte) : ℕ → List Ins → Prop
  | _, [] => True
  | o, ins :: rest => window image o ins.size = ins.bytes ∧ Laid image (o + ins.size) rest

/-- The addresses of the instructions that lie there. -/
def boundaries : ℕ → List Ins → List (BitVec 64)
  | _, [] => []
  | o, ins :: rest => addressOf o :: boundaries (o + ins.size) rest

theorem codeLen_cons (ins : Ins) (rest : List Ins) :
    codeLen (ins :: rest) = ins.size + codeLen rest := rfl

theorem codeLen_append (code rest : List Ins) :
    codeLen (code ++ rest) = codeLen code + codeLen rest := by
  rw [codeLen, List.map_append, List.sum_append]
  rfl

theorem laid_append {image : List LittleEndian.Byte} {o : ℕ} {code rest : List Ins} :
    Laid image o (code ++ rest) ↔ Laid image o code ∧ Laid image (o + codeLen code) rest := by
  induction code generalizing o with
  | nil =>
      rw [List.nil_append, Laid, true_and]
      rfl
  | cons ins code ih =>
      rw [List.cons_append, Laid, Laid, ih, codeLen_cons, Nat.add_assoc, and_assoc]

theorem boundaries_append (o : ℕ) (code rest : List Ins) :
    boundaries o (code ++ rest) = boundaries o code ++ boundaries (o + codeLen code) rest := by
  induction code generalizing o with
  | nil => rfl
  | cons ins code ih =>
      rw [List.cons_append, boundaries, boundaries, ih, codeLen_cons, Nat.add_assoc,
        List.cons_append]

/-! ## Addresses -/

theorem toNat_addressOf {o : ℕ} (ho : o < imageLen) :
    (addressOf o).toNat = Core.ramBase + o := by
  have hbase : Core.ramBase = 0x80000000 := rfl
  have hlen : imageLen = 0x3000 := rfl
  rw [addressOf, BitVec.toNat_ofNat, Nat.mod_eq_of_lt (by omega)]

theorem addressOf_add (o d : ℕ) : addressOf o + BitVec.ofNat 64 d = addressOf (o + d) := by
  rw [addressOf, addressOf, ← BitVec.ofNat_add, Nat.add_assoc]

/-- The whole access lies in the scratch page, at a multiple of its width. -/
def InScratch (addr : BitVec 64) (size : ℕ) : Prop :=
  Core.ramBase + scratchOff ≤ addr.toNat ∧ addr.toNat + size ≤ Core.ramBase + imageLen ∧
    addr.toNat % size = 0

/-! ## The image in memory -/

/-- The image lies at the base of RAM, but for the scratch page. -/
def Intact (image : List LittleEndian.Byte) (memory : Memory) : Prop :=
  ∀ o < scratchOff, image[o]? = some (memory (Core.ramBase + o))

theorem read_of_intact {image : List LittleEndian.Byte} {memory : Memory}
    (hintact : Intact image memory) {o n : ℕ} (hfits : o + n ≤ scratchOff) :
    memory.read (Core.ramBase + o) n = window image o n := by
  apply List.ext_getElem?
  intro i
  rw [Window.getElem?_window, Memory.read, List.getElem?_map]
  by_cases hi : i < n
  · rw [if_pos hi, hintact _ (by omega), List.getElem?_range hi, Option.map_some, Nat.add_assoc]
  · rw [if_neg hi, List.getElem?_eq_none (by rw [List.length_range]; omega)]
    rfl

/-- A store into the scratch page, or beyond, leaves the rest. -/
theorem Intact.touches {image : List LittleEndian.Byte} {memory left : Memory}
    (hintact : Intact image memory) {addr size : ℕ} (htouches : Touches memory addr size left)
    (haddr : Core.ramBase + scratchOff ≤ addr) : Intact image left := by
  obtain ⟨bytes, -, rfl⟩ := htouches
  intro o ho
  rw [hintact o ho, Memory.write_of_outside _ (by omega)]

/-! ## Steps -/

variable {B S : Type} [FlatBacking B]

/-- The processor is in machine mode, over a memory that holds the image. -/
structure Ready (image : List LittleEndian.Byte) (m : Machine B S) : Prop where
  intact : ∃ memory, Holds memory m.bus.cache ∧ Intact image memory
  priv : m.cpu.priv = .m

variable [ConsoleSink S]

/-- A step that leaves the registers as `h`, and reaches for no other data. -/
structure Stepped (image : List LittleEndian.Byte) (allowed : BitVec 64 → ℕ → Prop) (h : Hart)
    (m after : Machine B S) : Prop where
  run : step.run m = .ok ⟨⟩ after
  regs : after.cpu.regs = h.regs
  pc : after.cpu.pc = h.pc
  ready : Ready image after
  reaching : Reaching allowed m after

theorem inRam_addressOf {o n : ℕ} (hfits : o + n ≤ imageLen) (ho : o < imageLen) :
    Core.Bus.inRam (addressOf o) n := by
  have hsize : Core.ramSize = 0x2000000 := rfl
  have hlen : imageLen = 0x3000 := rfl
  rw [Core.Bus.inRam_iff, Core.InRam, toNat_addressOf ho]
  omega

/-- The code lies in one page. -/
theorem fitsPage_addressOf {o n : ℕ} (hfits : o + n ≤ codeLimit) (hn : 0 < n) :
    fitsPage (addressOf o) n := by
  have hbase : Core.ramBase = 0x80000000 := rfl
  have hlimit : codeLimit = 0x1000 := rfl
  have hlen : imageLen = 0x3000 := rfl
  rw [fitsPage, Core.Mmu.toNat_and_offset, toNat_addressOf (by omega), Proto.pageSize]
  omega

section

variable (hreliable : ¬Fallible B) {image : List LittleEndian.Byte} {m : Machine B S} {o : ℕ}
  (hpc : m.cpu.pc = addressOf o) (ho : o + 4 ≤ codeLimit) {ins : Ins}
  (hlaid : window image o ins.size = ins.bytes)

include hreliable hpc ho hlaid

omit [ConsoleSink S] in
theorem fetch_ins {memory : Memory} (hm : Holds memory m.bus.cache) (hintact : Intact image memory)
    (hpriv : m.cpu.priv = .m) {insn : Insn} (hreads : ins.Reads insn) :
    ∃ fetched, fetchInsn.run m = .ok (insn, BitVec.ofNat 64 ins.size) fetched := by
  have hlimit : codeLimit = 0x1000 := rfl
  have hscratch : scratchOff = 0x2000 := rfl
  have hlen : imageLen = 0x3000 := rfl
  have hbytes (n : ℕ) (hn : n ≤ 4) (hsize : ins.size = n) :
      memory.read m.cpu.pc.toNat n = toBytes n ins.word.toNat := by
    rw [hsize] at hlaid
    rw [hpc, toNat_addressOf (by omega), read_of_intact hintact (by omega), hlaid, Ins.bytes, hsize,
      LittleEndian.take_toBytes hn]
  rcases hreads with ⟨hsize, hlow, rfl⟩ | ⟨hsize, hlow, hexpand⟩
  · rw [hsize]
    refine fetchInsn_word hreliable hm hpriv ?_ ?_ (hbytes 4 le_rfl hsize) hlow
    · rw [hpc]
      exact fitsPage_addressOf ho (by norm_num)
    · rw [hpc]
      exact inRam_addressOf (by omega) (by omega)
  · rw [hsize]
    refine fetchInsn_half hreliable hm hpriv ?_ ?_ (hbytes 2 (by norm_num) hsize) hlow hexpand
    · rw [hpc]
      exact fitsPage_addressOf (by omega) (by norm_num)
    · rw [hpc]
      exact inRam_addressOf (by omega) (by omega)

end

/-- The end of a step. -/
theorem stepped_of_becomes {image : List LittleEndian.Byte} {allowed : BitVec 64 → ℕ → Prop}
    {memory : Memory} {m fetched : Machine B S} (hm : Holds memory m.bus.cache)
    (hpriv : m.cpu.priv = .m) {insn : Insn} {len : BitVec 64}
    (hfetch : fetchInsn.run m = .ok (insn, len) fetched) (hsystem : Core.Insn.opcode insn ≠ 0x73)
    {h : Hart} (hbecomes : Becomes len h insn (begun len fetched)) (hintact : Intact image h.mem)
    (hreaching : Exec.wp (execute insn) (fun _ => Reaching allowed (begun len fetched))
      (fun _ => Reaching allowed (begun len fetched)) True (begun len fetched)) :
    ∃ after, Stepped image allowed h m after := by
  obtain ⟨after, hrun, heffected⟩ := step_of_becomes hm hfetch hsystem hbecomes
  exact ⟨after, hrun, heffected.regs, heffected.pc,
    ⟨⟨h.mem, heffected.holds, hintact⟩, heffected.priv.trans hpriv⟩,
    step_issues hfetch hreaching hrun⟩

/-! ### Instructions of the manual -/

omit [FlatBacking B] [ConsoleSink S] in
theorem mem_result (h : Hart) (len : BitVec 64) (rd : Reg) (v : BitVec 64) :
    (h.result len rd v).mem = h.mem :=
  mem_set h rd v

omit [FlatBacking B] [ConsoleSink S] in
/-- Memory changes where the instruction stores. -/
theorem run_mem (instr : Instr) (len : BitVec 64) (place : ℕ) (h : Hart) :
    (instr.run len place h).mem = h.mem ∨
      ∃ addr size, instr.access h.regs = some (addr, size, true) ∧
        Touches h.mem place size (instr.run len place h).mem := by
  cases instr with
  | lui rd imm => exact .inl (mem_result ..)
  | auipc rd imm => exact .inl (mem_result ..)
  | jal rd offset => exact .inl (mem_set ..)
  | jalr rd rs1 imm => exact .inl (mem_set ..)
  | branch cond rs1 rs2 offset => exact .inl rfl
  | load size signed rd rs1 imm => exact .inl (mem_result ..)
  | store size rs1 rs2 imm =>
      exact .inr ⟨_, size, rfl, _, (LittleEndian.length_toBytes ..).le, rfl⟩
  | arithImm op rd rs1 imm => exact .inl (mem_result ..)
  | arithImmW op rd rs1 imm => exact .inl (mem_result ..)
  | arith op rd rs1 rs2 => exact .inl (mem_result ..)
  | arithW op rd rs1 rs2 => exact .inl (mem_result ..)
  | fence => exact .inl rfl
  | amo op size rd rs1 rs2 =>
      exact .inr ⟨_, size, rfl, _, (LittleEndian.length_toBytes ..).le, rfl⟩

omit [FlatBacking B] [ConsoleSink S] in
/-- An instruction that accesses data goes on to the next one. -/
theorem run_pc_of_access {instr : Instr} (len : BitVec 64) (place : ℕ) (h : Hart)
    (haccess : instr.access h.regs ≠ none) : (instr.run len place h).pc = h.pc + len := by
  cases instr with
  | load => rfl
  | store => rfl
  | amo => rfl
  | _ => exact absurd rfl haccess

omit [FlatBacking B] [ConsoleSink S] in
theorem access_of_plain {instr : Instr} (hplain : instr.Plain) (regs : Reg → BitVec 64) :
    instr.access regs = none := by
  cases instr with
  | load => exact hplain.elim
  | store => exact hplain.elim
  | amo => exact hplain.elim
  | _ => rfl

omit [FlatBacking B] [ConsoleSink S] in
theorem run_pc_of_plain {instr : Instr} (hplain : instr.Plain) (len : BitVec 64) (place : ℕ)
    (h : Hart) : (instr.run len place h).pc = h.pc + len := by
  cases instr with
  | jal => exact hplain.elim
  | jalr => exact hplain.elim
  | branch => exact hplain.elim
  | _ => rfl

/-- The data lies in RAM and may be accessed, and only the scratch page is stored to. -/
structure Permitted (allowed : BitVec 64 → ℕ → Prop) (addr : BitVec 64) (size : ℕ)
    (stores : Bool) : Prop where
  aligned : addr.toNat % size = 0
  inRam : Core.Bus.inRam addr size
  allowed : allowed addr size
  stores : stores → Core.ramBase + scratchOff ≤ addr.toNat

section

variable (hreliable : ¬Fallible B) {image : List LittleEndian.Byte} {m : Machine B S}
  (hready : Ready image m) {o : ℕ} (hpc : m.cpu.pc = addressOf o) (ho : o + 4 ≤ codeLimit)
  {ins : Ins} (hlaid : window image o ins.size = ins.bytes)
  (allowed : BitVec 64 → ℕ → Prop)

include hreliable hready hpc ho hlaid

/-- **An instruction of the manual** is executed where it lies. -/
theorem stepped_means {instr : Instr} (hmeans : ins.Means instr)
    (hpermitted : ∀ addr size stores, instr.access m.cpu.regs = some (addr, size, stores) →
      Permitted allowed addr size stores) :
    ∃ memory place after,
      Stepped image allowed (instr.run (BitVec.ofNat 64 ins.size) place (m.hart memory)) m
        after := by
  obtain ⟨insn, hreads, hdecode⟩ := hmeans
  obtain ⟨⟨memory, hm, hintact⟩, hpriv⟩ := hready
  obtain ⟨fetched, hfetch⟩ := fetch_ins hreliable hpc ho hlaid hm hintact hpriv hreads
  have hcore := ((Core.Machine.sameCore_reads .fetch).fetchInsn_keeps m).of_run_ok hfetch
  have hregs : (begun (BitVec.ofNat 64 ins.size) fetched).cpu.regs = m.cpu.regs := hcore.regs
  have hbare : (begun (BitVec.ofNat 64 ins.size) fetched).cpu.priv = .m := hcore.priv.trans hpriv
  obtain ⟨place, hplace⟩ : ∃ place : BitVec 64, ∀ addr size stores,
      instr.access m.cpu.regs = some (addr, size, stores) → addr = place := by
    cases haccess : instr.access m.cpu.regs with
    | none => exact ⟨0, fun _ _ _ hsome => by cases hsome⟩
    | some access =>
        refine ⟨access.1, fun addr size stores hsome => ?_⟩
        cases hsome
        rfl
  have hplaced : Placed instr (begun (BitVec.ofNat 64 ins.size) fetched) place := by
    intro addr size stores haccess
    rw [hregs] at haccess
    obtain rfl := hplace addr size stores haccess
    have hdata := hpermitted addr size stores haccess
    exact ⟨hdata.aligned, hdata.inRam, translate_bare (not_paging hbare) addr _⟩
  have hbecomes := execute_becomes hreliable (holds_begun hm hfetch _) ⟨rfl, rfl⟩ hdecode hplaced
  rw [hart_begun hfetch] at hbecomes
  refine ⟨memory, place.toNat, stepped_of_becomes hm hpriv hfetch (opcode_ne_system hdecode)
    hbecomes ?_ ?_⟩
  · rcases run_mem instr (BitVec.ofNat 64 ins.size) place.toNat (m.hart memory) with
      hsame | ⟨addr, size, haccess, htouches⟩
    · rw [hsame]
      exact hintact
    · obtain rfl := hplace addr size true haccess
      exact hintact.touches htouches ((hpermitted _ _ _ haccess).stores rfl)
  · apply execute_issues hbare hdecode
    intro addr size stores haccess
    rw [hregs] at haccess
    exact ⟨(hpermitted _ _ _ haccess).aligned, (hpermitted _ _ _ haccess).allowed⟩

/-- An instruction that computes goes on to the next one. -/
theorem stepped_computes (hcomputes : ins.Computes) :
    ∃ h after, Stepped image allowed h m after ∧
      h.pc = m.cpu.pc + BitVec.ofNat 64 ins.size := by
  obtain ⟨insn, hreads, ⟨instr, hdecode, hplain⟩ | hmul⟩ := hcomputes
  · obtain ⟨memory, place, after, hstepped⟩ := stepped_means hreliable hready hpc ho hlaid
      allowed ⟨insn, hreads, hdecode⟩ fun addr size stores haccess => by
        rw [access_of_plain hplain] at haccess
        cases haccess
    exact ⟨_, after, hstepped, run_pc_of_plain hplain ..⟩
  · obtain ⟨⟨memory, hm, hintact⟩, hpriv⟩ := hready
    obtain ⟨fetched, hfetch⟩ := fetch_ins hreliable hpc ho hlaid hm hintact hpriv hreads
    have hbegun : Begun (BitVec.ofNat 64 ins.size) (begun (BitVec.ofNat 64 ins.size) fetched) :=
      ⟨rfl, rfl⟩
    obtain ⟨v, hbecomes⟩ := becomes_mul (holds_begun hm hfetch _) hbegun hmul
    rw [hart_begun hfetch] at hbecomes
    have hend (code : BitVec 32) (hopcode : Core.Insn.opcode insn = code)
        (hcode : code ∉ [(0x2F : BitVec 32), 0x03, 0x23, 0x73]) :
        ∃ after, Stepped image allowed
          ((m.hart memory).result (BitVec.ofNat 64 ins.size) (Riscv.rd insn) v) m after := by
      apply stepped_of_becomes hm hpriv hfetch _ hbecomes
      · rw [mem_result]
        exact hintact
      · exact register_issues hopcode hcode _
      · intro hsystem
        rw [← hopcode, hsystem] at hcode
        exact hcode (by decide)
    obtain ⟨⟨-, hopcode | hopcode⟩, -⟩ := mul_isSome hmul 0 0
    · obtain ⟨after, hstepped⟩ := hend 0x33 hopcode (by decide)
      exact ⟨_, after, hstepped, rfl⟩
    · obtain ⟨after, hstepped⟩ := hend 0x3B hopcode (by decide)
      exact ⟨_, after, hstepped, rfl⟩

end

/-! ### Accesses of the scratch page -/

omit [FlatBacking B] [ConsoleSink S] in
theorem permitted_of_scratch {addr : BitVec 64} {size : ℕ} (hscratch : InScratch addr size)
    (stores : Bool) : Permitted InScratch addr size stores := by
  have hsize : Core.ramSize = 0x2000000 := rfl
  have hlen : imageLen = 0x3000 := rfl
  refine ⟨hscratch.2.2, ?_, hscratch, fun _ => hscratch.1⟩
  obtain ⟨hlow, hhigh, -⟩ := hscratch
  rw [Core.Bus.inRam_iff, Core.InRam]
  omega

/-- An address in the part of the scratch page the operands are computed to lie in. -/
def Aimed (w : ℕ) (v : BitVec 64) : Prop :=
  ∃ d, v = addressOf (scratchOff + d) ∧ d < 0x900 ∧ w ∣ d

omit [FlatBacking B] [ConsoleSink S] in
theorem Aimed.inScratch {w off : ℕ} {v : BitVec 64} (haimed : Aimed w v) (hwidth : Width w)
    (hoff : off < 512) (hdvd : w ∣ off) : InScratch (v + BitVec.ofNat 64 off) w := by
  obtain ⟨d, rfl, hd, hdvd'⟩ := haimed
  have hscratch : scratchOff = 0x2000 := rfl
  have hbase : Core.ramBase = 0x80000000 := rfl
  have hlen : imageLen = 0x3000 := rfl
  have hw : w ≤ 8 ∧ w ∣ Core.ramBase + scratchOff := by
    simp only [Width, List.mem_cons, List.not_mem_nil, or_false] at hwidth
    rcases hwidth with rfl | rfl | rfl | rfl <;> decide
  rw [addressOf_add, InScratch, toNat_addressOf (by omega)]
  refine ⟨by omega, by omega, Nat.mod_eq_zero_of_dvd ?_⟩
  rw [Nat.add_assoc, ← Nat.add_assoc, ← Nat.add_assoc, Nat.add_assoc]
  exact (Nat.dvd_add hw.2 (Nat.dvd_add hdvd' hdvd))

section

variable (hreliable : ¬Fallible B) {image : List LittleEndian.Byte} {m : Machine B S}
  (hready : Ready image m) {o : ℕ} (hpc : m.cpu.pc = addressOf o) (ho : o + 4 ≤ codeLimit)
  {ins : Ins} (hlaid : window image o ins.size = ins.bytes) {w : ℕ} (hwidth : Width w) {rt : Reg}
  (haimed : Aimed w (m.cpu.regs rt))

include hreliable hready hpc ho hlaid hwidth haimed

theorem stepped_accesses (haccesses : ins.Accesses rt w) :
    ∃ h after, Stepped image InScratch h m after ∧
      h.pc = m.cpu.pc + BitVec.ofNat 64 ins.size := by
  obtain ⟨instr, hmeans, off, stores, hoff, hdvd, haccess⟩ := haccesses
  obtain ⟨memory, place, after, hstepped⟩ := stepped_means hreliable hready hpc ho hlaid
    InScratch hmeans fun addr size stores' hsome => by
      rw [haccess] at hsome
      cases hsome
      exact permitted_of_scratch (haimed.inScratch hwidth hoff hdvd) stores
  refine ⟨_, after, hstepped, run_pc_of_access _ _ _ ?_⟩
  rw [haccess]
  exact Option.some_ne_none _

/-- LR and SC leave the registers but the one of their result. -/
theorem stepped_reserves {rd : Reg} (hreserves : ins.Reserves rd rt w) :
    ∃ h after, Stepped image InScratch h m after ∧
      h.pc = m.cpu.pc + BitVec.ofNat 64 ins.size ∧ ∀ r, r ≠ rd → h.regs r = m.cpu.regs r := by
  obtain ⟨⟨memory, hm, hintact⟩, hpriv⟩ := hready
  obtain ⟨fetched, hfetch⟩ :=
    fetch_ins hreliable hpc ho hlaid hm hintact hpriv hreserves.reads
  have hcore := ((Core.Machine.sameCore_reads .fetch).fetchInsn_keeps m).of_run_ok hfetch
  have hbare : (begun (BitVec.ofNat 64 ins.size) fetched).cpu.priv = .m := hcore.priv.trans hpriv
  have hrs1 : (begun (BitVec.ofNat 64 ins.size) fetched).cpu.regs (Core.Insn.rs1 ins.word) =
      m.cpu.regs rt := by
    rw [hreserves.rs1]
    exact congrFun hcore.regs rt
  have hscratch : InScratch (m.cpu.regs rt) w := by
    have hzero := haimed.inScratch hwidth (show 0 < 512 by norm_num) (dvd_zero w)
    rwa [BitVec.add_zero] at hzero
  have hram : Core.Bus.inRam ((begun (BitVec.ofNat 64 ins.size) fetched).cpu.regs
      (Core.Insn.rs1 ins.word)) w := by
    rw [hrs1]
    exact (permitted_of_scratch hscratch false).inRam
  have hsystem : Core.Insn.opcode ins.word ≠ 0x73 := by
    rw [hreserves.opcode]
    decide
  have hreaching : Exec.wp (execute ins.word)
      (fun _ => Reaching InScratch (begun (BitVec.ofNat 64 ins.size) fetched))
      (fun _ => Reaching InScratch (begun (BitVec.ofNat 64 ins.size) fetched)) True
      (begun (BitVec.ofNat 64 ins.size) fetched) := by
    rw [execute_atomic hreserves.opcode, Exec.wp_bind]
    refine (rv64a_issues hbare hreserves.opcode hreserves.size ?_).imp_post fun _ _ hafter => hafter
    rw [hrs1]
    exact hscratch
  have hrd : Riscv.rd ins.word = rd := (Core.Insn.rd_eq _).symm.trans hreserves.rd
  have hbegun : Begun (BitVec.ofNat 64 ins.size) (begun (BitVec.ofNat 64 ins.size) fetched) :=
    ⟨rfl, rfl⟩
  rcases hreserves.op with hop | hop
  · obtain ⟨v, hbecomes⟩ := becomes_loadReserved hreliable (holds_begun hm hfetch _) hbegun
      hbare hreserves.opcode hreserves.size hram hop
    rw [hart_begun hfetch, hrd] at hbecomes
    obtain ⟨after, hstepped⟩ := stepped_of_becomes hm hpriv hfetch hsystem hbecomes
      (by rw [mem_result]; exact hintact) hreaching
    exact ⟨_, after, hstepped, rfl, fun r hne => regs_result _ _ _ hne⟩
  · obtain ⟨v, left, htouches, hbecomes⟩ := becomes_storeConditional hreliable
      (holds_begun hm hfetch _) hbegun hbare hreserves.opcode hreserves.size hram hop
    rw [hart_begun hfetch, hrd] at hbecomes
    rw [hrs1] at htouches
    obtain ⟨after, hstepped⟩ := stepped_of_becomes hm hpriv hfetch hsystem hbecomes
      (by rw [mem_result]; exact hintact.touches htouches hscratch.1) hreaching
    exact ⟨_, after, hstepped, rfl, fun r hne => regs_result _ _ _ hne⟩

end

end Baonix.Difftest

import Baonix.Difftest.Steps
import Baonix.Lib.Arrival
import Baonix.Lib.Bits

/-!
# Going forward through a chunk

Each step goes from one address of the listing to a later one.  A chunk is left behind at
its end, or at the target of its transfer.
-/

namespace Baonix.Difftest

open Baonix.Core (Cpu FlatBacking ConsoleSink Insn Machine Fallible)
open Baonix.Core.Machine
open Riscv (Hart Instr Reg)
open Window (window)

/-! ## Listed code -/

/-- The code lies in the image, clear of the limit, and its addresses are listed. -/
structure Listed (image : List LittleEndian.Byte) (listing : List (BitVec 64)) (o : ℕ)
    (code : List Ins) : Prop where
  laid : Laid image o code
  listed : ∀ addr ∈ boundaries o code, addr ∈ listing
  fits : o + codeLen code + 4 ≤ codeLimit

section

variable {image : List LittleEndian.Byte} {listing : List (BitVec 64)} {o : ℕ}

theorem Listed.left {code rest : List Ins} (hlisted : Listed image listing o (code ++ rest)) :
    Listed image listing o code := by
  obtain ⟨hlaid, hin, hfits⟩ := hlisted
  rw [boundaries_append] at hin
  rw [codeLen_append] at hfits
  exact ⟨(laid_append.mp hlaid).1, fun addr haddr => hin addr (List.mem_append_left _ haddr),
    by omega⟩

theorem Listed.right {code rest : List Ins} (hlisted : Listed image listing o (code ++ rest)) :
    Listed image listing (o + codeLen code) rest := by
  obtain ⟨hlaid, hin, hfits⟩ := hlisted
  rw [boundaries_append] at hin
  rw [codeLen_append] at hfits
  exact ⟨(laid_append.mp hlaid).2, fun addr haddr => hin addr (List.mem_append_right _ haddr),
    by omega⟩

variable {ins : Ins} {rest : List Ins} (hlisted : Listed image listing o (ins :: rest))
include hlisted

theorem Listed.window : window image o ins.size = ins.bytes := hlisted.laid.1

theorem Listed.here : addressOf o ∈ listing := hlisted.listed _ (List.mem_cons_self ..)

theorem Listed.limit : o + 4 ≤ codeLimit := by
  have hfits := hlisted.fits
  omega

theorem Listed.tail : Listed image listing (o + ins.size) rest :=
  @Listed.right image listing o [ins] rest hlisted

end

/-! ## Where transfers go -/

section

variable (len : BitVec 64) (place : ℕ) (h : Hart)

theorem pc_jal (rd : Reg) (offset : BitVec 64) :
    ((Instr.jal rd offset).run len place h).pc = h.pc + offset := rfl

theorem pc_jalr (rd rs1 : Reg) (imm : BitVec 64) :
    ((Instr.jalr rd rs1 imm).run len place h).pc = (h.regs rs1 + imm) &&& ~~~1 := rfl

theorem pc_branch (cond : Riscv.Cond) (rs1 rs2 : Reg) (offset : BitVec 64) :
    ((Instr.branch cond rs1 rs2 offset).run len place h).pc =
      h.pc + if cond.holds (h.regs rs1) (h.regs rs2) then offset else len := rfl

end

/-! ## Moves -/

variable {B S : Type} [FlatBacking B]

/-- The processor is at this offset of the image. -/
structure At (image : List LittleEndian.Byte) (o : ℕ) (m : Machine B S) : Prop where
  ready : Ready image m
  pc : m.cpu.pc = addressOf o

variable [ConsoleSink S]

/-- A step from an address of the listing to a later one. -/
structure Advances (image : List LittleEndian.Byte) (listing : List (BitVec 64))
    (allowed : BitVec 64 → ℕ → Prop) (m after : Machine B S) : Prop where
  ready : Ready image m
  listed : m.cpu.pc ∈ listing
  run : step.run m = .ok ⟨⟩ after
  forward : m.cpu.pc.toNat < after.cpu.pc.toNat
  reaching : Reaching allowed m after

section

variable (hreliable : ¬Fallible B) {image : List LittleEndian.Byte} {listing : List (BitVec 64)}
  {o : ℕ} {m : Machine B S} (hat : At image o m) {ins : Ins} {rest : List Ins}
  (hlisted : Listed image listing o (ins :: rest)) {allowed : BitVec 64 → ℕ → Prop}

include hat hlisted in
/-- A step of the listing that goes to a later offset. -/
theorem Stepped.arrives {h : Hart} {after : Machine B S}
    (hstepped : Stepped image allowed h m after) {o' : ℕ} (hpc : h.pc = addressOf o') (hlt : o < o') (hfits : o' < imageLen) :
    Advances image listing allowed m after ∧ At image o' after := by
  have hnext : after.cpu.pc = addressOf o' := hstepped.pc.trans hpc
  refine ⟨⟨hat.ready, ?_, hstepped.run, ?_, hstepped.reaching⟩, hstepped.ready, hnext⟩
  · rw [hat.pc]
    exact hlisted.here
  · rw [hat.pc, hnext, toNat_addressOf (hlt.trans hfits), toNat_addressOf hfits]
    exact Nat.add_lt_add_left hlt _

include hat hlisted in
/-- A step to the next instruction. -/
theorem Stepped.next {h : Hart} {after : Machine B S} (hstepped : Stepped image allowed h m after)
    (hsize : 0 < ins.size) (hpc : h.pc = m.cpu.pc + BitVec.ofNat 64 ins.size) :
    Advances image listing allowed m after ∧ At image (o + ins.size) after := by
  have hfits := hlisted.tail.fits
  have hlimit : codeLimit = 0x1000 := rfl
  have hlen : imageLen = 0x3000 := rfl
  refine hstepped.arrives hat hlisted ?_ (by omega) (by omega)
  rw [hpc, hat.pc, addressOf_add]

include hreliable hat hlisted

/-- A transfer goes to where it points. -/
theorem advances_transfer {instr : Instr} (hmeans : ins.Means instr)
    (haccess : instr.access m.cpu.regs = none) {o' : ℕ}
    (hpc : ∀ (place : ℕ) (h : Hart), h.regs = m.cpu.regs → h.pc = addressOf o →
      (instr.run (BitVec.ofNat 64 ins.size) place h).pc = addressOf o')
    (hlt : o < o') (hfits : o' < imageLen) :
    ∃ after, Advances image listing allowed m after ∧ At image o' after := by
  obtain ⟨memory, place, after, hstepped⟩ := stepped_means hreliable hat.ready hat.pc
    hlisted.limit hlisted.window allowed hmeans fun addr size stores hsome => by
      rw [haccess] at hsome
      cases hsome
  exact ⟨after, hstepped.arrives hat hlisted (hpc place (m.hart memory) rfl hat.pc) hlt hfits⟩

/-- An instruction leaves a value in a register, and the others alone. -/
theorem advances_result {instr : Instr} (hmeans : ins.Means instr) (hsize : 0 < ins.size)
    (hplain : instr.Plain) {rd : Reg} (hrd : rd ≠ 0) {v : BitVec 64}
    (hrun : ∀ (place : ℕ) (h : Hart), h.regs = m.cpu.regs → h.pc = addressOf o →
      instr.run (BitVec.ofNat 64 ins.size) place h = h.result (BitVec.ofNat 64 ins.size) rd v) :
    ∃ after, Advances image listing allowed m after ∧ At image (o + ins.size) after ∧
      after.cpu.regs = Function.update m.cpu.regs rd v := by
  obtain ⟨memory, place, after, hstepped⟩ := stepped_means hreliable hat.ready hat.pc
    hlisted.limit hlisted.window allowed hmeans fun addr size stores hsome => by
      rw [access_of_plain hplain] at hsome
      cases hsome
  rw [hrun place _ rfl hat.pc] at hstepped
  obtain ⟨hadvances, hafter⟩ := hstepped.next hat hlisted hsize rfl
  refine ⟨after, hadvances, hafter, hstepped.regs.trans ?_⟩
  rw [Hart.result, Hart.set, if_neg hrd]
  rfl

end

/-! ### Words that leave a value -/

section

variable (hreliable : ¬Fallible B) {image : List LittleEndian.Byte} {listing : List (BitVec 64)}
  {o : ℕ} {m : Machine B S} (hat : At image o m) {rest : List Ins}
  (allowed : BitVec 64 → ℕ → Prop) {rd : Reg} (hrd : rd ≠ 0)
include hreliable hat hrd

theorem advances_auipc {imm : BitVec 32}
    (hlisted : Listed image listing o (.w (uType 0x17 rd.toNat imm) :: rest)) {d : ℕ}
    (hd : (imm.extractLsb' 0 20 ++ 0#12).signExtend 64 = BitVec.ofNat 64 d) :
    ∃ after, Advances image listing allowed m after ∧ At image (o + 4) after ∧
      after.cpu.regs = Function.update m.cpu.regs rd (addressOf (o + d)) := by
  apply advances_result hreliable hat hlisted (means_auipc rd imm) (Nat.succ_pos 3) trivial hrd
  intro place h _ hpc
  rw [Instr.run, hpc, hd, addressOf_add]

theorem advances_opImm (f3 : BitVec 3) (rs1 : Reg) {imm : BitVec 32}
    (hlisted : Listed image listing o
      (.w (iType 0x13 (f3.setWidth 32) rd.toNat rs1.toNat imm) :: rest))
    {op : Riscv.Op}
    (hop : Riscv.decodeOpImm (Riscv.iFormat (imm.extractLsb' 0 12) rs1 f3 rd 0x13#7) = some op) :
    ∃ after, Advances image listing allowed m after ∧ At image (o + 4) after ∧
      after.cpu.regs = Function.update m.cpu.regs rd
        (op.eval (m.cpu.regs rs1) ((imm.extractLsb' 0 12).signExtend 64)) := by
  apply advances_result hreliable hat hlisted (means_opImm f3 rd rs1 imm hop) (Nat.succ_pos 3)
    trivial hrd
  intro place h hregs _
  rw [Instr.run, hregs]

theorem advances_add {rs1 rs2 : Reg}
    (hlisted : Listed image listing o
      (.w (rType 0x33 0 0 rd.toNat rs1.toNat rs2.toNat) :: rest)) :
    ∃ after, Advances image listing allowed m after ∧ At image (o + 4) after ∧
      after.cpu.regs = Function.update m.cpu.regs rd (m.cpu.regs rs1 + m.cpu.regs rs2) := by
  apply advances_result hreliable hat hlisted
    (means_op 0 0 rd rs1 rs2 (show _ = some Riscv.Op.add by simp [Riscv.decodeOp]))
    (Nat.succ_pos 3) trivial hrd
  intro place h hregs _
  rw [Instr.run, hregs]
  rfl

end

/-! ## The address of an access -/

theorem width_cases {w : ℕ} (hwidth : Width w) : ∃ k ≤ 3, w = 2 ^ k := by
  simp only [Width, List.mem_cons, List.not_mem_nil, or_false] at hwidth
  rcases hwidth with rfl | rfl | rfl | rfl
  · exact ⟨0, by norm_num, rfl⟩
  · exact ⟨1, by norm_num, rfl⟩
  · exact ⟨2, by norm_num, rfl⟩
  · exact ⟨3, by norm_num, rfl⟩

/-- The start of the half of the scratch page that lies two pages after the code. -/
theorem half_of_code {o : ℕ} (ho : o < codeLimit) :
    addressOf (o + 0x2000) &&& ((BitVec.ofInt 32 (-2048)).extractLsb' 0 12).signExtend 64 =
      addressOf (scratchOff + 2048 * (o / 2048)) := by
  have hbase : Core.ramBase = 0x80000000 := rfl
  have hscratch : scratchOff = 0x2000 := rfl
  have hlimit : codeLimit = 0x1000 := rfl
  have hlen : imageLen = 0x3000 := rfl
  have hmask : ((BitVec.ofInt 32 (-2048)).extractLsb' 0 12).signExtend 64 =
      ~~~(Bits.mask 64 11) := by decide
  apply BitVec.eq_of_toNat_eq
  rw [hmask, Bits.toNat_and_not_mask, toNat_addressOf (by omega), toNat_addressOf (by omega),
    hbase, hscratch]
  omega

/-- The low bits that are kept of a register are a multiple of the width. -/
theorem kept_of_mask (x : BitVec 64) {w : ℕ} (hwidth : Width w) :
    ∃ u < 256, w ∣ u ∧
      x &&& ((windowMask &&& ~~~(u32 w - 1)).extractLsb' 0 12).signExtend 64 =
        BitVec.ofNat 64 u := by
  have hmask : ((windowMask &&& ~~~(u32 w - 1)).extractLsb' 0 12).signExtend 64 =
      BitVec.ofNat 64 (256 - w) ∧ 0 < w ∧ w < 256 ∧ w ∣ 256 - w := by
    simp only [Width, List.mem_cons, List.not_mem_nil, or_false] at hwidth
    rcases hwidth with rfl | rfl | rfl | rfl <;> decide
  obtain ⟨hmask, hpos, hlt, hdvd⟩ := hmask
  have hvalue : (BitVec.ofNat 64 (256 - w)).toNat = 256 - w := by
    rw [BitVec.toNat_ofNat, Nat.mod_eq_of_lt (by omega)]
  refine ⟨x.toNat &&& (256 - w), ?_, ?_, ?_⟩
  · have hle := Nat.and_le_right (n := x.toNat) (m := 256 - w)
    omega
  · obtain ⟨k, -, rfl⟩ := width_cases hwidth
    rw [Nat.dvd_iff_mod_eq_zero, Nat.and_mod_two_pow, Nat.mod_eq_zero_of_dvd hdvd, Nat.and_zero]
  · rw [hmask]
    apply BitVec.eq_of_toNat_eq
    rw [BitVec.toNat_and, hvalue, BitVec.toNat_ofNat, Nat.mod_eq_of_lt]
    exact lt_of_le_of_lt Nat.and_le_right (by omega)

section

variable (hreliable : ¬Fallible B) {image : List LittleEndian.Byte} {listing : List (BitVec 64)}
  {o : ℕ} {m : Machine B S} (hat : At image o m) {rt ru rs : Reg} {w : ℕ} {rest : List Ins}
  (hrt : rt ≠ 0) (hru : ru ≠ 0) (hne : ru ≠ rt) (hwidth : Width w)
  (hlisted : Listed image listing o (scratchCode rt.toNat ru.toNat rs.toNat w ++ rest))
include hreliable hat hrt hru hne hwidth hlisted

/-- **The address of an access** lies in the scratch page, whichever register it is taken
from, in four steps. -/
theorem arrives_aimed :
    Arrives (Advances image listing InScratch)
      (fun after => At image (o + 16) after ∧ Aimed w (after.cpu.regs rt)) 4 m := by
  have hfits := hlisted.limit
  have hlimit : codeLimit = 0x1000 := rfl
  obtain ⟨first, hmove, hat, hfirst⟩ := advances_auipc hreliable hat InScratch hrt hlisted
    (d := 0x2000) (by decide)
  refine .move hmove ?_
  obtain ⟨second, hmove, hat, hsecond⟩ := advances_opImm hreliable hat InScratch hrt 7 rt
    hlisted.tail (show _ = some Riscv.Op.and by simp [Riscv.decodeOpImm])
  refine .move hmove ?_
  obtain ⟨third, hmove, hat, hthird⟩ := advances_opImm hreliable hat InScratch hru 7 rs
    hlisted.tail.tail (show _ = some Riscv.Op.and by simp [Riscv.decodeOpImm])
  refine .move hmove ?_
  obtain ⟨fourth, hmove, hat, hfourth⟩ := advances_add hreliable hat InScratch hrt
    hlisted.tail.tail.tail
  refine .one hmove ⟨hat, ?_⟩
  obtain ⟨u, hu, hdvd, hkept⟩ := kept_of_mask (second.cpu.regs rs) hwidth
  have hsum : fourth.cpu.regs rt = addressOf (scratchOff + 2048 * (o / 2048)) +
      BitVec.ofNat 64 u := by
    rw [hfourth, Function.update_self, hthird, Function.update_of_ne hne.symm, Function.update_self]
    congr 1
    · rw [hsecond, Function.update_self, hfirst, Function.update_self]
      exact half_of_code (by omega)
  refine ⟨2048 * (o / 2048) + u, ?_, by omega, ?_⟩
  · rw [hsum, addressOf_add, Nat.add_assoc]
  · obtain ⟨k, hk, rfl⟩ := width_cases hwidth
    exact Nat.dvd_add (Dvd.dvd.mul_right (pow_dvd_pow 2 (hk.trans (by norm_num : 3 ≤ 11))) _) hdvd

end

/-! ## The instructions of a chunk -/

/-- How many chunks ahead it may go. -/
def Chunk.ahead : Chunk → ℕ
  | .plain _ => 1
  | .branch _ _ _ skip | .jal _ skip | .jalr _ _ skip | .cBranch _ _ skip | .cJ skip
  | .cJr _ _ skip => skip

/-- The instructions of a chunk whose target is so far ahead. -/
def Chunk.code (d : ℕ) : Chunk → List Ins
  | .plain code => code
  | .branch f3 rs1 rs2 _ => [.w (bType f3 rs1 rs2 (u32 d))]
  | .jal rd _ => [.w (jType rd (u32 d))]
  | .jalr rt rd _ =>
      [.w (uType 0x17 rt 0), .w (iType 0x13 0 rt rt (u32 d)), .w (iType 0x67 0 rd rt (u32 0))]
  | .cBranch ne rs1 _ => [.c (cBranchWord ne rs1 (u32 d))]
  | .cJ _ => [.c (cJWord (u32 d))]
  | .cJr rt link _ =>
      [.w (uType 0x17 rt 0), .w (iType 0x13 0 rt rt (u32 d)), .c (cJrWord link rt)]

theorem codeLen_code (c : Chunk) (d : ℕ) : codeLen (c.code d) = c.len := by
  cases c <;> rfl

theorem Ins.Reads.size_cases {ins : Ins} {insn : Insn} (hreads : ins.Reads insn) :
    ins.size = 2 ∨ ins.size = 4 := by
  rcases hreads with ⟨hsize, -, -⟩ | ⟨hsize, -, -⟩
  · exact .inr hsize
  · exact .inl hsize

theorem Ins.Computes.size_cases {ins : Ins} (hcomputes : ins.Computes) :
    ins.size = 2 ∨ ins.size = 4 := by
  obtain ⟨insn, hreads, -⟩ := hcomputes
  exact hreads.size_cases

theorem Ins.Accesses.size_cases {ins : Ins} {rt : Reg} {w : ℕ} (haccesses : ins.Accesses rt w) :
    ins.size = 2 ∨ ins.size = 4 := by
  obtain ⟨instr, ⟨insn, hreads, -⟩, -⟩ := haccesses
  exact hreads.size_cases

/-- Instructions have two bytes or four. -/
theorem Chunk.Sound.sizes {c : Chunk} (hsound : c.Sound) (d : ℕ) :
    ∀ ins ∈ c.code d, ins.size = 2 ∨ ins.size = 4 := by
  have hw (w : BitVec 32) : (Ins.w w).size = 2 ∨ (Ins.w w).size = 4 := .inr rfl
  have hc (h : BitVec 16) : (Ins.c h).size = 2 ∨ (Ins.c h).size = 4 := .inl rfl
  cases hsound <;> simp only [Chunk.code, scratchCode, List.cons_append, List.nil_append,
    List.forall_mem_cons, hw, hc, true_and]
  case computes ins hcomputes => exact ⟨hcomputes.size_cases, fun _ hmem => by cases hmem⟩
  case accesses haccesses => exact ⟨haccesses.size_cases, fun _ hmem => by cases hmem⟩
  case reserves hlr hsc =>
      exact ⟨hlr.reads.size_cases, hsc.reads.size_cases, fun _ hmem => by cases hmem⟩
  all_goals exact fun _ hmem => by cases hmem

theorem Chunk.Sound.len_bounds {c : Chunk} (hsound : c.Sound) :
    2 ∣ c.len ∧ 2 ≤ c.len ∧ c.len ≤ maxChunk := by
  have hfixed : ∀ n ∈ [2, 4, 10, 12], 2 ∣ n ∧ 2 ≤ n ∧ n ≤ maxChunk := by decide
  cases hsound with
  | @computes ins hcomputes =>
      have hsize := hcomputes.size_cases
      have hlen : (Chunk.plain [ins]).len = ins.size := rfl
      rw [hlen, maxChunk]
      omega
  | @accesses rt ru rs w ins _ _ _ _ haccesses =>
      have hsize := haccesses.size_cases
      have hlen : (Chunk.plain (scratchCode rt.toNat ru.toNat rs.toNat w ++ [ins])).len =
          4 + (4 + (4 + (4 + ins.size))) := rfl
      rw [hlen, maxChunk]
      omega
  | @reserves rt ru rs rd rd' w lr sc _ _ _ _ _ hlr hsc =>
      have hfirst := hlr.reads.size_cases
      have hsecond := hsc.reads.size_cases
      have hlen : (Chunk.plain (scratchCode rt.toNat ru.toNat rs.toNat w ++ [lr, sc])).len =
          4 + (4 + (4 + (4 + (lr.size + sc.size)))) := rfl
      rw [hlen, maxChunk]
      omega
  | branch => exact hfixed 4 (by decide)
  | jal => exact hfixed 4 (by decide)
  | jalr => exact hfixed 12 (by decide)
  | cBranch => exact hfixed 2 (by decide)
  | cJ => exact hfixed 2 (by decide)
  | cJr => exact hfixed 10 (by decide)

/-! ## Through a chunk -/

section

variable (hreliable : ¬Fallible B) {image : List LittleEndian.Byte} {listing : List (BitVec 64)}
  {o : ℕ} {m : Machine B S} (hat : At image o m) {rest : List Ins}

include hreliable hat

/-- An instruction that computes takes one step. -/
theorem advances_computes {ins : Ins} (hlisted : Listed image listing o (ins :: rest))
    (hcomputes : ins.Computes) (allowed : BitVec 64 → ℕ → Prop) :
    ∃ after, Advances image listing allowed m after ∧ At image (o + ins.size) after := by
  have hsize := hcomputes.size_cases
  obtain ⟨h, after, hstepped, hpc⟩ := stepped_computes hreliable hat.ready hat.pc hlisted.limit
    hlisted.window allowed hcomputes
  exact ⟨after, hstepped.next hat hlisted (by omega) hpc⟩

section

variable {w : ℕ} (hwidth : Width w) {rt : Reg} (haimed : Aimed w (m.cpu.regs rt))
include hwidth haimed

theorem advances_accesses {ins : Ins} (hlisted : Listed image listing o (ins :: rest))
    (haccesses : ins.Accesses rt w) :
    ∃ after, Advances image listing InScratch m after ∧ At image (o + ins.size) after := by
  have hsize := haccesses.size_cases
  obtain ⟨h, after, hstepped, hpc⟩ := stepped_accesses hreliable hat.ready hat.pc hlisted.limit
    hlisted.window hwidth haimed haccesses
  exact ⟨after, hstepped.next hat hlisted (by omega) hpc⟩

/-- The register of the address is left alone unless the result goes there. -/
theorem advances_reserves {ins : Ins} (hlisted : Listed image listing o (ins :: rest)) {rd : Reg}
    (hreserves : ins.Reserves rd rt w) :
    ∃ after, Advances image listing InScratch m after ∧ At image (o + ins.size) after ∧
      (rd ≠ rt → after.cpu.regs rt = m.cpu.regs rt) := by
  have hsize := hreserves.reads.size_cases
  obtain ⟨h, after, hstepped, hpc, hregs⟩ := stepped_reserves hreliable hat.ready hat.pc
    hlisted.limit hlisted.window hwidth haimed hreserves
  obtain ⟨hadvances, hafter⟩ := hstepped.next hat hlisted (by omega) hpc
  refine ⟨after, hadvances, hafter, fun hne => ?_⟩
  rw [hstepped.regs, hregs rt hne.symm]

end

/-- A jump through a register goes to the address it holds. -/
theorem advances_jalr {ins : Ins} (hlisted : Listed image listing o (ins :: rest)) {rd rt : Reg}
    (hmeans : ins.Means (.jalr rd rt 0)) {o' : ℕ} (hrt : m.cpu.regs rt = addressOf o')
    (heven : 2 ∣ o') (hlt : o < o') (hfits : o' < imageLen) (allowed : BitVec 64 → ℕ → Prop) :
    ∃ after, Advances image listing allowed m after ∧ At image o' after := by
  have hbase : Core.ramBase = 0x80000000 := rfl
  have hone : (1 : BitVec 64) = Bits.mask 64 1 := by decide
  have hround : addressOf o' &&& ~~~1 = addressOf o' := by
    apply BitVec.eq_of_toNat_eq
    rw [hone, Bits.toNat_and_not_mask, toNat_addressOf hfits, hbase]
    omega
  apply advances_transfer hreliable hat hlisted hmeans rfl _ hlt hfits
  intro place h hregs _
  rw [pc_jalr, hregs, hrt]
  exact (congrArg (· &&& ~~~1) (BitVec.add_zero _)).trans hround

/-- A jump to an address that was computed in a register. -/
theorem arrives_computed {rt rd : Reg} (hrt : rt ≠ 0) {ins : Ins} {d : ℕ}
    (hlisted : Listed image listing o
      (.w (uType 0x17 rt.toNat 0) :: .w (iType 0x13 0 rt.toNat rt.toNat (u32 d)) :: ins :: rest))
    (hmeans : ins.Means (.jalr rd rt 0)) (heven : 2 ∣ o + d) (hafter : 8 < d) (hd : d < 256) :
    Arrives (Advances image listing InScratch) (At image (o + d)) 3 m := by
  have hlimit : codeLimit = 0x1000 := rfl
  have hlen : imageLen = 0x3000 := rfl
  have hfits := hlisted.limit
  obtain ⟨first, hmove, hat, hfirst⟩ := advances_auipc hreliable hat InScratch hrt hlisted
    (d := 0) (by decide)
  refine .move hmove ?_
  obtain ⟨second, hmove, hat, hsecond⟩ := advances_opImm hreliable hat InScratch hrt 0 rt
    hlisted.tail (show _ = some Riscv.Op.add by simp [Riscv.decodeOpImm])
  refine .move hmove ?_
  have hvalue : second.cpu.regs rt = addressOf (o + d) := by
    rw [hsecond, Function.update_self, hfirst, Function.update_self, immediate_eq (by omega)]
    exact addressOf_add ..
  obtain ⟨third, hmove, hat⟩ := advances_jalr hreliable hat hlisted.tail.tail hmeans hvalue heven
    (by omega) (by omega) InScratch
  exact .one hmove hat

/-- **A chunk** is left at its end or at its target. -/
theorem arrives_chunk {c : Chunk} (hsound : c.Sound) {d : ℕ} (hd : 2 ∣ d) (hfar : c.len ≤ d)
    (hnear : d < 256) (heven : 2 ∣ o) (hlisted : Listed image listing o (c.code d ++ rest)) :
    Arrives (Advances image listing InScratch)
      (fun after => At image (o + c.len) after ∨ At image (o + d) after) (c.code d).length m := by
  have hlimit : codeLimit = 0x1000 := rfl
  have hlen : imageLen = 0x3000 := rfl
  have hfits := hlisted.fits
  have hpos := hsound.len_bounds.2.1
  -- A transfer of one instruction, that may be taken or not.
  have htransfer {ins : Ins} {instr : Instr} (hcode : c.code d = [ins]) (hmeans : ins.Means instr)
      (haccess : instr.access m.cpu.regs = none) {o' : ℕ} (ho' : o' = o + c.len ∨ o' = o + d)
      (hpc : ∀ (place : ℕ) (h : Hart), h.regs = m.cpu.regs → h.pc = addressOf o →
        (instr.run (BitVec.ofNat 64 ins.size) place h).pc = addressOf o') :
      Arrives (Advances image listing InScratch)
        (fun after => At image (o + c.len) after ∨ At image (o + d) after) (c.code d).length m := by
    rw [hcode] at hlisted ⊢
    obtain ⟨after, hmove, hafter⟩ := advances_transfer hreliable hat hlisted hmeans haccess hpc
      (by omega) (by omega)
    refine .one hmove ?_
    rcases ho' with rfl | rfl
    · exact .inl hafter
    · exact .inr hafter
  have hconditional {ins : Ins} {cond : Riscv.Cond} {rs1 rs2 : Reg} (hcode : c.code d = [ins])
      (hmeans : ins.Means (.branch cond rs1 rs2 (BitVec.ofNat 64 d))) :
      Arrives (Advances image listing InScratch)
        (fun after => At image (o + c.len) after ∨ At image (o + d) after) (c.code d).length m := by
    have hsize : ins.size = c.len := by
      rw [← codeLen_code c d, hcode]
      rfl
    cases htaken : cond.holds (m.cpu.regs rs1) (m.cpu.regs rs2) with
    | true =>
        refine htransfer hcode hmeans rfl (.inr rfl) ?_
        intro place h hregs hpc
        rw [pc_branch, hregs, htaken, hpc, if_pos rfl, addressOf_add]
    | false =>
        refine htransfer hcode hmeans rfl (.inl rfl) ?_
        intro place h hregs hpc
        rw [pc_branch, hregs, htaken, hpc, if_neg Bool.false_ne_true, addressOf_add, hsize]
  cases hsound with
  | @computes ins hcomputes =>
      obtain ⟨after, hmove, hafter⟩ := advances_computes hreliable hat hlisted hcomputes InScratch
      exact .one hmove (.inl hafter)
  | @accesses rt ru rs w ins hrt hru hne hwidth haccesses =>
      rw [Chunk.code, List.append_assoc] at hlisted
      apply (arrives_aimed hreliable hat hrt hru hne hwidth hlisted).chain (k := 1)
      rintro reached ⟨hat, haimed⟩
      obtain ⟨after, hmove, hafter⟩ := advances_accesses hreliable hat hwidth haimed
        hlisted.right haccesses
      refine .one hmove (.inl ?_)
      rwa [Chunk.len, codeLen_append, ← Nat.add_assoc]
  | @reserves rt ru rs rd rd' w lr sc hrt hru hne hrd hwidth hlr hsc =>
      rw [Chunk.code, List.append_assoc] at hlisted
      apply (arrives_aimed hreliable hat hrt hru hne hwidth hlisted).chain (k := 2)
      rintro reached ⟨hat, haimed⟩
      obtain ⟨first, hmove, hat, hkept⟩ := advances_reserves hreliable hat hwidth haimed
        hlisted.right hlr
      refine .move hmove ?_
      rw [← hkept hrd] at haimed
      obtain ⟨second, hmove, hat, -⟩ := advances_reserves hreliable hat hwidth haimed
        hlisted.right.tail hsc
      refine .one hmove (.inl ?_)
      rw [Chunk.len, codeLen_append, ← Nat.add_assoc]
      rwa [Nat.add_assoc] at hat
  | branch hf3 rs1 rs2 hskip =>
      obtain ⟨cond, hmeans⟩ := means_branch_forward hd hf3 (by omega) rs1 rs2
      exact hconditional rfl hmeans
  | jal rd hskip =>
      refine htransfer rfl (means_jal_forward hd (by omega) rd) rfl (.inr rfl) ?_
      intro place h _ hpc
      rw [pc_jal, hpc, addressOf_add]
  | @jalr rt hrt rd s hskip =>
      have hmeans : (Ins.w (iType 0x67 0 rd.toNat rt.toNat (u32 0))).Means (.jalr rd rt 0) :=
        means_jalr rd rt 0
      have hpast : 8 < d := Nat.lt_of_lt_of_le (show 8 < 12 by norm_num) hfar
      exact (arrives_computed hreliable hat hrt hlisted hmeans (heven.add hd) hpast hnear).imp
        fun _ hafter => .inr hafter
  | cBranch ne r hskip =>
      obtain ⟨cond, rs1, hmeans⟩ := means_cBranch hd hnear ne r
      exact hconditional rfl hmeans
  | cJ hskip =>
      refine htransfer rfl (means_cJ hd (by omega)) rfl (.inr rfl) ?_
      intro place h _ hpc
      rw [pc_jal, hpc, addressOf_add]
  | cJr hrt link hskip =>
      have hpast : 8 < d := Nat.lt_of_lt_of_le (show 8 < 10 by norm_num) hfar
      exact (arrives_computed hreliable hat hrt hlisted (means_cJr link hrt) (heven.add hd) hpast
        hnear).imp fun _ hafter => .inr hafter

end

end Baonix.Difftest

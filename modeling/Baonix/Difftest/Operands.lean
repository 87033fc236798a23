import Baonix.Difftest.Halves

/-!
# Where the instructions of a chunk reach

An access is made at a register plus a small multiple of the width; a transfer goes to the
distance it was given, as long as that fits its field.
-/

namespace Baonix.Riscv

/-- The instruction accesses so many bytes, a small multiple of them after a register. -/
def Instr.AccessesAt (instr : Instr) (rt : Reg) (width : ℕ) : Prop :=
  ∃ off stores, off < 512 ∧ width ∣ off ∧
    ∀ regs, instr.access regs = some (regs rt + BitVec.ofNat 64 off, width, stores)

end Baonix.Riscv

namespace Baonix.Difftest

open Riscv (Instr Reg)
open Riscv.Compressed (decode funct3 high immD immLdsp immLwsp immSdsp immSwsp immW low popular rd
  rs2 sp)

/-! ## Immediates -/

theorem signExtend_ofNat {w n : ℕ} (hn : n < 2 ^ w) (hw : w < 64) :
    (BitVec.ofNat (w + 1) n).signExtend 64 = BitVec.ofNat 64 n := by
  have hfits : n < 2 ^ (w + 1) := hn.trans (Nat.pow_lt_pow_right (by norm_num) (by omega))
  have hmsb : (BitVec.ofNat (w + 1) n).msb = false := by
    rw [BitVec.msb_eq_false_iff_two_mul_lt, BitVec.toNat_ofNat, Nat.mod_eq_of_lt hfits, pow_succ]
    omega
  rw [BitVec.signExtend_eq_setWidth_of_msb_false hmsb]
  exact BitVec.setWidth_ofNat_of_le_of_lt (by omega) hfits

theorem immediate_eq {d : ℕ} (hd : d < 2048) :
    ((u32 d).extractLsb' 0 12).signExtend 64 = BitVec.ofNat 64 d := by
  have hfield : (u32 d).extractLsb' 0 12 = BitVec.ofNat 12 d := by
    apply BitVec.eq_of_toNat_eq
    rw [BitVec.extractLsb'_toNat, u32, BitVec.toNat_ofNat, BitVec.toNat_ofNat, Nat.shiftRight_zero]
    omega
  rw [hfield]
  exact signExtend_ofNat (w := 11) hd (by norm_num)

/-- A distance put into a field without its lowest bit. -/
theorem offset_eq {n d : ℕ} (heven : 2 ∣ d) (hd : d < 2 ^ n) (hn : n ≤ 32) :
    ((u32 d).extractLsb' 1 n ++ 0#1).signExtend 64 = BitVec.ofNat 64 d := by
  have hfield : (u32 d).extractLsb' 1 n ++ 0#1 = BitVec.ofNat (n + 1) d := by
    have hpow : 2 ^ n ≤ 2 ^ 32 := Nat.pow_le_pow_right (by norm_num) hn
    obtain ⟨k, rfl⟩ := heven
    apply BitVec.eq_of_toNat_eq
    calc ((u32 (2 * k)).extractLsb' 1 n ++ 0#1).toNat
        = ((2 * k % 2 ^ 32) >>> 1 % 2 ^ n) <<< 1 := by
          rw [BitVec.toNat_append, BitVec.extractLsb'_toNat, u32, BitVec.toNat_ofNat]
          exact Nat.or_zero _
      _ = k <<< 1 := by
          rw [Nat.mod_eq_of_lt (hd.trans_le hpow), Nat.shiftRight_one,
            Nat.mul_div_cancel_left k (by norm_num), Nat.mod_eq_of_lt (by omega)]
      _ = 2 * k % 2 ^ (n + 1) := by
          rw [Nat.shiftLeft_eq, Nat.mod_eq_of_lt (by rw [pow_succ]; omega), Nat.mul_comm, pow_one]
      _ = (BitVec.ofNat (n + 1) (2 * k)).toNat := (BitVec.toNat_ofNat ..).symm
  rw [hfield]
  exact signExtend_ofNat hd (by omega)

/-! ## Accesses -/

def Ins.Accesses (ins : Ins) (rt : Reg) (width : ℕ) : Prop :=
  ∃ instr, ins.Means instr ∧ instr.AccessesAt rt width

section

variable (rd rt r : Reg)

theorem Ins.Means.accesses_load {ins : Ins} {width : ℕ} {signed : Bool} {imm : BitVec 64}
    (hmeans : ins.Means (.load width signed rd rt imm)) {off : ℕ} (hoff : off < 512)
    (hdvd : width ∣ off) (himm : imm = BitVec.ofNat 64 off) : ins.Accesses rt width := by
  refine ⟨_, hmeans, off, false, hoff, hdvd, fun regs => ?_⟩
  rw [← himm]
  rfl

theorem Ins.Means.accesses_store {ins : Ins} {width : ℕ} {imm : BitVec 64}
    (hmeans : ins.Means (.store width rt r imm)) {off : ℕ} (hoff : off < 512)
    (hdvd : width ∣ off) (himm : imm = BitVec.ofNat 64 off) : ins.Accesses rt width := by
  refine ⟨_, hmeans, off, true, hoff, hdvd, fun regs => ?_⟩
  rw [← himm]
  rfl

theorem Ins.Means.accesses_amo {ins : Ins} {op : Riscv.Amo} {width : ℕ}
    (hmeans : ins.Means (.amo op width rd rt r)) : ins.Accesses rt width := by
  refine ⟨_, hmeans, 0, true, by norm_num, dvd_zero width, fun regs => ?_⟩
  rw [BitVec.add_zero]
  rfl

/-! Words -/

theorem accesses_load {f3 : BitVec 32} {w off : ℕ} (hload : (f3, w) ∈ loads) (hoff : off < 512)
    (hdvd : w ∣ off) : (Ins.w (iType 0x03 f3 rd.toNat rt.toNat (u32 off))).Accesses rt w := by
  have hform (f : BitVec 3) (signed : Bool)
      (hdecode : Riscv.decodeLoad (Riscv.iFormat ((u32 off).extractLsb' 0 12) rt f rd 0x03#7) =
        some (w, signed)) :
      (Ins.w (iType 0x03 (f.setWidth 32) rd.toNat rt.toNat (u32 off))).Accesses rt w :=
    (means_load f rd rt _ hdecode).accesses_load rd rt hoff hdvd (immediate_eq (by omega))
  simp only [loads, List.mem_cons, List.not_mem_nil, or_false, Prod.mk.injEq] at hload
  rcases hload with ⟨rfl, rfl⟩ | ⟨rfl, rfl⟩ | ⟨rfl, rfl⟩ | ⟨rfl, rfl⟩ | ⟨rfl, rfl⟩ | ⟨rfl, rfl⟩ |
    ⟨rfl, rfl⟩
  · exact hform 0 true (by simp [Riscv.decodeLoad])
  · exact hform 1 true (by simp [Riscv.decodeLoad])
  · exact hform 2 true (by simp [Riscv.decodeLoad])
  · exact hform 3 true (by simp [Riscv.decodeLoad])
  · exact hform 4 false (by simp [Riscv.decodeLoad])
  · exact hform 5 false (by simp [Riscv.decodeLoad])
  · exact hform 6 false (by simp [Riscv.decodeLoad])

theorem accesses_store {f3 : BitVec 32} {w : ℕ} (hstore : (f3, w) ∈ stores) :
    (Ins.w (sType 0x23 f3 rt.toNat r.toNat 0)).Accesses rt w := by
  have hform (f : BitVec 3)
      (hdecode : Riscv.decodeStore (Riscv.sFormat ((0 : BitVec 32).extractLsb' 0 12) r rt f 0x23#7) =
        some w) :
      (Ins.w (sType 0x23 (f.setWidth 32) rt.toNat r.toNat 0)).Accesses rt w :=
    (means_store f rt r 0 hdecode).accesses_store rt r (show 0 < 512 by norm_num)
      (dvd_zero w) rfl
  simp only [stores, List.mem_cons, List.not_mem_nil, or_false, Prod.mk.injEq] at hstore
  rcases hstore with ⟨rfl, rfl⟩ | ⟨rfl, rfl⟩ | ⟨rfl, rfl⟩ | ⟨rfl, rfl⟩
  · exact hform 0 (by simp [Riscv.decodeStore])
  · exact hform 1 (by simp [Riscv.decodeStore])
  · exact hform 2 (by simp [Riscv.decodeStore])
  · exact hform 3 (by simp [Riscv.decodeStore])

/-- The widths of the atomic operations. -/
def AtomicWidth (f3 : BitVec 32) (w : ℕ) : Prop := f3 = 2 ∧ w = 4 ∨ f3 = 3 ∧ w = 8

theorem AtomicWidth.decoded {f3 : BitVec 32} {w : ℕ} (hwidth : AtomicWidth f3 w) :
    ∃ f : BitVec 3, f3 = f.setWidth 32 ∧ ∀ f7 : BitVec 7,
      Riscv.decodeWidth (Riscv.rFormat f7 r rt f rd 0x2F#7) = some w := by
  rcases hwidth with ⟨rfl, rfl⟩ | ⟨rfl, rfl⟩
  · exact ⟨2, rfl, fun _ => by simp [Riscv.decodeWidth]⟩
  · exact ⟨3, rfl, fun _ => by simp [Riscv.decodeWidth]⟩

theorem accesses_amo {op f3 : BitVec 32} {w : ℕ} (hop : op ∈ amos) (hwidth : AtomicWidth f3 w) :
    (Ins.w (rType 0x2F f3 (op <<< 2) rd.toNat rt.toNat r.toNat)).Accesses rt w := by
  obtain ⟨f, rfl, hsize⟩ := hwidth.decoded rd rt r
  have hform (f7 : BitVec 7)
      (hdecode : (Riscv.decodeAmo (Riscv.rFormat f7 r rt f rd 0x2F#7)).isSome) :
      (Ins.w (rType 0x2F (f.setWidth 32) (f7.setWidth 32) rd.toNat rt.toNat r.toNat)).Accesses rt
        w := by
    obtain ⟨amo, hsome⟩ := Option.isSome_iff_exists.mp hdecode
    exact (means_amo f f7 rd rt r hsome (hsize f7)).accesses_amo rd rt r
  simp only [amos, List.mem_cons, List.not_mem_nil, or_false] at hop
  rcases hop with rfl | rfl | rfl | rfl | rfl | rfl | rfl | rfl | rfl
  · exact hform 0x00 (by simp [Riscv.decodeAmo])
  · exact hform 0x04 (by simp [Riscv.decodeAmo])
  · exact hform 0x10 (by simp [Riscv.decodeAmo])
  · exact hform 0x20 (by simp [Riscv.decodeAmo])
  · exact hform 0x30 (by simp [Riscv.decodeAmo])
  · exact hform 0x40 (by simp [Riscv.decodeAmo])
  · exact hform 0x50 (by simp [Riscv.decodeAmo])
  · exact hform 0x60 (by simp [Riscv.decodeAmo])
  · exact hform 0x70 (by simp [Riscv.decodeAmo])

end

/-! Halfwords -/

/-- An offset counted in units of the width. -/
theorem exists_offset {n k : ℕ} (x : BitVec n) (hn : n + k ≤ 9) :
    ∃ off < 512, 2 ^ k ∣ off ∧ (x ++ 0#k).setWidth 64 = BitVec.ofNat 64 off := by
  have hvalue : (x ++ 0#k).toNat = x.toNat * 2 ^ k := by
    rw [BitVec.toNat_append, Nat.shiftLeft_eq]
    exact Nat.or_zero _
  refine ⟨(x ++ 0#k).toNat, ?_, ?_, (BitVec.ofNat_toNat 64 _).symm⟩
  · exact (x ++ 0#k).isLt.trans_le (Nat.pow_le_pow_right (n := 2) (by norm_num) hn)
  · rw [hvalue]
    exact Nat.dvd_mul_left _ _

section

variable {h : BitVec 16}

theorem decode_quadrant0 (hop : Riscv.Compressed.op h = 0) :
    decode h = Riscv.Compressed.quadrant0 h := by
  rw [decode, hop]
  rfl

theorem decode_quadrant1 (hop : Riscv.Compressed.op h = 1) :
    decode h = Riscv.Compressed.quadrant1 h := by
  rw [decode, hop]
  rfl

theorem decode_quadrant2 (hop : Riscv.Compressed.op h = 2) :
    decode h = Riscv.Compressed.quadrant2 h := by
  rw [decode, hop]
  rfl

variable {rt : Reg}

theorem accesses_loadC {width n k : ℕ} {rd : Reg} {x : BitVec n} (hn : n + k ≤ 9)
    (hwidth : width = 2 ^ k)
    (hdecode : decode h = some (.load width true rd rt ((x ++ 0#k).setWidth 64))) :
    (Ins.c h).Accesses rt width := by
  obtain ⟨off, hoff, hdvd, himm⟩ := exists_offset x hn
  rw [← hwidth] at hdvd
  exact (means_c hdecode).accesses_load rd rt hoff hdvd himm

theorem accesses_storeC {width n k : ℕ} {r : Reg} {x : BitVec n} (hn : n + k ≤ 9)
    (hwidth : width = 2 ^ k)
    (hdecode : decode h = some (.store width rt r ((x ++ 0#k).setWidth 64))) :
    (Ins.c h).Accesses rt width := by
  obtain ⟨off, hoff, hdvd, himm⟩ := exists_offset x hn
  rw [← hwidth] at hdvd
  exact (means_c hdecode).accesses_store rt r hoff hdvd himm

/-- C.LW, C.LD, C.SW and C.SD. -/
theorem accesses_high (wide store : Bool) (hop : Riscv.Compressed.op h = 0)
    (hfunct3 : funct3 h = (cMemF3 wide store).setWidth 3) (hhigh : high h = rt) :
    (Ins.c h).Accesses rt (if wide then 8 else 4) := by
  subst hhigh
  cases wide <;> cases store
  · have hdecode : decode h = some (.load 4 true (low h) (high h) ((immW h).setWidth 64)) := by
      rw [decode_quadrant0 hop, Riscv.Compressed.quadrant0, hfunct3]
      rfl
    exact accesses_loadC (n := 5) (k := 2) (by norm_num) rfl hdecode
  · have hdecode : decode h = some (.store 4 (high h) (low h) ((immW h).setWidth 64)) := by
      rw [decode_quadrant0 hop, Riscv.Compressed.quadrant0, hfunct3]
      rfl
    exact accesses_storeC (n := 5) (k := 2) (by norm_num) rfl hdecode
  · have hdecode : decode h = some (.load 8 true (low h) (high h) ((immD h).setWidth 64)) := by
      rw [decode_quadrant0 hop, Riscv.Compressed.quadrant0, hfunct3]
      rfl
    exact accesses_loadC (n := 5) (k := 3) (by norm_num) rfl hdecode
  · have hdecode : decode h = some (.store 8 (high h) (low h) ((immD h).setWidth 64)) := by
      rw [decode_quadrant0 hop, Riscv.Compressed.quadrant0, hfunct3]
      rfl
    exact accesses_storeC (n := 5) (k := 3) (by norm_num) rfl hdecode

/-- C.SWSP and C.SDSP. -/
theorem accesses_storeSp (wide : Bool) (hop : Riscv.Compressed.op h = 2)
    (hfunct3 : funct3 h = if wide then 7 else 6) :
    (Ins.c h).Accesses sp (if wide then 8 else 4) := by
  cases wide
  · have hdecode : decode h = some (.store 4 sp (rs2 h) ((immSwsp h).setWidth 64)) := by
      rw [decode_quadrant2 hop, Riscv.Compressed.quadrant2, hfunct3]
      rfl
    exact accesses_storeC (n := 6) (k := 2) (by norm_num) rfl hdecode
  · have hdecode : decode h = some (.store 8 sp (rs2 h) ((immSdsp h).setWidth 64)) := by
      rw [decode_quadrant2 hop, Riscv.Compressed.quadrant2, hfunct3]
      rfl
    exact accesses_storeC (n := 6) (k := 3) (by norm_num) rfl hdecode

/-- C.LWSP and C.LDSP. -/
theorem accesses_loadSp (wide : Bool) (hop : Riscv.Compressed.op h = 2)
    (hfunct3 : funct3 h = if wide then 3 else 2) (hrd : rd h ≠ 0) :
    (Ins.c h).Accesses sp (if wide then 8 else 4) := by
  cases wide
  · have hdecode : decode h = some (.load 4 true (rd h) sp ((immLwsp h).setWidth 64)) := by
      rw [decode_quadrant2 hop, Riscv.Compressed.quadrant2, hfunct3]
      exact if_neg hrd
    exact accesses_loadC (n := 6) (k := 2) (by norm_num) rfl hdecode
  · have hdecode : decode h = some (.load 8 true (rd h) sp ((immLdsp h).setWidth 64)) := by
      rw [decode_quadrant2 hop, Riscv.Compressed.quadrant2, hfunct3]
      exact if_neg hrd
    exact accesses_loadC (n := 6) (k := 3) (by norm_num) rfl hdecode

end

section

variable (i : BitVec 32) (wide : Bool)

theorem accesses_cMem (store : Bool) (rt r : BitVec 3) :
    (Ins.c (cMem wide store i (8 + rt.toNat) (8 + r.toNat))).Accesses (popular rt)
      (if wide then 8 else 4) := by
  obtain ⟨hop, hfunct3, hhigh⟩ := cMem_fields rt r i wide store
  exact accesses_high wide store hop hfunct3 hhigh

theorem accesses_cStoreSp (rs2 : Reg) :
    (Ins.c (cStoreSp wide i rs2.toNat)).Accesses sp (if wide then 8 else 4) := by
  obtain ⟨hop, hfunct3⟩ := cStoreSp_fields rs2 i wide
  exact accesses_storeSp wide hop hfunct3

theorem accesses_cLoadSp {rd : Reg} (hrd : rd ≠ 0) :
    (Ins.c (cLoadSp wide i rd.toNat)).Accesses sp (if wide then 8 else 4) := by
  obtain ⟨hop, hfunct3, hfield⟩ := cLoadSp_fields rd i wide
  exact accesses_loadSp wide hop hfunct3 (hfield.trans_ne hrd)

end

/-! ## Reservations -/

/-- LR or SC of so many bytes at a register, with its result in another. -/
structure Ins.Reserves (ins : Ins) (rd rt : Reg) (width : ℕ) : Prop where
  reads : ins.Reads ins.word
  opcode : Core.Insn.opcode ins.word = 0x2F
  size : Core.Rv64a.sizeOf ins.word = some width
  op : Core.Rv64a.opOf ins.word = 0x02 ∨ Core.Rv64a.opOf ins.word = 0x03
  rd : Core.Insn.rd ins.word = rd
  rs1 : Core.Insn.rs1 ins.word = rt

theorem reserves_w {op f3 : BitVec 32} {w : ℕ} (hop : op = 0x02 ∨ op = 0x03)
    (hwidth : AtomicWidth f3 w) (rd rt r : Reg) :
    (Ins.w (rType 0x2F f3 (op <<< 2) rd.toNat rt.toNat r.toNat)).Reserves rd rt w := by
  obtain ⟨f, rfl, hsize⟩ := hwidth.decoded rd rt r
  have hform (f7 : BitVec 7) (hf7 : f7 = 0x08 ∨ f7 = 0x0C) :
      (Ins.w (rType 0x2F (f.setWidth 32) (f7.setWidth 32) rd.toNat rt.toNat r.toNat)).Reserves rd
        rt w := by
    have hword : rType 0x2F (f.setWidth 32) (f7.setWidth 32) rd.toNat rt.toNat r.toNat =
        Riscv.rFormat f7 r rt f rd 0x2F := rType_eq 0x2F f7 f rd rt r
    rw [hword]
    refine ⟨reads_w (by rw [Riscv.opcode_rFormat]; rfl), ?_, Core.Rv64a.sizeOf_eq (hsize f7), ?_,
      ?_, ?_⟩
    · exact (Core.Insn.opcode_eq _).trans (congrArg (BitVec.setWidth 32) (Riscv.opcode_rFormat ..))
    · have hop : (Core.Rv64a.opOf (Riscv.rFormat f7 r rt f rd 0x2F)).toNat =
          (f7.extractLsb' 2 5).toNat := by
        rw [Core.Rv64a.toNat_opOf, Riscv.funct5_rFormat]
      rcases hf7 with rfl | rfl
      · exact .inl (BitVec.eq_of_toNat_eq hop)
      · exact .inr (BitVec.eq_of_toNat_eq hop)
    · exact (Core.Insn.rd_eq _).trans (Riscv.rd_rFormat ..)
    · exact (Core.Insn.rs1_eq _).trans (Riscv.rs1_rFormat ..)
  rcases hop with rfl | rfl
  · exact hform 0x08 (.inl rfl)
  · exact hform 0x0C (.inr rfl)

/-! ## Transfers -/

section

variable {d : ℕ} (heven : 2 ∣ d)
include heven

theorem means_branch_forward {f3 : BitVec 32} (hf3 : f3 ∈ branches) (hd : d < 4096)
    (rs1 rs2 : Reg) :
    ∃ cond, (Ins.w (bType f3 rs1.toNat rs2.toNat (u32 d))).Means
      (.branch cond rs1 rs2 (BitVec.ofNat 64 d)) := by
  have hform (f : BitVec 3)
      (hcond : (Riscv.decodeCond (Riscv.bFormat ((u32 d).extractLsb' 1 12) rs2 rs1 f
        0x63#7)).isSome) :
      ∃ cond, (Ins.w (bType (f.setWidth 32) rs1.toNat rs2.toNat (u32 d))).Means
        (.branch cond rs1 rs2 (BitVec.ofNat 64 d)) := by
    obtain ⟨cond, hsome⟩ := Option.isSome_iff_exists.mp hcond
    have hmeans := means_branch f rs1 rs2 (u32 d) hsome
    rw [offset_eq heven hd (by norm_num)] at hmeans
    exact ⟨cond, hmeans⟩
  simp only [branches, List.mem_cons, List.not_mem_nil, or_false] at hf3
  rcases hf3 with rfl | rfl | rfl | rfl | rfl | rfl
  · exact hform 0 (by simp [Riscv.decodeCond])
  · exact hform 1 (by simp [Riscv.decodeCond])
  · exact hform 4 (by simp [Riscv.decodeCond])
  · exact hform 5 (by simp [Riscv.decodeCond])
  · exact hform 6 (by simp [Riscv.decodeCond])
  · exact hform 7 (by simp [Riscv.decodeCond])

theorem means_jal_forward (hd : d < 2 ^ 20) (rd : Reg) :
    (Ins.w (jType rd.toNat (u32 d))).Means (.jal rd (BitVec.ofNat 64 d)) := by
  rw [← offset_eq heven hd (by norm_num)]
  exact means_jal rd (u32 d)

theorem means_cBranch (hd : d < 256) (ne : Bool) (r : BitVec 3) :
    ∃ cond rs1, (Ins.c (cBranchWord ne (8 + r.toNat) (u32 d))).Means
      (.branch cond rs1 0 (BitVec.ofNat 64 d)) := by
  obtain ⟨hop, hfunct3, himm⟩ := cBranchWord_fields r (u32 d) ne
  refine ⟨if ne then .ne else .eq, high (cBranchWord ne (8 + r.toNat) (u32 d)), means_c ?_⟩
  rw [decode_quadrant1 hop, Riscv.Compressed.quadrant1, hfunct3, himm,
    offset_eq heven hd (by norm_num)]
  cases ne <;> rfl

theorem means_cJ (hd : d < 2048) : (Ins.c (cJWord (u32 d))).Means (.jal 0 (BitVec.ofNat 64 d)) := by
  obtain ⟨hop, hfunct3, himm⟩ := cJWord_fields (u32 d)
  apply means_c
  rw [decode_quadrant1 hop, Riscv.Compressed.quadrant1, hfunct3, himm,
    offset_eq heven hd (by norm_num)]
  rfl

end

theorem means_cJr (link : Bool) {rt : Reg} (hrt : rt ≠ 0) :
    (Ins.c (cJrWord link rt.toNat)).Means (.jalr (if link then 1 else 0) rt 0) := by
  obtain ⟨hop, hfunct3, hbit, hrd, hrs2⟩ := cJrWord_fields rt link
  apply means_c
  rw [decode_quadrant2 hop, Riscv.Compressed.quadrant2, hfunct3]
  change Riscv.Compressed.jumpOrMove _ = _
  rw [Riscv.Compressed.jumpOrMove, hbit, if_pos hrs2, if_pos hrs2, hrd, if_neg hrt, if_neg hrt]
  cases link <;> rfl

end Baonix.Difftest

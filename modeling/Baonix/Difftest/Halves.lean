import Baonix.Difftest.Meaning

/-!
# What the compressed instructions of a chunk do

The halfwords of the generator abbreviate instructions that compute, or access memory at a
small multiple of the width from a register, or go forward.
-/

namespace Baonix.Difftest

open Riscv (Instr Reg)
open Riscv.Compressed (decode decode_eq_none_iff funct3 popular rs2 Reserved sp)

/-! ## Computing -/

/-- A halfword of a form that only computes. -/
def Arithmetic (h : BitVec 16) : Prop :=
  (Riscv.Compressed.op h).toNat = 0 ∧ (funct3 h).toNat = 0 ∨
    (Riscv.Compressed.op h).toNat = 1 ∧ (funct3 h).toNat < 5 ∨
      (Riscv.Compressed.op h).toNat = 2 ∧ (funct3 h).toNat = 0 ∨
        (Riscv.Compressed.op h).toNat = 2 ∧ (funct3 h).toNat = 4 ∧ rs2 h ≠ 0

section

variable {h : BitVec 16}

theorem plain_lui {instr : Instr} (hdecode : Riscv.Compressed.lui h = some instr) :
    instr.Plain := by
  unfold Riscv.Compressed.lui at hdecode
  split_ifs at hdecode
  all_goals
    cases hdecode
    trivial

theorem plain_registers {instr : Instr} (hdecode : Riscv.Compressed.registers h = some instr) :
    instr.Plain := by
  unfold Riscv.Compressed.registers at hdecode
  split at hdecode
  all_goals
    cases hdecode
    try trivial

theorem plain_arithmetic {instr : Instr} (hdecode : Riscv.Compressed.arithmetic h = some instr) :
    instr.Plain := by
  unfold Riscv.Compressed.arithmetic at hdecode
  split at hdecode
  · cases hdecode
    trivial
  · cases hdecode
    trivial
  · cases hdecode
    trivial
  · exact plain_registers hdecode

theorem plain_quadrant1 {instr : Instr} (hfunct3 : (funct3 h).toNat < 5)
    (hdecode : Riscv.Compressed.quadrant1 h = some instr) : instr.Plain := by
  unfold Riscv.Compressed.quadrant1 at hdecode
  generalize (funct3 h).toNat = kind at hfunct3 hdecode
  interval_cases kind
  · cases hdecode
    trivial
  · split_ifs at hdecode
    cases hdecode
    trivial
  · cases hdecode
    trivial
  · exact plain_lui hdecode
  · exact plain_arithmetic hdecode

theorem plain_jumpOrMove {instr : Instr} (hrs2 : rs2 h ≠ 0)
    (hdecode : Riscv.Compressed.jumpOrMove h = some instr) : instr.Plain := by
  unfold Riscv.Compressed.jumpOrMove at hdecode
  rw [if_neg hrs2, if_neg hrs2] at hdecode
  split_ifs at hdecode
  all_goals
    cases hdecode
    trivial

theorem Arithmetic.plain (harithmetic : Arithmetic h) {instr : Instr}
    (hdecode : decode h = some instr) : instr.Plain := by
  rcases harithmetic with ⟨hop, hfunct3⟩ | ⟨hop, hfunct3⟩ | ⟨hop, hfunct3⟩ | ⟨hop, hfunct3, hrs2⟩
  · simp only [decode, hop, Riscv.Compressed.quadrant0, hfunct3] at hdecode
    split_ifs at hdecode
    cases hdecode
    trivial
  · simp only [decode, hop] at hdecode
    exact plain_quadrant1 hfunct3 hdecode
  · simp only [decode, hop, Riscv.Compressed.quadrant2, hfunct3] at hdecode
    cases hdecode
    trivial
  · simp only [decode, hop, Riscv.Compressed.quadrant2, hfunct3] at hdecode
    exact plain_jumpOrMove hrs2 hdecode

theorem Arithmetic.decoded (harithmetic : Arithmetic h) (hreserved : ¬Reserved h) :
    decode h ≠ none := by
  have hop : Riscv.Compressed.op h ≠ 3 := by
    intro hlong
    unfold Arithmetic at harithmetic
    rw [hlong] at harithmetic
    simp at harithmetic
  rw [Ne, decode_eq_none_iff h hop]
  rintro (hnone | ⟨hquadrant, hfunct3⟩ | rfl)
  · exact hreserved hnone
  · simp only [List.mem_cons, List.not_mem_nil, or_false] at hquadrant hfunct3
    unfold Arithmetic at harithmetic
    omega
  · revert harithmetic
    unfold Arithmetic
    decide

/-- A form that only computes, unless the manual reserves it. -/
theorem Arithmetic.computes (harithmetic : Arithmetic h) (hreserved : ¬Reserved h) :
    (Ins.c h).Computes := by
  obtain ⟨instr, hdecode⟩ := Option.ne_none_iff_exists'.mp (harithmetic.decoded hreserved)
  exact (means_c hdecode).computes (harithmetic.plain hdecode)

end

/-! ### The forms, by their fields -/

section

variable {h : BitVec 16}

/-- C.ADDI and C.LI. -/
theorem computes_addi (hop : Riscv.Compressed.op h = 1) (hfunct3 : funct3 h = 0 ∨ funct3 h = 2) :
    (Ins.c h).Computes := by
  rcases hfunct3 with hfunct3 | hfunct3
  all_goals
    refine Arithmetic.computes ?_ ?_
    · simp [Arithmetic, hop, hfunct3]
    · simp [Reserved, hop, hfunct3]

theorem computes_slli (hop : Riscv.Compressed.op h = 2) (hfunct3 : funct3 h = 0) :
    (Ins.c h).Computes := by
  refine Arithmetic.computes ?_ ?_
  · simp [Arithmetic, hop, hfunct3]
  · simp [Reserved, hop, hfunct3]

theorem computes_caddiw (hop : Riscv.Compressed.op h = 1) (hfunct3 : funct3 h = 1)
    (hrd : Riscv.Compressed.rd h ≠ 0) : (Ins.c h).Computes := by
  refine Arithmetic.computes ?_ ?_
  · simp [Arithmetic, hop, hfunct3]
  · simpa [Reserved, hop, hfunct3] using hrd

/-- C.LUI and C.ADDI16SP. -/
theorem computes_lui (hop : Riscv.Compressed.op h = 1) (hfunct3 : funct3 h = 3)
    (himm : Riscv.Compressed.rd h = sp ∧ Riscv.Compressed.immAddi16sp h ≠ 0 ∨
      Riscv.Compressed.rd h ≠ sp ∧ Riscv.Compressed.imm h ≠ 0) : (Ins.c h).Computes := by
  refine Arithmetic.computes ?_ ?_
  · simp [Arithmetic, hop, hfunct3]
  · rw [Reserved, hop, hfunct3]
    rintro (⟨hsp, hzero⟩ | ⟨hsp, hzero⟩)
    · exact himm.elim (fun h => h.2 hzero) fun h => h.1 hsp
    · exact himm.elim (fun h => hsp h.1) fun h => h.2 hzero

/-- C.SRLI, C.SRAI, C.ANDI and the operations of two registers. -/
theorem computes_arithmetic (hop : Riscv.Compressed.op h = 1) (hfunct3 : funct3 h = 4)
    (hkind : h.extractLsb' 10 2 ≠ 3 ∨ h.extractLsb' 12 1 ≠ 1 ∨ (h.extractLsb' 5 2).toNat < 2) :
    (Ins.c h).Computes := by
  refine Arithmetic.computes ?_ ?_
  · simp [Arithmetic, hop, hfunct3]
  · simp only [Reserved, hop, hfunct3]
    rintro ⟨hthree, hone, hlast⟩
    simp only [List.mem_cons, List.not_mem_nil, or_false] at hlast
    rcases hkind with hne | hne | hlt
    · exact hne (BitVec.eq_of_toNat_eq hthree)
    · exact hne (BitVec.eq_of_toNat_eq hone)
    · omega

/-- C.MV and C.ADD. -/
theorem computes_move (hop : Riscv.Compressed.op h = 2) (hfunct3 : funct3 h = 4)
    (hrs2 : rs2 h ≠ 0) : (Ins.c h).Computes := by
  refine Arithmetic.computes ?_ ?_
  · simpa [Arithmetic, hop, hfunct3] using hrs2
  · rw [Reserved, hop, hfunct3]
    exact fun hreserved => hrs2 hreserved.2.1

theorem computes_addi4spn (hop : Riscv.Compressed.op h = 0) (hfunct3 : funct3 h = 0)
    (himm : Riscv.Compressed.immAddi4spn h ≠ 0) : (Ins.c h).Computes := by
  refine Arithmetic.computes ?_ ?_
  · simp [Arithmetic, hop, hfunct3]
  · simpa [Reserved, hop, hfunct3] using himm

end

/-! ### The halfwords of the generator -/

section

variable (rd a : Reg) (r r' : BitVec 3) (i : BitVec 32)

theorem computes_ci : (Ins.c (ci 0b000 0b01 rd.toNat i)).Computes ∧
    (Ins.c (ci 0b010 0b01 rd.toNat i)).Computes ∧ (Ins.c (ci 0b000 0b10 rd.toNat i)).Computes := by
  obtain ⟨hop, hfunct3, -, -⟩ := ci_fields 1 0 rd i
  obtain ⟨hop', hfunct3', -, -⟩ := ci_fields 1 2 rd i
  obtain ⟨hop'', hfunct3'', -, -⟩ := ci_fields 2 0 rd i
  exact ⟨computes_addi hop (.inl hfunct3), computes_addi hop' (.inr hfunct3'),
    computes_slli hop'' hfunct3''⟩

theorem computes_cAddiw (hrd : rd ≠ 0) : (Ins.c (ci 0b001 0b01 rd.toNat i)).Computes := by
  obtain ⟨hop, hfunct3, hfield, -⟩ := ci_fields 1 1 rd i
  exact computes_caddiw hop hfunct3 (hfield.trans_ne hrd)

theorem computes_cLui (hrd : rd ≠ 2) (hi : i.extractLsb' 0 6 ≠ 0) :
    (Ins.c (ci 0b011 0b01 rd.toNat i)).Computes := by
  obtain ⟨hop, hfunct3, hfield, himm⟩ := ci_fields 1 3 rd i
  exact computes_lui hop hfunct3 (.inr ⟨hfield.trans_ne hrd, himm.trans_ne hi⟩)

theorem computes_cbImm (f2 : BitVec 2) (hf2 : f2 ≠ 3) :
    (Ins.c (cbImm (f2.setWidth 16) (8 + r.toNat) i)).Computes := by
  obtain ⟨hop, hfunct3, hfield⟩ := cbImm_fields f2 r i
  exact computes_arithmetic hop hfunct3 (.inl (hfield.trans_ne hf2))

theorem computes_ca {f2 : BitVec 16} (hf2 : f2 ∈ cLogic) :
    (Ins.c (ca 0 f2 (8 + r.toNat) (8 + r'.toNat))).Computes := by
  have hform (f : BitVec 2) :
      (Ins.c (ca 0 (f.setWidth 16) (8 + r.toNat) (8 + r'.toNat))).Computes := by
    obtain ⟨hop, hfunct3, -, hbit, -⟩ := ca_fields f r r' 0
    exact computes_arithmetic hop hfunct3 (.inr (.inl (hbit.trans_ne (by decide))))
  simp only [cLogic, List.mem_cons, List.not_mem_nil, or_false] at hf2
  rcases hf2 with rfl | rfl | rfl | rfl
  · exact hform 0
  · exact hform 1
  · exact hform 2
  · exact hform 3

theorem computes_caw {f2 : BitVec 16} (hf2 : f2 ∈ cWords) :
    (Ins.c (ca 1 f2 (8 + r.toNat) (8 + r'.toNat))).Computes := by
  have hform (f : BitVec 2) (hf : f.toNat < 2) :
      (Ins.c (ca 1 (f.setWidth 16) (8 + r.toNat) (8 + r'.toNat))).Computes := by
    obtain ⟨hop, hfunct3, -, -, hkind⟩ := ca_fields f r r' 1
    exact computes_arithmetic hop hfunct3 (.inr (.inr (lt_of_eq_of_lt (congrArg BitVec.toNat hkind) hf)))
  simp only [cWords, List.mem_cons, List.not_mem_nil, or_false] at hf2
  rcases hf2 with rfl | rfl
  · exact hform 0 (by decide)
  · exact hform 1 (by decide)

theorem computes_cMoves (hrs2 : a ≠ 0) :
    (Ins.c (cMoves 0x8002 rd.toNat a.toNat)).Computes ∧
      (Ins.c (cMoves 0x9002 rd.toNat a.toNat)).Computes := by
  obtain ⟨hop, hfunct3, -, -, hfield⟩ := cMoves_fields 0 rd a
  obtain ⟨hop', hfunct3', -, -, hfield'⟩ := cMoves_fields 1 rd a
  exact ⟨computes_move hop hfunct3 (hfield.trans_ne hrs2),
    computes_move hop' hfunct3' (hfield'.trans_ne hrs2)⟩

theorem computes_cAddi4spn (hi : i.extractLsb' 2 8 ++ 0#2 ≠ 0) :
    (Ins.c (cAddi4spn (8 + r.toNat) i)).Computes := by
  obtain ⟨hop, hfunct3, himm⟩ := cAddi4spn_fields r i
  exact computes_addi4spn hop hfunct3 (himm.trans_ne hi)

theorem computes_cAddi16sp (hi : i.extractLsb' 4 6 ++ 0#4 ≠ 0) :
    (Ins.c (cAddi16sp i)).Computes := by
  obtain ⟨hop, hfunct3, hfield, himm⟩ := cAddi16sp_fields i
  exact computes_lui hop hfunct3 (.inl ⟨hfield, himm.trans_ne hi⟩)

end

end Baonix.Difftest

import Baonix.Core.Dispatch
import Baonix.Core.Fields
import Baonix.Core.Runs

/-!
# Words that encode nothing

The decoders ignore fields of the word, so that a word of no instruction the hart has may
run as one it has.  Which words these are depends on the fields alone, and for SYSTEM on
the privilege.
-/

namespace Baonix.Core

open Exec (Keeps)

/-- The functions the privileged decoder takes. -/
def TakenPrivileged (insn : Insn) (priv : Priv) : Prop :=
  insn >>> 20 = 0x000 ∨ insn >>> 20 = 0x001 ∨ insn >>> 20 = 0x105 ∨
    insn >>> 20 = 0x302 ∧ priv = .m ∨ insn >>> 20 = 0x102 ∧ priv ≠ .u ∨
      insn >>> 25 = 0x09 ∧ priv ≠ .u

/-- The decoders take the word, if it encodes nothing, for an instruction. -/
def Overlooked (insn : Insn) (priv : Priv) : Prop :=
  match (Insn.opcode insn).toNat with
  -- the upper half of a shift amount, and `funct3` of JALR
  | 0x13 | 0x67 => True
  | 0x1B => (Insn.funct3 insn).toNat ∈ [1, 5]
  -- ADD, SUB, SRL and SRA alone look at `funct7`
  | 0x33 => (Insn.funct3 insn).toNat ∉ [0, 5]
  | 0x3B => (Insn.funct3 insn).toNat = 1 ∧ (Insn.funct7 insn).toNat ≠ 1
  -- the operation is looked at after the translation
  | 0x2F => (Insn.funct3 insn).toNat ∈ [2, 3]
  -- `rd` and `rs1`
  | 0x73 => (Insn.funct3 insn).toNat = 0 ∧ TakenPrivileged insn priv
  | _ => False

instance (insn : Insn) (priv : Priv) : Decidable (TakenPrivileged insn priv) :=
  inferInstanceAs (Decidable (_ ∨ _))

instance (insn : Insn) (priv : Priv) : Decidable (Overlooked insn priv) := by
  unfold Overlooked
  split <;> infer_instance

namespace Rv64i

theorem funct3_lt (insn : Insn) : (Insn.funct3 insn).toNat < 8 := by
  rw [Insn.toNat_funct3]
  exact Riscv.funct3_lt insn

theorem opImm_isSome (insn : Insn) (a : BitVec 64) : (opImm insn a).isSome := by
  have hlt := funct3_lt insn
  unfold opImm
  generalize (Insn.funct3 insn).toNat = funct3 at hlt
  interval_cases funct3
  any_goals rfl
  -- the shifts to the right
  change Option.isSome (if Insn.funct7 insn &&& 0x20 = 0 then some _ else some _) = true
  split <;> rfl

theorem opImm32_eq_none_iff (insn : Insn) (a : BitVec 32) :
    opImm32 insn a = none ↔ (Insn.funct3 insn).toNat ∉ [0, 1, 5] := by
  have hlt := funct3_lt insn
  unfold opImm32
  generalize (Insn.funct3 insn).toNat = funct3 at hlt
  interval_cases funct3
  any_goals simp
  split <;> simp

/-- Only ADD, SUB, SRL and SRA look at `funct7`. -/
theorem op_eq_none_iff (insn : Insn) (a b : BitVec 64) :
    op insn a b = none ↔
      (Insn.funct3 insn).toNat ∈ [0, 5] ∧ (Insn.funct7 insn).toNat ∉ [0x00, 0x20] := by
  have hlt := funct3_lt insn
  unfold op
  generalize (Insn.funct3 insn).toNat = funct3 at hlt
  interval_cases funct3
  any_goals simp
  · split <;> simp_all
  · split <;> simp_all

theorem op32_eq_none_iff (insn : Insn) (a b : BitVec 32) :
    op32 insn a b = none ↔ (Insn.funct3 insn).toNat ∉ [0, 1, 5] ∨
      (Insn.funct3 insn).toNat ∈ [0, 5] ∧ (Insn.funct7 insn).toNat ∉ [0x00, 0x20] := by
  have hlt := funct3_lt insn
  unfold op32
  generalize (Insn.funct3 insn).toNat = funct3 at hlt
  interval_cases funct3
  any_goals simp
  · split <;> simp_all
  · split <;> simp_all

theorem taken_eq_none_iff (insn : Insn) (a b : BitVec 64) :
    taken insn a b = none ↔ (Insn.funct3 insn).toNat ∈ [2, 3] := by
  have hlt := funct3_lt insn
  unfold taken
  generalize (Insn.funct3 insn).toNat = funct3 at hlt
  interval_cases funct3 <;> simp

theorem loadOf_eq_none_iff (insn : Insn) : loadOf insn = none ↔ (Insn.funct3 insn).toNat = 7 := by
  have hlt := funct3_lt insn
  unfold loadOf
  generalize (Insn.funct3 insn).toNat = funct3 at hlt
  interval_cases funct3 <;> simp

theorem storeOf_eq_none_iff (insn : Insn) :
    storeOf insn = none ↔ 4 ≤ (Insn.funct3 insn).toNat := by
  have hlt := funct3_lt insn
  unfold storeOf
  generalize (Insn.funct3 insn).toNat = funct3 at hlt
  interval_cases funct3 <;> simp

end Rv64i

theorem Rv64a.sizeOf_eq_none_iff (insn : Insn) :
    Rv64a.sizeOf insn = none ↔ (Insn.funct3 insn).toNat ∉ [2, 3] := by
  have hlt := Rv64i.funct3_lt insn
  unfold Rv64a.sizeOf
  generalize (Insn.funct3 insn).toNat = funct3 at hlt
  interval_cases funct3 <;> simp

theorem Rv64m.op32_eq_none {insn : Insn} (hfunct3 : (Insn.funct3 insn).toNat ∉ [0, 4, 5, 6, 7])
    (a b : BitVec 32) : Rv64m.op32 (Insn.funct3 insn) a b = none := by
  have hlt := Rv64i.funct3_lt insn
  unfold Rv64m.op32
  generalize (Insn.funct3 insn).toNat = funct3 at hlt hfunct3
  interval_cases funct3
  any_goals rfl
  all_goals exact absurd (by decide) hfunct3

namespace Machine

variable {B S : Type} [MemBacking B] [ConsoleSink S]

/-- The word is an illegal instruction, and nothing else happens. -/
def Rejected (insn : Insn) (m : Machine B S) : Prop :=
  (execute insn).run m = .error (.illegalInstruction (insn.setWidth 64)) m

theorem rejected_of_computed {insn : Insn} {m : Machine B S} {value : Option (BitVec 64)}
    (hrun : (execute insn).run m = computed insn m value) : Rejected insn m ↔ value = none := by
  rw [Rejected, hrun]
  cases value <;> simp [computed]

/-! ## Atomics -/

/-- Nothing that happened is forgotten. -/
def Longer (start after : Machine B S) : Prop :=
  start.trace.events.length ≤ after.trace.events.length

instance : IsPreorder (Machine B S) Longer where
  refl _ := le_refl _
  trans _ _ _ hleft hright := le_trans hleft hright

theorem longer_framed : Framed (@Longer B S) where
  setReg m i v := by
    unfold Cpu.setReg
    split <;> exact le_refl _
  jump _ _ _ := le_refl _
  reserve _ _ := le_refl _
  translate := translate_keeps (fun _ _ => Nat.le_succ _) (fun _ _ => le_refl _)
  busLoad := busLoad_keeps (fun _ _ _ _ => le_refl _) (fun _ _ => le_refl _)
  busStore := busStore_keeps (fun _ _ _ _ => le_refl _) (fun _ _ => le_refl _)

omit [ConsoleSink S] in
theorem translate_lengthens (vaddr : BitVec 64) (access : Access) (m : Machine B S) :
    Exec.wp (translate vaddr access)
      (fun _ after => m.trace.events.length < after.trace.events.length)
      (fun _ after => m.trace.events.length < after.trace.events.length) True m := by
  rw [translate, Exec.wp_bind, Exec.wp_read, Exec.wp_bind, Exec.wp_update, Exec.wp_zoom]
  exact (Exec.wp_any _ _).imp (fun _ _ _ => Nat.lt_succ_self _) (fun _ _ _ => Nat.lt_succ_self _)
    (fun _ => trivial)

/-- An atomic of either width translates its address, whatever the operation. -/
theorem not_rejected_atomic {insn : Insn} (hopcode : Insn.opcode insn = 0x2F)
    (hsize : (Insn.funct3 insn).toNat ∈ [2, 3]) (m : Machine B S) : ¬Rejected insn m := by
  obtain ⟨size, hsome⟩ := Option.ne_none_iff_exists'.mp
    (mt (Rv64a.sizeOf_eq_none_iff insn).mp (not_not_intro hsize))
  have hwp : Exec.wp (execute insn)
      (fun _ after => m.trace.events.length < after.trace.events.length)
      (fun _ after => m.trace.events.length < after.trace.events.length) True m := by
    rw [execute_atomic hopcode, Exec.wp_bind, Rv64a.execute, if_neg (not_not_intro hopcode), hsome]
    dsimp only
    rw [Exec.wp_bind, Exec.wp_read, Exec.wp_bind]
    apply (translate_lengthens _ .store m).imp_post
    intro pa middle hmiddle
    rw [Exec.wp_bind]
    apply (longer_framed.perform_keeps insn pa _ size middle).imp
    · exact fun _ _ hafter => Nat.lt_of_lt_of_le hmiddle hafter
    · exact fun _ _ hafter => Nat.lt_of_lt_of_le hmiddle hafter
    · exact fun hpanics => hpanics
  intro hrejected
  exact Nat.lt_irrefl _ (hwp.of_run_error hrejected)

theorem rejected_atomic {insn : Insn} (hopcode : Insn.opcode insn = 0x2F)
    (hsize : (Insn.funct3 insn).toNat ∉ [2, 3]) (m : Machine B S) : Rejected insn m := by
  rw [Rejected, execute_atomic hopcode, Rv64a.execute, if_neg (not_not_intro hopcode),
    (Rv64a.sizeOf_eq_none_iff insn).mpr hsize]
  rfl

/-! ## Loads and stores -/

theorem rejected_load {insn : Insn} (hopcode : Insn.opcode insn = 0x03)
    (hfunct3 : (Insn.funct3 insn).toNat = 7) (m : Machine B S) : Rejected insn m := by
  rw [Rejected, execute_load hopcode, Rv64i.load, (Rv64i.loadOf_eq_none_iff insn).mpr hfunct3]
  rfl

theorem rejected_store {insn : Insn} (hopcode : Insn.opcode insn = 0x23)
    (hfunct3 : 4 ≤ (Insn.funct3 insn).toNat) (m : Machine B S) : Rejected insn m := by
  rw [Rejected, execute_store hopcode, Rv64i.store, (Rv64i.storeOf_eq_none_iff insn).mpr hfunct3]
  rfl

/-! ## SYSTEM -/

theorem rejected_csr {insn : Insn} (hopcode : Insn.opcode insn = 0x73)
    (hfunct3 : (Insn.funct3 insn).toNat = 4) (m : Machine B S) : Rejected insn m := by
  have hfour : Insn.funct3 insn = 4 := BitVec.eq_of_toNat_eq hfunct3
  have hnone (old src : BitVec 64) : Rv64i.newCsr insn old src = none := by
    rw [Rv64i.newCsr, hfour]
    rfl
  rw [Rejected, execute, handled_system hopcode, if_neg (by rw [hfour]; decide), Rv64i.csrAccess,
    Exec.run_bind, Exec.run_read_bind]
  dsimp only
  rw [hnone]
  split_ifs <;> rfl

theorem rejected_privileged_iff {insn : Insn} (hopcode : Insn.opcode insn = 0x73)
    (hfunct3 : Insn.funct3 insn = 0) (m : Machine B S) :
    Rejected insn m ↔ ¬TakenPrivileged insn m.cpu.priv := by
  rw [Rejected, execute, handled_system hopcode, if_pos hfunct3, Rv64i.privileged, TakenPrivileged,
    Exec.run_bind, Exec.run_read_bind]
  dsimp only
  split_ifs with hecall hebreak hmret hsret hwfi hsfence
  · refine iff_of_false (fun hrun => ?_) (not_not_intro (.inl hecall))
    cases hpriv : m.cpu.priv <;> rw [hpriv] at hrun <;> cases hrun
  · exact iff_of_false (fun hrun => by cases hrun) (not_not_intro (.inr (.inl hebreak)))
  · exact iff_of_false (fun hrun => by cases hrun)
      (not_not_intro (.inr (.inr (.inr (.inl hmret)))))
  · exact iff_of_false (fun hrun => by cases hrun)
      (not_not_intro (.inr (.inr (.inr (.inr (.inl hsret))))))
  · exact iff_of_false (fun hrun => by cases hrun) (not_not_intro (.inr (.inr (.inl hwfi))))
  · exact iff_of_false (fun hrun => by cases hrun)
      (not_not_intro (.inr (.inr (.inr (.inr (.inr hsfence))))))
  · refine iff_of_true rfl ?_
    rintro (h | h | h | h | h | h)
    · exact hecall h
    · exact hebreak h
    · exact hwfi h
    · exact hmret h
    · exact hsret h
    · exact hsfence h

/-! ## All words

For each opcode, what is left of its words once those that encode something are taken away.
-/

section

variable {insn : Insn} (m : Machine B S)

theorem rejected_opImm_iff (hopcode : Insn.opcode insn = 0x13) :
    Rejected insn m ↔ ¬Overlooked insn m.cpu.priv := by
  have hsome := Rv64i.opImm_isSome insn (m.cpu.reg (Insn.rs1 insn))
  rw [rejected_of_computed (execute_opImm m hopcode), Overlooked, hopcode,
    ← Option.not_isSome_iff_eq_none]
  exact not_congr (iff_of_true hsome trivial)

theorem rejected_jalr_iff (hopcode : Insn.opcode insn = 0x67) :
    Rejected insn m ↔ ¬Overlooked insn m.cpu.priv := by
  rw [Rejected, execute_jalr m hopcode, Overlooked, hopcode]
  exact iff_of_false (fun hrun => by cases hrun) (not_not_intro trivial)

variable (hdecode : Riscv.decode insn = none)
include hdecode

theorem rejected_opImm32_iff (hopcode : Insn.opcode insn = 0x1B) :
    Rejected insn m ↔ ¬Overlooked insn m.cpu.priv := by
  rw [Riscv.decode, ← Insn.toNat_opcode, hopcode] at hdecode
  have hop := (Riscv.decodeOpImmW_eq_none_iff insn).mp (Option.map_eq_none_iff.mp hdecode)
  rw [rejected_of_computed (execute_opImm32 m hopcode), Option.map_eq_none_iff,
    Rv64i.opImm32_eq_none_iff, Overlooked, hopcode, Insn.toNat_funct3]
  change _ ↔ ¬_ ∈ [1, 5]
  simp only [List.mem_cons, List.not_mem_nil, or_false] at hop ⊢
  omega

theorem rejected_op_iff (hopcode : Insn.opcode insn = 0x33) (hfunct7 : Insn.funct7 insn ≠ 0x01) :
    Rejected insn m ↔ ¬Overlooked insn m.cpu.priv := by
  rw [Riscv.decode, ← Insn.toNat_opcode, hopcode] at hdecode
  have hop := (Riscv.decodeOp_eq_none_iff insn).mp (Option.map_eq_none_iff.mp hdecode)
  rw [rejected_of_computed (execute_op m hopcode hfunct7), Rv64i.op_eq_none_iff, Overlooked,
    hopcode, Insn.toNat_funct3, Insn.toNat_funct7]
  change _ ↔ ¬_ ∉ [0, 5]
  simp only [List.mem_cons, List.not_mem_nil, or_false] at hop ⊢
  omega

theorem rejected_op32_iff (hopcode : Insn.opcode insn = 0x3B) (hmul : ¬Riscv.isMul insn) :
    Rejected insn m ↔ ¬Overlooked insn m.cpu.priv := by
  have hop32 : (Riscv.opcode insn).toNat = 0x3B := by
    rw [← Insn.toNat_opcode, hopcode]
    rfl
  rw [Riscv.decode, hop32] at hdecode
  have hop := (Riscv.decodeOpW_eq_none_iff insn).mp (Option.map_eq_none_iff.mp hdecode)
  have hfields : ¬((Riscv.funct7 insn).toNat = 1 ∧
      (Riscv.funct3 insn).toNat ∈ [0, 4, 5, 6, 7]) :=
    fun hboth => hmul ⟨hboth.1, .inr ⟨hop32, hboth.2⟩⟩
  rw [Overlooked, hopcode]
  change _ ↔ ¬(_ = 1 ∧ _ ≠ 1)
  by_cases hfunct7 : Insn.funct7 insn = 0x01
  · rw [rejected_of_computed (execute_mul m ⟨hfunct7, .inr hopcode⟩), Rv64m.result,
      if_neg (by rw [hopcode]; decide), Option.map_eq_none_iff]
    rw [← Insn.toNat_funct7, hfunct7, ← Insn.toNat_funct3] at hfields
    refine iff_of_true ?_ (fun hother => hother.2 (by rw [hfunct7]; rfl))
    have hnone : (Insn.funct3 insn).toNat ∉ [0, 4, 5, 6, 7] := fun hmem => hfields ⟨rfl, hmem⟩
    exact Rv64m.op32_eq_none hnone _ _
  · rw [rejected_of_computed (execute_op32 m hopcode hfunct7), Option.map_eq_none_iff,
      Rv64i.op32_eq_none_iff, Insn.toNat_funct3, Insn.toNat_funct7]
    have hother : (Riscv.funct7 insn).toNat ≠ 1 := by
      rw [← Insn.toNat_funct7]
      exact fun hone => hfunct7 (BitVec.eq_of_toNat_eq hone)
    simp only [List.mem_cons, List.not_mem_nil, or_false] at hop ⊢
    omega

theorem rejected_branch (hopcode : Insn.opcode insn = 0x63) : Rejected insn m := by
  rw [Riscv.decode, ← Insn.toNat_opcode, hopcode] at hdecode
  have hcond := (Riscv.decodeCond_eq_none_iff insn).mp (Option.map_eq_none_iff.mp hdecode)
  rw [← Insn.toNat_funct3] at hcond
  rw [Rejected, execute_branch m hopcode, (Rv64i.taken_eq_none_iff insn _ _).mpr hcond]
  rfl

theorem rejected_of_load (hopcode : Insn.opcode insn = 0x03) : Rejected insn m := by
  rw [Riscv.decode, ← Insn.toNat_opcode, hopcode] at hdecode
  have hload := (Riscv.decodeLoad_eq_none_iff insn).mp (Option.map_eq_none_iff.mp hdecode)
  rw [← Insn.toNat_funct3] at hload
  exact rejected_load hopcode hload m

theorem rejected_of_store (hopcode : Insn.opcode insn = 0x23) : Rejected insn m := by
  rw [Riscv.decode, ← Insn.toNat_opcode, hopcode] at hdecode
  have hstore := (Riscv.decodeStore_eq_none_iff insn).mp (Option.map_eq_none_iff.mp hdecode)
  rw [← Insn.toNat_funct3] at hstore
  exact rejected_store hopcode hstore m

theorem rejected_fence (hopcode : Insn.opcode insn = 0x0F) : Rejected insn m := by
  rw [Riscv.decode, ← Insn.toNat_opcode, hopcode] at hdecode
  change (if _ then _ else _) = none at hdecode
  have hother : ¬(Insn.funct3 insn).toNat ≤ 1 := by
    intro hle
    rw [Insn.toNat_funct3] at hle
    rw [if_pos] at hdecode
    · cases hdecode
    rcases Nat.le_one_iff_eq_zero_or_eq_one.mp hle with hzero | hone
    · exact .inl (BitVec.eq_of_toNat_eq hzero)
    · exact .inr (BitVec.eq_of_toNat_eq hone)
  rw [Rejected, execute_fence m hopcode, if_neg hother]

end

theorem rejected_atomic_iff {insn : Insn} (hopcode : Insn.opcode insn = 0x2F) (m : Machine B S) :
    Rejected insn m ↔ ¬Overlooked insn m.cpu.priv := by
  rw [Overlooked, hopcode]
  change _ ↔ ¬_ ∈ [2, 3]
  by_cases hsize : (Insn.funct3 insn).toNat ∈ [2, 3]
  · exact iff_of_false (not_rejected_atomic hopcode hsize m) (not_not_intro hsize)
  · exact iff_of_true (rejected_atomic hopcode hsize m) hsize

theorem rejected_system_iff {insn : Insn} (hopcode : Insn.opcode insn = 0x73)
    (hcsr : ¬Riscv.isCsr insn) (m : Machine B S) :
    Rejected insn m ↔ ¬Overlooked insn m.cpu.priv := by
  have hfields : (Riscv.funct3 insn).toNat ∉ [1, 2, 3, 5, 6, 7] := by
    refine fun hmem => hcsr ⟨?_, hmem⟩
    rw [← Insn.toNat_opcode, hopcode]
    rfl
  rw [← Insn.toNat_funct3] at hfields
  rw [Overlooked, hopcode]
  change _ ↔ ¬(_ = 0 ∧ _)
  by_cases hzero : (Insn.funct3 insn).toNat = 0
  · rw [rejected_privileged_iff hopcode (BitVec.eq_of_toNat_eq hzero) m]
    exact not_congr (and_iff_right hzero).symm
  · have hfour : (Insn.funct3 insn).toNat = 4 := by
      have hlt := Rv64i.funct3_lt insn
      simp only [List.mem_cons, List.not_mem_nil, or_false] at hfields
      omega
    exact iff_of_true (rejected_csr hopcode hfour m) fun hboth => hzero hboth.1

/-- **A word that encodes nothing** is refused unless it is overlooked. -/
theorem rejected_iff {insn : Insn} (hencoded : ¬Riscv.Encoded insn) (m : Machine B S) :
    Rejected insn m ↔ ¬Overlooked insn m.cpu.priv := by
  have hdecode : Riscv.decode insn = none :=
    Option.not_isSome_iff_eq_none.mp fun hsome => hencoded (.inl hsome)
  have hmul : ¬Riscv.isMul insn := fun h => hencoded (.inr (.inl h))
  have hcsr : ¬Riscv.isCsr insn := fun h => hencoded (.inr (.inr (.inr (.inl h))))
  by_cases hknown : Insn.opcode insn ∈
      [(0x03 : BitVec 32), 0x0F, 0x13, 0x17, 0x1B, 0x23, 0x2F, 0x33, 0x37, 0x3B, 0x63, 0x67, 0x6F,
        0x73]
  · have hnever (code : BitVec 32) (hopcode : Insn.opcode insn = code)
        (hcode : code ∈ [(0x17 : BitVec 32), 0x37, 0x6F]) : False := by
      rw [Riscv.decode, ← Insn.toNat_opcode, hopcode] at hdecode
      simp only [List.mem_cons, List.not_mem_nil, or_false] at hcode
      rcases hcode with rfl | rfl | rfl <;> cases hdecode
    have hfields (code : BitVec 32) (hopcode : Insn.opcode insn = code)
        (hcode : code ∈ [(0x03 : BitVec 32), 0x0F, 0x23, 0x63]) :
        ¬Overlooked insn m.cpu.priv := by
      rw [Overlooked, hopcode]
      simp only [List.mem_cons, List.not_mem_nil, or_false] at hcode
      rcases hcode with rfl | rfl | rfl | rfl <;> exact not_false
    simp only [List.mem_cons, List.not_mem_nil, or_false] at hknown
    rcases hknown with h | h | h | h | h | h | h | h | h | h | h | h | h | h
    · exact iff_of_true (rejected_of_load m hdecode h) (hfields _ h (by decide))
    · exact iff_of_true (rejected_fence m hdecode h) (hfields _ h (by decide))
    · exact rejected_opImm_iff m h
    · exact (hnever _ h (by decide)).elim
    · exact rejected_opImm32_iff m hdecode h
    · exact iff_of_true (rejected_of_store m hdecode h) (hfields _ h (by decide))
    · exact rejected_atomic_iff h m
    · refine rejected_op_iff m hdecode h fun hone => hmul ⟨?_, .inl ?_⟩
      · rw [← Insn.toNat_funct7, hone]
        rfl
      · rw [← Insn.toNat_opcode, h]
        rfl
    · exact (hnever _ h (by decide)).elim
    · exact rejected_op32_iff m hdecode h hmul
    · exact iff_of_true (rejected_branch m hdecode h) (hfields _ h (by decide))
    · exact rejected_jalr_iff m h
    · exact (hnever _ h (by decide)).elim
    · exact rejected_system_iff h hcsr m
  · refine iff_of_true (execute_unknown m hknown) ?_
    simp only [List.mem_cons, List.not_mem_nil, or_false, not_or, ← BitVec.toNat_inj,
      BitVec.reduceToNat] at hknown
    unfold Overlooked
    split <;> first | omega | exact not_false

/-! ## Steps -/

theorem step_rejects_iff {insn : Insn} {m fetched : Machine B S}
    (hfetch : fetchInsn.run m = .ok (insn, 4) fetched) :
    step.run m = .error (.illegalInstruction (insn.setWidth 64)) (begun 4 fetched) ↔
      Rejected insn (begun 4 fetched) := by
  rw [step_of_fetched hfetch, Exec.run_bind, Rejected]
  cases (execute insn).run (begun 4 fetched) with
  | ok _ middle => exact iff_of_false (fun hrun => by cases hrun) (fun hrun => by cases hrun)
  | error err middle => exact Iff.rfl
  | panic => exact iff_of_false (fun hrun => by cases hrun) (fun hrun => by cases hrun)

/-- **A word that encodes nothing** traps, and nothing else happens, unless it is one of
those that are overlooked. -/
theorem unimplemented_traps_iff (insn : Insn) (m fetched : Machine B S)
    (hfetch : fetchInsn.run m = .ok (insn, 4) fetched) (hencoded : ¬Riscv.Encoded insn) :
    step.run m = .error (.illegalInstruction (insn.setWidth 64)) (begun 4 fetched) ↔
      ¬Overlooked insn m.cpu.priv := by
  have hcontrol : SameControl m fetched :=
    ((sameControl_framed.toAccesses.reads .fetch).fetchInsn_keeps m).of_run_ok hfetch
  rw [step_rejects_iff hfetch, rejected_iff hencoded, ← hcontrol.priv]
  rfl

/-! Programs of one word. -/

def oneWord (word : BitVec 32) : Machine FakeBacking (List LittleEndian.Byte) :=
  overPages (firstPage [word.setWidth 64])
    (((Cpu.new 0x80000000).setReg 2 6).setReg 3 3)

/-- `andn x1, x2, x3` runs as `and x1, x2, x3`. -/
theorem not_unimplemented_traps_andn :
    ¬ ∀ (insn : Insn) (m fetched : Machine FakeBacking (List LittleEndian.Byte)),
      fetchInsn.run m = .ok (insn, 4) fetched → ¬Riscv.Encoded insn →
        step.run m = .error (.illegalInstruction (insn.setWidth 64)) (begun 4 fetched) := by
  intro hclaim
  obtain ⟨fetched, hfetch⟩ : ∃ fetched, fetchInsn.run (oneWord 0x403170B3) =
      .ok (0x403170B3, 4) fetched := exists_fetched (by decide +kernel)
  have hstep := hclaim _ _ _ hfetch (by decide)
  have hdone : ((step.run (oneWord 0x403170B3)).reply.map fun reply => reply.1.toOption) =
      some (some ⟨⟩) := by
    decide +kernel
  rw [hstep] at hdone
  cases hdone

/-- A vector instruction traps. -/
theorem unimplemented_traps_vector :
    ∃ fetched, step.run (oneWord 0x00000057) =
      .error (.illegalInstruction 0x00000057) (begun 4 fetched) := by
  obtain ⟨fetched, hfetch⟩ : ∃ fetched, fetchInsn.run (oneWord 0x00000057) =
      .ok (0x00000057, 4) fetched := exists_fetched (by decide +kernel)
  exact ⟨fetched, (unimplemented_traps_iff 0x00000057 _ _ hfetch (by decide)).mpr (by decide)⟩

end Machine

end Baonix.Core

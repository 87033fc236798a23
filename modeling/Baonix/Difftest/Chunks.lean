import Baonix.Difftest.Operands

/-!
# What is generated

Whatever the random numbers are, a chunk computes, accesses memory through an address of
the scratch page, or goes forward by a few chunks, and no assertion of its generator fires.
-/

namespace Baonix.Difftest

open Riscv (Reg)
open Riscv.Compressed (popular sp)

/-! ## Draws -/

/-- Whatever the random numbers are, what is drawn has the property, and nothing panics. -/
def Draws {Item : Type} (draw : Gen Item) (property : Item → Prop) : Prop :=
  ∀ rng, Exec.wp draw (fun x _ => property x) (fun _ _ => True) False rng

section

variable {Item Next : Type} {draw : Gen Item} {property : Item → Prop}

theorem Draws.pure {x : Item} (hx : property x) : Draws (Pure.pure x : Gen Item) property :=
  fun _ => hx

theorem Draws.bind {next : Item → Gen Next} {further : Next → Prop} (hdraw : Draws draw property)
    (hnext : ∀ x, property x → Draws (next x) further) : Draws (draw >>= next) further := by
  intro rng
  rw [Exec.wp_bind]
  exact (hdraw rng).imp_post fun x rng hx => hnext x hx rng

theorem Draws.imp {property' : Item → Prop} (hdraw : Draws draw property)
    (himp : ∀ x, property x → property' x) : Draws draw property' :=
  fun rng => (hdraw rng).imp_post fun x _ hx => himp x hx

theorem Draws.ite {condition : Prop} [Decidable condition] {draw' : Gen Item}
    (hfirst : Draws draw property) (hsecond : Draws draw' property) :
    Draws (if condition then draw else draw') property := by
  split
  · exact hfirst
  · exact hsecond

theorem draws_ensure {condition : Prop} [Decidable condition] (hcondition : condition) :
    Draws (ensure condition) fun _ => True := by
  rw [ensure, if_pos hcondition]
  exact .pure trivial

theorem draws_nextU64 : Draws nextU64 fun _ => True := fun _ => trivial

theorem draws_below {n : ℕ} (hn : 0 < n) : Draws (below n) (· < n) :=
  draws_nextU64.bind fun x _ => (draws_ensure hn.ne').bind fun _ _ =>
    .pure (Nat.mod_lt x.toNat hn)

theorem draws_pick {xs : List Item} (hne : xs ≠ []) : Draws (pick xs) (· ∈ xs) := by
  apply (draws_below (List.length_pos_iff.mpr hne)).bind
  intro i hi
  rw [List.getElem?_eq_getElem hi]
  exact .pure (List.getElem_mem hi)

theorem draws_redraw {bad : Item → Prop} [DecidablePred bad] (hdraw : Draws draw property)
    (fuel : ℕ) : Draws (redraw draw bad fuel) fun x => property x ∧ ¬bad x := by
  induction fuel with
  | zero => exact fun _ => trivial
  | succ fuel ih =>
      apply hdraw.bind
      intro x hx
      by_cases hbad : bad x
      · rw [if_pos hbad]
        exact ih
      · rw [if_neg hbad]
        exact .pure ⟨hx, hbad⟩

theorem draws_coin : Draws coin fun _ => True :=
  (draws_below (by norm_num)).bind fun _ _ => .pure trivial

end

/-! ## Registers -/

theorem draws_reg : Draws reg fun r => ∃ x : Reg, r = x.toNat :=
  (draws_below (by norm_num)).imp fun r hr => ⟨BitVec.ofNatLT r hr, rfl⟩

theorem draws_nzreg : Draws nzreg fun r => ∃ x : Reg, x ≠ 0 ∧ r = x.toNat := by
  apply (draws_below (by norm_num)).bind
  intro n hn
  refine .pure ⟨BitVec.ofNatLT (1 + n) (by omega), ?_, rfl⟩
  intro hzero
  have hvalue : 1 + n = 0 := congrArg BitVec.toNat hzero
  omega

theorem draws_creg : Draws creg fun r => ∃ x : BitVec 3, r = 8 + x.toNat :=
  (draws_below (by norm_num)).bind fun n hn => .pure ⟨BitVec.ofNatLT n hn, rfl⟩

theorem toNat_popular (r : BitVec 3) : (popular r).toNat = 8 + r.toNat := by
  revert r
  decide

theorem draws_skip : Draws skip fun s => 1 ≤ s ∧ s ≤ maxSkip := by
  apply (draws_below (by decide)).bind
  intro n hn
  refine .pure ⟨by omega, ?_⟩
  rw [maxSkip] at hn ⊢
  omega

/-- An immediate of six bits that is not zero shows in its field. -/
theorem draws_nzImm6 (fuel : ℕ) : Draws (nzImm6 fuel) fun i => i.extractLsb' 0 6 ≠ 0 := by
  have hfield : ∀ n < 64, (u32 n <<< 26).sshiftRight 26 ≠ 0 →
      ((u32 n <<< 26).sshiftRight 26).extractLsb' 0 6 ≠ 0 := by
    decide +kernel
  have himm : Draws imm6 fun i => i ≠ 0 → i.extractLsb' 0 6 ≠ 0 :=
    (draws_below (by norm_num)).bind fun n hn => .pure (hfield n hn)
  exact (draws_redraw himm fuel).imp fun i hi => hi.1 hi.2

/-! ## Chunks -/

/-- The widths of accesses. -/
def Width (w : ℕ) : Prop := w ∈ [1, 2, 4, 8]

/-- A chunk whose instructions do what they are there for. -/
inductive Chunk.Sound : Chunk → Prop
  | computes {ins : Ins} (hcomputes : ins.Computes) : Sound (.plain [ins])
  | accesses {rt ru rs : Reg} {w : ℕ} {ins : Ins} (hrt : rt ≠ 0) (hru : ru ≠ 0) (hne : ru ≠ rt)
      (hwidth : Width w) (haccesses : ins.Accesses rt w) :
      Sound (.plain (scratchCode rt.toNat ru.toNat rs.toNat w ++ [ins]))
  | reserves {rt ru rs rd rd' : Reg} {w : ℕ} {lr sc : Ins} (hrt : rt ≠ 0) (hru : ru ≠ 0)
      (hne : ru ≠ rt) (hrd : rd ≠ rt) (hwidth : Width w) (hlr : lr.Reserves rd rt w)
      (hsc : sc.Reserves rd' rt w) :
      Sound (.plain (scratchCode rt.toNat ru.toNat rs.toNat w ++ [lr, sc]))
  | branch {f3 : BitVec 32} (hf3 : f3 ∈ branches) (rs1 rs2 : Reg) {s : ℕ}
      (hskip : 1 ≤ s ∧ s ≤ maxSkip) : Sound (.branch f3 rs1.toNat rs2.toNat s)
  | jal (rd : Reg) {s : ℕ} (hskip : 1 ≤ s ∧ s ≤ maxSkip) : Sound (.jal rd.toNat s)
  | jalr {rt : Reg} (hrt : rt ≠ 0) (rd : Reg) {s : ℕ} (hskip : 1 ≤ s ∧ s ≤ maxSkip) :
      Sound (.jalr rt.toNat rd.toNat s)
  | cBranch (ne : Bool) (r : BitVec 3) {s : ℕ} (hskip : 1 ≤ s ∧ s ≤ maxSkip) :
      Sound (.cBranch ne (8 + r.toNat) s)
  | cJ {s : ℕ} (hskip : 1 ≤ s ∧ s ≤ maxSkip) : Sound (.cJ s)
  | cJr {rt : Reg} (hrt : rt ≠ 0) (link : Bool) {s : ℕ} (hskip : 1 ≤ s ∧ s ≤ maxSkip) :
      Sound (.cJr rt.toNat link s)

/-! ### Chunks that compute -/

section

variable {ins : Ins}

theorem draws_plain (hcomputes : ins.Computes) :
    Draws (pure (.plain [ins])) Chunk.Sound :=
  .pure (.computes hcomputes)

theorem sound_genOp : Draws genOp Chunk.Sound := by
  apply (draws_pick (by decide)).bind
  rintro ⟨f3, f7⟩ hop
  apply draws_reg.bind
  rintro _ ⟨rd, rfl⟩
  apply draws_reg.bind
  rintro _ ⟨a, rfl⟩
  apply draws_reg.bind
  rintro _ ⟨b, rfl⟩
  exact draws_plain (computes_op rd a b hop)

theorem sound_genOp32 : Draws genOp32 Chunk.Sound := by
  apply (draws_pick (by decide)).bind
  rintro ⟨f3, f7⟩ hop
  apply draws_reg.bind
  rintro _ ⟨rd, rfl⟩
  apply draws_reg.bind
  rintro _ ⟨a, rfl⟩
  apply draws_reg.bind
  rintro _ ⟨b, rfl⟩
  exact draws_plain (computes_op32 rd a b hop)

theorem sound_genShift {op : BitVec 32} {width rd a : ℕ} (hwidth : 0 < width)
    (hshift : ∀ shamt < width, (Ins.w (iType op 1 rd a (u32 shamt))).Computes ∧
      (Ins.w (iType op 5 rd a (u32 shamt))).Computes ∧
        (Ins.w (iType op 5 rd a (u32 shamt ||| 0x400))).Computes) :
    Draws (genShift op width rd a) Chunk.Sound := by
  apply (draws_below hwidth).bind
  intro shamt hshamt
  obtain ⟨hleft, hlogical, harithmetic⟩ := hshift shamt hshamt
  apply draws_coin.bind
  intro logical _
  apply draws_coin.bind
  intro left _
  cases logical <;> cases left
  · exact draws_plain harithmetic
  · exact draws_plain harithmetic
  · exact draws_plain hlogical
  · exact draws_plain hleft

theorem sound_genOpImm : Draws genOpImm Chunk.Sound := by
  apply draws_reg.bind
  rintro _ ⟨rd, rfl⟩
  apply draws_reg.bind
  rintro _ ⟨a, rfl⟩
  apply (draws_below (by norm_num)).bind
  intro _ _
  apply Draws.ite
  · exact sound_genShift (by norm_num) fun _ hshamt => computes_shift rd a hshamt
  apply (draws_pick (by decide)).bind
  intro f3 hf3
  apply (draws_nextU64.bind fun _ _ => .pure trivial : Draws imm12 fun _ => True).bind
  intro imm _
  exact draws_plain (computes_opImm rd a hf3 imm)

theorem sound_genOpImm32 : Draws genOpImm32 Chunk.Sound := by
  apply draws_reg.bind
  rintro _ ⟨rd, rfl⟩
  apply draws_reg.bind
  rintro _ ⟨a, rfl⟩
  apply draws_coin.bind
  intro _ _
  apply Draws.ite
  · exact sound_genShift (by norm_num) fun _ hshamt => computes_shiftW rd a hshamt
  apply (draws_nextU64.bind fun _ _ => .pure trivial : Draws imm12 fun _ => True).bind
  intro imm _
  exact draws_plain (computes_addiw rd a imm)

theorem sound_genUpper : Draws genUpper Chunk.Sound := by
  apply draws_reg.bind
  rintro _ ⟨rd, rfl⟩
  apply draws_nextU64.bind
  intro x _
  apply draws_coin.bind
  intro _ _
  apply Draws.ite
  · exact draws_plain (computes_upper rd _).1
  · exact draws_plain (computes_upper rd _).2

theorem sound_genMul : Draws genMul Chunk.Sound := by
  apply draws_reg.bind
  rintro _ ⟨rd, rfl⟩
  apply draws_reg.bind
  rintro _ ⟨a, rfl⟩
  apply draws_reg.bind
  rintro _ ⟨b, rfl⟩
  apply (draws_below (by norm_num)).bind
  intro _ _
  apply Draws.ite
  · apply (draws_pick (by decide)).bind
    intro f3 hf3
    exact draws_plain (computes_mul32 rd a b hf3)
  · apply (draws_pick (by decide)).bind
    intro f3 hf3
    exact draws_plain (computes_mul rd a b hf3)

end

/-! ### Chunks that access memory -/

/-- The code leaves an address in `rt`, through another register. -/
def Computed (align : ℕ) (rt : Reg) (code : List Ins) : Prop :=
  ∃ ru rs : Reg, ru ≠ 0 ∧ ru ≠ rt ∧ code = scratchCode rt.toNat ru.toNat rs.toNat align

theorem draws_scratchAddrIn (fuel align : ℕ) {rt : Reg} (hrt : rt ≠ 0) :
    Draws (scratchAddrIn fuel align rt.toNat) (Computed align rt) := by
  have hpos : rt.toNat ≠ 0 := fun hzero => hrt (BitVec.eq_of_toNat_eq hzero)
  apply (draws_ensure hpos).bind
  intro _ _
  apply (draws_redraw draws_nzreg fuel).bind
  rintro _ ⟨⟨ru, hru, rfl⟩, hne⟩
  apply draws_reg.bind
  rintro _ ⟨rs, rfl⟩
  exact .pure ⟨ru, rs, hru, fun heq => hne (congrArg BitVec.toNat heq), rfl⟩

theorem draws_scratchAddr (fuel align : ℕ) :
    Draws (scratchAddr fuel align) fun result =>
      ∃ rt : Reg, rt ≠ 0 ∧ result.1 = rt.toNat ∧ Computed align rt result.2 := by
  apply draws_nzreg.bind
  rintro _ ⟨rt, hrt, rfl⟩
  apply (draws_scratchAddrIn fuel align hrt).bind
  intro code hcode
  exact .pure ⟨rt, hrt, rfl, hcode⟩

theorem Computed.sound {w : ℕ} {rt : Reg} {code : List Ins} (hcode : Computed w rt code)
    (hrt : rt ≠ 0) (hwidth : Width w) {ins : Ins} (haccesses : ins.Accesses rt w) :
    Chunk.Sound (.plain (code ++ [ins])) := by
  obtain ⟨ru, rs, hru, hne, rfl⟩ := hcode
  exact .accesses hrt hru hne hwidth haccesses

theorem width_load {f3 : BitVec 32} {w : ℕ} (hload : (f3, w) ∈ loads) : Width w := by
  have hall : ∀ entry ∈ loads, entry.2 ∈ [1, 2, 4, 8] := by decide
  exact hall _ hload

theorem width_store {f3 : BitVec 32} {w : ℕ} (hstore : (f3, w) ∈ stores) : Width w := by
  have hall : ∀ entry ∈ stores, entry.2 ∈ [1, 2, 4, 8] := by decide
  exact hall _ hstore

theorem sound_genMem (fuel : ℕ) : Draws (genMem fuel) Chunk.Sound := by
  apply draws_coin.bind
  intro _ _
  apply Draws.ite
  · apply (draws_pick (by decide)).bind
    rintro ⟨f3, w⟩ hload
    apply (draws_scratchAddr fuel w).bind
    rintro ⟨_, code⟩ ⟨rt, hrt, rfl, hcode⟩
    apply draws_reg.bind
    rintro _ ⟨rd, rfl⟩
    exact .pure (hcode.sound hrt (width_load hload)
      (accesses_load rd rt hload (by norm_num) (dvd_zero w)))
  · apply (draws_pick (by decide)).bind
    rintro ⟨f3, w⟩ hstore
    apply (draws_scratchAddr fuel w).bind
    rintro ⟨_, code⟩ ⟨rt, hrt, rfl, hcode⟩
    apply draws_reg.bind
    rintro _ ⟨rs, rfl⟩
    exact .pure (hcode.sound hrt (width_store hstore) (accesses_store rt rs hstore))

theorem draws_atomicWidth : Draws atomicWidth fun form => AtomicWidth form.1 form.2 :=
  draws_coin.bind fun _ _ => .ite (.pure (.inl ⟨rfl, rfl⟩)) (.pure (.inr ⟨rfl, rfl⟩))

theorem AtomicWidth.width {f3 : BitVec 32} {w : ℕ} (hwidth : AtomicWidth f3 w) : Width w := by
  rcases hwidth with ⟨-, rfl⟩ | ⟨-, rfl⟩
  · exact List.mem_of_elem_eq_true rfl
  · exact List.mem_of_elem_eq_true rfl

theorem sound_genAmo (fuel : ℕ) : Draws (genAmo fuel) Chunk.Sound := by
  apply (draws_pick (by decide)).bind
  intro op hop
  apply draws_atomicWidth.bind
  rintro ⟨f3, w⟩ hwidth
  apply (draws_scratchAddr fuel w).bind
  rintro ⟨_, code⟩ ⟨rt, hrt, rfl, hcode⟩
  apply draws_reg.bind
  rintro _ ⟨rd, rfl⟩
  apply draws_reg.bind
  rintro _ ⟨rs, rfl⟩
  exact .pure (hcode.sound hrt hwidth.width (accesses_amo rd rt rs hop hwidth))

/-- The register of the address survives LR, so that SC takes it again. -/
theorem sound_genLrSc (fuel : ℕ) : Draws (genLrSc fuel) Chunk.Sound := by
  apply draws_atomicWidth.bind
  rintro ⟨f3, w⟩ hwidth
  apply (draws_scratchAddr fuel w).bind
  rintro ⟨_, code⟩ ⟨rt, hrt, rfl, ru, rs, hru, hne, rfl⟩
  apply (draws_redraw draws_reg fuel).bind
  rintro _ ⟨⟨rd, rfl⟩, hrd⟩
  apply draws_reg.bind
  rintro _ ⟨rd', rfl⟩
  apply draws_reg.bind
  rintro _ ⟨src, rfl⟩
  exact .pure (.reserves hrt hru hne (fun heq => hrd (congrArg BitVec.toNat heq)) hwidth.width
    (reserves_w (.inl rfl) hwidth rd rt 0) (reserves_w (.inr rfl) hwidth rd' rt src))

/-! ### Chunks that go forward -/

theorem sound_genBranch : Draws genBranch Chunk.Sound := by
  apply (draws_pick (by decide)).bind
  intro f3 hf3
  apply draws_reg.bind
  rintro _ ⟨rs1, rfl⟩
  apply draws_reg.bind
  rintro _ ⟨rs2, rfl⟩
  apply draws_skip.bind
  intro s hskip
  exact .pure (.branch hf3 rs1 rs2 hskip)

theorem sound_genJal : Draws genJal Chunk.Sound := by
  apply draws_reg.bind
  rintro _ ⟨rd, rfl⟩
  apply draws_skip.bind
  intro s hskip
  exact .pure (.jal rd hskip)

theorem sound_genJalr : Draws genJalr Chunk.Sound := by
  apply draws_nzreg.bind
  rintro _ ⟨rt, hrt, rfl⟩
  apply draws_reg.bind
  rintro _ ⟨rd, rfl⟩
  apply draws_skip.bind
  intro s hskip
  exact .pure (.jalr hrt rd hskip)

theorem sound_genCBranch : Draws genCBranch Chunk.Sound := by
  apply draws_coin.bind
  intro eq _
  apply draws_creg.bind
  rintro _ ⟨r, rfl⟩
  apply draws_skip.bind
  intro s hskip
  exact .pure (.cBranch (!eq) r hskip)

theorem sound_genCJ : Draws genCJ Chunk.Sound :=
  draws_skip.bind fun _ hskip => .pure (.cJ hskip)

theorem sound_genCJr : Draws genCJr Chunk.Sound := by
  apply draws_nzreg.bind
  rintro _ ⟨rt, hrt, rfl⟩
  apply draws_coin.bind
  intro noLink _
  apply draws_skip.bind
  intro s hskip
  exact .pure (.cJr hrt (!noLink) hskip)

/-! ### Compressed instructions -/

theorem draws_imm6 : Draws imm6 fun _ => True :=
  (draws_below (by norm_num)).bind fun _ _ => .pure trivial

theorem addi4spn_ne : ∀ n < 255, (u32 (4 * (1 + n))).extractLsb' 2 8 ++ 0#2 ≠ 0 := by
  decide +kernel

theorem addi16sp_ne : ∀ n < 64,
    ((if u32 n - 32 = 0 then 1 else u32 n - 32) * 16).extractLsb' 4 6 ++ 0#4 ≠ 0 := by
  decide +kernel

theorem computes_genCompressed (fuel : ℕ) : Draws (genCompressed fuel) Ins.Computes := by
  apply (draws_below (by norm_num)).bind
  intro kind hkind
  interval_cases kind
  · apply draws_nzreg.bind
    rintro _ ⟨rd, -, rfl⟩
    apply (draws_nzImm6 fuel).bind
    intro imm _
    exact .pure (computes_ci rd imm).1
  · apply draws_nzreg.bind
    rintro _ ⟨rd, hrd, rfl⟩
    apply draws_imm6.bind
    intro imm _
    exact .pure (computes_cAddiw rd imm hrd)
  · apply draws_nzreg.bind
    rintro _ ⟨rd, -, rfl⟩
    apply draws_imm6.bind
    intro imm _
    exact .pure (computes_ci rd imm).2.1
  · apply (draws_redraw draws_nzreg fuel).bind
    rintro _ ⟨⟨rd, -, rfl⟩, hrd⟩
    apply (draws_nzImm6 fuel).bind
    intro imm himm
    exact .pure (computes_cLui rd imm (fun heq => hrd (congrArg BitVec.toNat heq)) himm)
  · apply draws_nzreg.bind
    rintro _ ⟨rd, -, rfl⟩
    apply (draws_below (by norm_num)).bind
    intro sh _
    exact .pure (computes_ci rd _).2.2
  · apply draws_creg.bind
    rintro _ ⟨r, rfl⟩
    apply (draws_below (by norm_num)).bind
    intro sh _
    apply draws_coin.bind
    intro logical _
    cases logical
    · exact .pure (computes_cbImm r _ 1 (by decide))
    · exact .pure (computes_cbImm r _ 0 (by decide))
  · apply draws_creg.bind
    rintro _ ⟨r, rfl⟩
    apply (draws_below (by norm_num)).bind
    intro sh _
    apply draws_coin.bind
    intro logical _
    cases logical
    · exact .pure (computes_cbImm r _ 1 (by decide))
    · exact .pure (computes_cbImm r _ 0 (by decide))
  · apply draws_creg.bind
    rintro _ ⟨r, rfl⟩
    apply draws_imm6.bind
    intro imm _
    exact .pure (computes_cbImm r imm 2 (by decide))
  · apply draws_creg.bind
    rintro _ ⟨r, rfl⟩
    apply draws_creg.bind
    rintro _ ⟨r', rfl⟩
    apply (draws_pick (by decide)).bind
    intro f2 hf2
    exact .pure (computes_ca r r' hf2)
  · apply draws_creg.bind
    rintro _ ⟨r, rfl⟩
    apply draws_creg.bind
    rintro _ ⟨r', rfl⟩
    apply (draws_pick (by decide)).bind
    intro f2 hf2
    exact .pure (computes_ca r r' hf2)
  · apply draws_creg.bind
    rintro _ ⟨r, rfl⟩
    apply draws_creg.bind
    rintro _ ⟨r', rfl⟩
    apply (draws_pick (by decide)).bind
    intro f2 hf2
    exact .pure (computes_caw r r' hf2)
  · apply draws_nzreg.bind
    rintro _ ⟨rd, -, rfl⟩
    apply draws_nzreg.bind
    rintro _ ⟨rs2, hrs2, rfl⟩
    exact .pure (computes_cMoves rd rs2 hrs2).1
  · apply draws_nzreg.bind
    rintro _ ⟨rd, -, rfl⟩
    apply draws_nzreg.bind
    rintro _ ⟨rs2, hrs2, rfl⟩
    exact .pure (computes_cMoves rd rs2 hrs2).1
  · apply draws_creg.bind
    rintro _ ⟨r, rfl⟩
    apply (draws_below (by norm_num)).bind
    intro n hn
    exact .pure (computes_cAddi4spn r _ (addi4spn_ne n hn))
  · apply (draws_below (by norm_num)).bind
    intro n hn
    exact .pure (computes_cAddi16sp _ (addi16sp_ne n hn))
  · apply draws_nzreg.bind
    rintro _ ⟨rd, -, rfl⟩
    apply draws_nzreg.bind
    rintro _ ⟨rs2, hrs2, rfl⟩
    exact .pure (computes_cMoves rd rs2 hrs2).2

theorem width_cScale (wide : Bool) (maxWide maxNarrow : ℕ) :
    (cScale wide maxWide maxNarrow).1 = (if wide then 8 else 4) ∧
      Width (cScale wide maxWide maxNarrow).1 := by
  cases wide
  · exact ⟨rfl, List.mem_of_elem_eq_true rfl⟩
  · exact ⟨rfl, List.mem_of_elem_eq_true rfl⟩

theorem sound_genCompressedMem (fuel : ℕ) :
    Draws (genCompressedMem fuel) fun code => Chunk.Sound (.plain code) := by
  apply draws_coin.bind
  intro _ _
  apply Draws.ite
  · apply draws_coin.bind
    intro wide _
    obtain ⟨hw, hwidth⟩ := width_cScale wide 248 124
    generalize cScale wide 248 124 = form at hw hwidth ⊢
    obtain ⟨w, scale, maxoff⟩ := form
    dsimp only at hw hwidth ⊢
    apply draws_creg.bind
    rintro _ ⟨r, rfl⟩
    have hbase : popular r ≠ 0 := by
      revert r
      decide
    rw [← toNat_popular]
    apply (draws_scratchAddrIn fuel _ hbase).bind
    intro code hcode
    apply (draws_below (Nat.succ_pos _)).bind
    intro k _
    apply draws_creg.bind
    rintro _ ⟨r', rfl⟩
    apply draws_coin.bind
    intro store _
    refine .pure (hcode.sound hbase hwidth ?_)
    rw [hw, toNat_popular]
    exact accesses_cMem _ wide store r r'
  · apply draws_coin.bind
    intro wide _
    obtain ⟨hw, hwidth⟩ := width_cScale wide 504 252
    generalize cScale wide 504 252 = form at hw hwidth ⊢
    obtain ⟨w, scale, maxoff⟩ := form
    dsimp only at hw hwidth ⊢
    have hsp : sp ≠ 0 := by decide
    apply (draws_scratchAddrIn fuel _ hsp).bind
    intro code hcode
    apply (draws_below (Nat.succ_pos _)).bind
    intro k _
    apply draws_coin.bind
    intro _ _
    apply Draws.ite
    · apply draws_reg.bind
      rintro _ ⟨rs2, rfl⟩
      refine .pure (hcode.sound hsp hwidth ?_)
      rw [hw]
      exact accesses_cStoreSp _ wide rs2
    · apply draws_nzreg.bind
      rintro _ ⟨rd, hrd, rfl⟩
      refine .pure (hcode.sound hsp hwidth ?_)
      rw [hw]
      exact accesses_cLoadSp _ wide hrd

/-! ### Any chunk -/

theorem sound_genKind (fuel : ℕ) (kind : Kind) : Draws (genKind fuel kind) Chunk.Sound := by
  cases kind with
  | op => exact sound_genOp
  | op32 => exact sound_genOp32
  | opImm => exact sound_genOpImm
  | opImm32 => exact sound_genOpImm32
  | upper => exact sound_genUpper
  | mul => exact sound_genMul
  | mem => exact sound_genMem fuel
  | amo => exact sound_genAmo fuel
  | lrSc => exact sound_genLrSc fuel
  | branch => exact sound_genBranch
  | jal => exact sound_genJal
  | jalr => exact sound_genJalr
  | compressed => exact (computes_genCompressed fuel).bind fun _ hcomputes => draws_plain hcomputes
  | cMem => exact (sound_genCompressedMem fuel).bind fun _ hsound => .pure hsound
  | cBranch => exact sound_genCBranch
  | cJ => exact sound_genCJ
  | cJr => exact sound_genCJr
  | fence => exact draws_plain computes_fence

theorem kindAt_isSome {table : List (ℕ × Kind)} {n : ℕ} (hn : n < (table.map Prod.fst).sum) :
    (kindAt n table).isSome := by
  induction table generalizing n with
  | nil => exact absurd hn (Nat.not_lt_zero n)
  | cons entry rest ih =>
      rw [List.map_cons, List.sum_cons] at hn
      rw [kindAt]
      split
      · rfl
      · exact ih (by omega)

/-- **Every chunk is sound**, and generating it does not panic. -/
theorem sound_genChunk (fuel : ℕ) : Draws (genChunk fuel) Chunk.Sound := by
  apply (draws_below (by decide)).bind
  intro n hn
  obtain ⟨kind, hkind⟩ := Option.isSome_iff_exists.mp (kindAt_isSome hn)
  rw [hkind]
  exact sound_genKind fuel kind

end Baonix.Difftest

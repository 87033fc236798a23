import Baonix.Core.Precise

/-!
# What a load leaves in its register

LB, LH and LW extend the value the bus answers with.  LBU, LHU and LWU take it
as it is: RAM and the UART answer with no more bits than were asked for, the
interruptor with its whole register.
-/

namespace Baonix.Core

open Baonix.LittleEndian
open PageCache (Holds)

/-- The value is the zero or sign extension its load stands for. -/
def ExtendsTo (insn : Insn) (v : BitVec 64) : Prop :=
  match (Insn.funct3 insn).toNat with
  | 0x0 => v = (v.setWidth 8).signExtend 64
  | 0x1 => v = (v.setWidth 16).signExtend 64
  | 0x2 => v = (v.setWidth 32).signExtend 64
  | 0x4 => v.toNat < 2 ^ 8
  | 0x5 => v.toNat < 2 ^ 16
  | 0x6 => v.toNat < 2 ^ 32
  | _ => True

theorem extendsTo_zero (insn : Insn) : ExtendsTo insn 0 := by
  unfold ExtendsTo
  split <;> decide

/-- LBU, LHU and LWU, which trust the width of the answer. -/
def zeroExtends (insn : Insn) : Prop := (Insn.funct3 insn).toNat ∈ [0x4, 0x5, 0x6]

instance (insn : Insn) : Decidable (zeroExtends insn) := inferInstanceAs (Decidable (_ ∈ _))

/-- A value extends as its load says, or is an answer too wide for it. -/
theorem extendsTo_iff {insn : Insn} {size : ℕ} {extended : BitVec 64 → BitVec 64}
    (hload : Rv64i.loadOf insn = some (size, extended)) (v : BitVec 64) :
    ExtendsTo insn (extended v) ↔ ¬ (zeroExtends insn ∧ 2 ^ (8 * size) ≤ v.toNat) := by
  have hsigned {n : ℕ} (hn : n ∉ [0x4, 0x5, 0x6]) (hfunct3 : (Insn.funct3 insn).toNat = n) :
      ¬ (zeroExtends insn ∧ 2 ^ (8 * size) ≤ v.toNat) := by
    rintro ⟨hzero, -⟩
    rw [zeroExtends, hfunct3] at hzero
    exact hn hzero
  have hunsigned {n : ℕ} (hn : n ∈ [0x4, 0x5, 0x6]) (hfunct3 : (Insn.funct3 insn).toNat = n) :
      v.toNat < 2 ^ (8 * size) ↔ ¬ (zeroExtends insn ∧ 2 ^ (8 * size) ≤ v.toNat) := by
    have hzero : zeroExtends insn := by
      rw [zeroExtends, hfunct3]
      exact hn
    rw [← not_le, not_iff_not]
    exact (and_iff_right hzero).symm
  have hsame {w : ℕ} (hw : w ≤ 64) : (v.setWidth w).signExtend 64 =
      (((v.setWidth w).signExtend 64).setWidth w).signExtend 64 := by
    rw [Bits.setWidth_signExtend hw]
  unfold Rv64i.loadOf at hload
  unfold ExtendsTo
  split at hload
  · next hfunct3 =>
      cases hload
      rw [hfunct3]
      exact iff_of_true (hsame (by norm_num)) (hsigned (by decide) hfunct3)
  · next hfunct3 =>
      cases hload
      rw [hfunct3]
      exact iff_of_true (hsame (by norm_num)) (hsigned (by decide) hfunct3)
  · next hfunct3 =>
      cases hload
      rw [hfunct3]
      exact iff_of_true (hsame (by norm_num)) (hsigned (by decide) hfunct3)
  · next hfunct3 =>
      cases hload
      rw [hfunct3]
      exact iff_of_true trivial (hsigned (by decide) hfunct3)
  · next hfunct3 =>
      cases hload
      rw [hfunct3]
      exact hunsigned (by decide) hfunct3
  · next hfunct3 =>
      cases hload
      rw [hfunct3]
      exact hunsigned (by decide) hfunct3
  · next hfunct3 =>
      cases hload
      rw [hfunct3]
      exact hunsigned (by decide) hfunct3
  · cases hload

namespace Bus

variable {B S : Type}

theorem uart_answer_lt (uart : Uart S) (off : BitVec 64) : (uart.load off).1.toNat < 2 ^ 8 := by
  have hbyte (b : Byte) : (b.setWidth 64).toNat < 2 ^ 8 := by
    rw [BitVec.toNat_setWidth_of_le (by norm_num)]
    exact b.isLt
  have hiir : uart.loadIir.toNat < 2 ^ 8 := by
    rw [Uart.loadIir]
    split_ifs <;> decide
  have hlsr : uart.loadLsr.toNat < 2 ^ 8 := by
    rw [Uart.loadLsr]
    split_ifs <;> decide
  unfold Uart.load
  split_ifs
  · exact hbyte _
  · exact hbyte _
  · exact hbyte _
  · exact hbyte _
  · exact hiir
  · exact hbyte _
  · exact hlsr
  · exact Nat.two_pow_pos 8

/-- No register of the interruptor lies in RAM. -/
theorem not_inRam_of_isClint {addr : BitVec 64} {size : ℕ} (hclint : isClint addr size) :
    ¬ inRam addr size := by
  have haddr := addr.isLt
  rw [isClint, inWindow, decide_eq_true_iff, saturatingAdd] at hclint
  rw [inRam, inWindow, decide_eq_true_iff, saturatingAdd]
  have hbase : clintBase.toNat = 0x02000000 := rfl
  have hsize : clintSize.toNat = 0x00010000 := rfl
  simp only [ramBase, ramSize]
  omega

/-- An answer is as wide as the access, unless it is a register of the
interruptor. -/
theorem answer_lt (m : Memory) (bus : Bus B S) {addr : BitVec 64} {size : ℕ} (hpos : 0 < size)
    (hclint : isClint addr size → (bus.clint.load (addr - clintBase)).toNat < 2 ^ (8 * size)) :
    (answer m bus addr size).toNat < 2 ^ (8 * size) := by
  rw [answer]
  split_ifs with hram hclint'
  · have hbytes := ofBytes_lt (m.read addr.toNat size)
    rw [Memory.length_read] at hbytes
    rw [BitVec.toNat_ofNat]
    calc ofBytes (m.read addr.toNat size) % 2 ^ 64 ≤ ofBytes (m.read addr.toNat size) :=
          Nat.mod_le _ _
      _ < 256 ^ size := hbytes
      _ = 2 ^ (8 * size) := by rw [pow_mul]; norm_num
  · exact hclint hclint'
  · calc (bus.uart.load (addr - uartBase)).1.toNat < 2 ^ 8 := uart_answer_lt _ _
      _ ≤ 2 ^ (8 * size) := Nat.pow_le_pow_right (by norm_num) (by omega)

end Bus

namespace Machine

variable {B S : Type} [FlatBacking B]

/-- The load reads a register of the interruptor, whole, and the register holds
more than the load asks for. -/
def ReadsWideRegister (insn : Insn) (machine : Machine B S) : Prop :=
  ∃ size extended pa middle, Rv64i.loadOf insn = some (size, extended) ∧
    fitsPage (machine.cpu.reg (Insn.rs1 insn) + Insn.immI insn) size ∧
    (translate (machine.cpu.reg (Insn.rs1 insn) + Insn.immI insn) .load).run machine =
      .ok pa middle ∧
    Bus.isClint pa size ∧
    2 ^ (8 * size) ≤ (machine.bus.clint.load (pa - Bus.clintBase)).toNat

/-- The bytes of a straddling read. -/
theorem readEach_length (vaddr : BitVec 64) (access : Access) (offsets : List ℕ)
    (machine : Machine B S) :
    Exec.wp (readEach vaddr access offsets) (fun bytes _ => bytes.length = offsets.length)
      (fun _ _ => True) True machine := by
  induction offsets generalizing machine with
  | nil => exact rfl
  | cons i rest ih =>
      rw [readEach, Exec.wp_bind]
      apply (Exec.wp_any _ machine).imp _ (fun _ _ _ => trivial) (fun _ => trivial)
      intro pa middle _
      rw [Exec.wp_bind]
      apply (Exec.wp_any _ middle).imp _ (fun _ _ _ => trivial) (fun _ => trivial)
      intro byte next _
      rw [Exec.wp_bind]
      apply (ih next).imp _ (fun _ _ _ => trivial) (fun _ => trivial)
      intro bytes after hbytes
      rw [Exec.wp_pure, List.length_cons, List.length_cons, hbytes]

theorem loadOf_size {insn : Insn} {size : ℕ} {extended : BitVec 64 → BitVec 64}
    (hload : Rv64i.loadOf insn = some (size, extended)) : 0 < size ∧ size ≤ 8 := by
  unfold Rv64i.loadOf at hload
  split at hload <;> cases hload <;> decide

/-- What a load puts into its register. -/
theorem vload_value {m : Memory} {machine : Machine B S} (hm : Holds m machine.bus.cache)
    (vaddr : BitVec 64) {size : ℕ} (hpos : 0 < size) :
    Exec.wp (vload vaddr size)
      (fun v _ => 2 ^ (8 * size) ≤ v.toNat → fitsPage vaddr size ∧ ∃ pa middle,
        (translate vaddr .load).run machine = .ok pa middle ∧ Bus.isClint pa size ∧
          2 ^ (8 * size) ≤ (machine.bus.clint.load (pa - Bus.clintBase)).toNat)
      (fun _ _ => True) True machine := by
  rw [vload, readTranslated, Exec.wp_ite]
  split
  · next hfits =>
      rw [Exec.wp_bind]
      apply (translate_spec hm vaddr .load).attach.imp
      · rintro pa middle ⟨hpa, -, hmiddle⟩
        apply (busLoad_spec hmiddle.holds .load pa size).imp
        · rintro v after ⟨-, -, rfl⟩ hwide
          refine ⟨hfits, pa, middle, hpa, ?_⟩
          by_contra hnarrow
          apply hwide.not_gt
          apply Bus.answer_lt m middle.bus hpos
          intro hclint
          rw [hmiddle.clint, ← not_le]
          exact fun hle => hnarrow ⟨hclint, hle⟩
        · exact fun _ _ _ => trivial
        · exact fun hfalse => hfalse.elim
      · exact fun _ _ _ => trivial
      · exact fun hfalse => hfalse.elim
  · rw [Exec.wp_bind]
    apply (readEach_length vaddr .load (List.range size) machine).imp
    · intro bytes after hlength hwide
      exfalso
      apply hwide.not_gt
      rw [List.length_range] at hlength
      rw [BitVec.toNat_ofNat]
      calc ofBytes bytes % 2 ^ 64 ≤ ofBytes bytes := Nat.mod_le _ _
        _ < 256 ^ size := by rw [← hlength]; exact ofBytes_lt bytes
        _ = 2 ^ (8 * size) := by rw [pow_mul]; norm_num
    · exact fun _ _ _ => trivial
    · exact fun hpanics => hpanics

theorem reg_setReg_self (cpu : Cpu) (i : BitVec 5) (v : BitVec 64) :
    (cpu.setReg i v).reg i = if i = 0 then cpu.reg i else v := by
  rw [Cpu.setReg]
  by_cases hzero : i = 0
  · rw [if_neg (not_not_intro hzero), if_pos hzero]
  · rw [if_pos hzero, if_neg hzero]
    exact Function.update_self ..

/-- The register of a load afterwards. -/
theorem load_result {m : Memory} {machine : Machine B S} (hm : Holds m machine.bus.cache)
    {insn : Insn} {size : ℕ} {extended : BitVec 64 → BitVec 64}
    (hload : Rv64i.loadOf insn = some (size, extended)) :
    Exec.wp (Rv64i.load insn)
      (fun _ after => ∃ v, (2 ^ (8 * size) ≤ v.toNat → ReadsWideRegister insn machine) ∧
        after.cpu.reg (Insn.rd insn) =
          if Insn.rd insn = 0 then machine.cpu.reg (Insn.rd insn) else extended v)
      (fun _ _ => True) True machine := by
  rw [Rv64i.load, Exec.wp_bind, Exec.wp_read, hload]
  dsimp only
  rw [Exec.wp_bind]
  have hvalue := vload_value hm (machine.cpu.reg (Insn.rs1 insn) + Insn.immI insn)
    (loadOf_size hload).1
  have hsame := (sameCore_reads .load).readTranslated_keeps
    (machine.cpu.reg (Insn.rs1 insn) + Insn.immI insn) size machine
  apply (hvalue.and hsame).imp
  · rintro v after ⟨hwide, hcore⟩
    rw [Rv64i.retire, Exec.wp_bind, setReg, onCpu, Exec.wp_update, Exec.wp_pure]
    refine ⟨v, ?_, ?_⟩
    · intro hle
      obtain ⟨hfits, pa, middle, hpa, hclint, hregister⟩ := hwide hle
      exact ⟨size, extended, pa, middle, hload, hfits, hpa, hclint, hregister⟩
    · rw [reg_setReg_self, Cpu.reg, hcore.regs]
      rfl
  · exact fun _ _ _ => trivial
  · exact fun _ => trivial

variable [ConsoleSink S]

/-- A load of a wide register of the interruptor. -/
theorem load_wide {m : Memory} {machine : Machine B S} (hm : Holds m machine.bus.cache)
    {insn : Insn} (hopcode : Insn.opcode insn = 0x03) (hrd : Insn.rd insn ≠ 0)
    (hwide : ReadsWideRegister insn machine) :
    ∃ size extended v after, Rv64i.loadOf insn = some (size, extended) ∧
      (execute insn).run machine = .ok () after ∧ 2 ^ (8 * size) ≤ v.toNat ∧
        after.cpu.reg (Insn.rd insn) = extended v := by
  obtain ⟨size, extended, pa, middle, hload, hfits, hpa, hclint, hregister⟩ := hwide
  have hmiddle := ((translate_spec hm _ .load).of_run_ok hpa).2
  have hwidth : (Bus.widthOf size).isSome := by
    unfold Rv64i.loadOf at hload
    split at hload <;> cases hload <;> rfl
  have hserved : Bus.Served pa size := ⟨hwidth, .inr (.inl hclint)⟩
  have hwp : Exec.wp (execute insn) (fun _ after => ∃ v, 2 ^ (8 * size) ≤ v.toNat ∧
      after.cpu.reg (Insn.rd insn) = extended v) (fun _ _ => False) False machine := by
    rw [execute_load hopcode, Exec.wp_bind, Rv64i.load, Exec.wp_bind, Exec.wp_read, hload]
    dsimp only
    rw [Exec.wp_bind, vload, readTranslated, if_pos hfits, Exec.wp_bind]
    apply Exec.wp_of_run_ok hpa
    apply (busLoad_spec hmiddle.holds .load pa size).imp
    · rintro v after ⟨-, -, rfl⟩
      rw [Rv64i.retire, Exec.wp_bind, setReg, onCpu, Exec.wp_update, Exec.wp_pure, Exec.wp_pure]
      refine ⟨_, ?_, by rw [reg_setReg_self, if_neg hrd]⟩
      rw [Bus.answer, if_neg (Bus.not_inRam_of_isClint hclint), if_pos hclint, hmiddle.clint]
      exact hregister
    · rintro err after ⟨-, ⟨-, hrefused⟩ | ⟨-, hram, -⟩⟩
      · exact hrefused hserved
      · exact Bus.not_inRam_of_isClint hclint hram
    · exact fun hfalse => hfalse
  obtain ⟨_, after, hrun, v, hle, hreg⟩ := hwp.exists_ok
  exact ⟨size, extended, v, after, hload, hrun, hle, hreg⟩

/-- **Loads extend their values**, except LBU, LHU and LWU of a register of the
interruptor that holds more than they ask for. -/
theorem loads_extended_iff {m : Memory} {machine : Machine B S} (hm : Holds m machine.bus.cache)
    (hx0 : machine.cpu.reg 0 = 0) {insn : Insn} (hopcode : Insn.opcode insn = 0x03) :
    (∀ after, (execute insn).run machine = .ok () after →
        ExtendsTo insn (after.cpu.reg (Insn.rd insn))) ↔
      (Insn.rd insn ≠ 0 → zeroExtends insn → ¬ ReadsWideRegister insn machine) := by
  constructor
  · intro hextends hrd hzero hwide
    obtain ⟨size, extended, v, after, hload, hrun, hle, hreg⟩ := load_wide hm hopcode hrd hwide
    have hvalue := hextends after hrun
    rw [hreg, extendsTo_iff hload] at hvalue
    exact hvalue ⟨hzero, hle⟩
  · intro hnarrow after hrun
    rw [execute_load hopcode] at hrun
    cases hload : Rv64i.loadOf insn with
    | none =>
        have hillegal : Exec.wp (Rv64i.load insn >>= fun _ => (pure () : MachineM B S PUnit))
            (fun _ _ => False) (fun _ _ => True) True machine := by
          rw [Exec.wp_bind, Rv64i.load, Exec.wp_bind, Exec.wp_read, hload]
          trivial
        exact (hillegal.of_run_ok hrun).elim
    | some width =>
        obtain ⟨size, extended⟩ := width
        have hresult : Exec.wp (Rv64i.load insn >>= fun _ => (pure () : MachineM B S PUnit))
            (fun _ after => ExtendsTo insn (after.cpu.reg (Insn.rd insn))) (fun _ _ => True) True
            machine := by
          rw [Exec.wp_bind]
          apply (load_result hm hload).imp
          · rintro _ after ⟨v, hwide, hreg⟩
            rw [Exec.wp_pure, hreg]
            by_cases hrd : Insn.rd insn = 0
            · rw [if_pos hrd, hrd, hx0]
              exact extendsTo_zero insn
            · rw [if_neg hrd, extendsTo_iff hload]
              exact fun hboth => hnarrow hrd hboth.1 (hwide hboth.2)
          · exact fun _ _ _ => trivial
          · exact fun hpanics => hpanics
        exact hresult.of_run_ok hrun

/-! `x1` points to `mtime`, which stands at `0x1234`. -/

def atMtime : Machine FakeBacking (List Byte) :=
  let m := overPages (fun _ _ => 0) ((Cpu.new 0x80000000).setReg 1 0x0200BFF8)
  { m with bus := { m.bus with clint := { m.bus.clint with mtime := 0x1234 } } }

/-- `lbu x3, 0(x1)` leaves all of it in `x3`. -/
theorem loads_not_extended_mtime :
    ¬ ∀ (m : Memory) (machine : Machine FakeBacking (List Byte)), Holds m machine.bus.cache →
      machine.cpu.reg 0 = 0 → ∀ insn, Insn.opcode insn = 0x03 →
        ∀ after, (execute insn).run machine = .ok () after →
          ExtendsTo insn (after.cpu.reg (Insn.rd insn)) := by
  intro hclaim
  have hvalue : ((execute 0x0000C183).run atMtime).reply.map (fun reply =>
      (reply.1.isOk, reply.2.cpu.reg 3)) = some (true, 0x1234) := by
    decide +kernel
  have hextends := hclaim _ atMtime (Sv39.holds_busOver _) (by decide) 0x0000C183 (by decide)
  cases hrun : (execute 0x0000C183).run atMtime with
  | ok value after =>
      rw [hrun] at hvalue
      have hreg : after.cpu.reg 3 = 0x1234 := (Prod.ext_iff.mp (Option.some.inj hvalue)).2
      have hbyte := hextends after hrun
      have hrd : Insn.rd 0x0000C183 = 3 := by decide
      rw [hrd, hreg] at hbyte
      exact absurd (show (0x1234 : BitVec 64).toNat < 2 ^ 8 from hbyte) (by decide)
  | error err after =>
      rw [hrun] at hvalue
      exact absurd (Prod.ext_iff.mp (Option.some.inj hvalue)).1 Bool.false_ne_true
  | panic => rw [hrun] at hvalue; cases hvalue

/-- `ld x3, 0(x1)` takes the register whole, as it should. -/
theorem loads_extended_iff_mtime :
    (∀ after, (execute 0x0000B183).run atMtime = .ok () after →
        ExtendsTo 0x0000B183 (after.cpu.reg (Insn.rd 0x0000B183))) ↔
      (Insn.rd 0x0000B183 ≠ 0 → zeroExtends 0x0000B183 →
        ¬ ReadsWideRegister 0x0000B183 atMtime) :=
  loads_extended_iff (Sv39.holds_busOver _) (by decide) (by decide)

end Machine

end Baonix.Core

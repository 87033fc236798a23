import Baonix.Core.Framed
import Baonix.Core.IntegerLaws

/-!
# The register instructions one by one

What `execute` does with each opcode that neither accesses memory nor belongs to SYSTEM,
as an outcome, and how a step comes to it.
-/

namespace Baonix.Core

namespace Machine

variable {B S : Type}

/-- The end of an instruction that computes a value. -/
def computed (insn : Insn) (m : Machine B S) :
    Option (BitVec 64) → Outcome Exception (Machine B S) PUnit
  | none => .error (.illegalInstruction (insn.setWidth 64)) m
  | some v => .ok ⟨⟩ { m with cpu := m.cpu.setReg (Insn.rd insn) v }

/-- What follows the decoder that comes last. -/
def orIllegal (insn : Insn) (program : MachineM B S Bool) : MachineM B S PUnit := do
  if ← program then pure ()
  else Exec.raise (.illegalInstruction (insn.setWidth 64))

theorem orIllegal_retire (insn : Insn) (value : Option (BitVec 64)) (m : Machine B S) :
    (orIllegal insn (Rv64i.retire insn value)).run m = computed insn m value := by
  cases value <;> rfl

/-- The end of a branch. -/
def branched (insn : Insn) (m : Machine B S) (target : BitVec 64) :
    Option Bool → Outcome Exception (Machine B S) PUnit
  | none => .error (.illegalInstruction (insn.setWidth 64)) m
  | some true => .ok ⟨⟩ { m with cpu := m.cpu.jump target }
  | some false => .ok ⟨⟩ m

/-- The end of a jump, which leaves the address of the next instruction. -/
def linked (insn : Insn) (m : Machine B S) (target : BitVec 64) :
    Outcome Exception (Machine B S) PUnit :=
  .ok ⟨⟩ { m with
    cpu := (m.cpu.jump target).setReg (Insn.rd insn) (m.cpu.pc + m.cpu.insnLen) }

variable [MemBacking B] [ConsoleSink S] {insn : Insn} {code : BitVec 32}

/-- The decoders that come first decline, and the base decoder sends the word to the
register instructions. -/
theorem execute_register (hopcode : Insn.opcode insn = code)
    (hcode : code ∉ [(0x03 : BitVec 32), 0x23, 0x2F, 0x73])
    (hmul : code ∉ [(0x33 : BitVec 32), 0x3B] ∨ Insn.funct7 insn ≠ 0x01) (m : Machine B S) :
    (execute insn).run m = (orIllegal insn (Rv64i.executeRegister insn)).run m := by
  subst hopcode
  simp only [List.mem_cons, List.not_mem_nil, or_false, not_or] at hcode hmul
  obtain ⟨hload, hstore, hatomic, hsystem⟩ := hcode
  have hrv64m : (Rv64m.execute insn : MachineM B S Bool) = pure false := by
    rcases hmul with ⟨hop, hop32⟩ | hfunct7
    · exact rv64m_declines hop hop32
    · rw [Rv64m.execute, if_pos hfunct7]
  rw [execute, handled, hrv64m, Rv64a.execute, if_pos hatomic, Rv64i.execute, if_neg hload,
    if_neg hstore, if_neg hsystem]
  rfl

section

variable (m : Machine B S)

theorem execute_lui (hopcode : Insn.opcode insn = 0x37) :
    (execute insn).run m = computed insn m (some (Insn.immU insn)) := by
  rw [execute_register hopcode (by decide) (.inl (by decide)), orIllegal, Exec.run_bind,
    Rv64i.executeRegister, Exec.run_read_bind, hopcode]
  rfl

theorem execute_auipc (hopcode : Insn.opcode insn = 0x17) :
    (execute insn).run m = computed insn m (some (m.cpu.pc + Insn.immU insn)) := by
  rw [execute_register hopcode (by decide) (.inl (by decide)), orIllegal, Exec.run_bind,
    Rv64i.executeRegister, Exec.run_read_bind, hopcode]
  rfl

theorem execute_opImm (hopcode : Insn.opcode insn = 0x13) :
    (execute insn).run m = computed insn m (Rv64i.opImm insn (m.cpu.reg (Insn.rs1 insn))) := by
  rw [execute_register hopcode (by decide) (.inl (by decide)), orIllegal, Exec.run_bind,
    Rv64i.executeRegister, Exec.run_read_bind, hopcode]
  exact orIllegal_retire insn (Rv64i.opImm insn (m.cpu.reg (Insn.rs1 insn))) m

theorem execute_opImm32 (hopcode : Insn.opcode insn = 0x1B) :
    (execute insn).run m = computed insn m
      ((Rv64i.opImm32 insn ((m.cpu.reg (Insn.rs1 insn)).setWidth 32)).map Insn.extend) := by
  rw [execute_register hopcode (by decide) (.inl (by decide)), orIllegal, Exec.run_bind,
    Rv64i.executeRegister, Exec.run_read_bind, hopcode]
  exact orIllegal_retire insn
    ((Rv64i.opImm32 insn ((m.cpu.reg (Insn.rs1 insn)).setWidth 32)).map Insn.extend) m

theorem execute_op (hopcode : Insn.opcode insn = 0x33) (hfunct7 : Insn.funct7 insn ≠ 0x01) :
    (execute insn).run m = computed insn m
      (Rv64i.op insn (m.cpu.reg (Insn.rs1 insn)) (m.cpu.reg (Insn.rs2 insn))) := by
  rw [execute_register hopcode (by decide) (.inr hfunct7), orIllegal, Exec.run_bind,
    Rv64i.executeRegister, Exec.run_read_bind, hopcode]
  exact orIllegal_retire insn
    (Rv64i.op insn (m.cpu.reg (Insn.rs1 insn)) (m.cpu.reg (Insn.rs2 insn))) m

theorem execute_op32 (hopcode : Insn.opcode insn = 0x3B) (hfunct7 : Insn.funct7 insn ≠ 0x01) :
    (execute insn).run m = computed insn m
      ((Rv64i.op32 insn ((m.cpu.reg (Insn.rs1 insn)).setWidth 32)
        ((m.cpu.reg (Insn.rs2 insn)).setWidth 32)).map Insn.extend) := by
  rw [execute_register hopcode (by decide) (.inr hfunct7), orIllegal, Exec.run_bind,
    Rv64i.executeRegister, Exec.run_read_bind, hopcode]
  exact orIllegal_retire insn ((Rv64i.op32 insn ((m.cpu.reg (Insn.rs1 insn)).setWidth 32)
    ((m.cpu.reg (Insn.rs2 insn)).setWidth 32)).map Insn.extend) m

/-- A word of the multiplication extension. -/
theorem execute_mul (hhandles : Rv64m.handles insn) :
    (execute insn).run m = computed insn m
      (Rv64m.result (Insn.opcode insn) (Insn.funct3 insn) (m.cpu.reg (Insn.rs1 insn))
        (m.cpu.reg (Insn.rs2 insn))) := by
  rw [execute, handled, Exec.run_bind, Exec.run_bind, Rv64m.execute_eq, if_pos hhandles]
  cases Rv64m.result (Insn.opcode insn) (Insn.funct3 insn) (m.cpu.reg (Insn.rs1 insn))
    (m.cpu.reg (Insn.rs2 insn)) <;> rfl

theorem execute_branch (hopcode : Insn.opcode insn = 0x63) :
    (execute insn).run m = branched insn m (m.cpu.pc + Insn.immB insn)
      (Rv64i.taken insn (m.cpu.reg (Insn.rs1 insn)) (m.cpu.reg (Insn.rs2 insn))) := by
  rw [execute_register hopcode (by decide) (.inl (by decide)), orIllegal, Exec.run_bind,
    Rv64i.executeRegister, Exec.run_read_bind, hopcode]
  dsimp only [BitVec.reduceToNat]
  cases Rv64i.taken insn (m.cpu.reg (Insn.rs1 insn)) (m.cpu.reg (Insn.rs2 insn)) with
  | none => rfl
  | some taken => cases taken <;> rfl

theorem execute_jal (hopcode : Insn.opcode insn = 0x6F) :
    (execute insn).run m = linked insn m (m.cpu.pc + Insn.immJ insn) := by
  rw [execute_register hopcode (by decide) (.inl (by decide)), orIllegal, Exec.run_bind,
    Rv64i.executeRegister, Exec.run_read_bind, hopcode]
  rfl

theorem execute_jalr (hopcode : Insn.opcode insn = 0x67) :
    (execute insn).run m =
      linked insn m ((m.cpu.reg (Insn.rs1 insn) + Insn.immI insn) &&& ~~~1) := by
  rw [execute_register hopcode (by decide) (.inl (by decide)), orIllegal, Exec.run_bind,
    Rv64i.executeRegister, Exec.run_read_bind, hopcode]
  rfl

theorem execute_fence (hopcode : Insn.opcode insn = 0x0F) :
    (execute insn).run m =
      if (Insn.funct3 insn).toNat ≤ 1 then .ok ⟨⟩ m
      else .error (.illegalInstruction (insn.setWidth 64)) m := by
  rw [execute_register hopcode (by decide) (.inl (by decide)), orIllegal, Exec.run_bind,
    Rv64i.executeRegister, Exec.run_read_bind, hopcode]
  obtain hzero | hone | ⟨k, hk⟩ : (Insn.funct3 insn).toNat = 0 ∨ (Insn.funct3 insn).toNat = 1 ∨
      ∃ k, (Insn.funct3 insn).toNat = k + 2 := by
    by_cases hle : (Insn.funct3 insn).toNat ≤ 1
    · omega
    · exact .inr (.inr ⟨(Insn.funct3 insn).toNat - 2, by omega⟩)
  · rw [hzero]
    rfl
  · rw [hone]
    rfl
  · rw [hk, if_neg (by omega)]
    rfl

/-- No decoder takes the opcode. -/
theorem execute_unknown (hopcode : Insn.opcode insn ∉
      [(0x03 : BitVec 32), 0x0F, 0x13, 0x17, 0x1B, 0x23, 0x2F, 0x33, 0x37, 0x3B, 0x63, 0x67, 0x6F,
        0x73]) :
    (execute insn).run m = .error (.illegalInstruction (insn.setWidth 64)) m := by
  have hdeclines : (Rv64i.executeRegister insn).run m = .ok false m := by
    simp only [List.mem_cons, List.not_mem_nil, or_false, not_or, ← BitVec.toNat_inj,
      BitVec.reduceToNat] at hopcode
    rw [Rv64i.executeRegister, Exec.run_read_bind]
    dsimp only
    split <;> first | omega | rfl
  have hcodes : [(0x03 : BitVec 32), 0x23, 0x2F, 0x73] ⊆ [(0x03 : BitVec 32), 0x0F, 0x13, 0x17,
      0x1B, 0x23, 0x2F, 0x33, 0x37, 0x3B, 0x63, 0x67, 0x6F, 0x73] := by decide
  rw [execute_register rfl (mt (@hcodes _) hopcode) (.inl fun hmul => hopcode ?_), orIllegal,
    Exec.run_bind_ok hdeclines]
  · rfl
  · have hmuls : [(0x33 : BitVec 32), 0x3B] ⊆ [(0x03 : BitVec 32), 0x0F, 0x13, 0x17, 0x1B, 0x23,
        0x2F, 0x33, 0x37, 0x3B, 0x63, 0x67, 0x6F, 0x73] := by decide
    exact hmuls hmul

end

/-! ## Steps -/

/-- The state an instruction of so many bytes starts in. -/
def begun (len : BitVec 64) (fetched : Machine B S) : Machine B S :=
  { fetched with cpu := fetched.cpu.begin len }

/-- A step goes on with the instruction that was fetched. -/
theorem step_of_fetched {len : BitVec 64} {m fetched : Machine B S}
    (hfetch : fetchInsn.run m = .ok (insn, len) fetched) :
    step.run m = (execute insn >>= fun _ => onCpu (·.retire len)).run (begun len fetched) := by
  rw [step, Exec.run_bind_ok hfetch]
  rfl

omit [ConsoleSink S] in
/-- What a fetch delivers, of the outcome as a whole. -/
theorem exists_fetched {m : Machine B S} {fields : Insn × BitVec 64}
    (hreply : ((fetchInsn.run m).reply.map fun reply => reply.1.toOption) = some (some fields)) :
    ∃ fetched, fetchInsn.run m = .ok fields fetched := by
  cases hrun : fetchInsn.run m with
  | ok got fetched =>
      rw [hrun] at hreply
      have hgot : got = fields := Option.some.inj (Option.some.inj hreply)
      exact ⟨fetched, by rw [hgot]⟩
  | error err after => rw [hrun] at hreply; cases hreply
  | panic => rw [hrun] at hreply; cases hreply

end Machine

end Baonix.Core

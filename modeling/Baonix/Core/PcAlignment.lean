import Baonix.Core.Runs

/-!
# Where instructions start

Branches, jumps and trap vectors all give an even `pc`.  SRET and MRET do not:
they take `pc` from `sepc` and `mepc`, which the guest may write to any value.
-/

namespace Baonix.Core

open Exec (Keeps Preserving)

namespace Csrs

/-- What `write` makes of the trap vectors. -/
structure Clamped (c : Csrs) : Prop where
  stvec : halfwordAligned (c.regs Csr.stvec)
  mtvec : halfwordAligned (c.regs Csr.mtvec)

theorem halfwordAligned_write (c : Csrs) (addr : Csr.Addr) (v : BitVec 64) {vector : Csr.Addr}
    (hvector : vector = Csr.mtvec ∨ vector = Csr.stvec)
    (haligned : halfwordAligned (c.regs vector)) :
    halfwordAligned ((c.write addr v).regs vector) := by
  by_cases haddr : addr = vector
  · have hclamp : c.write vector v = c.set vector (v &&& ~~~3) := by
      rcases hvector with rfl | rfl <;> rfl
    rw [haddr, hclamp, set_regs_self, halfwordAligned_iff]
    simp
  · have htarget : vector ≠ target addr := by
      rw [target]
      split_ifs
      · rcases hvector with rfl | rfl <;> decide
      · rcases hvector with rfl | rfl <;> decide
      · rcases hvector with rfl | rfl <;> decide
      · exact Ne.symm haddr
    rw [write_regs_of_ne c v htarget]
    exact haligned

theorem Clamped.write {c : Csrs} (hclamped : c.Clamped) (addr : Csr.Addr) (v : BitVec 64) :
    (c.write addr v).Clamped where
  stvec := halfwordAligned_write c addr v (.inr rfl) hclamped.stvec
  mtvec := halfwordAligned_write c addr v (.inl rfl) hclamped.mtvec

/-- The registers the program can build: their file is private to `Csrs`. -/
inductive Built : Csrs → Prop
  | default : Built .default
  | write (addr : Csr.Addr) (v : BitVec 64) {c : Csrs} (hc : Built c) : Built (c.write addr v)

theorem Built.clamped {c : Csrs} (hc : Built c) : c.Clamped := by
  induction hc with
  | default => exact ⟨by decide, by decide⟩
  | write addr v _ ih => exact ih.write addr v

end Csrs

namespace Cpu

/-- Between two steps. -/
structure Aligned (cpu : Cpu) : Prop where
  pc : halfwordAligned cpu.pc
  csrs : cpu.csrs.Clamped

/-- While an instruction executes. -/
structure Steady (cpu : Cpu) : Prop extends cpu.Aligned where
  insnLen : halfwordAligned cpu.insnLen
  nextPc : ∀ target ∈ cpu.nextPc, halfwordAligned target

/-- Where SRET or MRET would go on. -/
def returnTarget (cpu : Cpu) (insn : Insn) : Option (BitVec 64) :=
  if Insn.opcode insn = 0x73 ∧ Insn.funct3 insn = 0 then
    if insn >>> 20 = 0x302 ∧ cpu.priv = .m then some (cpu.csrs.read Csr.mepc)
    else if insn >>> 20 = 0x102 ∧ cpu.priv ≠ .u then some (cpu.csrs.read Csr.sepc)
    else none
  else none

theorem Aligned.enterTrap {cpu : Cpu} (hcpu : cpu.Aligned) (cause tval : BitVec 64)
    (toS : Bool) : (cpu.enterTrap cause tval toS).Aligned := by
  have hcsrs (epc causeReg tvalReg : Csr.Addr) (status : BitVec 64) :
      ((((cpu.csrs.write epc cpu.pc).write causeReg cause).write tvalReg tval).write
        Csr.mstatus status).Clamped :=
    (((hcpu.csrs.write _ _).write _ _).write _ _).write _ _
  cases toS with
  | true =>
      have hcsrs' : (cpu.enterTrap cause tval true).csrs.Clamped :=
        hcsrs Csr.sepc Csr.scause Csr.stval _
      exact ⟨hcsrs'.stvec, hcsrs'⟩
  | false =>
      have hcsrs' : (cpu.enterTrap cause tval false).csrs.Clamped :=
        hcsrs Csr.mepc Csr.mcause Csr.mtval _
      exact ⟨hcsrs'.mtvec, hcsrs'⟩

theorem Aligned.checkInterrupts {cpu : Cpu} (hcpu : cpu.Aligned) (pending : Bool) :
    (cpu.checkInterrupts pending).Aligned := by
  have hcpu' (mip : BitVec 64) :
      ({ cpu with csrs := cpu.csrs.write Csr.mip mip } : Cpu).Aligned :=
    ⟨hcpu.pc, hcpu.csrs.write Csr.mip mip⟩
  rw [Cpu.checkInterrupts]
  dsimp only
  split_ifs
  · exact (hcpu' _).enterTrap _ _ _
  · exact (hcpu' _).enterTrap _ _ _
  · exact hcpu' _

theorem Steady.sret {cpu : Cpu} (hcpu : cpu.Steady)
    (htarget : halfwordAligned (cpu.csrs.read Csr.sepc)) : cpu.sret.Steady where
  pc := hcpu.pc
  csrs := by
    simp only [Cpu.sret, Cpu.jump]
    exact hcpu.csrs.write _ _
  insnLen := hcpu.insnLen
  nextPc := by
    intro target heq
    cases heq
    exact htarget

theorem Steady.mret {cpu : Cpu} (hcpu : cpu.Steady)
    (htarget : halfwordAligned (cpu.csrs.read Csr.mepc)) : cpu.mret.Steady where
  pc := hcpu.pc
  csrs := by
    simp only [Cpu.mret, Cpu.jump]
    exact hcpu.csrs.write _ _
  insnLen := hcpu.insnLen
  nextPc := by
    intro target heq
    cases heq
    exact htarget

end Cpu

namespace Machine

variable {B S : Type} [MemBacking B] [ConsoleSink S]

theorem steady_framed :
    Framed (Preserving fun m : Machine B S => m.cpu.Steady) where
  setReg m i v hm := by
    rw [Cpu.setReg]
    split
    · exact ⟨⟨hm.pc, hm.csrs⟩, hm.insnLen, hm.nextPc⟩
    · exact hm
  jump m target htarget hm := by
    refine ⟨⟨hm.pc, hm.csrs⟩, hm.insnLen, ?_⟩
    intro _ heq
    cases heq
    exact htarget hm.pc
  reserve _ _ hm := ⟨⟨hm.pc, hm.csrs⟩, hm.insnLen, hm.nextPc⟩
  translate := translate_keeps (fun _ _ hm => hm)
    (fun _ _ hm => ⟨⟨hm.pc, hm.csrs⟩, hm.insnLen, hm.nextPc⟩)
  busLoad := busLoad_keeps (fun _ _ _ _ hm => hm) (fun _ _ hm => hm)
  busStore := busStore_keeps (fun _ _ _ _ hm => hm) (fun _ _ hm => hm)

theorem csrAccess_steady (insn : Insn) :
    Keeps (Preserving fun m : Machine B S => m.cpu.Steady) (Rv64i.csrAccess insn) := by
  have hwrite (addr : Csr.Addr) (new : BitVec 64) :
      Keeps (Preserving fun m : Machine B S => m.cpu.Steady) (Rv64i.writeCsr addr new) := by
    apply Keeps.bind
    · exact .update fun m hm => ⟨⟨hm.pc, hm.csrs.write _ _⟩, hm.insnLen, hm.nextPc⟩
    · intro _
      exact .ite (.update fun m hm => ⟨⟨hm.pc, hm.csrs⟩, hm.insnLen, hm.nextPc⟩) (.pure _)
  apply Keeps.bind .read
  intro m
  apply Keeps.ite (.raise _)
  apply Keeps.ite (.raise _)
  dsimp only
  split
  · exact Keeps.raise _
  · exact .bind (.ite (hwrite _ _) (.pure _)) fun _ =>
      .bind (steady_framed.setReg_keeps _ _) fun _ => .pure _

omit [MemBacking B] [ConsoleSink S] in
theorem privileged_steady {insn : Insn} {m : Machine B S} (hm : m.cpu.Steady)
    (hopcode : Insn.opcode insn = 0x73) (hfunct3 : Insn.funct3 insn = 0)
    (htarget : ∀ target ∈ m.cpu.returnTarget insn, halfwordAligned target) :
    Exec.wp (Rv64i.privileged insn) (fun _ after => after.cpu.Steady)
      (fun _ after => after.cpu.Steady) True m := by
  rw [Cpu.returnTarget, if_pos ⟨hopcode, hfunct3⟩] at htarget
  rw [Rv64i.privileged, Exec.wp_bind, Exec.wp_read]
  dsimp only
  split_ifs with _ _ hmret hsret _ hfence
  · exact hm
  · exact hm
  · rw [if_pos hmret] at htarget
    exact hm.mret (htarget _ rfl)
  · rw [if_neg hmret, if_pos hsret] at htarget
    exact hm.sret (htarget _ rfl)
  · exact hm
  · exact ⟨⟨hm.pc, hm.csrs⟩, hm.insnLen, hm.nextPc⟩
  · exact hm

theorem execute_steady {insn : Insn} {m : Machine B S} (hm : m.cpu.Steady)
    (htarget : ∀ target ∈ m.cpu.returnTarget insn, halfwordAligned target) :
    Exec.wp (execute insn) (fun _ after => after.cpu.Steady)
      (fun _ after => after.cpu.Steady) True m := by
  by_cases hreturn : Insn.opcode insn = 0x73 ∧ Insn.funct3 insn = 0
  · have hprivileged := privileged_steady hm hreturn.1 hreturn.2 htarget
    rw [execute, handled_system hreturn.1, if_pos hreturn.2, Exec.wp_bind]
    apply hprivileged.imp_post
    intro handled after hafter
    cases handled <;> exact hafter
  · have hkeeps := steady_framed.execute_keeps insn
      (fun hopcode hfunct3 => absurd ⟨hopcode, hfunct3⟩ hreturn)
      (fun _ _ => csrAccess_steady (B := B) (S := S) insn)
    exact (hkeeps m).imp (fun _ _ hafter => hafter hm) (fun _ _ hafter => hafter hm)
      (fun hpanics => hpanics)

omit [ConsoleSink S] in
/-- An instruction is one or two halfwords long, and a failed fetch is no call. -/
theorem fetchInsn_length (m : Machine B S) :
    Exec.wp fetchInsn (fun fetched _ => halfwordAligned fetched.2)
      (fun err _ => err ≠ .environmentCallFromSMode) True m := by
  have hfetch (size : ℕ) (state : Machine B S) : Exec.wp (fetch size) (fun _ _ => True)
      (fun err _ => err ≠ .environmentCallFromSMode) True state := by
    rw [fetch, Exec.wp_bind, Exec.wp_read, Exec.wp_zoom, Exec.wp]
    split
    · trivial
    · next err _ _ => cases err <;> exact fun heq => nomatch heq
    · trivial
  rw [fetchInsn, Exec.wp_bind]
  apply (hfetch 2 m).imp _ (fun _ _ herr => herr) (fun _ => trivial)
  intro half middle _
  rw [decode, Exec.wp_ite]
  split
  · rw [Exec.wp_bind]
    exact (hfetch 4 middle).imp (fun _ _ _ => show halfwordAligned 4 by decide)
      (fun _ _ herr => herr) (fun _ => trivial)
  · split
    · exact fun heq => nomatch heq
    · exact show halfwordAligned 2 by decide

/-- The instruction at `pc` is no SRET or MRET to an odd address. -/
def ReturnsAligned (m : Machine B S) : Prop :=
  ∀ insn len after, fetchInsn.run m = .ok (insn, len) after →
    ∀ target ∈ m.cpu.returnTarget insn, halfwordAligned target

theorem executeFetched_aligned {insn : Insn} {len : BitVec 64} {m : Machine B S}
    (hm : m.cpu.Aligned) (hlen : halfwordAligned len)
    (htarget : ∀ target ∈ m.cpu.returnTarget insn, halfwordAligned target) :
    Exec.wp (executeFetched insn len) (fun _ after => after.cpu.Aligned)
      (fun _ after => after.cpu.Steady) True m := by
  rw [executeFetched, Exec.wp_bind, onCpu, Exec.wp_update, Exec.wp_bind]
  have hbegun : (m.cpu.begin len).Steady :=
    ⟨⟨hm.pc, hm.csrs⟩, hlen, fun _ heq => by cases heq⟩
  apply Exec.wp.imp_post (execute_steady (m := { m with cpu := m.cpu.begin len }) hbegun htarget)
  intro _ after hafter
  rw [onCpu, Exec.wp_update]
  refine ⟨?_, hafter.csrs⟩
  change halfwordAligned (after.cpu.nextPc.getD (after.cpu.pc + len))
  cases hnext : after.cpu.nextPc with
  | none => exact halfwordAligned_add hafter.pc hlen
  | some target => exact hafter.nextPc target hnext

omit [MemBacking B] in
theorem handle_aligned {m : Machine B S} (hm : m.cpu.Aligned)
    (hlen : halfwordAligned m.cpu.insnLen) :
    (Sbi.handle m).2.cpu.Aligned ∧ halfwordAligned (Sbi.handle m).2.cpu.insnLen := by
  have hkept : Preserving (fun m : Machine B S => m.cpu.Aligned ∧ halfwordAligned m.cpu.insnLen) m
      (Sbi.handle m).2 := by
    apply handle_keeps
    · intro m i v hm
      rw [Cpu.setReg]
      split
      · exact ⟨⟨hm.1.pc, hm.1.csrs⟩, hm.2⟩
      · exact hm
    · exact fun m deadline hm => ⟨⟨hm.1.pc, hm.1.csrs.write Csr.mip _⟩, hm.2⟩
    · exact fun m byte hm => hm
  exact hkept ⟨hm, hlen⟩

omit [MemBacking B] in
theorem deliver_aligned {result : Except Exception PUnit} {m : Machine B S}
    (hm : m.cpu.Aligned)
    (hlen : result = .error .environmentCallFromSMode → halfwordAligned m.cpu.insnLen) :
    Exec.wp (deliver result) (fun _ after => after.cpu.Aligned)
      (fun _ after => after.cpu.Aligned) True m := by
  unfold deliver
  split
  · exact hm
  · rw [Exec.wp_bind, Exec.wp_call, Exec.wp_bind, Exec.wp_update, Exec.wp_pure]
    obtain ⟨hafter, hafterLen⟩ := handle_aligned hm (hlen rfl)
    exact ⟨halfwordAligned_add hafter.pc hafterLen, hafter.csrs⟩
  · exact hm
  · exact hm.enterTrap _ _ _

theorem stepTrapping_aligned {m : Machine B S} (hm : m.cpu.Aligned) (hreturns : ReturnsAligned m) :
    Exec.wp stepTrapping (fun _ after => after.cpu.Aligned) (fun _ after => after.cpu.Aligned)
      True m := by
  have hstep : Exec.wp step (fun _ after => after.cpu.Aligned)
      (fun err after => after.cpu.Aligned ∧
        (err = .environmentCallFromSMode → halfwordAligned after.cpu.insnLen)) True m := by
    have hfetch := ((sameControl_framed.reads .fetch).fetchInsn_keeps m).and (fetchInsn_length m)
    rw [step, Exec.wp_bind]
    unfold Exec.wp at hfetch ⊢
    cases hrun : fetchInsn m with
    | ok fetched middle =>
        rw [hrun] at hfetch
        obtain ⟨hsame, hlen⟩ := hfetch
        have hmiddle : middle.cpu.Aligned :=
          ⟨by rw [hsame.pc]; exact hm.pc, by rw [hsame.csrs]; exact hm.csrs⟩
        have htarget : middle.cpu.returnTarget fetched.1 = m.cpu.returnTarget fetched.1 := by
          rw [Cpu.returnTarget, Cpu.returnTarget, hsame.csrs, hsame.priv]
        exact (executeFetched_aligned hmiddle hlen
          (htarget ▸ hreturns fetched.1 fetched.2 middle hrun)).imp (fun _ _ hafter => hafter)
          (fun _ _ hafter => ⟨hafter.toAligned, fun _ => hafter.insnLen⟩) (fun hpanics => hpanics)
    | error err middle =>
        rw [hrun] at hfetch
        obtain ⟨hsame, herr⟩ := hfetch
        exact ⟨⟨by rw [hsame.pc]; exact hm.pc, by rw [hsame.csrs]; exact hm.csrs⟩,
          fun heq => absurd heq herr⟩
    | panic => trivial
  rw [stepTrapping, Exec.wp_bind, Exec.wp_attempt]
  apply hstep.imp
  · intro _ after hafter
    refine deliver_aligned hafter ?_
    intro heq
    cases heq
  · rintro err after ⟨hafter, hlen⟩
    exact deliver_aligned hafter fun heq => hlen (Except.error.inj heq)
  · exact fun hpanics => hpanics

theorem aligned_reached {m after : Machine B S} (hstart : m.cpu.Aligned)
    (hruns : Reaches ReturnsAligned m after) : after.cpu.Aligned :=
  hruns.invariant hstart (fun _ hm => hm.checkInterrupts _)
    (fun _ hm hreturns => stepTrapping_aligned hm hreturns) (fun _ _ hm => hm) (fun _ _ hm => hm)

/-- **`pc` stays even** along every run in which no SRET or MRET goes to an odd
address. -/
theorem pc_aligned {m after : Machine B S} (hpc : halfwordAligned m.cpu.pc)
    (hcsrs : m.cpu.csrs.Built) (hruns : Reaches ReturnsAligned m after) :
    halfwordAligned after.cpu.pc :=
  (aligned_reached ⟨hpc, hcsrs.clamped⟩ hruns).pc

/-! A supervisor that writes 1 to `sepc` and returns. -/

/-- `csrrwi x0, sepc, 1` and `sret`. -/
def returnToOdd : Machine FakeBacking (List LittleEndian.Byte) :=
  overPages (firstPage [0x102000731410D073]) { Cpu.new 0x80000000 with priv := .s }

/-- The processor goes on at address 1. -/
theorem pc_not_aligned :
    ¬ ∀ m after : Machine FakeBacking (List LittleEndian.Byte), halfwordAligned m.cpu.pc →
      m.cpu.csrs.Built → Reaches (fun _ => True) m after → halfwordAligned after.cpu.pc := by
  intro hclaim
  have hpc : ((returnToOdd.act .step).bind (·.act .step)).map (·.cpu.pc) = some 1 := by
    decide +kernel
  rw [Option.map_eq_some_iff] at hpc
  obtain ⟨after, hafter, hodd⟩ := hpc
  rw [Option.bind_eq_some_iff] at hafter
  obtain ⟨middle, hfirst, hsecond⟩ := hafter
  have hruns : Reaches (fun _ => True) returnToOdd after :=
    (Relation.ReflTransGen.single ⟨.step, fun _ => trivial, hfirst⟩).tail
      ⟨.step, fun _ => trivial, hsecond⟩
  have haligned := hclaim returnToOdd after (by decide) .default hruns
  rw [hodd] at haligned
  exact absurd haligned (by decide)

/-- The first instruction of that program is no return. -/
theorem pc_aligned_csrWrite :
    ∃ after, returnToOdd.act .step = some after ∧ halfwordAligned after.cpu.pc := by
  have hstep : (returnToOdd.act .step).isSome = true := by decide +kernel
  obtain ⟨after, hafter⟩ := Option.isSome_iff_exists.mp hstep
  have hreturns : ReturnsAligned returnToOdd := by
    have hinsn : ((fetchInsn.run returnToOdd).reply.map fun reply =>
        reply.1.toOption.map Prod.fst) = some (some 0x1410D073) := by
      decide +kernel
    intro insn len middle hfetch target htarget
    rw [hfetch] at hinsn
    have heq : insn = 0x1410D073 := Option.some.inj (Option.some.inj hinsn)
    have hnone : returnToOdd.cpu.returnTarget 0x1410D073 = none := by decide
    rw [heq, hnone] at htarget
    cases htarget
  exact ⟨after, hafter, pc_aligned (m := returnToOdd) (by decide) .default
    (Relation.ReflTransGen.single ⟨.step, fun _ => hreturns, hafter⟩)⟩

end Machine

end Baonix.Core

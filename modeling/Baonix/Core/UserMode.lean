import Baonix.Core.Composition
import Baonix.Core.CsrFile
import Baonix.Core.Runs
import Baonix.Lib.Noninterference

/-!
# User mode

A program in U-mode can neither change the privilege level nor a register of a higher
level, nor drop a translation.  It cannot tell apart machines that differ in such
registers only, save the one that holds its page table.
-/

namespace Baonix.Core

open Exec (Keeps Respects)

namespace Csr

/-- U-mode may access the register. -/
def isUser (addr : Addr) : Prop := (addr >>> 8) &&& 3 = 0

instance (addr : Addr) : Decidable (isUser addr) := inferInstanceAs (Decidable (_ = _))

end Csr

namespace Csrs

open Csr

theorem not_isUser_of_isTrigger {addr : Addr} (htrigger : isTrigger addr) : ¬isUser addr := by
  obtain ⟨hlow, hhigh⟩ := htrigger
  simp only [tselect, tcontrol, BitVec.le_def] at hlow hhigh
  have hlevel : addr >>> 8 = 7 := by
    apply BitVec.eq_of_toNat_eq
    rw [BitVec.toNat_ushiftRight, Nat.shiftRight_eq_div_pow]
    change 0x7A0 ≤ addr.toNat at hlow
    change addr.toNat ≤ 0x7A5 at hhigh
    change _ = 7
    omega
  rw [isUser, hlevel]
  decide

/-- No register of U-mode has a rule of its own. -/
theorem isPlain_of_isUser {addr : Addr} (huser : isUser addr) : isPlain addr := by
  refine ⟨?_, fun htrigger => not_isUser_of_isTrigger htrigger huser⟩
  intro hruled
  simp only [List.mem_cons, List.not_mem_nil, or_false] at hruled
  rcases hruled with rfl | rfl | rfl | rfl | rfl | rfl | rfl | rfl <;>
    exact absurd huser (by decide)

theorem write_user (c : Csrs) {addr : Addr} (huser : isUser addr) (v : BitVec 64) :
    c.write addr v = c.set addr v :=
  c.write_plain v (isPlain_of_isUser huser)

theorem read_user (c : Csrs) {addr : Addr} (huser : isUser addr) : c.read addr = c.regs addr :=
  c.read_plain (isPlain_of_isUser huser)

/-- What a register of a higher level reads is decided by such registers. -/
theorem read_congr_above {c c' : Csrs} (habove : ∀ addr, ¬isUser addr → c.regs addr = c'.regs addr)
    {addr : Addr} (haddr : ¬isUser addr) : c.read addr = c'.read addr := by
  rw [read, read, habove mstatus (by decide), habove mie (by decide), habove mideleg (by decide),
    habove mip (by decide), habove addr haddr]

end Csrs

namespace Machine

variable {B S : Type}

/-! ## SYSTEM instructions in U-mode -/

/-- The instructions with `funct3` 0, as U-mode finds them. -/
def userPrivileged (insn : Insn) : MachineM B S Bool :=
  if insn >>> 20 = 0x000 then Exec.raise .environmentCallFromUMode
  else if insn >>> 20 = 0x001 then Exec.raise .breakpoint
  else if insn >>> 20 = 0x105 then pure true
  else Rv64i.illegal insn

/-- A write of a register of U-mode. -/
def userApplyCsr (insn : Insn) (new : BitVec 64) : MachineM B S PUnit :=
  if Rv64i.writesCsr insn then
    onCpu fun cpu => { cpu with csrs := cpu.csrs.set (Rv64i.csrAddr insn) new }
  else pure ()

/-- The CSR instructions, as U-mode finds them: no register but its own can be reached. -/
def userCsrAccess (insn : Insn) : MachineM B S Bool :=
  let addr := Rv64i.csrAddr insn
  if ¬Csr.isUser addr ∨ addr >>> 10 = 3 ∧ Rv64i.writesCsr insn then Rv64i.illegal insn
  else do
    let m ← Exec.read
    let old := Rv64i.oldCsr m addr
    let src :=
      if Insn.funct3 insn &&& 0x4 ≠ 0 then (Insn.rs1 insn).setWidth 64
      else m.cpu.reg (Insn.rs1 insn)
    match Rv64i.newCsr insn old src with
    | none => Rv64i.illegal insn
    | some new => do
        userApplyCsr insn new
        setReg (Insn.rd insn) old
        pure true

theorem privileged_user (insn : Insn) {m : Machine B S} (huser : m.cpu.priv = .u) :
    (Rv64i.privileged insn).run m = (userPrivileged insn).run m := by
  rw [Rv64i.privileged, Exec.run_read_bind, userPrivileged]
  simp only [huser, Rv64i.ecall, reduceCtorEq, and_false, ne_eq, not_true, if_false]

theorem applyCsr_user {insn : Insn} (haddr : Csr.isUser (Rv64i.csrAddr insn)) (new : BitVec 64) :
    (Rv64i.applyCsr insn new : MachineM B S PUnit) = userApplyCsr insn new := by
  have hsatp : Rv64i.csrAddr insn ≠ Csr.satp := by
    intro heq
    rw [heq] at haddr
    exact absurd haddr (by decide)
  rw [Rv64i.applyCsr, Rv64i.writeCsr, if_neg hsatp]
  simp only [Csrs.write_user _ haddr]
  rfl

theorem csrAccess_user (insn : Insn) {m : Machine B S} (huser : m.cpu.priv = .u) :
    (Rv64i.csrAccess insn).run m = (userCsrAccess insn).run m := by
  have hlevel : ((Rv64i.csrAddr insn >>> 8) &&& 3).toNat > m.cpu.priv.toBits.toNat ↔
      ¬Csr.isUser (Rv64i.csrAddr insn) := by
    rw [huser, Csr.isUser, ← BitVec.toNat_inj]
    exact Nat.pos_iff_ne_zero
  rw [Rv64i.csrAccess, Exec.run_read_bind, userCsrAccess]
  simp only [hlevel]
  by_cases haddr : Csr.isUser (Rv64i.csrAddr insn)
  · by_cases hreadOnly : Rv64i.csrAddr insn >>> 10 = 3 ∧ Rv64i.writesCsr insn
    · rw [if_neg (not_not_intro haddr), if_pos hreadOnly, if_pos (.inr hreadOnly)]
    · rw [if_neg (not_not_intro haddr), if_neg hreadOnly,
        if_neg (not_or.mpr ⟨not_not_intro haddr, hreadOnly⟩), Exec.run_read_bind]
      cases Rv64i.newCsr insn _ _ with
      | none => rfl
      | some new => simp only [Rv64i.updateCsr, applyCsr_user haddr]
  · rw [if_pos haddr, if_pos (.inl haddr)]

/-! ## What a step leaves alone -/

/-- What happens in U-mode on the way from one state to another. -/
structure UserRun (start after : Machine B S) : Prop where
  priv : after.cpu.priv = .u
  csrs : ∀ addr, ¬Csr.isUser addr → after.cpu.csrs.regs addr = start.cpu.csrs.regs addr
  events : ∃ new, after.trace.events = new ++ start.trace.events ∧ .flushed ∉ new

/-- Started in U-mode, only what may happen there does. -/
def StaysUser (start after : Machine B S) : Prop := start.cpu.priv = .u → UserRun start after

theorem staysUser_of_eq {start after : Machine B S} (hpriv : after.cpu.priv = start.cpu.priv)
    (hcsrs : after.cpu.csrs = start.cpu.csrs) (hevents : after.trace.events = start.trace.events) :
    StaysUser start after :=
  fun huser => ⟨hpriv.trans huser, fun _ _ => by rw [hcsrs], [], hevents, List.not_mem_nil⟩

instance : IsPreorder (Machine B S) StaysUser where
  refl _ := staysUser_of_eq rfl rfl rfl
  trans := by
    intro start middle after hleft hright huser
    obtain ⟨hpriv, hcsrs, first, hfirst, hunflushed⟩ := hleft huser
    obtain ⟨hpriv', hcsrs', last, hlast, hunflushed'⟩ := hright hpriv
    refine ⟨hpriv', fun addr haddr => (hcsrs' addr haddr).trans (hcsrs addr haddr),
      last ++ first, by rw [hlast, hfirst, List.append_assoc], ?_⟩
    intro hmem
    rcases List.mem_append.mp hmem with hmem | hmem
    · exact hunflushed' hmem
    · exact hunflushed hmem

variable [MemBacking B]

theorem translate_staysUser (vaddr : BitVec 64) (access : Access) :
    Keeps StaysUser (translate vaddr access : MachineM B S (BitVec 64)) := by
  refine .bind .read fun m => .bind (.update fun start huser => ?_) fun _ =>
    .zoom fun _ _ => staysUser_of_eq rfl rfl rfl
  exact ⟨huser, fun _ _ => rfl, [_], rfl, by simp⟩

variable [ConsoleSink S]

theorem user_framed : Framed (@StaysUser B S) where
  setReg m i v := by
    unfold Cpu.setReg
    split <;> exact staysUser_of_eq rfl rfl rfl
  jump _ _ _ := staysUser_of_eq rfl rfl rfl
  reserve _ _ := staysUser_of_eq rfl rfl rfl
  translate := translate_staysUser
  busLoad := busLoad_keeps (fun _ _ _ _ => staysUser_of_eq rfl rfl rfl)
    (fun _ _ => staysUser_of_eq rfl rfl rfl)
  busStore := busStore_keeps (fun _ _ _ _ => staysUser_of_eq rfl rfl rfl)
    (fun _ _ => staysUser_of_eq rfl rfl rfl)

omit [MemBacking B] [ConsoleSink S] in
/-- What a computation does in U-mode is all that counts. -/
theorem keeps_of_user {Value : Type} {program inUser : MachineM B S Value}
    (hsame : ∀ m : Machine B S, m.cpu.priv = .u → program.run m = inUser.run m)
    (hkeeps : Keeps StaysUser inUser) : Keeps StaysUser program := by
  intro m
  by_cases huser : m.cpu.priv = .u
  · have hwp := hkeeps m
    rw [Exec.wp, show program m = inUser m from hsame m huser]
    exact hwp
  · exact (Exec.wp_any program m).imp (fun _ _ _ h => absurd h huser)
      (fun _ _ _ h => absurd h huser) fun _ => trivial

theorem execute_staysUser (insn : Insn) : Keeps StaysUser (execute insn : MachineM B S PUnit) := by
  apply user_framed.execute_keeps insn
  · intro _ _
    apply keeps_of_user fun m => privileged_user insn
    exact .ite (.raise _) (.ite (.raise _) (.ite (.pure _) (.raise _)))
  · intro _ _
    apply keeps_of_user fun m => csrAccess_user insn
    unfold userCsrAccess
    by_cases haddr : Csr.isUser (Rv64i.csrAddr insn)
    · have hset (new : BitVec 64) : Keeps StaysUser (onCpu fun cpu =>
          { cpu with csrs := cpu.csrs.set (Rv64i.csrAddr insn) new } : MachineM B S PUnit) := by
        refine .update fun m huser => ⟨huser, fun addr hother => ?_, [], rfl, List.not_mem_nil⟩
        exact Csrs.set_regs_of_ne _ _ fun heq => hother (heq ▸ haddr)
      apply Keeps.ite (.raise _)
      apply Keeps.bind .read
      intro m
      dsimp only
      split
      · exact .raise _
      · unfold userApplyCsr
        exact .bind (.ite (hset _) (.pure _)) fun _ =>
          .bind (user_framed.setReg_keeps _ _) fun _ => .pure _
    · rw [if_pos (.inl haddr)]
      exact .raise _

theorem step_staysUser : Keeps StaysUser (step : MachineM B S PUnit) := by
  have hcpu (change : Cpu → Cpu) (hpriv : ∀ cpu, (change cpu).priv = cpu.priv)
      (hcsrs : ∀ cpu, (change cpu).csrs = cpu.csrs) :
      Keeps StaysUser (onCpu change : MachineM B S PUnit) :=
    .update fun m => staysUser_of_eq (hpriv m.cpu) (hcsrs m.cpu) rfl
  refine .bind (user_framed.toAccesses.reads .fetch).fetchInsn_keeps fun fetched => ?_
  exact .bind (hcpu _ (fun _ => rfl) fun _ => rfl) fun _ =>
    .bind (execute_staysUser _) fun _ => hcpu _ (fun _ => rfl) fun _ => rfl

/-! ## What a step cannot see -/

end Machine

namespace Mmu

variable {B S : Type} [MemBacking B]

/-- Of the registers a translation reads `satp` only. -/
theorem translate_csrs_congr {csrs csrs' : Csrs} (hsatp : csrs'.regs Csr.satp = csrs.regs Csr.satp)
    (priv : Priv) (vaddr : BitVec 64) (access : Access) :
    (translate csrs' priv vaddr access : Exec Exception (MemSystem B S) (BitVec 64)) =
      translate csrs priv vaddr access := by
  have hread : csrs'.read Csr.satp = csrs.read Csr.satp := hsatp
  have hpaging : paging csrs' priv ↔ paging csrs priv := by
    rw [paging, paging, hread]
  unfold translate
  simp only [hpaging, hread]

end Mmu

namespace Machine

variable {B S : Type}

/-- Two machines in U-mode that differ only in registers of a higher level other than
`satp`, and in the trace. -/
def SameUser (m m' : Machine B S) : Prop :=
  m.cpu.priv = .u ∧ ∃ csrs trace, m' = ⟨{ m.cpu with csrs := csrs }, m.bus, trace⟩ ∧
    ∀ addr, Csr.isUser addr ∨ addr = Csr.satp → csrs.regs addr = m.cpu.csrs.regs addr

theorem onCpu_respects {change : Cpu → Cpu} (hplain : Cpu.Plain change) :
    Respects SameUser (onCpu change : MachineM B S PUnit) := by
  apply Respects.update
  rintro m _ ⟨huser, csrs, trace, rfl, hsame⟩
  refine ⟨(hplain.priv m.cpu).trans huser, csrs, trace, ?_, fun addr haddr => ?_⟩
  · exact congrArg (fun cpu => (⟨cpu, m.bus, trace⟩ : Machine B S)) (hplain.csrs m.cpu csrs)
  · rw [hplain.csrs_eq]
    exact hsame addr haddr

/-- The note is of no consequence. -/
theorem update_trace_respects (change : Machine B S → Trace B S) :
    Respects SameUser (Exec.update fun m => { m with trace := change m } : MachineM B S PUnit) := by
  apply Respects.update
  rintro m _ ⟨huser, csrs, trace, rfl, hsame⟩
  exact ⟨huser, csrs, _, rfl, hsame⟩

/-- What follows a read looks at what is the same. -/
theorem read_respects {Value : Type} {next : Machine B S → MachineM B S Value}
    (hnext : ∀ (m : Machine B S) csrs trace, m.cpu.priv = .u →
      (∀ addr, Csr.isUser addr ∨ addr = Csr.satp → csrs.regs addr = m.cpu.csrs.regs addr) →
      next m = next ⟨{ m.cpu with csrs := csrs }, m.bus, trace⟩)
    (hrespects : ∀ m, Respects SameUser (next m)) :
    Respects SameUser (Exec.read >>= next) := by
  apply Respects.read_bind
  rintro m _ ⟨huser, csrs, trace, rfl, hsame⟩
  exact ⟨hnext m csrs trace huser hsame, hrespects m⟩

/-- A computation on the bus. -/
theorem bus_respects {Value : Type} (program : Exec Exception (Bus B S) Value) :
    Respects SameUser (Exec.zoom (·.bus) (fun m bus => { m with bus := bus }) id program :
      MachineM B S Value) := by
  apply Respects.zoom (.of_eq program)
  · rintro m _ ⟨-, csrs, trace, rfl, -⟩
    rfl
  · rintro m _ bus _ ⟨huser, csrs, trace, rfl, hsame⟩ rfl
    exact ⟨huser, csrs, trace, rfl, hsame⟩

variable [MemBacking B]

theorem translate_respects (vaddr : BitVec 64) (access : Access) :
    Respects SameUser (translate vaddr access : MachineM B S (BitVec 64)) := by
  rintro m _ ⟨huser, csrs, trace, rfl, hsame⟩
  rw [translate, Exec.run_read_bind, Exec.run_read_bind]
  have hsatp := hsame Csr.satp (.inr rfl)
  simp only [Mmu.translate_csrs_congr hsatp]
  have hzoom : Respects SameUser (Exec.zoom system putSystem id
      (Mmu.translate m.cpu.csrs m.cpu.priv vaddr access) : MachineM B S (BitVec 64)) := by
    apply Respects.zoom (.of_eq _)
    · rintro m _ ⟨-, csrs, trace, rfl, -⟩
      rfl
    · rintro m _ system _ ⟨huser, csrs, trace, rfl, hsame⟩ rfl
      exact ⟨huser, csrs, trace, rfl, hsame⟩
  exact hzoom _ _ ⟨huser, csrs, _, rfl, hsame⟩

theorem fetch_respects (size : ℕ)
    (hread : ∀ vaddr, Respects SameUser (readTranslated vaddr size .fetch : MachineM B S _)) :
    Respects SameUser (fetch size : MachineM B S (BitVec 64)) := by
  refine read_respects (fun _ _ _ _ _ => rfl) fun m => ?_
  exact .zoom (hread _) (fun _ _ hm => hm) fun _ _ _ _ _ hafter => hafter

variable [ConsoleSink S]

theorem compositional_respects :
    Compositional fun Value (program : MachineM B S Value) => Respects SameUser program where
  pure value := .pure value
  bind hprogram hnext := .bind hprogram hnext
  illegal code := .raise _
  read hnext hrespects := by
    refine read_respects (fun m csrs trace _ _ => ?_) hrespects
    exact (hnext m ⟨{ m.cpu with csrs := csrs }, m.bus, trace⟩).symm
  onCpu := onCpu_respects
  translate := translate_respects
  busLoad _ _ _ := .bind (update_trace_respects _) fun _ => bus_respects _
  busStore _ _ _ := .bind (update_trace_respects _) fun _ => bus_respects _
  fetch := fetch_respects

omit [MemBacking B] [ConsoleSink S] in
/-- What a computation does in U-mode is all that counts. -/
theorem respects_of_user {Value : Type} {program inUser : MachineM B S Value}
    (hsame : ∀ m : Machine B S, m.cpu.priv = .u → program.run m = inUser.run m)
    (hrespects : Respects SameUser inUser) : Respects SameUser program := by
  rintro m m' hm
  have huser' : m'.cpu.priv = .u := by
    obtain ⟨huser, csrs, trace, rfl, -⟩ := hm
    exact huser
  rw [hsame m hm.1, hsame m' huser']
  exact hrespects m m' hm

omit [MemBacking B] [ConsoleSink S] in
/-- What U-mode may read is the same. -/
theorem oldCsr_congr {m : Machine B S} {csrs : Csrs} {trace : Trace B S}
    (hsame : ∀ addr, Csr.isUser addr ∨ addr = Csr.satp → csrs.regs addr = m.cpu.csrs.regs addr)
    {addr : Csr.Addr} (haddr : Csr.isUser addr) :
    Rv64i.oldCsr (⟨{ m.cpu with csrs := csrs }, m.bus, trace⟩ : Machine B S) addr =
      Rv64i.oldCsr m addr := by
  have hread : csrs.read addr = m.cpu.csrs.read addr := by
    rw [Csrs.read_user _ haddr, Csrs.read_user _ haddr]
    exact hsame addr (.inl haddr)
  unfold Rv64i.oldCsr
  rw [hread]

omit [MemBacking B] [ConsoleSink S] in
theorem setCsr_respects (addr : Csr.Addr) (new : BitVec 64) : Respects SameUser
    (onCpu fun cpu => { cpu with csrs := cpu.csrs.set addr new } : MachineM B S PUnit) := by
  apply Respects.update
  rintro m _ ⟨huser, csrs, trace, rfl, hsame⟩
  refine ⟨huser, csrs.set addr new, trace, rfl, fun other hother => ?_⟩
  by_cases heq : other = addr
  · rw [heq, Csrs.set_regs_self, Csrs.set_regs_self]
  · rw [Csrs.set_regs_of_ne _ _ heq, Csrs.set_regs_of_ne _ _ heq]
    exact hsame other hother

omit [MemBacking B] [ConsoleSink S] in
theorem system_respects (insn : Insn) :
    Respects SameUser (Rv64i.privileged insn : MachineM B S Bool) ∧
      Respects SameUser (Rv64i.csrAccess insn : MachineM B S Bool) := by
  constructor
  · apply respects_of_user fun m => privileged_user insn
    exact .ite (.raise _) (.ite (.raise _) (.ite (.pure _) (.raise _)))
  · apply respects_of_user fun m => csrAccess_user insn
    unfold userCsrAccess
    by_cases haddr : Csr.isUser (Rv64i.csrAddr insn)
    · apply Respects.ite (.raise _)
      refine read_respects (fun m csrs trace _ hsame => ?_) fun m => ?_
      · rw [oldCsr_congr hsame haddr]
        rfl
      · dsimp only
        split
        · exact .raise _
        · exact .bind (.ite (setCsr_respects _ _) (.pure _)) fun _ =>
            .bind (onCpu_respects (.setReg _ _)) fun _ => .pure _
    · rw [if_pos (.inl haddr)]
      exact .raise _

theorem step_respects : Respects SameUser (step : MachineM B S PUnit) :=
  compositional_respects.step (fun insn => (system_respects insn).1)
    fun insn => (system_respects insn).2

/-! ## What U-mode may not do -/

/-- The instruction is MRET, SRET or SFENCE.VMA, or reaches for a register of a higher
level, or writes a read-only one. -/
def Forbidden (insn : Insn) : Prop :=
  Insn.opcode insn = 0x73 ∧
    if Insn.funct3 insn = 0 then
      insn >>> 20 = 0x302 ∨ insn >>> 20 = 0x102 ∨ insn >>> 25 = 0x09
    else
      ¬Csr.isUser (Rv64i.csrAddr insn) ∨
        Rv64i.csrAddr insn >>> 10 = 3 ∧ Rv64i.writesCsr insn

omit [MemBacking B] [ConsoleSink S] in
/-- Such words are none of those U-mode may execute. -/
theorem userPrivileged_illegal {insn : Insn}
    (hforbidden : insn >>> 20 = 0x302 ∨ insn >>> 20 = 0x102 ∨ insn >>> 25 = 0x09) :
    (userPrivileged insn : MachineM B S Bool) = Rv64i.illegal insn := by
  have hother : insn >>> 20 ≠ 0x000 ∧ insn >>> 20 ≠ 0x001 ∧ insn >>> 20 ≠ 0x105 := by
    have hnat : (insn >>> 25).toNat = (insn >>> 20).toNat / 32 := by
      rw [BitVec.toNat_ushiftRight, BitVec.toNat_ushiftRight, Nat.shiftRight_eq_div_pow,
        Nat.shiftRight_eq_div_pow, Nat.div_div_eq_div_mul]
    rcases hforbidden with heq | heq | heq
    · rw [heq]
      decide
    · rw [heq]
      decide
    · rw [heq] at hnat
      refine ⟨?_, ?_, ?_⟩ <;> (intro heq'; rw [heq'] at hnat; exact absurd hnat (by decide))
  obtain ⟨hecall, hebreak, hwfi⟩ := hother
  rw [userPrivileged, if_neg hecall, if_neg hebreak, if_neg hwfi]

theorem execute_forbidden {insn : Insn} (hforbidden : Forbidden insn) {m : Machine B S}
    (huser : m.cpu.priv = .u) :
    (execute insn).run m = .error (.illegalInstruction (insn.setWidth 64)) m := by
  obtain ⟨hopcode, hforbidden⟩ := hforbidden
  rw [execute, handled_system hopcode]
  split at hforbidden
  · next hfunct3 =>
      rw [if_pos hfunct3, Exec.run_bind, privileged_user insn huser,
        userPrivileged_illegal hforbidden]
      rfl
  · next hfunct3 =>
      rw [if_neg hfunct3, Exec.run_bind, csrAccess_user insn huser, userCsrAccess,
        if_pos hforbidden]
      rfl

/-- **A user program stays a user program**: a step in U-mode leaves the privilege level
and the registers of the levels above as they are and flushes nothing, goes the same way
whatever these registers but `satp` hold, and ends in an illegal instruction where it
would go beyond. -/
theorem user_mode_isolated {m : Machine B S} (huser : m.cpu.priv = .u) :
    (∀ after, step.run m = .ok ⟨⟩ after →
      after.cpu.priv = .u ∧
        (∀ addr, ¬Csr.isUser addr → after.cpu.csrs.read addr = m.cpu.csrs.read addr) ∧
        ∃ new, after.trace.events = new ++ m.trace.events ∧ .flushed ∉ new) ∧
    (∀ m', SameUser m m' → (step.run m).Same SameUser (step.run m')) ∧
    ∀ insn len fetched, fetchInsn.run m = .ok (insn, len) fetched → Forbidden insn →
      step.run m = .error (.illegalInstruction (insn.setWidth 64))
        { fetched with cpu := fetched.cpu.begin len } := by
  refine ⟨fun after hstep => ?_, step_respects m, fun insn len fetched hfetch hforbidden => ?_⟩
  · obtain ⟨hpriv, hcsrs, hevents⟩ := (step_staysUser m).of_run_ok hstep huser
    exact ⟨hpriv, fun addr haddr => Csrs.read_congr_above hcsrs haddr, hevents⟩
  · have hfetched : fetched.cpu.priv = .u :=
      ((user_framed.toAccesses.reads .fetch).fetchInsn_keeps m).of_run_ok hfetch huser |>.priv
    have hexecute := execute_forbidden hforbidden
      (show ({ fetched with cpu := fetched.cpu.begin len } : Machine B S).cpu.priv = .u
        from hfetched)
    rw [step, Exec.run_bind_ok hfetch]
    dsimp only
    rw [executeFetched, Exec.run_bind_ok (show (onCpu (·.begin len)).run fetched = .ok ⟨⟩ _
      from rfl), Exec.run_bind, hexecute]

/-- `rdcycle t0`, below a kernel that keeps a value in `sscratch`. -/
def readsCycle (secret : BitVec 64) : Machine FakeBacking (List LittleEndian.Byte) :=
  overPages (firstPage [0xC00022F3])
    { Cpu.new 0x80000000 with
      priv := .u
      csrs := Csrs.default.write Csr.sscratch secret }

/-- The program does not learn the value. -/
theorem user_mode_isolated_readsCycle :
    (step.run (readsCycle 1)).Same SameUser (step.run (readsCycle 2)) := by
  apply (user_mode_isolated (rfl : (readsCycle 1).cpu.priv = .u)).2.1
  refine ⟨rfl, (readsCycle 2).cpu.csrs, (readsCycle 2).trace, rfl, fun addr haddr => ?_⟩
  have hother : addr ≠ Csr.sscratch := by
    rintro rfl
    exact absurd haddr (by decide)
  change (Csrs.default.write Csr.sscratch 2).regs addr =
    (Csrs.default.write Csr.sscratch 1).regs addr
  rw [Csrs.write_plain _ _ (by decide), Csrs.write_plain _ _ (by decide),
    Csrs.set_regs_of_ne _ _ hother, Csrs.set_regs_of_ne _ _ hother]

end Machine

end Baonix.Core

import Baonix.Core.Runs
import Baonix.Core.Tlb

/-!
# The translation buffer along runs

`satp` changes only together with a flush, and SFENCE.VMA is one.  So the
translations since the last flush are made under one `satp`, and the buffer
holds nothing but what they found.
-/

namespace Baonix.Core

open Exec (Keeps Preserving)

namespace Csrs

/-- Only a write of `satp` itself reaches it. -/
theorem read_satp_write (c : Csrs) {addr : Csr.Addr} (v : BitVec 64) (haddr : addr ≠ Csr.satp) :
    (c.write addr v).read Csr.satp = c.read Csr.satp := by
  have htarget : Csr.satp ≠ target addr := by
    rw [target]
    split_ifs
    · decide
    · decide
    · decide
    · exact Ne.symm haddr
  exact write_regs_of_ne c v htarget

end Csrs

namespace Cpu

/-- `satp`. -/
def satp (cpu : Cpu) : BitVec 64 := cpu.csrs.read Csr.satp

theorem enterTrap_satp (cpu : Cpu) (cause tval : BitVec 64) (toS : Bool) :
    (cpu.enterTrap cause tval toS).satp = cpu.satp := by
  have hwrites {epc causeAddr tvalAddr : Csr.Addr} (hepc : epc ≠ Csr.satp)
      (hcause : causeAddr ≠ Csr.satp) (htval : tvalAddr ≠ Csr.satp) (status : BitVec 64) :
      ((((cpu.csrs.write epc cpu.pc).write causeAddr cause).write tvalAddr tval).write
        Csr.mstatus status).read Csr.satp = cpu.satp :=
    calc
      _ = (((cpu.csrs.write epc cpu.pc).write causeAddr cause).write tvalAddr tval).read
          Csr.satp := Csrs.read_satp_write _ _ (by decide)
      _ = ((cpu.csrs.write epc cpu.pc).write causeAddr cause).read Csr.satp :=
          Csrs.read_satp_write _ _ htval
      _ = (cpu.csrs.write epc cpu.pc).read Csr.satp := Csrs.read_satp_write _ _ hcause
      _ = cpu.satp := Csrs.read_satp_write _ _ hepc
  cases toS with
  | true => exact hwrites (by decide) (by decide) (by decide) _
  | false => exact hwrites (by decide) (by decide) (by decide) _

theorem enterTrap_mmu (cpu : Cpu) (cause tval : BitVec 64) (toS : Bool) :
    (cpu.enterTrap cause tval toS).mmu = cpu.mmu := by
  cases toS <;> rfl

theorem write_satp (cpu : Cpu) (addr : Csr.Addr) (v : BitVec 64) (haddr : addr ≠ Csr.satp) :
    (cpu.csrs.write addr v).read Csr.satp = cpu.satp :=
  Csrs.read_satp_write cpu.csrs v haddr

theorem mret_satp (cpu : Cpu) : cpu.mret.satp = cpu.satp :=
  cpu.write_satp Csr.mstatus _ (by decide)

theorem sret_satp (cpu : Cpu) : cpu.sret.satp = cpu.satp :=
  cpu.write_satp Csr.mstatus _ (by decide)

/-- Delivering an interrupt leaves paging as it is. -/
theorem checkInterrupts_paging (cpu : Cpu) (pending : Bool) :
    (cpu.checkInterrupts pending).satp = cpu.satp ∧
      (cpu.checkInterrupts pending).mmu = cpu.mmu := by
  have hmip (mip : BitVec 64) : (cpu.csrs.write Csr.mip mip).read Csr.satp = cpu.satp :=
    cpu.write_satp Csr.mip mip (by decide)
  rw [checkInterrupts]
  dsimp only
  split_ifs
  · exact ⟨(enterTrap_satp ..).trans (hmip _), enterTrap_mmu ..⟩
  · exact ⟨(enterTrap_satp ..).trans (hmip _), enterTrap_mmu ..⟩
  · exact ⟨hmip _, rfl⟩

end Cpu

namespace Mmu

/-- What a flush leaves. -/
def Empty (mmu : Mmu) : Prop := ∀ index, mmu.tlb index = .default

theorem empty_default : Mmu.default.Empty := fun _ => rfl

theorem empty_flush (mmu : Mmu) : mmu.flush.Empty := fun _ => rfl

end Mmu

/-- The translations since the last flush, the latest first. -/
def TlbEvent.sinceFlush {B S : Type} : List (TlbEvent B S) → List (Translation B S)
  | [] => []
  | .translated translation :: events => translation :: sinceFlush events
  | .flushed :: _ => []

namespace Translation

variable {B S : Type}

def call (t : Translation B S) : Mmu.Call B S := ⟨t.csrs, t.priv, t.vaddr, t.access, t.system.bus⟩

/-- It returned what it would have returned with an empty buffer. -/
def Fresh [FlatBacking B] (t : Translation B S) : Prop :=
  ∃ result after coldAfter, t.call.reply t.system.mmu = some (result, after) ∧
    t.call.reply .default = some (result, coldAfter)

/-- The tables it walks are in RAM and hold what they hold in `memory`. -/
def Walks [FlatBacking B] (memory : Memory) (t : Translation B S) : Prop :=
  t.call.Unchanged (t.csrs.read Csr.satp) memory

end Translation

namespace Machine

variable {B S : Type}

/-! ## What flushes -/

section Flushes

variable [MemBacking B]

/-- SFENCE.VMA. -/
def isFence (insn : Insn) : Prop :=
  Insn.opcode insn = 0x73 ∧ Insn.funct3 insn = 0 ∧ insn >>> 25 = 0x09

/-- The paging state stays. -/
def SamePaging (start after : Machine B S) : Prop := after.cpu.satp = start.cpu.satp

instance : IsPreorder (Machine B S) SamePaging where
  refl _ := rfl
  trans _ _ _ hleft hright := hright.trans hleft

omit [MemBacking B] in
theorem privileged_flushes (insn : Insn) (m : Machine B S) :
    Exec.wp (Rv64i.privileged insn)
      (fun _ after => after.cpu.satp = m.cpu.satp ∧ (insn >>> 25 = 0x09 → after.cpu.mmu.Empty))
      (fun _ after => after.cpu.satp = m.cpu.satp) True m := by
  have hother {funct12 : BitVec 32} (hfunct12 : insn >>> 20 = funct12)
      (hfence : funct12 >>> 5 ≠ 0x09) : insn >>> 25 ≠ 0x09 := by
    have hshift : insn >>> 25 = (insn >>> 20) >>> 5 := BitVec.shiftRight_add insn 20 5
    rw [hshift, hfunct12]
    exact hfence
  rw [Rv64i.privileged, Exec.wp_bind, Exec.wp_read]
  dsimp only
  split_ifs with _ _ hmret hsret hwfi hfence
  · exact rfl
  · exact rfl
  · exact ⟨Cpu.mret_satp _, fun heq => absurd heq (hother hmret.1 (by decide))⟩
  · exact ⟨Cpu.sret_satp _, fun heq => absurd heq (hother hsret.1 (by decide))⟩
  · exact ⟨rfl, fun heq => absurd heq (hother hwfi (by decide))⟩
  · exact ⟨rfl, fun _ => Mmu.empty_flush _⟩
  · exact rfl

omit [MemBacking B] in
theorem csrAccess_flushes (insn : Insn) (m : Machine B S) :
    Exec.wp (Rv64i.csrAccess insn)
      (fun handled after => handled ∧ (after.cpu.satp = m.cpu.satp ∨ after.cpu.mmu.Empty))
      (fun _ after => after.cpu.satp = m.cpu.satp) True m := by
  have hsetReg (state : Machine B S) (old : BitVec 64) :
      (state.cpu.setReg (Insn.rd insn) old).satp = state.cpu.satp ∧
        (state.cpu.setReg (Insn.rd insn) old).mmu = state.cpu.mmu := by
    unfold Cpu.setReg
    split <;> exact ⟨rfl, rfl⟩
  have hupdate (old new : BitVec 64) : Exec.wp (Rv64i.updateCsr insn old new)
      (fun handled after => handled ∧ (after.cpu.satp = m.cpu.satp ∨ after.cpu.mmu.Empty))
      (fun _ after => after.cpu.satp = m.cpu.satp) True m := by
    rw [Rv64i.updateCsr, Exec.wp_bind, Rv64i.applyCsr, Exec.wp_ite]
    split
    · rw [Rv64i.writeCsr, Exec.wp_bind, onCpu, Exec.wp_update, Exec.wp_ite]
      split
      · rw [flushMmu, Exec.wp_update, Exec.wp_bind, setReg, onCpu, Exec.wp_update, Exec.wp_pure]
        refine ⟨rfl, .inr ?_⟩
        rw [(hsetReg _ _).2]
        exact Mmu.empty_flush _
      · next haddr =>
        rw [Exec.wp_pure, Exec.wp_bind, setReg, onCpu, Exec.wp_update, Exec.wp_pure]
        exact ⟨rfl, .inl ((hsetReg _ _).1.trans (Csrs.read_satp_write _ _ haddr))⟩
    · rw [Exec.wp_pure, Exec.wp_bind, setReg, onCpu, Exec.wp_update, Exec.wp_pure]
      exact ⟨rfl, .inl (hsetReg _ _).1⟩
  rw [Rv64i.csrAccess, Exec.wp_bind, Exec.wp_read]
  dsimp only
  rw [Exec.wp_ite]
  split
  · exact rfl
  rw [Exec.wp_ite]
  split
  · exact rfl
  · split
    · exact rfl
    · exact hupdate _ _

variable [ConsoleSink S]

/-- An instruction that changes `satp` flushes, and SFENCE.VMA does. -/
theorem execute_flushes (insn : Insn) (m : Machine B S) :
    Exec.wp (execute insn)
      (fun _ after => (after.cpu.satp = m.cpu.satp ∨ after.cpu.mmu.Empty) ∧
        (isFence insn → after.cpu.mmu.Empty))
      (fun _ after => after.cpu.satp = m.cpu.satp) True m := by
  by_cases hsystem : Insn.opcode insn = 0x73
  · rw [execute, handled_system hsystem, Exec.wp_bind, Exec.wp_ite]
    split
    · apply (privileged_flushes insn m).imp_post
      intro handled after hafter
      have hboth : (after.cpu.satp = m.cpu.satp ∨ after.cpu.mmu.Empty) ∧
          (isFence insn → after.cpu.mmu.Empty) :=
        ⟨.inl hafter.1, fun hfence => hafter.2 hfence.2.2⟩
      cases handled
      · exact hafter.1
      · exact hboth
    · next hfunct3 =>
      apply (csrAccess_flushes insn m).imp_post
      rintro handled after ⟨rfl, hafter⟩
      exact ⟨hafter, fun hfence => absurd hfence.2.1 hfunct3⟩
  · have hkeeps : Keeps (@SameControl B S) (execute insn) :=
      sameControl_framed.execute_keeps insn
        (fun hopcode _ => absurd hopcode hsystem) (fun hopcode _ => absurd hopcode hsystem)
    apply (hkeeps m).imp
    · exact fun _ after hafter => ⟨.inl (congrArg (·.read Csr.satp) hafter.csrs),
        fun hfence => absurd hfence.1 hsystem⟩
    · exact fun _ after hafter => congrArg (·.read Csr.satp) hafter.csrs
    · exact fun hpanics => hpanics

/-- The step is a completed SFENCE.VMA. -/
def Fences (m after : Machine B S) : Prop :=
  step.run m = .ok ⟨⟩ after ∧
    ∃ insn len fetched, fetchInsn.run m = .ok (insn, len) fetched ∧ isFence insn

theorem step_flushes (m : Machine B S) :
    Exec.wp step
      (fun _ after => (after.cpu.satp = m.cpu.satp ∨ after.cpu.mmu.Empty) ∧
        (Fences m after → after.cpu.mmu.Empty))
      (fun _ after => after.cpu.satp = m.cpu.satp) True m := by
  have hstep : Exec.wp step
      (fun _ after => (after.cpu.satp = m.cpu.satp ∨ after.cpu.mmu.Empty) ∧
        ∀ insn len fetched, fetchInsn.run m = .ok (insn, len) fetched → isFence insn →
          after.cpu.mmu.Empty)
      (fun _ after => after.cpu.satp = m.cpu.satp) True m := by
    rw [step, Exec.wp_bind]
    apply ((sameControl_framed.reads .fetch).fetchInsn_keeps m).attach.imp
    · rintro ⟨insn, len⟩ fetched ⟨hfetch, hsame⟩
      have hsatp : fetched.cpu.satp = m.cpu.satp := congrArg (·.read Csr.satp) hsame.csrs
      dsimp only
      rw [executeFetched, Exec.wp_bind, onCpu, Exec.wp_update, Exec.wp_bind]
      apply (execute_flushes insn _).imp
      · rintro _ after ⟨hafter, hfence⟩
        rw [onCpu, Exec.wp_update]
        refine ⟨hafter.imp_left fun heq => heq.trans hsatp, ?_⟩
        intro other otherLen otherFetched hother hisFence
        rw [hfetch] at hother
        cases hother
        exact hfence hisFence
      · exact fun _ after hafter => hafter.trans hsatp
      · exact fun hpanics => hpanics
    · exact fun _ after hafter => congrArg (·.read Csr.satp) hafter.2.csrs
    · exact fun hpanics => hpanics
  apply hstep.imp_post
  rintro _ after ⟨hafter, hfence⟩
  refine ⟨hafter, ?_⟩
  rintro ⟨_, insn, len, fetched, hfetch, hisFence⟩
  exact hfence insn len fetched hfetch hisFence

omit [MemBacking B] in
/-- A trap and a call leave paging alone. -/
theorem deliver_satp (result : Except Exception PUnit) :
    Keeps (@SamePaging B S) (deliver result) := by
  have hsetReg (m : Machine B S) (i : BitVec 5) (v : BitVec 64) :
      SamePaging m { m with cpu := m.cpu.setReg i v } := by
    unfold Cpu.setReg
    split <;> exact rfl
  have htimer (m : Machine B S) (deadline : BitVec 64) : SamePaging m (Sbi.setTimer deadline m) :=
    m.cpu.write_satp Csr.mip _ (by decide)
  unfold deliver
  split
  · exact .pure _
  · apply Keeps.bind
    · exact fun m => handle_keeps hsetReg htimer (fun _ _ => rfl) m
    · exact fun _ => .bind (.update fun _ => rfl) fun _ => .pure _
  · exact .pure _
  · exact .bind (.update fun m => Cpu.enterTrap_satp ..) fun _ => .pure _

/-- A step that changes `satp`, or is SFENCE.VMA, leaves an empty buffer. -/
theorem stepTrapping_flushes (m : Machine B S) :
    Exec.wp stepTrapping
      (fun _ after => after.cpu.satp ≠ m.cpu.satp ∨ Fences m after → after.cpu.mmu.Empty)
      (fun _ _ => False) True m := by
  rw [stepTrapping, Exec.wp_bind, Exec.wp_attempt]
  apply (step_flushes m).attach.imp
  · rintro _ after ⟨-, hafter, hfence⟩
    rw [deliver, Exec.wp_pure]
    rintro (hsatp | hfences)
    · exact hafter.resolve_left hsatp
    · exact hfence hfences
  · rintro err middle ⟨hrun, hmiddle⟩
    apply (deliver_satp (.error err) middle).imp
    · rintro _ after hafter (hsatp | ⟨hok, -⟩)
      · exact absurd (hafter.trans hmiddle) hsatp
      · rw [hrun] at hok
        cases hok
    · exact fun err _ _ => err.elim
    · exact fun hpanics => hpanics
  · exact fun hpanics => hpanics

end Flushes

/-! ## What the buffer holds -/

section Transparent

variable [FlatBacking B]

/-- The guest fences a change of its tables before it uses them: at each
translation, the tables walked since the last flush are those of one memory. -/
def Fenced : List (TlbEvent B S) → Prop
  | [] => True
  | event :: events =>
      (∃ memory, ∀ t ∈ TlbEvent.sinceFlush (event :: events), t.Walks memory) ∧ Fenced events

/-- What the events so far say about the buffer. -/
structure Consistent (m : Machine B S) : Prop where
  satp : ∀ t ∈ TlbEvent.sinceFlush m.trace.events, t.csrs.read Csr.satp = m.cpu.satp
  reflects : ∀ memory, (∀ t ∈ TlbEvent.sinceFlush m.trace.events, t.Walks memory) →
    Mmu.Reflects (Mmu.leafUnder memory m.cpu.satp) m.cpu.mmu
  fresh : Fenced m.trace.events → ∀ t, .translated t ∈ m.trace.events → t.Fresh

theorem Consistent.start {m : Machine B S} (hevents : m.trace.events = [])
    (hempty : m.cpu.mmu.Empty) : Consistent m where
  satp t ht := by
    rw [hevents] at ht
    cases ht
  reflects _ _ := Mmu.reflects_flushed _ hempty
  fresh _ t ht := by
    rw [hevents] at ht
    cases ht

/-- Only paging and its events matter. -/
theorem Consistent.congr {m after : Machine B S} (hm : Consistent m)
    (hsatp : after.cpu.satp = m.cpu.satp) (hmmu : after.cpu.mmu = m.cpu.mmu)
    (hevents : after.trace.events = m.trace.events) : Consistent after where
  satp := by
    rw [hevents, hsatp]
    exact hm.satp
  reflects := by
    rw [hevents, hsatp, hmmu]
    exact hm.reflects
  fresh := by
    rw [hevents]
    exact hm.fresh

theorem Consistent.flushed {m after : Machine B S} (hm : Consistent m)
    (hempty : after.cpu.mmu.Empty) (hevents : after.trace.events = .flushed :: m.trace.events) :
    Consistent after where
  satp t ht := by
    rw [hevents] at ht
    cases ht
  reflects _ _ := Mmu.reflects_flushed _ hempty
  fresh hfenced t ht := by
    rw [hevents] at hfenced ht
    have hother : TlbEvent.translated t ≠ .flushed := fun heq => by cases heq
    exact hm.fresh hfenced.2 t (List.mem_of_ne_of_mem hother ht)

/-- A translation is recorded, and leaves the buffer as its call does. -/
structure Replied (t : Translation B S) (m after : Machine B S) : Prop where
  satp : after.cpu.satp = m.cpu.satp
  events : after.trace.events = .translated t :: m.trace.events
  mmu : ∃ result system, t.call.reply t.system.mmu = some (result, system) ∧
    after.cpu.mmu = system.mmu

theorem translate_replied (vaddr : BitVec 64) (access : Access) (m : Machine B S) :
    Exec.wp (translate vaddr access)
      (fun _ after => Replied ⟨m.system, m.cpu.csrs, m.cpu.priv, vaddr, access⟩ m after)
      (fun _ after => Replied ⟨m.system, m.cpu.csrs, m.cpu.priv, vaddr, access⟩ m after) True
      m := by
  rw [translate, Exec.wp_bind, Exec.wp_read, Exec.wp_bind, Exec.wp_update, Exec.wp_zoom]
  have hcall := (Exec.wp_any (Mmu.translate m.cpu.csrs m.cpu.priv vaddr access) m.system).attach
  apply hcall.imp
  · exact fun pa system hrun => ⟨rfl, rfl, .ok pa, system, congrArg Outcome.reply hrun.1, rfl⟩
  · exact fun err system hrun =>
      ⟨rfl, rfl, .error err, system, congrArg Outcome.reply hrun.1, rfl⟩
  · exact fun _ => trivial

theorem Consistent.replied (hreliable : ¬ Fallible B) {t : Translation B S}
    {m after : Machine B S} (hm : Consistent m) (hmmu : t.system.mmu = m.cpu.mmu)
    (hsatp : t.csrs.read Csr.satp = m.cpu.satp) (hreplied : Replied t m after) :
    Consistent after := by
  obtain ⟨result, system, hreply, hafter⟩ := hreplied.mmu
  have hcall {memory : Memory} (hwalks : ∀ other ∈ t :: TlbEvent.sinceFlush m.trace.events,
      other.Walks memory) : ∃ coldAfter, t.call.reply .default = some (result, coldAfter) ∧
        Mmu.Reflects (Mmu.leafUnder memory m.cpu.satp) system.mmu := by
    have hreflects := hm.reflects memory
      fun other hother => hwalks other (List.mem_cons_of_mem _ hother)
    rw [← hmmu, ← hsatp] at hreflects
    obtain ⟨result', after', coldAfter, hreply', hcold, hreflects'⟩ :=
      (hwalks t (List.mem_cons_self ..)).reply hreliable hreflects
    rw [hreply] at hreply'
    cases hreply'
    rw [hsatp] at hreflects'
    exact ⟨coldAfter, hcold, hreflects'⟩
  constructor
  · rw [hreplied.events, hreplied.satp]
    intro other hother
    rcases List.mem_cons.mp hother with rfl | hbefore
    · exact hsatp
    · exact hm.satp other hbefore
  · rw [hreplied.events, hreplied.satp, hafter]
    intro memory hwalks
    obtain ⟨_, _, hreflects⟩ := hcall hwalks
    exact hreflects
  · rw [hreplied.events]
    rintro ⟨⟨memory, hwalks⟩, hfenced⟩ other hother
    rcases List.mem_cons.mp hother with heq | hbefore
    · cases heq
      obtain ⟨coldAfter, hcold, -⟩ := hcall hwalks
      exact ⟨result, system, coldAfter, hreply, hcold⟩
    · exact hm.fresh hfenced other hbefore

variable [ConsoleSink S]

theorem consistent_stepwise (hreliable : ¬ Fallible B) :
    Stepwise (Preserving (@Consistent B S _)) where
  setReg m i v hm := by
    unfold Cpu.setReg
    split
    · exact hm.congr rfl rfl rfl
    · exact hm
  jump _ _ _ hm := hm.congr rfl rfl rfl
  reserve _ _ hm := hm.congr rfl rfl rfl
  translate vaddr access m :=
    (translate_replied vaddr access m).imp
      (fun _ _ hreplied hm => hm.replied hreliable rfl rfl hreplied)
      (fun _ _ hreplied hm => hm.replied hreliable rfl rfl hreplied) (fun hpanics => hpanics)
  busLoad := busLoad_keeps (fun _ _ _ _ hm => hm.congr rfl rfl rfl)
    (fun _ _ hm => hm.congr rfl rfl rfl)
  busStore := busStore_keeps (fun _ _ _ _ hm => hm.congr rfl rfl rfl)
    (fun _ _ hm => hm.congr rfl rfl rfl)
  starts _ _ hm := hm.congr rfl rfl rfl
  retires _ _ hm := hm.congr rfl rfl rfl
  traps m err hm := hm.congr (Cpu.enterTrap_satp ..) (Cpu.enterTrap_mmu ..) rfl
  skips _ _ hm := hm.congr rfl rfl rfl
  mret m hm := hm.congr m.cpu.mret_satp rfl rfl
  sret m hm := hm.congr m.cpu.sret_satp rfl rfl
  flush := .update fun m hm => hm.flushed (Mmu.empty_flush m.cpu.mmu) rfl
  writeCsr addr new m := by
    rw [Rv64i.writeCsr, Exec.wp_bind, onCpu, Exec.wp_update, Exec.wp_ite]
    split
    · rw [flushMmu, Exec.wp_update]
      exact fun hm => hm.flushed (Mmu.empty_flush m.cpu.mmu) rfl
    · next haddr =>
      rw [Exec.wp_pure]
      exact fun hm => hm.congr (m.cpu.write_satp addr new haddr) rfl rfl
  setTimer m deadline hm := hm.congr (m.cpu.write_satp Csr.mip _ (by decide)) rfl rfl
  putchar _ _ hm := hm.congr rfl rfl rfl

/-- Whatever a run does, the buffer stays consistent with its events. -/
theorem consistent_reached (hreliable : ¬ Fallible B) {m after : Machine B S}
    (hstart : Consistent m) (hruns : Reaches (fun _ => True) m after) : Consistent after :=
  hruns.invariant hstart
    (fun m hm => hm.congr (m.cpu.checkInterrupts_paging _).1 (m.cpu.checkInterrupts_paging _).2 rfl)
    (fun m hm _ => ((consistent_stepwise hreliable).stepTrapping_keeps m).imp
      (fun _ _ hafter => hafter hm) (fun _ _ hafter => hafter hm) (fun hpanics => hpanics))
    (fun _ _ hm => hm.congr rfl rfl rfl) (fun _ _ hm => hm.congr rfl rfl rfl)

/-- **The buffer is transparent.**  Calls under one `satp` over unchanged tables
return what an empty buffer would; a step that changes `satp` or is SFENCE.VMA
leaves an empty buffer; so along a run that fences its changes, every
translation is made as by an empty buffer. -/
theorem translations_transparent (hreliable : ¬ Fallible B) :
    (∀ (satp : BitVec 64) (memory : Memory) (calls : List (Mmu.Call B S)) (mmu : Mmu),
      mmu.Empty → (∀ call ∈ calls, call.Unchanged satp memory) → Mmu.Transparent calls mmu) ∧
    (∀ (m after : Machine B S) (result : Except (BitVec 64) Sbi.SbiOutcome),
      stepTrapping.run m = .ok result after →
        after.cpu.satp ≠ m.cpu.satp ∨ Fences m after → after.cpu.mmu.Empty) ∧
    ∀ m after : Machine B S, m.cpu.mmu.Empty → m.trace.events = [] →
      Reaches (fun _ => True) m after → Fenced after.trace.events →
        ∀ t, .translated t ∈ after.trace.events → t.Fresh := by
  refine ⟨?_, ?_, ?_⟩
  · exact fun _ _ _ _ hempty hcalls =>
      Mmu.transparent_of_unchanged hreliable hcalls (Mmu.reflects_flushed _ hempty)
  · exact fun m _ _ hrun => (stepTrapping_flushes m).of_run_ok hrun
  · exact fun _ _ hempty hevents hruns =>
      (consistent_reached hreliable (.start hevents hempty) hruns).fresh

/-- Two loads of one page, the second through the entry the first leaves. -/
theorem translations_transparent_gigapage :
    Mmu.Transparent [Sv39.userLoad [Sv39.gigapage] 0x1234, Sv39.userLoad [Sv39.gigapage] 0x1238]
      .default := by
  have hunchanged {vaddr : BitVec 64} (hroot : Mmu.index vaddr 0 = 0) :
      (Sv39.userLoad [Sv39.gigapage] vaddr).Unchanged (Sv39.pagingCsrs.read Csr.satp)
        (flat (Sv39.tables [Sv39.gigapage])) :=
    ⟨rfl, _, Sv39.holds_busOver _, fun _ => ⟨.refl .., Sv39.tablesInRam_userLoad hroot⟩⟩
  apply (translations_transparent not_fallible_fakeBacking).1 _ _ _ _ Mmu.empty_default
  intro call hcall
  rcases List.mem_pair.mp hcall with rfl | rfl
  · exact hunchanged (by decide)
  · exact hunchanged (by decide)

end Transparent

end Machine

end Baonix.Core

import Baonix.Difftest.Image

/-!
# The prologue

The trap vector is set, and the registers are loaded from the table; the one the table is
addressed by comes last.
-/

namespace Baonix.Difftest

open Baonix.Core (Cpu Csrs FlatBacking ConsoleSink Insn Machine Fallible)
open Baonix.Core.Machine
open Riscv (Hart Instr Reg)
open Window (window)

variable {B S : Type} [FlatBacking B] [ConsoleSink S]

/-! ## The trap vector -/

/-- `csrw mtvec, x5`. -/
def csrwMtvec : BitVec 32 := iType 0x73 1 0 5 0x305

omit [FlatBacking B] in
/-- In machine mode the write succeeds, and changes the CSRs only. -/
theorem execute_csrw [Core.MemBacking B] (start : Machine B S) (hpriv : start.cpu.priv = .m) :
    ∃ csrs, (execute csrwMtvec).run start =
      .ok ⟨⟩ { start with cpu := { start.cpu with csrs := csrs } } := by
  have hwp : Exec.wp (execute csrwMtvec)
      (fun _ after => ∃ csrs, after = { start with cpu := { start.cpu with csrs := csrs } })
      (fun _ _ => False) False start := by
    rw [execute, handled_system (by decide), if_neg (by decide), Exec.wp_bind,
      Core.Rv64i.csrAccess, Exec.wp_bind, Exec.wp_read, hpriv]
    dsimp only
    rw [if_neg (by decide), if_neg (by decide)]
    have hnew (old src : BitVec 64) : Core.Rv64i.newCsr csrwMtvec old src = some src := rfl
    rw [hnew]
    dsimp only
    rw [Core.Rv64i.updateCsr, Exec.wp_bind, Core.Rv64i.applyCsr, if_pos (by decide),
      Core.Rv64i.writeCsr, Exec.wp_bind, onCpu, Exec.wp_update, if_neg (by decide), Exec.wp_pure,
      Exec.wp_bind, setReg, onCpu, Exec.wp_update, Exec.wp_pure]
    exact ⟨_, rfl⟩
  obtain ⟨_, after, hrun, csrs, rfl⟩ := hwp.exists_ok
  exact ⟨csrs, hrun⟩

/-! ## Steps of the prologue -/

/-- Any access of data is allowed. -/
def Anywhere (_ : BitVec 64) (_ : ℕ) : Prop := True

section

variable (hreliable : ¬Fallible B) {image : List LittleEndian.Byte} {listing : List (BitVec 64)}
  {o : ℕ} {m : Machine B S} (hat : At image o m) {rest : List Ins}
include hreliable hat

theorem advances_csrw (hlisted : Listed image listing o (.w csrwMtvec :: rest)) :
    ∃ after, Advances image listing Anywhere m after ∧ At image (o + 4) after := by
  obtain ⟨memory, hm, hintact⟩ := hat.ready.intact
  obtain ⟨fetched, hfetch⟩ := fetch_ins hreliable hat.pc hlisted.limit hlisted.window hm hintact
    hat.ready.priv (reads_w (w := csrwMtvec) (by decide))
  have hcore := ((Core.Machine.sameCore_reads .fetch).fetchInsn_keeps m).of_run_ok hfetch
  have hreaching : Reaching Anywhere m fetched :=
    (issues_reads.fetchInsn_keeps m).of_run_ok hfetch
  have hpriv : fetched.cpu.priv = .m := hcore.priv.trans hat.ready.priv
  obtain ⟨csrs, hrun⟩ := execute_csrw (begun 4 fetched) hpriv
  have hstep := (step_of_fetched hfetch).trans (Exec.run_bind_ok hrun)
  have hstepped : Stepped image Anywhere { m.hart memory with pc := m.cpu.pc + BitVec.ofNat 64 4 } m
      { begun 4 fetched with
        cpu := { (begun 4 fetched).cpu with csrs := csrs }.retire (BitVec.ofNat 64 4) } :=
    ⟨hstep, hcore.regs, congrArg (· + BitVec.ofNat 64 4) hcore.pc,
      ⟨⟨memory, holds_begun hm hfetch 4, hintact⟩, hpriv⟩, hreaching⟩
  exact ⟨_, hstepped.next hat hlisted (Nat.succ_pos 3) rfl⟩

/-- A load of register `n` leaves the base in place, unless it is the base. -/
theorem advances_load {n : ℕ} (hn : 1 ≤ n ∧ n < 32)
    (hlisted : Listed image listing o (.w (iType 0x03 3 n 31 (u32 (8 * (n - 1)))) :: rest))
    (hbase : m.cpu.regs 31 = addressOf tableOff) :
    ∃ after, Advances image listing Anywhere m after ∧ At image (o + 4) after ∧
      (n ≠ 31 → after.cpu.regs 31 = addressOf tableOff) := by
  have hn31 : (BitVec.ofNat 5 n).toNat = n := by
    rw [BitVec.toNat_ofNat, Nat.mod_eq_of_lt (by omega)]
  have hmeans := means_load 3 (BitVec.ofNat 5 n) 31 (u32 (8 * (n - 1)))
    (show _ = some (8, true) by simp [Riscv.decodeLoad])
  rw [hn31, immediate_eq (by omega)] at hmeans
  have hram : Core.ramBase = 0x80000000 := rfl
  have htable : tableOff = 0x1100 := rfl
  have hlen : imageLen = 0x3000 := rfl
  obtain ⟨memory, place, after, hstepped⟩ := stepped_means hreliable hat.ready hat.pc
    hlisted.limit hlisted.window Anywhere hmeans fun addr size stores hsome => by
      rw [Instr.access, hbase, addressOf_add] at hsome
      cases hsome
      refine ⟨?_, inRam_addressOf (by omega) (by omega), trivial, fun hfalse => by cases hfalse⟩
      rw [toNat_addressOf (by omega)]
      omega
  obtain ⟨hadvances, hafter⟩ := hstepped.next hat hlisted (Nat.succ_pos 3) rfl
  refine ⟨after, hadvances, hafter, fun hne => ?_⟩
  rw [hstepped.regs]
  refine (regs_result _ _ _ fun heq => hne ?_).trans hbase
  rw [← hn31, ← heq]
  rfl

/-- The loads up to the last. -/
theorem arrives_loads {n count : ℕ} (hn : 1 ≤ n) (hcount : n + count = 32)
    (hlisted : Listed image listing o (((List.range' n count).map fun n =>
      .w (iType 0x03 3 n 31 (u32 (8 * (n - 1))))) ++ rest))
    (hbase : 0 < count → m.cpu.regs 31 = addressOf tableOff) :
    Arrives (Advances image listing Anywhere) (At image (o + 4 * count)) count m := by
  induction count generalizing n o m with
  | zero => exact .here hat
  | succ count ih =>
      rw [List.range'_succ, List.map_cons, List.cons_append] at hlisted
      obtain ⟨after, hmove, hafter, hkept⟩ := advances_load hreliable hat ⟨hn, by omega⟩ hlisted
        (hbase (Nat.succ_pos _))
      refine .move hmove ?_
      have hrest := ih hafter (by omega) (by omega) hlisted.tail fun hpos => hkept (by omega)
      rwa [Nat.add_assoc, Nat.add_comm 4, ← Nat.mul_succ] at hrest

/-- **The prologue** leads to the body. -/
theorem arrives_prologue (hentry : o = entryOff)
    (hlisted : Listed image listing o (prologueCode tableDelta ++ rest)) :
    Arrives (Advances image listing Anywhere) (At image bodyOff) 36 m := by
  have hbody : bodyOff = entryOff + 4 + 4 + 4 + 4 + 4 + 4 * 31 := rfl
  subst hentry
  rw [prologueCode, List.append_assoc] at hlisted
  obtain ⟨first, hmove, hat, hfirst⟩ := advances_auipc hreliable hat Anywhere
    (show (5 : Reg) ≠ 0 by decide) hlisted (d := 0) (by decide)
  refine .move hmove ?_
  obtain ⟨second, hmove, hat, -⟩ := advances_opImm hreliable hat Anywhere
    (show (5 : Reg) ≠ 0 by decide) 0 5 hlisted.tail
    (show _ = some Riscv.Op.add by simp [Riscv.decodeOpImm])
  refine .move hmove ?_
  obtain ⟨third, hmove, hat⟩ := advances_csrw hreliable hat hlisted.tail.tail
  refine .move hmove ?_
  obtain ⟨fourth, hmove, hat, hfourth⟩ := advances_auipc hreliable hat Anywhere
    (show (31 : Reg) ≠ 0 by decide) hlisted.tail.tail.tail (d := 0x1000) (by decide)
  refine .move hmove ?_
  obtain ⟨fifth, hmove, hat, hfifth⟩ := advances_opImm hreliable hat Anywhere
    (show (31 : Reg) ≠ 0 by decide) 0 31 hlisted.tail.tail.tail.tail
    (show _ = some Riscv.Op.add by simp [Riscv.decodeOpImm])
  refine .move hmove ?_
  have hbase : fifth.cpu.regs 31 = addressOf tableOff := by
    rw [hfifth, Function.update_self, hfourth, Function.update_self]
    decide
  rw [hbody]
  exact arrives_loads hreliable hat le_rfl rfl hlisted.tail.tail.tail.tail.tail fun _ => hbase

end

end Baonix.Difftest

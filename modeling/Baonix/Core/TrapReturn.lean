import Baonix.Core.CsrFile
import Baonix.Core.Step

/-!
# A return undoes a trap

Entering a trap pushes the interrupt enable and the privilege onto the fields of
`mstatus`, and a return pops them.
-/

namespace Baonix.Core

open Baonix.Bits Csr

namespace Csrs

/-- The width fields of `mstatus` lie above the fields a trap touches. -/
theorem write_status {c : Csrs} (hc : c.WellFormed) {v : BitVec 64}
    (hhigh : ∀ bit, 32 ≤ bit → v.getLsbD bit = (c.regs mstatus).getLsbD bit) :
    (c.write mstatus v).regs mstatus = v := by
  have hfields : v &&& mstatusXlenFields = c.regs mstatus &&& mstatusXlenFields := by
    have hshift : mstatusXlenFields = (0xF : BitVec 64) <<< 32 := rfl
    apply BitVec.eq_of_getLsbD_eq
    intro bit hbit
    rw [hshift, BitVec.getLsbD_and, BitVec.getLsbD_and, BitVec.getLsbD_shiftLeft]
    by_cases hlow : bit < 32
    · simp [hlow]
    · rw [hhigh bit (not_lt.mp hlow)]
  have hlegal : c.regs mstatus &&& mstatusXlenFields = mstatusXlenRv64 := hc mstatus
  rw [write_mstatus, set_regs_self, ← hlegal, ← hfields]
  exact masked_self mstatusXlenFields v

end Csrs

namespace Cpu

/-! ## What an entry and a return leave in `mstatus` -/

/-- A field of one bit. -/
def flag (bit : ℕ) : BitVec 64 := 1 <<< bit

theorem getLsbD_flag (place : ℕ) {bit : ℕ} (hbit : bit < 64) :
    (flag place).getLsbD bit = decide (bit = place) :=
  getLsbD_one_shiftLeft place hbit

/-- What `enter_trap` to S-mode writes. -/
def supervisorEntry (status : BitVec 64) (priv : Priv) : BitVec 64 :=
  status &&& ~~~(flag 1 ||| flag 5 ||| flag 8) ||| ((status >>> 1) &&& 1) <<< 5 |||
    (priv.toBits &&& 1) <<< 8

/-- What `sret` writes. -/
def supervisorReturn (status : BitVec 64) : BitVec 64 :=
  status &&& ~~~(flag 1 ||| flag 5 ||| flag 8) ||| ((status >>> 5) &&& 1) <<< 1 ||| flag 5

/-- What `enter_trap` to M-mode writes. -/
def machineEntry (status : BitVec 64) (priv : Priv) : BitVec 64 :=
  status &&& ~~~(flag 3 ||| flag 7 ||| (flag 11 ||| flag 12)) ||| ((status >>> 3) &&& 1) <<< 7 |||
    priv.toBits <<< 11

/-- What `mret` to a privilege writes. -/
def machineReturn (status : BitVec 64) (priv : Priv) : BitVec 64 :=
  let new := status &&& ~~~(flag 3 ||| flag 7 ||| (flag 11 ||| flag 12)) |||
    ((status >>> 7) &&& 1) <<< 3 ||| flag 7
  if priv.toBits ≠ Priv.m.toBits then new &&& ~~~flag 17 else new

section Bits

variable (status : BitVec 64) (priv : Priv) {bit : ℕ}

theorem getLsbD_supervisorEntry (hbit : bit < 64) :
    (supervisorEntry status priv).getLsbD bit =
      if bit = 1 then false
      else if bit = 5 then status.getLsbD 1
      else if bit = 8 then priv.toBits.getLsbD 0
      else status.getLsbD bit := by
  have hpriv := getLsbD_moved priv.toBits 0 8 hbit
  rw [BitVec.ushiftRight_zero] at hpriv
  simp only [supervisorEntry, BitVec.getLsbD_or, BitVec.getLsbD_and, BitVec.getLsbD_not,
    BitVec.ofNat_eq_ofNat, getLsbD_flag _ hbit, getLsbD_moved _ _ _ hbit, hpriv, hbit]
  split_ifs <;> simp_all

theorem getLsbD_supervisorReturn (hbit : bit < 64) :
    (supervisorReturn status).getLsbD bit =
      if bit = 1 then status.getLsbD 5
      else if bit = 5 then true
      else if bit = 8 then false
      else status.getLsbD bit := by
  simp only [supervisorReturn, BitVec.getLsbD_or, BitVec.getLsbD_and, BitVec.getLsbD_not,
    BitVec.ofNat_eq_ofNat, getLsbD_flag _ hbit, getLsbD_moved _ _ _ hbit, hbit]
  split_ifs <;> simp_all

theorem getLsbD_privilege (hbit : bit < 64) : (priv.toBits <<< 11).getLsbD bit =
    (decide (bit = 11) && priv.toBits.getLsbD 0 || decide (bit = 12) && priv.toBits.getLsbD 1) := by
  cases priv with
  | u => simp [Priv.toBits]
  | s =>
      have hshift : Priv.s.toBits <<< 11 = flag 11 := rfl
      rw [hshift, getLsbD_flag 11 hbit]
      simp [Priv.toBits]
  | m =>
      have hshift : Priv.m.toBits <<< 11 = flag 11 ||| flag 12 := rfl
      rw [hshift, BitVec.getLsbD_or, getLsbD_flag 11 hbit, getLsbD_flag 12 hbit]
      simp [Priv.toBits]

theorem getLsbD_machineEntry (hbit : bit < 64) :
    (machineEntry status priv).getLsbD bit =
      if bit = 3 then false
      else if bit = 7 then status.getLsbD 3
      else if bit = 11 then priv.toBits.getLsbD 0
      else if bit = 12 then priv.toBits.getLsbD 1
      else status.getLsbD bit := by
  simp only [machineEntry, BitVec.getLsbD_or, BitVec.getLsbD_and, BitVec.getLsbD_not,
    BitVec.ofNat_eq_ofNat, getLsbD_flag _ hbit, getLsbD_moved _ _ _ hbit,
    getLsbD_privilege priv hbit, hbit]
  split_ifs <;> simp_all

theorem getLsbD_machineReturn (hbit : bit < 64) :
    (machineReturn status priv).getLsbD bit =
      if bit = 3 then status.getLsbD 7
      else if bit = 7 then true
      else if bit = 11 then false
      else if bit = 12 then false
      else if bit = 17 ∧ priv ≠ .m then false
      else status.getLsbD bit := by
  have hbelow : priv.toBits ≠ Priv.m.toBits ↔ priv ≠ .m := by cases priv <;> decide
  simp only [machineReturn, hbelow]
  by_cases hpriv : priv = .m
  · simp only [hpriv, ne_eq, not_true_eq_false, if_false, BitVec.getLsbD_or, BitVec.getLsbD_and,
      BitVec.getLsbD_not, BitVec.ofNat_eq_ofNat, getLsbD_flag _ hbit, getLsbD_moved _ _ _ hbit, hbit]
    split_ifs <;> simp_all
  · simp only [hpriv, ne_eq, not_false_eq_true, if_true, BitVec.getLsbD_or, BitVec.getLsbD_and,
      BitVec.getLsbD_not, BitVec.ofNat_eq_ofNat, getLsbD_flag _ hbit, getLsbD_moved _ _ _ hbit, hbit]
    split_ifs <;> simp_all

/-- The fields lie in the low half. -/
theorem high_of_low {v : BitVec 64}
    (hlow : ∀ bit, bit < 64 → 32 ≤ bit → v.getLsbD bit = status.getLsbD bit) (bit : ℕ)
    (hbit : 32 ≤ bit) : v.getLsbD bit = status.getLsbD bit := by
  by_cases hlt : bit < 64
  · exact hlow bit hlt hbit
  · rw [BitVec.getLsbD_of_ge _ _ (not_lt.mp hlt), BitVec.getLsbD_of_ge _ _ (not_lt.mp hlt)]

theorem supervisorEntry_high : ∀ bit, 32 ≤ bit →
    (supervisorEntry status priv).getLsbD bit = status.getLsbD bit := by
  refine high_of_low status fun bit hlt hbit => ?_
  rw [getLsbD_supervisorEntry _ _ hlt, if_neg (by omega), if_neg (by omega), if_neg (by omega)]

theorem supervisorReturn_high : ∀ bit, 32 ≤ bit →
    (supervisorReturn status).getLsbD bit = status.getLsbD bit := by
  refine high_of_low status fun bit hlt hbit => ?_
  rw [getLsbD_supervisorReturn _ hlt, if_neg (by omega), if_neg (by omega), if_neg (by omega)]

theorem machineEntry_high : ∀ bit, 32 ≤ bit →
    (machineEntry status priv).getLsbD bit = status.getLsbD bit := by
  refine high_of_low status fun bit hlt hbit => ?_
  rw [getLsbD_machineEntry _ _ hlt, if_neg (by omega), if_neg (by omega), if_neg (by omega),
    if_neg (by omega)]

theorem machineReturn_high : ∀ bit, 32 ≤ bit →
    (machineReturn status priv).getLsbD bit = status.getLsbD bit := by
  refine high_of_low status fun bit hlt hbit => ?_
  rw [getLsbD_machineReturn _ _ hlt, if_neg (by omega), if_neg (by omega), if_neg (by omega),
    if_neg (by omega), if_neg (by omega)]

end Bits

/-! ## Entries -/

/-- A trap was entered: where it came from, and the status it left. -/
structure Entered (entered : Cpu) (epc : Addr) (pc status : BitVec 64) : Prop where
  epc : entered.csrs.regs epc = pc
  status : entered.csrs.regs mstatus = status
  wellFormed : entered.csrs.WellFormed

/-- What both entries do to the registers, one after the other. -/
theorem entered_spec {c : Csrs} (hc : c.WellFormed) {epc causeAddr tvalAddr : Addr}
    (hepc : Csrs.isPlain epc) (hcause : Csrs.isPlain causeAddr) (htval : Csrs.isPlain tvalAddr)
    (hdistinct : epc ≠ causeAddr ∧ epc ≠ tvalAddr) (pc cause tval status : BitVec 64)
    (hhigh : ∀ bit, 32 ≤ bit → status.getLsbD bit = (c.regs mstatus).getLsbD bit) :
    let saved := ((c.write epc pc).write causeAddr cause).write tvalAddr tval
    let after := saved.write mstatus status
    saved.regs mstatus = c.regs mstatus ∧ after.regs epc = pc ∧ after.regs mstatus = status ∧
      after.WellFormed := by
  intro saved after
  have hplain {addr : Addr} (haddr : Csrs.isPlain addr) : addr ≠ mstatus := by
    rintro rfl
    exact absurd haddr (by decide)
  have hsaved : saved = ((c.set epc pc).set causeAddr cause).set tvalAddr tval := by
    rw [← Csrs.write_plain _ _ hepc, ← Csrs.write_plain _ _ hcause, ← Csrs.write_plain _ _ htval]
  have hstatus : saved.regs mstatus = c.regs mstatus := by
    rw [hsaved, Csrs.set_regs_of_ne _ _ (hplain htval).symm,
      Csrs.set_regs_of_ne _ _ (hplain hcause).symm, Csrs.set_regs_of_ne _ _ (hplain hepc).symm]
  have hwell : saved.WellFormed := ((hc.write _ _).write _ _).write _ _
  refine ⟨hstatus, ?_, Csrs.write_status hwell fun bit hbit => ?_, hwell.write _ _⟩
  · rw [Csrs.write_regs_of_ne saved status (hplain hepc), hsaved,
      Csrs.set_regs_of_ne _ _ hdistinct.2, Csrs.set_regs_of_ne _ _ hdistinct.1, Csrs.set_regs_self]
  · rw [hstatus, hhigh bit hbit]

variable {cpu : Cpu}

theorem enterTrap_supervisor (hcpu : cpu.csrs.WellFormed) (cause tval : BitVec 64) :
    Entered (cpu.enterTrap cause tval true) sepc cpu.pc
      (supervisorEntry (cpu.csrs.regs mstatus) cpu.priv) := by
  obtain ⟨hsaved, hepc, hstatus, hwell⟩ := entered_spec hcpu (by decide : Csrs.isPlain sepc)
    (by decide : Csrs.isPlain scause) (by decide : Csrs.isPlain stval) (by decide) cpu.pc cause tval _
    (supervisorEntry_high (cpu.csrs.regs mstatus) cpu.priv)
  have hcsrs : (cpu.enterTrap cause tval true).csrs =
      (((cpu.csrs.write sepc cpu.pc).write scause cause).write stval tval).write mstatus
        (supervisorEntry (cpu.csrs.regs mstatus) cpu.priv) := by
    rw [← hsaved]
    rfl
  exact ⟨hcsrs ▸ hepc, hcsrs ▸ hstatus, hcsrs ▸ hwell⟩

theorem enterTrap_machine_entered (hcpu : cpu.csrs.WellFormed) (cause tval : BitVec 64) :
    Entered (cpu.enterTrap cause tval false) mepc cpu.pc
      (machineEntry (cpu.csrs.regs mstatus) cpu.priv) := by
  obtain ⟨hsaved, hepc, hstatus, hwell⟩ := entered_spec hcpu (by decide : Csrs.isPlain mepc)
    (by decide : Csrs.isPlain mcause) (by decide : Csrs.isPlain mtval) (by decide) cpu.pc cause tval _
    (machineEntry_high (cpu.csrs.regs mstatus) cpu.priv)
  have hcsrs : (cpu.enterTrap cause tval false).csrs =
      (((cpu.csrs.write mepc cpu.pc).write mcause cause).write mtval tval).write mstatus
        (machineEntry (cpu.csrs.regs mstatus) cpu.priv) := by
    rw [← hsaved]
    rfl
  exact ⟨hcsrs ▸ hepc, hcsrs ▸ hstatus, hcsrs ▸ hwell⟩

/-! ## Returns -/

variable {later : Cpu}

theorem bit_eq_one {x : BitVec 64} {bit : ℕ} : (x >>> bit) &&& 1 = 1 ↔ x.getLsbD bit = true := by
  rw [BitVec.ofNat_eq_ofNat, BitVec.and_one_eq_setWidth_ofBool_getLsbD, BitVec.getLsbD_ushiftRight,
    Nat.add_zero]
  cases x.getLsbD bit <;> simp

theorem sret_spec (hlater : later.csrs.WellFormed) (len : BitVec 64) :
    (later.sret.retire len).pc = later.csrs.regs sepc ∧
      (later.sret.retire len).priv =
        (if (later.csrs.regs mstatus).getLsbD 8 then Priv.s else Priv.u) ∧
      (later.sret.retire len).csrs.regs mstatus = supervisorReturn (later.csrs.regs mstatus) := by
  refine ⟨?_, ?_, ?_⟩
  · exact Csrs.write_regs_of_ne later.csrs (supervisorReturn (later.csrs.regs mstatus))
      (show sepc ≠ Csrs.target mstatus by decide)
  · change (if (later.csrs.regs mstatus >>> 8) &&& 1 = 1 then Priv.s else Priv.u) = _
    simp only [bit_eq_one]
  · exact Csrs.write_status hlater (supervisorReturn_high _)

/-- `MPP` names the privilege. -/
theorem privilege_eq {status : BitVec 64} {priv : Priv}
    (hlow : status.getLsbD 11 = priv.toBits.getLsbD 0)
    (hhigh : status.getLsbD 12 = priv.toBits.getLsbD 1) :
    (status >>> 11) &&& 0b11 = priv.toBits := by
  have hmask : (0b11 : BitVec 64) = mask 64 2 := rfl
  apply BitVec.eq_of_getLsbD_eq
  intro bit hbit
  rw [hmask, BitVec.getLsbD_and, getLsbD_mask 2 hbit, BitVec.getLsbD_ushiftRight]
  by_cases hfield : bit < 2
  · rw [decide_eq_true hfield, Bool.and_true]
    obtain rfl | rfl : bit = 0 ∨ bit = 1 := by omega
    · exact hlow
    · exact hhigh
  · rw [decide_eq_false hfield, Bool.and_false]
    have hbits : priv.toBits &&& mask 64 2 = priv.toBits := by cases priv <;> rfl
    rw [← hbits, BitVec.getLsbD_and, getLsbD_mask 2 hbit, decide_eq_false hfield, Bool.and_false]

theorem mret_spec (hlater : later.csrs.WellFormed) {priv : Priv}
    (hpriv : ((later.csrs.regs mstatus) >>> 11) &&& 0b11 = priv.toBits) (len : BitVec 64) :
    (later.mret.retire len).pc = later.csrs.regs mepc ∧ (later.mret.retire len).priv = priv ∧
      (later.mret.retire len).csrs.regs mstatus =
        machineReturn (later.csrs.regs mstatus) priv := by
  have hcsrs : (later.mret.retire len).csrs =
      later.csrs.write mstatus (machineReturn (later.csrs.regs mstatus) priv) := by
    rw [machineReturn, ← hpriv]
    rfl
  refine ⟨?_, ?_, ?_⟩
  · change (later.mret.retire len).csrs.regs mepc = _
    rw [hcsrs]
    exact Csrs.write_regs_of_ne later.csrs _ (show mepc ≠ Csrs.target mstatus by decide)
  · change (if (later.csrs.regs mstatus >>> 11) &&& 0b11 = 0 then Priv.u
      else if (later.csrs.regs mstatus >>> 11) &&& 0b11 = 1 then Priv.s else Priv.m) = priv
    rw [hpriv]
    cases priv <;> rfl
  · rw [hcsrs]
    exact Csrs.write_status hlater (machineReturn_high _ priv)

/-! ## A return undoes an entry -/

/-- The fields of `mstatus` that an entry to S-mode and `sret` move. -/
def supervisorFields : BitVec 64 := flag 1 ||| flag 5 ||| flag 8

/-- The fields of `mstatus` that an entry to M-mode and `mret` move. -/
def machineFields : BitVec 64 := flag 3 ||| flag 7 ||| flag 11 ||| flag 12

/-- The processor `resumed` is back where `cpu` was interrupted.  Of the bits of
`mstatus` that are neither in `ones` nor in `zeros`, those in `kept` are as before
the trap, and the rest as before the return. -/
structure Undone (kept : BitVec 64) (ones zeros : List ℕ) (cpu later resumed : Cpu) : Prop where
  pc : resumed.pc = cpu.pc
  priv : resumed.priv = cpu.priv
  one : ∀ bit ∈ ones, (resumed.csrs.read mstatus).getLsbD bit = true
  zero : ∀ bit ∈ zeros, (resumed.csrs.read mstatus).getLsbD bit = false
  restored : ∀ bit < 64, bit ∉ ones → bit ∉ zeros → kept.getLsbD bit →
    (resumed.csrs.read mstatus).getLsbD bit = (cpu.csrs.read mstatus).getLsbD bit
  untouched : ∀ bit < 64, bit ∉ ones → bit ∉ zeros → ¬ kept.getLsbD bit →
    (resumed.csrs.read mstatus).getLsbD bit = (later.csrs.read mstatus).getLsbD bit

/-- A trap's handler leaves the address to return to and the bits in `kept`. -/
structure Handled (epc : Addr) (kept : BitVec 64) (entered later : Cpu) : Prop where
  wellFormed : later.csrs.WellFormed
  epc : later.csrs.read epc = entered.csrs.read epc
  status : later.csrs.read mstatus &&& kept = entered.csrs.read mstatus &&& kept

/-- A handler that does nothing. -/
theorem Entered.handled {entered : Cpu} {epc : Addr} {pc status : BitVec 64}
    (hentered : Entered entered epc pc status) (kept : BitVec 64) :
    Handled epc kept entered entered :=
  ⟨hentered.wellFormed, rfl, rfl⟩

theorem Handled.bit {epc : Addr} {kept : BitVec 64} {entered later : Cpu}
    (hhandled : Handled epc kept entered later) {bit : ℕ} (hkept : kept.getLsbD bit) :
    (later.csrs.regs mstatus).getLsbD bit = (entered.csrs.regs mstatus).getLsbD bit := by
  have hbit := congrArg (·.getLsbD bit) hhandled.status
  simp only [BitVec.getLsbD_and] at hbit
  rwa [hkept, Bool.and_true, Bool.and_true] at hbit

theorem kept_of_fields {kept fields : BitVec 64} (hfields : fields &&& kept = fields) {bit : ℕ}
    (hbit : fields.getLsbD bit) : kept.getLsbD bit := by
  have hboth := congrArg (·.getLsbD bit) hfields
  simp only [BitVec.getLsbD_and] at hboth
  rwa [hbit, Bool.true_and] at hboth

/-- **`sret` undoes a trap to S-mode.** -/
theorem sret_undoes {cpu later : Cpu} (hcpu : cpu.csrs.WellFormed) (hpriv : cpu.priv ≠ .m)
    {kept : BitVec 64} (hfields : supervisorFields &&& kept = supervisorFields)
    {cause tval : BitVec 64} (hhandled : Handled sepc kept (cpu.enterTrap cause tval true) later)
    (len : BitVec 64) : Undone kept [5] [8] cpu later (later.sret.retire len) := by
  have hentered := enterTrap_supervisor hcpu cause tval
  obtain ⟨hpc, hresumed, hstatus⟩ := sret_spec hhandled.wellFormed len
  have hlater {bit : ℕ} (hkept : kept.getLsbD bit) (hlt : bit < 64) :
      (later.csrs.regs mstatus).getLsbD bit =
        if bit = 1 then false
        else if bit = 5 then (cpu.csrs.regs mstatus).getLsbD 1
        else if bit = 8 then cpu.priv.toBits.getLsbD 0
        else (cpu.csrs.regs mstatus).getLsbD bit := by
    rw [hhandled.bit hkept, hentered.status, getLsbD_supervisorEntry _ _ hlt]
  have hafter {bit : ℕ} (hlt : bit < 64) :
      ((later.sret.retire len).csrs.read mstatus).getLsbD bit =
        if bit = 1 then (later.csrs.regs mstatus).getLsbD 5
        else if bit = 5 then true
        else if bit = 8 then false
        else (later.csrs.regs mstatus).getLsbD bit := by
    rw [← getLsbD_supervisorReturn _ hlt, ← hstatus]
    rfl
  have hfield {bit : ℕ} (hbit : supervisorFields.getLsbD bit) := kept_of_fields hfields hbit
  refine ⟨?_, ?_, ?_, ?_, ?_, ?_⟩
  · rw [hpc]
    exact hhandled.epc.trans hentered.epc
  · rw [hresumed, hlater (hfield (by decide : supervisorFields.getLsbD 8)) (by decide)]
    cases hcase : cpu.priv with
    | u => rfl
    | s => rfl
    | m => exact absurd hcase hpriv
  · intro bit hbit
    rw [List.mem_singleton.mp hbit]
    exact hafter (by decide)
  · intro bit hbit
    rw [List.mem_singleton.mp hbit]
    exact hafter (by decide)
  · intro bit hlt hpie hpp hkept
    rw [hafter hlt]
    by_cases hsie : bit = 1
    · -- the enable comes back from where the entry saved it
      subst hsie
      exact hlater (hfield (by decide : supervisorFields.getLsbD 5)) (by decide)
    · rw [List.mem_singleton] at hpie hpp
      rw [if_neg hsie, if_neg hpie, if_neg hpp, hlater hkept hlt, if_neg hsie, if_neg hpie,
        if_neg hpp]
      rfl
  · intro bit hlt hpie hpp hkept
    have hsie : bit ≠ 1 := by
      rintro rfl
      exact hkept (hfield (by decide : supervisorFields.getLsbD 1))
    rw [List.mem_singleton] at hpie hpp
    rw [hafter hlt, if_neg hsie, if_neg hpie, if_neg hpp]
    rfl

/-- The bits `mret` to a privilege clears. -/
def machineCleared (priv : Priv) : List ℕ := if priv = .m then [11, 12] else [11, 12, 17]

theorem mem_machineCleared {priv : Priv} {bit : ℕ} :
    bit ∈ machineCleared priv ↔ bit = 11 ∨ bit = 12 ∨ bit = 17 ∧ priv ≠ .m := by
  cases priv <;> simp [machineCleared]

/-- **`mret` undoes a trap to M-mode**, and clears `MPRV` when it leaves M-mode. -/
theorem mret_undoes {cpu later : Cpu} (hcpu : cpu.csrs.WellFormed)
    {kept : BitVec 64} (hfields : machineFields &&& kept = machineFields)
    {cause tval : BitVec 64} (hhandled : Handled mepc kept (cpu.enterTrap cause tval false) later)
    (len : BitVec 64) :
    Undone kept [7] (machineCleared cpu.priv) cpu later (later.mret.retire len) := by
  have hentered := enterTrap_machine_entered hcpu cause tval
  have hlater {bit : ℕ} (hkept : kept.getLsbD bit) (hlt : bit < 64) :
      (later.csrs.regs mstatus).getLsbD bit =
        if bit = 3 then false
        else if bit = 7 then (cpu.csrs.regs mstatus).getLsbD 3
        else if bit = 11 then cpu.priv.toBits.getLsbD 0
        else if bit = 12 then cpu.priv.toBits.getLsbD 1
        else (cpu.csrs.regs mstatus).getLsbD bit := by
    rw [hhandled.bit hkept, hentered.status, getLsbD_machineEntry _ _ hlt]
  have hfield {bit : ℕ} (hbit : machineFields.getLsbD bit) := kept_of_fields hfields hbit
  have hmpp : (later.csrs.regs mstatus >>> 11) &&& 0b11 = cpu.priv.toBits := privilege_eq
    (hlater (hfield (by decide : machineFields.getLsbD 11)) (by decide))
    (hlater (hfield (by decide : machineFields.getLsbD 12)) (by decide))
  obtain ⟨hpc, hresumed, hstatus⟩ := mret_spec hhandled.wellFormed hmpp len
  have hafter {bit : ℕ} (hlt : bit < 64) :
      ((later.mret.retire len).csrs.read mstatus).getLsbD bit =
        if bit = 3 then (later.csrs.regs mstatus).getLsbD 7
        else if bit = 7 then true
        else if bit = 11 then false
        else if bit = 12 then false
        else if bit = 17 ∧ cpu.priv ≠ .m then false
        else (later.csrs.regs mstatus).getLsbD bit := by
    rw [← getLsbD_machineReturn _ _ hlt, ← hstatus]
    rfl
  refine ⟨?_, hresumed, ?_, ?_, ?_, ?_⟩
  · rw [hpc]
    exact hhandled.epc.trans hentered.epc
  · intro bit hbit
    rw [List.mem_singleton.mp hbit]
    exact hafter (by decide)
  · intro bit hbit
    obtain rfl | rfl | ⟨rfl, hbelow⟩ := mem_machineCleared.mp hbit
    · exact hafter (by decide)
    · exact hafter (by decide)
    · exact (hafter (by decide)).trans (if_pos (And.intro (Eq.refl 17) hbelow))
  · intro bit hlt hmpie hcleared hkept
    rw [hafter hlt]
    by_cases hmie : bit = 3
    · subst hmie
      exact hlater (hfield (by decide : machineFields.getLsbD 7)) (by decide)
    · rw [List.mem_singleton] at hmpie
      simp only [mem_machineCleared, not_or] at hcleared
      rw [if_neg hmie, if_neg hmpie, if_neg hcleared.1, if_neg hcleared.2.1, if_neg hcleared.2.2,
        hlater hkept hlt, if_neg hmie, if_neg hmpie, if_neg hcleared.1, if_neg hcleared.2.1]
      rfl
  · intro bit hlt hmpie hcleared hkept
    have hmie : bit ≠ 3 := by
      rintro rfl
      exact hkept (hfield (by decide : machineFields.getLsbD 3))
    rw [List.mem_singleton] at hmpie
    simp only [mem_machineCleared, not_or] at hcleared
    rw [hafter hlt, if_neg hmie, if_neg hmpie, if_neg hcleared.1, if_neg hcleared.2.1,
      if_neg hcleared.2.2]
    rfl

/-! ## Interrupts do not nest -/

/-- `check_interrupts` once it has recorded the timer. -/
def recorded (cpu : Cpu) (pending : Bool) : Cpu :=
  { cpu with csrs := cpu.csrs.write mip (timerBits pending (cpu.csrs.read mip)) }

/-- The interrupt `check_interrupts` takes. -/
def interruptTaken (cpu : Cpu) (pending : Bool) : Option Interrupt :=
  let mip := timerBits pending (cpu.csrs.read mip)
  let cpu := cpu.recorded pending
  if mip &&& mtip ≠ 0 ∧ cpu.csrs.read mie &&& mtip ≠ 0 ∧ cpu.interruptEnabled false then
    some .machineTimer
  else if mip &&& stip ≠ 0 ∧ cpu.csrs.read mie &&& stip ≠ 0 ∧ cpu.interruptEnabled true then
    some .supervisorTimer
  else none

/-- `check_interrupts` enters the trap of the interrupt it takes. -/
theorem checkInterrupts_eq (cpu : Cpu) (pending : Bool) :
    cpu.checkInterrupts pending =
      match cpu.interruptTaken pending with
      | some interrupt =>
          (cpu.recorded pending).enterTrap interrupt.cause 0 (interrupt = .supervisorTimer)
      | none => cpu.recorded pending := by
  rw [checkInterrupts, interruptTaken, recorded]
  dsimp only
  split
  · rfl
  · split
    · rfl
    · rfl

/-- In S-mode with interrupts off no interrupt of that level is taken. -/
theorem interruptTaken_ne {cpu : Cpu} (hpriv : cpu.priv = .s)
    (hsie : (cpu.csrs.regs mstatus).getLsbD 1 = false) (pending : Bool) :
    cpu.interruptTaken pending ≠ some .supervisorTimer := by
  have hstatus : (cpu.recorded pending).csrs.regs mstatus = cpu.csrs.regs mstatus :=
    Csrs.write_regs_of_ne cpu.csrs _ (show mstatus ≠ Csrs.target mip by decide)
  have hoff : (cpu.recorded pending).interruptEnabled true = false := by
    have hbit : ¬ ((cpu.recorded pending).csrs.read mstatus >>> 1) &&& 1 = 1 := by
      rw [bit_eq_one]
      change ¬ ((cpu.recorded pending).csrs.regs mstatus).getLsbD 1 = true
      rw [hstatus, hsie]
      exact Bool.false_ne_true
    rw [interruptEnabled, if_pos rfl, show (cpu.recorded pending).priv = .s from hpriv]
    exact decide_eq_false hbit
  rw [interruptTaken, hoff]
  split
  · exact fun heq => nomatch heq
  · rw [if_neg (fun hboth => Bool.false_ne_true hboth.2.2)]
    exact fun heq => nomatch heq

/-- **An S-mode interrupt is not interrupted** by the next check. -/
theorem interruptTaken_once {cpu : Cpu} (hcpu : cpu.csrs.WellFormed) {pending : Bool}
    (htaken : cpu.interruptTaken pending = some .supervisorTimer) (pending' : Bool) :
    (cpu.checkInterrupts pending).interruptTaken pending' ≠ some .supervisorTimer := by
  have hrecorded : (cpu.recorded pending).csrs.WellFormed :=
    hcpu.write mip (timerBits pending (cpu.csrs.read mip))
  have hentered := enterTrap_supervisor hrecorded Interrupt.supervisorTimer.cause 0
  rw [checkInterrupts_eq, htaken]
  apply interruptTaken_ne
  · rfl
  · dsimp only
    rw [decide_eq_true rfl, hentered.status]
    exact getLsbD_supervisorEntry _ _ (by decide)

/-- **Returns undo traps**, and a taken S-mode interrupt keeps the next one out.  Between
a trap and its return a handler may do anything that leaves the return address and
a set of the status bits which contains the fields of the level. -/
theorem returns_undo_traps :
    (∀ (cpu later : Cpu) (kept cause tval len : BitVec 64), cpu.csrs.WellFormed →
      cpu.priv ≠ .m → supervisorFields &&& kept = supervisorFields →
      Handled sepc kept (cpu.enterTrap cause tval true) later →
      Undone kept [5] [8] cpu later (later.sret.retire len)) ∧
    (∀ (cpu later : Cpu) (kept cause tval len : BitVec 64), cpu.csrs.WellFormed →
      machineFields &&& kept = machineFields →
      Handled mepc kept (cpu.enterTrap cause tval false) later →
      Undone kept [7] (machineCleared cpu.priv) cpu later (later.mret.retire len)) ∧
    ∀ (cpu : Cpu) (pending pending' : Bool), cpu.csrs.WellFormed →
      cpu.interruptTaken pending = some .supervisorTimer →
      (cpu.checkInterrupts pending).interruptTaken pending' ≠ some .supervisorTimer :=
  ⟨fun _ _ _ _ _ len hcpu hpriv hfields hhandled => sret_undoes hcpu hpriv hfields hhandled len,
    fun _ _ _ _ _ len hcpu hfields hhandled => mret_undoes hcpu hfields hhandled len,
    fun _ _ pending' hcpu htaken => interruptTaken_once hcpu htaken pending'⟩

/-- A page fault in U-mode and a call in S-mode at reset, whose handlers return at
once, and a timer interrupt of U-mode. -/
theorem returns_undo_traps_at_once :
    let user : Cpu := { Cpu.new 0x80200000 with priv := .u }
    let fault := user.enterTrap (Exception.cause (.loadPageFault 0)) 0 true
    let kernel : Cpu := { Cpu.new 0x80200000 with priv := .s }
    let call := kernel.enterTrap (Exception.cause .environmentCallFromSMode) 0 false
    let ticking : Cpu := { user with csrs := user.csrs.write mie stip }
    Undone sstatusMask [5] [8] user fault (fault.sret.retire 4) ∧
      Undone (.allOnes 64) [7] [11, 12, 17] kernel call (call.mret.retire 4) ∧
      (ticking.checkInterrupts true).interruptTaken true ≠ some .supervisorTimer := by
  intro user fault kernel call ticking
  have huser : user.csrs.WellFormed := Csrs.wellFormed_default
  have hkernel : kernel.csrs.WellFormed := Csrs.wellFormed_default
  have hticking : ticking.csrs.WellFormed := huser.write mie stip
  have hfault := enterTrap_supervisor huser (Exception.cause (.loadPageFault 0)) 0
  have hcall := enterTrap_machine_entered hkernel (Exception.cause .environmentCallFromSMode) 0
  refine ⟨?_, ?_, ?_⟩
  · exact returns_undo_traps.1 user fault sstatusMask (Exception.cause (.loadPageFault 0)) 0 4
      huser (by decide) (by decide) (hfault.handled sstatusMask)
  · exact returns_undo_traps.2.1 kernel call (.allOnes 64)
      (Exception.cause .environmentCallFromSMode) 0 4 hkernel (by decide)
      (hcall.handled (.allOnes 64))
  · exact returns_undo_traps.2.2 ticking true true hticking (by decide)

end Cpu

end Baonix.Core

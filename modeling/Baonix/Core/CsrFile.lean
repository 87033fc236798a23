import Baonix.Core.Csr
import Baonix.Lib.Bits

/-!
# The register file stays well formed

Every register has its own rule for the values it holds, and three supervisor
registers are views of machine registers under a mask.  The rules hold after any
sequence of writes, and writing back what a register reads changes nothing.
-/

namespace Baonix.Core.Csrs

open Baonix.Bits Csr

/-! ## Rules -/

/-- `satp.ASID`. -/
def satpAsid : BitVec 64 := (0xFFFF : BitVec 64) <<< 44

/-- `satp.MODE` names bare addressing or three-level paging. -/
def supportedMode (v : BitVec 64) : Prop := v >>> 60 = 0 ∨ v >>> 60 = 8

/-- The registers of the absent debug triggers. -/
def isTrigger (addr : Addr) : Prop := tselect ≤ addr ∧ addr ≤ tcontrol

instance (v : BitVec 64) : Decidable (supportedMode v) := inferInstanceAs (Decidable (_ ∨ _))

instance (addr : Addr) : Decidable (isTrigger addr) := inferInstanceAs (Decidable (_ ∧ _))

/-- The values a register may hold. -/
def Legal (addr : Addr) (v : BitVec 64) : Prop :=
  if addr = satp then supportedMode v ∧ v &&& satpAsid = 0
  else if addr = mtvec ∨ addr = stvec then v &&& 3 = 0
  else if addr = mstatus then v &&& mstatusXlenFields = mstatusXlenRv64
  else if addr = misa then v = default.regs misa
  else if isTrigger addr then v = 0
  else True

instance (addr : Addr) (v : BitVec 64) : Decidable (Legal addr v) := by
  unfold Legal
  infer_instance

/-- Every register holds a value it may hold. -/
def WellFormed (c : Csrs) : Prop := ∀ addr, Legal addr (c.regs addr)

/-- A register whose writes follow no rule of their own. -/
def isPlain (addr : Addr) : Prop :=
  addr ∉ [sstatus, mstatus, mtvec, stvec, satp, sie, sip, misa] ∧ ¬ isTrigger addr

instance (addr : Addr) : Decidable (isPlain addr) := inferInstanceAs (Decidable (_ ∧ _))

/-- The arms of `write`. -/
theorem addr_cases (addr : Addr) : addr = sstatus ∨ addr = mstatus ∨ addr = mtvec ∨
    addr = stvec ∨ addr = satp ∨ addr = sie ∨ addr = sip ∨ addr = misa ∨ isTrigger addr ∨
    isPlain addr := by
  rw [isPlain]
  simp only [List.mem_cons, List.not_mem_nil]
  tauto

theorem ne_of_isTrigger {addr : Addr} (haddr : isTrigger addr) (other : Addr)
    (hother : ¬ isTrigger other) : addr ≠ other := by
  rintro rfl
  exact hother haddr

/-! ## What one write does -/

section Writes

variable (c : Csrs) (v : BitVec 64)

theorem write_sstatus : c.write sstatus v = c.set mstatus (merge sstatusWritable (c.regs mstatus) v) :=
  rfl

theorem write_mstatus :
    c.write mstatus v = c.set mstatus (v &&& ~~~mstatusXlenFields ||| mstatusXlenRv64) := rfl

theorem write_mtvec : c.write mtvec v = c.set mtvec (v &&& ~~~3) := rfl

theorem write_stvec : c.write stvec v = c.set stvec (v &&& ~~~3) := rfl

theorem write_sie : c.write sie v = c.set mie (merge (c.regs mideleg) (c.regs mie) v) := rfl

theorem write_sip : c.write sip v = c.set mip (merge (c.regs mideleg) (c.regs mip) v) := rfl

theorem write_misa : c.write misa v = c := rfl

theorem write_satp : c.write satp v = if supportedMode v then c.set satp (v &&& ~~~satpAsid) else c :=
  rfl

theorem write_trigger {addr : Addr} (haddr : isTrigger addr) : c.write addr v = c := by
  have hne := @ne_of_isTrigger addr haddr
  rw [write, if_neg (hne sstatus (by decide)), if_neg (hne mstatus (by decide)),
    if_neg (not_or.mpr ⟨hne mtvec (by decide), hne stvec (by decide)⟩),
    if_neg (hne satp (by decide))]
  exact if_pos haddr

theorem write_plain {addr : Addr} (haddr : isPlain addr) : c.write addr v = c.set addr v := by
  obtain ⟨hother, htrigger⟩ := haddr
  simp only [List.mem_cons, List.not_mem_nil, or_false, not_or] at hother
  obtain ⟨hsstatus, hmstatus, hmtvec, hstvec, hsatp, hsie, hsip, hmisa⟩ := hother
  rw [write, if_neg hsstatus, if_neg hmstatus, if_neg (not_or.mpr ⟨hmtvec, hstvec⟩), if_neg hsatp]
  refine (if_neg htrigger).trans ?_
  rw [if_neg hsie, if_neg hsip, if_neg hmisa]

theorem read_plain {addr : Addr} (haddr : isPlain addr) : c.read addr = c.regs addr := by
  have hother := haddr.1
  simp only [List.mem_cons, List.not_mem_nil, or_false, not_or] at hother
  obtain ⟨hsstatus, -, -, -, -, hsie, hsip, -⟩ := hother
  rw [read, if_neg hsstatus, if_neg hsie, if_neg hsip]

end Writes

/-! ## The rules are kept -/

theorem legal_of_no_rule {addr : Addr} (haddr : addr ∉ [satp, mtvec, stvec, mstatus, misa])
    (htrigger : ¬ isTrigger addr) (v : BitVec 64) : Legal addr v := by
  simp only [List.mem_cons, List.not_mem_nil, or_false, not_or] at haddr
  obtain ⟨hsatp, hmtvec, hstvec, hmstatus, hmisa⟩ := haddr
  rw [Legal, if_neg hsatp, if_neg (not_or.mpr ⟨hmtvec, hstvec⟩), if_neg hmstatus, if_neg hmisa,
    if_neg htrigger]
  trivial

theorem legal_trigger {addr : Addr} (haddr : isTrigger addr) : Legal addr 0 := by
  have hne := @ne_of_isTrigger addr haddr
  rw [Legal, if_neg (hne satp (by decide)),
    if_neg (not_or.mpr ⟨hne mtvec (by decide), hne stvec (by decide)⟩),
    if_neg (hne mstatus (by decide)), if_neg (hne misa (by decide)), if_pos haddr]

theorem legal_mstatus (v : BitVec 64) :
    Legal mstatus (v &&& ~~~mstatusXlenFields ||| mstatusXlenRv64) := by
  have hwithin : mstatusXlenRv64 &&& mstatusXlenFields = mstatusXlenRv64 := by decide
  have hfields := masked_and_self mstatusXlenFields v mstatusXlenRv64
  rwa [hwithin] at hfields

theorem legal_satp {v : BitVec 64} (hmode : supportedMode v) : Legal satp (v &&& ~~~satpAsid) := by
  have hkept : (v &&& ~~~satpAsid) >>> 60 = v >>> 60 &&& 15 := by
    rw [BitVec.ushiftRight_and_distrib]
    rfl
  refine ⟨?_, and_not_and v satpAsid⟩
  rw [supportedMode, hkept]
  rcases hmode with hbare | hpaged
  · rw [hbare]
    exact .inl rfl
  · rw [hpaged]
    exact .inr rfl

theorem legal_plain {addr : Addr} (haddr : isPlain addr) (v : BitVec 64) : Legal addr v := by
  apply legal_of_no_rule _ haddr.2
  have hruled : [satp, mtvec, stvec, mstatus, misa] ⊆
      [sstatus, mstatus, mtvec, stvec, satp, sie, sip, misa] := by decide
  exact fun hmem => haddr.1 (hruled hmem)

theorem WellFormed.set {c : Csrs} (hc : c.WellFormed) {addr : Addr} {v : BitVec 64}
    (hlegal : Legal addr v) : (c.set addr v).WellFormed := by
  intro other
  by_cases hother : other = addr
  · subst hother
    rw [set_regs_self]
    exact hlegal
  · rw [set_regs_of_ne c v hother]
    exact hc other

theorem default_trigger {addr : Addr} (haddr : isTrigger addr) : default.regs addr = 0 := by
  have hne := @ne_of_isTrigger addr haddr
  rw [default, set_regs_of_ne _ _ (hne medeleg (by decide)), set_regs_of_ne _ _ (hne mstatus (by decide)),
    set_regs_of_ne _ _ (hne mideleg (by decide)), set_regs_of_ne _ _ (hne misa (by decide))]

theorem wellFormed_default : default.WellFormed := by
  intro addr
  rcases addr_cases addr with rfl | rfl | rfl | rfl | rfl | rfl | rfl | rfl | htrigger | hplain
  case inr.inr.inr.inr.inr.inr.inr.inr.inl =>
    rw [default_trigger htrigger]
    exact legal_trigger htrigger
  case inr.inr.inr.inr.inr.inr.inr.inr.inr => exact legal_plain hplain _
  all_goals decide

/-- One write keeps the rules. -/
theorem WellFormed.write {c : Csrs} (hc : c.WellFormed) (addr : Addr) (v : BitVec 64) :
    (c.write addr v).WellFormed := by
  rcases addr_cases addr with rfl | rfl | rfl | rfl | rfl | rfl | rfl | rfl | htrigger | hplain
  · rw [write_sstatus]
    apply hc.set
    change merge sstatusWritable (c.regs mstatus) v &&& mstatusXlenFields = mstatusXlenRv64
    rw [merge, masked_and (by decide)]
    exact hc mstatus
  · exact hc.set (legal_mstatus v)
  · exact hc.set (and_not_and v 3)
  · exact hc.set (and_not_and v 3)
  · rw [write_satp]
    split
    · exact hc.set (legal_satp ‹_›)
    · exact hc
  · exact hc.set (legal_of_no_rule (by decide) (by decide) _)
  · exact hc.set (legal_of_no_rule (by decide) (by decide) _)
  · exact hc
  · rw [write_trigger c v htrigger]
    exact hc
  · rw [write_plain c v hplain]
    exact hc.set (legal_plain hplain v)

/-! ## Views -/

/-- A supervisor register that shows part of a machine register. -/
inductive View
  | status
  | interruptEnable
  | interruptPending

namespace View

def addr : View → Addr
  | status => sstatus
  | interruptEnable => sie
  | interruptPending => sip

/-- The register behind the view. -/
def storage : View → Addr
  | status => mstatus
  | interruptEnable => mie
  | interruptPending => mip

/-- The bits shown. -/
def mask (c : Csrs) : View → BitVec 64
  | status => sstatusMask
  | interruptEnable => c.read mideleg
  | interruptPending => c.read mideleg

end View

theorem read_view (c : Csrs) (view : View) :
    c.read view.addr = c.read view.storage &&& view.mask c := by
  cases view with
  | status => rfl
  | interruptEnable => rfl
  | interruptPending => rfl

/-- A write through a view stays under its mask. -/
theorem write_view (c : Csrs) (view : View) (v : BitVec 64) {bit : ℕ}
    (hbit : (view.mask c).getLsbD bit = false) :
    ((c.write view.addr v).read view.storage).getLsbD bit = (c.read view.storage).getLsbD bit := by
  cases view with
  | status =>
      have hhidden : sstatusMask.getLsbD bit = false := hbit
      have hunwritable : sstatusWritable.getLsbD bit = false := by
        rw [sstatusWritable, BitVec.getLsbD_and, hhidden, Bool.false_and]
      change (merge sstatusWritable (c.regs mstatus) v).getLsbD bit = _
      rw [merge, getLsbD_masked, hunwritable]
      rfl
  | interruptEnable =>
      change (merge (c.regs mideleg) (c.regs mie) v).getLsbD bit = _
      rw [merge, getLsbD_masked, show (c.regs mideleg).getLsbD bit = false from hbit]
      rfl
  | interruptPending =>
      change (merge (c.regs mideleg) (c.regs mip) v).getLsbD bit = _
      rw [merge, getLsbD_masked, show (c.regs mideleg).getLsbD bit = false from hbit]
      rfl

/-- The other registers are not behind the view. -/
theorem write_view_of_ne (c : Csrs) (view : View) (v : BitVec 64) {other : Addr}
    (hother : other ≠ view.storage) : (c.write view.addr v).regs other = c.regs other := by
  apply write_regs_of_ne
  cases view with
  | status => exact hother
  | interruptEnable => exact hother
  | interruptPending => exact hother

/-! ## Writing back -/

theorem set_eq_self {c : Csrs} {addr : Addr} {v : BitVec 64} (hsame : v = c.regs addr) :
    c.set addr v = c := by
  subst hsame
  exact congrArg Csrs.mk (Function.update_eq_self addr c.regs)

/-- What a view reads, merged back under its mask. -/
theorem merge_and {writable mask old : BitVec 64} (hwithin : mask &&& writable = writable) :
    merge writable old (old &&& mask) = old := by
  rw [merge, BitVec.and_assoc, hwithin]
  exact masked_self writable old

/-- **Writing back** what a register reads changes nothing. -/
theorem WellFormed.write_read {c : Csrs} (hc : c.WellFormed) (addr : Addr) :
    c.write addr (c.read addr) = c := by
  rcases addr_cases addr with rfl | rfl | rfl | rfl | rfl | rfl | rfl | rfl | htrigger | hplain
  · rw [write_sstatus]
    exact set_eq_self (merge_and (by decide))
  · have hxlen : c.regs mstatus &&& mstatusXlenFields = mstatusXlenRv64 := hc mstatus
    rw [write_mstatus, ← hxlen]
    exact set_eq_self (masked_self mstatusXlenFields (c.regs mstatus))
  · exact set_eq_self (and_not_of_and_eq_zero (hc mtvec))
  · exact set_eq_self (and_not_of_and_eq_zero (hc stvec))
  · obtain ⟨hmode, hasid⟩ : supportedMode (c.regs satp) ∧ c.regs satp &&& satpAsid = 0 := hc satp
    rw [write_satp]
    exact (if_pos hmode).trans (set_eq_self (and_not_of_and_eq_zero hasid))
  · exact set_eq_self (merge_and (BitVec.and_self ..))
  · exact set_eq_self (merge_and (BitVec.and_self ..))
  · exact write_misa c _
  · exact write_trigger c _ htrigger
  · rw [write_plain c _ hplain]
    exact set_eq_self (read_plain c hplain)

/-! ## Runs of writes -/

/-- The file after a sequence of writes. -/
def writeAll (c : Csrs) (writes : List (Addr × BitVec 64)) : Csrs :=
  writes.foldl (fun c write => c.write write.1 write.2) c

theorem WellFormed.writeAll {c : Csrs} (hc : c.WellFormed) (writes : List (Addr × BitVec 64)) :
    (c.writeAll writes).WellFormed := by
  induction writes generalizing c with
  | nil => exact hc
  | cons write rest ih => exact ih (hc.write write.1 write.2)

/-- What a register file promises its software. -/
structure Honest (c : Csrs) : Prop where
  wellFormed : c.WellFormed
  unsupported : ∀ v, ¬ supportedMode v → c.write satp v = c
  view : ∀ view : View, c.read view.addr = c.read view.storage &&& view.mask c
  outside : ∀ (view : View) v bit, (view.mask c).getLsbD bit = false →
    ((c.write view.addr v).read view.storage).getLsbD bit = (c.read view.storage).getLsbD bit
  others : ∀ (view : View) v other, other ≠ view.storage →
    (c.write view.addr v).regs other = c.regs other
  stable : ∀ addr, c.write addr (c.read addr) = c

/-- **The register file is honest after any writes.** -/
theorem honest_writeAll (writes : List (Addr × BitVec 64)) :
    (default.writeAll writes).Honest where
  wellFormed := wellFormed_default.writeAll writes
  unsupported v hmode := by rw [write_satp, if_neg hmode]
  view := read_view _
  outside view v _ hbit := write_view _ view v hbit
  others view v _ hother := write_view_of_ne _ view v hother
  stable := (wellFormed_default.writeAll writes).write_read

end Baonix.Core.Csrs

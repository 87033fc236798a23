import Baonix.Core.Exception

/-!
# Control and status registers

The whole 12-bit register space as a flat array.  What makes a register honest
is whether its address has an arm in `write`: the supervisor views of `mstatus`,
`mie` and `mip`, the trap vectors and `satp` with their unimplemented modes, and
the registers that ignore writes.
-/

namespace Baonix.Core

inductive Priv
  | u
  | s
  | m
  deriving DecidableEq

/-- `priv_ as u64`. -/
def Priv.toBits : Priv → BitVec 64
  | u => 0
  | s => 1
  | m => 3

namespace Csr

abbrev Addr := BitVec 12

def sstatus : Addr := 0x100
def sie : Addr := 0x104
def stvec : Addr := 0x105
def sscratch : Addr := 0x140
def sepc : Addr := 0x141
def scause : Addr := 0x142
def stval : Addr := 0x143
def sip : Addr := 0x144
def satp : Addr := 0x180

def mstatus : Addr := 0x300
def misa : Addr := 0x301
def medeleg : Addr := 0x302
def mideleg : Addr := 0x303
def mie : Addr := 0x304
def mtvec : Addr := 0x305
def mepc : Addr := 0x341
def mcause : Addr := 0x342
def mtval : Addr := 0x343
def mip : Addr := 0x344

def cycle : Addr := 0xC00
def time : Addr := 0xC01
def instret : Addr := 0xC02

def tselect : Addr := 0x7A0
def tcontrol : Addr := 0x7A5

/-- `mstatus.UXL` and `mstatus.SXL`. -/
def mstatusXlenFields : BitVec 64 := 0xF00000000

/-- Both fields set to 2, the encoding of a 64-bit machine. -/
def mstatusXlenRv64 : BitVec 64 := 2 <<< 32 ||| 2 <<< 34

def sstatusMask : BitVec 64 := 0x80000003000DE162

/-- The bits of `mstatus` a write of `sstatus` reaches. -/
def sstatusWritable : BitVec 64 := sstatusMask &&& ~~~mstatusXlenFields

end Csr

structure Csrs where
  regs : Csr.Addr → BitVec 64

namespace Csrs

open Csr

def set (c : Csrs) (addr : Addr) (v : BitVec 64) : Csrs := ⟨Function.update c.regs addr v⟩

@[simp]
theorem set_regs_self (c : Csrs) (addr : Addr) (v : BitVec 64) : (c.set addr v).regs addr = v :=
  Function.update_self ..

theorem set_regs_of_ne (c : Csrs) {addr other : Addr} (v : BitVec 64) (hother : other ≠ addr) :
    (c.set addr v).regs other = c.regs other :=
  Function.update_of_ne hother ..

/-- The registers firmware leaves behind: the instruction set, the delegated
interrupts and exceptions, and the register width. -/
def default : Csrs :=
  let ext : BitVec 64 := 1 <<< 0 ||| 1 <<< 2 ||| 1 <<< 8 ||| 1 <<< 12 ||| 1 <<< 18 ||| 1 <<< 20
  let exceptions : List Exception :=
    [.instructionAddressMisaligned 0, .instructionAccessFault 0, .breakpoint,
      .loadAddressMisaligned 0, .loadAccessFault 0, .storeAddressMisaligned 0,
      .storeAccessFault 0, .environmentCallFromUMode, .instructionPageFault 0,
      .loadPageFault 0, .storePageFault 0]
  let delegated := exceptions.foldl (fun bits e => bits ||| (1 : BitVec 64) <<< e.cause) 0
  ((((⟨fun _ => 0⟩ : Csrs).set misa (2 <<< 62 ||| ext)).set mideleg
    (1 <<< 1 ||| 1 <<< 5 ||| 1 <<< 9)).set mstatus mstatusXlenRv64).set medeleg delegated

def read (c : Csrs) (addr : Addr) : BitVec 64 :=
  if addr = sstatus then c.regs mstatus &&& sstatusMask
  else if addr = sie then c.regs mie &&& c.regs mideleg
  else if addr = sip then c.regs mip &&& c.regs mideleg
  else c.regs addr

/-- `(old & !mask) | (v & mask)`. -/
def merge (mask old v : BitVec 64) : BitVec 64 := old &&& ~~~mask ||| v &&& mask

def write (c : Csrs) (addr : Addr) (v : BitVec 64) : Csrs :=
  if addr = sstatus then c.set mstatus (merge sstatusWritable (c.regs mstatus) v)
  else if addr = mstatus then c.set mstatus (v &&& ~~~mstatusXlenFields ||| mstatusXlenRv64)
  else if addr = mtvec ∨ addr = stvec then c.set addr (v &&& ~~~3)
  else if addr = satp then
    -- an unsupported mode discards the whole write; no address-space identifiers
    if v >>> 60 = 0 ∨ v >>> 60 = 8 then c.set satp (v &&& ~~~((0xFFFF : BitVec 64) <<< 44)) else c
  else if tselect ≤ addr ∧ addr ≤ tcontrol then c
  else if addr = sie then c.set mie (merge (c.regs mideleg) (c.regs mie) v)
  else if addr = sip then c.set mip (merge (c.regs mideleg) (c.regs mip) v)
  else if addr = misa then c
  else c.set addr v

/-- The register a write of `addr` may change. -/
def target (addr : Addr) : Addr :=
  if addr = sstatus then mstatus
  else if addr = sie then mie
  else if addr = sip then mip
  else addr

theorem write_regs_of_ne (c : Csrs) {addr other : Addr} (v : BitVec 64)
    (hother : other ≠ target addr) : (c.write addr v).regs other = c.regs other := by
  unfold target at hother
  unfold write
  by_cases hsstatus : addr = sstatus
  · rw [if_pos hsstatus] at hother ⊢
    exact set_regs_of_ne c _ hother
  rw [if_neg hsstatus] at hother ⊢
  by_cases hsie : addr = sie
  · rw [if_pos hsie] at hother
    subst hsie
    exact set_regs_of_ne c _ hother
  rw [if_neg hsie] at hother
  by_cases hsip : addr = sip
  · rw [if_pos hsip] at hother
    subst hsip
    exact set_regs_of_ne c _ hother
  rw [if_neg hsip] at hother
  rw [if_neg hsie, if_neg hsip]
  split_ifs with hmstatus _ hsatp
  · exact set_regs_of_ne c _ (hmstatus ▸ hother)
  · exact set_regs_of_ne c _ hother
  · exact set_regs_of_ne c _ (hsatp ▸ hother)
  · rfl
  · rfl
  · rfl
  · exact set_regs_of_ne c _ hother

end Csrs

end Baonix.Core

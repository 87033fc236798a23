import Baonix.Core.Bus

/-!
# Address translation

`Mmu::translate`: the identity without paging or in M-mode, otherwise a direct
mapped translation buffer in front of a three-level walk.  A buffer entry keeps
the raw leaf, so that a hit makes the permission checks a walk makes.
-/

namespace Baonix.Core

inductive Access
  | fetch
  | load
  | store
  deriving DecidableEq

/-- `TLB_ENTRIES`. -/
abbrev tlbEntries : ℕ := 32

structure TlbEntry where
  valid : Bool
  vpn : BitVec 64
  ppn : BitVec 64
  perms : BitVec 64

def TlbEntry.default : TlbEntry := ⟨false, 0, 0, 0⟩

structure Mmu where
  tlb : Fin tlbEntries → TlbEntry
  walks : BitVec 64

/-- The memory system `translate` is given: the `Mmu` and the bus it walks on. -/
structure MemSystem (B S : Type) where
  mmu : Mmu
  bus : Bus B S

/-- One of the three levels of a walk. -/
abbrev Level := Fin 3

instance neZeroLevels : NeZero (3 : ℕ) := ⟨Nat.succ_ne_zero 2⟩

namespace Mmu

def default : Mmu := ⟨fun _ => .default, 0⟩

def flush (mmu : Mmu) : Mmu := { mmu with tlb := fun _ => .default }

def fault (access : Access) (vaddr : BitVec 64) : Exception :=
  match access with
  | .fetch => .instructionPageFault vaddr
  | .load => .loadPageFault vaddr
  | .store => .storePageFault vaddr

def slot (vpn : BitVec 64) : Fin tlbEntries := Fin.ofNat tlbEntries vpn.toNat

/-- Bit `n` of a page-table entry is set. -/
def bit (pte : BitVec 64) (n : ℕ) : Bool := pte &&& (1 : BitVec 64) <<< n ≠ 0

/-- The access right the kind of access needs. -/
def granted (pte : BitVec 64) : Access → Bool
  | .fetch => bit pte 3
  | .load => bit pte 1
  | .store => bit pte 2

def checkPerms (pte : BitVec 64) (priv : Priv) (access : Access) (vaddr : BitVec 64) :
    Except Exception Unit :=
  if ¬ granted pte access then .error (fault access vaddr)
  else if priv = .u ∧ ¬ bit pte 4 then .error (fault access vaddr)
  else if ¬ bit pte 6 ∨ access = .store ∧ ¬ bit pte 7 then .error (fault access vaddr)
  else .ok ()

/-- `idx[level]`. -/
def index (vaddr : BitVec 64) : Level → BitVec 64
  | 0 => (vaddr >>> 30) &&& 0x1FF
  | 1 => (vaddr >>> 21) &&& 0x1FF
  | 2 => (vaddr >>> 12) &&& 0x1FF

/-- The page number an entry holds. -/
def ppnOf (pte : BitVec 64) : BitVec 64 := (pte >>> 10) &&& 0x0FFFFFFFFFFF

def isLeaf (pte : BitVec 64) : Bool := pte &&& 0b1110 ≠ 0

/-- The page-number bits a superpage leaves to the virtual address. -/
def superpageMask : Level → BitVec 64
  | 0 => 0x3FFFF
  | 1 => 0x1FF
  | 2 => 0

/-- Splices the untranslated bits into the page number of a leaf. -/
def splice (ppn vaddr : BitVec 64) : Level → BitVec 64
  | 0 => ppn &&& ~~~(0x3FFFF : BitVec 64) ||| (vaddr >>> 12) &&& 0x3FFFF
  | 1 => ppn &&& ~~~(0x1FF : BitVec 64) ||| (vaddr >>> 12) &&& 0x1FF
  | 2 => ppn

/-- `(ppn << 12) | (vaddr & 0xFFF)`. -/
def physical (ppn vaddr : BitVec 64) : BitVec 64 := ppn <<< 12 ||| vaddr &&& 0xFFF

variable {B S : Type} [MemBacking B]

/-- What the load of an entry failing means for the walk. -/
def walkError (access : Access) (vaddr : BitVec 64) : Exception → Exception
  | .backingFailure addr => .backingFailure addr
  | _ => fault access vaddr

def loadPte (access : Access) (vaddr pteAddr : BitVec 64) :
    Exec Exception (MemSystem B S) (BitVec 64) :=
  Exec.zoom (·.bus) (fun system bus => { system with bus := bus }) (walkError access vaddr)
    (Bus.load pteAddr 8)

/-- Fills the entry of the buffer a page maps to. -/
def fill (vaddr ppn pte : BitVec 64) (mmu : Mmu) : Mmu :=
  { mmu with
    tlb := Function.update mmu.tlb (slot (vaddr >>> 12)) ⟨true, vaddr >>> 12, ppn, pte⟩ }

/-- The loop of the walk over the levels that are left. -/
def walk (priv : Priv) (access : Access) (vaddr : BitVec 64) :
    List Level → BitVec 64 → Exec Exception (MemSystem B S) (BitVec 64)
  | [], _ => Exec.raise (fault access vaddr)
  | level :: levels, table => do
      let pte ← loadPte access vaddr (table + index vaddr level * 8)
      if pte &&& 1 = 0 then Exec.raise (fault access vaddr)
      else if isLeaf pte then do
        Exec.ofExcept (checkPerms pte priv access vaddr)
        if ppnOf pte &&& superpageMask level ≠ 0 then Exec.raise (fault access vaddr)
        else do
          let ppn := splice (ppnOf pte) vaddr level
          Exec.update fun system => { system with mmu := system.mmu.fill vaddr ppn pte }
          pure (physical ppn vaddr)
      else walk priv access vaddr levels (ppnOf pte <<< 12)

/-- The table `satp` points to. -/
def root (satp : BitVec 64) : BitVec 64 := (satp &&& 0x0FFFFFFFFFFF) <<< 12

/-- Paging is on: `satp` selects Sv39 and the privilege is below M. -/
def paging (csrs : Csrs) (priv : Priv) : Prop :=
  csrs.read Csr.satp >>> 60 = 8 ∧ priv ≠ .m

instance (csrs : Csrs) (priv : Priv) : Decidable (paging csrs priv) := instDecidableAnd

def translate (csrs : Csrs) (priv : Priv) (vaddr : BitVec 64) (access : Access) :
    Exec Exception (MemSystem B S) (BitVec 64) :=
  if ¬ paging csrs priv then pure vaddr
  else do
    let entry := (← Exec.read).mmu.tlb (slot (vaddr >>> 12))
    if entry.valid ∧ entry.vpn = vaddr >>> 12 then do
      Exec.ofExcept (checkPerms entry.perms priv access vaddr)
      pure (physical entry.ppn vaddr)
    else do
      Exec.update fun system =>
        { system with mmu := { system.mmu with walks := system.mmu.walks + 1 } }
      walk priv access vaddr [0, 1, 2] (root (csrs.read Csr.satp))

end Mmu

end Baonix.Core

import Baonix.Core.Framed
import Baonix.Core.PageWalk
import Baonix.Lib.Bits

/-!
# What an access does

The bus serves an access whose bytes all lie in RAM, in the interruptor's window
or in the UART's, and refuses the others.  A translation reads memory and the
devices but changes no byte of RAM, and keeps the offset in the page.
-/

namespace Baonix.Core

open Baonix.LittleEndian
open PageCache (Holds StoredUpTo Width)

namespace Bus

/-- The whole access lies in one of the windows. -/
def inSomeWindow (addr : BitVec 64) (size : ℕ) : Prop :=
  inRam addr size ∨ isClint addr size ∨ isUart addr size

instance (addr : BitVec 64) (size : ℕ) : Decidable (inSomeWindow addr size) :=
  inferInstanceAs (Decidable (_ ∨ _))

/-- An access the bus does not refuse. -/
def Served (addr : BitVec 64) (size : ℕ) : Prop :=
  (widthOf size).isSome ∧ inSomeWindow addr size

instance (addr : BitVec 64) (size : ℕ) : Decidable (Served addr size) :=
  inferInstanceAs (Decidable (_ ∧ _))

theorem eq_of_widthOf {size : ℕ} {width : Width} (hwidth : widthOf size = some width) :
    (width : ℕ) = size := by
  unfold widthOf at hwidth
  split at hwidth <;> first | cases hwidth; rfl | cases hwidth

/-- The bytes a store of a value writes. -/
def bytesOf (size : ℕ) (value : BitVec 64) : List Byte := (toBytes 8 value.toNat).take size

theorem length_bytesOf {size : ℕ} (hsize : size ≤ 8) (value : BitVec 64) :
    (bytesOf size value).length = size := by
  rw [bytesOf, List.length_take, length_toBytes]
  omega

variable {B S : Type}

/-- What a load answers. -/
def answer (m : Memory) (bus : Bus B S) (addr : BitVec 64) (size : ℕ) : BitVec 64 :=
  if inRam addr size then BitVec.ofNat 64 (ofBytes (m.read addr.toNat size))
  else if isClint addr size then bus.clint.load (addr - clintBase)
  else (bus.uart.load (addr - uartBase)).1

/-- RAM after a store. -/
def stored (m : Memory) (addr : BitVec 64) (size : ℕ) (value : BitVec 64) : Memory :=
  if inRam addr size then m.write addr.toNat (bytesOf size value) else m

variable [FlatBacking B]

/-- RAM and the interruptor are as before. -/
structure Quiet (m : Memory) (bus after : Bus B S) : Prop where
  holds : Holds m after.cache
  clint : after.clint = bus.clint

theorem Quiet.refl {m : Memory} {bus : Bus B S} (hbus : Holds m bus.cache) : Quiet m bus bus :=
  ⟨hbus, rfl⟩

theorem Quiet.trans {m : Memory} {bus middle after : Bus B S} (hleft : Quiet m bus middle)
    (hright : Quiet m middle after) : Quiet m bus after :=
  ⟨hright.holds, hright.clint.trans hleft.clint⟩

/-- Why a load failed. -/
def LoadRefused (B : Type) [MemBacking B] (addr : BitVec 64) (size : ℕ) (err : Exception) :
    Prop :=
  err = .loadAccessFault addr ∧ ¬ Served addr size ∨
    err = .backingFailure addr ∧ inRam addr size ∧ Fallible B

/-- **A load** changes neither RAM nor the interruptor. -/
theorem load_spec {m : Memory} {bus : Bus B S} (hbus : Holds m bus.cache) (addr : BitVec 64)
    (size : ℕ) :
    Exec.wp (load addr size)
      (fun value after => Quiet m bus after ∧ Served addr size ∧ value = answer m bus addr size)
      (fun err after => Quiet m bus after ∧ LoadRefused B addr size err) False bus := by
  rw [load, answer]
  cases hwidth : widthOf size with
  | none =>
      refine ⟨.refl hbus, .inl ⟨rfl, ?_⟩⟩
      rintro ⟨hsome, -⟩
      rw [hwidth] at hsome
      cases hsome
  | some width =>
      have hsome : (widthOf size).isSome := by rw [hwidth]; rfl
      dsimp only
      rw [Exec.wp_ite]
      by_cases hram : inRam addr size
      · rw [if_pos hram, if_pos hram, onCache, Exec.wp_zoom]
        apply (PageCache.readLe_spec width addr.toNat hbus).imp
        · rintro value cache ⟨hholds, hvalue⟩
          rw [eq_of_widthOf hwidth] at hvalue
          exact ⟨⟨hholds, rfl⟩, ⟨hsome, .inl hram⟩, hvalue⟩
        · rintro err cache ⟨hholds, hfallible⟩
          rw [eq_of_widthOf hwidth] at hfallible
          exact ⟨⟨hholds, rfl⟩, .inr ⟨rfl, hram, hfallible (inRam_iff.mp hram)⟩⟩
        · exact fun hfalse => hfalse
      rw [if_neg hram, if_neg hram, Exec.wp_ite]
      by_cases hclint : isClint addr size
      · rw [if_pos hclint, if_pos hclint]
        exact ⟨.refl hbus, ⟨hsome, .inr (.inl hclint)⟩, rfl⟩
      rw [if_neg hclint, if_neg hclint, Exec.wp_ite]
      by_cases huart : isUart addr size
      · rw [if_pos huart]
        exact ⟨⟨hbus, rfl⟩, ⟨hsome, .inr (.inr huart)⟩, rfl⟩
      · rw [if_neg huart]
        refine ⟨.refl hbus, .inl ⟨rfl, ?_⟩⟩
        rintro ⟨-, hwindow | hwindow | hwindow⟩
        · exact hram hwindow
        · exact hclint hwindow
        · exact huart hwindow

/-- How a store failed, and what it left. -/
def StoreRefused (m : Memory) (addr : BitVec 64) (size : ℕ) (value : BitVec 64)
    (err : Exception) (after : Bus B S) : Prop :=
  err = .storeAccessFault addr ∧ ¬ Served addr size ∧ Holds m after.cache ∨
    err = .backingFailure addr ∧ inRam addr size ∧ Fallible B ∧
      ∃ left, StoredUpTo m addr.toNat (bytesOf size value) left ∧ Holds left after.cache

/-- **A store** writes the bytes of the value, if it goes to RAM. -/
theorem store_spec [ConsoleSink S] {m : Memory} {bus : Bus B S} (hbus : Holds m bus.cache)
    (addr : BitVec 64) (size : ℕ) (value : BitVec 64) :
    Exec.wp (store addr size value)
      (fun _ after => Holds (stored m addr size value) after.cache ∧ Served addr size)
      (fun err after => StoreRefused m addr size value err after) False bus := by
  rw [store, stored]
  cases hwidth : widthOf size with
  | none =>
      refine .inl ⟨rfl, ?_, hbus⟩
      rintro ⟨hsome, -⟩
      rw [hwidth] at hsome
      cases hsome
  | some width =>
      have hsome : (widthOf size).isSome := by rw [hwidth]; rfl
      dsimp only
      rw [Exec.wp_ite]
      by_cases hram : inRam addr size
      · rw [if_pos hram, if_pos hram, onCache, Exec.wp_zoom]
        have hbytes : PageCache.leBytes width value = bytesOf size value := by
          rw [PageCache.leBytes, bytesOf, eq_of_widthOf hwidth]
        apply (PageCache.writeLe_spec width addr.toNat value hbus).imp
        · intro _ cache hholds
          rw [hbytes] at hholds
          exact ⟨hholds, hsome, .inl hram⟩
        · rintro err cache ⟨⟨left, hleft, hholds⟩, hfallible⟩
          rw [hbytes] at hleft
          rw [eq_of_widthOf hwidth] at hfallible
          exact .inr ⟨rfl, hram, hfallible (inRam_iff.mp hram), left, hleft, hholds⟩
        · exact fun hfalse => hfalse
      rw [if_neg hram, if_neg hram, Exec.wp_ite]
      by_cases hclint : isClint addr size
      · rw [if_pos hclint]
        exact ⟨hbus, hsome, .inr (.inl hclint)⟩
      rw [if_neg hclint, Exec.wp_ite]
      by_cases huart : isUart addr size
      · rw [if_pos huart]
        exact ⟨hbus, hsome, .inr (.inr huart)⟩
      · rw [if_neg huart]
        refine .inl ⟨rfl, ?_, hbus⟩
        rintro ⟨-, hwindow | hwindow | hwindow⟩
        · exact hram hwindow
        · exact hclint hwindow
        · exact huart hwindow

/-- A store that stays in one page is done or not begun. -/
theorem StoreRefused.holds_of_one_page {m : Memory} {addr : BitVec 64} {size : ℕ}
    {value : BitVec 64} {err : Exception} {after : Bus B S}
    (hrefused : StoreRefused m addr size value err after)
    (hpage : addr.toNat % Proto.pageSize + size ≤ Proto.pageSize) : Holds m after.cache := by
  rcases hrefused with ⟨-, -, hholds⟩ | ⟨-, -, -, left, hleft, hholds⟩
  · exact hholds
  · rcases hleft with rfl | ⟨done, hdone, hboundary, rfl⟩
    · exact hholds
    · have hlength : (bytesOf size value).length ≤ size := List.length_take_le ..
      have hnone : done = 0 := by
        simp only [Proto.pageSize] at hboundary hpage
        omega
      rw [hnone, List.take_zero, Memory.write_nil] at hholds
      exact hholds

end Bus

namespace Mmu

variable {B S : Type} [FlatBacking B]

open Bus (Quiet)

/-- Why a translation failed. -/
def Untranslated (B : Type) [MemBacking B] (access : Access) (vaddr : BitVec 64)
    (err : Exception) : Prop :=
  err = fault access vaddr ∨ ∃ addr, err = .backingFailure addr ∧ Fallible B

theorem physical_offset (ppn vaddr : BitVec 64) :
    physical ppn vaddr &&& 0xFFF = vaddr &&& 0xFFF := by
  have hmask : (0xFFF : BitVec 64) = Bits.mask 64 12 := by decide
  rw [physical, hmask]
  apply BitVec.eq_of_getLsbD_eq
  intro j hj
  simp only [BitVec.getLsbD_and, BitVec.getLsbD_or, BitVec.getLsbD_shiftLeft,
    Bits.getLsbD_mask 12 hj]
  by_cases hlow : j < 12
  · simp [hlow]
  · simp [hlow]

theorem toNat_and_offset (addr : BitVec 64) : (addr &&& 0xFFF).toNat = addr.toNat % 4096 := by
  rw [BitVec.toNat_and]
  exact Nat.and_two_pow_sub_one_eq_mod addr.toNat 12

theorem walk_quiet {m : Memory} (priv : Priv) (access : Access) (vaddr : BitVec 64)
    (levels : List Level) (table : BitVec 64) {system : MemSystem B S}
    (hsystem : Holds m system.bus.cache) :
    Exec.wp (walk priv access vaddr levels table)
      (fun pa after => pa &&& 0xFFF = vaddr &&& 0xFFF ∧ Quiet m system.bus after.bus)
      (fun err after => Untranslated B access vaddr err ∧ Quiet m system.bus after.bus)
      False system := by
  induction levels generalizing table system with
  | nil => exact ⟨.inl rfl, .refl hsystem⟩
  | cons level levels ih =>
      rw [walk, Exec.wp_bind, loadPte, Exec.wp_zoom]
      apply (Bus.load_spec hsystem _ 8).imp
      · rintro pte bus ⟨hquiet, -⟩
        rw [Exec.wp_ite]
        split
        · exact ⟨.inl rfl, hquiet⟩
        rw [Exec.wp_ite]
        split
        · rw [Exec.wp_bind, Exec.wp_ofExcept]
          constructor
          · intro _ _
            rw [Exec.wp_ite]
            split
            · exact ⟨.inl rfl, hquiet⟩
            · exact ⟨physical_offset _ _, hquiet⟩
          · intro err herr
            rcases checkPerms_eq pte priv access vaddr with hperms | hperms
            · rw [hperms] at herr
              cases herr
            · rw [hperms] at herr
              exact ⟨.inl (Except.error.inj herr).symm, hquiet⟩
        · have hholds : Holds m ({ system with bus := bus } : MemSystem B S).bus.cache :=
            hquiet.holds
          apply (ih (ppnOf pte <<< 12) hholds).imp
          · exact fun _ _ hafter => ⟨hafter.1, hquiet.trans hafter.2⟩
          · exact fun _ _ hafter => ⟨hafter.1, hquiet.trans hafter.2⟩
          · exact fun hfalse => hfalse
      · rintro err bus ⟨hquiet, ⟨rfl, -⟩ | ⟨rfl, -, hfallible⟩⟩
        · exact ⟨.inl rfl, hquiet⟩
        · exact ⟨.inr ⟨_, rfl, hfallible⟩, hquiet⟩
      · exact fun hfalse => hfalse

/-- **A translation** changes neither RAM nor the interruptor, and keeps the
offset in the page. -/
theorem translate_quiet {m : Memory} (csrs : Csrs) (priv : Priv) (vaddr : BitVec 64)
    (access : Access) {system : MemSystem B S} (hsystem : Holds m system.bus.cache) :
    Exec.wp (translate csrs priv vaddr access)
      (fun pa after => pa &&& 0xFFF = vaddr &&& 0xFFF ∧ Quiet m system.bus after.bus)
      (fun err after => Untranslated B access vaddr err ∧ Quiet m system.bus after.bus)
      False system := by
  rw [translate, Exec.wp_ite]
  split
  · exact ⟨rfl, .refl hsystem⟩
  rw [Exec.wp_bind, Exec.wp_read, Exec.wp_ite]
  split
  · rw [Exec.wp_bind, Exec.wp_ofExcept]
    constructor
    · intro _ _
      exact ⟨physical_offset _ _, .refl hsystem⟩
    · intro err herr
      rcases checkPerms_eq (system.mmu.tlb (slot (vaddr >>> 12))).perms priv access vaddr with
        hperms | hperms
      · rw [hperms] at herr
        cases herr
      · rw [hperms] at herr
        exact ⟨.inl (Except.error.inj herr).symm, .refl hsystem⟩
  · rw [Exec.wp_bind, Exec.wp_update]
    exact walk_quiet priv access vaddr _ _ hsystem

end Mmu

namespace Machine

variable {B S : Type} [FlatBacking B]

open Bus (Quiet)

theorem translate_spec {m : Memory} {machine : Machine B S} (hm : Holds m machine.bus.cache)
    (vaddr : BitVec 64) (access : Access) :
    Exec.wp (translate vaddr access)
      (fun pa after => pa &&& 0xFFF = vaddr &&& 0xFFF ∧ Quiet m machine.bus after.bus)
      (fun err after => Mmu.Untranslated B access vaddr err ∧ Quiet m machine.bus after.bus)
      False machine := by
  have hsystem : Holds m machine.system.bus.cache := hm
  rw [translate, Exec.wp_bind, Exec.wp_read, Exec.wp_bind, Exec.wp_update, Exec.wp_zoom]
  exact Mmu.translate_quiet _ _ _ _ hsystem

omit [FlatBacking B] in
/-- The physical address of an access that stays in its page does too. -/
theorem fitsPage_of_offset {pa vaddr : BitVec 64} {size : ℕ}
    (hoffset : pa &&& 0xFFF = vaddr &&& 0xFFF) (hfits : fitsPage vaddr size) :
    pa.toNat % Proto.pageSize + size ≤ Proto.pageSize := by
  rw [fitsPage, ← hoffset, Mmu.toNat_and_offset] at hfits
  exact hfits

theorem busLoad_spec {m : Memory} {machine : Machine B S} (hm : Holds m machine.bus.cache)
    (kind : Access) (addr : BitVec 64) (size : ℕ) :
    Exec.wp (busLoad kind addr size)
      (fun value after => Quiet m machine.bus after.bus ∧ Bus.Served addr size ∧
        value = Bus.answer m machine.bus addr size)
      (fun err after => Quiet m machine.bus after.bus ∧ Bus.LoadRefused B addr size err)
      False machine := by
  rw [busLoad, Exec.wp_bind, Exec.wp_update, Exec.wp_zoom]
  exact Bus.load_spec hm addr size

theorem busStore_spec [ConsoleSink S] {m : Memory} {machine : Machine B S}
    (hm : Holds m machine.bus.cache) (addr : BitVec 64) (size : ℕ) (value : BitVec 64) :
    Exec.wp (busStore addr size value)
      (fun _ after => Holds (Bus.stored m addr size value) after.bus.cache ∧
        Bus.Served addr size)
      (fun err after => Bus.StoreRefused m addr size value err after.bus) False machine := by
  rw [busStore, Exec.wp_bind, Exec.wp_update, Exec.wp_zoom]
  exact Bus.store_spec hm addr size value

end Machine

end Baonix.Core

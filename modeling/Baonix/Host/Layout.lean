import Baonix.Core.Sv39
import Baonix.Host.Blobs

/-!
# The layout is safe below a bound

`boot_layout` rounds the end of the kernel up and adds lengths to it before its
only check against the end of RAM.  The end comes from a header that may declare
any size, so that the arithmetic overflows for the ends next to the top of the
address space, which `load_kernel` returns.
-/

namespace Baonix.Host

open Baonix.Core Baonix.LittleEndian
open Exec (roundUp roundDown le_roundUp dvd_roundUp roundUp_le_iff)
open PageCache (Holds)
open Proto (pageSize)

/-- The initial ramdisk has pages of its own between `dtbEnd` and the end of RAM. -/
inductive InitrdPlaced (dtbEnd : ℕ) : Option ℕ → Option (ℕ × ℕ) → Prop
  | none (htop : dtbEnd ≤ ramEnd) : InitrdPlaced dtbEnd none none
  | some {start len : ℕ} (habove : dtbEnd ≤ start) (haligned : pageSize ∣ start)
      (htop : start + len ≤ ramEnd) : InitrdPlaced dtbEnd (some len) (some (start, start + len))

theorem InitrdPlaced.le_ramEnd {dtbEnd : ℕ} {initrdLen : Option ℕ} {range : Option (ℕ × ℕ)}
    (hplaced : InitrdPlaced dtbEnd initrdLen range) : dtbEnd ≤ ramEnd := by
  cases hplaced with
  | none htop => exact htop
  | some habove _ htop => exact habove.trans ((Nat.le_add_right ..).trans htop)

/-- The device tree is above the kernel, and the initial ramdisk above both. -/
structure Placed (kernelEnd dtbLen : ℕ) (initrdLen : Option ℕ) (layout : BootLayout) : Prop where
  above : kernelEnd ≤ layout.dtb
  aligned : 8 ∣ layout.dtb
  initrd : InitrdPlaced (layout.dtb + dtbLen) initrdLen layout.initrd

/-- No arithmetic overflows, and every layout returned is a placement. -/
def LayoutSafe (kernelEnd dtbLen : ℕ) (initrdLen : Option ℕ) : Prop :=
  Exec.wp (bootLayout kernelEnd dtbLen initrdLen)
    (fun layout (_ : Unit) => Placed kernelEnd dtbLen initrdLen layout) (fun _ _ => True) False ()

/-- The highest end of a kernel that leaves room for the blobs in the address
space. -/
def highestKernelEnd (dtbLen : ℕ) : Option ℕ → ℕ
  | none => roundDown (2 ^ 64 - 1 - dtbLen) 8
  | some len => roundDown (roundDown (2 ^ 64 - 1 - len) pageSize - dtbLen) 8

/-- A blob in memory is shorter than half the address space. -/
abbrev maxBlob : ℕ := 2 ^ 63

section Bounds

variable {kernelEnd dtbLen len : ℕ}

theorem dtb_fits_iff (hdtb : dtbLen < maxBlob) :
    roundUp kernelEnd 8 + dtbLen < 2 ^ 64 ↔ kernelEnd ≤ highestKernelEnd dtbLen none := by
  rw [highestKernelEnd, ← roundUp_le_iff (by norm_num)]
  simp only [maxBlob] at hdtb
  omega

theorem initrd_fits_iff (hdtb : dtbLen < maxBlob) (hlen : len < maxBlob) :
    roundUp (roundUp kernelEnd 8 + dtbLen) pageSize + len < 2 ^ 64 ↔
      kernelEnd ≤ highestKernelEnd dtbLen (some len) := by
  have hmod := Nat.mod_lt (2 ^ 64 - 1 - len) (by norm_num : 0 < pageSize)
  have hroom : dtbLen ≤ roundDown (2 ^ 64 - 1 - len) pageSize := by
    simp only [roundDown, maxBlob, pageSize] at hdtb hlen hmod ⊢
    omega
  rw [highestKernelEnd, ← roundUp_le_iff (by norm_num), Nat.le_sub_iff_add_le hroom,
    ← roundUp_le_iff (by norm_num)]
  simp only [maxBlob] at hlen
  omega

/-- Without room for the device tree there is none for the ramdisk. -/
theorem highestKernelEnd_lt (hdtb : dtbLen < maxBlob) {initrdLen : Option ℕ}
    (hinitrd : ∀ len ∈ initrdLen, len < maxBlob)
    (hover : 2 ^ 64 ≤ roundUp kernelEnd 8 + dtbLen) :
    highestKernelEnd dtbLen initrdLen < kernelEnd := by
  cases initrdLen with
  | none => exact not_le.mp fun hle => ((dtb_fits_iff hdtb).mpr hle).not_ge hover
  | some len =>
      have hstart := le_roundUp (roundUp kernelEnd 8 + dtbLen) pageSize
      apply not_le.mp
      intro hle
      have hfits := (initrd_fits_iff hdtb (hinitrd len rfl)).mpr hle
      omega

end Bounds

variable {State : Type} {kernelEnd dtbLen : ℕ} {initrdLen : Option ℕ}

/-- The last step of the layout, once the sums are known to fit. -/
theorem bounded_spec {dtb dtbEnd : ℕ} {initrd : Option (ℕ × ℕ)}
    (hplaced : (initrd.map Prod.snd).getD dtbEnd ≤ ramEnd →
      Placed kernelEnd dtbLen initrdLen ⟨dtb, initrd⟩)
    (hle : kernelEnd ≤ highestKernelEnd dtbLen initrdLen) (err : LayoutError) (state : State) :
    Exec.wp (if (initrd.map Prod.snd).getD dtbEnd > ramEnd then Exec.raise err
        else pure ⟨dtb, initrd⟩)
      (fun layout _ => Placed kernelEnd dtbLen initrdLen layout ∧
        kernelEnd ≤ highestKernelEnd dtbLen initrdLen)
      (fun _ _ => kernelEnd ≤ highestKernelEnd dtbLen initrdLen)
      (highestKernelEnd dtbLen initrdLen < kernelEnd) state := by
  rw [Exec.wp_ite]
  split
  · exact hle
  · exact ⟨hplaced (not_lt.mp ‹_›), hle⟩

/-- **`boot_layout`** panics exactly when the kernel ends too high, and what it
returns is a placement. -/
theorem bootLayout_spec (hdtb : dtbLen < maxBlob) (hinitrd : ∀ len ∈ initrdLen, len < maxBlob)
    (state : State) :
    Exec.wp (bootLayout kernelEnd dtbLen initrdLen)
      (fun layout _ => Placed kernelEnd dtbLen initrdLen layout ∧
        kernelEnd ≤ highestKernelEnd dtbLen initrdLen)
      (fun _ _ => kernelEnd ≤ highestKernelEnd dtbLen initrdLen)
      (highestKernelEnd dtbLen initrdLen < kernelEnd) state := by
  have habove := le_roundUp kernelEnd 8
  have haligned : 8 ∣ roundUp kernelEnd 8 := dvd_roundUp kernelEnd (by norm_num)
  rw [bootLayout, Exec.nextMultipleOf, Exec.wp_bind, Exec.wp_fits]
  refine ⟨fun _ => ?_, fun hover => highestKernelEnd_lt hdtb hinitrd (by omega)⟩
  rw [Exec.addU64, Exec.wp_bind, Exec.wp_fits]
  refine ⟨fun hdtbFits => ?_, fun hover => highestKernelEnd_lt hdtb hinitrd hover⟩
  rw [Exec.wp_bind]
  cases initrdLen with
  | none =>
      apply bounded_spec _ ((dtb_fits_iff hdtb).mp hdtbFits)
      exact fun htop => ⟨habove, haligned, .none htop⟩
  | some len =>
      have hfitsIff : roundUp (roundUp kernelEnd 8 + dtbLen) pageSize + len < 2 ^ 64 ↔
          kernelEnd ≤ highestKernelEnd dtbLen (some len) :=
        initrd_fits_iff hdtb (hinitrd len rfl)
      rw [placeInitrd, Exec.nextMultipleOf, Exec.wp_bind, Exec.wp_fits]
      refine ⟨fun _ => ?_, fun hover => not_le.mp fun hle => ?_⟩
      · rw [Exec.addU64, Exec.wp_bind, Exec.wp_fits]
        refine ⟨fun hfits => ?_, fun hover => not_le.mp fun hle => ?_⟩
        · apply bounded_spec _ (hfitsIff.mp hfits)
          exact fun htop => ⟨habove, haligned,
            .some (le_roundUp _ _) (dvd_roundUp _ (by norm_num)) htop⟩
        · exact (hfitsIff.mpr hle).not_ge hover
      · have hfits := hfitsIff.mpr hle
        omega

/-- **The layout is safe up to a bound.**  For blobs in memory, `boot_layout` is
free of overflow and returns only placements exactly when the kernel's declared
end leaves room for them in the address space. -/
theorem layoutSafe_iff (hdtb : dtbLen < maxBlob)
    (hinitrd : ∀ len ∈ initrdLen, len < maxBlob) :
    LayoutSafe kernelEnd dtbLen initrdLen ↔ kernelEnd ≤ highestKernelEnd dtbLen initrdLen := by
  constructor
  · intro hsafe
    have hspec : Exec.wp (bootLayout kernelEnd dtbLen initrdLen) _ _ _ () :=
      bootLayout_spec hdtb hinitrd ()
    obtain ⟨result, -, -, hok, herror⟩ := (hsafe.and hspec).imp (fun _ _ hboth => hboth)
      (fun _ _ hboth => hboth) (fun hboth => hboth.1) |>.exists_reply
    cases result with
    | ok layout => exact (hok layout rfl).2.2
    | error err => exact (herror err rfl).2
  · intro hle
    apply (bootLayout_spec hdtb hinitrd ()).imp
    · exact fun _ _ hplaced => hplaced.1
    · exact fun _ _ _ => trivial
    · exact fun hlt => hlt.not_ge hle

/-- A kernel that ends one megabyte above its load address. -/
theorem layoutSafe_iff_small : LayoutSafe 0x80300000 4096 (some 0x10000) :=
  (layoutSafe_iff (by norm_num) (by norm_num)).mpr (by decide)

/-- An image without code that declares all the memory above its load address. -/
def allMemoryImage : List Byte :=
  List.replicate 8 0 ++ toBytes 8 loadOffset ++ toBytes 8 (2 ^ 64 - 1 - kernelLoadAddr.toNat) ++
    List.replicate 32 0 ++ riscvImageMagic2 ++ List.replicate 4 0

/-- The loader accepts it, and a device tree of any length then overflows. -/
theorem layout_unsafe_after_load :
    ∃ (start after : Bus FakeBacking (List Byte)) (kernelEnd : ℕ),
      (loadKernel allMemoryImage).run start = .ok kernelEnd after ∧
        ¬ LayoutSafe kernelEnd 64 none := by
  have hholds := Sv39.holds_busOver fun _ _ => 0
  have hspec := loadKernel_spec hholds (by decide : ¬ Elf.magic <+: allMemoryImage)
  have haccepted : ¬ ImageRefused FakeBacking allMemoryImage := by
    rintro (hfallible | hover | ⟨-, hoffset⟩ | hspan)
    · exact not_fallible_fakeBacking hfallible
    · exact absurd hover (by decide)
    · exact absurd hoffset (by decide)
    · exact absurd hspan (by decide)
  obtain ⟨kernelEnd, after, hrun, hloaded, -⟩ := (hspec.imp (fun _ _ hloaded => hloaded)
    (fun _ _ hrefused => haccepted hrefused) (fun hfalse => hfalse)).exists_ok
  refine ⟨_, after, kernelEnd, hrun, ?_⟩
  rw [layoutSafe_iff (by norm_num) (by simp), hloaded.kernelEnd_eq]
  decide

end Baonix.Host

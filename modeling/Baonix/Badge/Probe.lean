import Baonix.Badge.RunLoop
import Baonix.Host.Images

/-!
# Finding the device tree

The badge is not told where the host put the device tree.  `dtb_address` derives it
from the boot header of the kernel in memory, by a rule written separately from the
host's.
-/

namespace Baonix.Badge

open Baonix.Core Baonix.LittleEndian
open Baonix.Host
open Exec (checkedAdd nextMultipleOf roundUp)
open PageCache (Holds)
open Proto (pageSize)

inductive BootProbeError (Fault : Type)
  | read (addr : ℕ) (fault : Option Fault)
  | noImageHeader
  | textOffset (offset : ℕ)
  | imageSize (size : ℕ)
  | noFdt (addr magic : ℕ)

/-- `RSC\x05` as a number. -/
def imageMagic2 : ℕ := ofBytes riscvImageMagic2

/-- The magic of a device tree, read in the wrong byte order. -/
def fdtMagicLe : ℕ := 0xedfe0dd0

section Model

variable {B S Fault : Type} [MemBacking B] [Link B Fault]

/-- The closure `load`. -/
def probe (addr size : ℕ) : Exec (BootProbeError Fault) (Bus B S) ℕ := do
  match ← Exec.attempt (Bus.load (BitVec.ofNat 64 addr) size) with
  | .ok value => pure value.toNat
  | .error _ => do
      let fault ← Exec.call (fun bus : Bus B S => bus.cache.backing)
        (fun bus backing => { bus with cache := { bus.cache with backing := backing } })
        Link.takeFault
      Exec.raise (.read addr fault)

def dtbAddress : Exec (BootProbeError Fault) (Bus B S) ℕ := do
  let magic2 ← probe (kernelLoadAddr.toNat + 56) 4
  if magic2 ≠ imageMagic2 then Exec.raise .noImageHeader
  else do
    let offset ← probe (kernelLoadAddr.toNat + 8) 8
    if offset ≠ loadOffset then Exec.raise (.textOffset offset)
    else do
      let size ← probe (kernelLoadAddr.toNat + 16) 8
      if size < pageSize then Exec.raise (.imageSize size)
      else
        match checkedAdd kernelLoadAddr.toNat size with
        | none => Exec.raise (.imageSize size)
        | some kernelEnd => do
            let dtb ← nextMultipleOf kernelEnd 8
            let magic ← probe dtb 4
            if magic ≠ fdtMagicLe then Exec.raise (.noFdt dtb magic) else pure dtb

end Model

/-! ## Against the host's rule -/

variable {B S Fault : Type} [FlatBacking B] [Link B Fault]

/-- A number in RAM is read. -/
theorem probe_spec {m : Memory} {bus : Bus B S} (hbus : Holds m bus.cache)
    (hbacking : ¬ Fallible B) {addr size : ℕ} (hsize : (Bus.widthOf size).isSome)
    (hram : InRam addr size) :
    Exec.wp (probe addr size)
      (fun value after => Holds m after.cache ∧ value = ofBytes (m.read addr size))
      (fun _ _ => False) False bus := by
  have hwidth : size ≤ 8 := by
    obtain ⟨width, hsome⟩ := Option.isSome_iff_exists.mp hsize
    rw [← Bus.eq_of_widthOf hsome]
    exact width.property.2
  have haddr : (BitVec.ofNat 64 addr).toNat = addr := by
    rw [BitVec.toNat_ofNat, Nat.mod_eq_of_lt]
    simp only [InRam, ramBase, ramSize] at hram
    omega
  have hin : Bus.inRam (BitVec.ofNat 64 addr) size := by
    rw [Bus.inRam_iff, haddr]
    exact hram
  rw [probe, Exec.wp_bind, Exec.wp_attempt]
  apply (Bus.load_spec hbus (BitVec.ofNat 64 addr) size).imp
  · rintro value after ⟨hquiet, -, hvalue⟩
    refine ⟨hquiet.holds, ?_⟩
    have hlt := ofBytes_lt (m.read addr size)
    rw [Memory.length_read] at hlt
    have hbound : ofBytes (m.read addr size) < 2 ^ 64 := by
      calc ofBytes (m.read addr size) < 256 ^ size := hlt
        _ ≤ 256 ^ 8 := Nat.pow_le_pow_right (by norm_num) hwidth
        _ = 2 ^ 64 := by norm_num
    rw [hvalue, Bus.answer, if_pos hin, haddr, BitVec.toNat_ofNat, Nat.mod_eq_of_lt hbound]
  · rintro err after ⟨-, ⟨-, hserved⟩ | ⟨-, -, hfallible⟩⟩
    · exact absurd ⟨hsize, .inl hin⟩ hserved
    · exact absurd hfallible hbacking
  · exact fun hfalse => hfalse

/-- The memory of a badge that the host's images were loaded into. -/
structure ServedImage (m : Memory) (kernel : List Byte) (dtb : ℕ) : Prop where
  kernel_there : m.read kernelLoadAddr.toNat kernel.length = kernel
  header : hasRiscvImageHeader kernel
  offset : textOffset kernel = loadOffset
  inRam : kernelLoadAddr.toNat + kernel.length ≤ dtb ∧ dtb + 4 ≤ ramEnd
  placed : dtb = roundUp (kernelLoadAddr.toNat + span kernel) 8
  magic : ofBytes (m.read dtb 4) = fdtMagicLe

namespace ServedImage

variable {m : Memory} {kernel : List Byte} {dtb : ℕ}

/-- A field of the header in memory. -/
theorem read_header (himage : ServedImage m kernel dtb) {offset n : ℕ} (hinside : offset + n ≤ 64) :
    m.read (kernelLoadAddr.toNat + offset) n = (kernel.drop offset).take n :=
  m.read_part himage.kernel_there (hinside.trans himage.header.1)

theorem header_inRam (himage : ServedImage m kernel dtb) {offset n : ℕ} (hinside : offset + n ≤ 64) :
    InRam (kernelLoadAddr.toNat + offset) n := by
  have hlength := himage.header.1
  obtain ⟨hkernel, hdtb⟩ := himage.inRam
  have hload : ramBase ≤ kernelLoadAddr.toNat := by decide
  rw [riscvImageHeaderLen] at hlength
  rw [ramEnd] at hdtb
  exact ⟨by omega, by omega⟩

/-- The badge does not look above the tree. -/
theorem found_le (himage : ServedImage m kernel dtb) :
    roundUp (kernelLoadAddr.toNat + imageSize kernel) 8 ≤ dtb := by
  have hspan : imageSize kernel ≤ span kernel := by
    rw [span, riscvImageFootprint, if_neg (not_not.mpr himage.header)]
    split
    · exact le_rfl
    · exact (not_le.mp ‹_›).le
  have hdvd : 8 ∣ dtb := by
    rw [himage.placed]
    exact Exec.dvd_roundUp _ (by norm_num)
  apply Exec.roundUp_le _ hdvd
  rw [himage.placed]
  exact (Nat.add_le_add_left hspan _).trans (Exec.le_roundUp ..)

end ServedImage

/-- What the badge finds, and why it fails otherwise. -/
theorem dtbAddress_spec {m : Memory} {bus : Bus B S} (hbus : Holds m bus.cache)
    (hbacking : ¬ Fallible B) {kernel : List Byte} {dtb : ℕ} (himage : ServedImage m kernel dtb) :
    Exec.wp (dtbAddress : Exec (BootProbeError Fault) (Bus B S) ℕ)
      (fun found _ => found = roundUp (kernelLoadAddr.toNat + imageSize kernel) 8 ∧
        pageSize ≤ imageSize kernel)
      (fun _ _ => imageSize kernel < pageSize ∨
        roundUp (kernelLoadAddr.toNat + imageSize kernel) 8 ≠ dtb) False bus := by
  have hfound := himage.found_le
  have hend := himage.inRam.2
  have habove := Exec.le_roundUp (kernelLoadAddr.toNat + imageSize kernel) 8
  have hload : ramBase ≤ kernelLoadAddr.toNat := by decide
  have hfits : roundUp (kernelLoadAddr.toNat + imageSize kernel) 8 < 2 ^ 64 := by
    simp only [ramEnd, ramBase, ramSize] at hend
    omega
  rw [dtbAddress, Exec.wp_bind]
  apply (probe_spec hbus hbacking (by decide) (himage.header_inRam (by decide))).imp
  · rintro magic2 first ⟨hfirst, hmagic2⟩
    rw [himage.read_header (by decide), himage.header.2, ← imageMagic2] at hmagic2
    rw [if_neg (not_not.mpr hmagic2), Exec.wp_bind]
    apply (probe_spec hfirst hbacking (by decide) (himage.header_inRam (by decide))).imp
    · rintro offset second ⟨hsecond, hoffset⟩
      rw [himage.read_header (by decide), ← textOffset, himage.offset] at hoffset
      rw [if_neg (not_not.mpr hoffset), Exec.wp_bind]
      apply (probe_spec hsecond hbacking (by decide) (himage.header_inRam (by decide))).imp
      · rintro size third ⟨hthird, hsize⟩
        rw [himage.read_header (by decide), ← imageSize] at hsize
        rw [hsize, Exec.wp_ite]
        split
        · exact .inl ‹_›
        · rename_i hpage
          rw [checkedAdd, if_pos (habove.trans_lt hfits)]
          dsimp only
          rw [nextMultipleOf, Exec.wp_bind, Exec.wp_fits]
          refine ⟨fun _ => ?_, fun hover => hfits.not_ge hover⟩
          have hram : InRam (roundUp (kernelLoadAddr.toNat + imageSize kernel) 8) 4 := by
            rw [ramEnd] at hend
            exact ⟨by omega, by omega⟩
          rw [Exec.wp_bind]
          apply (probe_spec hthird hbacking (by decide) hram).imp
          · rintro magic last ⟨-, hmagic⟩
            rw [Exec.wp_ite]
            split
            · rename_i hne
              right
              intro hsame
              rw [hsame, himage.magic] at hmagic
              exact hne hmagic
            · exact ⟨rfl, not_lt.mp hpage⟩
          · exact fun _ _ hfalse => hfalse.elim
          · exact fun hfalse => hfalse
      · exact fun _ _ hfalse => hfalse.elim
      · exact fun hfalse => hfalse
    · exact fun _ _ hfalse => hfalse.elim
    · exact fun hfalse => hfalse
  · exact fun _ _ hfalse => hfalse.elim
  · exact fun hfalse => hfalse

/-- **The images the host loads**, with a tree that starts with the magic, as a badge
with the same memory sees them. -/
theorem servedImage_of_load {B' S' : Type} [FlatBacking B'] [ConsoleSink S'] {m memory : Memory}
    {host after : Bus B' S'} (hhost : Holds m host.cache) {kernel dtb : List Byte}
    (hraw : ¬ Elf.magic <+: kernel) (hheader : hasRiscvImageHeader kernel)
    (hmagic : Fdt.cell Fdt.fdtMagic <+: dtb) {initrd : Option (List Byte)} {cpu : Cpu}
    {layout : BootLayout}
    (hload : (loadBootImages kernel dtb initrd).run host = .ok (cpu, layout) after)
    (hmemory : Holds memory after.cache) : ServedImage memory kernel layout.dtb := by
  obtain ⟨tree, hrecord, hplaced, hdtbAt, hoffset, hholds, -⟩ :=
    (loadBootImages_spec hhost hraw dtb initrd).of_run_ok hload
  have hsame : withImages m kernel tree initrd layout = memory :=
    hholds.memory.symm.trans hmemory.memory
  have hbooted := booted_of_placed m hplaced
  rw [hsame] at hbooted
  obtain ⟨hlength, hwindow⟩ := recordInitrd_ok hrecord
  have hcell := Fdt.length_cell Fdt.fdtMagic
  have hlong : 4 ≤ tree.length := by
    rw [hlength, ← hcell]
    exact hmagic.length_le
  -- the first bytes of the tree are those of the blob
  have hfirst : (tree.drop 0).take 4 = Fdt.cell Fdt.fdtMagic := by
    have hhead := congrArg (List.take 4) hwindow
    rw [Window.window, Window.window, List.take_take, List.take_take] at hhead
    obtain ⟨rest, rfl⟩ := hmagic
    rw [show min 4 12 = 4 from rfl] at hhead
    rw [hhead, List.drop_zero, ← hcell, List.take_left]
  refine ⟨hbooted.kernelThere, hheader, hoffset hheader, ⟨?_, ?_⟩, hdtbAt, ?_⟩
  · exact (Nat.add_le_add_left (length_le_span kernel) _).trans hplaced.above
  · have htop := hplaced.initrd.le_ramEnd
    dsimp only at htop
    omega
  · have hinside : 0 + 4 ≤ tree.length := by omega
    have hread := memory.read_part hbooted.treeThere hinside
    rw [Nat.add_zero] at hread
    rw [hread, hfirst]
    decide

/-- **When the badge finds the tree where the host put it.**  For every raw kernel with a
boot header, every ramdisk and every tree that starts with the magic and that the host
accepts: the badge, on the memory the host left, finds exactly the layout's address if
and only if the header declares at least a page, and rounding what it declares up to
eight gives the same as rounding up the memory the host reserved for the kernel. -/
theorem dtbAddress_finds_iff {B' S' : Type} [FlatBacking B'] [ConsoleSink S'] {m memory : Memory}
    {host after : Bus B' S'} (hhost : Holds m host.cache) {kernel dtb : List Byte}
    (hraw : ¬ Elf.magic <+: kernel) (hheader : hasRiscvImageHeader kernel)
    (hmagic : Fdt.cell Fdt.fdtMagic <+: dtb) {initrd : Option (List Byte)} {cpu : Cpu}
    {layout : BootLayout}
    (hload : (loadBootImages kernel dtb initrd).run host = .ok (cpu, layout) after)
    (hmemory : Holds memory after.cache) {badge : Bus B S} (hbadge : Holds memory badge.cache)
    (hbacking : ¬ Fallible B) :
    (∃ last, (dtbAddress : Exec (BootProbeError Fault) (Bus B S) ℕ).run badge =
        .ok layout.dtb last) ↔
      pageSize ≤ imageSize kernel ∧ roundUp (imageSize kernel) 8 = roundUp (span kernel) 8 := by
  have himage := servedImage_of_load hhost hraw hheader hmagic hload hmemory
  have hspec : Exec.wp (dtbAddress : Exec (BootProbeError Fault) (Bus B S) ℕ) _ _ _ badge :=
    dtbAddress_spec hbadge hbacking himage
  have hbase : 8 ∣ kernelLoadAddr.toNat := by decide
  have hplaced := himage.placed
  rw [Exec.roundUp_add hbase] at hspec hplaced
  constructor
  · rintro ⟨last, hrun⟩
    obtain ⟨hfound, hpage⟩ := hspec.of_run_ok hrun
    refine ⟨hpage, ?_⟩
    omega
  · rintro ⟨hpage, hround⟩
    have hsame : kernelLoadAddr.toNat + roundUp (imageSize kernel) 8 = layout.dtb := by
      rw [hround, hplaced]
    rw [hsame] at hspec
    obtain ⟨found, last, hrun, rfl, -⟩ := (hspec.imp (fun _ _ hfound => hfound)
      (fun _ _ hfails => (hfails.elim hpage.not_gt fun hne => hne rfl))
      (fun hfalse => hfalse)).exists_ok
    exact ⟨last, hrun⟩

/-- A boot header without code behind it, that declares `size` bytes of memory. -/
def headerOnly (size : ℕ) : List Byte :=
  List.replicate 8 0 ++ toBytes 8 loadOffset ++ toBytes 8 size ++ List.replicate 32 0 ++
    riscvImageMagic2 ++ List.replicate 4 0

theorem not_imageRefused {kernel : List Byte} (hshort : kernelLoadAddr.toNat + kernel.length ≤ ramEnd)
    (hoffset : textOffset kernel = loadOffset) (hspan : kernelLoadAddr.toNat + span kernel < 2 ^ 64) :
    ¬ ImageRefused FakeBacking kernel := by
  rintro (hfallible | hover | ⟨-, hwrong⟩ | hover)
  · exact not_fallible_fakeBacking hfallible
  · exact hover.not_ge hshort
  · exact hwrong hoffset
  · exact hover.not_gt hspan

/-- A header that declares one page. -/
theorem dtbAddress_finds_one_page :
    ∃ (after : Bus FakeBacking (List Byte)) (cpu : Cpu) (layout : BootLayout),
      (loadBootImages (headerOnly 4096) (Fdt.cell Fdt.fdtMagic) none).run
        (Sv39.busOver fun _ _ => 0) = .ok (cpu, layout) after ∧
      ∃ last, (dtbAddress : Exec (BootProbeError Empty) (Bus FakeBacking (List Byte)) ℕ).run after =
        .ok layout.dtb last := by
  have hholds := Sv39.holds_busOver fun _ _ => 0
  let layout : BootLayout := ⟨0x80201000, none⟩
  have hlayout (state : Bus FakeBacking (List Byte)) :
      (bootLayout (kernelLoadAddr.toNat + span (headerOnly 4096)) (Fdt.cell Fdt.fdtMagic).length
        none).run state = .ok layout state := rfl
  have hloads : ∃ after, (loadBootImages (headerOnly 4096) (Fdt.cell Fdt.fdtMagic) none).run
      (Sv39.busOver fun _ _ => 0) = .ok (bootCpu (BitVec.ofNat 64 layout.dtb), layout) after :=
    loadBootImages_ok hholds not_fallible_fakeBacking (by decide)
      (not_imageRefused (by decide) (by decide) (by decide)) hlayout rfl
  obtain ⟨after, hload⟩ := hloads
  obtain ⟨tree, -, -, -, -, hmemory, -⟩ :=
    (loadBootImages_spec hholds (by decide) _ none).of_run_ok hload
  refine ⟨after, _, _, hload, ?_⟩
  exact (dtbAddress_finds_iff hholds (by decide) (by decide) (List.prefix_refl _) hload hmemory
    hmemory not_fallible_fakeBacking).mpr ⟨by decide, by decide⟩

/-- A header that declares no more than itself: the host loads it, and the badge refuses
the size. -/
theorem dtbAddress_misses_small_image :
    ∃ (after : Bus FakeBacking (List Byte)) (cpu : Cpu) (layout : BootLayout),
      ¬ Elf.magic <+: headerOnly 64 ∧ hasRiscvImageHeader (headerOnly 64) ∧
      (loadBootImages (headerOnly 64) (Fdt.cell Fdt.fdtMagic) none).run
        (Sv39.busOver fun _ _ => 0) = .ok (cpu, layout) after ∧
      ∀ last, (dtbAddress : Exec (BootProbeError Empty) (Bus FakeBacking (List Byte)) ℕ).run after ≠
        .ok layout.dtb last := by
  have hholds := Sv39.holds_busOver fun _ _ => 0
  let layout : BootLayout := ⟨0x80200040, none⟩
  have hlayout (state : Bus FakeBacking (List Byte)) :
      (bootLayout (kernelLoadAddr.toNat + span (headerOnly 64)) (Fdt.cell Fdt.fdtMagic).length
        none).run state = .ok layout state := rfl
  have hloads : ∃ after, (loadBootImages (headerOnly 64) (Fdt.cell Fdt.fdtMagic) none).run
      (Sv39.busOver fun _ _ => 0) = .ok (bootCpu (BitVec.ofNat 64 layout.dtb), layout) after :=
    loadBootImages_ok hholds not_fallible_fakeBacking (by decide)
      (not_imageRefused (by decide) (by decide) (by decide)) hlayout rfl
  obtain ⟨after, hload⟩ := hloads
  obtain ⟨tree, -, -, -, -, hmemory, -⟩ :=
    (loadBootImages_spec hholds (by decide) _ none).of_run_ok hload
  have himage := servedImage_of_load hholds (by decide) (by decide) (List.prefix_refl _) hload hmemory
  refine ⟨after, _, _, by decide, by decide, hload, ?_⟩
  intro last hrun
  obtain ⟨-, hpage⟩ := (dtbAddress_spec hmemory not_fallible_fakeBacking himage).of_run_ok hrun
  exact absurd hpage (by decide)

end Baonix.Badge

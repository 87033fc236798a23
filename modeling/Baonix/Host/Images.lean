import Baonix.Core.Sv39
import Baonix.Host.FdtTree
import Baonix.Host.Layout

/-!
# Loading the boot images

`load_boot_images` puts the kernel, the device tree with the place of the initial
ramdisk recorded in it, and the ramdisk into memory.  All three are there at once
afterwards, and nothing else changed.
-/

namespace Baonix.Host

open Baonix.Core Baonix.LittleEndian
open Exec (le_roundUp)
open PageCache (Holds)

/-- The bytes of an ASCII string. -/
def ascii (text : String) : List Byte := text.toList.map fun char => BitVec.ofNat 8 char.toNat

def chosen : List Byte := ascii "/chosen"
def initrdStart : List Byte := ascii "linux,initrd-start"
def initrdEnd : List Byte := ascii "linux,initrd-end"

/-- Which of the images was refused. -/
inductive BootError
  | kernel (err : KernelError)
  | layout (err : LayoutError)
  | dtbRecord (err : Fdt.Error)
  | dtbPlace (addr : ℕ) (err : Exception)
  | initrd (addr : ℕ) (err : Exception)

/-- The device tree with the place of the initial ramdisk recorded. -/
def recordInitrd (dtb : List Byte) : Option (ℕ × ℕ) → Except Fdt.Error (List Byte)
  | none => .ok dtb
  | some (start, last) => do
      let middle ← Fdt.setU64 dtb chosen initrdStart start
      Fdt.setU64 middle chosen initrdEnd last

variable {B S : Type} [MemBacking B] [ConsoleSink S]

def patchedTree (dtb : List Byte) (range : Option (ℕ × ℕ)) :
    Exec BootError (Bus B S) (List Byte) :=
  match recordInitrd dtb range with
  | .ok tree => pure tree
  | .error err => Exec.raise (.dtbRecord err)

/-- `write_blob` of one of the images. -/
def placeBlob (errOf : Exception → BootError) (addr : ℕ) (data : List Byte) :
    Exec BootError (Bus B S) PUnit :=
  Exec.zoom id (fun _ after => after) errOf (writeBlob addr data)

def placeRamdisk : Option (List Byte) → Option (ℕ × ℕ) → Exec BootError (Bus B S) PUnit
  | some bytes, some (start, _) => placeBlob (.initrd start) start bytes
  | _, _ => pure ()

def loadBootImages (kernel dtb : List Byte) (initrd : Option (List Byte)) :
    Exec BootError (Bus B S) (Cpu × BootLayout) := do
  let kernelEnd ← Exec.zoom id (fun _ after => after) .kernel (loadKernel kernel)
  let layout ← Exec.zoom id (fun _ after => after) .layout
    (bootLayout kernelEnd dtb.length (initrd.map List.length))
  let tree ← patchedTree dtb layout.initrd
  placeBlob (.dtbPlace layout.dtb) layout.dtb tree
  placeRamdisk initrd layout.initrd
  pure (bootCpu (BitVec.ofNat 64 layout.dtb), layout)

/-! ## The images in memory -/

/-- The stretches of memory that belong to the images, from the lowest on. -/
def extents (kernel : List Byte) (dtbLen : ℕ) (layout : BootLayout) : List (ℕ × ℕ) :=
  [(kernelLoadAddr.toNat, kernelLoadAddr.toNat + span kernel), (layout.dtb, layout.dtb + dtbLen)] ++
    layout.initrd.toList

/-- The memory has the images where the layout says, and is otherwise as it was. -/
structure Booted (m : Memory) (kernel tree : List Byte) (initrd : Option (List Byte))
    (layout : BootLayout) (after : Memory) : Prop where
  kernelThere : after.read kernelLoadAddr.toNat kernel.length = kernel
  treeThere : after.read layout.dtb tree.length = tree
  noInitrd : initrd = none → layout.initrd = none
  initrdThere : ∀ bytes, initrd = some bytes → ∃ start,
    layout.initrd = some (start, start + bytes.length) ∧ after.read start bytes.length = bytes
  apart : (extents kernel tree.length layout).Pairwise fun first second => first.2 ≤ second.1
  inRam : ∀ extent ∈ extents kernel tree.length layout, extent.2 ≤ ramEnd
  unchanged : ∀ addr,
    ¬ (kernelLoadAddr.toNat ≤ addr ∧ addr < kernelLoadAddr.toNat + kernel.length) →
    ¬ (layout.dtb ≤ addr ∧ addr < layout.dtb + tree.length) →
    (∀ range ∈ layout.initrd, ¬ (range.1 ≤ addr ∧ addr < range.2)) → after addr = m addr

/-- The memory after the ramdisk was written. -/
def withRamdisk (m : Memory) : Option (List Byte) → Option (ℕ × ℕ) → Memory
  | some bytes, some (start, _) => m.write start bytes
  | _, _ => m

/-- The memory after the images were written one after the other. -/
def withImages (m : Memory) (kernel tree : List Byte) (initrd : Option (List Byte))
    (layout : BootLayout) : Memory :=
  withRamdisk ((m.write kernelLoadAddr.toNat kernel).write layout.dtb tree) initrd layout.initrd

theorem withImages_none (m : Memory) (kernel tree : List Byte) (dtb : ℕ) :
    withImages m kernel tree none ⟨dtb, none⟩ =
      (m.write kernelLoadAddr.toNat kernel).write dtb tree := rfl

theorem withImages_some (m : Memory) (kernel tree bytes : List Byte) (dtb start last : ℕ) :
    withImages m kernel tree (some bytes) ⟨dtb, some (start, last)⟩ =
      ((m.write kernelLoadAddr.toNat kernel).write dtb tree).write start bytes := rfl

theorem length_le_span (bytes : List Byte) : bytes.length ≤ span bytes := by
  rw [span, riscvImageFootprint]
  split
  · exact le_rfl
  · split
    · assumption
    · exact le_rfl

/-- **A placement keeps the images apart**, so that each is there after all are
written. -/
theorem booted_of_placed (m : Memory) {kernel tree : List Byte} {initrd : Option (List Byte)}
    {layout : BootLayout}
    (hplaced : Placed (kernelLoadAddr.toNat + span kernel) tree.length (initrd.map List.length)
      layout) :
    Booted m kernel tree initrd layout (withImages m kernel tree initrd layout) := by
  obtain ⟨habove, -, hinitrd⟩ := hplaced
  have hspan := length_le_span kernel
  obtain ⟨dtb, range⟩ := layout
  cases initrd with
  | none =>
      cases hinitrd with
      | none htop =>
          dsimp only at habove htop
          refine ⟨?_, ?_, fun _ => rfl, fun _ heq => (nomatch heq), ?_, ?_, ?_⟩
          · rw [withImages_none, Memory.read_write_of_apart _ (.inl (by omega)), Memory.read_write_self]
          · rw [withImages_none, Memory.read_write_self]
          · simp [extents, habove]
          · simp only [extents, Option.toList_none, List.append_nil, List.mem_cons, List.not_mem_nil,
              or_false, forall_eq_or_imp, forall_eq]
            omega
          · intro addr hkernel htree _
            dsimp only at htree
            rw [withImages_none, Memory.write_of_outside _ (by omega), Memory.write_of_outside _ (by omega)]
  | some bytes =>
      cases hinitrd with
      | @some start len hstart haligned htop =>
          dsimp only at habove hstart
          refine ⟨?_, ?_, fun heq => (nomatch heq), ?_, ?_, ?_, ?_⟩
          · rw [withImages_some, Memory.read_write_of_apart _ (.inl (by omega)),
              Memory.read_write_of_apart _ (.inl (by omega)), Memory.read_write_self]
          · rw [withImages_some, Memory.read_write_of_apart _ (.inl hstart), Memory.read_write_self]
          · intro found hfound
            cases hfound
            exact ⟨start, rfl, Memory.read_write_self ..⟩
          · simp only [extents, Option.toList_some, List.cons_append, List.nil_append,
              List.pairwise_cons, List.mem_cons, List.not_mem_nil, or_false, forall_eq_or_imp,
              forall_eq, false_implies, implies_true, List.Pairwise.nil, and_true]
            omega
          · simp only [extents, Option.toList_some, List.cons_append, List.nil_append,
              List.mem_cons, List.not_mem_nil, or_false, forall_eq_or_imp, forall_eq]
            omega
          · intro addr hkernel htree hrange
            have houtside := hrange _ rfl
            dsimp only at htree houtside
            rw [withImages_some, Memory.write_of_outside _ (by omega),
              Memory.write_of_outside _ (by omega), Memory.write_of_outside _ (by omega)]

/-! ## The loader -/

theorem recordInitrd_ok {dtb tree : List Byte} {range : Option (ℕ × ℕ)}
    (hrecord : recordInitrd dtb range = .ok tree) :
    tree.length = dtb.length ∧ Window.window tree 0 12 = Window.window dtb 0 12 := by
  cases range with
  | none =>
      cases hrecord
      exact ⟨rfl, rfl⟩
  | some range =>
      rw [recordInitrd] at hrecord
      cases hfirst : Fdt.setU64 dtb chosen initrdStart range.1 with
      | error err =>
          rw [hfirst] at hrecord
          cases hrecord
      | ok middle =>
          rw [hfirst] at hrecord
          obtain ⟨hlength, hwindow⟩ := Fdt.setU64_ok hfirst
          obtain ⟨hlength', hwindow'⟩ := Fdt.setU64_ok (show _ = Except.ok tree from hrecord)
          exact ⟨hlength'.trans hlength, hwindow'.trans hwindow⟩

/-- What `boot_layout` returns is a placement, whatever the lengths. -/
theorem bootLayout_placed {State : Type} (kernelEnd dtbLen : ℕ) (initrdLen : Option ℕ)
    (state : State) :
    Exec.wp (bootLayout kernelEnd dtbLen initrdLen)
      (fun layout after => Placed kernelEnd dtbLen initrdLen layout ∧
        layout.dtb = Exec.roundUp kernelEnd 8 ∧ after = state)
      (fun _ _ => True) True state := by
  have hlast {dtbEnd : ℕ} {initrd : Option (ℕ × ℕ)} {err : LayoutError}
      (hplaced : (initrd.map Prod.snd).getD dtbEnd ≤ ramEnd →
        Placed kernelEnd dtbLen initrdLen ⟨Exec.roundUp kernelEnd 8, initrd⟩) :
      Exec.wp (if (initrd.map Prod.snd).getD dtbEnd > ramEnd then Exec.raise err
          else pure ⟨Exec.roundUp kernelEnd 8, initrd⟩)
        (fun layout after => Placed kernelEnd dtbLen initrdLen layout ∧
          layout.dtb = Exec.roundUp kernelEnd 8 ∧ after = state)
        (fun _ _ => True) True state := by
    rw [Exec.wp_ite]
    split
    · trivial
    · exact ⟨hplaced (not_lt.mp ‹_›), rfl, rfl⟩
  have habove := le_roundUp kernelEnd 8
  have haligned : 8 ∣ Exec.roundUp kernelEnd 8 := Exec.dvd_roundUp kernelEnd (by norm_num)
  rw [bootLayout, Exec.nextMultipleOf, Exec.wp_bind, Exec.wp_fits]
  refine ⟨fun _ => ?_, fun _ => trivial⟩
  rw [Exec.addU64, Exec.wp_bind, Exec.wp_fits]
  refine ⟨fun _ => ?_, fun _ => trivial⟩
  rw [Exec.wp_bind]
  cases initrdLen with
  | none => exact hlast fun htop => ⟨habove, haligned, .none htop⟩
  | some len =>
      rw [placeInitrd, Exec.nextMultipleOf, Exec.wp_bind, Exec.wp_fits]
      refine ⟨fun _ => ?_, fun _ => trivial⟩
      rw [Exec.addU64, Exec.wp_bind, Exec.wp_fits]
      refine ⟨fun _ => ?_, fun _ => trivial⟩
      exact hlast fun htop => ⟨habove, haligned,
        .some (le_roundUp _ _) (Exec.dvd_roundUp _ (by norm_num)) htop⟩

variable {B S : Type} [FlatBacking B] [ConsoleSink S]

theorem placeBlob_spec {m : Memory} {bus : Bus B S} (hbus : Holds m bus.cache)
    {errOf : Exception → BootError} {addr : ℕ} {data : List Byte} (hbase : ramBase ≤ addr)
    (htop : addr + data.length ≤ ramEnd) :
    Exec.wp (placeBlob errOf addr data) (fun _ after => Holds (m.write addr data) after.cache)
      (fun _ _ => Fallible B) False bus := by
  rw [placeBlob, Exec.wp_zoom]
  apply (writeBlob_spec hbus hbase ((Nat.le_add_right ..).trans htop) data).imp
  · exact fun _ _ hdone => hdone.1
  · exact fun _ _ hrefused => hrefused.resolve_right htop.not_gt
  · exact fun hfalse => hfalse

theorem placeRamdisk_spec {m : Memory} {bus : Bus B S} (hbus : Holds m bus.cache) {dtbEnd : ℕ}
    (hbase : ramBase ≤ dtbEnd) {initrd : Option (List Byte)} {range : Option (ℕ × ℕ)}
    (hplaced : InitrdPlaced dtbEnd (initrd.map List.length) range) :
    Exec.wp (placeRamdisk initrd range)
      (fun _ after => Holds (withRamdisk m initrd range) after.cache) (fun _ _ => Fallible B)
      False bus := by
  cases initrd with
  | none =>
      cases hplaced
      exact hbus
  | some bytes =>
      cases hplaced with
      | @some start len habove haligned htop => exact placeBlob_spec hbus (hbase.trans habove) htop

/-- The tree and the ramdisk, once the kernel is there and they have their places. -/
theorem placeRest_spec {m : Memory} {bus : Bus B S} {kernel tree : List Byte}
    {initrd : Option (List Byte)} {layout : BootLayout}
    (hbus : Holds (m.write kernelLoadAddr.toNat kernel) bus.cache)
    (hplaced : Placed (kernelLoadAddr.toNat + span kernel) tree.length (initrd.map List.length)
      layout) :
    Exec.wp (do
        placeBlob (.dtbPlace layout.dtb) layout.dtb tree
        placeRamdisk initrd layout.initrd
        pure (bootCpu (BitVec.ofNat 64 layout.dtb), layout))
      (fun result after => result = (bootCpu (BitVec.ofNat 64 layout.dtb), layout) ∧
        Holds (withImages m kernel tree initrd layout) after.cache)
      (fun _ _ => Fallible B) False bus := by
  have hbase : ramBase ≤ layout.dtb := by
    have hload : ramBase ≤ kernelLoadAddr.toNat := by decide
    exact hload.trans ((Nat.le_add_right ..).trans hplaced.above)
  rw [Exec.wp_bind]
  apply (placeBlob_spec hbus hbase hplaced.initrd.le_ramEnd).imp_post
  intro _ placed hholds
  rw [Exec.wp_bind]
  apply (placeRamdisk_spec hholds (hbase.trans (Nat.le_add_right ..)) hplaced.initrd).imp_post
  exact fun _ after hafter => ⟨rfl, hafter⟩

/-- **What `load_boot_images` leaves** for a raw kernel. -/
theorem loadBootImages_spec {m : Memory} {bus : Bus B S} (hbus : Holds m bus.cache)
    {kernel : List Byte} (hraw : ¬ Elf.magic <+: kernel) (dtb : List Byte)
    (initrd : Option (List Byte)) :
    Exec.wp (loadBootImages kernel dtb initrd)
      (fun result after => ∃ tree, recordInitrd dtb result.2.initrd = .ok tree ∧
        Placed (kernelLoadAddr.toNat + span kernel) tree.length (initrd.map List.length) result.2 ∧
        result.2.dtb = Exec.roundUp (kernelLoadAddr.toNat + span kernel) 8 ∧
        (hasRiscvImageHeader kernel → textOffset kernel = loadOffset) ∧
        Holds (withImages m kernel tree initrd result.2) after.cache ∧
        result.1 = bootCpu (BitVec.ofNat 64 result.2.dtb))
      (fun _ _ => True) True bus := by
  rw [loadBootImages, Exec.wp_bind, Exec.wp_zoom]
  apply (loadKernel_spec hbus hraw).imp
  · rintro kernelEnd loaded ⟨hloaded, hoffset⟩
    rw [Exec.wp_bind, Exec.wp_zoom]
    apply (bootLayout_placed kernelEnd dtb.length (initrd.map List.length) loaded).imp
    · rintro layout _ ⟨hplaced, hdtbAt, rfl⟩
      rw [Exec.wp_bind, patchedTree]
      cases hrecord : recordInitrd dtb layout.initrd with
      | error err => trivial
      | ok tree =>
          rw [hloaded.kernelEnd_eq, ← (recordInitrd_ok hrecord).1] at hplaced
          rw [hloaded.kernelEnd_eq] at hdtbAt
          rw [Exec.wp_pure]
          apply (placeRest_spec hloaded.holds hplaced).imp
          · rintro _ after ⟨rfl, hholds⟩
            exact ⟨tree, hrecord, hplaced, hdtbAt, hoffset, hholds, rfl⟩
          · exact fun _ _ _ => trivial
          · exact fun _ => trivial
    · exact fun _ _ _ => trivial
    · exact fun _ => trivial
  · exact fun _ _ _ => trivial
  · exact fun hfalse => hfalse.elim

/-- Images that are accepted and fit are loaded. -/
theorem loadBootImages_ok {m : Memory} {bus : Bus B S} (hbus : Holds m bus.cache)
    (hbacking : ¬ Fallible B) {kernel dtb tree : List Byte} {initrd : Option (List Byte)}
    (hraw : ¬ Elf.magic <+: kernel) (haccepted : ¬ ImageRefused B kernel) {layout : BootLayout}
    (hlayout : ∀ state : Bus B S,
      (bootLayout (kernelLoadAddr.toNat + span kernel) dtb.length (initrd.map List.length)).run
        state = .ok layout state)
    (hrecord : recordInitrd dtb layout.initrd = .ok tree) :
    ∃ after, (loadBootImages kernel dtb initrd).run bus =
      .ok (bootCpu (BitVec.ofNat 64 layout.dtb), layout) after := by
  have hwp : Exec.wp (loadBootImages kernel dtb initrd)
      (fun result _ => result = (bootCpu (BitVec.ofNat 64 layout.dtb), layout))
      (fun _ _ => False) False bus := by
    rw [loadBootImages, Exec.wp_bind, Exec.wp_zoom]
    apply (loadKernel_spec hbus hraw).imp
    · rintro kernelEnd loaded ⟨hloaded, -⟩
      obtain ⟨hplaced, -⟩ := (bootLayout_placed (kernelLoadAddr.toNat + span kernel) dtb.length
        (initrd.map List.length) loaded).of_run_ok (hlayout loaded)
      rw [← (recordInitrd_ok hrecord).1] at hplaced
      rw [hloaded.kernelEnd_eq, Exec.wp_bind, Exec.wp_zoom]
      apply Exec.wp_of_run_ok (hlayout loaded)
      rw [Exec.wp_bind, patchedTree, hrecord, Exec.wp_pure]
      apply (placeRest_spec hloaded.holds hplaced).imp
      · exact fun _ _ hdone => hdone.1
      · exact fun _ _ hfallible => hbacking hfallible
      · exact fun hfalse => hfalse
    · exact fun _ _ hrefused => haccepted hrefused
    · exact fun hfalse => hfalse
  obtain ⟨_, after, hrun, rfl⟩ := hwp.exists_ok
  exact ⟨after, hrun⟩

/-- **Boot images are placed exactly.**  Whenever a raw kernel, a well-formed device
tree with the two properties of the initial ramdisk, and a ramdisk or none are
accepted, memory holds all of them at once where the layout says: the kernel at its
load address, the tree with nothing but the two values changed to the ramdisk's range,
and the ramdisk in that range.  The memory the kernel declares, the tree and the
ramdisk are apart and in RAM, and every other byte is as it was. -/
theorem boot_images_placed {m : Memory} {bus after : Bus B S} (hbus : Holds m bus.cache)
    {kernel dtb : List Byte} (hraw : ¬ Elf.magic <+: kernel) {tree : Fdt.Tree}
    (hdtb : Fdt.WellFormed dtb tree) {p q : ℕ}
    (hstart : tree.lookup chosen initrdStart = some (p, 8))
    (hend : tree.lookup chosen initrdEnd = some (q, 8)) {initrd : Option (List Byte)} {cpu : Cpu}
    {layout : BootLayout}
    (hload : (loadBootImages kernel dtb initrd).run bus = .ok (cpu, layout) after) :
    ∃ (written : List Byte) (memory : Memory), Holds memory after.cache ∧
      Booted m kernel written initrd layout memory ∧ written.length = dtb.length ∧
      (layout.initrd = none → written = dtb) ∧
      ∀ start last, layout.initrd = some (start, last) →
        Fdt.Recorded dtb written (tree.offStruct + p) (tree.offStruct + q) start last := by
  obtain ⟨written, hrecord, hplaced, -, -, hholds, -⟩ :=
    (loadBootImages_spec hbus hraw dtb initrd).of_run_ok hload
  dsimp only at hrecord hplaced hholds
  refine ⟨written, _, hholds, booted_of_placed m hplaced, (recordInitrd_ok hrecord).1, ?_, ?_⟩
  · intro hnone
    rw [hnone] at hrecord
    cases hrecord
    rfl
  · intro start last hrange
    rw [hrange] at hrecord
    have hnames : initrdStart ≠ initrdEnd := by decide
    obtain ⟨patched, hset, hrecorded⟩ := hdtb.recorded hnames hstart hend start last
    have hsame : Except.ok written = Except.ok patched := hrecord.symm.trans hset
    cases hsame
    exact hrecorded

/-- A tree of a root with the node `chosen`, and nothing in it but the two properties. -/
def smallTree : Fdt.Tree where
  items := [.beginNode [], .beginNode (ascii "chosen"), .prop 0 (List.replicate 8 0),
    .prop 19 (List.replicate 8 0), .endNode, .endNode]
  names := fun nameoff => if nameoff = 0 then initrdStart else initrdEnd
  offStruct := 40
  offStrings := 112
  sizeStrings := 36

def smallDtb : List Byte :=
  [Fdt.fdtMagic, 148, 40, 112, 40, 17, 16, 0, 36, 72].flatMap Fdt.cell ++
    (Fdt.encode smallTree.items ++ Fdt.cell Fdt.fdtEnd) ++ (initrdStart ++ [0]) ++ (initrdEnd ++ [0])

theorem wellFormed_smallDtb : Fdt.WellFormed smallDtb smallTree where
  magic := by decide +kernel
  offStruct := by decide +kernel
  offStrings := by decide +kernel
  sizeStruct := by decide +kernel
  header := by decide +kernel
  inside := by decide +kernel
  structs := by decide +kernel
  apart := by decide +kernel
  valid := by
    intro item hitem
    simp only [smallTree, List.mem_cons, List.not_mem_nil, or_false] at hitem
    rcases hitem with rfl | rfl | rfl | rfl | rfl | rfl
    · exact ⟨by decide, by decide⟩
    · exact ⟨by decide, by decide⟩
    · exact ⟨by decide, by decide, ⟨by decide, by decide, by decide +kernel⟩, by decide⟩
    · exact ⟨by decide, by decide, ⟨by decide, by decide, by decide +kernel⟩, by decide⟩
    · trivial
    · trivial

/-- Four bytes of kernel and three of ramdisk, with that tree. -/
theorem boot_images_placed_small :
    ∃ (after : Bus FakeBacking (List Byte)) (cpu : Cpu) (layout : BootLayout)
      (written : List Byte) (memory : Memory),
      (loadBootImages [0x13, 0, 0, 0] smallDtb (some [1, 2, 3])).run (Sv39.busOver fun _ _ => 0) =
        .ok (cpu, layout) after ∧ Holds memory after.cache ∧
      Booted (flat fun _ _ => 0) [0x13, 0, 0, 0] written (some [1, 2, 3]) layout memory := by
  have hstart : smallTree.lookup chosen initrdStart = some (32, 8) := by decide +kernel
  have hend : smallTree.lookup chosen initrdEnd = some (52, 8) := by decide +kernel
  have haccepted : ¬ ImageRefused FakeBacking [0x13, 0, 0, 0] := by
    rintro (hfallible | hover | ⟨hheader, -⟩ | hspan)
    · exact not_fallible_fakeBacking hfallible
    · exact absurd hover (by decide)
    · exact absurd hheader (by decide)
    · exact absurd hspan (by decide)
  obtain ⟨patched, hrecord, -⟩ := wellFormed_smallDtb.recorded (by decide) hstart hend 0x80201000
    0x80201003
  have hlayout (state : Bus FakeBacking (List Byte)) :
      (bootLayout (kernelLoadAddr.toNat + span [0x13, 0, 0, 0]) smallDtb.length
        ((some [1, 2, 3]).map (List.length (α := Byte)))).run state =
        .ok ⟨0x80200008, some (0x80201000, 0x80201003)⟩ state := by
    have hkernelEnd : kernelLoadAddr.toNat + span [0x13, 0, 0, 0] = 0x80200004 := by decide
    have hdtb : smallDtb.length = 148 := by decide +kernel
    rw [hkernelEnd, hdtb]
    rfl
  have hholds := Sv39.holds_busOver fun _ _ => 0
  have hloads : ∃ after, (loadBootImages [0x13, 0, 0, 0] smallDtb (some [1, 2, 3])).run
      (Sv39.busOver fun _ _ => 0) = .ok (bootCpu (BitVec.ofNat 64 0x80200008),
        ⟨0x80200008, some (0x80201000, 0x80201003)⟩) after :=
    loadBootImages_ok hholds not_fallible_fakeBacking (by decide) haccepted hlayout hrecord
  obtain ⟨after, hload⟩ := hloads
  obtain ⟨written, memory, hmemory, hbooted, -⟩ :=
    boot_images_placed hholds (by decide) wellFormed_smallDtb hstart hend hload
  exact ⟨after, _, _, written, memory, hload, hmemory, hbooted⟩

end Baonix.Host

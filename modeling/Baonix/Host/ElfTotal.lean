import Baonix.Host.ElfExtent
import Baonix.Host.ElfSymbols

/-!
# The readers of an object are total

`load`, `extent` and `find_symbol` return on every file, unless a sum of an offset
leaves 64 bits.  The first two take a number of turns that the length of the file and
the size of the guest's memory bound; the last takes as many as the symbol tables
declare symbols, whether these are in the file or not.
-/

namespace Baonix.Host.Elf

open Baonix.Core Baonix.LittleEndian
open Exec (addU64 checkedAdd turns)
open PageCache (Holds)

/-! ## The program headers -/

/-- The first program header is in the address space. -/
def ProgramsFit (bytes : List Byte) : Prop :=
  Accepted bytes → 0 < (headerOf bytes).phnum → (headerOf bytes).phoff + 4 < 2 ^ 64

section Programs

variable {bytes : List Byte}

/-- A header that is read is followed by one in the address space. -/
theorem baseOf_succ_fits (hlength : bytes.length < 2 ^ 63) {i : ℕ}
    (hkind : baseOf bytes i + 4 ≤ bytes.length) : baseOf bytes (i + 1) + 4 < 2 ^ 64 := by
  have hentry : (headerOf bytes).phentsize < 256 ^ 2 := number_lt bytes 54
  have hnext : baseOf bytes (i + 1) = baseOf bytes i + (headerOf bytes).phentsize := by
    rw [baseOf, baseOf, Nat.succ_mul, Nat.add_assoc]
  omega

/-- Only so many headers are read. -/
theorem lt_of_kind (haccepted : Accepted bytes) {i : ℕ} (hphnum : 0 < (headerOf bytes).phnum)
    (hkind : baseOf bytes i + 4 ≤ bytes.length) : i < bytes.length / phdrLen + 1 := by
  have hentry : phdrLen ≤ (headerOf bytes).phentsize := haccepted.2.resolve_left hphnum.ne'
  exact entry_lt (by decide) hentry ((Nat.le_add_right _ 4).trans hkind)

/-! ## `extent` -/

section Extent

variable {State : Type}

/-- A turn of the loop of `extent`. -/
theorem extentOver_cons_spec (hlength : bytes.length < 2 ^ 63) {i : ℕ}
    (hfits : baseOf bytes i + 4 < 2 ^ 64) {is : List ℕ} {state : State}
    (hrest : baseOf bytes i + 4 ≤ bytes.length → ∀ last,
      Exec.wp (extentOver bytes (headerOf bytes) is last) (fun _ _ => True) (fun _ _ => True)
        False state) (last : ℕ) :
    Exec.wp (extentOver bytes (headerOf bytes) (i :: is) last)
      (fun _ _ => baseOf bytes i + 4 ≤ bytes.length) (fun _ _ => True) False state := by
  rw [extentOver, loadSegment_eq hfits]
  split
  on_goal 2 => trivial
  rename_i hkind
  rw [pure_bind]
  have hgoes (last : ℕ) : Exec.wp (extentOver bytes (headerOf bytes) is last)
      (fun _ _ => baseOf bytes i + 4 ≤ bytes.length) (fun _ _ => True) False state :=
    (hrest hkind last).imp_post (fun _ _ _ => hkind)
  by_cases hload : number 4 bytes (baseOf bytes i) = 1
  · rw [if_pos hload]
    dsimp only
    rw [fieldAt_eq (by omega)]
    split
    on_goal 2 => trivial
    rw [pure_bind, fieldAt_eq (by omega)]
    split
    on_goal 2 => trivial
    rw [pure_bind]
    exact hgoes _
  · rw [if_neg hload]
    exact hgoes last

theorem extentOver_spec (hlength : bytes.length < 2 ^ 63) {i : ℕ}
    (hfits : baseOf bytes i + 4 < 2 ^ 64) (n last : ℕ) (state : State) :
    Exec.wp (extentOver bytes (headerOf bytes) (List.range' i n) last) (fun _ _ => True)
      (fun _ _ => True) False state := by
  induction n generalizing i last with
  | zero => trivial
  | succ n ih =>
      rw [List.range'_succ]
      apply (extentOver_cons_spec hlength hfits (fun hkind last =>
        ih (baseOf_succ_fits hlength hkind) last) last).imp_post
      exact fun _ _ _ => trivial

/-- **`extent` returns.** -/
theorem extent_total (hlength : bytes.length < 2 ^ 63) (hfit : ProgramsFit bytes) (state : State) :
    Exec.wp (extent bytes) (fun _ _ => True) (fun _ _ => True) False state := by
  by_cases haccepted : Accepted bytes
  · rw [extent, programHeader_eq haccepted, pure_bind]
    rcases Nat.eq_zero_or_pos (headerOf bytes).phnum with hzero | hpos
    · rw [hzero]
      trivial
    · have hbase : baseOf bytes 0 + 4 < 2 ^ 64 := by
        rw [baseOf, Nat.zero_mul, Nat.add_zero]
        exact hfit haccepted hpos
      rw [List.range_eq_range']
      exact extentOver_spec hlength hbase _ 0 state
  · rw [extent, Exec.wp_bind]
    exact (programHeader_refuses haccepted state).imp_post (fun _ _ hfalse => hfalse.elim)

/-- A program header out of the address space ends `extent` in a panic. -/
theorem extent_panic (haccepted : Accepted bytes) (hphnum : 0 < (headerOf bytes).phnum)
    (hover : 2 ^ 64 ≤ (headerOf bytes).phoff + 4) (state : State) :
    (extent bytes).run state = .panic := by
  obtain ⟨n, hn⟩ := Nat.exists_eq_add_of_lt hphnum
  have hbase : 2 ^ 64 ≤ baseOf bytes 0 + 4 := by
    rw [baseOf, Nat.zero_mul, Nat.add_zero]
    exact hover
  rw [extent, programHeader_eq haccepted, pure_bind, hn, Nat.zero_add, List.range_succ_eq_map,
    extentOver, Exec.run_bind, loadSegment_panic hbase]

end Extent

/-- The turns of the loop of `extent`: each but the last reads its header. -/
def extentTurns (bytes : List Byte) : ℕ :=
  if Accepted bytes then
    turns (fun i => do
        let _ ← extentOver bytes (headerOf bytes) [i] 0
        pure ⟨⟩)
      (fun _ (_ : Unit) => 1) (List.range (headerOf bytes).phnum) ()
  else 0

theorem kind_of_extentOver (hlength : bytes.length < 2 ^ 63) {i last : ℕ} {State : Type}
    {state after : State}
    (hrun : (extentOver bytes (headerOf bytes) [i] 0).run state = .ok last after) :
    baseOf bytes i + 4 ≤ bytes.length := by
  by_cases hfits : baseOf bytes i + 4 < 2 ^ 64
  · have hnone (last : ℕ) : Exec.wp (extentOver bytes (headerOf bytes) [] last) (fun _ _ => True)
        (fun _ _ => True) False state := trivial
    exact (extentOver_cons_spec hlength hfits (fun _ => hnone) 0).of_run_ok hrun
  · rw [extentOver, Exec.run_bind, loadSegment_panic (not_lt.mp hfits)] at hrun
    cases hrun

theorem extentTurns_le (hlength : bytes.length < 2 ^ 63) :
    extentTurns bytes ≤ bytes.length / phdrLen + 2 := by
  rw [extentTurns]
  split
  on_goal 2 => exact Nat.zero_le _
  rename_i haccepted
  rcases Nat.eq_zero_or_pos (headerOf bytes).phnum with hzero | hpos
  · rw [hzero]
    exact Nat.zero_le _
  · have hbound (i : ℕ) (state after : Unit)
        (hrun : Exec.run (do
          let _ ← extentOver bytes (headerOf bytes) [i] 0
          pure ⟨⟩) state = .ok PUnit.unit after) : i < bytes.length / phdrLen + 1 := by
      obtain ⟨last, middle, hone, -⟩ := Exec.run_bind_eq_ok.mp hrun
      exact lt_of_kind haccepted hpos (kind_of_extentOver hlength hone)
    calc turns _ (fun _ (_ : Unit) => 1) (List.range (headerOf bytes).phnum) ()
        ≤ ((List.range (min (headerOf bytes).phnum (bytes.length / phdrLen + 1 + 1))).map
            fun _ => 1).sum := Exec.turns_range_le hbound (fun _ _ _ => le_rfl) ()
      _ = min (headerOf bytes).phnum (bytes.length / phdrLen + 1 + 1) := by simp
      _ ≤ bytes.length / phdrLen + 2 := min_le_right _ _

end Programs

/-! ## `load` -/

section Load

variable {B S : Type} [FlatBacking B] [ConsoleSink S] {bytes : List Byte}

/-- A cache that stands for a memory. -/
def Sound (bus : Bus B S) : Prop := ∃ m, Holds m bus.cache

theorem issue_total (store : Store) {bus : Bus B S} (hbus : Sound bus) :
    Exec.wp (issue store) (fun _ after => Sound after) (fun _ _ => True) False bus := by
  obtain ⟨m, hholds⟩ := hbus
  rw [issue, storeAt, Exec.wp_zoom]
  apply (Bus.store_spec hholds store.addr _ _).imp
  · exact fun _ after hafter => ⟨_, hafter.1⟩
  · exact fun _ _ _ => trivial
  · exact fun hfalse => hfalse

theorem each_issue_total (ss : List Store) {bus : Bus B S} (hbus : Sound bus) :
    Exec.wp (Exec.each issue ss) (fun _ after => Sound after) (fun _ _ => True) False bus := by
  induction ss generalizing bus with
  | nil => exact hbus
  | cons store ss ih =>
      rw [Exec.each, Exec.wp_bind]
      exact (issue_total store hbus).imp_post (fun _ middle hmiddle => ih hmiddle)

theorem loadOne_total (hlength : bytes.length < 2 ^ 63) {i : ℕ}
    (hfits : baseOf bytes i + 4 < 2 ^ 64) {bus : Bus B S} (hbus : Sound bus) :
    Exec.wp (loadOne bytes (headerOf bytes) i)
      (fun _ after => baseOf bytes (i + 1) + 4 < 2 ^ 64 ∧ Sound after) (fun _ _ => True) False
      bus := by
  by_cases hreadable : ReadableAt bytes i
  · rw [loadOne_eq hlength hreadable]
    exact (each_issue_total _ hbus).imp_post
      (fun _ _ hafter => ⟨baseOf_succ_fits hlength hreadable.kind, hafter⟩)
  · rw [loadOne_truncated hlength hfits hreadable]
    trivial

/-- **`load` returns.** -/
theorem load_total (hlength : bytes.length < 2 ^ 63) (hfit : ProgramsFit bytes) {bus : Bus B S}
    (hbus : Sound bus) :
    Exec.wp (load bytes) (fun _ _ => True) (fun _ _ => True) False bus := by
  by_cases haccepted : Accepted bytes
  · rw [load, programHeader_eq haccepted, pure_bind, Exec.wp_bind]
    have hstart : (0 < (headerOf bytes).phnum → baseOf bytes 0 + 4 < 2 ^ 64) ∧ Sound bus := by
      rw [baseOf, Nat.zero_mul, Nat.add_zero]
      exact ⟨hfit haccepted, hbus⟩
    apply (Exec.wp_each_range (fun i after =>
      (i < (headerOf bytes).phnum → baseOf bytes i + 4 < 2 ^ 64) ∧ Sound after) hstart ?_).imp_post
    exact fun _ _ _ => trivial
    · intro i hi middle hmiddle
      exact (loadOne_total hlength (hmiddle.1 hi) hmiddle.2).imp_post
        (fun _ _ hafter => ⟨fun _ => hafter.1, hafter.2⟩)
  · rw [load, Exec.wp_bind]
    exact (programHeader_refuses haccepted bus).imp_post (fun _ _ hfalse => hfalse.elim)

end Load

/-! ## The turns of `load` -/

section LoadTurns

variable {B S : Type} [MemBacking B] [ConsoleSink S] {bytes : List Byte}

instance (i : ℕ) : Decidable (ReadableAt bytes i) :=
  decidable_of_iff (baseOf bytes i + 4 ≤ bytes.length ∧
      (∀ s ∈ segmentOf bytes i, baseOf bytes i + 48 ≤ bytes.length) ∧
      ∀ s ∈ segmentOf bytes i, s.offset + s.filesz ≤ bytes.length)
    ⟨fun hparts => ⟨hparts.1, hparts.2.1, hparts.2.2⟩,
      fun hreadable => ⟨hreadable.kind, hreadable.fields, hreadable.data⟩⟩

/-- A turn of the loop of `write_segment`, with the eight that fill a word. -/
def storeCost (store : Store) (_ : Bus B S) : ℕ := if store.bytes.length = 8 then 9 else 1

/-- A turn over a program header, and those that write its segment. -/
def loadCost (bytes : List Byte) (i : ℕ) (bus : Bus B S) : ℕ :=
  1 + if ReadableAt bytes i then
    turns issue storeCost ((segmentOf bytes i).elim [] (Segment.stores bytes)) bus
  else 0

/-- The turns of the loops of `load`. -/
def loadTurns (bytes : List Byte) (bus : Bus B S) : ℕ :=
  if Accepted bytes then
    turns (loadOne bytes (headerOf bytes)) (loadCost bytes) (List.range (headerOf bytes).phnum) bus
  else 0

/-- How much of a window there is from an address on. -/
def room (place : ℕ) : ℕ :=
  if ramBase ≤ place ∧ place < ramEnd then ramEnd - place
  else if Bus.clintBase.toNat ≤ place ∧ place < Bus.clintBase.toNat + Bus.clintSize.toNat then
    Bus.clintBase.toNat + Bus.clintSize.toNat - place
  else if Bus.uartBase.toNat ≤ place ∧ place < Bus.uartBase.toNat + Bus.uartSize.toNat then
    Bus.uartBase.toNat + Bus.uartSize.toNat - place
  else 0

theorem room_le (place : ℕ) : room place ≤ ramSize := by
  have hclint : Bus.clintSize.toNat ≤ ramSize := by decide
  have huart : Bus.uartSize.toNat ≤ ramSize := by decide
  rw [room, ramEnd]
  split
  · omega
  split
  · omega
  split <;> omega

/-- A store uses up room. -/
theorem room_of_inSomeWindow {addr : BitVec 64} {size : ℕ} (hsize : 0 < size)
    (hwindow : Bus.inSomeWindow addr size) :
    size ≤ room addr.toNat ∧ room (addr.toNat + size) ≤ room addr.toNat - size := by
  have hclintBase : Bus.clintBase.toNat = 0x02000000 := rfl
  have hclintSize : Bus.clintSize.toNat = 0x00010000 := rfl
  have huartBase : Bus.uartBase.toNat = 0x10000000 := rfl
  have huartSize : Bus.uartSize.toNat = 0x100 := rfl
  simp only [room, ramEnd, ramBase, ramSize, hclintBase, hclintSize, huartBase, huartSize]
  rcases hwindow with hram | hclint | huart
  · have hbounds := bounds_of_inWindow (by decide) hram
    simp only [ramBase, ramSize] at hbounds
    rw [if_pos (by omega)]
    refine ⟨by omega, ?_⟩
    split_ifs <;> omega
  · have hbounds := bounds_of_inWindow (by decide) hclint
    rw [hclintBase, hclintSize] at hbounds
    rw [if_neg (by omega), if_pos (by omega)]
    refine ⟨by omega, ?_⟩
    split_ifs <;> omega
  · have hbounds := bounds_of_inWindow (by decide) huart
    rw [huartBase, huartSize] at hbounds
    rw [if_neg (by omega), if_neg (by omega), if_pos (by omega)]
    refine ⟨by omega, ?_⟩
    split_ifs <;> omega

/-- **The stores of a segment** are no more than there is room for, and one. -/
theorem turns_stores_le (addr : BitVec 64) (bytes : List Byte) (bus : Bus B S) :
    turns issue storeCost (stores addr bytes) bus ≤ 2 * room addr.toNat + 9 := by
  induction addr, bytes using stores_induction generalizing bus with
  | nil addr =>
      rw [stores_nil]
      exact Nat.zero_le _
  | cons addr first rest hsize hstores ih =>
      rw [hstores]
      have hcost : storeCost ⟨addr, first⟩ bus ≤ 2 * first.length ∧
          storeCost ⟨addr, first⟩ bus ≤ 9 := by
        rw [storeCost]
        dsimp only
        split <;> omega
      calc turns issue storeCost
            (⟨addr, first⟩ :: stores (addr + BitVec.ofNat 64 first.length) rest) bus
          ≤ storeCost ⟨addr, first⟩ bus +
              (2 * room addr.toNat + 9 - storeCost ⟨addr, first⟩ bus) := by
            apply Exec.turns_cons_le
            intro after hstore
            have hwindow := (issue_inSomeWindow _ bus).of_run_ok hstore
            dsimp only at hwindow
            have hroom := room_of_inSomeWindow (by omega) hwindow
            have hbehind := ih after
            rw [toNat_advance (fits_of_inSomeWindow hwindow)] at hbehind
            omega
        _ = 2 * room addr.toNat + 9 := by omega

theorem loadCost_le (i : ℕ) (bus : Bus B S) : loadCost bytes i bus ≤ 2 * ramSize + 10 := by
  rw [loadCost]
  split
  · cases segmentOf bytes i with
    | none => exact (by norm_num [turns] : 1 + 0 ≤ 2 * ramSize + 10)
    | some s =>
        have hstores := turns_stores_le (BitVec.ofNat 64 s.paddr) (s.image bytes) bus
        have hroom := room_le (BitVec.ofNat 64 s.paddr).toNat
        rw [Option.elim_some, Segment.stores]
        omega
  · omega

theorem loadTurns_le (hlength : bytes.length < 2 ^ 63) (bus : Bus B S) :
    loadTurns bytes bus ≤ (bytes.length / phdrLen + 2) * (2 * ramSize + 10) := by
  rw [loadTurns]
  split
  on_goal 2 => exact Nat.zero_le _
  rename_i haccepted
  rcases Nat.eq_zero_or_pos (headerOf bytes).phnum with hzero | hpos
  · rw [hzero]
    exact Nat.zero_le _
  · have hbound (i : ℕ) (state after : Bus B S)
        (hrun : (loadOne bytes (headerOf bytes) i).run state = .ok ⟨⟩ after) :
        i < bytes.length / phdrLen + 1 :=
      lt_of_kind haccepted hpos (readable_of_loadOne hlength hrun).kind
    calc turns (loadOne bytes (headerOf bytes)) (loadCost bytes)
          (List.range (headerOf bytes).phnum) bus
        ≤ ((List.range (min (headerOf bytes).phnum (bytes.length / phdrLen + 1 + 1))).map
            fun _ => 2 * ramSize + 10).sum :=
          Exec.turns_range_le hbound (fun i _ state => loadCost_le i state) bus
      _ = min (headerOf bytes).phnum (bytes.length / phdrLen + 1 + 1) * (2 * ramSize + 10) := by
          simp
      _ ≤ (bytes.length / phdrLen + 2) * (2 * ramSize + 10) :=
          Nat.mul_le_mul_right _ (min_le_right _ _)

/-- A store covers eight bytes at most. -/
theorem length_le_stores (addr : BitVec 64) (bytes : List Byte) :
    bytes.length ≤ 8 * (stores addr bytes).length := by
  induction addr, bytes using stores_induction with
  | nil addr => exact Nat.zero_le _
  | cons addr first rest hsize hstores ih =>
      rw [hstores, List.length_append, List.length_cons]
      omega

/-- A header that is read: a turn for it, and one for every eight bytes of its segment. -/
theorem le_loadCost (hlength : bytes.length < 2 ^ 63) {i : ℕ} (hreadable : ReadableAt bytes i)
    {bus after : Bus B S} (hrun : (loadOne bytes (headerOf bytes) i).run bus = .ok ⟨⟩ after) :
    1 + (segmentOf bytes i).elim 0 Segment.size / 8 ≤ loadCost bytes i bus := by
  rw [loadOne_eq hlength hreadable] at hrun
  rw [loadCost, if_pos hreadable]
  apply Nat.add_le_add_left
  cases hsegment : segmentOf bytes i with
  | none => exact Nat.zero_le _
  | some s =>
      rw [hsegment, Option.elim_some] at hrun
      have hsize := Segment.length_image (hreadable.data s hsegment)
      have hstores := length_le_stores (BitVec.ofNat 64 s.paddr) (s.image bytes)
      calc s.size / 8 ≤ (s.stores bytes).length := by
            rw [Segment.stores]
            omega
        _ = ((s.stores bytes).map fun _ => 1).sum := by simp
        _ ≤ turns issue storeCost (s.stores bytes) bus := by
            apply Exec.sum_le_turns _ hrun
            intro store _ state _ _
            rw [storeCost]
            split <;> norm_num

theorem le_loadTurns (hlength : bytes.length < 2 ^ 63) {bus after : Bus B S} {entry : ℕ}
    (hload : (load bytes).run bus = .ok entry after) :
    ((List.range (headerOf bytes).phnum).map fun i =>
      1 + (segmentOf bytes i).elim 0 Segment.size / 8).sum ≤ loadTurns bytes bus := by
  obtain ⟨hreadable, -⟩ := load_ok hlength hload
  rw [load, programHeader_eq hreadable.accepted, pure_bind] at hload
  obtain ⟨⟨⟩, middle, heach, -⟩ := Exec.run_bind_eq_ok.mp hload
  rw [loadTurns, if_pos hreadable.accepted]
  apply Exec.sum_le_turns _ heach
  intro i hi state last hone
  exact le_loadCost hlength (hreadable.headers i (List.mem_range.mp hi)) hone

end LoadTurns

/-! ## The readers -/

/-- **The readers of an object return, after turns the file bounds.**  On every file
whose first program header is in the address space, `load` and `extent` return, `extent`
after a turn for each header there is room for, `load` after such a turn and those that
fill a memory for each.  On every file whose section headers and symbols are in the
address space, `find_symbol` returns, after the turns its sections declare. -/
theorem readers_total {B S : Type} [FlatBacking B] [ConsoleSink S] {bytes : List Byte}
    (hlength : bytes.length < 2 ^ 63) :
    (ProgramsFit bytes →
      (∀ bus : Bus B S, Sound bus → (load bytes).run bus ≠ .panic ∧
        loadTurns bytes bus ≤ (bytes.length / phdrLen + 2) * (2 * ramSize + 10)) ∧
      (extent bytes).run () ≠ .panic ∧ extentTurns bytes ≤ bytes.length / phdrLen + 2) ∧
    (SectionsFit bytes → ∀ name,
      (∃ result, (findSymbol bytes name).run () = .error result ()) ∧
        findTurns bytes name ≤ declaredTurns bytes) := by
  refine ⟨fun hfit => ⟨fun bus hbus => ⟨?_, loadTurns_le hlength bus⟩, ?_,
    extentTurns_le hlength⟩, fun hfit name => ⟨findSymbol_total hlength hfit name,
    findTurns_le hlength name⟩⟩
  · exact fun hpanic => (load_total hlength hfit hbus).of_run_panic hpanic
  · exact fun hpanic => (extent_total hlength hfit ()).of_run_panic hpanic

/-- An object whose segment is nothing but eight bytes in RAM. -/
theorem readers_total_tiny :
    loadTurns tinyElf (Sv39.busOver fun _ _ => 0) ≤ 4 * (2 * ramSize + 10) ∧
      extentTurns tinyElf ≤ 4 ∧ findTurns tinyElf [0x74] ≤ 0 := by
  have hprograms : ProgramsFit tinyElf := fun _ _ => by decide +kernel
  have hsections : SectionsFit tinyElf :=
    ⟨fun _ _ _ => by decide +kernel, fun i hi => absurd hi (by
      have hshnum : (tableOf tinyElf).shnum = 0 := by decide +kernel
      rw [hshnum]
      exact Nat.not_lt_zero i)⟩
  have hshort : tinyElf.length < 2 ^ 63 := by decide +kernel
  obtain ⟨hload, hfind⟩ := @readers_total FakeBacking (List Byte) _ _ tinyElf hshort
  obtain ⟨hloads, -, hextent⟩ := hload hprograms
  have hlength : tinyElf.length / phdrLen + 2 = 4 := by decide +kernel
  have hdeclared : declaredTurns tinyElf = 0 := by decide +kernel
  rw [hlength] at hloads hextent
  refine ⟨(hloads _ ⟨_, Sv39.holds_busOver _⟩).2, hextent, ?_⟩
  rw [← hdeclared]
  exact (hfind hsections [0x74]).2

/-! ## More turns than the file and the memory -/

/-- Nine segments, each of them all of RAM. -/
def manyElf : List Byte :=
  elfHeader 64 9 0 0 ++ (List.replicate 9 (segmentHeader ⟨0, ramBase, 0, ramSize⟩)).flatten

def sectionHeader (kind offset size link entsize : ℕ) : List Byte :=
  List.replicate 4 0 ++ toBytes 4 kind ++ List.replicate 16 0 ++ toBytes 8 offset ++
    toBytes 8 size ++ toBytes 4 link ++ List.replicate 12 0 ++ toBytes 8 entsize

/-- A symbol table that declares more symbols than a file can have, without strings. -/
def hugeElf : List Byte :=
  elfHeader 0 0 64 1 ++ sectionHeader shtSymtab 0 (2 ^ 62) 1 symLen ++ sectionHeader 3 0 0 0 0

/-- A program header at the end of the address space. -/
def farElf : List Byte := elfHeader (2 ^ 64 - 1) 1 0 0

theorem load_manyElf :
    ∃ after : Bus FakeBacking (List Byte),
      (load manyElf).run (Sv39.busOver fun _ _ => 0) = .ok (headerOf manyElf).entry after ∧
        manyElf.length + ramSize < loadTurns manyElf (Sv39.busOver fun _ _ => 0) := by
  have hshort : manyElf.length < 2 ^ 63 := by decide +kernel
  have hreadable : Readable manyElf := ⟨by decide +kernel, by decide +kernel⟩
  have hsegments : segments manyElf = List.replicate 9 ⟨0, ramBase, 0, ramSize⟩ := by
    decide +kernel
  have hram : ∀ s ∈ segments manyElf, InRam s.paddr s.size := by
    intro s hs
    rw [hsegments] at hs
    obtain ⟨-, rfl⟩ := List.mem_replicate.mp hs
    exact ⟨by decide, by decide⟩
  obtain ⟨after, hload⟩ := exists_load hshort hreadable not_fallible_fakeBacking
    (Sv39.holds_busOver fun _ _ => 0) hram
  have hturns := le_loadTurns hshort hload
  have hmany : manyElf.length + ramSize < ((List.range (headerOf manyElf).phnum).map fun i =>
      1 + (segmentOf manyElf i).elim 0 Segment.size / 8).sum := by decide +kernel
  exact ⟨after, hload, hmany.trans_le hturns⟩

/-- The table it declares. -/
def hugeTable : SymbolTable := ⟨[], 0, 2 ^ 62, symLen⟩

theorem find_hugeElf : hugeElf.length + ramSize < findTurns hugeElf [0x74] := by
  have hshort : hugeElf.length < 2 ^ 63 := by decide +kernel
  have hrecognized : recognized hugeElf := by decide +kernel
  have hlong : ¬ (tableOf hugeElf).shentsize < shdrLen := by decide +kernel
  have hshnum : (tableOf hugeElf).shnum = 1 := by decide +kernel
  have htable : ((symbolTable hugeElf (tableOf hugeElf) 0).run ()).value = some (some hugeTable) := by
    decide +kernel
  obtain ⟨⟨⟩, hrun⟩ := Outcome.eq_ok_of_value htable
  have hmany : hugeElf.length + ramSize < hugeTable.symSize / hugeTable.entsize := by
    decide +kernel
  have hfits (n : ℕ) (hn : n < hugeTable.symSize / hugeTable.entsize) :
      n * hugeTable.entsize < 2 ^ 64 ∧ hugeTable.at n + 4 < 2 ^ 64 := by
    simp only [SymbolTable.at, hugeTable, symLen] at hn ⊢
    omega
  have hcount := le_turns_of_unnamed hshort (rfl : hugeTable.strs = [])
    (List.cons_ne_nil (0x74 : Byte) []) hfits
  calc hugeElf.length + ramSize < hugeTable.symSize / hugeTable.entsize := hmany
    _ ≤ sectionCost hugeElf [0x74] (tableOf hugeElf) 0 () := by
        rw [sectionCost_of_table hrun]
        exact hcount.trans (Nat.le_add_left _ _)
    _ ≤ turns (sectionTurn hugeElf [0x74] (tableOf hugeElf))
          (sectionCost hugeElf [0x74] (tableOf hugeElf)) [0] () := Exec.cost_le_turns _ _ _
    _ = findTurns hugeElf [0x74] := by
        rw [findTurns, sectionTable_eq, if_pos hrecognized]
        change _ = if (tableOf hugeElf).shentsize < shdrLen then 0 else _
        rw [if_neg hlong, hshnum]
        rfl

/-- Loading nine segments that are all of RAM, and looking for a symbol in a table that
declares more of them than there are, take more turns than the file has bytes and RAM
together; and a header at the end of the address space is a panic. -/
theorem readers_exceed :
    (∃ after : Bus FakeBacking (List Byte),
      (load manyElf).run (Sv39.busOver fun _ _ => 0) = .ok (headerOf manyElf).entry after ∧
        manyElf.length + ramSize < loadTurns manyElf (Sv39.busOver fun _ _ => 0)) ∧
      hugeElf.length + ramSize < findTurns hugeElf [0x74] ∧
      (extent farElf).run () = .panic :=
  ⟨load_manyElf, find_hugeElf,
    extent_panic (by decide +kernel) (by decide +kernel) (by decide +kernel) ()⟩

end Baonix.Host.Elf

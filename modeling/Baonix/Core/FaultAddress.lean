import Baonix.Core.AtomicFaults
import Baonix.Core.LoadExtension

/-!
# The address a fault reports

The MMU knows the virtual address and reports it.  The bus knows the physical
one only, and reports the start of what it refused.
-/

namespace Baonix.Core

open LittleEndian (Byte)
open Exec (Keeps Preserving)
open PageCache (Holds)

/-- The range an instruction accesses and how it is translated. -/
structure DataAccess where
  vaddr : BitVec 64
  size : ℕ
  kind : Access

/-- The access of a LOAD, a STORE, LR, SC or an AMO. -/
def dataAccess (cpu : Cpu) (insn : Insn) : Option DataAccess :=
  if Insn.opcode insn = 0x03 then
    (Rv64i.loadOf insn).map fun width =>
      ⟨cpu.reg (Insn.rs1 insn) + Insn.immI insn, width.1, .load⟩
  else if Insn.opcode insn = 0x23 then
    (Rv64i.storeOf insn).map fun size =>
      ⟨cpu.reg (Insn.rs1 insn) + Insn.immS insn, size, .store⟩
  else if Insn.opcode insn = 0x2F then
    (Rv64a.sizeOf insn).map fun size => ⟨cpu.reg (Insn.rs1 insn), size, .store⟩
  else none

namespace Machine

variable {B S : Type}

section Bytes

variable [MemBacking B]

/-- A byte of a straddling read. -/
def readByte (vaddr : BitVec 64) (access : Access) (i : ℕ) : MachineM B S PUnit := do
  let pa ← translate (vaddr + BitVec.ofNat 64 i) access
  let _ ← busLoad access pa 1
  pure ()

/-- A byte of a straddling write. -/
def writeByte [ConsoleSink S] (vaddr value : BitVec 64) (i : ℕ) : MachineM B S PUnit := do
  let pa ← translate (vaddr + BitVec.ofNat 64 i) .store
  busStore pa 1 ((value >>> (8 * i)) &&& 0xFF)
  onCpu (·.invalidateReservation pa 1)

theorem writeEach_eq [ConsoleSink S] (vaddr value : BitVec 64) (offsets : List ℕ) :
    (writeEach vaddr value offsets : MachineM B S PUnit) =
      Exec.each (writeByte vaddr value) offsets := by
  induction offsets with
  | nil => rfl
  | cons i rest ih =>
      funext m
      simp only [writeEach, Exec.each, writeByte, ih, bind]
      cases translate (vaddr + BitVec.ofNat 64 i) .store m with
      | ok pa middle =>
          dsimp only
          cases busStore pa 1 ((value >>> (8 * i)) &&& 0xFF) middle <;> rfl
      | error err middle => rfl
      | panic => rfl

theorem readEach_eq (vaddr : BitVec 64) (access : Access) (offsets : List ℕ) :
    (readEach vaddr access offsets >>= fun _ => pure ⟨⟩ : MachineM B S PUnit) =
      Exec.each (readByte vaddr access) offsets := by
  induction offsets with
  | nil => rfl
  | cons i rest ih =>
      funext m
      simp only [readEach, Exec.each, readByte, bind]
      cases translate (vaddr + BitVec.ofNat 64 i) access m with
      | ok pa middle =>
          dsimp only
          cases busLoad access pa 1 middle with
          | ok byte next =>
              have hrest := congrFun ih next
              simp only [bind] at hrest
              change _ = Exec.each (readByte vaddr access) rest next
              rw [← hrest]
              dsimp only
              cases readEach vaddr access rest next <;> rfl
          | error err next => rfl
          | panic => rfl
      | error err middle => rfl
      | panic => rfl

/-- A straddling read fails as its loop does. -/
theorem readEach_error (vaddr : BitVec 64) (access : Access) (offsets : List ℕ)
    {m after : Machine B S} {err : Exception} :
    (readEach vaddr access offsets).run m = .error err after ↔
      (Exec.each (readByte vaddr access) offsets).run m = .error err after := by
  rw [← readEach_eq, Exec.run_bind_error]
  constructor
  · exact .inl
  · rintro (hread | ⟨_, _, -, hpure⟩)
    · exact hread
    · cases hpure

end Bytes

/-! ## The first byte refused -/

section Refusal

variable [FlatBacking B]

/-- The cache stands for some memory. -/
def Intact (m : Machine B S) : Prop := ∃ memory, Holds memory m.bus.cache

theorem keeps_intact {Value : Type} {program : MachineM B S Value}
    (hprogram : ∀ (memory : Memory) (m : Machine B S), Holds memory m.bus.cache →
      Exec.wp program (fun _ after => Intact after) (fun _ after => Intact after) False m) :
    Keeps (Preserving (@Intact B S _)) program := by
  intro m
  by_cases hm : Intact m
  · obtain ⟨memory, hmemory⟩ := hm
    exact (hprogram memory m hmemory).imp (fun _ _ hafter _ => hafter)
      (fun _ _ hafter _ => hafter) (fun hfalse => hfalse.elim)
  · exact (Exec.wp_any program m).imp (fun _ _ _ hm' => absurd hm' hm)
      (fun _ _ _ hm' => absurd hm' hm) (fun _ => trivial)

theorem intact_accesses [ConsoleSink S] : Accesses (Preserving (@Intact B S _)) where
  reserve _ _ hm := hm
  translate vaddr access := keeps_intact fun memory _ hm =>
    (translate_spec hm vaddr access).imp (fun _ _ hafter => ⟨memory, hafter.2.holds⟩)
      (fun _ _ hafter => ⟨memory, hafter.2.holds⟩) (fun hfalse => hfalse)
  busLoad kind addr size := keeps_intact fun memory _ hm =>
    (busLoad_spec hm kind addr size).imp (fun _ _ hafter => ⟨memory, hafter.1.holds⟩)
      (fun _ _ hafter => ⟨memory, hafter.1.holds⟩) (fun hfalse => hfalse)
  busStore addr size value := keeps_intact fun memory _ hm => by
    apply (busStore_spec hm addr size value).imp
    · exact fun _ _ hafter => ⟨_, hafter.1⟩
    · rintro err after (⟨-, -, hholds⟩ | ⟨-, -, -, left, -, hholds⟩)
      · exact ⟨memory, hholds⟩
      · exact ⟨left, hholds⟩
    · exact fun hfalse => hfalse

/-- The byte at a virtual address is refused: by the page tables, or by the bus. -/
inductive Refused (access : Access) (vaddr : BitVec 64) (m : Machine B S) : Prop
  | page {after : Machine B S}
      (htranslate : (translate vaddr access).run m = .error (Mmu.fault access vaddr) after)
  | nowhere {pa : BitVec 64} {after : Machine B S}
      (htranslate : (translate vaddr access).run m = .ok pa after)
      (hnowhere : ¬ Bus.inSomeWindow pa 1)

variable [ConsoleSink S]

/-- The access to one of the bytes, made on its own. -/
def accessByte (insn : Insn) (start : Machine B S) (access : DataAccess) (i : ℕ) :
    MachineM B S PUnit :=
  if Insn.opcode insn = 0x23 then writeByte access.vaddr (start.cpu.reg (Insn.rs2 insn)) i
  else readByte access.vaddr access.kind i

/-- The bytes before byte `i` can be accessed, one by one; that byte is refused. -/
def FirstRefused (insn : Insn) (start : Machine B S) (access : DataAccess) (i : ℕ) : Prop :=
  i < access.size ∧ ∃ state,
    (Exec.each (accessByte insn start access) (List.range i)).run start = .ok ⟨⟩ state ∧
      Refused access.kind (access.vaddr + BitVec.ofNat 64 i) state

/-- How the access to a byte ends, given how its translation does. -/
inductive ByteFailed (access : Access) (vaddr : BitVec 64) (state after : Machine B S) :
    Exception → Prop
  | untranslated {err : Exception} (htranslate : (translate vaddr access).run state = .error err after)
      (herr : err = Mmu.fault access vaddr ∨ ∃ addr, err = .backingFailure addr) :
      ByteFailed access vaddr state after err
  | nowhere {err : Exception} {pa : BitVec 64} {middle : Machine B S}
      (htranslate : (translate vaddr access).run state = .ok pa middle)
      (hnowhere : ¬ Bus.inSomeWindow pa 1)
      (herr : err = .loadAccessFault pa ∨ err = .storeAccessFault pa) :
      ByteFailed access vaddr state after err
  | medium {pa : BitVec 64} {middle : Machine B S} (addr : BitVec 64)
      (htranslate : (translate vaddr access).run state = .ok pa middle)
      (hwindow : Bus.inSomeWindow pa 1) : ByteFailed access vaddr state after (.backingFailure addr)

theorem accessByte_spec {insn : Insn} {start : Machine B S} {access : DataAccess}
    (hkind : Insn.opcode insn = 0x23 → access.kind = .store) (i : ℕ) {memory : Memory}
    {state : Machine B S} (hstate : Holds memory state.bus.cache) :
    Exec.wp (accessByte insn start access i)
      (fun _ _ => ∃ pa middle, (translate (access.vaddr + BitVec.ofNat 64 i) access.kind).run state =
        .ok pa middle ∧ Bus.inSomeWindow pa 1)
      (fun err after =>
        ByteFailed access.kind (access.vaddr + BitVec.ofNat 64 i) state after err) False state := by
  have hbyte : (Bus.widthOf 1).isSome := rfl
  have hserved {pa : BitVec 64} : ¬ Bus.Served pa 1 → ¬ Bus.inSomeWindow pa 1 :=
    fun hrefused hwindow => hrefused ⟨hbyte, hwindow⟩
  rw [accessByte]
  split
  · next hopcode =>
      rw [hkind hopcode, writeByte, Exec.wp_bind]
      apply (translate_spec hstate _ .store).attach.imp
      · rintro pa middle ⟨hpa, -, hmiddle⟩
        rw [Exec.wp_bind]
        apply (busStore_spec hmiddle.holds pa 1 _).imp
        · rintro _ after ⟨-, hwindow⟩
          exact ⟨pa, middle, hpa, hwindow.2⟩
        · rintro err after (⟨herr, hrefused, -⟩ | ⟨rfl, hram, -⟩)
          · exact .nowhere hpa (hserved hrefused) (.inr herr)
          · exact .medium _ hpa (.inl hram)
        · exact fun hfalse => hfalse
      · rintro err after ⟨hrun, hfailed, -⟩
        exact .untranslated hrun (hfailed.imp_right fun ⟨addr, heq, _⟩ => ⟨addr, heq⟩)
      · exact fun hfalse => hfalse
  · rw [readByte, Exec.wp_bind]
    apply (translate_spec hstate _ access.kind).attach.imp
    · rintro pa middle ⟨hpa, -, hmiddle⟩
      rw [Exec.wp_bind]
      apply (busLoad_spec hmiddle.holds access.kind pa 1).imp
      · rintro _ after ⟨-, hwindow, -⟩
        exact ⟨pa, middle, hpa, hwindow.2⟩
      · rintro err after ⟨-, ⟨herr, hrefused⟩ | ⟨rfl, hram, -⟩⟩
        · exact .nowhere hpa (hserved hrefused) (.inl herr)
        · exact .medium _ hpa (.inl hram)
      · exact fun hfalse => hfalse
    · rintro err after ⟨hrun, hfailed, -⟩
      exact .untranslated hrun (hfailed.imp_right fun ⟨addr, heq, _⟩ => ⟨addr, heq⟩)
    · exact fun hfalse => hfalse

omit [ConsoleSink S] in
/-- A byte whose access ends with a fault is refused. -/
theorem ByteFailed.refused {access : Access} {vaddr : BitVec 64} {state after : Machine B S}
    {err : Exception} (hfailed : ByteFailed access vaddr state after err) (herr : err.isMemory) :
    Refused access vaddr state := by
  cases hfailed with
  | untranslated htranslate hcause =>
      rcases hcause with rfl | ⟨addr, rfl⟩
      · exact .page htranslate
      · cases herr
  | nowhere htranslate hnowhere _ => exact .nowhere htranslate hnowhere
  | medium addr _ _ => cases herr

/-- The access to a byte that is refused ends with a fault. -/
theorem Refused.accessByte {insn : Insn} (start : Machine B S) {access : DataAccess}
    (hkind : Insn.opcode insn = 0x23 → access.kind = .store) {i : ℕ} {state : Machine B S}
    (hstate : Intact state)
    (hrefused : Refused access.kind (access.vaddr + BitVec.ofNat 64 i) state) :
    ∃ err after, (accessByte insn start access i).run state = .error err after ∧
      err.isMemory ∧ ByteFailed access.kind (access.vaddr + BitVec.ofNat 64 i) state after err := by
  obtain ⟨memory, hmemory⟩ := hstate
  have hwp : Exec.wp (Machine.accessByte insn start access i) (fun _ _ => False)
      (fun err after => err.isMemory ∧
        ByteFailed access.kind (access.vaddr + BitVec.ofNat 64 i) state after err) False state := by
    apply (accessByte_spec hkind i hmemory).imp
    · rintro _ after ⟨pa, middle, hpa, hwindow⟩
      cases hrefused with
      | page htranslate => rw [hpa] at htranslate; cases htranslate
      | nowhere htranslate hnowhere =>
          rw [hpa] at htranslate
          cases htranslate
          exact hnowhere hwindow
    · intro err after hfailed
      refine ⟨?_, hfailed⟩
      cases hfailed with
      | untranslated htranslate hcause =>
          cases hrefused with
          | page hpage =>
              rw [htranslate] at hpage
              cases hpage
              cases access.kind <;> rfl
          | nowhere hok _ => rw [htranslate] at hok; cases hok
      | nowhere _ _ herr => rcases herr with rfl | rfl <;> rfl
      | medium addr hok hwindow =>
          cases hrefused with
          | page hpage => rw [hok] at hpage; cases hpage
          | nowhere hok' hnowhere =>
              rw [hok] at hok'
              cases hok'
              exact absurd hwindow hnowhere
    · exact fun hfalse => hfalse
  exact hwp.exists_error

theorem intact_leading {insn : Insn} {start : Machine B S} {access : DataAccess} (first : List ℕ)
    {m state : Machine B S} (hm : Intact m)
    (hrun : (Exec.each (accessByte insn start access) first).run m = .ok ⟨⟩ state) :
    Intact state := by
  have hbyte (i : ℕ) : Keeps (Preserving (@Intact B S _)) (accessByte insn start access i) := by
    apply Keeps.ite
    · exact .bind (intact_accesses.translate _ _) fun _ =>
        .bind (intact_accesses.busStore _ _ _) fun _ => intact_accesses.invalidate_keeps _ _
    · exact .bind (intact_accesses.translate _ _) fun _ =>
        .bind (intact_accesses.busLoad _ _ _) fun _ => .pure _
  exact (Keeps.each hbyte first m).of_run_ok hrun hm

/-- At most one byte is the first refused. -/
theorem FirstRefused.unique {insn : Insn} {start : Machine B S} {access : DataAccess}
    (hkind : Insn.opcode insn = 0x23 → access.kind = .store) (hstart : Intact start) {i j : ℕ}
    (hi : FirstRefused insn start access i) (hj : FirstRefused insn start access j) : i = j := by
  obtain ⟨-, state, hleading, hrefused⟩ := hi
  obtain ⟨-, other, hother, hrefused'⟩ := hj
  obtain ⟨err, after, hbyte, -⟩ :=
    hrefused.accessByte start hkind (intact_leading _ hstart hleading)
  obtain ⟨err', after', hbyte', -⟩ :=
    hrefused'.accessByte start hkind (intact_leading _ hstart hother)
  exact Exec.eq_of_run_each_range hleading hbyte hother hbyte'

/-! ## Accesses in one piece -/

/-- The instruction does go to the bus, SC only with its reservation. -/
def Issues (insn : Insn) (start : Machine B S) (pa : BitVec 64) : Prop :=
  Insn.opcode insn = 0x2F → Rv64a.opOf insn = 0x03 → start.cpu.reservation = some pa

/-- The bus is given the whole access at once. -/
def InOnePiece (insn : Insn) (access : DataAccess) : Prop :=
  Insn.opcode insn = 0x2F ∨ fitsPage access.vaddr access.size

/-- How such an access fails. -/
inductive PieceFailed (insn : Insn) (access : DataAccess) (start : Machine B S) : Exception → Prop
  | untranslated {err : Exception} {after : Machine B S}
      (htranslate : (translate access.vaddr access.kind).run start = .error err after)
      (herr : err = Mmu.fault access.kind access.vaddr ∨ ∃ addr, err = .backingFailure addr) :
      PieceFailed insn access start err
  | nowhere {err : Exception} {pa : BitVec 64} {middle : Machine B S}
      (htranslate : (translate access.vaddr access.kind).run start = .ok pa middle)
      (hissues : Issues insn start pa) (hrefused : ¬ Bus.Served pa access.size)
      (herr : err = .loadAccessFault pa ∨ err = .storeAccessFault pa) :
      PieceFailed insn access start err
  | other {err : Exception} {pa : BitVec 64} {middle : Machine B S}
      (htranslate : (translate access.vaddr access.kind).run start = .ok pa middle)
      (hserved : Bus.Served pa access.size) (herr : ¬ err.isMemory) :
      PieceFailed insn access start err

/-- Such an access that succeeds. -/
def PieceDone (insn : Insn) (access : DataAccess) (start : Machine B S) : Prop :=
  ∃ pa middle, (translate access.vaddr access.kind).run start = .ok pa middle ∧
    (Issues insn start pa → Bus.Served pa access.size)

omit [ConsoleSink S] in
theorem pieceFailed_of_untranslated {insn : Insn} {access : DataAccess} {start after : Machine B S}
    {err : Exception} (hrun : (translate access.vaddr access.kind).run start = .error err after)
    (hfailed : Mmu.Untranslated B access.kind access.vaddr err) :
    PieceFailed insn access start err :=
  .untranslated hrun (hfailed.imp_right fun ⟨addr, heq, _⟩ => ⟨addr, heq⟩)

theorem load_piece {insn : Insn} (hopcode : Insn.opcode insn = 0x03) {size : ℕ}
    {extended : BitVec 64 → BitVec 64} (hload : Rv64i.loadOf insn = some (size, extended))
    {memory : Memory} {start : Machine B S} (hstart : Holds memory start.bus.cache)
    (hfits : fitsPage (start.cpu.reg (Insn.rs1 insn) + Insn.immI insn) size) :
    Exec.wp (execute insn)
      (fun _ _ => PieceDone insn ⟨start.cpu.reg (Insn.rs1 insn) + Insn.immI insn, size, .load⟩ start)
      (fun err _ => PieceFailed insn
        ⟨start.cpu.reg (Insn.rs1 insn) + Insn.immI insn, size, .load⟩ start err) False start := by
  have hissues (pa : BitVec 64) : Issues insn start pa := by
    intro hatomic
    rw [hopcode] at hatomic
    exact absurd hatomic (by decide)
  rw [execute_load hopcode, Exec.wp_bind, Rv64i.load, Exec.wp_bind, Exec.wp_read, hload]
  dsimp only
  rw [Exec.wp_bind, vload, readTranslated, if_pos hfits, Exec.wp_bind]
  apply (translate_spec hstart _ .load).attach.imp
  · rintro pa middle ⟨hpa, -, hmiddle⟩
    apply (busLoad_spec hmiddle.holds .load pa size).imp
    · rintro v after ⟨-, hserved, -⟩
      rw [Rv64i.retire, Exec.wp_bind, setReg, onCpu, Exec.wp_update, Exec.wp_pure, Exec.wp_pure]
      exact ⟨pa, middle, hpa, fun _ => hserved⟩
    · rintro err after ⟨-, ⟨herr, hrefused⟩ | ⟨rfl, hram, -⟩⟩
      · exact .nowhere hpa (hissues pa) hrefused (.inl herr)
      · refine .other hpa ⟨?_, .inl hram⟩ (fun hmemory => Bool.noConfusion hmemory)
        unfold Rv64i.loadOf at hload
        split at hload <;> cases hload <;> rfl
    · exact fun hfalse => hfalse
  · exact fun err after hfailed => pieceFailed_of_untranslated hfailed.1 hfailed.2.1
  · exact fun hfalse => hfalse

theorem store_piece {insn : Insn} (hopcode : Insn.opcode insn = 0x23) {size : ℕ}
    (hstore : Rv64i.storeOf insn = some size) {memory : Memory} {start : Machine B S}
    (hstart : Holds memory start.bus.cache)
    (hfits : fitsPage (start.cpu.reg (Insn.rs1 insn) + Insn.immS insn) size) :
    Exec.wp (execute insn)
      (fun _ _ =>
        PieceDone insn ⟨start.cpu.reg (Insn.rs1 insn) + Insn.immS insn, size, .store⟩ start)
      (fun err _ => PieceFailed insn
        ⟨start.cpu.reg (Insn.rs1 insn) + Insn.immS insn, size, .store⟩ start err) False start := by
  have hissues (pa : BitVec 64) : Issues insn start pa := by
    intro hatomic
    rw [hopcode] at hatomic
    exact absurd hatomic (by decide)
  rw [execute_store hopcode, Exec.wp_bind, Rv64i.store, Exec.wp_bind, Exec.wp_read, hstore]
  dsimp only
  rw [Exec.wp_bind, vstore, writeTranslated, if_pos hfits, Exec.wp_bind]
  apply (translate_spec hstart _ .store).attach.imp
  · rintro pa middle ⟨hpa, -, hmiddle⟩
    rw [Exec.wp_bind]
    apply (busStore_spec hmiddle.holds pa size _).imp
    · rintro _ after ⟨-, hserved⟩
      rw [onCpu, Exec.wp_update, Exec.wp_pure, Exec.wp_pure]
      exact ⟨pa, middle, hpa, fun _ => hserved⟩
    · rintro err after (⟨herr, hrefused, -⟩ | ⟨rfl, hram, -⟩)
      · exact .nowhere hpa (hissues pa) hrefused (.inr herr)
      · refine .other hpa ⟨?_, .inl hram⟩ (fun hmemory => Bool.noConfusion hmemory)
        unfold Rv64i.storeOf at hstore
        split at hstore <;> cases hstore <;> rfl
    · exact fun hfalse => hfalse
  · exact fun err after hfailed => pieceFailed_of_untranslated hfailed.1 hfailed.2.1
  · exact fun hfalse => hfalse

theorem atomic_piece {insn : Insn} (hopcode : Insn.opcode insn = 0x2F) {size : ℕ}
    (hsize : Rv64a.sizeOf insn = some size) {memory : Memory} {start : Machine B S}
    (hstart : Holds memory start.bus.cache) :
    Exec.wp (execute insn)
      (fun _ _ => PieceDone insn ⟨start.cpu.reg (Insn.rs1 insn), size, .store⟩ start)
      (fun err _ => PieceFailed insn ⟨start.cpu.reg (Insn.rs1 insn), size, .store⟩ start err)
      False start := by
  rw [execute_atomic hopcode, Exec.wp_bind, Rv64a.execute, if_neg (not_not_intro hopcode), hsize]
  dsimp only
  rw [Exec.wp_bind, Exec.wp_read, Exec.wp_bind]
  have hreservation : Keeps
      (Preserving fun m : Machine B S => m.cpu.reservation = start.cpu.reservation)
      (translate (start.cpu.reg (Insn.rs1 insn)) .store) :=
    translate_keeps (fun _ _ hm => hm) (fun _ _ hm => hm) _ _
  apply ((translate_spec hstart _ .store).and (hreservation start)).attach.imp
  · rintro pa middle ⟨hpa, ⟨-, hmiddle⟩, hreserved⟩
    have hwidth := sizeOf_served hsize
    rw [Exec.wp_bind, Rv64a.perform, Exec.wp_ite]
    split
    · next hlr =>
      have hissues : Issues insn start pa := by
        intro _ hsc
        rw [hlr] at hsc
        exact absurd hsc (by decide)
      rw [Rv64a.loadReserved, Exec.wp_bind]
      apply (busLoad_spec hmiddle.holds .load pa size).imp
      · exact fun v after hafter => ⟨pa, middle, hpa, fun _ => hafter.2.1⟩
      · rintro err after ⟨-, ⟨herr, hrefused⟩ | ⟨rfl, hram, -⟩⟩
        · exact .nowhere hpa hissues hrefused (.inl herr)
        · exact .other hpa ⟨hwidth, .inl hram⟩ (fun hmemory => Bool.noConfusion hmemory)
      · exact fun hfalse => hfalse
    rw [Exec.wp_ite]
    split
    · rw [Rv64a.storeConditional, Exec.wp_bind, Exec.wp_read, Exec.wp_bind, onCpu,
        Exec.wp_update, Exec.wp_ite]
      split
      · next hreserves =>
        rw [hreserved rfl] at hreserves
        have hcleared : Holds memory ({ middle with
            cpu := { middle.cpu with reservation := none } } : Machine B S).bus.cache :=
          hmiddle.holds
        rw [Exec.wp_bind]
        apply (busStore_spec hcleared pa size _).imp
        · exact fun _ after hafter => ⟨pa, middle, hpa, fun _ => hafter.2⟩
        · rintro err after (⟨herr, hrefused, -⟩ | ⟨rfl, hram, -⟩)
          · exact .nowhere hpa (fun _ _ => hreserves) hrefused (.inr herr)
          · exact .other hpa ⟨hwidth, .inl hram⟩ (fun hmemory => Bool.noConfusion hmemory)
        · exact fun hfalse => hfalse
      · next hsc hnot =>
        rw [hreserved rfl] at hnot
        exact ⟨pa, middle, hpa, fun hissues => absurd (hissues hopcode hsc) hnot⟩
    · next hnotSc =>
      have hissues : Issues insn start pa := fun _ hsc => absurd hsc hnotSc
      rw [Rv64a.readModifyWrite, Exec.wp_bind]
      apply (busLoad_spec hmiddle.holds .load pa size).imp
      · rintro old next ⟨hnext, hserved, -⟩
        split
        · exact .other hpa hserved (fun hmemory => Bool.noConfusion hmemory)
        · rw [Exec.wp_bind]
          apply (busStore_spec hnext.holds pa size _).imp
          · exact fun _ after hafter => ⟨pa, middle, hpa, fun _ => hserved⟩
          · rintro err after (⟨-, hrefused, -⟩ | ⟨rfl, -⟩)
            · exact absurd hserved hrefused
            · exact .other hpa hserved (fun hmemory => Bool.noConfusion hmemory)
          · exact fun hfalse => hfalse
      · rintro err after ⟨-, ⟨herr, hrefused⟩ | ⟨rfl, hram, -⟩⟩
        · exact .nowhere hpa hissues hrefused (.inl herr)
        · exact .other hpa ⟨hwidth, .inl hram⟩ (fun hmemory => Bool.noConfusion hmemory)
      · exact fun hfalse => hfalse
  · exact fun err after hfailed => pieceFailed_of_untranslated hfailed.1 hfailed.2.1.1
  · exact fun hfalse => hfalse.1

/-- An access in one piece fails where its translation fails, where the bus
refuses it, or for no reason of its addresses. -/
theorem piece_spec {insn : Insn} {access : DataAccess} {memory : Memory} {start : Machine B S}
    (hstart : Holds memory start.bus.cache) (haccess : dataAccess start.cpu insn = some access)
    (hpiece : InOnePiece insn access) :
    Exec.wp (execute insn) (fun _ _ => PieceDone insn access start)
      (fun err _ => PieceFailed insn access start err) False start := by
  rw [dataAccess] at haccess
  split_ifs at haccess with hload hstore hatomic
  · obtain ⟨⟨size, extended⟩, hwidth, rfl⟩ := Option.map_eq_some_iff.mp haccess
    exact load_piece hload hwidth hstart
      (hpiece.resolve_left (by rw [hload]; decide))
  · obtain ⟨size, hwidth, rfl⟩ := Option.map_eq_some_iff.mp haccess
    exact store_piece hstore hwidth hstart (hpiece.resolve_left (by rw [hstore]; decide))
  · obtain ⟨size, hwidth, rfl⟩ := Option.map_eq_some_iff.mp haccess
    exact atomic_piece hatomic hwidth hstart

/-! ## Accesses byte by byte -/

/-- A straddling access fails as its bytes do, one after the other. -/
theorem straddling_error {insn : Insn} {access : DataAccess} {start after : Machine B S}
    {err : Exception} (haccess : dataAccess start.cpu insn = some access)
    (hpieces : ¬ InOnePiece insn access) :
    (execute insn).run start = .error err after ↔
      (Exec.each (accessByte insn start access) (List.range access.size)).run start =
        .error err after := by
  have hcrosses : ¬ fitsPage access.vaddr access.size := fun hfits => hpieces (.inr hfits)
  have hdone (_ : Bool) (middle : Machine B S) :
      Exec.wp (pure PUnit.unit : MachineM B S PUnit) (fun _ _ => True) (fun _ _ => False) True
        middle :=
    trivial
  rw [dataAccess] at haccess
  split_ifs at haccess with hload hstore hatomic
  · obtain ⟨⟨size, extended⟩, hwidth, rfl⟩ := Option.map_eq_some_iff.mp haccess
    have hbytes : accessByte insn start
        ⟨start.cpu.reg (Insn.rs1 insn) + Insn.immI insn, size, .load⟩ =
          readByte (start.cpu.reg (Insn.rs1 insn) + Insn.immI insn) .load := by
      funext i
      rw [accessByte, if_neg (by rw [hload]; decide)]
    have hretire (v : BitVec 64) (middle : Machine B S) :
        Exec.wp (Rv64i.retire insn (some (extended v))) (fun _ _ => True) (fun _ _ => False) True
          middle :=
      trivial
    have hjoined (bytes : List Byte) (middle : Machine B S) :
        Exec.wp (pure (BitVec.ofNat 64 (LittleEndian.ofBytes bytes)) : MachineM B S (BitVec 64)) (fun _ _ => True)
          (fun _ _ => False) True middle :=
      trivial
    rw [hbytes, execute_load hload, Exec.run_bind_total_error hdone, Rv64i.load,
      Exec.run_read_bind, hwidth]
    dsimp only
    rw [Exec.run_bind_total_error hretire, vload, readTranslated, if_neg hcrosses,
      Exec.run_bind_total_error hjoined]
    exact readEach_error ..
  · obtain ⟨size, hwidth, rfl⟩ := Option.map_eq_some_iff.mp haccess
    have hbytes : accessByte insn start
        ⟨start.cpu.reg (Insn.rs1 insn) + Insn.immS insn, size, .store⟩ =
          writeByte (start.cpu.reg (Insn.rs1 insn) + Insn.immS insn)
            (start.cpu.reg (Insn.rs2 insn)) := by
      funext i
      rw [accessByte, if_pos hstore]
    have hstored (_ : PUnit) (middle : Machine B S) :
        Exec.wp (pure true : MachineM B S Bool) (fun _ _ => True) (fun _ _ => False) True middle :=
      trivial
    rw [hbytes, execute_store hstore, Exec.run_bind_total_error hdone, Rv64i.store,
      Exec.run_read_bind, hwidth]
    dsimp only
    rw [Exec.run_bind_total_error hstored, vstore, writeTranslated, if_neg hcrosses,
      writeEach_eq]
  · exact absurd (Or.inl hatomic) hpieces

/-! ## The reported address -/

/-- Every page or access fault reports the first byte refused. -/
def FaultsVirtual (insn : Insn) (access : DataAccess) (start : Machine B S) : Prop :=
  ∀ err after, (execute insn).run start = .error err after → err.isMemory →
    ∃ i, err.tval = access.vaddr + BitVec.ofNat 64 i ∧ FirstRefused insn start access i

/-- What the bus refuses lies at its own virtual address, and begins with a byte
that is refused. -/
structure IdentityWhereRefused (insn : Insn) (access : DataAccess) (start : Machine B S) :
    Prop where
  piece : InOnePiece insn access → ∀ pa middle,
    (translate access.vaddr access.kind).run start = .ok pa middle → Issues insn start pa →
      ¬ Bus.Served pa access.size → pa = access.vaddr ∧ ¬ Bus.inSomeWindow pa 1
  bytes : ¬ InOnePiece insn access → ∀ i < access.size, ∀ state,
    (Exec.each (accessByte insn start access) (List.range i)).run start = .ok ⟨⟩ state →
      ∀ pa middle, (translate (access.vaddr + BitVec.ofNat 64 i) access.kind).run state =
        .ok pa middle → ¬ Bus.inSomeWindow pa 1 → pa = access.vaddr + BitVec.ofNat 64 i

omit [FlatBacking B] [ConsoleSink S] in
theorem dataAccess_kind {start : Machine B S} {insn : Insn} {access : DataAccess}
    (haccess : dataAccess start.cpu insn = some access) (hopcode : Insn.opcode insn = 0x23) :
    access.kind = .store := by
  rw [dataAccess, if_neg (by rw [hopcode]; decide), if_pos hopcode] at haccess
  obtain ⟨size, -, rfl⟩ := Option.map_eq_some_iff.mp haccess
  rfl

omit [FlatBacking B] [ConsoleSink S] in
theorem dataAccess_size {start : Machine B S} {insn : Insn} {access : DataAccess}
    (haccess : dataAccess start.cpu insn = some access) : 0 < access.size ∧ access.size ≤ 8 := by
  rw [dataAccess] at haccess
  split_ifs at haccess
  · obtain ⟨⟨size, extended⟩, hwidth, rfl⟩ := Option.map_eq_some_iff.mp haccess
    exact loadOf_size hwidth
  · obtain ⟨size, hwidth, rfl⟩ := Option.map_eq_some_iff.mp haccess
    unfold Rv64i.storeOf at hwidth
    split at hwidth <;> cases hwidth <;> norm_num
  · obtain ⟨size, hwidth, rfl⟩ := Option.map_eq_some_iff.mp haccess
    unfold Rv64a.sizeOf at hwidth
    split at hwidth <;> cases hwidth <;> norm_num

/-- A physical address with the offset of the access is no later byte of it. -/
theorem eq_zero_of_offset {pa vaddr : BitVec 64} {i : ℕ} (hi : i < 8)
    (hoffset : pa &&& 0xFFF = vaddr &&& 0xFFF) (hpa : pa = vaddr + BitVec.ofNat 64 i) : i = 0 := by
  have hmod := congrArg BitVec.toNat hoffset
  rw [Mmu.toNat_and_offset, Mmu.toNat_and_offset, hpa, BitVec.toNat_add, BitVec.toNat_ofNat] at hmod
  have hvaddr := vaddr.isLt
  omega

theorem firstRefused_zero {insn : Insn} {access : DataAccess} {start : Machine B S}
    (hpos : 0 < access.size) (hrefused : Refused access.kind access.vaddr start) :
    FirstRefused insn start access 0 := by
  have hzero : access.vaddr + BitVec.ofNat 64 0 = access.vaddr := BitVec.add_zero _
  refine ⟨hpos, start, rfl, ?_⟩
  rw [hzero]
  exact hrefused

theorem piece_iff {insn : Insn} {access : DataAccess} {memory : Memory} {start : Machine B S}
    (hstart : Holds memory start.bus.cache) (haccess : dataAccess start.cpu insn = some access)
    (hpiece : InOnePiece insn access) :
    FaultsVirtual insn access start ↔ ∀ pa middle,
      (translate access.vaddr access.kind).run start = .ok pa middle → Issues insn start pa →
        ¬ Bus.Served pa access.size → pa = access.vaddr ∧ ¬ Bus.inSomeWindow pa 1 := by
  have hspec := piece_spec hstart haccess hpiece
  obtain ⟨hpos, hsize⟩ := dataAccess_size haccess
  have hzero : access.vaddr + BitVec.ofNat 64 0 = access.vaddr := BitVec.add_zero _
  constructor
  · intro hvirtual pa middle hpa hissues hrefused
    have hfails : Exec.wp (execute insn) (fun _ _ => False)
        (fun err _ => err = .loadAccessFault pa ∨ err = .storeAccessFault pa) False start := by
      apply hspec.imp
      · rintro _ _ ⟨other, _, hother, hserved⟩
        rw [hpa] at hother
        cases hother
        exact hrefused (hserved hissues)
      · intro err after hfailed
        cases hfailed with
        | untranslated hother _ => rw [hpa] at hother; cases hother
        | nowhere hother _ _ herr =>
            rw [hpa] at hother
            cases hother
            exact herr
        | other hother hserved _ =>
            rw [hpa] at hother
            cases hother
            exact absurd hserved hrefused
      · exact fun hfalse => hfalse
    obtain ⟨err, after, hrun, herr⟩ := hfails.exists_error
    have hmemory : err.isMemory := by rcases herr with rfl | rfl <;> rfl
    have htval : err.tval = pa := by rcases herr with rfl | rfl <;> rfl
    obtain ⟨i, hi, hlt, state, hleading, hbyte⟩ := hvirtual err after hrun hmemory
    rw [htval] at hi
    have hoffset := ((translate_spec hstart access.vaddr access.kind).of_run_ok hpa).1
    have hfirst : i = 0 := eq_zero_of_offset (by omega) hoffset hi
    subst hfirst
    cases hleading
    rw [hzero] at hi hbyte
    refine ⟨hi, ?_⟩
    cases hbyte with
    | page htranslate => rw [hpa] at htranslate; cases htranslate
    | nowhere htranslate hnowhere =>
        rw [hpa] at htranslate
        cases htranslate
        exact hnowhere
  · intro hidentity err after hrun hmemory
    have hfailed := hspec.of_run_error hrun
    refine ⟨0, ?_⟩
    rw [hzero]
    cases hfailed with
    | untranslated htranslate hcause =>
        rcases hcause with rfl | ⟨addr, rfl⟩
        · refine ⟨?_, firstRefused_zero hpos (.page htranslate)⟩
          cases access.kind <;> rfl
        · cases hmemory
    | nowhere htranslate hissues hrefused herr =>
        obtain ⟨rfl, hnowhere⟩ := hidentity _ _ htranslate hissues hrefused
        refine ⟨?_, firstRefused_zero hpos (.nowhere htranslate hnowhere)⟩
        rcases herr with rfl | rfl <;> rfl
    | other _ _ herr => exact absurd hmemory herr

theorem bytes_iff {insn : Insn} {access : DataAccess} {memory : Memory} {start : Machine B S}
    (hstart : Holds memory start.bus.cache) (haccess : dataAccess start.cpu insn = some access)
    (hpieces : ¬ InOnePiece insn access) :
    FaultsVirtual insn access start ↔ ∀ i < access.size, ∀ state,
      (Exec.each (accessByte insn start access) (List.range i)).run start = .ok ⟨⟩ state →
        ∀ pa middle, (translate (access.vaddr + BitVec.ofNat 64 i) access.kind).run state =
          .ok pa middle → ¬ Bus.inSomeWindow pa 1 → pa = access.vaddr + BitVec.ofNat 64 i := by
  have hkind := dataAccess_kind haccess
  have hintact : Intact start := ⟨memory, hstart⟩
  constructor
  · intro hvirtual i hi state hleading pa middle hpa hnowhere
    have hrefused : Refused access.kind (access.vaddr + BitVec.ofNat 64 i) state :=
      .nowhere hpa hnowhere
    obtain ⟨err, after, hbyte, hmemory, hfailed⟩ :=
      hrefused.accessByte start hkind (intact_leading _ hintact hleading)
    have htval : err.tval = pa := by
      cases hfailed with
      | untranslated hother _ => rw [hpa] at hother; cases hother
      | nowhere hother _ herr =>
          rw [hpa] at hother
          cases hother
          rcases herr with rfl | rfl <;> rfl
      | medium addr _ _ => cases hmemory
    have hrun := (straddling_error haccess hpieces).mpr
      (Exec.run_each_range_error.mpr ⟨i, hi, state, hleading, hbyte⟩)
    obtain ⟨j, hj, hfirst⟩ := hvirtual err after hrun hmemory
    have hsame : i = j := FirstRefused.unique hkind hintact ⟨hi, state, hleading, hrefused⟩ hfirst
    rw [← htval, hj, hsame]
  · intro hidentity err after hrun hmemory
    obtain ⟨i, hi, state, hleading, hbyte⟩ :=
      Exec.run_each_range_error.mp ((straddling_error haccess hpieces).mp hrun)
    obtain ⟨memory', hstate⟩ := intact_leading _ hintact hleading
    have hfailed := (accessByte_spec hkind i hstate).of_run_error hbyte
    refine ⟨i, ?_, hi, state, hleading, hfailed.refused hmemory⟩
    cases hfailed with
    | untranslated htranslate hcause =>
        rcases hcause with rfl | ⟨addr, rfl⟩
        · cases access.kind <;> rfl
        · cases hmemory
    | nowhere htranslate hnowhere herr =>
        rw [← hidentity i hi state hleading _ _ htranslate hnowhere]
        rcases herr with rfl | rfl <;> rfl
    | medium addr _ _ => cases hmemory

/-- **A fault reports the first byte refused**, virtually, exactly if what the
bus refuses lies at its own virtual address and begins with a byte that is
refused. -/
theorem faultsVirtual_iff {insn : Insn} {access : DataAccess} {memory : Memory}
    {start : Machine B S} (hstart : Holds memory start.bus.cache)
    (haccess : dataAccess start.cpu insn = some access) :
    FaultsVirtual insn access start ↔ IdentityWhereRefused insn access start := by
  by_cases hpiece : InOnePiece insn access
  · rw [piece_iff hstart haccess hpiece]
    exact ⟨fun hidentity => ⟨fun _ => hidentity, fun hpieces => absurd hpiece hpieces⟩,
      fun hidentity => hidentity.piece hpiece⟩
  · rw [bytes_iff hstart haccess hpiece]
    exact ⟨fun hidentity => ⟨fun hpiece' => absurd hpiece' hpiece, fun _ => hidentity⟩,
      fun hidentity => hidentity.bytes hpiece⟩

end Refusal

/-! Virtual page zero is mapped to where nothing is. -/

def mappedNowhere : Machine FakeBacking (List Byte) :=
  overPages (Sv39.tables [0x40000 <<< 10 ||| 0xDF])
    { Cpu.new 0x1000 with csrs := Sv39.pagingCsrs, priv := .u }

/-- `ld x3, 8(x0)` reports the physical address. -/
theorem not_faultsVirtual_mappedNowhere :
    ¬ ∀ (memory : Memory) (start : Machine FakeBacking (List Byte)),
      Holds memory start.bus.cache → ∀ insn access, dataAccess start.cpu insn = some access →
        FaultsVirtual insn access start := by
  intro hclaim
  have hfailure : ((execute 0x00803183).run mappedNowhere).failure =
      some (.loadAccessFault 0x40000008) := by
    decide +kernel
  obtain ⟨after, hrun⟩ := Outcome.eq_error_of_failure hfailure
  obtain ⟨i, hi, hlt, -⟩ := hclaim _ mappedNowhere (Sv39.holds_busOver _) 0x00803183
    ⟨8, 8, .load⟩ rfl _ after hrun rfl
  have hsize : i < 8 := hlt
  have htval := congrArg BitVec.toNat hi
  have hphysical : (Exception.loadAccessFault 0x40000008).tval.toNat = 0x40000008 := rfl
  have hvirtual : (⟨8, 8, .load⟩ : DataAccess).vaddr.toNat = 8 := rfl
  rw [hphysical, BitVec.toNat_add, BitVec.toNat_ofNat, hvirtual] at htval
  omega

/-- The same load without paging, where nothing is either. -/
theorem faultsVirtual_iff_nowhere :
    FaultsVirtual 0x00803183 ⟨8, 8, .load⟩ atNowhere ↔
      IdentityWhereRefused 0x00803183 ⟨8, 8, .load⟩ atNowhere :=
  faultsVirtual_iff (Sv39.holds_busOver _) rfl

end Machine

end Baonix.Core

import Baonix.Core.Precise

/-!
# How atomics fault

SC and the AMOs translate their address as stores, and so fail to.  But an AMO
goes to the bus with a load first, and what the bus refuses then is refused as a
load.
-/

namespace Baonix.Core

open LittleEndian (Byte)
open PageCache (Holds)

namespace Exception

/-- Misaligned addresses, access faults and page faults. -/
def isMemory : Exception → Bool
  | instructionAddressMisaligned _ | instructionAccessFault _ | instructionPageFault _
  | loadAddressMisaligned _ | loadAccessFault _ | loadPageFault _
  | storeAddressMisaligned _ | storeAccessFault _ | storePageFault _ => true
  | _ => false

/-- Those of the store class. -/
def isStore : Exception → Bool
  | storeAddressMisaligned _ | storeAccessFault _ | storePageFault _ => true
  | _ => false

end Exception

namespace Machine

variable {B S : Type} [FlatBacking B] [ConsoleSink S]

/-- Every memory exception the instruction raises is of the store class. -/
def FaultsAsStore (insn : Insn) (machine : Machine B S) : Prop :=
  ∀ e after, (execute insn).run machine = .error e after → e.isMemory → e.isStore

/-- The instruction is an AMO whose address translates to where nothing is. -/
def ReadsNowhere (insn : Insn) (machine : Machine B S) : Prop :=
  Rv64a.opOf insn ≠ 0x03 ∧ ∃ size pa middle, Rv64a.sizeOf insn = some size ∧
    (translate (machine.cpu.reg (Insn.rs1 insn)) .store).run machine = .ok pa middle ∧
      ¬ Bus.Served pa size

theorem sizeOf_served {insn : Insn} {size : ℕ} (hsize : Rv64a.sizeOf insn = some size) :
    (Bus.widthOf size).isSome := by
  unfold Rv64a.sizeOf at hsize
  split at hsize <;> cases hsize <;> rfl

omit [FlatBacking B] [ConsoleSink S] in
theorem isStore_of_untranslated [MemBacking B] {vaddr : BitVec 64} {e : Exception}
    (hfailed : Mmu.Untranslated B .store vaddr e) : e.isMemory → e.isStore := by
  rcases hfailed with rfl | ⟨addr, rfl, -⟩
  · exact fun _ => rfl
  · exact fun hmemory => Bool.noConfusion hmemory

omit [ConsoleSink S] in
theorem isStore_of_storeRefused {m : Memory} {addr : BitVec 64} {size : ℕ} {value : BitVec 64}
    {e : Exception} {after : Bus B S} (hrefused : Bus.StoreRefused m addr size value e after) :
    e.isMemory → e.isStore := by
  rcases hrefused with ⟨rfl, -⟩ | ⟨rfl, -⟩
  · exact fun _ => rfl
  · exact fun hmemory => Bool.noConfusion hmemory

/-- SC, and the AMOs that read somewhere. -/
theorem faultsAsStore_of_served {m : Memory} {machine : Machine B S}
    (hm : Holds m machine.bus.cache) {insn : Insn} (hopcode : Insn.opcode insn = 0x2F)
    (hlr : Rv64a.opOf insn ≠ 0x02) (hserved : ¬ ReadsNowhere insn machine) :
    FaultsAsStore insn machine := by
  have hwp : Exec.wp (execute insn) (fun _ _ => True) (fun e _ => e.isMemory → e.isStore) True
      machine := by
    rw [execute_atomic hopcode, Exec.wp_bind, Rv64a.execute, if_neg (not_not_intro hopcode)]
    cases hsize : Rv64a.sizeOf insn with
    | none => exact fun hmemory => Bool.noConfusion hmemory
    | some size =>
        dsimp only
        rw [Exec.wp_bind, Exec.wp_read, Exec.wp_bind]
        apply (translate_spec hm _ .store).attach.imp
        · rintro pa middle ⟨hpa, -, hmiddle⟩
          rw [Exec.wp_bind, Rv64a.perform, if_neg hlr, Exec.wp_ite]
          split
          · rw [Rv64a.storeConditional, Exec.wp_bind, Exec.wp_read, Exec.wp_bind, onCpu,
              Exec.wp_update, Exec.wp_ite]
            split
            · rw [Exec.wp_bind]
              have hcleared : Holds m ({ middle with
                  cpu := { middle.cpu with reservation := none } } : Machine B S).bus.cache :=
                hmiddle.holds
              apply (busStore_spec hcleared pa size _).imp
              · exact fun _ _ _ => trivial
              · exact fun _ _ hrefused => isStore_of_storeRefused hrefused
              · exact fun hfalse => hfalse.elim
            · trivial
          · next hsc =>
            rw [Rv64a.readModifyWrite, Exec.wp_bind]
            apply (busLoad_spec hmiddle.holds .load pa size).imp
            · rintro old next ⟨hnext, -, -⟩
              split
              · exact fun hmemory => Bool.noConfusion hmemory
              · rw [Exec.wp_bind]
                apply (busStore_spec hnext.holds pa size _).imp
                · exact fun _ _ _ => trivial
                · exact fun _ _ hrefused => isStore_of_storeRefused hrefused
                · exact fun hfalse => hfalse.elim
            · rintro e after ⟨-, ⟨rfl, hnowhere⟩ | ⟨rfl, -⟩⟩
              · exact absurd ⟨hsc, size, pa, middle, hsize, hpa, hnowhere⟩ hserved
              · exact fun hmemory => Bool.noConfusion hmemory
            · exact fun hfalse => hfalse.elim
        · exact fun _ _ hafter => isStore_of_untranslated hafter.2.1
        · exact fun hfalse => hfalse.elim
  exact fun e after hrun => hwp.of_run_error hrun

/-- An AMO that reads nowhere faults as a load. -/
theorem faults_as_load {m : Memory} {machine : Machine B S} (hm : Holds m machine.bus.cache)
    {insn : Insn} (hopcode : Insn.opcode insn = 0x2F) (hlr : Rv64a.opOf insn ≠ 0x02)
    (hnowhere : ReadsNowhere insn machine) :
    ∃ pa after, (execute insn).run machine = .error (.loadAccessFault pa) after := by
  obtain ⟨hsc, size, pa, middle, hsize, hpa, hrefused⟩ := hnowhere
  have hmiddle := ((translate_spec hm _ .store).of_run_ok hpa).2
  have hwp : Exec.wp (execute insn) (fun _ _ => False) (fun e _ => e = .loadAccessFault pa) False
      machine := by
    rw [execute_atomic hopcode, Exec.wp_bind, Rv64a.execute, if_neg (not_not_intro hopcode), hsize]
    dsimp only
    rw [Exec.wp_bind, Exec.wp_read, Exec.wp_bind]
    apply Exec.wp_of_run_ok hpa
    rw [Exec.wp_bind, Rv64a.perform, if_neg hlr, if_neg hsc, Rv64a.readModifyWrite, Exec.wp_bind]
    apply (busLoad_spec hmiddle.holds .load pa size).imp
    · exact fun _ _ hafter => absurd hafter.2.1 hrefused
    · rintro e after ⟨-, ⟨rfl, -⟩ | ⟨-, hram, -⟩⟩
      · rfl
      · exact absurd ⟨sizeOf_served hsize, .inl hram⟩ hrefused
    · exact fun hfalse => hfalse
  obtain ⟨_, after, hrun, rfl⟩ := hwp.exists_error
  exact ⟨pa, after, hrun⟩

/-- **SC and the AMOs fault as stores**, except an AMO whose address translates
to where nothing is. -/
theorem faultsAsStore_iff {m : Memory} {machine : Machine B S} (hm : Holds m machine.bus.cache)
    {insn : Insn} (hopcode : Insn.opcode insn = 0x2F) (hlr : Rv64a.opOf insn ≠ 0x02) :
    FaultsAsStore insn machine ↔ ¬ ReadsNowhere insn machine := by
  constructor
  · intro hstores hnowhere
    obtain ⟨pa, after, hrun⟩ := faults_as_load hm hopcode hlr hnowhere
    exact Bool.false_ne_true (hstores _ after hrun rfl)
  · exact faultsAsStore_of_served hm hopcode hlr

/-! `amoadd.w x3, x2, (x1)` with `x1` zero, where nothing is. -/

def atNowhere : Machine FakeBacking (List Byte) :=
  overPages (fun _ _ => 0) (Cpu.new 0x80000000)

theorem not_faultsAsStore_nowhere :
    ¬ ∀ (m : Memory) (machine : Machine FakeBacking (List Byte)), Holds m machine.bus.cache →
      ∀ insn, Insn.opcode insn = 0x2F → Rv64a.opOf insn ≠ 0x02 → FaultsAsStore insn machine := by
  intro hclaim
  have hfault : ((execute 0x0020A1AF).run atNowhere).reply.bind (fun reply =>
      match reply.1 with
      | .error err => some err
      | .ok _ => none) = some (.loadAccessFault 0) := by
    decide +kernel
  cases hrun : (execute 0x0020A1AF).run atNowhere with
  | ok value after => rw [hrun] at hfault; cases hfault
  | error err after =>
      rw [hrun] at hfault
      have herr : err = .loadAccessFault 0 := Option.some.inj hfault
      rw [herr] at hrun
      exact Bool.false_ne_true (hclaim _ atNowhere (Sv39.holds_busOver _) 0x0020A1AF (by decide)
        (by decide) _ after hrun rfl)
  | panic => rw [hrun] at hfault; cases hfault

/-- `sc.w x3, x2, (x1)` there. -/
theorem faultsAsStore_iff_nowhere :
    FaultsAsStore 0x1820A1AF atNowhere ↔ ¬ ReadsNowhere 0x1820A1AF atNowhere :=
  faultsAsStore_iff (Sv39.holds_busOver _) (by decide) (by decide)

end Machine

end Baonix.Core

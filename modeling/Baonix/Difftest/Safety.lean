import Baonix.Difftest.Prologue

/-!
# Generated programs are safe

Started at its entry point in machine mode, a generated program goes forward through its
listing to the marker, without an exception and without data outside the scratch page.
-/

namespace Baonix.Difftest

open Baonix.Core (Cpu FakeBacking FlatBacking ConsoleSink Machine Fallible)
open Baonix.Core.Machine
open Core.PageCache (Holds)

variable {B S : Type} [FlatBacking B]

/-! ## Runs of a program -/

/-- The image lies at the base of RAM, and the processor is at the entry point. -/
structure Program.Loaded (p : Program) (m : Machine B S) : Prop where
  image : ∃ memory, Holds memory m.bus.cache ∧
    ∀ o < p.image.length, p.image[o]? = some (memory (Core.ramBase + o))
  pc : m.cpu.pc = addressOf entryOff
  priv : m.cpu.priv = .m

variable [ConsoleSink S]

/-- A step, of which the marker takes none. -/
def Program.Goes (p : Program) (m after : Machine B S) : Prop :=
  m.cpu.pc ≠ p.ecallPc ∧ step.run m = .ok ⟨⟩ after

/-- Steps from the start lead there. -/
def Program.Visits (p : Program) (start m : Machine B S) : Prop :=
  Relation.ReflTransGen p.Goes start m

/-- What every run of a program from a state like this is to be. -/
structure Program.Safe (p : Program) (start : Machine B S) : Prop where
  /-- Only instructions of the listing are executed. -/
  listed : ∀ m, p.Visits start m → m.cpu.pc ∈ p.listing
  /-- No step before the marker raises an exception, and each goes forward; those of the body
  access data of the scratch page only, at multiples of its width. -/
  forward : ∀ m, p.Visits start m → m.cpu.pc ≠ p.ecallPc →
    ∃ after, step.run m = .ok ⟨⟩ after ∧ m.cpu.pc.toNat < after.cpu.pc.toNat ∧
      (p.bodyStart.toNat ≤ m.cpu.pc.toNat → Reaching InScratch m after)
  /-- The body is reached. -/
  starts : ∃ m, p.Visits start m ∧ m.cpu.pc = p.bodyStart
  /-- From there the marker is reached in as many steps as the body has instructions. -/
  ends : ∀ m, p.Visits start m → m.cpu.pc = p.bodyStart →
    Arrives p.Goes (fun after => after.cpu.pc = p.ecallPc) p.bodyLen m

/-- A step a safe run may take. -/
structure Program.Moves (p : Program) (m after : Machine B S) : Prop where
  ready : Ready p.image m
  listed : m.cpu.pc ∈ p.listing
  goes : p.Goes m after
  forward : m.cpu.pc.toNat < after.cpu.pc.toNat
  reaching : p.bodyStart.toNat ≤ m.cpu.pc.toNat → Reaching InScratch m after

/-! ## Where a generated program goes -/

section

variable {p : Program} {chunks : List Chunk} (hmade : p.Generated chunks)
include hmade

omit [FlatBacking B] [ConsoleSink S]

theorem Program.Generated.listed_prologue :
    Listed p.image p.listing entryOff (prologueCode tableDelta ++ []) := by
  rw [List.append_nil]
  refine ⟨hmade.assembled.laidPro, fun addr haddr => ?_, by decide⟩
  exact (hmade.assembled.listing addr).mpr
    (List.mem_append_left _ (List.mem_append_right _ haddr))

theorem Program.Generated.listed_body :
    Listed p.image p.listing bodyOff (resolved chunks ++ [.w ecallWord]) := by
  have hbudget : budget = 0xFC0 := rfl
  have hlimit : codeLimit = 0x1000 := rfl
  have hfits := hmade.fits
  have hlen : codeLen (resolved chunks ++ [.w ecallWord]) = totalLen chunks + 4 := by
    rw [codeLen_append, codeLen_resolved]
    rfl
  refine ⟨hmade.assembled.laidBody, fun addr haddr => ?_, by omega⟩
  exact (hmade.assembled.listing addr).mpr (List.mem_append_right _ haddr)

theorem Program.Generated.ecall_listed : p.ecallPc ∈ p.listing := by
  have hmarker := hmade.listed_body.right.here
  rwa [codeLen_resolved, ← hmade.assembled.ecallPc] at hmarker

theorem Program.Generated.toNat_ecallPc :
    p.ecallPc.toNat = p.bodyStart.toNat + totalLen chunks := by
  have hbudget : budget = 0xFC0 := rfl
  have hlen : imageLen = 0x3000 := rfl
  have hfits := hmade.fits
  rw [hmade.assembled.ecallPc, hmade.assembled.bodyStart, toNat_addressOf (by omega),
    toNat_addressOf (by omega), Nat.add_assoc]

end

section

variable {p : Program} {chunks : List Chunk} (hmade : p.Generated chunks)
include hmade

omit [ConsoleSink S] in
theorem Program.Loaded.at_entry {start : Machine B S} (hloaded : p.Loaded start) :
    At p.image entryOff start := by
  obtain ⟨memory, hm, himage⟩ := hloaded.image
  have hscratch : scratchOff = 0x2000 := rfl
  have hlen : imageLen = 0x3000 := rfl
  refine ⟨⟨⟨memory, hm, fun o ho => himage o ?_⟩, hloaded.priv⟩, hloaded.pc⟩
  rw [hmade.assembled.length]
  omega

variable (hreliable : ¬Fallible B)
include hreliable

/-- Through the prologue. -/
theorem Program.Generated.arrives_body {start : Machine B S} (hat : At p.image entryOff start) :
    Arrives p.Moves (At p.image bodyOff) 36 start := by
  have harrives := arrives_prologue hreliable hat rfl hmade.listed_prologue
  have htop : ∀ reached : Machine B S, At p.image bodyOff reached →
      reached.cpu.pc.toNat = p.bodyStart.toNat := fun reached hreached => by
    rw [hreached.pc, hmade.assembled.bodyStart]
  have hclimbing := harrives.climbing (fun m => m.cpu.pc.toNat)
    (fun _ _ hmove => hmove.forward) htop
  refine hclimbing.1.of_moves ?_
  rintro m after ⟨hmove, hbelow⟩
  refine ⟨hmove.ready, hmove.listed, ⟨fun heq => ?_, hmove.run⟩, hmove.forward,
    fun hbody => absurd hbody (Nat.not_le.mpr hbelow)⟩
  have hecall := hmade.toNat_ecallPc
  rw [heq] at hbelow
  omega

/-- Through the body. -/
theorem Program.Generated.arrives_ecall {m : Machine B S} (hat : At p.image bodyOff m) :
    Arrives p.Moves (fun after => after.cpu.pc = p.ecallPc) p.bodyLen m := by
  have harrives := (arrives_end hreliable hmade.sound (by decide) hmade.listed_body (t := 0)
    hat).imp fun reached hreached => hreached.pc.trans hmade.assembled.ecallPc.symm
  have hclimbing := harrives.climbing (fun m => m.cpu.pc.toNat)
    (fun _ _ hmove => hmove.forward) fun reached hreached => congrArg BitVec.toNat hreached
  have hlength : (resolved chunks).length ≤ p.bodyLen := by
    rw [hmade.assembled.bodyLen, List.length_append]
    exact Nat.le_add_right ..
  refine (hclimbing.1.of_moves ?_).mono hlength
  rintro m after ⟨hmove, hbelow⟩
  refine ⟨hmove.ready, hmove.listed, ⟨fun heq => ?_, hmove.run⟩, hmove.forward,
    fun _ => hmove.reaching⟩
  rw [heq] at hbelow
  exact absurd hbelow (Nat.lt_irrefl _)

/-- **A generated program is safe**, wherever it was loaded. -/
theorem Program.Generated.safe {start : Machine B S} (hloaded : p.Loaded start) :
    p.Safe start := by
  have hbody := hmade.arrives_body hreliable (hloaded.at_entry hmade)
  have hwhole := hbody.chain fun m hat => hmade.arrives_ecall hreliable hat
  have hvisited (m : Machine B S) (hvisits : p.Visits start m) :
      m.cpu.pc = p.ecallPc ∨ ∃ after, p.Moves m after := by
    refine (hwhole.of_reached (fun m after hgoes hecall => hgoes.1 hecall) ?_
      hvisits).goal_or_moves
    intro m after other hmove hgoes
    have hsame := hmove.goes.2.symm.trans hgoes.2
    cases hsame
    rfl
  refine ⟨fun m hvisits => ?_, fun m hvisits hne => ?_, ?_, fun m hvisits hpc => ?_⟩
  · rcases hvisited m hvisits with hecall | ⟨after, hmove⟩
    · rw [hecall]
      exact hmade.ecall_listed
    · exact hmove.listed
  · rcases hvisited m hvisits with hecall | ⟨after, hmove⟩
    · exact absurd hecall hne
    · exact ⟨after, hmove.goes.2, hmove.forward, hmove.reaching⟩
  · obtain ⟨m, hvisits, hat⟩ := (hbody.of_moves fun _ _ hmove => hmove.goes).exists_reached
    exact ⟨m, hvisits, hat.pc.trans hmade.assembled.bodyStart.symm⟩
  · rcases hvisited m hvisits with hecall | ⟨after, hmove⟩
    · exact .here hecall
    · have hat : At p.image bodyOff m := ⟨hmove.ready, hpc.trans hmade.assembled.bodyStart⟩
      exact (hmade.arrives_ecall hreliable hat).of_moves fun _ _ hmove => hmove.goes

end

/-! ## Every seed -/

/-- The pages of an image. -/
def pagesOf (image : List LittleEndian.Byte) : BitVec 32 → Proto.Page := fun page index =>
  (image[page.toNat * Proto.pageSize + index]?).getD 0

omit [FlatBacking B] [ConsoleSink S] in
/-- A machine over the pages of the image has the program loaded. -/
theorem loaded_overPages {p : Program} (hlength : p.image.length = imageLen) :
    p.Loaded (overPages (pagesOf p.image) (Cpu.new (addressOf entryOff))) := by
  refine ⟨⟨_, Core.Sv39.holds_busOver _, fun o ho => ?_⟩, rfl, rfl⟩
  have hbase : Core.ramBase = 0x80000000 := rfl
  have hsize : Core.ramSize = 0x2000000 := rfl
  have hlen : imageLen = 0x3000 := rfl
  have hpage : Proto.pageSize = 4096 := rfl
  have hram : Core.InRam (Core.ramBase + o) 1 := by
    rw [Core.InRam]
    omega
  have hplace : (Core.pageOf (Core.ramBase + o)).toNat * Proto.pageSize +
      (Core.ramBase + o) % Proto.pageSize = o := by
    rw [Core.toNat_pageOf hram, Nat.add_sub_cancel_left, hbase, hpage]
    omega
  rw [Core.flat, if_pos (by omega), pagesOf, hplace, List.getElem?_eq_getElem ho]
  rfl

/-- **Generated programs can neither trap nor escape.**  For no seed does an assertion of
the generator fire; and the program it returns can be loaded, and runs safely from any
state it is loaded in. -/
theorem generated_programs_safe (hreliable : ¬Fallible B) (fuel : ℕ) (seed : BitVec 64) :
    (program fuel seed).run (Rng.new seed) ≠ .panic ∧
      ∀ p rng, (program fuel seed).run (Rng.new seed) = .ok p rng →
        (∃ start : Machine FakeBacking (List LittleEndian.Byte), p.Loaded start) ∧
          ∀ start : Machine B S, p.Loaded start → p.Safe start := by
  have hdraws := draws_program fuel seed (Rng.new seed)
  refine ⟨fun hpanic => hdraws.of_run_panic hpanic, fun p rng hrun => ?_⟩
  obtain ⟨chunks, hmade⟩ := hdraws.of_run_ok hrun
  exact ⟨⟨_, loaded_overPages hmade.assembled.length⟩, fun start hloaded =>
    hmade.safe hreliable hloaded⟩

omit [FlatBacking B] [ConsoleSink S] in
/-- Over the backing of the tests. -/
theorem generated_programs_safe_zero :
    (program 64 0).run (Rng.new 0) ≠ .panic ∧
      ∀ p rng, (program 64 0).run (Rng.new 0) = .ok p rng →
        (∃ start : Machine FakeBacking (List LittleEndian.Byte), p.Loaded start) ∧
          ∀ start : Machine FakeBacking (List LittleEndian.Byte), p.Loaded start → p.Safe start :=
  generated_programs_safe Core.not_fallible_fakeBacking 64 0

end Baonix.Difftest

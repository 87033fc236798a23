import Baonix.Difftest.Body

/-!
# The image

The parts of a program are put into the image one after the other, and none of them into
the place of another.
-/

namespace Baonix.Difftest

open LittleEndian (toBytes)
open Window (overwrite window)

/-! ## Changes of an image -/

/-- The image has changed between two offsets only. -/
structure ChangedIn (first last : ℕ) (image after : List LittleEndian.Byte) : Prop where
  length : after.length = image.length
  apart : ∀ other n, other + n ≤ first ∨ last ≤ other →
    window after other n = window image other n

section

variable {first last : ℕ} {image middle after : List LittleEndian.Byte}

theorem ChangedIn.refl (first last : ℕ) (image : List LittleEndian.Byte) :
    ChangedIn first last image image :=
  ⟨rfl, fun _ _ _ => rfl⟩

theorem ChangedIn.mono (hchanged : ChangedIn first last image after) {first' last' : ℕ}
    (hfirst : first' ≤ first) (hlast : last ≤ last') : ChangedIn first' last' image after :=
  ⟨hchanged.length, fun other n hapart => hchanged.apart other n (by omega)⟩

theorem ChangedIn.trans (hchanged : ChangedIn first last image middle)
    (hnext : ChangedIn first last middle after) : ChangedIn first last image after :=
  ⟨hnext.length.trans hchanged.length, fun other n hapart =>
    (hnext.apart other n hapart).trans (hchanged.apart other n hapart)⟩

/-- Code apart from the change stays where it lies. -/
theorem ChangedIn.laid (hchanged : ChangedIn first last image after) {o : ℕ} {code : List Ins}
    (hapart : o + codeLen code ≤ first ∨ last ≤ o) (hlaid : Laid image o code) :
    Laid after o code := by
  induction code generalizing o with
  | nil => exact trivial
  | cons ins rest ih =>
      rw [codeLen_cons] at hapart
      obtain ⟨hins, hrest⟩ := hlaid
      exact ⟨(hchanged.apart _ _ (by omega)).trans hins, ih (by omega) hrest⟩

theorem changedIn_overwrite {o : ℕ} {bytes : List LittleEndian.Byte}
    (hfits : o + bytes.length ≤ image.length) :
    ChangedIn o (o + bytes.length) image (overwrite image o bytes) :=
  ⟨Window.length_overwrite hfits, fun _ _ hapart => Window.window_overwrite_of_apart hfits hapart⟩

end

/-! ## Putting parts into an image -/

theorem copyFromSlice_eq {image bytes : List LittleEndian.Byte} {o : ℕ}
    (hfits : o + bytes.length ≤ image.length) :
    copyFromSlice image o bytes = pure (overwrite image o bytes) := by
  rw [copyFromSlice, ensure_eq hfits, pure_bind]

/-- Instructions of two bytes or four. -/
def Sized (code : List Ins) : Prop := ∀ ins ∈ code, ins.size = 2 ∨ ins.size = 4

theorem length_bytes {ins : Ins} (hsize : ins.size = 2 ∨ ins.size = 4) :
    ins.bytes.length = ins.size := by
  rw [Ins.bytes, List.length_take, LittleEndian.length_toBytes]
  omega

theorem draws_put {image : List LittleEndian.Byte} {o : ℕ} {code : List Ins} (hsized : Sized code)
    (hfits : o + codeLen code ≤ image.length) :
    Draws (put image o code) fun (after, listed) =>
      ChangedIn o (o + codeLen code) image after ∧ Laid after o code ∧
        listed = boundaries o code := by
  induction code generalizing image o with
  | nil => exact .pure ⟨.refl .., trivial, rfl⟩
  | cons ins rest ih =>
      rw [codeLen_cons] at hfits ⊢
      have hsize := hsized ins (List.mem_cons_self ..)
      have hlength := length_bytes hsize
      have hchanged : ChangedIn o (o + ins.bytes.length) image (overwrite image o ins.bytes) :=
        changedIn_overwrite (by omega)
      rw [put, copyFromSlice_eq (by omega), pure_bind]
      apply (ih (fun ins' hmem => hsized ins' (List.mem_cons_of_mem _ hmem)) _).bind
      · rintro ⟨after, listed⟩ ⟨hrest, hlaid, rfl⟩
        refine .pure ⟨?_, ⟨?_, hlaid⟩, rfl⟩
        · exact (hchanged.mono le_rfl (by omega)).trans (hrest.mono (by omega) (by omega))
        · rw [hrest.apart _ _ (.inl le_rfl), ← hlength]
          exact Window.window_overwrite_self (by omega)
      · rw [hchanged.length]
        omega

theorem draws_putTable {image : List LittleEndian.Byte} {o : ℕ} {table : List (BitVec 64)}
    (hfits : o + 8 * table.length ≤ image.length) :
    Draws (putTable image o table) (ChangedIn o (o + 8 * table.length) image) := by
  induction table generalizing image o with
  | nil => exact .pure (.refl ..)
  | cons val rest ih =>
      rw [List.length_cons] at hfits ⊢
      have hlength : (toBytes 8 val.toNat).length = 8 := LittleEndian.length_toBytes ..
      have hchanged : ChangedIn o (o + (toBytes 8 val.toNat).length) image
          (overwrite image o (toBytes 8 val.toNat)) := changedIn_overwrite (by omega)
      rw [putTable, copyFromSlice_eq (by omega), pure_bind]
      apply (ih _).imp
      · intro after hrest
        exact (hchanged.mono le_rfl (by omega)).trans (hrest.mono (by omega) (by omega))
      · rw [hchanged.length]
        omega

theorem draws_scratchWord : Draws scratchWord fun _ => True := by
  apply (draws_below (by norm_num)).bind
  intro _ _
  exact .ite ((draws_pick (by decide)).imp fun _ _ => trivial) draws_nextU64

theorem draws_fillScratch {image : List LittleEndian.Byte} {offs : List ℕ} {n : ℕ}
    (hlength : image.length = n) (hfits : ∀ o ∈ offs, o + 8 ≤ n) :
    Draws (fillScratch image offs) fun after => after.length = n := by
  induction offs generalizing image with
  | nil => exact .pure hlength
  | cons o rest ih =>
      rw [List.forall_mem_cons] at hfits
      apply draws_scratchWord.bind
      intro w _
      have hword : (toBytes 8 w.toNat).length = 8 := LittleEndian.length_toBytes ..
      have hsame : (overwrite image o (toBytes 8 w.toNat)).length = image.length :=
        Window.length_overwrite (by omega)
      rw [copyFromSlice_eq (by omega), pure_bind]
      exact ih (hsame.trans hlength) hfits.2

/-! ## The whole program -/

/-- The parts of the program lie where they belong. -/
structure Program.Assembled (p : Program) (pro body : List Ins) (bodyStartOff ecallOff : ℕ) :
    Prop where
  length : p.image.length = imageLen
  laidPro : Laid p.image entryOff pro
  laidBody : Laid p.image bodyStartOff body
  listing : ∀ addr, addr ∈ p.listing ↔
    addr ∈ boundaries exitOff exitStub ++ boundaries entryOff pro ++ boundaries bodyStartOff body
  bodyStart : p.bodyStart = addressOf bodyStartOff
  ecallPc : p.ecallPc = addressOf ecallOff
  bodyLen : p.bodyLen = body.length

theorem draws_assemble {table : List (BitVec 64)} (htable : table.length = 31) {pro body : List Ins}
    (hpro : Sized pro) (hbody : Sized body) {bodyStartOff : ℕ}
    (hstart : entryOff + codeLen pro ≤ bodyStartOff)
    (hend : bodyStartOff + codeLen body ≤ tableOff) {seed : BitVec 64} {ecallOff : ℕ}
    {made : Gen Program} (hmade : assemble seed table pro body bodyStartOff ecallOff = made) :
    Draws made fun p => p.Assembled pro body bodyStartOff ecallOff := by
  subst hmade
  have hentry : entryOff = 0x40 := rfl
  have hexit : exitOff = 0 := rfl
  have hstub : codeLen exitStub = 16 := rfl
  have htableOff : tableOff = 0x1100 := rfl
  have hscratch : scratchOff = 0x2000 := rfl
  have hlen : imageLen = 0x3000 := rfl
  have hfills : ∀ o ∈ (List.range 512).map fun k => scratchOff + 8 * k, o + 8 ≤ imageLen := by
    intro o hmem
    obtain ⟨k, hk, rfl⟩ := List.mem_map.mp hmem
    rw [List.mem_range] at hk
    omega
  have hblank : (List.replicate imageLen (0 : LittleEndian.Byte)).length = imageLen :=
    List.length_replicate
  unfold assemble
  generalize (List.range 512).map (fun k => scratchOff + 8 * k) = offs at hfills ⊢
  apply (draws_fillScratch hblank hfills).bind
  intro image hfilled
  have hstubs : Sized exitStub := by
    simp only [Sized, exitStub, List.forall_mem_cons]
    exact ⟨.inr rfl, .inr rfl, .inr rfl, .inr rfl, List.forall_mem_nil _⟩
  apply (draws_put hstubs (by omega)).bind
  rintro ⟨image₁, stub⟩ ⟨hchanged₁, -, rfl⟩
  have hlength₁ := hchanged₁.length.trans hfilled
  apply (draws_put hpro (by omega)).bind
  rintro ⟨image₂, first⟩ ⟨hchanged₂, hlaid, rfl⟩
  have hlength₂ := hchanged₂.length.trans hlength₁
  apply (draws_put hbody (by omega)).bind
  rintro ⟨image₃, listed⟩ ⟨hchanged₃, hlaid', rfl⟩
  have hlength₃ := hchanged₃.length.trans hlength₂
  apply (draws_putTable (by omega)).bind
  intro image₄ hchanged₄
  refine .pure ⟨hchanged₄.length.trans hlength₃, ?_, ?_, ?_, rfl, rfl, rfl⟩
  · exact hchanged₄.laid (.inl (by omega)) (hchanged₃.laid (.inl hstart) hlaid)
  · exact hchanged₄.laid (.inl hend) hlaid'
  · exact fun addr => List.mem_mergeSort

theorem draws_times {Item : Type} {draw : Gen Item} {property : Item → Prop}
    (hdraw : Draws draw property) (n : ℕ) : Draws (times draw n) fun items => items.length = n := by
  induction n with
  | zero => exact .pure rfl
  | succ n ih =>
      apply hdraw.bind
      intro x _
      apply ih.bind
      intro rest hrest
      exact .pure (congrArg Nat.succ hrest)

theorem draws_seedTable : Draws seedTable fun table => table.length = 31 := by
  have hvalue : Draws seedValue fun _ => True := by
    apply (draws_below (by norm_num)).bind
    intro _ _
    exact .ite ((draws_pick (by decide)).imp fun _ _ => trivial) draws_nextU64
  exact draws_times hvalue 31

/-- How far the table lies from where `auipc` points. -/
def tableDelta : ℤ := 180

theorem prologue_eq : prologue = pure (prologueCode tableDelta) := by
  rw [prologue]
  exact (congrArg (· >>= _) (ensure_eq (by decide))).trans (pure_bind _ _)

/-- Where the body starts. -/
def bodyOff : ℕ := entryOff + codeLen (prologueCode tableDelta)

theorem sized_prologueCode (delta : ℤ) : Sized (prologueCode delta) := by
  intro ins hmem
  rw [prologueCode, List.mem_append] at hmem
  rcases hmem with hmem | hmem
  · simp only [List.mem_cons, List.not_mem_nil, or_false] at hmem
    rcases hmem with rfl | rfl | rfl | rfl | rfl <;> exact .inr rfl
  · obtain ⟨n, -, rfl⟩ := List.mem_map.mp hmem
    exact .inr rfl

theorem sized_resolved {chunks : List Chunk} (hsound : ∀ c ∈ chunks, c.Sound) :
    Sized (resolved chunks) := by
  induction chunks with
  | nil => exact List.forall_mem_nil _
  | cons c rest ih =>
      rw [List.forall_mem_cons] at hsound
      intro ins hmem
      rw [resolved, List.mem_append] at hmem
      exact hmem.elim (hsound.1.sizes _ ins) (ih hsound.2 ins)

theorem getElem?_offsets_marked {chunks : List Chunk} {t : ℕ} (ht : t ≤ chunks.length) (off : ℕ) :
    (offsets off (marked chunks))[t]? = some (off + totalLen (chunks.take t)) := by
  have hlt : t < (marked chunks).length := by
    rw [marked, List.length_append, List.length_singleton]
    exact Nat.lt_succ_of_le ht
  rw [getElem?_offsets hlt, marked, List.take_append_of_le_length ht]

/-- **A generated program**: sound chunks after the prologue, and the marker at their end. -/
structure Program.Generated (p : Program) (chunks : List Chunk) : Prop where
  sound : ∀ c ∈ chunks, c.Sound
  fits : bodyOff + totalLen chunks ≤ budget
  assembled : p.Assembled (prologueCode tableDelta) (resolved chunks ++ [.w ecallWord]) bodyOff
    (bodyOff + totalLen chunks)

theorem draws_program (fuel : ℕ) (seed : BitVec 64) :
    Draws (program fuel seed) fun p => ∃ chunks, p.Generated chunks := by
  have hbody : bodyOff = 0xD0 := rfl
  have hbudget : budget = 0xFC0 := rfl
  have htableOff : tableOff = 0x1100 := rfl
  apply draws_seedTable.bind
  intro table htable
  rw [prologue_eq, pure_bind]
  dsimp only
  rw [← bodyOff]
  apply (draws_genChunks fuel chunkCount (show bodyOff ≤ budget by decide)).bind
  rintro chunks ⟨hsound, hfits⟩
  have hlast : (marked chunks).length - 1 = chunks.length := by
    rw [marked, List.length_append]
    rfl
  have hend : (offsets bodyOff (marked chunks))[chunks.length]? =
      some (bodyOff + totalLen chunks) := by
    rw [getElem?_offsets_marked le_rfl, List.take_length]
  have hresolved : resolveAll (offsets bodyOff (marked chunks)) chunks.length 0 (marked chunks) =
      pure (resolved chunks ++ [.w ecallWord]) := by
    have hall := @resolveAll_eq (offsets bodyOff (marked chunks)) bodyOff [] chunks hsound
    rw [List.length_nil, Nat.zero_add, List.nil_append] at hall
    exact hall fun t ht => getElem?_offsets_marked ht bodyOff
  have hsized : Sized (resolved chunks ++ [.w ecallWord]) := by
    intro ins hmem
    rcases List.mem_append.mp hmem with hmem | hmem
    · exact sized_resolved hsound ins hmem
    · rw [List.mem_singleton.mp hmem]
      exact .inr rfl
  have hlen : codeLen (resolved chunks ++ [.w ecallWord]) = totalLen chunks + 4 := by
    rw [codeLen_append, codeLen_resolved]
    rfl
  rw [← marked, hlast, hend, hresolved]
  dsimp only
  rw [pure_bind, pure_bind]
  generalize hmade : assemble _ _ _ _ _ _ = made
  have hstart : entryOff + codeLen (prologueCode tableDelta) ≤ bodyOff := le_rfl
  apply (draws_assemble htable (sized_prologueCode _) hsized hstart (by omega) hmade).imp
  exact fun p hassembled => ⟨chunks, hsound, hfits, hassembled⟩

end Baonix.Difftest

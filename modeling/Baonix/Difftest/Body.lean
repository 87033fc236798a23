import Baonix.Difftest.Forward
import Baonix.Difftest.Program

/-!
# The body

The chunks are resolved from the offsets they were laid out at.  A chunk goes ahead by some
chunks, and no further than the end: so the end is reached from each of them.
-/

namespace Baonix.Difftest

open Baonix.Core (FlatBacking ConsoleSink Machine Fallible)

/-! ## Chunks laid out -/

def totalLen (chunks : List Chunk) : ℕ := (chunks.map Chunk.len).sum

theorem totalLen_cons (c : Chunk) (rest : List Chunk) :
    totalLen (c :: rest) = c.len + totalLen rest := rfl

theorem totalLen_append (first last : List Chunk) :
    totalLen (first ++ last) = totalLen first + totalLen last := by
  rw [totalLen, List.map_append, List.sum_append]
  rfl

/-- The instructions of chunks before the end of the body. -/
def resolved : List Chunk → List Ins
  | [] => []
  | c :: rest => c.code (totalLen ((c :: rest).take c.ahead)) ++ resolved rest

theorem codeLen_resolved (chunks : List Chunk) : codeLen (resolved chunks) = totalLen chunks := by
  induction chunks with
  | nil => rfl
  | cons c rest ih => rw [resolved, codeLen_append, codeLen_code, ih, totalLen_cons]

theorem Chunk.Sound.ahead_bounds {c : Chunk} (hsound : c.Sound) :
    1 ≤ c.ahead ∧ c.ahead ≤ maxSkip := by
  cases hsound with
  | computes => exact ⟨le_rfl, show 1 ≤ maxSkip by decide⟩
  | accesses => exact ⟨le_rfl, show 1 ≤ maxSkip by decide⟩
  | reserves => exact ⟨le_rfl, show 1 ≤ maxSkip by decide⟩
  | branch _ _ _ hskip => exact hskip
  | jal _ hskip => exact hskip
  | jalr _ _ hskip => exact hskip
  | cBranch _ _ hskip => exact hskip
  | cJ hskip => exact hskip
  | cJr _ _ hskip => exact hskip

theorem totalLen_even {chunks : List Chunk} (hsound : ∀ c ∈ chunks, c.Sound) :
    2 ∣ totalLen chunks := by
  induction chunks with
  | nil => exact dvd_zero 2
  | cons c rest ih =>
      rw [List.forall_mem_cons] at hsound
      exact hsound.1.len_bounds.1.add (ih hsound.2)

theorem totalLen_le {chunks : List Chunk} (hsound : ∀ c ∈ chunks, c.Sound) :
    totalLen chunks ≤ chunks.length * maxChunk := by
  induction chunks with
  | nil => exact Nat.zero_le _
  | cons c rest ih =>
      rw [List.forall_mem_cons] at hsound
      rw [totalLen_cons, List.length_cons, Nat.succ_mul, Nat.add_comm]
      exact Nat.add_le_add (ih hsound.2) hsound.1.len_bounds.2.2

/-- **The distance of a target** is even, past the chunk, and fits every field. -/
theorem distance_bounds {c : Chunk} {rest : List Chunk} (hsound : ∀ c' ∈ c :: rest, c'.Sound) :
    2 ∣ totalLen ((c :: rest).take c.ahead) ∧ c.len ≤ totalLen ((c :: rest).take c.ahead) ∧
      totalLen ((c :: rest).take c.ahead) < 256 := by
  have htake : ∀ c' ∈ (c :: rest).take c.ahead, c'.Sound := fun c' hmem =>
    hsound c' (List.mem_of_mem_take hmem)
  obtain ⟨hpos, hmax⟩ := (hsound c (List.mem_cons_self ..)).ahead_bounds
  refine ⟨totalLen_even htake, ?_, ?_⟩
  · obtain ⟨k, hk⟩ := Nat.exists_eq_add_of_le' hpos
    rw [hk, List.take_succ_cons, totalLen_cons]
    exact Nat.le_add_right ..
  · have hcount : ((c :: rest).take c.ahead).length ≤ maxSkip := (List.length_take_le ..).trans hmax
    calc totalLen ((c :: rest).take c.ahead)
        ≤ ((c :: rest).take c.ahead).length * maxChunk := totalLen_le htake
      _ ≤ maxSkip * maxChunk := Nat.mul_le_mul_right _ hcount
      _ < 256 := by decide

/-! ## Through the body -/

section

variable {B S : Type} [FlatBacking B] [ConsoleSink S] (hreliable : ¬Fallible B)
  {image : List LittleEndian.Byte} {listing : List (BitVec 64)}
include hreliable

/-- **The end of the chunks** is reached from the start of each of them, in as many steps as
there are instructions. -/
theorem arrives_end {chunks : List Chunk} (hsound : ∀ c ∈ chunks, c.Sound) {o t : ℕ}
    (heven : 2 ∣ o) {rest : List Ins} (hlisted : Listed image listing o (resolved chunks ++ rest))
    {m : Machine B S} (hat : At image (o + totalLen (chunks.take t)) m) :
    Arrives (Advances image listing InScratch) (At image (o + totalLen chunks))
      (resolved chunks).length m := by
  induction chunks generalizing o t m with
  | nil =>
      rw [List.take_nil] at hat
      exact .here hat
  | cons c chunks ih =>
      obtain ⟨hd, hfar, hnear⟩ := distance_bounds hsound
      rw [List.forall_mem_cons] at hsound
      rw [resolved, List.append_assoc] at hlisted
      have hrest := hlisted.right
      rw [codeLen_code] at hrest
      have hnext : 2 ∣ o + c.len := heven.add hsound.1.len_bounds.1
      rw [resolved, List.length_append, totalLen_cons, ← Nat.add_assoc]
      cases t with
      | zero =>
          apply (arrives_chunk hreliable hat hsound.1 hd hfar hnear heven hlisted).chain
          rintro reached (hat | hat)
          · exact ih hsound.2 hnext hrest (t := 0) hat
          · obtain ⟨k, hk⟩ := Nat.exists_eq_add_of_le' hsound.1.ahead_bounds.1
            rw [hk, List.take_succ_cons, totalLen_cons, ← Nat.add_assoc] at hat
            exact ih hsound.2 hnext hrest hat
      | succ t =>
          rw [List.take_succ_cons, totalLen_cons, ← Nat.add_assoc] at hat
          exact (ih hsound.2 hnext hrest hat).mono (Nat.le_add_left ..)

end

/-! ## Resolution -/

theorem getElem?_offsets {chunks : List Chunk} {t : ℕ} (ht : t < chunks.length) (off : ℕ) :
    (offsets off chunks)[t]? = some (off + totalLen (chunks.take t)) := by
  induction chunks generalizing off t with
  | nil => exact absurd ht (Nat.not_lt_zero t)
  | cons c rest ih =>
      cases t with
      | zero => rfl
      | succ t =>
          rw [offsets, List.getElem?_cons_succ, ih (Nat.lt_of_succ_lt_succ ht),
            List.take_succ_cons, totalLen_cons, Nat.add_assoc]

theorem distance_eq {offs : List ℕ} {here t d : ℕ} (htarget : offs[t]? = some (here + d)) :
    distance offs here t = pure d := by
  rw [distance, htarget]
  dsimp only
  rw [if_neg (Nat.not_lt.mpr (Nat.le_add_right ..)), Nat.add_sub_cancel_left]

theorem ensure_eq {condition : Prop} [Decidable condition] (hcondition : condition) :
    ensure condition = pure ⟨⟩ := by
  rw [ensure, if_pos hcondition]

theorem i32_of_lt {d : ℕ} (hd : d < 256) : i32 d = d := by
  have hvalue : (u32 d).toNat = d := by
    rw [u32, BitVec.toNat_ofNat, Nat.mod_eq_of_lt (by omega)]
  rw [i32, BitVec.toInt_eq_toNat_of_lt (by omega), hvalue]

/-- A target so near is encoded without an assertion failing. -/
theorem resolve_eq {offs : List ℕ} {last i here d : ℕ} {c : Chunk}
    (htarget : offs[min (i + c.ahead) last]? = some (here + d)) (hd : d < 256) :
    resolve offs last i here c = pure (c.code d) := by
  have hvalue : (u32 d).toNat = d := by
    rw [u32, BitVec.toNat_ofNat, Nat.mod_eq_of_lt (by omega)]
  cases c with
  | plain code => rfl
  | branch f3 rs1 rs2 skip =>
      rw [Chunk.ahead] at htarget
      rw [resolve, distance_eq htarget, pure_bind]
      rfl
  | jal rd skip =>
      rw [Chunk.ahead] at htarget
      rw [resolve, distance_eq htarget, pure_bind]
      rfl
  | jalr rt rd skip =>
      have hnear : max (-2048) (min (d : ℤ) 2047) = d := by omega
      rw [Chunk.ahead] at htarget
      rw [resolve, distance_eq htarget, pure_bind, i32_of_lt hd]
      dsimp only
      rw [hnear, sub_self, ensure_eq (by decide), pure_bind, BitVec.ofInt_natCast]
      rfl
  | cBranch ne rs1 skip =>
      rw [Chunk.ahead] at htarget
      rw [resolve, distance_eq htarget, pure_bind, ensure_eq (by omega), pure_bind]
      rfl
  | cJ skip =>
      rw [Chunk.ahead] at htarget
      rw [resolve, distance_eq htarget, pure_bind, ensure_eq (by omega), pure_bind]
      rfl
  | cJr rt link skip =>
      rw [Chunk.ahead] at htarget
      rw [resolve, distance_eq htarget, pure_bind, i32_of_lt hd, ensure_eq (by omega), pure_bind]
      rfl

/-- The chunks of a body with its marker at the end. -/
def marked (chunks : List Chunk) : List Chunk := chunks ++ [.plain [.w ecallWord]]

/-- **The chunks are resolved** from their offsets. -/
theorem resolveAll_eq {offs : List ℕ} {off : ℕ} {before chunks : List Chunk}
    (hsound : ∀ c ∈ chunks, c.Sound)
    (hoffs : ∀ t ≤ before.length + chunks.length,
      offs[t]? = some (off + totalLen ((before ++ chunks).take t))) :
    resolveAll offs (before.length + chunks.length) before.length (marked chunks) =
      pure (resolved chunks ++ [.w ecallWord]) := by
  induction chunks generalizing before with
  | nil =>
      rw [marked, List.nil_append, resolveAll, hoffs _ (Nat.le_add_right ..)]
      rfl
  | cons c rest ih =>
      have hhere : offs[before.length]? = some (off + totalLen before) := by
        rw [hoffs _ (Nat.le_add_right ..), List.take_left]
      have htarget : offs[min (before.length + c.ahead) (before.length + (c :: rest).length)]? =
          some (off + totalLen before + totalLen ((c :: rest).take c.ahead)) := by
        rw [hoffs _ (min_le_right _ _), Nat.add_min_add_left, List.take_length_add_append,
          totalLen_append, ← List.take_eq_take_min, Nat.add_assoc]
      have hnext := @ih (before ++ [c]) (List.forall_mem_cons.mp hsound).2
      rw [List.length_append, List.append_assoc, List.length_singleton, Nat.add_assoc,
        Nat.add_comm 1] at hnext
      have hfollowing := hnext hoffs
      rw [marked, List.cons_append, resolveAll, hhere]
      dsimp only
      rw [pure_bind, resolve_eq htarget (distance_bounds hsound).2.2, pure_bind]
      rw [← marked, List.length_cons, hfollowing, pure_bind, resolved, List.append_assoc]

/-- What is generated fits the budget. -/
theorem draws_genChunks (fuel left : ℕ) {off : ℕ} (hoff : off ≤ budget) :
    Draws (genChunks fuel left off) fun chunks =>
      (∀ c ∈ chunks, c.Sound) ∧ off + totalLen chunks ≤ budget := by
  induction left generalizing off with
  | zero => exact .pure ⟨List.forall_mem_nil _, hoff⟩
  | succ left ih =>
      apply (sound_genChunk fuel).bind
      intro c hsound
      apply (draws_ensure hsound.len_bounds.2.2).bind
      intro _ _
      by_cases hfull : off + c.len > budget
      · rw [if_pos hfull]
        exact .pure ⟨List.forall_mem_nil _, hoff⟩
      · rw [if_neg hfull]
        apply (ih (Nat.le_of_not_lt hfull)).bind
        rintro rest ⟨hrest, hfits⟩
        refine .pure ⟨List.forall_mem_cons.mpr ⟨hsound, hrest⟩, ?_⟩
        rwa [totalLen_cons, ← Nat.add_assoc]

end Baonix.Difftest

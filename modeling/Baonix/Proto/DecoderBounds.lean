import Baonix.Proto.DecoderRuns

/-!
# Bounds of the decoder

What the decoder holds once `next_frame` has nothing to return is part of one frame,
and its loop takes a byte off the buffer each time round.
-/

namespace Baonix.Proto

open Baonix.LittleEndian Baonix.Scanning

/-- The bytes of a frame with the longest payload. -/
def maxFrame : ℕ := header + maxPayload + trailer

namespace Decoder

/-- The loop of `next_frame`, given up after a number of turns. -/
def loopWithin : ℕ → Decoder → Option (Option Frame × Decoder)
  | 0, _ => none
  | turns + 1, d =>
      match d.turn with
      | .ret frame next => some (frame, next)
      | .again next => loopWithin turns next

/-- The loop returns within one turn more than there are bytes. -/
theorem loopWithin_length (d : Decoder) {turns : ℕ} (hturns : d.buf.length < turns) :
    loopWithin turns d = some d.nextFrame := by
  induction turns generalizing d with
  | zero => exact absurd hturns (Nat.not_lt_zero _)
  | succ turns ih =>
      rw [loopWithin, nextFrame]
      split
      · rename_i frame next hturn
        split
        · rename_i heq
          rw [hturn, Turn.ret.injEq] at heq
          rw [heq.1, heq.2]
        · rename_i heq
          rw [hturn] at heq
          cases heq
      · rename_i next hturn
        have hless := turn_again_lt hturn
        split
        · rename_i heq
          rw [hturn] at heq
          cases heq
        · rename_i heq
          rw [hturn, Turn.again.injEq] at heq
          rw [← heq]
          exact ih next (by omega)

/-- A buffer at whose SYNC the decoder waits is shorter than the longest frame. -/
theorem lookAtSync_waits {buf : List Byte} (hwait : lookAtSync buf = none) :
    buf.length < maxFrame := by
  rw [lookAtSync] at hwait
  simp only [header, trailer] at hwait
  rw [maxFrame]
  split at hwait
  · simp only [header, trailer, maxPayload, pageSize]
    omega
  split at hwait
  · cases hwait
  split at hwait
  · simp only [header, trailer, maxPayload, pageSize] at *
    omega
  split at hwait
  · cases hwait
  · split at hwait <;> cases hwait

theorem findSync_cons_sync (rest : List Byte) :
    findSync (syncLo :: syncHi :: rest) = some 0 := by
  rw [findSync, if_pos ⟨rfl, rfl⟩]

/-- What the scanner waits on: less than a frame, and next to nothing without a SYNC. -/
theorem look_waits {buf : List Byte} (hwait : wire.look buf = none) :
    buf.length < maxFrame ∧ (findSync buf = none → buf.length ≤ 1) := by
  match buf with
  | [] => exact ⟨by decide, fun _ => Nat.zero_le _⟩
  | [byte] =>
      have hone : 1 < maxFrame := by decide
      exact ⟨hone, fun _ => Nat.le_refl _⟩
  | first :: second :: rest =>
      simp only [wire, look] at hwait
      split at hwait
      · rename_i hsync
        refine ⟨lookAtSync_waits hwait, fun hnone => ?_⟩
        rw [hsync.1, hsync.2, findSync_cons_sync] at hnone
        cases hnone
      · cases hwait

/-- The sample of the noise keeps to its cap. -/
theorem nextFrame_noise_le {d : Decoder} (hnoise : d.noise.length ≤ d.noiseCap) :
    d.nextFrame.2.noise.length ≤ d.nextFrame.2.noiseCap := by
  obtain ⟨tokens, hperforms, -⟩ := nextFrame_performs d
  rw [hperforms.records, record]
  split
  · simp only [List.length_append, List.length_take]
    omega
  · exact hnoise

/-- **The decoder's memory and work are bounded.**  Whatever was pushed and in whatever
pieces: when `next_frame` returns nothing the buffer is shorter than the longest frame,
and at most one byte is left of it without a SYNC; the noise kept beside it never
outgrows its cap; a turn of the loop that goes on has removed a byte; and the loop
returns before it has gone round more often than there were bytes. -/
theorem next_frame_bounded (d : Decoder) :
    (d.nextFrame.1 = none → d.nextFrame.2.buf.length < maxFrame ∧
      (findSync d.nextFrame.2.buf = none → d.nextFrame.2.buf.length ≤ 1)) ∧
    (d.noise.length ≤ d.noiseCap →
      d.nextFrame.2.noise.length ≤ d.nextFrame.2.noiseCap) ∧
    (∀ next, d.turn = .again next → next.buf.length < d.buf.length) ∧
    loopWithin (d.buf.length + 1) d = some d.nextFrame :=
  ⟨fun hnone => look_waits (waits_of_nextFrame_none hnone), nextFrame_noise_le,
    fun _ hturn => turn_again_lt hturn, loopWithin_length d (Nat.lt_succ_self _)⟩

end Decoder

end Baonix.Proto

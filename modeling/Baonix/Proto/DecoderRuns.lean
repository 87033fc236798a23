import Baonix.Proto.WireScanner

/-!
# Runs of the decoder

`next_frame` refines the scanner of the wire format: one call performs the
decisions up to and including the first frame, or all of them if there is none.
From this every run of `push`, `next_frame` and `take_noise` is a scan of the
bytes pushed so far, whatever the order of the calls.
-/

namespace Baonix.Proto

open Baonix.LittleEndian Baonix.Scanning

namespace Decoder

/-- The noise bookkeeping of `discard`, for a given stretch of bytes. -/
def record (d : Decoder) (bytes : List Byte) : Decoder :=
  if d.capture then
    { d with
      noise := d.noise ++ bytes.take (d.noiseCap - d.noise.length)
      droppedNoise := d.droppedNoise + (bytes.length - (d.noiseCap - d.noise.length)) }
  else d

@[simp]
theorem buf_record (d : Decoder) (bytes : List Byte) : (d.record bytes).buf = d.buf := by
  rw [record]
  split <;> rfl

@[simp]
theorem capture_record (d : Decoder) (bytes : List Byte) :
    (d.record bytes).capture = d.capture := by
  rw [record]
  split <;> rfl

@[simp]
theorem record_nil (d : Decoder) : d.record [] = d := by
  simp [record]

/-- Recording two stretches one after the other is recording their
concatenation: the cap is spent from the front. -/
theorem record_record (d : Decoder) (first second : List Byte) (buf : List Byte) :
    ({ d.record first with buf := buf } : Decoder).record second =
      { d.record (first ++ second) with buf := buf } := by
  by_cases hcapture : d.capture
  · simp only [record, hcapture, if_true, List.length_append, List.length_take,
      List.take_append, List.append_assoc]
    have hroom : d.noiseCap -
        (d.noise.length + min (d.noiseCap - d.noise.length) first.length) =
        d.noiseCap - d.noise.length - first.length := by omega
    rw [hroom]
    congr 1
    omega
  · simp [record, hcapture]

@[simp]
theorem discard_zero (d : Decoder) : d.discard 0 = d := by
  cases d
  simp [discard]

theorem discard_eq_record (d : Decoder) {count : ℕ} (hcount : count ≤ d.buf.length) :
    d.discard count =
      { d.record (d.buf.take count) with buf := d.buf.drop count } := by
  by_cases hcapture : d.capture
  · simp only [discard, record, hcapture, if_true, List.length_take, List.take_take]
    congr 1
    omega
  · simp [discard, record, hcapture]

/-- `d` turns into `next` by taking `tokens` off the front of its buffer. -/
structure Performs (d : Decoder) (tokens : List Token) (next : Decoder) : Prop where
  scans : Scans wire d.buf tokens next.buf
  records : next = { d.record (noiseOf tokens) with buf := next.buf }

namespace Performs

variable {d middle next : Decoder} {tokens more : List Token}

theorem refl (d : Decoder) : Performs d [] d :=
  ⟨.refl _, by simp [noiseOf]⟩

theorem trans (hleft : Performs d tokens middle) (hright : Performs middle more next) :
    Performs d (tokens ++ more) next := by
  refine ⟨hleft.scans.trans hright.scans, ?_⟩
  have hnext := hright.records
  rw [hleft.records, record_record] at hnext
  rw [noiseOf_append]
  exact hnext

theorem push (hperforms : Performs d tokens next) (bytes : List Byte) :
    Performs (d.push bytes) tokens (next.push bytes) := by
  refine ⟨hperforms.scans.append bytes, ?_⟩
  have hnext := hperforms.records
  by_cases hcapture : d.capture
  · simp only [record, hcapture, if_true] at hnext
    rw [hnext]
    simp [Decoder.push, record, hcapture]
  · simp only [record, hcapture] at hnext
    rw [hnext]
    simp [Decoder.push, record, hcapture]

/-- One decision that emits no noise. -/
theorem of_look {count : ℕ} {token : Token}
    (hlook : wire.look d.buf = some (count, token)) (hquiet : token.noiseBytes = []) :
    Performs d [token] { d with buf := d.buf.drop count } := by
  refine ⟨.single hlook, ?_⟩
  simp only [noiseOf, List.flatMap_cons, List.flatMap_nil, hquiet, List.append_nil,
    record_nil]

/-- A stretch of noise taken with `discard`. -/
theorem of_discard {count : ℕ} (hcount : count ≤ d.buf.length)
    (hscan : Scans wire d.buf tokens (d.buf.drop count))
    (hnoise : noiseOf tokens = d.buf.take count) :
    Performs d tokens (d.discard count) := by
  refine ⟨by rwa [buf_discard], ?_⟩
  rw [discard_eq_record d hcount, hnoise]

end Performs

/-- The loop body on a buffer that starts with SYNC takes the scanner's
decision. -/
theorem turnAtSync_eq (d : Decoder) :
    d.turnAtSync =
      match lookAtSync d.buf with
      | none => .ret none d
      | some (count, .noise _) => .again (d.discard count)
      | some (count, .foreign _) => .again { d with buf := d.buf.drop count }
      | some (count, .frame _ frame) => .ret (some frame) { d with buf := d.buf.drop count } := by
  unfold turnAtSync lookAtSync
  dsimp only
  by_cases hheader : d.buf.length < header
  · simp [hheader]
  by_cases hmax : lenField d.buf > maxPayload
  · simp [hheader, hmax]
  by_cases htotal : d.buf.length < header + lenField d.buf + trailer
  · simp [hheader, hmax, htotal]
  by_cases hcrc : crc32 (bodyField d.buf (lenField d.buf)) ≠ wantField d.buf (lenField d.buf)
  · simp [hheader, hmax, htotal, hcrc]
  · rw [if_neg hheader, if_neg hmax, if_neg htotal, if_neg hcrc, if_neg hheader,
      if_neg hmax, if_neg htotal, if_neg hcrc]
    cases decodeBody (d.buf.getD 2 0) (payloadSlice d.buf (lenField d.buf)) <;> simp

/-- How the tokens of a call end, by what the call returns: the scanner waits,
or the last stretch removed is the frame returned. -/
def Ends (tokens : List Token) (next : Decoder) : Option Frame → Prop
  | none => wire.look next.buf = none
  | some frame => ∃ quiet bytes, tokens = quiet ++ [.frame bytes frame]

theorem Ends.prepend {more : List Token} {next : Decoder} {frame : Option Frame}
    (hends : Ends more next frame) (tokens : List Token) :
    Ends (tokens ++ more) next frame := by
  cases frame with
  | none => exact hends
  | some frame =>
      obtain ⟨quiet, bytes, rfl⟩ := hends
      exact ⟨tokens ++ quiet, bytes, (List.append_assoc ..).symm⟩

/-- What a turn does to the decoder, by how it ends. -/
def TurnPerforms (d : Decoder) : Turn → Prop
  | .ret frame next => ∃ tokens, Performs d tokens next ∧
      framesOf tokens = frame.toList ∧ Ends tokens next frame
  | .again next => ∃ tokens, Performs d tokens next ∧ framesOf tokens = []

theorem turnAtSync_performs (d : Decoder)
    (hsync : wire.look d.buf = lookAtSync d.buf) : TurnPerforms d d.turnAtSync := by
  rw [turnAtSync_eq]
  match hlook : lookAtSync d.buf with
  | none => exact ⟨[], .refl d, rfl, hsync.trans hlook⟩
  | some (count, .noise bytes) =>
      rw [← hsync] at hlook
      have hbounds := look_bounds hlook
      refine ⟨[.noise bytes], .of_discard hbounds.2.1 (.single hlook) ?_, rfl⟩
      simpa [noiseOf, Token.noiseBytes, Token.bytes] using hbounds.2.2
  | some (count, .foreign bytes) =>
      rw [← hsync] at hlook
      exact ⟨[.foreign bytes], .of_look hlook rfl, rfl⟩
  | some (count, .frame bytes frame) =>
      rw [← hsync] at hlook
      exact ⟨[.frame bytes frame], .of_look hlook rfl, rfl, [], bytes, rfl⟩

theorem turn_performs (d : Decoder) : TurnPerforms d d.turn := by
  unfold turn
  match hfind : findSync d.buf with
  | none =>
      obtain ⟨tokens, rest, hscan, hwait, hframes, hnoise, hrest⟩ :=
        scans_of_findSync_none hfind
      subst hrest
      refine ⟨tokens, .of_discard (Nat.sub_le _ _) hscan hnoise, hframes, ?_⟩
      rw [Ends, buf_discard]
      exact hwait
  | some start =>
      obtain ⟨rest, hdrop⟩ := findSync_drop hfind
      have hstart : (if start > 0 then d.discard start else d) = d.discard start := by
        split
        · rfl
        · rename_i hzero
          have : start = 0 := by omega
          rw [this, discard_zero]
      obtain ⟨tokens, hscan, hframes, hnoise⟩ := scans_of_findSync hfind
      have hle : start ≤ d.buf.length := by
        have := congrArg List.length hdrop
        simp only [List.length_drop, List.length_cons] at this
        omega
      have hhunt : Performs d tokens (d.discard start) := .of_discard hle hscan hnoise
      have hsync : wire.look (d.discard start).buf = lookAtSync (d.discard start).buf := by
        rw [buf_discard, hdrop, wire_look_sync]
      have hturn := turnAtSync_performs (d.discard start) hsync
      dsimp only
      rw [hstart]
      cases hcase : (d.discard start).turnAtSync with
      | ret frame next =>
          rw [hcase] at hturn
          obtain ⟨more, hmore, hmoreFrames, hends⟩ := hturn
          exact ⟨tokens ++ more, hhunt.trans hmore, by simp [hframes, hmoreFrames],
            hends.prepend tokens⟩
      | again next =>
          rw [hcase] at hturn
          obtain ⟨more, hmore, hmoreFrames⟩ := hturn
          exact ⟨tokens ++ more, hhunt.trans hmore, by simp [hframes, hmoreFrames]⟩

/-- **One call of `next_frame` is a scan** that ends with the frame it returns,
or with the scanner waiting. -/
theorem nextFrame_performs (d : Decoder) :
    ∃ tokens, Performs d tokens d.nextFrame.2 ∧
      framesOf tokens = d.nextFrame.1.toList ∧ Ends tokens d.nextFrame.2 d.nextFrame.1 := by
  fun_induction nextFrame d with
  | case1 d frame next hturn =>
      have hperforms := turn_performs d
      rw [hturn] at hperforms
      exact hperforms
  | case2 d next hturn ih =>
      have hperforms := turn_performs d
      rw [hturn] at hperforms
      obtain ⟨tokens, hfirst, hframes⟩ := hperforms
      obtain ⟨more, hmore, hmoreFrames, hends⟩ := ih
      exact ⟨tokens ++ more, hfirst.trans hmore, by simp [hframes, hmoreFrames],
        hends.prepend tokens⟩

theorem waits_of_nextFrame_none {d : Decoder} (hnone : d.nextFrame.1 = none) :
    wire.look d.nextFrame.2.buf = none := by
  obtain ⟨tokens, -, -, hends⟩ := nextFrame_performs d
  rwa [hnone] at hends

/-- A call that returns a frame has removed bytes. -/
theorem nextFrame_some_lt {d : Decoder} {frame : Frame}
    (hframe : d.nextFrame.1 = some frame) :
    d.nextFrame.2.buf.length < d.buf.length := by
  obtain ⟨tokens, hperforms, hframes, -⟩ := nextFrame_performs d
  apply hperforms.scans.length_lt
  rintro rfl
  rw [hframe] at hframes
  cases hframes

/-- `next_frame` to exhaustion: the frames returned before the first `None`. -/
def drain (d : Decoder) : List Frame × Decoder :=
  match _hnext : d.nextFrame.1 with
  | none => ([], d.nextFrame.2)
  | some frame =>
      let tail := drain d.nextFrame.2
      (frame :: tail.1, tail.2)
termination_by d.buf.length
decreasing_by exact nextFrame_some_lt _hnext

theorem drain_performs (d : Decoder) :
    ∃ tokens, Performs d tokens d.drain.2 ∧ framesOf tokens = d.drain.1 ∧
      wire.look d.drain.2.buf = none := by
  fun_induction drain d with
  | case1 d hnext =>
      obtain ⟨tokens, hperforms, hframes, -⟩ := nextFrame_performs d
      exact ⟨tokens, hperforms, by simpa [hnext] using hframes,
        waits_of_nextFrame_none hnext⟩
  | case2 d frame hnext tail ih =>
      obtain ⟨tokens, hperforms, hframes, -⟩ := nextFrame_performs d
      obtain ⟨more, hmore, hmoreFrames, hwait⟩ := ih
      refine ⟨tokens ++ more, hperforms.trans hmore, ?_, hwait⟩
      rw [framesOf_append, hframes, hnext, hmoreFrames]
      rfl

/-- Draining is the run of the scanner on the buffer. -/
theorem drain_eq_run (d : Decoder) :
    d.drain.1 = framesOf (run wire d.buf).1 ∧ d.drain.2.buf = (run wire d.buf).2 := by
  obtain ⟨tokens, hperforms, hframes, hwait⟩ := drain_performs d
  rw [run_eq_of_scans hperforms.scans hwait]
  exact ⟨hframes.symm, rfl⟩

end Decoder

end Baonix.Proto

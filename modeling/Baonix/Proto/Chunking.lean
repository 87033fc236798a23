import Baonix.Proto.RoundTrip

/-!
# Independence of the chunking

A caller of the decoder pushes a stream in pieces, and between the pieces calls
`next_frame` and `take_noise` as often as it likes.  What it gets back, and what
stays buffered, depends on the stream alone.
-/

namespace Baonix.Proto

open Baonix.LittleEndian Baonix.Scanning

/-- One call on a decoder. -/
inductive Call
  | push (bytes : List Byte)
  | nextFrame
  | takeNoise
  deriving DecidableEq

/-- What a caller has been handed: the frames, and the noise with the count of
dropped bytes. -/
structure Transcript where
  frames : List Frame
  noise : List Byte
  dropped : ℕ
  deriving DecidableEq

def Transcript.append (first second : Transcript) : Transcript :=
  ⟨first.frames ++ second.frames, first.noise ++ second.noise,
    first.dropped + second.dropped⟩

def Call.perform (d : Decoder) : Call → Transcript × Decoder
  | .push bytes => (⟨[], [], 0⟩, d.push bytes)
  | .nextFrame => (⟨d.nextFrame.1.toList, [], 0⟩, d.nextFrame.2)
  | .takeNoise => (⟨[], d.takeNoise.1.1, d.takeNoise.1.2⟩, d.takeNoise.2)

/-- A sequence of calls. -/
def play : List Call → Decoder → Transcript × Decoder
  | [], d => (⟨[], [], 0⟩, d)
  | call :: calls, d =>
      let first := call.perform d
      let rest := play calls first.2
      (first.1.append rest.1, rest.2)

/-- The bytes a sequence of calls pushes. -/
def pushed : List Call → List Byte
  | [] => []
  | .push bytes :: calls => bytes ++ pushed calls
  | _ :: calls => pushed calls

/-- A new decoder: a plain one, or one that captures noise up to a cap. -/
def fresh : Option ℕ → Decoder
  | none => Decoder.new
  | some cap => Decoder.capturingNoiseCapped cap

/-- Between them, what a caller was handed and what the decoder still holds
account for the noise the decoder started with and `noise`. -/
structure Accounts (d : Decoder) (noise : List Byte) (t : Transcript) (next : Decoder) :
    Prop where
  capture : next.capture = d.capture
  count : d.capture = true →
    t.noise.length + next.noise.length + (t.dropped + next.droppedNoise) =
      d.noise.length + noise.length + d.droppedNoise
  kept : d.capture = true → t.dropped + next.droppedNoise = d.droppedNoise →
    t.noise ++ next.noise = d.noise ++ noise
  sublist : List.Sublist (t.noise ++ next.noise) (d.noise ++ noise)
  mono : d.droppedNoise ≤ t.dropped + next.droppedNoise
  plain : d.capture = false →
    t.noise ++ next.noise = d.noise ∧ t.dropped + next.droppedNoise = d.droppedNoise

namespace Accounts

variable {d middle next : Decoder} {noise more : List Byte} {t u : Transcript}

theorem trans (hleft : Accounts d noise t middle) (hright : Accounts middle more u next) :
    Accounts d (noise ++ more) (t.append u) next := by
  have hcapture := hleft.capture
  have hmonoLeft := hleft.mono
  have hmonoRight := hright.mono
  constructor
  · exact hright.capture.trans hcapture
  · intro hd
    have hcountLeft := hleft.count hd
    have hcountRight := hright.count (hcapture.trans hd)
    simp only [Transcript.append, List.length_append]
    omega
  · intro hd hdropped
    simp only [Transcript.append] at hdropped ⊢
    have hkeptLeft := hleft.kept hd (by omega)
    have hkeptRight := hright.kept (hcapture.trans hd) (by omega)
    rw [List.append_assoc, hkeptRight, ← List.append_assoc, hkeptLeft, List.append_assoc]
  · simp only [Transcript.append]
    rw [List.append_assoc]
    apply List.Sublist.trans (hright.sublist.append_left t.noise)
    rw [← List.append_assoc, ← List.append_assoc]
    exact hleft.sublist.append_right more
  · simp only [Transcript.append]
    omega
  · intro hd
    have hplainLeft := hleft.plain hd
    have hplainRight := hright.plain (hcapture.trans hd)
    simp only [Transcript.append]
    constructor
    · rw [List.append_assoc, hplainRight.1, hplainLeft.1]
    · omega

theorem of_performs {tokens : List Token} (hperforms : Decoder.Performs d tokens next)
    (frames : List Frame) : Accounts d (noiseOf tokens) ⟨frames, [], 0⟩ next := by
  have hnext := hperforms.records
  cases hcapture : d.capture with
  | false =>
      simp only [Decoder.record, hcapture] at hnext
      rw [hnext]
      constructor <;> simp [hcapture]
  | true =>
      simp only [Decoder.record, hcapture, if_true] at hnext
      rw [hnext]
      constructor
      · exact hcapture.symm
      · intro _
        simp only [List.length_nil, List.length_append, List.length_take]
        omega
      · intro _ hdropped
        rw [List.nil_append, List.take_of_length_le (by simp only at hdropped; omega)]
      · exact (List.take_sublist _ _).append_left d.noise
      · simp only
        omega
      · intro hfalse
        rw [hcapture] at hfalse
        cases hfalse

end Accounts

/-- One call scans on from where the decoder stands. -/
theorem perform_scans (d : Decoder) (call : Call) :
    ∃ tokens, Scans wire (d.buf ++ pushed [call]) tokens (call.perform d).2.buf ∧
      framesOf tokens = (call.perform d).1.frames ∧
      Accounts d (noiseOf tokens) (call.perform d).1 (call.perform d).2 := by
  cases call with
  | push bytes =>
      have haccounts := Accounts.of_performs (.refl d) []
      refine ⟨[], ?_, rfl, ?_⟩
      · simpa [pushed, Call.perform, Decoder.push] using Scans.refl (d.buf ++ bytes)
      · exact ⟨rfl, haccounts.count, haccounts.kept, haccounts.sublist, haccounts.mono,
          haccounts.plain⟩
  | nextFrame =>
      obtain ⟨tokens, hperforms, hframes, -⟩ := Decoder.nextFrame_performs d
      refine ⟨tokens, ?_, hframes, .of_performs hperforms _⟩
      simpa [pushed, Call.perform] using hperforms.scans
  | takeNoise =>
      refine ⟨[], ?_, rfl, ?_⟩
      · simpa [pushed, Call.perform, Decoder.takeNoise] using Scans.refl d.buf
      · constructor <;> simp [Call.perform, Decoder.takeNoise, noiseOf]

theorem pushed_cons (call : Call) (calls : List Call) :
    pushed (call :: calls) = pushed [call] ++ pushed calls := by
  cases call <;> simp [pushed]

/-- **Every sequence of calls is a scan of the bytes it pushed.** -/
theorem play_scans (calls : List Call) (d : Decoder) :
    ∃ tokens, Scans wire (d.buf ++ pushed calls) tokens (play calls d).2.buf ∧
      framesOf tokens = (play calls d).1.frames ∧
      Accounts d (noiseOf tokens) (play calls d).1 (play calls d).2 := by
  induction calls generalizing d with
  | nil =>
      refine ⟨[], ?_, rfl, .of_performs (.refl d) []⟩
      simpa [pushed, play] using Scans.refl d.buf
  | cons call calls ih =>
      obtain ⟨tokens, hscan, hframes, haccounts⟩ := perform_scans d call
      obtain ⟨more, hmoreScan, hmoreFrames, hmoreAccounts⟩ := ih (call.perform d).2
      refine ⟨tokens ++ more, ?_, ?_, ?_⟩
      · rw [pushed_cons, ← List.append_assoc]
        exact (hscan.append (pushed calls)).trans hmoreScan
      · rw [framesOf_append, hframes, hmoreFrames]
        rfl
      · rw [noiseOf_append]
        exact haccounts.trans hmoreAccounts

@[simp]
theorem buf_fresh (cap : Option ℕ) : (fresh cap).buf = [] := by
  cases cap <;> rfl

@[simp]
theorem noise_fresh (cap : Option ℕ) : (fresh cap).noise = [] := by
  cases cap <;> rfl

@[simp]
theorem droppedNoise_fresh (cap : Option ℕ) : (fresh cap).droppedNoise = 0 := by
  cases cap <;> rfl

/-! ## Round trip -/

/-- The frames that count as `frame` on the wire: itself, or for a console
frame the pieces of at most `MAX_PAYLOAD` bytes its payload is cut into. -/
def Frame.SplitsInto (frame : Frame) (pieces : List Frame) : Prop :=
  (∀ bytes, frame = .conOut bytes → ∃ chunks, pieces = chunks.map .conOut ∧
    chunks.flatten = bytes ∧ (∀ chunk ∈ chunks, chunk.length ≤ maxPayload) ∧
    (bytes.length ≤ maxPayload → chunks = [bytes])) ∧
  (∀ bytes, frame = .conIn bytes → ∃ chunks, pieces = chunks.map .conIn ∧
    chunks.flatten = bytes ∧ (∀ chunk ∈ chunks, chunk.length ≤ maxPayload) ∧
    (bytes.length ≤ maxPayload → chunks = [bytes])) ∧
  ((∀ bytes, frame ≠ .conOut bytes) → (∀ bytes, frame ≠ .conIn bytes) → pieces = [frame])

theorem splitsInto_fragments (frame : Frame) : frame.SplitsInto frame.fragments := by
  refine ⟨?_, ?_, ?_⟩
  · rintro bytes rfl
    exact ⟨consoleChunks bytes, rfl, flatten_consoleChunks bytes,
      fun chunk hchunk => length_consoleChunks_le hchunk, consoleChunks_of_le⟩
  · rintro bytes rfl
    exact ⟨consoleChunks bytes, rfl, flatten_consoleChunks bytes,
      fun chunk hchunk => length_consoleChunks_le hchunk, consoleChunks_of_le⟩
  · intro hout hin
    exact Frame.fragments_of_whole (Frame.whole_of_not_console hout hin)

/-- A stream of encodings, however it is pushed and polled, comes back as the
frames it was made of, without noise. -/
theorem play_encode {frames : List Frame} {calls : List Call} (cap : Option ℕ)
    (hcalls : pushed calls = frames.flatMap encode) :
    (play calls (fresh cap)).1.frames ++ (play calls (fresh cap)).2.drain.1 =
        fragmentsOf frames ∧
      (play calls (fresh cap)).2.drain.2.buf = [] ∧
      (play calls (fresh cap)).1.noise ++ (play calls (fresh cap)).2.drain.2.noise = [] ∧
      (play calls (fresh cap)).1.dropped +
        (play calls (fresh cap)).2.drain.2.droppedNoise = 0 := by
  obtain ⟨tokens, hscan, hframes, haccounts⟩ := play_scans calls (fresh cap)
  rw [buf_fresh, List.nil_append, hcalls] at hscan
  obtain ⟨more, hperforms, hmore, hwait⟩ :=
    Decoder.drain_performs (play calls (fresh cap)).2
  -- the scan of a stream of encodings is determined, so it is the one into fragments
  have hencode := scans_encode frames []
  rw [List.append_nil] at hencode
  obtain ⟨htokens, hbuf⟩ :=
    (hscan.trans hperforms.scans).waits_unique hwait hencode rfl
  have htotal := haccounts.trans (.of_performs hperforms [])
  have hnoise : noiseOf tokens ++ noiseOf more = [] := by
    rw [← noiseOf_append, htokens, noiseOf_frames]
  rw [hnoise] at htotal
  refine ⟨?_, hbuf, ?_, ?_⟩
  · rw [← hframes, ← hmore, ← framesOf_append, htokens, framesOf_frames]
  · have hsub := htotal.sublist
    simpa [Transcript.append] using hsub
  · cases cap with
    | none =>
        have hplain := htotal.plain rfl
        simpa [Transcript.append] using hplain.2
    | some cap =>
        have hcount := htotal.count rfl
        simp only [Transcript.append, List.length_append, List.length_nil, noise_fresh,
          droppedNoise_fresh] at hcount
        omega

/-- **Wire format round trip.**  The encodings of any frames, pushed into a new
decoder in any pieces with `next_frame` and `take_noise` called at any points
and `next_frame` to exhaustion at the end, come back as those frames in order,
and no byte is noise. -/
theorem encode_round_trip (cap : Option ℕ) (frames : List Frame) (calls : List Call)
    (hcalls : pushed calls = frames.flatMap encode) :
    let run := play calls (fresh cap)
    let tail := run.2.drain
    (∃ pieces : List (List Frame), List.Forall₂ Frame.SplitsInto frames pieces ∧
      run.1.frames ++ tail.1 = pieces.flatten) ∧
    run.1.noise ++ tail.2.takeNoise.1.1 = [] ∧
    run.1.dropped + tail.2.takeNoise.1.2 = 0 ∧
    tail.2.buf = [] := by
  intro run tail
  obtain ⟨hframes, hbuf, hnoise, hdropped⟩ := play_encode cap hcalls
  refine ⟨⟨frames.map Frame.fragments, ?_, ?_⟩, hnoise, hdropped, hbuf⟩
  · rw [List.forall₂_map_right_iff]
    exact List.forall₂_same.mpr fun frame _ => splitsInto_fragments frame
  · rw [hframes, fragmentsOf, List.flatMap_def]

theorem encode_round_trip_polled_early :
    let run := play [.push (encode (.conIn [0xC1, 0xB0])), .nextFrame, .nextFrame,
      .push (encode (.readReq 7))] (fresh none)
    let tail := run.2.drain
    (∃ pieces : List (List Frame),
      List.Forall₂ Frame.SplitsInto [.conIn [0xC1, 0xB0], .readReq 7] pieces ∧
      run.1.frames ++ tail.1 = pieces.flatten) ∧
    run.1.noise ++ tail.2.takeNoise.1.1 = [] ∧
    run.1.dropped + tail.2.takeNoise.1.2 = 0 ∧
    tail.2.buf = [] :=
  encode_round_trip none [.conIn [0xC1, 0xB0], .readReq 7] _ (by simp [pushed])

/-! ## Arbitrary streams -/

/-- Every push is followed by calls of `next_frame` down to a `None` before the
next push and before the end; `owing` says that such a `None` is still due. -/
def Drained : Bool → List Call → Decoder → Prop
  | owing, [], _ => owing = false
  | owing, .push bytes :: calls, d => owing = false ∧ Drained true calls (d.push bytes)
  | owing, .nextFrame :: calls, d =>
      Drained (owing && d.nextFrame.1.isSome) calls d.nextFrame.2
  | owing, .takeNoise :: calls, d => Drained owing calls d.takeNoise.2

/-- Checks a caller by running it. -/
instance decidableDrained : (owing : Bool) → (calls : List Call) → (d : Decoder) →
    Decidable (Drained owing calls d)
  | owing, [], _ => inferInstanceAs (Decidable (owing = false))
  | _, .push bytes :: calls, d =>
      have := decidableDrained true calls (d.push bytes)
      inferInstanceAs (Decidable (_ ∧ _))
  | owing, .nextFrame :: calls, d =>
      decidableDrained (owing && d.nextFrame.1.isSome) calls d.nextFrame.2
  | owing, .takeNoise :: calls, d => decidableDrained owing calls d.takeNoise.2

theorem buf_nextFrame_of_waits {d : Decoder} (hwait : wire.look d.buf = none) :
    d.nextFrame.2.buf = d.buf := by
  obtain ⟨tokens, hperforms, -, -⟩ := Decoder.nextFrame_performs d
  exact (hperforms.scans.eq_of_waits hwait).2

/-- A drained caller leaves the scanner waiting. -/
theorem waits_of_drained {owing : Bool} {calls : List Call} {d : Decoder}
    (hdrained : Drained owing calls d) (hwait : owing = false → wire.look d.buf = none) :
    wire.look (play calls d).2.buf = none := by
  induction calls generalizing owing d with
  | nil => exact hwait hdrained
  | cons call calls ih =>
      cases call with
      | push bytes => exact ih hdrained.2 (by simp)
      | nextFrame =>
          apply ih hdrained
          intro howing
          cases hframe : d.nextFrame.1 with
          | none => exact Decoder.waits_of_nextFrame_none hframe
          | some frame =>
              rw [hframe, Option.isSome_some, Bool.and_true] at howing
              rw [buf_nextFrame_of_waits (hwait howing)]
              exact hwait howing
      | takeNoise => exact ih hdrained hwait

/-- Nothing was dropped at the cap over a sequence of calls. -/
def KeepsAll (calls : List Call) (d : Decoder) : Prop :=
  (play calls d).1.dropped + (play calls d).2.droppedNoise = 0

instance (calls : List Call) (d : Decoder) : Decidable (KeepsAll calls d) :=
  inferInstanceAs (Decidable (_ = 0))

/-- What a drained caller sees is the run of the scanner on the stream. -/
theorem play_eq_run {cap : Option ℕ} {calls : List Call}
    (hdrained : Drained false calls (fresh cap)) (hkept : KeepsAll calls (fresh cap)) :
    (play calls (fresh cap)).1.frames = framesOf (run wire (pushed calls)).1 ∧
      (play calls (fresh cap)).2.buf = (run wire (pushed calls)).2 ∧
      (play calls (fresh cap)).1.noise ++ (play calls (fresh cap)).2.noise =
        if cap.isSome then noiseOf (run wire (pushed calls)).1 else [] := by
  obtain ⟨tokens, hscan, hframes, haccounts⟩ := play_scans calls (fresh cap)
  have hwait := waits_of_drained hdrained (fun _ => by rw [buf_fresh]; rfl)
  rw [buf_fresh, List.nil_append] at hscan
  have hrun := run_eq_of_scans hscan hwait
  rw [hrun]
  refine ⟨hframes.symm, rfl, ?_⟩
  cases cap with
  | none => simpa using (haccounts.plain rfl).1
  | some cap => simpa using haccounts.kept rfl (by simpa [KeepsAll] using hkept)

/-- **Chunking independence and byte conservation.**  Two drained callers that
push the same bytes in different pieces, without ever reaching the noise cap,
are handed the same frames and the same noise and leave the same bytes buffered.
And whatever is pushed and called, the stream is cut exactly once into returned
frames, unknown frames with a good checksum, noise and the bytes left over; a
capturing decoder has kept or counted every noise byte. -/
theorem chunking_independent (cap : Option ℕ) :
    (∀ first second : List Call, pushed first = pushed second →
      Drained false first (fresh cap) → Drained false second (fresh cap) →
      KeepsAll first (fresh cap) → KeepsAll second (fresh cap) →
      (play first (fresh cap)).1.frames = (play second (fresh cap)).1.frames ∧
      (play first (fresh cap)).1.noise ++ (play first (fresh cap)).2.noise =
        (play second (fresh cap)).1.noise ++ (play second (fresh cap)).2.noise ∧
      (play first (fresh cap)).2.buf = (play second (fresh cap)).2.buf) ∧
    (∀ calls : List Call, ∃ tokens : List Token, (∀ token ∈ tokens, token.Valid) ∧
      tokens.flatMap Token.bytes ++ (play calls (fresh cap)).2.buf = pushed calls ∧
      framesOf tokens = (play calls (fresh cap)).1.frames ∧
      List.Sublist ((play calls (fresh cap)).1.noise ++ (play calls (fresh cap)).2.noise)
        (noiseOf tokens) ∧
      (cap.isSome →
        (play calls (fresh cap)).1.noise.length + (play calls (fresh cap)).2.noise.length +
          ((play calls (fresh cap)).1.dropped + (play calls (fresh cap)).2.droppedNoise) =
        (noiseOf tokens).length)) := by
  constructor
  · intro first second hstream hfirst hsecond hkeptFirst hkeptSecond
    obtain ⟨hframes, hbuf, hnoise⟩ := play_eq_run hfirst hkeptFirst
    obtain ⟨hframes', hbuf', hnoise'⟩ := play_eq_run hsecond hkeptSecond
    rw [hframes, hframes', hbuf, hbuf', hnoise, hnoise', hstream]
    exact ⟨rfl, rfl, rfl⟩
  · intro calls
    obtain ⟨tokens, hscan, hframes, haccounts⟩ := play_scans calls (fresh cap)
    rw [buf_fresh, List.nil_append] at hscan
    refine ⟨tokens, scans_valid hscan, hscan.conserves Token.bytes wire_bytes, hframes,
      ?_, ?_⟩
    · simpa using haccounts.sublist
    · intro hcap
      cases cap with
      | none => cases hcap
      | some cap => simpa using haccounts.count rfl

/-- A stray byte and a request, whole and cut inside the request's SYNC. -/
theorem chunking_independent_split_sync :
    let stream := 0x58 :: encode (.readReq 7)
    let whole := [Call.push stream, .nextFrame, .nextFrame]
    let split := [Call.push (stream.take 2), .nextFrame, .takeNoise, .push (stream.drop 2),
      .nextFrame, .nextFrame]
    (play whole (fresh (some 1))).1.frames = (play split (fresh (some 1))).1.frames :=
  ((chunking_independent (some 1)).1 _ _ (by decide +kernel) (by decide +kernel)
    (by decide +kernel) (by decide +kernel) (by decide +kernel)).1

end Baonix.Proto

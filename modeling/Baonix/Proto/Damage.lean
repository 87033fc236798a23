import Baonix.Proto.Chunking

/-!
# One damaged byte

After a damaged frame the decoder hunts for SYNC inside the damaged bytes.  The
frames around it are returned on time exactly when that hunt does not run over
the first byte of the next frame: a SYNC pair among the damaged bytes followed
by a plausible length can make the decoder wait for, or swallow, bytes that
belong to the next frame.
-/

namespace Baonix.Proto

open Baonix.LittleEndian Baonix.Scanning

/-- Once the bytes of `stream` have been pushed, in whatever pieces and with
whatever calls in between, finitely many calls of `next_frame` return `frame`,
and the call that does has nothing left in its buffer: the bytes it consumed
last are the last bytes of `stream`. -/
def ReturnsAtEnd (stream : List Byte) (frame : Frame) : Prop :=
  ∀ (cap : Option ℕ) (calls : List Call), pushed calls = stream →
    ∃ (polls : ℕ) (before after : List Call),
      calls ++ List.replicate polls .nextFrame = before ++ .nextFrame :: after ∧
      pushed before = stream ∧
      (play before (fresh cap)).2.nextFrame.1 = some frame ∧
      (play before (fresh cap)).2.nextFrame.2.buf = []

/-- The scanner arrives, on `stream`, at the first byte of `suffix`. -/
def Arrives (stream suffix : List Byte) : Prop :=
  ∃ tokens, Scans wire stream tokens suffix

/-! ## Returned frames and arrival -/

theorem scans_encode_single {frame : Frame} (hframe : frame.Whole) :
    Scans wire (encode frame) [.frame (encode frame) frame] [] := by
  have hlook := look_encode hframe []
  rw [List.append_nil] at hlook
  have hscan := Scans.single hlook
  rwa [List.drop_length] at hscan

/-- A scan that ends in the encoding of a frame goes on to the end of the
stream and no further. -/
theorem run_of_arrives {stream : List Byte} {tokens : List Token} {frame : Frame}
    (hframe : frame.Whole) (hscan : Scans wire stream tokens (encode frame)) :
    run wire stream = (tokens ++ [.frame (encode frame) frame], []) :=
  run_eq_of_scans (hscan.trans (scans_encode_single hframe)) rfl

theorem play_append (first second : List Call) (d : Decoder) :
    play (first ++ second) d =
      ((play first d).1.append (play second (play first d).2).1,
        (play second (play first d).2).2) := by
  induction first generalizing d with
  | nil => simp [play, Transcript.append]
  | cons call first ih =>
      simp [play, ih, Transcript.append, List.append_assoc, Nat.add_assoc]

/-- The call that returns the frame with nothing left has consumed the frame's
own bytes. -/
theorem arrives_of_returns {stream : List Byte} {frame : Frame}
    (hreturns : ReturnsAtEnd stream frame) : Arrives stream (encode frame) := by
  obtain ⟨polls, before, after, -, hpushed, hframe, hbuf⟩ :=
    hreturns none [.push stream] (by simp [pushed])
  obtain ⟨tokens, hscan, -, -⟩ := play_scans before (fresh none)
  rw [buf_fresh, List.nil_append, hpushed] at hscan
  obtain ⟨more, hperforms, -, hends⟩ :=
    Decoder.nextFrame_performs (play before (fresh none)).2
  rw [hframe] at hends
  obtain ⟨quiet, bytes, rfl⟩ := hends
  have htotal := hscan.trans hperforms.scans
  rw [hbuf, ← List.append_assoc] at htotal
  obtain ⟨middle, hquiet, hlast⟩ := htotal.of_append
  have hvalid := scans_valid hlast _ (List.mem_singleton_self _)
  have hbytes := hlast.conserves Token.bytes wire_bytes
  simp only [List.flatMap_cons, List.flatMap_nil, List.append_nil, Token.bytes] at hbytes
  refine ⟨tokens ++ quiet, ?_⟩
  rwa [← hvalid.2, hbytes]

/-- One call of `next_frame` towards an arrival: it either stops on the way, or
is the call that returns the frame. -/
theorem nextFrame_towards {d : Decoder} {later : List Byte} {tokens : List Token}
    {frame : Frame} (hframe : frame.Whole)
    (hscan : Scans wire (d.buf ++ later) tokens (encode frame)) :
    (∃ rest, Scans wire (d.nextFrame.2.buf ++ later) rest (encode frame)) ∨
      (later = [] ∧ d.nextFrame.1 = some frame ∧ d.nextFrame.2.buf = []) := by
  obtain ⟨taken, hperforms, hframes, hends⟩ := Decoder.nextFrame_performs d
  rcases hscan.comparable (hperforms.scans.append later) with
    ⟨past, hpast, rfl⟩ | ⟨rest, hrest, -⟩
  · -- the call took everything up to the frame, and perhaps the frame
    rcases hpast.eq_or_looks with ⟨-, hbuf⟩ | ⟨count, token, tail, hlook, rfl, htail⟩
    · exact .inl ⟨[], by rw [hbuf]; exact .refl _⟩
    · right
      have hencode := look_encode hframe []
      rw [List.append_nil, hlook, Option.some.injEq, Prod.mk.injEq] at hencode
      obtain ⟨rfl, rfl⟩ := hencode
      rw [List.drop_length] at htail
      obtain ⟨rfl, hnil⟩ := htail.eq_of_waits rfl
      obtain ⟨hbuf, hlater⟩ := List.append_eq_nil_iff.mp hnil
      refine ⟨hlater, ?_, hbuf⟩
      cases hresult : d.nextFrame.1 with
      | none =>
          rw [hresult] at hframes
          simp [framesOf, Token.frame?] at hframes
      | some other =>
          rw [hresult] at hends
          obtain ⟨quiet, bytes, hquiet⟩ := hends
          have hlast := congrArg List.getLast? hquiet
          simp only [List.getLast?_append, List.getLast?_singleton, Option.some_or,
            Option.some.injEq, Token.frame.injEq] at hlast
          rw [hlast.2]
  · exact .inl ⟨rest, hrest⟩

/-- The same over a sequence of calls that pushes the rest of the stream. -/
theorem play_towards {frame : Frame} (hframe : frame.Whole) (calls : List Call)
    {d : Decoder} {tokens : List Token}
    (hscan : Scans wire (d.buf ++ pushed calls) tokens (encode frame)) :
    (∃ rest, Scans wire (play calls d).2.buf rest (encode frame)) ∨
      ∃ before after, calls = before ++ .nextFrame :: after ∧
        pushed before = pushed calls ∧
        (play before d).2.nextFrame.1 = some frame ∧
        (play before d).2.nextFrame.2.buf = [] := by
  induction calls generalizing d tokens with
  | nil => exact .inl ⟨tokens, by simpa [pushed, play] using hscan⟩
  | cons call calls ih =>
      -- a call made before the one sought stays in front of it
      have hlift (hlater : (∃ rest, Scans wire (play calls (call.perform d).2).2.buf rest
          (encode frame)) ∨ ∃ before after, calls = before ++ .nextFrame :: after ∧
            pushed before = pushed calls ∧
            (play before (call.perform d).2).2.nextFrame.1 = some frame ∧
            (play before (call.perform d).2).2.nextFrame.2.buf = []) :
          (∃ rest, Scans wire (play (call :: calls) d).2.buf rest (encode frame)) ∨
            ∃ before after, call :: calls = before ++ .nextFrame :: after ∧
              pushed before = pushed (call :: calls) ∧
              (play before d).2.nextFrame.1 = some frame ∧
              (play before d).2.nextFrame.2.buf = [] := by
        rcases hlater with hrest | ⟨before, after, rfl, hpushed, hresult, hbuf⟩
        · exact .inl hrest
        · refine .inr ⟨call :: before, after, rfl, ?_, hresult, hbuf⟩
          rw [pushed_cons, pushed_cons call (before ++ _), hpushed]
      cases call with
      | push bytes =>
          apply hlift
          apply @ih _ tokens
          simpa [pushed, Call.perform, Decoder.push] using hscan
      | takeNoise =>
          apply hlift
          apply @ih _ tokens
          simpa [pushed, Call.perform, Decoder.takeNoise] using hscan
      | nextFrame =>
          have hscan' : Scans wire (d.buf ++ pushed calls) tokens (encode frame) := by
            simpa [pushed] using hscan
          rcases nextFrame_towards hframe hscan' with ⟨rest, hrest⟩ | ⟨hnil, hresult, hbuf⟩
          · exact hlift (ih hrest)
          · refine .inr ⟨[], calls, rfl, ?_, hresult, hbuf⟩
            simp [pushed, hnil]

theorem pushed_polls (calls : List Call) (polls : ℕ) :
    pushed (calls ++ List.replicate polls .nextFrame) = pushed calls := by
  induction calls with
  | nil =>
      induction polls with
      | zero => rfl
      | succ polls ih => exact ih
  | cons call calls ih =>
      rw [List.cons_append, pushed_cons, ih, ← pushed_cons]

/-- Polling returns the frame the scan leads to. -/
theorem polls_towards {frame : Frame} (hframe : frame.Whole) {d : Decoder}
    {tokens : List Token} (hscan : Scans wire d.buf tokens (encode frame)) :
    ∃ polls, (play (List.replicate polls .nextFrame) d).2.nextFrame.1 = some frame ∧
      (play (List.replicate polls .nextFrame) d).2.nextFrame.2.buf = [] := by
  induction hlength : d.buf.length using Nat.strong_induction_on generalizing d tokens with
  | _ length ih =>
      have hstart : Scans wire (d.buf ++ []) tokens (encode frame) := by
        rwa [List.append_nil]
      rcases nextFrame_towards hframe hstart with ⟨rest, hrest⟩ | ⟨-, hresult, hbuf⟩
      · rw [List.append_nil] at hrest
        cases hcall : d.nextFrame.1 with
        | none =>
            -- the scanner would have to wait in front of a frame
            have hwait := Decoder.waits_of_nextFrame_none hcall
            obtain ⟨-, hencode⟩ := hrest.eq_of_waits hwait
            have hlook := look_encode hframe []
            rw [List.append_nil, hencode, hwait] at hlook
            cases hlook
        | some other =>
            have hlt := Decoder.nextFrame_some_lt hcall
            obtain ⟨polls, hresult, hbuf⟩ := ih _ (hlength ▸ hlt) hrest rfl
            exact ⟨polls + 1, hresult, hbuf⟩
      · exact ⟨0, hresult, hbuf⟩

/-- **A frame is returned at the end of a stream, whatever the chunking, exactly
when the scanner arrives at its first byte.** -/
theorem returnsAtEnd_iff {stream : List Byte} {frame : Frame} (hframe : frame.Whole) :
    ReturnsAtEnd stream frame ↔ Arrives stream (encode frame) := by
  constructor
  · exact arrives_of_returns
  · rintro ⟨tokens, hscan⟩ cap calls hcalls
    have hstart : Scans wire ((fresh cap).buf ++ pushed calls) tokens (encode frame) := by
      rwa [buf_fresh, List.nil_append, hcalls]
    rcases play_towards hframe calls hstart with ⟨rest, hrest⟩ |
      ⟨before, after, hsplit, hpushed, hresult, hbuf⟩
    · obtain ⟨polls, hresult, hbuf⟩ := polls_towards hframe hrest
      refine ⟨polls + 1, calls ++ List.replicate polls .nextFrame, [], ?_, ?_, ?_, ?_⟩
      · rw [List.replicate_succ', List.append_assoc]
      · rw [← hcalls]
        exact pushed_polls calls polls
      · rw [play_append]
        exact hresult
      · rw [play_append]
        exact hbuf
    · refine ⟨0, before, after, ?_, hpushed.trans hcalls, hresult, hbuf⟩
      simpa using hsplit

/-! ## When the hunt arrives -/

/-- The hunt through `damaged ++ next` comes to `position`. -/
def Reaches (damaged next : List Byte) (position : ℕ) : Prop :=
  ∃ tokens, Scans wire (damaged ++ next) tokens ((damaged ++ next).drop position)

/-- `buf` starts with SYNC and a plausible length, and the frame that length
announces is not there in full, or is there with a good checksum. -/
structure Announced (buf : List Byte) : Prop where
  sync : ∃ rest, buf = syncLo :: syncHi :: rest
  len_le : lenField buf ≤ maxPayload
  waits_or_matches : buf.length < header + lenField buf + trailer ∨
    crc32 (bodyField buf (lenField buf)) = wantField buf (lenField buf)

/-- The hunt meets, among the damaged bytes, a plausible frame that extends past
the last of them. -/
def Overruns (damaged next : List Byte) : Prop :=
  ∃ position < damaged.length, Reaches damaged next position ∧
    Announced ((damaged ++ next).drop position) ∧
    damaged.length <
      position + (header + lenField ((damaged ++ next).drop position) + trailer)

/-- The decision on a plausible frame is to wait for it or to remove it. -/
theorem look_announced {buf : List Byte} (hannounced : Announced buf) {count : ℕ}
    {token : Token} (hlook : look buf = some (count, token)) :
    count = header + lenField buf + trailer := by
  obtain ⟨⟨rest, hsync⟩, hlen, hcandidate⟩ := hannounced
  have hat : lookAtSync buf = some (count, token) := by
    rw [← hlook, hsync]
    exact (wire_look_sync rest).symm
  unfold lookAtSync at hat
  rw [if_neg (not_lt.mpr hlen)] at hat
  split at hat
  · cases hat
  split at hat
  · cases hat
  rename_i hlong
  rw [if_neg (not_not_intro (hcandidate.resolve_left hlong))] at hat
  dsimp only at hat
  split at hat <;> (cases hat; rfl)

/-- A plausible frame that is there in full is removed in full. -/
theorem look_of_matches {buf rest : List Byte} (hbuf : buf = syncLo :: syncHi :: rest)
    (hlen : lenField buf ≤ maxPayload)
    (hlong : ¬ buf.length < header + lenField buf + trailer)
    (hcrc : crc32 (bodyField buf (lenField buf)) = wantField buf (lenField buf)) :
    ∃ token, look buf = some (header + lenField buf + trailer, token) := by
  have hat : look buf = lookAtSync buf := by
    rw [hbuf]
    exact wire_look_sync rest
  have hheader : ¬ buf.length < header := by
    intro hshort
    apply hlong
    exact hshort.trans_le (by omega)
  rw [hat, lookAtSync, if_neg hheader, if_neg (not_lt.mpr hlen), if_neg hlong,
    if_neg (not_not_intro hcrc)]
  dsimp only
  split
  · exact ⟨_, rfl⟩
  · exact ⟨_, rfl⟩

/-- A decision that does not stay inside the first `room` bytes is taken on a
plausible frame, once there are enough bytes for a header and no SYNC straddles
the boundary. -/
theorem announced_of_look {buf : List Byte} {room : ℕ} (hroom : 0 < room)
    (hlong : header ≤ buf.length) (hinside : room ≤ buf.length)
    (hboundary : ∀ rest, buf = syncLo :: syncHi :: rest → 1 < room)
    (hlook : ∀ count token, look buf = some (count, token) → room < count) :
    Announced buf ∧ room < header + lenField buf + trailer := by
  match buf with
  | [] => exact absurd hinside (by simpa using hroom.ne')
  | [_] => exact absurd hlong (by simp [header])
  | first :: second :: rest =>
      by_cases hsync : first = syncLo ∧ second = syncHi
      · obtain ⟨rfl, rfl⟩ := hsync
        have htwo := hboundary rest rfl
        have hat : look (syncLo :: syncHi :: rest) = lookAtSync (syncLo :: syncHi :: rest) :=
          wire_look_sync rest
        have hnoise (bytes : List Byte) :
            lookAtSync (syncLo :: syncHi :: rest) ≠ some (2, .noise bytes) := by
          intro hsome
          have hlt := hlook 2 (.noise bytes) (hat.trans hsome)
          omega
        generalize hbuf : syncLo :: syncHi :: rest = buf at hlong hinside hlook hnoise ⊢
        have hlen : lenField buf ≤ maxPayload := by
          by_contra hmax
          apply hnoise (buf.take 2)
          rw [lookAtSync, if_neg (not_lt.mpr hlong), if_pos (not_le.mp hmax)]
        by_cases hshort : buf.length < header + lenField buf + trailer
        · exact ⟨⟨⟨rest, hbuf.symm⟩, hlen, .inl hshort⟩, by omega⟩
        · have hcrc : crc32 (bodyField buf (lenField buf)) =
              wantField buf (lenField buf) := by
            by_contra hmismatch
            apply hnoise (buf.take 2)
            rw [lookAtSync, if_neg (not_lt.mpr hlong), if_neg (not_lt.mpr hlen),
              if_neg hshort, if_pos hmismatch]
          obtain ⟨token, hsome⟩ := look_of_matches hbuf.symm hlen hshort hcrc
          exact ⟨⟨⟨rest, hbuf.symm⟩, hlen, .inr hcrc⟩, hlook _ _ hsome⟩
      · -- anything but SYNC is one byte of noise
        have hone : look (first :: second :: rest) = some (1, .noise [first]) := by
          simp only [look, if_neg hsync]
        have hlt := hlook _ _ hone
        omega

/-- From a position the hunt reaches, it goes on inside the damaged bytes until
it comes to the next frame. -/
theorem arrives_of_reaches {damaged next more : List Byte}
    (hnext : next = syncLo :: more) (hlong : header ≤ next.length) (hhunt : ¬ Overruns damaged next)
    {position : ℕ} (hposition : position ≤ damaged.length)
    (hreaches : Reaches damaged next position) : Arrives (damaged ++ next) next := by
  induction hroom : damaged.length - position using Nat.strong_induction_on
      generalizing position with
  | _ room ih =>
      obtain ⟨tokens, hscan⟩ := hreaches
      rcases hposition.eq_or_lt with rfl | hlt
      · rw [List.drop_left' rfl] at hscan
        exact ⟨tokens, hscan⟩
      · have hlength : ((damaged ++ next).drop position).length =
            damaged.length - position + next.length := by
          rw [List.length_drop, List.length_append]
          omega
        -- the first byte of a frame is not the second byte of SYNC
        have hboundary (rest : List Byte)
            (hsync : (damaged ++ next).drop position = syncLo :: syncHi :: rest) :
            1 < damaged.length - position := by
          by_contra hlast
          have hone : (damaged ++ next)[position + 1]? = some syncLo := by
            rw [List.getElem?_append_right (by omega), hnext]
            have : position + 1 - damaged.length = 0 := by omega
            rw [this]
            rfl
          have htwo : (damaged ++ next)[position + 1]? = some syncHi := by
            rw [← List.getElem?_drop, hsync]
            rfl
          rw [hone] at htwo
          exact absurd htwo (by decide)
        by_cases hstays : ∀ count token,
            look ((damaged ++ next).drop position) = some (count, token) →
              damaged.length - position < count
        · exfalso
          obtain ⟨hannounced, hpast⟩ := announced_of_look (by omega) (by omega) (by omega)
            hboundary hstays
          exact hhunt ⟨position, hlt, ⟨tokens, hscan⟩, hannounced, by omega⟩
        · push Not at hstays
          obtain ⟨count, token, hlook, hinside⟩ := hstays
          have hpos := (look_bounds hlook).1
          have hstep := hscan.trans (Scans.single (S := wire) hlook)
          rw [List.drop_drop] at hstep
          exact ih (damaged.length - (position + count)) (by omega) (by omega)
            ⟨_, hstep⟩ rfl

/-- **The hunt arrives at the next frame exactly when nothing among the damaged
bytes runs past them.** -/
theorem arrives_iff {damaged next more : List Byte} (hnext : next = syncLo :: more)
    (hlong : header ≤ next.length) :
    Arrives (damaged ++ next) next ↔ ¬ Overruns damaged next := by
  constructor
  · rintro ⟨tokens, hscan⟩ ⟨position, hposition, ⟨before, hreaches⟩, hannounced, hpast⟩
    have hlength : ((damaged ++ next).drop position).length =
        damaged.length - position + next.length := by
      rw [List.length_drop, List.length_append]
      omega
    rcases hreaches.comparable hscan with ⟨after, hafter, -⟩ | ⟨after, hafter, -⟩
    · rcases hafter.eq_or_looks with ⟨-, heq⟩ | ⟨count, token, tail, hlook, -, htail⟩
      · have := congrArg List.length heq
        omega
      · have hcount := look_announced hannounced hlook
        have hle := htail.length_le
        have hbound := (look_bounds hlook).2.1
        rw [List.length_drop] at hle
        omega
    · have hle := hafter.length_le
      omega
  · intro hhunt
    exact arrives_of_reaches hnext hlong hhunt (Nat.zero_le _) ⟨[], .refl _⟩

theorem arrives_encode_iff (damaged : List Byte) {next : Frame} (hnext : next.Whole) :
    Arrives (damaged ++ encode next) (encode next) ↔ ¬ Overruns damaged (encode next) := by
  have hlayout := encodeFrameBody_eq next.typeByte next.payload
  have hlong : header ≤ (encode next).length := by
    rw [encode_of_whole hnext, length_encodeFrameBody]
    omega
  rw [← encode_of_whole hnext] at hlayout
  exact arrives_iff hlayout hlong

/-- Damaged bytes that the scanner clears on their own are no obstacle. -/
theorem arrives_of_run {damaged : List Byte} (hrun : (run wire damaged).2 = [])
    (next : List Byte) : Arrives (damaged ++ next) next := by
  obtain ⟨hscan, -⟩ := scans_run wire damaged
  rw [hrun] at hscan
  exact ⟨_, hscan.append next⟩

/-! ## The other frames -/

/-- In the stream of `before`, then `damaged`, then `after`, every frame other
than the damaged one is returned once its own bytes have been pushed, and a
caller that pushed everything is returned them all in order. -/
structure Survives (before : List Frame) (damaged : List Byte) (after : List Frame) :
    Prop where
  early : ∀ front frame rest, before = front ++ frame :: rest →
    ReturnsAtEnd ((front ++ [frame]).flatMap encode) frame
  late : ∀ front frame rest, after = front ++ frame :: rest →
    ReturnsAtEnd (before.flatMap encode ++ (damaged ++ (front ++ [frame]).flatMap encode)) frame
  inOrder : ∀ (cap : Option ℕ) (calls : List Call),
    pushed calls = before.flatMap encode ++ (damaged ++ after.flatMap encode) →
    ∃ between, (play calls (fresh cap)).1.frames ++ (play calls (fresh cap)).2.drain.1 =
      before ++ between ++ after

theorem arrives_last {front : List Frame} {frame : Frame}
    (hfront : ∀ other ∈ front, other.Whole) {stream : List Byte} {tokens : List Token}
    (hscan : Scans wire stream tokens ((front ++ [frame]).flatMap encode)) :
    Arrives stream (encode frame) := by
  have hframes := scans_encode_whole hfront (encode frame)
  rw [List.flatMap_append, List.flatMap_cons, List.flatMap_nil, List.append_nil] at hscan
  exact ⟨_, hscan.trans hframes⟩

/-- What a caller that pushed a stream and polled to the end is returned. -/
theorem frames_of_run (cap : Option ℕ) {calls : List Call} {stream : List Byte}
    (hcalls : pushed calls = stream) :
    (play calls (fresh cap)).1.frames ++ (play calls (fresh cap)).2.drain.1 =
      framesOf (run wire stream).1 := by
  obtain ⟨tokens, hplay, hframes, -⟩ := play_scans calls (fresh cap)
  rw [buf_fresh, List.nil_append, hcalls] at hplay
  obtain ⟨more, hperforms, hmore, hwait⟩ :=
    Decoder.drain_performs (play calls (fresh cap)).2
  rw [run_eq_of_scans (hplay.trans hperforms.scans) hwait, framesOf_append, hframes, hmore]

/-- The frames in front of the damage are not affected by it. -/
theorem returnsAtEnd_of_whole {frames front rest : List Frame} {frame : Frame}
    (hframes : ∀ other ∈ frames, other.Whole) (hsplit : frames = front ++ frame :: rest) :
    ReturnsAtEnd ((front ++ [frame]).flatMap encode) frame := by
  have hframe : frame.Whole := hframes frame (by simp [hsplit])
  rw [returnsAtEnd_iff hframe]
  apply arrives_last _ (.refl _)
  intro other hother
  apply hframes
  simp [hsplit, hother]

/-- Once the hunt arrives at the next frame, everything behind the damage is
read as if it stood alone. -/
theorem survives_of_arrives {before after : List Frame} {next : Frame} {damaged : List Byte}
    (hbefore : ∀ frame ∈ before, frame.Whole)
    (hafter : ∀ frame ∈ next :: after, frame.Whole)
    (harrives : Arrives (damaged ++ encode next) (encode next)) :
    Survives before damaged (next :: after) := by
  obtain ⟨tokens, hhunt⟩ := harrives
  have hbehind (frames : List Frame) :
      Scans wire (damaged ++ (next :: frames).flatMap encode) tokens
        ((next :: frames).flatMap encode) := by
    have hmore := hhunt.append (frames.flatMap encode)
    rwa [List.append_assoc] at hmore
  constructor
  · intro front frame rest hsplit
    exact returnsAtEnd_of_whole hbefore hsplit
  · intro front frame rest hsplit
    have hframe : frame.Whole := hafter frame (by simp [hsplit])
    have hfront (other : Frame) (hother : other ∈ front) : other.Whole := by
      apply hafter
      simp [hsplit, hother]
    rw [returnsAtEnd_iff hframe]
    have hhead : ∃ frames, front ++ [frame] = next :: frames := by
      cases front with
      | nil => exact ⟨[], by rw [List.nil_append, (List.cons.inj hsplit).1]⟩
      | cons other front =>
          exact ⟨front ++ [frame], by rw [List.cons_append, (List.cons.inj hsplit).1]⟩
    obtain ⟨frames, hhead⟩ := hhead
    apply arrives_last hfront
    rw [hhead]
    exact (scans_encode_whole hbefore _).trans (hbehind frames)
  · intro cap calls hcalls
    have hend := scans_encode_whole hafter []
    rw [List.append_nil] at hend
    have htotal := ((scans_encode_whole hbefore _).trans (hbehind after)).trans hend
    refine ⟨framesOf tokens, ?_⟩
    rw [frames_of_run cap hcalls, run_eq_of_scans htotal rfl, framesOf_append,
      framesOf_append, framesOf_frames, framesOf_frames]

theorem survives_nil {before : List Frame} (hbefore : ∀ frame ∈ before, frame.Whole)
    (damaged : List Byte) : Survives before damaged [] := by
  constructor
  · intro front frame rest hsplit
    exact returnsAtEnd_of_whole hbefore hsplit
  · intro front frame rest hsplit
    simp at hsplit
  · intro cap calls hcalls
    have hscan := scans_encode_whole hbefore (damaged ++ [].flatMap encode)
    refine ⟨framesOf (run wire (damaged ++ [].flatMap encode)).1, ?_⟩
    rw [frames_of_run cap hcalls, run_of_scans hscan, framesOf_append, framesOf_frames,
      List.append_nil]

/-- A frame returned in time behind the damage means that the hunt arrived. -/
theorem arrives_of_survives {before after : List Frame} {next : Frame} {damaged : List Byte}
    (hbefore : ∀ frame ∈ before, frame.Whole) (hnext : next.Whole)
    (hsurvives : Survives before damaged (next :: after)) :
    Arrives (damaged ++ encode next) (encode next) := by
  have hreturns := hsurvives.late [] next after rfl
  rw [List.nil_append, List.flatMap_singleton, returnsAtEnd_iff hnext] at hreturns
  obtain ⟨tokens, hscan⟩ := hreturns
  rcases (scans_encode_whole hbefore _).comparable hscan with ⟨hunt, hhunt, -⟩ | ⟨_, hback, -⟩
  · exact ⟨hunt, hhunt⟩
  · -- nothing was damaged: the scan cannot go backwards
    have hle := hback.length_le
    have hnil : damaged = [] := by
      apply List.eq_nil_of_length_eq_zero
      rw [List.length_append] at hle
      omega
    rw [hnil]
    exact ⟨[], .refl _⟩

/-- **One damaged byte costs at most one frame, as long as the hunt through the
damaged frame stays inside it.**  With any one byte of any one frame changed,
the other frames are returned as soon as they have been pushed exactly when no
SYNC that the hunt meets among the damaged bytes announces a frame that runs
past them and is incomplete, or has a good checksum, when the next frame has
arrived. -/
theorem damage_survived_iff (before after : List Frame)
    (hbefore : ∀ other ∈ before, other.Whole) (hafter : ∀ other ∈ after, other.Whole)
    (frame : Frame) (index : ℕ) (byte : Byte) :
    Survives before ((encode frame).set index byte) after ↔
      ∀ next ∈ after.head?, ¬ Overruns ((encode frame).set index byte) (encode next) := by
  cases after with
  | nil => simpa using survives_nil hbefore _
  | cons next after =>
      have hnext : next.Whole := hafter next (List.mem_cons_self ..)
      simp only [List.head?_cons, Option.mem_some_iff, forall_eq', ← arrives_encode_iff _ hnext]
      constructor
      · exact arrives_of_survives hbefore hnext
      · exact survives_of_arrives hbefore hafter

/-- A request with a broken checksum between two good ones. -/
theorem damage_survived_broken_checksum :
    Survives [.readReq 3] ((encode (.readReq 1)).set 8 0xFF) [.readReq 2] := by
  have hrequest (page : BitVec 32) : ∀ frame ∈ [Frame.readReq page], frame.Whole := by
    simp [Frame.Whole, Frame.payload, maxPayload, pageSize]
  rw [damage_survived_iff _ _ (hrequest 3) (hrequest 2)]
  simp only [List.head?_cons, Option.mem_some_iff, forall_eq']
  rw [← arrives_encode_iff _ (hrequest 2 _ (List.mem_singleton_self _))]
  exact arrives_of_run (by decide +kernel) _

/-- With LEN damaged the decoder waits for 2052 bytes that nobody is sending,
and does not return the request behind it. -/
theorem damage_not_survived_broken_length :
    ¬ Survives [] ((encode (.readReq 1)).set 4 0x08) [.readReq 2] := by
  intro hsurvives
  have hnext : (Frame.readReq 2).Whole := by
    simp [Frame.Whole, Frame.payload, maxPayload, pageSize]
  have harrives := arrives_of_survives (by simp) hnext hsurvives
  rw [arrives_encode_iff _ hnext] at harrives
  apply harrives
  refine ⟨0, by decide +kernel, ⟨[], .refl _⟩, ⟨?_, by decide +kernel, .inl ?_⟩, ?_⟩
  · exact ⟨((encode (.readReq 1)).set 4 0x08 ++ encode (.readReq 2)).drop 2, rfl⟩
  · decide +kernel
  · decide +kernel

end Baonix.Proto

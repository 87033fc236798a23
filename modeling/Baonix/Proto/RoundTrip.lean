import Baonix.Proto.DecoderRuns

/-!
# Encodings and tokens

The scanner recognises exactly the encodings: the encoding of a whole frame at
the front of a buffer is one token whatever follows it, and a frame token
consumed exactly the encoding of its frame.
-/

namespace Baonix.Proto

open Baonix.LittleEndian Baonix.Scanning

/-! ## Encodings are recognised -/

theorem length_encodeFrameBody (typeByte : Byte) (payload : List Byte) :
    (encodeFrameBody typeByte payload).length = header + payload.length + trailer := by
  simp only [encodeFrameBody, List.length_append, List.length_cons, List.length_nil,
    length_toBytes, header, trailer]
  omega

/-- Laid out byte by byte, so that the decoder's field offsets compute. -/
theorem encodeFrameBody_eq (typeByte : Byte) (payload : List Byte) :
    encodeFrameBody typeByte payload =
      syncLo :: syncHi :: typeByte :: BitVec.ofNat 8 payload.length ::
        BitVec.ofNat 8 (payload.length / 256) ::
          (payload ++ toBytes 4 (crc32 (typeByte :: (toBytes 2 payload.length ++ payload))).toNat) := by
  simp [encodeFrameBody, toBytes]

theorem lookAtSync_encodeFrameBody (typeByte : Byte) {payload : List Byte}
    (hpayload : payload.length ≤ maxPayload) (rest : List Byte) :
    lookAtSync (encodeFrameBody typeByte payload ++ rest) =
      match decodeBody typeByte payload with
      | some frame => some ((encodeFrameBody typeByte payload).length,
          .frame (encodeFrameBody typeByte payload) frame)
      | none => some ((encodeFrameBody typeByte payload).length,
          .foreign (encodeFrameBody typeByte payload)) := by
  have hlength := length_encodeFrameBody typeByte payload
  have hmax : payload.length < 256 ^ 2 := by
    simp only [maxPayload, pageSize] at hpayload
    omega
  have hlen : lenField (encodeFrameBody typeByte payload ++ rest) = payload.length := by
    rw [encodeFrameBody_eq]
    exact ofBytes_toBytes 2 payload.length hmax
  have hbody : bodyField (encodeFrameBody typeByte payload ++ rest) payload.length =
      typeByte :: (toBytes 2 payload.length ++ payload) := by
    rw [encodeFrameBody_eq, bodyField]
    have : header + payload.length - 2 = payload.length + 1 + 1 + 1 := by
      simp only [header]
      omega
    simp [this, toBytes]
  have hwant : wantField (encodeFrameBody typeByte payload ++ rest) payload.length =
      crc32 (typeByte :: (toBytes 2 payload.length ++ payload)) := by
    rw [encodeFrameBody_eq, wantField]
    have : header + payload.length = payload.length + 1 + 1 + 1 + 1 + 1 := by
      simp only [header]
      omega
    rw [this]
    simp only [List.cons_append, List.append_assoc, List.drop_succ_cons]
    rw [List.drop_left' rfl, List.take_left' (by simp)]
    exact ofNat_ofBytes_toBytes 4 _ (by norm_num)
  have hslice : payloadSlice (encodeFrameBody typeByte payload ++ rest) payload.length =
      payload := by
    rw [encodeFrameBody_eq, payloadSlice]
    simp [header]
  have htype : (encodeFrameBody typeByte payload ++ rest).getD 2 0 = typeByte := by
    rw [encodeFrameBody_eq]
    rfl
  have htotal : (encodeFrameBody typeByte payload ++ rest).take
      (header + payload.length + trailer) = encodeFrameBody typeByte payload :=
    List.take_left' hlength
  have hheader : ¬ (encodeFrameBody typeByte payload ++ rest).length < header := by
    simp only [List.length_append, hlength]
    omega
  have hshort : ¬ (encodeFrameBody typeByte payload ++ rest).length <
      header + payload.length + trailer := by
    simp only [List.length_append, hlength]
    omega
  rw [lookAtSync, if_neg hheader, hlen, if_neg (by omega), if_neg hshort, hbody, hwant,
    hslice, htype]
  cases decodeBody typeByte payload with
  | none => simp only [htotal, hlength, ne_eq, not_true_eq_false, if_false]
  | some frame => simp only [htotal, hlength, ne_eq, not_true_eq_false, if_false]

/-- **The encoding of a whole frame is one token**, whatever follows it. -/
theorem look_encode {frame : Frame} (hframe : frame.Whole) (rest : List Byte) :
    wire.look (encode frame ++ rest) =
      some ((encode frame).length, .frame (encode frame) frame) := by
  rw [encode_of_whole hframe]
  have hsync := wire_look_sync
    (encodeFrameBody frame.typeByte frame.payload ++ rest |>.drop 2)
  rw [encodeFrameBody_eq] at hsync ⊢
  simp only [List.cons_append, List.drop_succ_cons, List.drop_zero] at hsync
  simp only [List.cons_append]
  rw [hsync]
  have hlook := lookAtSync_encodeFrameBody frame.typeByte hframe rest
  rw [decodeBody_payload, encodeFrameBody_eq] at hlook
  exact hlook

/-- A stream of whole frames scans into those frames and nothing else. -/
theorem scans_encode_whole {frames : List Frame} (hframes : ∀ frame ∈ frames, frame.Whole)
    (rest : List Byte) :
    Scans wire (frames.flatMap encode ++ rest)
      (frames.map fun frame => .frame (encode frame) frame) rest := by
  induction frames with
  | nil => exact .refl rest
  | cons frame frames ih =>
      have hhead := hframes frame (List.mem_cons_self ..)
      have htail := ih fun other hother => hframes other (List.mem_cons_of_mem _ hother)
      simp only [List.flatMap_cons, List.append_assoc, List.map_cons]
      apply Scans.head (look_encode hhead _)
      rwa [List.drop_left' rfl]

theorem framesOf_frames (frames : List Frame) (bytes : Frame → List Byte) :
    framesOf (frames.map fun frame => .frame (bytes frame) frame) = frames := by
  induction frames with
  | nil => rfl
  | cons frame frames ih => simpa [framesOf, Token.frame?] using ih

theorem noiseOf_frames (frames : List Frame) (bytes : Frame → List Byte) :
    noiseOf (frames.map fun frame => .frame (bytes frame) frame) = [] := by
  induction frames with
  | nil => rfl
  | cons frame frames ih => simp [noiseOf, Token.noiseBytes]

/-- The fragments a list of frames is sent as. -/
def fragmentsOf (frames : List Frame) : List Frame := frames.flatMap Frame.fragments

theorem whole_of_mem_fragmentsOf (frames : List Frame) :
    ∀ frame ∈ fragmentsOf frames, frame.Whole := by
  intro frame hframe
  obtain ⟨source, -, hsource⟩ := List.mem_flatMap.mp hframe
  exact Frame.whole_of_mem_fragments hsource

theorem flatMap_encode_fragmentsOf (frames : List Frame) :
    (fragmentsOf frames).flatMap encode = frames.flatMap encode := by
  rw [fragmentsOf, List.flatMap_assoc]
  exact List.flatMap_congr fun frame _ => (encode_eq_flatMap_fragments frame).symm

/-- A stream of encodings scans into the fragments, in order. -/
theorem scans_encode (frames : List Frame) (rest : List Byte) :
    Scans wire (frames.flatMap encode ++ rest)
      ((fragmentsOf frames).map fun frame => .frame (encode frame) frame) rest := by
  have hscan := scans_encode_whole (whole_of_mem_fragmentsOf frames) rest
  rwa [flatMap_encode_fragmentsOf] at hscan

theorem encode_ne_nil {frame : Frame} (hframe : frame.Whole) : encode frame ≠ [] := by
  rw [encode_of_whole hframe, encodeFrameBody_eq]
  exact List.cons_ne_nil _ _

/-! ## Tokens are encodings -/

theorem bytes_dataField {payload : List Byte} (hpayload : payload.length = 4 + pageSize) :
    (dataField payload).bytes = payload.drop 4 := by
  apply List.ext_getElem
  · rw [Page.length_bytes, List.length_drop, hpayload]
    omega
  · intro index hleft hright
    rw [List.length_drop] at hright
    rw [Page.getElem_bytes, dataField, List.getElem_drop,
      List.getD_eq_getElem _ _ (by simp only; omega)]

/-- `decode_body` accepts exactly the payloads `encode` writes. -/
theorem decodeBody_eq_some {typeByte : Byte} {payload : List Byte} {frame : Frame}
    (hdecode : decodeBody typeByte payload = some frame) :
    typeByte = frame.typeByte ∧ payload = frame.payload := by
  have hpage (offset : ℕ) (hoffset : payload.length = offset + 4) :
      toBytes 4 (pageField offset payload).toNat = payload.drop offset := by
    have hlen : (payload.drop offset).length = 4 := by simp [hoffset]
    rw [pageField, List.take_of_length_le hlen.le]
    exact toBytes_ofNat_ofBytes hlen (by norm_num)
  have hpageData (hlength : payload.length = 4 + pageSize) :
      toBytes 4 (pageField 0 payload).toNat ++ (dataField payload).bytes = payload := by
    have hlen : (payload.take 4).length = 4 := by simp [hlength]
    rw [pageField, List.drop_zero, toBytes_ofNat_ofBytes hlen (by norm_num),
      bytes_dataField hlength, List.take_append_drop]
  unfold decodeBody at hdecode
  split at hdecode
  · split at hdecode <;> cases hdecode
    rename_i hlength
    exact ⟨rfl, (hpage 0 (by simpa using hlength)).symm⟩
  · split at hdecode <;> cases hdecode
    rename_i hlength
    exact ⟨rfl, (hpageData hlength).symm⟩
  · split at hdecode <;> cases hdecode
    rename_i hlength
    exact ⟨rfl, (hpageData hlength).symm⟩
  · split at hdecode <;> cases hdecode
    rename_i hlength
    exact ⟨rfl, (hpage 0 (by simpa using hlength)).symm⟩
  · cases hdecode
    exact ⟨rfl, rfl⟩
  · cases hdecode
    exact ⟨rfl, rfl⟩
  · split at hdecode <;> cases hdecode
    rename_i hlength
    refine ⟨rfl, ?_⟩
    have hcode : toBytes 2 (BitVec.ofNat 16 (ofBytes (payload.take 2))).toNat =
        payload.take 2 :=
      toBytes_ofNat_ofBytes (by simp [hlength]) (by norm_num)
    simp only [Frame.payload, hcode, hpage 2 (by simpa using hlength),
      List.take_append_drop]
  · cases hdecode

/-- A buffer long enough for the candidate at its front splits into the
candidate's fields. -/
theorem take_candidate {typeByte low high : Byte} {more buf : List Byte}
    (hbuf : buf = syncLo :: syncHi :: typeByte :: low :: high :: more)
    (htotal : header + lenField buf + trailer ≤ buf.length) :
    buf.take (header + lenField buf + trailer) =
      [syncLo, syncHi] ++ (buf.getD 2 0 :: (toBytes 2 (lenField buf) ++
        payloadSlice buf (lenField buf))) ++ toBytes 4 (wantField buf (lenField buf)).toNat ∧
    bodyField buf (lenField buf) =
      buf.getD 2 0 :: (toBytes 2 (lenField buf) ++ payloadSlice buf (lenField buf)) ∧
    (payloadSlice buf (lenField buf)).length = lenField buf := by
  have hlenBytes : toBytes 2 (lenField buf) = [low, high] := by
    rw [hbuf]
    exact toBytes_ofBytes [low, high]
  have htype : buf.getD 2 0 = typeByte := by
    rw [hbuf]
    rfl
  have hmore : lenField buf + 4 ≤ more.length := by
    have hlength := congrArg List.length hbuf
    simp only [List.length_cons] at hlength
    simp only [header, trailer] at htotal
    omega
  generalize lenField buf = len at hlenBytes hmore ⊢
  have hdrop : buf.drop (header + len) = more.drop len := by
    have : header + len = len + 1 + 1 + 1 + 1 + 1 := by
      simp only [header]
      omega
    simp only [hbuf, this, List.drop_succ_cons]
  have hwant : toBytes 4 (wantField buf len).toNat = (more.drop len).take 4 := by
    rw [wantField, hdrop]
    exact toBytes_ofNat_ofBytes (by simp [trailer]; omega) (by norm_num)
  have hslice : payloadSlice buf len = more.take len := by
    simp only [payloadSlice, hbuf, header, List.drop_succ_cons, List.drop_zero]
  refine ⟨?_, ?_, ?_⟩
  · have htake : header + len + trailer = len + 4 + 1 + 1 + 1 + 1 + 1 := by
      simp only [header, trailer]
      omega
    rw [hlenBytes, hwant, hslice, htype, htake, hbuf]
    simp only [List.take_succ_cons, List.take_add]
    rfl
  · have htake : header + len - 2 = len + 1 + 1 + 1 := by
      simp only [header]
      omega
    rw [hlenBytes, hslice, htype, bodyField, htake, hbuf]
    rfl
  · rw [hslice, List.length_take]
    omega

theorem exists_fields {rest : List Byte}
    (hheader : header ≤ (syncLo :: syncHi :: rest).length) :
    ∃ typeByte low high more, rest = typeByte :: low :: high :: more := by
  match rest with
  | typeByte :: low :: high :: more => exact ⟨typeByte, low, high, more, rfl⟩
  | [] => simp [header] at hheader
  | [_] => simp [header] at hheader
  | [_, _] => simp [header] at hheader

/-- What a token that is not noise stands for: the encoding of a frame, or of a
body this build does not know. -/
def Token.Valid : Token → Prop
  | .noise _ => True
  | .foreign bytes => ∃ typeByte payload, payload.length ≤ maxPayload ∧
      decodeBody typeByte payload = none ∧ bytes = encodeFrameBody typeByte payload
  | .frame bytes decoded => decoded.Whole ∧ bytes = encode decoded

theorem lookAtSync_valid {buf rest : List Byte} {count : ℕ} {token : Token}
    (hbuf : buf = syncLo :: syncHi :: rest)
    (hlook : lookAtSync buf = some (count, token)) : token.Valid := by
  unfold lookAtSync at hlook
  split at hlook
  · cases hlook
  rename_i hheader
  split at hlook
  · cases hlook
    trivial
  rename_i hmax
  split at hlook
  · cases hlook
  rename_i htotal
  split at hlook
  · cases hlook
    trivial
  rename_i hcrc
  rw [not_ne_iff] at hcrc
  obtain ⟨typeByte, low, high, more, rfl⟩ := exists_fields (hbuf ▸ not_lt.mp hheader)
  obtain ⟨htake, hbody, hlength⟩ := take_candidate hbuf (not_lt.mp htotal)
  -- the bytes consumed are the encoding of the candidate's own fields
  have hencode : buf.take (header + lenField buf + trailer) =
      encodeFrameBody (buf.getD 2 0) (payloadSlice buf (lenField buf)) := by
    rw [htake, ← hcrc, hbody, encodeFrameBody, hlength]
  dsimp only at hlook
  split at hlook
  · rename_i decoded hdecode
    cases hlook
    obtain ⟨htype, hpayload⟩ := decodeBody_eq_some hdecode
    have hwhole : decoded.Whole := by
      rw [Frame.Whole, ← hpayload, hlength]
      omega
    refine ⟨hwhole, ?_⟩
    rw [hencode, encode_of_whole hwhole, ← htype, ← hpayload]
  · rename_i hdecode
    cases hlook
    exact ⟨_, _, by rw [hlength]; omega, hdecode, hencode⟩

/-- **Every token is accounted for**: a frame token consumed exactly the
encoding of its frame. -/
theorem look_valid {buf : List Byte} {count : ℕ} {token : Token}
    (hlook : wire.look buf = some (count, token)) : token.Valid := by
  match buf with
  | [] => cases hlook
  | [_] =>
      simp only [wire, look] at hlook
      split at hlook <;> cases hlook
      trivial
  | first :: second :: rest =>
      simp only [wire, look] at hlook
      split at hlook
      · rename_i hsync
        rw [hsync.1, hsync.2] at hlook
        exact lookAtSync_valid rfl hlook
      · cases hlook
        trivial

theorem scans_valid {buf rest : List Byte} {tokens : List Token}
    (hscan : Scans wire buf tokens rest) : ∀ token ∈ tokens, token.Valid := by
  induction hscan with
  | refl => simp
  | head hlook _ ih =>
      intro token htoken
      rcases List.mem_cons.mp htoken with rfl | htail
      · exact look_valid hlook
      · exact ih token htail

end Baonix.Proto

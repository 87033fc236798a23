import Baonix.Lib.LittleEndian

/-!
# Frames of the page link

The seven frames that cross the cable and their byte layout,
`SYNC(2) TYPE(1) LEN(2) payload CRC32(4)`, every integer little-endian.
-/

namespace Baonix.Proto

open Baonix.LittleEndian

/-- `PAGE`. -/
abbrev pageSize : ℕ := 4096

/-- `HEADER`: SYNC, TYPE and LEN. -/
abbrev header : ℕ := 5

/-- `TRAILER`: the CRC32. -/
abbrev trailer : ℕ := 4

/-- `MAX_PAYLOAD`: a page plus its 4-byte page number. -/
abbrev maxPayload : ℕ := pageSize + 4

/-- `SYNC = 0xB0C1`, least significant byte first on the wire. -/
def syncLo : Byte := 0xC1

def syncHi : Byte := 0xB0

/-- The boxed array `[u8; PAGE]`. -/
abbrev Page := Fin pageSize → Byte

/-- The array as a slice. -/
def Page.bytes (data : Page) : List Byte := List.ofFn data

@[simp]
theorem Page.length_bytes (data : Page) : data.bytes.length = pageSize :=
  List.length_ofFn

theorem Page.getElem_bytes (data : Page) (index : ℕ)
    (hindex : index < data.bytes.length) :
    data.bytes[index] = data ⟨index, by simpa using hindex⟩ := by
  simp only [Page.bytes, List.getElem_ofFn]

inductive Frame
  | readReq (page : BitVec 32)
  | readResp (page : BitVec 32) (data : Page)
  | writeReq (page : BitVec 32) (data : Page)
  | writeAck (page : BitVec 32)
  | conOut (bytes : List Byte)
  | conIn (bytes : List Byte)
  | err (code : BitVec 16) (page : BitVec 32)
  deriving DecidableEq

def Frame.typeByte : Frame → Byte
  | .readReq _ => 0x01
  | .readResp _ _ => 0x02
  | .writeReq _ _ => 0x03
  | .writeAck _ => 0x04
  | .conOut _ => 0x05
  | .conIn _ => 0x06
  | .err _ _ => 0x07

/-! ## Checksum -/

/-- One turn of the inner loop of `crc32`. -/
def crcBit (crc : BitVec 32) : BitVec 32 :=
  (crc >>> 1) ^^^ (0xEDB88320#32 &&& -(crc &&& 1#32))

/-- One turn of the outer loop of `crc32`. -/
def crcByte (crc : BitVec 32) (byte : Byte) : BitVec 32 :=
  crcBit^[8] (crc ^^^ byte.setWidth 32)

/-- Bitwise CRC-32/ISO-HDLC. -/
def crc32 (bytes : List Byte) : BitVec 32 :=
  ~~~(bytes.foldl crcByte (~~~0#32))

/-! ## Encoding -/

/-- `encode_frame_body`; the bytes it appends to `out`.  The length is narrowed
to sixteen bits, as in the source. -/
def encodeFrameBody (typeByte : Byte) (payload : List Byte) : List Byte :=
  let body := typeByte :: (toBytes 2 payload.length ++ payload)
  [syncLo, syncHi] ++ body ++ toBytes 4 (crc32 body).toNat

/-- `payload.chunks(MAX_PAYLOAD)`. -/
def payloadChunks (payload : List Byte) : List (List Byte) :=
  if payload = [] then []
  else payload.take maxPayload :: payloadChunks (payload.drop maxPayload)
termination_by payload.length
decreasing_by
  rename_i hpayload
  have hpos := List.length_pos_iff.mpr hpayload
  simp only [List.length_drop, maxPayload]
  omega

/-- The chunks a console payload is sent in: an empty payload is still one
frame. -/
def consoleChunks (payload : List Byte) : List (List Byte) :=
  payloadChunks payload ++ if payload = [] then [[]] else []

/-- The payload of a frame that is not a console frame. -/
def Frame.payload : Frame → List Byte
  | .readReq page => toBytes 4 page.toNat
  | .writeAck page => toBytes 4 page.toNat
  | .readResp page data => toBytes 4 page.toNat ++ data.bytes
  | .writeReq page data => toBytes 4 page.toNat ++ data.bytes
  | .conOut bytes => bytes
  | .conIn bytes => bytes
  | .err code page => toBytes 2 code.toNat ++ toBytes 4 page.toNat

/-- `encode`; the bytes it appends to `out`. -/
def encode : Frame → List Byte
  | .conOut bytes => (consoleChunks bytes).flatMap (encodeFrameBody 0x05)
  | .conIn bytes => (consoleChunks bytes).flatMap (encodeFrameBody 0x06)
  | frame => encodeFrameBody frame.typeByte frame.payload

/-! ## Decoding one body -/

/-- The `page` closure of `decode_body`, at an offset. -/
def pageField (offset : ℕ) (payload : List Byte) : BitVec 32 :=
  BitVec.ofNat 32 (ofBytes ((payload.drop offset).take 4))

/-- The `boxed` closure of `decode_body`. -/
def dataField (payload : List Byte) : Page :=
  fun index => payload.getD (4 + index) 0

def decodeBody (typeByte : Byte) (payload : List Byte) : Option Frame :=
  match typeByte with
  | 0x01 => if payload.length = 4 then some (.readReq (pageField 0 payload)) else none
  | 0x02 =>
      if payload.length = 4 + pageSize then
        some (.readResp (pageField 0 payload) (dataField payload))
      else none
  | 0x03 =>
      if payload.length = 4 + pageSize then
        some (.writeReq (pageField 0 payload) (dataField payload))
      else none
  | 0x04 => if payload.length = 4 then some (.writeAck (pageField 0 payload)) else none
  | 0x05 => some (.conOut payload)
  | 0x06 => some (.conIn payload)
  | 0x07 =>
      if payload.length = 6 then
        some (.err (BitVec.ofNat 16 (ofBytes (payload.take 2))) (pageField 2 payload))
      else none
  | _ => none

/-! ## The frames on the wire -/

/-- A frame the encoder emits whole: everything but an oversized console
payload. -/
def Frame.Whole (frame : Frame) : Prop := frame.payload.length ≤ maxPayload

/-- The frames `encode` splits a frame into. -/
def Frame.fragments : Frame → List Frame
  | .conOut bytes => (consoleChunks bytes).map .conOut
  | .conIn bytes => (consoleChunks bytes).map .conIn
  | frame => [frame]

theorem length_payloadChunks_le {payload chunk : List Byte}
    (hchunk : chunk ∈ payloadChunks payload) : chunk.length ≤ maxPayload := by
  induction hlen : payload.length using Nat.strong_induction_on generalizing payload with
  | _ n ih =>
      rw [payloadChunks] at hchunk
      split at hchunk
      · cases hchunk
      · rename_i hpayload
        have hpos := List.length_pos_iff.mpr hpayload
        rcases List.mem_cons.mp hchunk with rfl | htail
        · simp
        · refine ih (payload.drop maxPayload).length ?_ htail rfl
          simp only [List.length_drop, maxPayload]
          omega

theorem flatten_payloadChunks (payload : List Byte) :
    (payloadChunks payload).flatten = payload := by
  fun_induction payloadChunks payload with
  | case1 => rfl
  | case2 payload _ ih => rw [List.flatten_cons, ih, List.take_append_drop]

theorem length_consoleChunks_le {payload chunk : List Byte}
    (hchunk : chunk ∈ consoleChunks payload) : chunk.length ≤ maxPayload := by
  rw [consoleChunks, List.mem_append] at hchunk
  rcases hchunk with hchunk | hchunk
  · exact length_payloadChunks_le hchunk
  · split at hchunk
    · rw [List.mem_singleton] at hchunk
      simp [hchunk]
    · cases hchunk

/-- The fragments of a console payload concatenate to it. -/
theorem flatten_consoleChunks (payload : List Byte) :
    (consoleChunks payload).flatten = payload := by
  rw [consoleChunks, List.flatten_append, flatten_payloadChunks]
  split <;> simp

/-- A payload within the limit is sent as one frame. -/
theorem consoleChunks_of_le {payload : List Byte}
    (hpayload : payload.length ≤ maxPayload) : consoleChunks payload = [payload] := by
  by_cases hnil : payload = []
  · subst hnil
    simp [consoleChunks, payloadChunks]
  · have hdrop : payload.drop maxPayload = [] := List.drop_eq_nil_of_le hpayload
    rw [consoleChunks, payloadChunks, if_neg hnil, if_neg hnil, hdrop,
      List.take_of_length_le hpayload, payloadChunks, if_pos rfl, List.append_nil]

theorem Frame.whole_of_not_console {frame : Frame}
    (hout : ∀ bytes, frame ≠ .conOut bytes) (hin : ∀ bytes, frame ≠ .conIn bytes) :
    frame.Whole := by
  cases frame with
  | conOut bytes => exact absurd rfl (hout bytes)
  | conIn bytes => exact absurd rfl (hin bytes)
  | _ => simp [Whole, payload, maxPayload, pageSize]

theorem Frame.fragments_of_whole {frame : Frame} (hframe : frame.Whole) :
    frame.fragments = [frame] := by
  cases frame with
  | conOut bytes =>
      have hbytes : bytes.length ≤ maxPayload := hframe
      simp [fragments, consoleChunks_of_le hbytes]
  | conIn bytes =>
      have hbytes : bytes.length ≤ maxPayload := hframe
      simp [fragments, consoleChunks_of_le hbytes]
  | _ => rfl

theorem Frame.whole_of_mem_fragments {frame fragment : Frame}
    (hfragment : fragment ∈ frame.fragments) : fragment.Whole := by
  cases frame with
  | conOut bytes =>
      obtain ⟨chunk, hchunk, rfl⟩ := List.mem_map.mp hfragment
      exact length_consoleChunks_le hchunk
  | conIn bytes =>
      obtain ⟨chunk, hchunk, rfl⟩ := List.mem_map.mp hfragment
      exact length_consoleChunks_le hchunk
  | _ =>
      rw [List.mem_singleton.mp hfragment]
      exact whole_of_not_console (by simp) (by simp)

/-- Encoding a whole frame is one call of `encode_frame_body`. -/
theorem encode_of_whole {frame : Frame} (hframe : frame.Whole) :
    encode frame = encodeFrameBody frame.typeByte frame.payload := by
  cases frame with
  | conOut bytes =>
      have hbytes : bytes.length ≤ maxPayload := hframe
      simp [encode, consoleChunks_of_le hbytes, Frame.typeByte, Frame.payload]
  | conIn bytes =>
      have hbytes : bytes.length ≤ maxPayload := hframe
      simp [encode, consoleChunks_of_le hbytes, Frame.typeByte, Frame.payload]
  | _ => rfl

/-- The encoding of a frame is the concatenation of its fragments' encodings. -/
theorem encode_eq_flatMap_fragments (frame : Frame) :
    encode frame = frame.fragments.flatMap encode := by
  cases frame with
  | conOut bytes =>
      simp only [encode, Frame.fragments, List.flatMap_map]
      refine List.flatMap_congr fun chunk hchunk => ?_
      simp [consoleChunks_of_le (length_consoleChunks_le hchunk)]
  | conIn bytes =>
      simp only [encode, Frame.fragments, List.flatMap_map]
      refine List.flatMap_congr fun chunk hchunk => ?_
      simp [consoleChunks_of_le (length_consoleChunks_le hchunk)]
  | _ => simp [Frame.fragments]

/-- Decoding inverts the layout of every frame's payload. -/
@[simp]
theorem decodeBody_payload (frame : Frame) :
    decodeBody frame.typeByte frame.payload = some frame := by
  have hword (word : BitVec 32) (rest : List Byte) :
      pageField 0 (toBytes 4 word.toNat ++ rest) = word := by
    rw [pageField, List.drop_zero, List.take_left' (length_toBytes ..)]
    exact ofNat_ofBytes_toBytes 4 word (by norm_num)
  have hdata (word : BitVec 32) (data : Page) :
      dataField (toBytes 4 word.toNat ++ data.bytes) = data := by
    funext index
    have hindex : 4 + (index : ℕ) < (toBytes 4 word.toNat ++ data.bytes).length := by
      simp only [List.length_append, length_toBytes, Page.length_bytes]
      omega
    rw [dataField, List.getD_eq_getElem _ _ hindex,
      List.getElem_append_right (by simp), Page.getElem_bytes]
    simp
  cases frame with
  | readReq page => simpa [decodeBody, Frame.typeByte, Frame.payload] using hword page []
  | writeAck page => simpa [decodeBody, Frame.typeByte, Frame.payload] using hword page []
  | readResp page data =>
      simp [decodeBody, Frame.typeByte, Frame.payload, hword, hdata]
  | writeReq page data =>
      simp [decodeBody, Frame.typeByte, Frame.payload, hword, hdata]
  | conOut bytes => rfl
  | conIn bytes => rfl
  | err code page =>
      have hcode := ofNat_ofBytes_toBytes 2 code (by norm_num)
      have hpage := ofNat_ofBytes_toBytes 4 page (by norm_num)
      have htake : (toBytes 4 page.toNat).take 4 = toBytes 4 page.toNat :=
        List.take_of_length_le (by simp)
      simp [decodeBody, Frame.typeByte, Frame.payload, pageField, hcode, hpage,
        htake, List.take_left', List.drop_left']

end Baonix.Proto

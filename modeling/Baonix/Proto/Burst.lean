import Baonix.Lib.ShiftRegister
import Baonix.Proto.RoundTrip

/-!
# Damage the checksum always finds

The checksum is a feedback shift register over the bits of a frame, the least
significant bit of each byte first, and the register after a frame's own CRC is the
same for every frame.  Damage that lies within thirty-two consecutive bits leaves
another register, so that the decoder never takes the damaged bytes for a frame.
-/

namespace Baonix.Proto

open Baonix.LittleEndian Baonix.ShiftRegister

/-- The bits of a byte string, the least significant bit of each byte first. -/
def bitsOf (bytes : List Byte) : List Bool :=
  bytes.flatMap fun byte => (List.range 8).map byte.getLsbD

/-- The feedback word of `crc32`. -/
def crcPoly : BitVec 32 := 0xEDB88320#32

/-- The register after any frame and its checksum. -/
def residue : BitVec 32 := (shift crcPoly)^[32] (BitVec.allOnes 32)

/-! ## Bits of bytes -/

theorem bitsOf_cons (byte : Byte) (bytes : List Byte) :
    bitsOf (byte :: bytes) = (List.range 8).map byte.getLsbD ++ bitsOf bytes :=
  List.flatMap_cons

theorem bitsOf_append (first second : List Byte) :
    bitsOf (first ++ second) = bitsOf first ++ bitsOf second :=
  List.flatMap_append

@[simp]
theorem length_bitsOf (bytes : List Byte) : (bitsOf bytes).length = 8 * bytes.length := by
  induction bytes with
  | nil => rfl
  | cons byte bytes ih =>
      rw [bitsOf_cons, List.length_append, ih, List.length_map, List.length_range,
        List.length_cons, Nat.mul_succ, Nat.add_comm]

/-- The bits are those of the number the bytes denote. -/
theorem getD_bitsOf (bytes : List Byte) (place : ℕ) :
    (bitsOf bytes).getD place false = (ofBytes bytes).testBit place := by
  induction bytes generalizing place with
  | nil => simp [bitsOf, ofBytes]
  | cons byte bytes ih =>
      have hbyte : byte.toNat < 2 ^ 8 := byte.isLt
      have hvalue : ofBytes (byte :: bytes) = 2 ^ 8 * ofBytes bytes + byte.toNat := by
        rw [ofBytes, Nat.add_comm]
        rfl
      have hlength : ((List.range 8).map byte.getLsbD).length = 8 := by
        rw [List.length_map, List.length_range]
      rw [bitsOf_cons, hvalue, Nat.testBit_two_pow_mul_add _ hbyte]
      split
      · rename_i hlow
        rw [List.getD_append _ _ _ _ (by omega), List.getD_eq_getElem _ _ (by omega),
          List.getElem_map, List.getElem_range]
        rfl
      · rename_i hhigh
        rw [List.getD_append_right _ _ _ _ (by omega), hlength, ih]

theorem word_bitsOf (w : ℕ) (bytes : List Byte) :
    word w (bitsOf bytes) = BitVec.ofNat w (ofBytes bytes) := by
  apply BitVec.eq_of_getLsbD_eq
  intro place hplace
  rw [getLsbD_word hplace, getD_bitsOf, BitVec.getLsbD_ofNat, decide_eq_true hplace,
    Bool.true_and]

theorem bitsOf_injective {bytes bytes' : List Byte} (hlength : bytes.length = bytes'.length)
    (hbits : bitsOf bytes = bitsOf bytes') : bytes = bytes' := by
  have hvalue : ofBytes bytes = ofBytes bytes' := by
    apply Nat.eq_of_testBit_eq
    intro place
    rw [← getD_bitsOf, ← getD_bitsOf, hbits]
  rw [← toBytes_ofBytes bytes, ← toBytes_ofBytes bytes', hlength, hvalue]

/-! ## The checksum as a register -/

theorem crcBit_eq (crc : BitVec 32) : crcBit crc = shift crcPoly crc := by
  have hlow : crc &&& 1#32 = (BitVec.ofBool (crc.getLsbD 0)).setWidth 32 :=
    BitVec.and_one_eq_setWidth_ofBool_getLsbD
  rw [crcBit, hlow, shift]
  cases crc.getLsbD 0
  · have hmask : -(BitVec.ofBool false).setWidth 32 = 0#32 := by decide
    rw [hmask, if_neg Bool.false_ne_true, BitVec.and_zero, BitVec.xor_zero]
  · have hmask : -(BitVec.ofBool true).setWidth 32 = BitVec.allOnes 32 := by decide
    rw [hmask, if_pos rfl, BitVec.and_allOnes]
    rfl

theorem crcByte_eq (crc : BitVec 32) (byte : Byte) :
    crcByte crc byte = feed crcPoly crc (bitsOf [byte]) := by
  have hshift : crcBit = shift crcPoly := funext crcBit_eq
  have hlength : (bitsOf [byte]).length = 8 := length_bitsOf [byte]
  have hword : word 32 (bitsOf [byte]) = byte.setWidth 32 := by
    rw [word_bitsOf, ofBytes, ofBytes, Nat.mul_zero, Nat.add_zero]
    exact BitVec.ofNat_toNat 32 byte
  rw [crcByte, hshift, feed_eq_iterate (by omega), hlength, hword]

theorem foldl_crcByte (crc : BitVec 32) (bytes : List Byte) :
    bytes.foldl crcByte crc = feed crcPoly crc (bitsOf bytes) := by
  induction bytes generalizing crc with
  | nil => rfl
  | cons byte bytes ih =>
      rw [List.foldl_cons, ih, crcByte_eq, ← feed_append, ← bitsOf_append, List.singleton_append]

theorem crcPoly_top : crcPoly.getLsbD (32 - 1) = true := by decide

/-- **A checksum matches exactly if the register ends in the residue.** -/
theorem crc32_eq_iff (body : List Byte) {field : List Byte} (hfield : field.length = 4) :
    crc32 body = BitVec.ofNat 32 (ofBytes field) ↔
      feed crcPoly (~~~0#32) (bitsOf (body ++ field)) = residue := by
  have hlength : (bitsOf field).length = 32 := by rw [length_bitsOf, hfield]
  have hinjective := (shift_injective crcPoly_top).iterate 32
  rw [bitsOf_append, feed_append, ← foldl_crcByte _ body, feed_eq_iterate hlength.le, hlength,
    word_bitsOf, residue, hinjective.eq_iff, crc32]
  generalize body.foldl crcByte (~~~0#32) = reg
  generalize BitVec.ofNat 32 (ofBytes field) = want
  rw [← BitVec.xor_allOnes, ← BitVec.xor_left_inj reg, BitVec.xor_assoc, BitVec.xor_comm _ reg,
    ← BitVec.xor_assoc, BitVec.xor_self, BitVec.zero_xor, BitVec.xor_comm want reg, eq_comm]

/-! ## Bursts -/

/-- What the checksum of a frame covers, and the checksum: TYPE, LEN, payload, CRC. -/
def covered (typeByte : Byte) (payload : List Byte) : List Byte :=
  let body := typeByte :: (toBytes 2 payload.length ++ payload)
  body ++ toBytes 4 (crc32 body).toNat

/-- One or more bits were altered, all within thirty-two consecutive ones, and none of
them in LEN. -/
structure Burst (sent altered : List Byte) : Prop where
  length : altered.length = sent.length
  changed : altered ≠ sent
  within : ∃ first, ∀ place < (bitsOf altered).length,
    (bitsOf altered)[place]? ≠ (bitsOf sent)[place]? → first ≤ place ∧ place < first + 32
  lenKept : (altered.drop 1).take 2 = (sent.drop 1).take 2

theorem length_covered (typeByte : Byte) (payload : List Byte) :
    (covered typeByte payload).length = payload.length + 7 := by
  simp only [covered, List.length_append, List.length_cons, length_toBytes]
  omega

theorem covered_residue (typeByte : Byte) (payload : List Byte) :
    feed crcPoly (~~~0#32) (bitsOf (covered typeByte payload)) = residue := by
  rw [covered, ← crc32_eq_iff _ (length_toBytes 4 _), ofNat_ofBytes_toBytes 4 _ (by norm_num)]

/-- A burst leaves another register. -/
theorem Burst.register_ne {typeByte : Byte} {payload altered : List Byte}
    (hburst : Burst (covered typeByte payload) altered) :
    feed crcPoly (~~~0#32) (bitsOf altered) ≠ residue := by
  obtain ⟨first, hwithin⟩ := hburst.within
  rw [← covered_residue typeByte payload]
  apply feed_ne_of_within crcPoly_top _ _ _ hwithin
  · rw [length_bitsOf, length_bitsOf, hburst.length]
  · exact fun hbits => hburst.changed (bitsOf_injective hburst.length hbits)

/-- The decision on the damaged bytes: the SYNC in front of them is noise. -/
theorem Burst.lookAtSync_eq {typeByte : Byte} {payload altered : List Byte}
    (hpayload : payload.length ≤ maxPayload)
    (hburst : Burst (covered typeByte payload) altered) (more : List Byte) :
    lookAtSync (syncLo :: syncHi :: (altered ++ more)) = some (2, .noise [syncLo, syncHi]) := by
  have hlength := hburst.length
  rw [length_covered] at hlength
  -- TYPE and LEN, and what is behind them
  obtain ⟨kind, low, high, rest, rfl⟩ : ∃ kind low high rest,
      altered = kind :: low :: high :: rest := by
    match altered with
    | kind :: low :: high :: rest => exact ⟨kind, low, high, rest, rfl⟩
    | [] => simp at hlength
    | [_] => simp at hlength
    | [_, _] => simp at hlength
  have hlen : [low, high] = toBytes 2 payload.length := by
    have hkept := hburst.lenKept
    simp only [covered, List.cons_append, List.drop_succ_cons, List.drop_zero, List.append_assoc,
      List.take_succ_cons, List.take_zero] at hkept
    rwa [List.take_left' (length_toBytes 2 _)] at hkept
  have hrest : rest.length = payload.length + 4 := by simpa using hlength
  set buf := syncLo :: syncHi :: (kind :: low :: high :: rest ++ more) with hbuf
  have hfield : lenField buf = payload.length := by
    have hbound : payload.length < 256 ^ 2 := by
      simp only [maxPayload, pageSize] at hpayload
      omega
    have hread : lenField buf = ofBytes [low, high] := rfl
    rw [hread, hlen, ofBytes_toBytes 2 _ hbound]
  have htotal : buf.length = rest.length + 5 + more.length := by
    simp only [hbuf, List.length_cons, List.length_append]
    omega
  have hbody : bodyField buf payload.length = kind :: low :: high :: rest.take payload.length := by
    have hcount : header + payload.length - 2 = payload.length + 1 + 1 + 1 := by
      simp only [header]
      omega
    rw [bodyField, hcount, hbuf]
    simp only [List.drop_succ_cons, List.drop_zero, List.cons_append, List.take_succ_cons]
    rw [List.take_append_of_le_length (by omega)]
  have hwant : wantField buf payload.length =
      BitVec.ofNat 32 (ofBytes (rest.drop payload.length)) := by
    have hcount : header + payload.length = payload.length + 1 + 1 + 1 + 1 + 1 := by
      simp only [header]
      omega
    rw [wantField, hcount, hbuf]
    simp only [List.cons_append, List.drop_succ_cons]
    rw [List.drop_append_of_le_length (by omega), List.take_left' (by simp [hrest, trailer])]
  have hmismatch : crc32 (bodyField buf payload.length) ≠ wantField buf payload.length := by
    rw [hbody, hwant, Ne, crc32_eq_iff _ (by simp [hrest])]
    simpa using hburst.register_ne
  rw [lookAtSync, if_neg (by simp only [header]; omega), hfield, if_neg (by omega),
    if_neg (by simp only [header, trailer]; omega), if_pos hmismatch, hbuf]
  rfl

/-- **The checksum rejects every short burst.**  When the decoder stands at the SYNC of a
frame of which a burst altered bits, whatever of it and of the bytes behind it has
arrived, it waits, or it drops that SYNC as noise. -/
theorem crc_rejects_bursts (typeByte : Byte) {payload altered : List Byte}
    (hpayload : payload.length ≤ maxPayload)
    (hburst : Burst (covered typeByte payload) altered) (more : List Byte) {d : Decoder}
    (hbuf : d.buf <+: syncLo :: syncHi :: (altered ++ more)) :
    d.turn = .ret none d ∨ d.turn = .again (d.discard 2) := by
  obtain ⟨later, hsplit⟩ := hbuf
  rcases hcase : d.buf with - | ⟨first, - | ⟨second, rest⟩⟩
  · left
    simp [Decoder.turn, hcase, findSync]
  · rw [hcase, List.singleton_append, List.cons.injEq] at hsplit
    left
    simp [Decoder.turn, hcase, findSync, hsplit.1]
  · have hnoise := hburst.lookAtSync_eq hpayload more
    rw [← hsplit] at hnoise
    rw [hcase, List.cons_append, List.cons_append, List.cons.injEq, List.cons.injEq] at hsplit
    have hsync : findSync d.buf = some 0 := by
      rw [hcase, findSync, if_pos ⟨hsplit.1, hsplit.2.1⟩]
    rw [Decoder.turn, hsync]
    simp only [gt_iff_lt, lt_self_iff_false, if_false]
    rw [Decoder.turnAtSync_eq]
    rcases hlook : lookAtSync d.buf with - | ⟨count, token⟩
    · exact .inl rfl
    · rw [lookAtSync_append hlook, Option.some.injEq, Prod.mk.injEq] at hnoise
      obtain ⟨rfl, rfl⟩ := hnoise
      exact .inr rfl

/-- A read request of page 1 of which the last bit of the page number and the first bit of
the checksum were altered. -/
theorem crc_rejects_bursts_readReq :
    let d := Decoder.new.push [syncLo, syncHi, 0x01, 0x04, 0x00, 0x01, 0x00, 0x00, 0x80, 0xB8,
      0xF1, 0x36, 0x18]
    d.turn = .ret none d ∨ d.turn = .again (d.discard 2) := by
  have hburst : Burst (covered 0x01 [0x01, 0x00, 0x00, 0x00])
      [0x01, 0x04, 0x00, 0x01, 0x00, 0x00, 0x80, 0xB8, 0xF1, 0x36, 0x18] :=
    { length := by decide
      changed := by decide
      within := ⟨55, by decide +kernel⟩
      lenKept := by decide }
  exact crc_rejects_bursts 0x01 (by decide) hburst [] (List.prefix_refl _)

end Baonix.Proto

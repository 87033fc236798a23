import Baonix.Proto.Frame

/-!
# The resynchronising decoder

`Decoder` accumulates bytes and `next_frame` takes one frame off the front of
them, hunting for SYNC through anything that is not a frame.  The loop of the
source is split into its body, `Decoder.turn`, and the iteration of it.
-/

namespace Baonix.Proto

open Baonix.LittleEndian

structure Decoder where
  buf : List Byte
  noise : List Byte
  droppedNoise : ℕ
  capture : Bool
  noiseCap : ℕ
  deriving DecidableEq

namespace Decoder

def new : Decoder := ⟨[], [], 0, false, 0⟩

/-- `capturing_noise_capped`. -/
def capturingNoiseCapped (cap : ℕ) : Decoder :=
  { new with capture := true, noiseCap := cap }

/-- `MAX_NOISE`. -/
def maxNoise : ℕ := 64 * 1024

def capturingNoise : Decoder := capturingNoiseCapped maxNoise

def push (d : Decoder) (bytes : List Byte) : Decoder :=
  { d with buf := d.buf ++ bytes }

def takeNoise (d : Decoder) : (List Byte × ℕ) × Decoder :=
  ((d.noise, d.droppedNoise), { d with noise := [], droppedNoise := 0 })

/-- Drops the first `count` bytes of the buffer, keeping them if asked to. -/
def discard (d : Decoder) (count : ℕ) : Decoder :=
  if d.capture then
    let room := d.noiseCap - d.noise.length
    let keep := min room count
    { d with
      buf := d.buf.drop count
      noise := d.noise ++ d.buf.take keep
      droppedNoise := d.droppedNoise + (count - keep) }
  else
    { d with buf := d.buf.drop count }

end Decoder

/-- `find_sync`: the first position of the two SYNC bytes. -/
def findSync : List Byte → Option ℕ
  | first :: second :: rest =>
      if first = syncLo ∧ second = syncHi then some 0
      else (findSync (second :: rest)).map (· + 1)
  | _ => none

/-! The fields `next_frame` reads from a buffer that starts with SYNC. -/

def lenField (buf : List Byte) : ℕ := ofBytes [buf.getD 3 0, buf.getD 4 0]

def bodyField (buf : List Byte) (len : ℕ) : List Byte :=
  (buf.drop 2).take (header + len - 2)

def wantField (buf : List Byte) (len : ℕ) : BitVec 32 :=
  BitVec.ofNat 32 (ofBytes ((buf.drop (header + len)).take trailer))

def payloadSlice (buf : List Byte) (len : ℕ) : List Byte :=
  (buf.drop header).take len

/-- How one turn of the loop in `next_frame` ends. -/
inductive Turn
  | ret (frame : Option Frame) (d : Decoder)
  | again (d : Decoder)
  deriving DecidableEq

namespace Decoder

/-- The loop body once SYNC stands at the front of the buffer. -/
def turnAtSync (d : Decoder) : Turn :=
  if d.buf.length < header then .ret none d
  else
    let len := lenField d.buf
    if len > maxPayload then .again (d.discard 2)
    else
      let total := header + len + trailer
      if d.buf.length < total then .ret none d
      else if crc32 (bodyField d.buf len) ≠ wantField d.buf len then
        .again (d.discard 2)
      else
        let frame := decodeBody (d.buf.getD 2 0) (payloadSlice d.buf len)
        let rest := { d with buf := d.buf.drop total }
        if frame.isSome then .ret frame rest else .again rest

/-- The body of the loop in `next_frame`. -/
def turn (d : Decoder) : Turn :=
  match findSync d.buf with
  | none =>
      let keep := if d.buf.getLast? = some syncLo then 1 else 0
      .ret none (d.discard (d.buf.length - keep))
  | some start => turnAtSync (if start > 0 then d.discard start else d)

@[simp]
theorem buf_discard (d : Decoder) (count : ℕ) :
    (d.discard count).buf = d.buf.drop count := by
  rw [discard]
  split <;> rfl

/-- A turn that goes round again has removed at least one byte. -/
theorem turnAtSync_again_lt {d next : Decoder} (hturn : d.turnAtSync = .again next) :
    next.buf.length < d.buf.length := by
  unfold turnAtSync at hturn
  split at hturn
  · cases hturn
  · rename_i hheader
    simp only [header, not_lt] at hheader
    dsimp only at hturn
    split at hturn
    · cases hturn
      simp only [buf_discard, List.length_drop]
      omega
    · split at hturn
      · cases hturn
      · split at hturn
        · cases hturn
          simp only [buf_discard, List.length_drop]
          omega
        · split at hturn
          · cases hturn
          · cases hturn
            simp only [List.length_drop, header]
            omega

theorem turn_again_lt {d next : Decoder} (hturn : d.turn = .again next) :
    next.buf.length < d.buf.length := by
  unfold turn at hturn
  split at hturn
  · cases hturn
  · refine (turnAtSync_again_lt hturn).trans_le ?_
    split <;> simp

/-- `next_frame`. -/
def nextFrame (d : Decoder) : Option Frame × Decoder :=
  match _hturn : d.turn with
  | .ret frame next => (frame, next)
  | .again next => nextFrame next
termination_by d.buf.length
decreasing_by exact turn_again_lt _hturn

end Decoder

end Baonix.Proto

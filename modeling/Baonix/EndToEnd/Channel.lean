import Baonix.Host.ServeOrder

/-!
# A channel that may lose frames

Frames wait in a queue, where any of them may be lost, until they leave in their order.
The bytes of those that have left are delivered in pieces of any length to a decoder, which
recognises each frame when its last byte is there.
-/

namespace Baonix.EndToEnd

open Baonix.LittleEndian Baonix.Scanning Baonix.Proto Baonix.Host

/-! ## The part of a stream that is left -/

theorem arrived_eq_take (frames : List Frame) (count : ℕ) :
    arrived frames count = frames.take (arrived frames count).length := by
  have hprefix := arrived_prefix frames count (frames.flatMap encode).length
  rw [arrived_all frames (Nat.le_add_left ..)] at hprefix
  exact List.prefix_iff_eq_take.mp hprefix

/-- What the decoder keeps of the first bytes of a stream is the beginning of the frame that
is not complete. -/
theorem run_take_rest {frames : List Frame} (hframes : ∀ frame ∈ frames, frame.Whole)
    (count : ℕ) :
    (run wire ((frames.flatMap encode).take count)).2 =
      ((frames.drop (arrived frames count).length).flatMap encode).take
        (count - ((arrived frames count).flatMap encode).length) := by
  induction frames generalizing count with
  | nil => simp [arrived, run_eq_of_scans (.refl []) (S := wire) rfl]
  | cons frame frames ih =>
      have hhead := hframes frame (List.mem_cons_self ..)
      have htail := ih fun other hother => hframes other (List.mem_cons_of_mem _ hother)
      rw [List.flatMap_cons, arrived]
      split
      · rename_i hcount
        rw [List.take_append, List.take_of_length_le hcount]
        have hscan := Scans.single (S := wire) (look_encode hhead
          ((frames.flatMap encode).take (count - (encode frame).length)))
        rw [List.drop_left' rfl] at hscan
        rw [run_of_scans hscan, htail, List.length_cons, List.drop_succ_cons, List.flatMap_cons,
          List.length_append, Nat.sub_sub]
      · rename_i hcount
        rw [List.take_append_of_le_length (by omega)]
        have hwait := look_part_eq_none hhead (not_le.mp hcount)
        rw [run_eq_of_scans (.refl _) hwait, List.length_nil, List.drop_zero, List.flatMap_nil,
          List.length_nil, Nat.sub_zero, List.flatMap_cons,
          List.take_append_of_le_length (by omega)]

/-! ## Channels -/

/-- Frames that may still be lost, frames that have left, and how many of the bytes of
these have been delivered. -/
structure Channel (Tag : Type) where
  queue : List (Tag × Frame)
  leaving : List (Tag × Frame)
  offset : ℕ

namespace Channel

variable {Tag : Type}

def empty : Channel Tag := ⟨[], [], 0⟩

/-- The frames on their way, the oldest first. -/
def frames (c : Channel Tag) : List (Tag × Frame) := c.leaving ++ c.queue

/-- The bytes of the frames that have left. -/
def stream (c : Channel Tag) : List Byte := (c.leaving.map Prod.snd).flatMap encode

def sent (c : Channel Tag) (more : List (Tag × Frame)) : Channel Tag :=
  { c with queue := c.queue ++ more }

def lost (c : Channel Tag) (index : ℕ) : Channel Tag :=
  { c with queue := c.queue.eraseIdx index }

/-- The oldest frames of the queue leave. -/
def released (c : Channel Tag) (count : ℕ) : Channel Tag :=
  { c with queue := c.queue.drop count, leaving := c.leaving ++ c.queue.take count }

/-- The next bytes to be delivered. -/
def bytes (c : Channel Tag) (count : ℕ) : List Byte := (c.stream.drop c.offset).take count

/-- How many frames a delivery completes. -/
def completes (c : Channel Tag) (count : ℕ) : ℕ :=
  (arrived (c.leaving.map Prod.snd) (c.offset + count)).length

/-- The frames a delivery completes. -/
def done (c : Channel Tag) (count : ℕ) : List (Tag × Frame) := c.leaving.take (c.completes count)

/-- The channel behind a delivery. -/
def delivered (c : Channel Tag) (count : ℕ) : Channel Tag where
  queue := c.queue
  leaving := c.leaving.drop (c.completes count)
  offset := min (c.offset + count) c.stream.length -
    (((c.done count).map Prod.snd).flatMap encode).length

/-- The decoder at the end of the channel waits for the rest of the first frame. -/
structure Feeds (c : Channel Tag) (dec : Decoder) : Prop where
  whole : ∀ frame ∈ c.frames, frame.2.Whole
  inside : c.offset ≤ c.stream.length
  buf : dec.buf = c.stream.take c.offset
  waits : wire.look dec.buf = none

theorem feeds_empty {dec : Decoder} (hbuf : dec.buf = []) : (empty : Channel Tag).Feeds dec where
  whole _ hframe := absurd hframe List.not_mem_nil
  inside := le_rfl
  buf := hbuf
  waits := by rw [hbuf]; rfl

theorem frames_sent (c : Channel Tag) (more : List (Tag × Frame)) :
    (c.sent more).frames = c.frames ++ more := (List.append_assoc ..).symm

theorem frames_lost (c : Channel Tag) (index : ℕ) : (c.lost index).frames.Sublist c.frames :=
  (List.eraseIdx_sublist ..).append_left _

theorem frames_released (c : Channel Tag) (count : ℕ) : (c.released count).frames = c.frames := by
  rw [frames, released, List.append_assoc, List.take_append_drop]
  rfl

/-- A delivery takes the frames it completes off the front. -/
theorem done_append_frames (c : Channel Tag) (count : ℕ) :
    c.done count ++ (c.delivered count).frames = c.frames := by
  rw [done, frames, delivered, ← List.append_assoc, List.take_append_drop]
  rfl

theorem map_done (c : Channel Tag) (count : ℕ) :
    (c.done count).map Prod.snd = arrived (c.leaving.map Prod.snd) (c.offset + count) := by
  rw [done, List.map_take, completes, ← arrived_eq_take]

namespace Feeds

variable {c : Channel Tag} {dec : Decoder}

theorem sent (hfeeds : c.Feeds dec) {more : List (Tag × Frame)}
    (hmore : ∀ frame ∈ more, frame.2.Whole) : (c.sent more).Feeds dec where
  whole frame hframe := by
    rw [frames_sent, List.mem_append] at hframe
    exact hframe.elim (hfeeds.whole frame) (hmore frame)
  inside := hfeeds.inside
  buf := hfeeds.buf
  waits := hfeeds.waits

theorem lost (hfeeds : c.Feeds dec) (index : ℕ) : (c.lost index).Feeds dec where
  whole frame hframe := hfeeds.whole frame ((c.frames_lost index).subset hframe)
  inside := hfeeds.inside
  buf := hfeeds.buf
  waits := hfeeds.waits

theorem of_buf (hfeeds : c.Feeds dec) {other : Decoder} (hbuf : other.buf = dec.buf) :
    c.Feeds other :=
  ⟨hfeeds.whole, hfeeds.inside, hbuf.trans hfeeds.buf, hbuf ▸ hfeeds.waits⟩

/-- What is released goes behind the bytes that are there. -/
theorem released (hfeeds : c.Feeds dec) (count : ℕ) : (c.released count).Feeds dec := by
  have hstream : (c.released count).stream =
      c.stream ++ ((c.queue.take count).map Prod.snd).flatMap encode := by
    rw [stream, Channel.released, List.map_append, List.flatMap_append]
    rfl
  have hinside := hfeeds.inside
  refine ⟨fun frame hframe => hfeeds.whole frame (by rwa [frames_released] at hframe), ?_, ?_,
    hfeeds.waits⟩
  · rw [hstream, List.length_append]
    exact hinside.trans (Nat.le_add_right ..)
  · rw [hfeeds.buf, hstream]
    exact (List.take_append_of_le_length hinside).symm

/-- **A delivery** completes the frames whose last byte it brings, and leaves the decoder
waiting for the rest of the next one. -/
theorem delivered (hfeeds : c.Feeds dec) (count : ℕ) :
    (dec.push (c.bytes count)).drain.1 = (c.done count).map Prod.snd ∧
      (c.delivered count).Feeds (dec.push (c.bytes count)).drain.2 := by
  have hwhole : ∀ frame ∈ c.leaving.map Prod.snd, frame.Whole := by
    intro frame hframe
    obtain ⟨tagged, htagged, rfl⟩ := List.mem_map.mp hframe
    exact hfeeds.whole tagged (List.mem_append_left _ htagged)
  have hbuf : (dec.push (c.bytes count)).buf = c.stream.take (c.offset + count) := by
    rw [Decoder.push, hfeeds.buf, bytes, ← List.take_add]
  obtain ⟨hframes, hrest⟩ := Decoder.drain_eq_run (dec.push (c.bytes count))
  rw [hbuf] at hframes hrest
  have hlength : c.stream.length = (((c.done count).map Prod.snd).flatMap encode).length +
      (c.delivered count).stream.length := by
    rw [← List.length_append, stream, stream, ← List.flatMap_append, ← List.map_append, done,
      Channel.delivered, List.take_append_drop]
  refine ⟨?_, ?_, ?_, ?_, ?_⟩
  · rw [hframes, stream, run_take hwhole, map_done]
  · intro frame hframe
    apply hfeeds.whole frame
    rw [← c.done_append_frames count]
    exact List.mem_append_right _ hframe
  · change min (c.offset + count) c.stream.length - _ ≤ _
    omega
  · have hkept : (Scanning.run wire (c.stream.take (c.offset + count))).2 =
        (c.delivered count).stream.take
          (c.offset + count - (((c.done count).map Prod.snd).flatMap encode).length) := by
      rw [stream, run_take_rest hwhole, ← List.map_drop, map_done]
      rfl
    rw [hrest, hkept, List.take_eq_take_iff]
    change _ = min (min (c.offset + count) c.stream.length - _) _
    omega
  · rw [hrest]
    exact (scans_run wire _).2

end Feeds

end Channel

end Baonix.EndToEnd

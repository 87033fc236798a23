import Baonix.Proto.Chunking

/-!
# The demultiplexer

`Mux` feeds a decoder and sorts what it returns: console payloads into one
buffer, everything else into the list of held frames, from which a caller takes
the first one of a given type.
-/

namespace Baonix.Proto

open Baonix.LittleEndian Baonix.Scanning

structure Mux where
  dec : Decoder
  console : List Byte
  held : List Frame
  deriving DecidableEq

namespace Mux

def new : Mux := ⟨Decoder.new, [], []⟩

def capturingNoise : Mux := { new with dec := Decoder.capturingNoise }

def capturingNoiseCapped (cap : ℕ) : Mux :=
  { new with dec := Decoder.capturingNoiseCapped cap }

def takeNoise (m : Mux) : (List Byte × ℕ) × Mux :=
  (m.dec.takeNoise.1, { m with dec := m.dec.takeNoise.2 })

/-- The body of the loop in `push`. -/
def accept (m : Mux) : Frame → Mux
  | .conIn bytes => { m with console := m.console ++ bytes }
  | .conOut bytes => { m with console := m.console ++ bytes }
  | other => { m with held := m.held ++ [other] }

def push (m : Mux) (bytes : List Byte) : Mux :=
  let drained := (m.dec.push bytes).drain
  drained.1.foldl accept { m with dec := drained.2 }

/-- `take_matching`: removes and returns the first held frame whose type byte is
`want`. -/
def takeMatching (m : Mux) (want : Byte) : Option (Frame × Mux) :=
  (m.held.find? (·.typeByte = want)).map fun frame =>
    (frame, { m with held := m.held.eraseP (·.typeByte = want) })

def takeConsole (m : Mux) : List Byte × Mux :=
  (m.console, { m with console := [] })

end Mux

/-- The console bytes of a frame. -/
def Frame.consoleBytes : Frame → List Byte
  | .conIn bytes => bytes
  | .conOut bytes => bytes
  | _ => []

/-- A frame that `push` holds for a caller to take. -/
def Frame.isHeld : Frame → Bool
  | .conIn _ => false
  | .conOut _ => false
  | _ => true

namespace Mux

theorem foldl_accept (frames : List Frame) (m : Mux) :
    frames.foldl accept m =
      { m with
        console := m.console ++ frames.flatMap Frame.consoleBytes
        held := m.held ++ frames.filter Frame.isHeld } := by
  induction frames generalizing m with
  | nil => simp
  | cons frame frames ih =>
      rw [List.foldl_cons, ih]
      cases frame <;> simp [accept, Frame.consoleBytes, Frame.isHeld, List.filter_cons]

/-- The frames a push completes. -/
def completed (m : Mux) (bytes : List Byte) : List Frame := (m.dec.push bytes).drain.1

@[simp]
theorem dec_push (m : Mux) (bytes : List Byte) :
    (m.push bytes).dec = (m.dec.push bytes).drain.2 := by
  rw [push, foldl_accept]

@[simp]
theorem console_push (m : Mux) (bytes : List Byte) :
    (m.push bytes).console = m.console ++ (m.completed bytes).flatMap Frame.consoleBytes := by
  rw [push, foldl_accept, completed]

@[simp]
theorem held_push (m : Mux) (bytes : List Byte) :
    (m.push bytes).held = m.held ++ (m.completed bytes).filter Frame.isHeld := by
  rw [push, foldl_accept, completed]

theorem takeMatching_eq_none {m : Mux} {want : Byte} :
    m.takeMatching want = none ↔ ∀ frame ∈ m.held, frame.typeByte ≠ want := by
  simp [takeMatching]

/-- What `take_matching` returns has the type asked for, everything held in
front of it has another type, and only it is removed. -/
theorem takeMatching_eq_some {m next : Mux} {want : Byte} {frame : Frame}
    (htake : m.takeMatching want = some (frame, next)) :
    frame.typeByte = want ∧ ∃ front rest, m.held = front ++ frame :: rest ∧
      (∀ other ∈ front, other.typeByte ≠ want) ∧ next = { m with held := front ++ rest } := by
  simp only [takeMatching, Option.map_eq_some_iff, Prod.mk.injEq] at htake
  obtain ⟨found, hfind, rfl, rfl⟩ := htake
  obtain ⟨htype, front, rest, hheld, hfront⟩ := List.find?_eq_some_iff_append.mp hfind
  simp only [decide_eq_true_eq] at htype
  have hfront' : ∀ other ∈ front, other.typeByte ≠ want := by simpa using hfront
  refine ⟨htype, front, rest, hheld, hfront', ?_⟩
  rw [hheld, List.eraseP_append_right _ (by simpa using hfront'),
    List.eraseP_cons_of_pos (by simpa using htype)]

theorem length_takeMatching {m next : Mux} {want : Byte} {frame : Frame}
    (htake : m.takeMatching want = some (frame, next)) :
    next.held.length < m.held.length := by
  obtain ⟨-, front, rest, hheld, -, rfl⟩ := takeMatching_eq_some htake
  simp [hheld]

end Mux

/-! ## What has arrived of a stream of frames -/

/-- The frames of a stream whose last byte is among the first `count` bytes. -/
def arrived : List Frame → ℕ → List Frame
  | [], _ => []
  | frame :: frames, count =>
      if (encode frame).length ≤ count then
        frame :: arrived frames (count - (encode frame).length)
      else []

theorem look_part_eq_none {frame : Frame} (hframe : frame.Whole) {count : ℕ}
    (hcount : count < (encode frame).length) :
    wire.look ((encode frame).take count) = none := by
  rcases hlook : wire.look ((encode frame).take count) with _ | ⟨used, token⟩
  · rfl
  · have hle := wire.look_le hlook
    have hmore := wire.look_append hlook ((encode frame).drop count)
    have hencode := look_encode hframe []
    rw [List.append_nil] at hencode
    rw [List.take_append_drop, hencode, Option.some.injEq, Prod.mk.injEq] at hmore
    rw [List.length_take] at hle
    omega

/-- The decoder recognises the frames that have arrived and waits for the rest
of the next one. -/
theorem run_take {frames : List Frame} (hframes : ∀ frame ∈ frames, frame.Whole) (count : ℕ) :
    framesOf (run wire ((frames.flatMap encode).take count)).1 = arrived frames count := by
  induction frames generalizing count with
  | nil => simp [arrived, run_eq_of_scans (.refl []) (S := wire) rfl, framesOf]
  | cons frame frames ih =>
      have hhead := hframes frame (List.mem_cons_self ..)
      have htail := ih fun other hother => hframes other (List.mem_cons_of_mem _ hother)
      rw [List.flatMap_cons, arrived]
      split
      · rename_i hcount
        rw [List.take_append, List.take_of_length_le hcount]
        have hscan := Scans.single (S := wire) (look_encode hhead
          ((frames.flatMap encode).take (count - (encode frame).length)))
        rw [List.drop_left' rfl] at hscan
        rw [run_of_scans hscan, framesOf_append, htail]
        rfl
      · rename_i hcount
        rw [List.take_append_of_le_length (by omega)]
        have hwait := look_part_eq_none hhead (not_le.mp hcount)
        rw [run_eq_of_scans (.refl _) hwait]
        rfl

end Baonix.Proto

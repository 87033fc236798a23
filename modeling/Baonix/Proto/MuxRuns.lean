import Baonix.Proto.Mux

/-!
# What a demultiplexer delivers

A caller pushes a stream in pieces, and between the pieces takes frames of any type, the
console bytes and the noise.  What it has been handed, together with what is still held,
is what the stream carries, in the order of the stream and each thing once.
-/

namespace Baonix.Proto

open Baonix.LittleEndian Baonix.Scanning

namespace Mux

/-- One call on a demultiplexer. -/
inductive Call
  | push (bytes : List Byte)
  | takeMatching (want : Byte)
  | takeConsole
  | takeNoise
  deriving DecidableEq

/-- What a caller has been handed. -/
structure Handed where
  frames : List Frame
  console : List Byte
  deriving DecidableEq

def Handed.append (first second : Handed) : Handed :=
  ⟨first.frames ++ second.frames, first.console ++ second.console⟩

def perform (m : Mux) : Call → Handed × Mux
  | .push bytes => (⟨[], []⟩, m.push bytes)
  | .takeMatching want =>
      match m.takeMatching want with
      | none => (⟨[], []⟩, m)
      | some (frame, next) => (⟨[frame], []⟩, next)
  | .takeConsole => (⟨[], m.takeConsole.1⟩, m.takeConsole.2)
  | .takeNoise => (⟨[], []⟩, m.takeNoise.2)

/-- A sequence of calls. -/
def play : List Call → Mux → Handed × Mux
  | [], m => (⟨[], []⟩, m)
  | call :: calls, m =>
      let first := m.perform call
      let rest := play calls first.2
      (first.1.append rest.1, rest.2)

def Call.pushed : Call → List Byte
  | .push bytes => bytes
  | _ => []

/-- The bytes a sequence of calls pushes. -/
def pushed (calls : List Call) : List Byte := calls.flatMap Call.pushed

/-- A new demultiplexer: a plain one, or one that captures noise up to a cap. -/
def fresh : Option ℕ → Mux
  | none => new
  | some cap => capturingNoiseCapped cap

/-- The frames in a stream. -/
def framesIn (stream : List Byte) : List Frame := framesOf (run wire stream).1

/-- Of frames, those of a type. -/
def ofType (want : Byte) (frames : List Frame) : List Frame := frames.filter (·.typeByte = want)

theorem ofType_append (want : Byte) (first second : List Frame) :
    ofType want (first ++ second) = ofType want first ++ ofType want second :=
  List.filter_append ..

theorem ofType_cons_of_eq {want : Byte} {frame : Frame} (htype : frame.typeByte = want)
    (rest : List Frame) : ofType want (frame :: rest) = frame :: ofType want rest :=
  List.filter_cons_of_pos (decide_eq_true htype)

theorem ofType_cons_of_ne {want : Byte} {frame : Frame} (htype : frame.typeByte ≠ want)
    (rest : List Frame) : ofType want (frame :: rest) = ofType want rest :=
  List.filter_cons_of_neg fun hheld => htype (of_decide_eq_true hheld)

theorem ofType_eq_nil {want : Byte} {frames : List Frame}
    (hother : ∀ frame ∈ frames, frame.typeByte ≠ want) : ofType want frames = [] := by
  rw [ofType, List.filter_eq_nil_iff]
  intro frame hframe
  rw [decide_eq_true_iff]
  exact hother frame hframe

/-- After `stream` was pushed, what has been handed out and what is held make up what
the stream carries. -/
structure Accounts (stream : List Byte) (handed : Handed) (m : Mux) : Prop where
  buf : m.dec.buf = (run wire stream).2
  console : handed.console ++ m.console = (framesIn stream).flatMap Frame.consoleBytes
  frames : ∀ want, ofType want handed.frames ++ ofType want m.held =
    ofType want ((framesIn stream).filter Frame.isHeld)

theorem accounts_fresh (cap : Option ℕ) : Accounts [] ⟨[], []⟩ (fresh cap) := by
  have hrun : run wire [] = ([], []) := run_eq_of_scans (.refl _) rfl
  cases cap <;> constructor <;> simp [fresh, new, capturingNoiseCapped, Decoder.new,
    Decoder.capturingNoiseCapped, framesIn, framesOf, hrun, ofType]

theorem framesIn_append (stream bytes : List Byte) :
    framesIn (stream ++ bytes) =
      framesIn stream ++ framesOf (run wire ((run wire stream).2 ++ bytes)).1 := by
  rw [framesIn, framesIn, run_append, framesOf_append]

namespace Accounts

variable {stream : List Byte} {handed : Handed} {m : Mux}

theorem push (haccounts : Accounts stream handed m) (bytes : List Byte) :
    Accounts (stream ++ bytes) handed (m.push bytes) := by
  have hbuf : (m.dec.push bytes).buf = (run wire stream).2 ++ bytes := by
    rw [Decoder.push, haccounts.buf]
  have hdrain := Decoder.drain_eq_run (m.dec.push bytes)
  rw [hbuf] at hdrain
  have hcompleted : framesIn (stream ++ bytes) = framesIn stream ++ m.completed bytes := by
    rw [framesIn_append, completed, hdrain.1]
  constructor
  · rw [dec_push, hdrain.2]
    exact (congrArg Prod.snd (run_append wire stream bytes)).symm
  · rw [console_push, hcompleted, List.flatMap_append, ← haccounts.console, List.append_assoc]
  · intro want
    rw [held_push, hcompleted, List.filter_append, ofType_append, ofType_append,
      ← haccounts.frames want, List.append_assoc]

/-- The frame taken is the first of its type; those of other types stay in their order. -/
theorem takeMatching (haccounts : Accounts stream handed m) (want : Byte) :
    Accounts stream (handed.append (m.perform (.takeMatching want)).1)
      (m.perform (.takeMatching want)).2 := by
  rw [perform]
  cases htake : m.takeMatching want with
  | none =>
      dsimp only
      rw [Handed.append, List.append_nil, List.append_nil]
      exact haccounts
  | some taken =>
      obtain ⟨frame, next⟩ := taken
      obtain ⟨htype, front, rest, hheld, hfront, rfl⟩ := takeMatching_eq_some htake
      dsimp only [Handed.append]
      refine ⟨haccounts.buf, ?_, fun other => ?_⟩
      · rw [List.append_nil]
        exact haccounts.console
      · rw [← haccounts.frames other, hheld, ofType_append, ofType_append, ofType_append,
          List.append_assoc]
        by_cases hother : frame.typeByte = other
        · have hnone : ofType other front = [] :=
            ofType_eq_nil fun before hbefore => by rw [← hother, htype]; exact hfront before hbefore
          rw [hnone, List.nil_append, List.nil_append, ← ofType_append, List.singleton_append]
        · rw [ofType_cons_of_ne hother, ofType_cons_of_ne hother]
          rfl

theorem takeConsole (haccounts : Accounts stream handed m) :
    Accounts stream (handed.append ⟨[], m.takeConsole.1⟩) m.takeConsole.2 := by
  refine ⟨haccounts.buf, ?_, fun want => ?_⟩
  · rw [Handed.append, Mux.takeConsole, List.append_nil]
    exact haccounts.console
  · rw [Handed.append, List.append_nil]
    exact haccounts.frames want

/-- **One call** keeps the account. -/
theorem perform (haccounts : Accounts stream handed m) (call : Call) :
    Accounts (stream ++ call.pushed) (handed.append (m.perform call).1) (m.perform call).2 := by
  have hnothing : handed.append ⟨[], []⟩ = handed := by
    rw [Handed.append, List.append_nil, List.append_nil]
  have hquiet : stream ++ [] = stream := List.append_nil _
  cases call with
  | push bytes =>
      rw [Mux.perform, hnothing]
      exact haccounts.push bytes
  | takeMatching want => exact hquiet.symm ▸ haccounts.takeMatching want
  | takeConsole => exact hquiet.symm ▸ haccounts.takeConsole
  | takeNoise =>
      rw [Mux.perform, hnothing]
      exact hquiet.symm ▸ ⟨haccounts.buf, haccounts.console, haccounts.frames⟩

/-- **Every sequence of calls** keeps it. -/
theorem play (haccounts : Accounts stream handed m) (calls : List Call) :
    Accounts (stream ++ pushed calls) (handed.append (play calls m).1) (play calls m).2 := by
  induction calls generalizing stream handed m with
  | nil =>
      rw [pushed, List.flatMap_nil, List.append_nil, Mux.play, Handed.append, List.append_nil,
        List.append_nil]
      exact haccounts
  | cons call calls ih =>
      have hrest := ih (haccounts.perform call)
      rw [pushed, List.flatMap_cons, ← List.append_assoc]
      simp only [Handed.append, List.append_assoc] at hrest
      rw [Mux.play, Handed.append, List.append_assoc]
      exact hrest

end Accounts

/-- Calls for frames of a type are handed those that are held, in order, as far as they
go. -/
theorem play_takeMatching (want : Byte) (count : ℕ) (m : Mux) :
    (play (List.replicate count (.takeMatching want)) m).1.frames =
      (ofType want m.held).take count := by
  induction count generalizing m with
  | zero => rfl
  | succ count ih =>
      rw [List.replicate_succ, play, Handed.append, perform]
      dsimp only
      rw [ih]
      cases htake : m.takeMatching want with
      | none =>
          rw [ofType_eq_nil (takeMatching_eq_none.mp htake), List.take_nil, List.take_nil,
            List.append_nil]
      | some taken =>
          obtain ⟨frame, next⟩ := taken
          obtain ⟨htype, front, rest, hheld, hfront, rfl⟩ := takeMatching_eq_some htake
          dsimp only
          rw [hheld, ofType_append, ofType_append, ofType_eq_nil hfront, List.nil_append,
            List.nil_append, ofType_cons_of_eq htype, List.take_succ_cons, List.singleton_append]

/-- **Everything is delivered exactly once.**  Whatever stream is pushed in whatever
pieces, and however the calls are interleaved with the pieces: the console bytes handed
out, followed by those the next `take_console` returns, are the payloads of the console
frames of the stream; and for each type the frames handed out, followed by those that
calls for this type will return, are the other frames of the stream of this type, in
their order. -/
theorem mux_delivers (cap : Option ℕ) (calls : List Call) :
    (play calls (fresh cap)).1.console ++ (play calls (fresh cap)).2.takeConsole.1 =
        (framesIn (pushed calls)).flatMap Frame.consoleBytes ∧
      ∀ want, ∃ pending : List Frame,
        ofType want (play calls (fresh cap)).1.frames ++ pending =
            ofType want ((framesIn (pushed calls)).filter Frame.isHeld) ∧
          ∀ count, (play (List.replicate count (.takeMatching want))
            (play calls (fresh cap)).2).1.frames = pending.take count := by
  have haccounts := (accounts_fresh cap).play calls
  rw [List.nil_append] at haccounts
  refine ⟨haccounts.console, fun want => ?_⟩
  exact ⟨ofType want (play calls (fresh cap)).2.held, haccounts.frames want,
    fun count => play_takeMatching want count _⟩

end Mux

end Baonix.Proto

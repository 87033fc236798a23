import Baonix.Badge.Escapes

/-!
# The console on the screen

The sink behind the guest's console writes into the grid and leaves it to `flush` to
catch the display up.  The log lines are left out.
-/

namespace Baonix.Badge

open Baonix.Core (ConsoleSink)
open Baonix.LittleEndian
open Baonix.Host (ascii)

inductive ScreenError
  | draw
  | flush
  deriving DecidableEq

/-- `Screen`: paints a frame, or a distress pattern when that does not work. -/
class Screen (S : Type) where
  draw : List Byte → S → Except ScreenError Unit × S
  alert : S → S

/-- Consecutive failed draws before the alert. -/
def alertAfter : BitVec 32 := 3

/-- The spinner, in order. -/
def heartbeatMarks : List Byte := ascii "|/-\\"

def lineFeed : Byte := 0x0a

/-- `OledSink`. -/
structure OledSink (S : Type) where
  grid : Grid
  screen : S
  pending : Bool
  beat : BitVec 32
  heartbeat : Bool
  frames : BitVec 32
  fails : BitVec 32
  streak : BitVec 32

/-- The rows of a grid, joined by line feeds. -/
def joined (cells : Fin rows → Row) : List Byte :=
  (List.finRange rows).flatMap fun row =>
    (if 0 < row then [lineFeed] else []) ++ List.ofFn (cells row)

/-- The mark a beat shows. -/
def markOf (beat : BitVec 32) : Byte :=
  heartbeatMarks.getD (beat.toNat % heartbeatMarks.length) space

namespace OledSink

variable {S : Type}

/-- `OledSink::frame`: the rows, with the mark in the last cell if that is blank. -/
def frame (s : OledSink S) : List Byte :=
  let buf := joined s.grid.cells
  let last := buf.length - 1
  if s.heartbeat ∧ buf[last]? = some space then buf.set last (markOf s.beat) else buf

/-- What a draw that worked leaves. -/
def drawn (s : OledSink S) (screen : S) : OledSink S :=
  { s with screen := screen, pending := false, frames := s.frames + 1, streak := 0 }

/-- What a draw that failed leaves: the frame stays owed. -/
def missed [Screen S] (s : OledSink S) (screen : S) : OledSink S :=
  let s := { s with screen := screen, fails := s.fails + 1, streak := s.streak + 1 }
  if s.streak = alertAfter then { s with screen := Screen.alert s.screen } else s

/-- `OledSink::flush`. -/
def flush [Screen S] (s : OledSink S) : OledSink S :=
  let (dirty, grid) := s.grid.takeDirty
  let s := { s with grid := grid, pending := dirty || s.pending }
  if ¬s.pending then s
  else
    match Screen.draw s.frame s.screen with
    | (.ok (), screen) => s.drawn screen
    | (.error _, screen) => s.missed screen

/-- `OledSink::with_screen`. -/
def withScreen [Screen S] (screen : S) : OledSink S :=
  flush ⟨Grid.new, screen, true, 0, true, 0, 0, 0⟩

def tick (s : OledSink S) : OledSink S := { s with beat := s.beat + 1, pending := true }

def setHeartbeat (s : OledSink S) (on : Bool) : OledSink S :=
  { s with heartbeat := on, pending := true }

def put (s : OledSink S) (byte : Byte) : OledSink S := { s with grid := s.grid.put byte }

end OledSink

instance {S : Type} : ConsoleSink (OledSink S) := ⟨OledSink.put⟩

/-- The last column of a row. -/
def lastCol : Fin cols := ⟨cols - 1, by decide⟩

/-- Cells with a mark in the last one. -/
def marked (cells : Fin rows → Row) (mark : Byte) : Fin rows → Row :=
  Function.update cells lastRow (Function.update (cells lastRow) lastCol mark)

/-- A frame without its last cell. -/
def front (cells : Fin rows → Row) : List Byte :=
  ((List.finRange 7).flatMap fun row =>
    (if 0 < row then [lineFeed] else []) ++ List.ofFn (cells row.castSucc)) ++
  lineFeed :: List.ofFn fun col : Fin 15 => cells lastRow col.castSucc

theorem joined_front (cells : Fin rows → Row) :
    joined cells = front cells ++ [cells lastRow lastCol] := by
  rfl

theorem front_marked (cells : Fin rows → Row) (mark : Byte) :
    front (marked cells mark) = front cells := by
  have hrows : ∀ row : Fin 7, marked cells mark row.castSucc = cells row.castSucc :=
    fun row => Function.update_of_ne (Fin.castSucc_lt_last row).ne _ _
  have hcols : ∀ col : Fin 15,
      marked cells mark lastRow col.castSucc = cells lastRow col.castSucc := by
    intro col
    rw [marked, Function.update_self]
    exact Function.update_of_ne (Fin.castSucc_lt_last col).ne _ _
  simp only [front, hrows, hcols]

theorem marked_last (cells : Fin rows → Row) (mark : Byte) :
    marked cells mark lastRow lastCol = mark := by
  rw [marked, Function.update_self, Function.update_self]

theorem marked_of_ne (cells : Fin rows → Row) (mark : Byte) {row : Fin rows} {col : Fin cols}
    (hlast : ¬(row = lastRow ∧ col = lastCol)) : marked cells mark row col = cells row col := by
  by_cases hrow : row = lastRow
  · subst hrow
    rw [marked, Function.update_self]
    exact Function.update_of_ne (fun hcol => hlast ⟨rfl, hcol⟩) _ _
  · rw [marked, Function.update_of_ne hrow]

theorem joined_eq (cells : Fin rows → Row) :
    joined cells = List.intercalate [lineFeed] (List.ofFn fun row => List.ofFn (cells row)) := by
  rfl

/-- The cells of a frame: those of the grid, with the mark in the last if that is blank. -/
def OledSink.shown {S : Type} (s : OledSink S) : Fin rows → Row :=
  if s.heartbeat ∧ s.grid.cells lastRow lastCol = space then marked s.grid.cells (markOf s.beat)
  else s.grid.cells

theorem OledSink.frame_eq {S : Type} (s : OledSink S) : s.frame = joined s.shown := by
  have hlast : (joined s.grid.cells)[(joined s.grid.cells).length - 1]? =
      some (s.grid.cells lastRow lastCol) := by
    rw [← List.getLast?_eq_getElem?, joined_front, List.getLast?_concat]
  have hset : (joined s.grid.cells).set ((joined s.grid.cells).length - 1) (markOf s.beat) =
      joined (marked s.grid.cells (markOf s.beat)) := by
    rw [joined_front, joined_front, front_marked, marked_last, List.length_append,
      List.length_singleton, Nat.add_sub_cancel, List.set_append_right _ _ (Nat.le_refl _),
      Nat.sub_self, List.set_cons_zero]
  simp only [frame, hlast, hset, Option.some.injEq, shown]
  split_ifs <;> rfl

theorem printable_markOf (beat : BitVec 32) : Printable (markOf beat) := by
  have hmarks : ∀ index < heartbeatMarks.length, Printable (heartbeatMarks.getD index space) := by
    decide
  exact hmarks _ (Nat.mod_lt _ (by decide))

/-- A frame cut at its line feeds gives the rows of its cells. -/
theorem splitOn_joined (cells : Fin rows → Row) (hcells : ∀ row col, Printable (cells row col)) :
    (joined cells).splitOn lineFeed = List.ofFn fun row => List.ofFn (cells row) := by
  rw [joined_eq]
  refine List.splitOn_intercalate lineFeed ?_ ?_
  · intro line hline hfeed
    obtain ⟨row, rfl⟩ := List.mem_ofFn.mp hline
    obtain ⟨col, hcol⟩ := List.mem_ofFn.mp hfeed
    exact absurd (hcol ▸ hcells row col) (by decide)
  · exact List.ne_nil_of_length_pos (by rw [List.length_ofFn]; decide)

end Baonix.Badge

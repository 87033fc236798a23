import Baonix.Host.Images

/-!
# The character grid

What the badge's screen says is decided by a grid of eight rows of sixteen
characters.  It takes the guest's console bytes one at a time: it wraps and scrolls,
expands tabs, moves the cursor back and skips escape sequences.
-/

namespace Baonix.Badge

open Baonix.LittleEndian
open Baonix.Host (ascii)

def cols : ℕ := 16
def rows : ℕ := 8

instance : NeZero cols := ⟨by decide⟩
instance : NeZero rows := ⟨by decide⟩

/-- Columns between tab stops. -/
def tab : ℕ := 8

def space : Byte := 0x20
def escape : Byte := 0x1b
def bracket : Byte := 0x5b

/-- `is_ascii_graphic`, or a space. -/
def Printable (byte : Byte) : Prop := 0x20 ≤ byte ∧ byte ≤ 0x7e

instance (byte : Byte) : Decidable (Printable byte) := inferInstanceAs (Decidable (_ ∧ _))

/-- The bytes that end a control sequence. -/
def Final (byte : Byte) : Prop := 0x40 ≤ byte ∧ byte ≤ 0x7e

instance (byte : Byte) : Decidable (Final byte) := inferInstanceAs (Decidable (_ ∧ _))

/-- Where the escape-sequence stripper is between bytes. -/
inductive Esc
  | ground
  | seen
  | csi
  deriving DecidableEq

/-- The row the grid fills once it scrolls. -/
def lastRow : Fin rows := ⟨rows - 1, by decide⟩

abbrev Row := Fin cols → Byte

def blankRow : Row := fun _ => space

/-- The rows rotated up by one, with the last made blank. -/
def scroll (cells : Fin rows → Row) : Fin rows → Row :=
  Function.update (fun row => cells (row + 1)) lastRow blankRow

theorem scroll_last (cells : Fin rows → Row) : scroll cells lastRow = blankRow :=
  Function.update_self ..

theorem scroll_of_ne (cells : Fin rows → Row) {row : Fin rows} (hrow : row ≠ lastRow) :
    scroll cells row = cells (row + 1) :=
  Function.update_of_ne hrow ..

/-- `Grid`.  The cursor may stand behind the last column, which means that a wrap is
pending. -/
@[ext]
structure Grid where
  cells : Fin rows → Row
  row : ℕ
  col : ℕ
  dirty : Bool
  esc : Esc
  row_lt : row < rows
  col_le : col ≤ cols

/-- The column a tab moves to. -/
def tabStop (col : ℕ) : ℕ := min ((col / tab + 1) * tab) cols

namespace Grid

def blank : Grid where
  cells := fun _ => blankRow
  row := 0
  col := 0
  dirty := true
  esc := .ground
  row_lt := by decide
  col_le := by decide

/-- Moves to the next row, scrolling the whole grid up when there is none. -/
def newline (g : Grid) : Grid :=
  if hroom : g.row + 1 < rows then { g with row := g.row + 1, row_lt := hroom }
  else { g with cells := scroll g.cells }

def setCol (g : Grid) (col : ℕ) (hcol : col ≤ cols) : Grid := { g with col := col, col_le := hcol }

@[simp]
theorem newline_col (g : Grid) : g.newline.col = g.col := by
  unfold newline
  split <;> rfl

/-- Places a byte under the cursor, which stands on a column. -/
def place (g : Grid) (byte : Byte) (hcol : g.col < cols) : Grid :=
  { g with
    cells := Function.update g.cells ⟨g.row, g.row_lt⟩
      (Function.update (g.cells ⟨g.row, g.row_lt⟩) ⟨g.col, hcol⟩ byte)
    col := g.col + 1
    col_le := hcol }

/-- Places one printable byte, wrapping first if the cursor is parked past the last
column. -/
def write (g : Grid) (byte : Byte) : Grid :=
  if hcol : g.col = cols then
    (g.setCol 0 (Nat.zero_le _)).newline.place byte (by rw [newline_col]; exact Nat.pos_of_neZero cols)
  else g.place byte (lt_of_le_of_ne g.col_le hcol)

/-- What a byte of ordinary text does. -/
def text (g : Grid) (byte : Byte) : Grid :=
  if byte = escape then { g with esc := .seen }
  else if byte = 0x0a then (g.setCol 0 (Nat.zero_le _)).newline
  else if byte = 0x0d then g.setCol 0 (Nat.zero_le _)
  else if byte = 0x08 then g.setCol (g.col - 1) (le_trans (Nat.sub_le _ _) g.col_le)
  else if byte = 0x09 then (write · space)^[tabStop g.col - g.col] g
  else if Printable byte then g.write byte
  else g

/-- `Grid::put`. -/
def put (g : Grid) (byte : Byte) : Grid :=
  let g := { g with dirty := true }
  match g.esc with
  | .seen => { g with esc := if byte = bracket then .csi else .ground }
  | .csi => if Final byte then { g with esc := .ground } else g
  | .ground => g.text byte

/-- Feeds bytes one at a time. -/
def feed (g : Grid) (bytes : List Byte) : Grid := bytes.foldl put g

/-- `Grid::write_str`. -/
def writeStr (g : Grid) (text : String) : Grid := g.feed (ascii text)

/-- `Grid::new`: a grid holding the boot banner. -/
def new : Grid := (blank.writeStr "rv64 emu 16x8\n").writeStr "0123456789abcdef\n"

/-- `Grid::take_dirty`: the flag, which is cleared. -/
def takeDirty (g : Grid) : Bool × Grid := (g.dirty, { g with dirty := false })

theorem put_ground {g : Grid} (hesc : g.esc = .ground) (byte : Byte) :
    g.put byte = text { g with dirty := true } byte := by
  simp only [put, hesc]

theorem put_seen {g : Grid} (hesc : g.esc = .seen) (byte : Byte) :
    g.put byte = { g with dirty := true, esc := if byte = bracket then .csi else .ground } := by
  simp only [put, hesc]

theorem put_csi {g : Grid} (hesc : g.esc = .csi) (byte : Byte) :
    g.put byte = { g with dirty := true, esc := if Final byte then .ground else .csi } := by
  simp only [put, hesc]
  split_ifs <;> rfl

theorem feed_nil (g : Grid) : g.feed [] = g := rfl

theorem feed_cons (g : Grid) (byte : Byte) (bytes : List Byte) :
    g.feed (byte :: bytes) = (g.put byte).feed bytes := rfl

theorem feed_append (g : Grid) (first second : List Byte) :
    g.feed (first ++ second) = (g.feed first).feed second := List.foldl_append

end Grid

end Baonix.Badge

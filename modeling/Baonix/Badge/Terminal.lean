import Baonix.Badge.Grid

/-!
# The grid and an unbounded terminal

A terminal with rows without end follows the same rules and never scrolls.  The grid
shows its last eight rows, and escape sequences leave no mark on it.
-/

namespace Baonix.Badge

open Baonix.LittleEndian

/-- A terminal with unboundedly many rows. -/
structure Paper where
  cells : ℕ → Row
  row : ℕ
  col : ℕ
  esc : Esc
  col_le : col ≤ cols

namespace Paper

def blank : Paper where
  cells := fun _ => blankRow
  row := 0
  col := 0
  esc := .ground
  col_le := Nat.zero_le _

def setCol (p : Paper) (col : ℕ) (hcol : col ≤ cols) : Paper :=
  { p with col := col, col_le := hcol }

/-- The next row, which is always there. -/
def newline (p : Paper) : Paper := { p with row := p.row + 1 }

def place (p : Paper) (byte : Byte) (hcol : p.col < cols) : Paper :=
  { p with
    cells := Function.update p.cells p.row (Function.update (p.cells p.row) ⟨p.col, hcol⟩ byte)
    col := p.col + 1
    col_le := hcol }

def write (p : Paper) (byte : Byte) : Paper :=
  if hcol : p.col = cols then
    (p.setCol 0 (Nat.zero_le _)).newline.place byte (Nat.pos_of_neZero cols)
  else p.place byte (lt_of_le_of_ne p.col_le hcol)

def text (p : Paper) (byte : Byte) : Paper :=
  if byte = escape then { p with esc := .seen }
  else if byte = 0x0a then (p.setCol 0 (Nat.zero_le _)).newline
  else if byte = 0x0d then p.setCol 0 (Nat.zero_le _)
  else if byte = 0x08 then p.setCol (p.col - 1) (le_trans (Nat.sub_le _ _) p.col_le)
  else if byte = 0x09 then (write · space)^[tabStop p.col - p.col] p
  else if Printable byte then p.write byte
  else p

def put (p : Paper) (byte : Byte) : Paper :=
  match p.esc with
  | .seen => { p with esc := if byte = bracket then .csi else .ground }
  | .csi => if Final byte then { p with esc := .ground } else p
  | .ground => p.text byte

def feed (p : Paper) (bytes : List Byte) : Paper := bytes.foldl put p

/-- Paper with the boot banner on it. -/
def new : Paper := (blank.feed (Host.ascii "rv64 emu 16x8\n")).feed (Host.ascii "0123456789abcdef\n")

/-- The first of the last eight rows. -/
def top (p : Paper) : ℕ := p.row - 7

/-- A row among the last eight. -/
def lastRows (p : Paper) (row : Fin rows) : Row := p.cells (p.top + row)

end Paper

namespace Grid

/-- A grid and the paper it shows the end of. -/
structure Shows (g : Grid) (p : Paper) : Prop where
  esc : g.esc = p.esc
  col : g.col = p.col
  row : g.row = min p.row 7
  cells : g.cells = p.lastRows
  below : ∀ row, p.row < row → p.cells row = blankRow

variable {g : Grid} {p : Paper}

theorem Shows.top_add_row (h : g.Shows p) : p.top + g.row = p.row := by
  rw [h.row, Paper.top]
  omega

theorem shows_blank : blank.Shows .blank := ⟨rfl, rfl, rfl, rfl, fun _ _ => rfl⟩

theorem Shows.setCol (h : g.Shows p) {col : ℕ} (hcol : col ≤ cols) :
    (g.setCol col hcol).Shows (p.setCol col hcol) :=
  ⟨h.esc, rfl, h.row, h.cells, h.below⟩

theorem val_next {row : Fin rows} (hrow : row ≠ lastRow) : (row + 1).val = row.val + 1 := by
  revert row
  decide

/-- While there is room the rows stay where they are; afterwards each moves up by one. -/
theorem Shows.newline (h : g.Shows p) : g.newline.Shows p.newline := by
  have hrow := h.row
  have hbelow : ∀ row, p.row + 1 < row → p.cells row = blankRow :=
    fun row hlt => h.below row (by omega)
  unfold Grid.newline
  split
  case isTrue hroom =>
    have htop : p.newline.top = p.top := by
      simp only [Paper.top, Paper.newline]
      simp only [rows] at hroom
      omega
    refine ⟨h.esc, h.col, ?_, ?_, hbelow⟩
    · simp only [Paper.newline, rows] at hroom ⊢
      omega
    · funext row
      rw [h.cells, Paper.lastRows, Paper.lastRows, htop]
      rfl
  case isFalse hfull =>
    simp only [rows] at hfull
    have htop : p.newline.top = p.top + 1 := by
      simp only [Paper.top, Paper.newline]
      omega
    have hlast : p.top + 7 = p.row := by
      rw [Paper.top]
      omega
    refine ⟨h.esc, h.col, ?_, ?_, hbelow⟩
    · simp only [Paper.newline]
      omega
    · funext row
      rw [Paper.lastRows, htop]
      by_cases hrow : row = lastRow
      · subst hrow
        have hunder : p.row < p.top + 1 + lastRow := by
          simp only [lastRow, rows]
          omega
        exact (scroll_last g.cells).trans (h.below _ hunder).symm
      · have hval := val_next hrow
        simp only [scroll_of_ne _ hrow, h.cells, Paper.lastRows, hval]
        rw [Nat.add_right_comm, Nat.add_assoc]
        rfl

/-- A byte goes to the same place, as only the cursor's row is the cursor's row. -/
theorem Shows.place (h : g.Shows p) (byte : Byte) (hcol : g.col < cols) :
    (g.place byte hcol).Shows (p.place byte (h.col ▸ hcol)) := by
  have hcursor := h.top_add_row
  refine ⟨h.esc, congrArg (· + 1) h.col, h.row, ?_, ?_⟩
  · funext row
    have hplace : p.top + row = p.row ↔ row = ⟨g.row, g.row_lt⟩ := by
      rw [Fin.ext_iff]
      simp only
      omega
    have hline : (p.place byte (h.col ▸ hcol)).lastRows row =
        Function.update p.cells p.row
          (Function.update (p.cells p.row) ⟨p.col, h.col ▸ hcol⟩ byte) (p.top + row) := rfl
    rw [hline]
    by_cases hrow : row = ⟨g.row, g.row_lt⟩
    · have hcell : (⟨g.col, hcol⟩ : Fin cols) = ⟨p.col, h.col ▸ hcol⟩ := Fin.ext h.col
      rw [hplace.mpr hrow, hrow]
      simp only [Grid.place, Function.update_self, h.cells, Paper.lastRows, hcursor, hcell]
    · rw [Function.update_of_ne (fun heq => hrow (hplace.mp heq))]
      simp only [Grid.place, Function.update_of_ne hrow, h.cells, Paper.lastRows]
  · intro row hlt
    simp only [Paper.place] at hlt ⊢
    rw [Function.update_of_ne (by omega)]
    exact h.below row hlt

theorem Shows.write (h : g.Shows p) (byte : Byte) : (g.write byte).Shows (p.write byte) := by
  unfold Grid.write Paper.write
  by_cases hcol : g.col = cols
  · simp only [dif_pos hcol, dif_pos (h.col ▸ hcol : p.col = cols)]
    exact (h.setCol (Nat.zero_le _)).newline.place byte _
  · simp only [dif_neg hcol, dif_neg (h.col ▸ hcol : ¬p.col = cols)]
    exact h.place byte _

theorem Shows.iterate_write (h : g.Shows p) (byte : Byte) (count : ℕ) :
    ((Grid.write · byte)^[count] g).Shows ((Paper.write · byte)^[count] p) := by
  induction count generalizing g p with
  | zero => exact h
  | succ count ih =>
      rw [Function.iterate_succ_apply, Function.iterate_succ_apply]
      exact ih (h.write byte)

theorem Shows.withEsc (h : g.Shows p) (esc : Esc) :
    Shows { g with esc := esc } { p with esc := esc } :=
  ⟨rfl, h.col, h.row, h.cells, h.below⟩

theorem Shows.text (h : g.Shows p) (byte : Byte) : (g.text byte).Shows (p.text byte) := by
  have htab := h.iterate_write space (tabStop g.col - g.col)
  have hback := h.setCol (le_trans (Nat.sub_le _ 1) g.col_le)
  rw [h.col] at htab
  simp only [h.col] at hback
  unfold Grid.text Paper.text
  split_ifs
  · exact h.withEsc .seen
  · exact (h.setCol (Nat.zero_le _)).newline
  · exact h.setCol (Nat.zero_le _)
  · simpa only [h.col] using hback
  · rw [h.col]
    exact htab
  · exact h.write byte
  · exact h

theorem Shows.put (h : g.Shows p) (byte : Byte) : (g.put byte).Shows (p.put byte) := by
  have hdirty : Shows { g with dirty := true } p := ⟨h.esc, h.col, h.row, h.cells, h.below⟩
  have hesc := h.esc
  unfold Paper.put
  split
  case h_1 hseen =>
    rw [Grid.put_seen (hesc.trans hseen)]
    exact hdirty.withEsc _
  case h_2 hcsi =>
    rw [Grid.put_csi (hesc.trans hcsi)]
    split_ifs
    · exact hdirty.withEsc .ground
    · exact ⟨hcsi.symm, h.col, h.row, h.cells, h.below⟩
  case h_3 hground =>
    rw [Grid.put_ground (hesc.trans hground)]
    exact hdirty.text byte

theorem Shows.feed (h : g.Shows p) (bytes : List Byte) : (g.feed bytes).Shows (p.feed bytes) := by
  induction bytes generalizing g p with
  | nil => exact h
  | cons byte bytes ih => exact ih (h.put byte)

theorem shows_new : new.Shows .new := (shows_blank.feed _).feed _

/-- Every cell holds a printable character. -/
def Legible (g : Grid) : Prop := ∀ row col, Printable (g.cells row col)

theorem printable_space : Printable space := by decide

theorem legible_blank : blank.Legible := fun _ _ => printable_space

theorem Legible.newline (h : g.Legible) : g.newline.Legible := by
  unfold Grid.newline
  split
  · exact h
  · intro row col
    by_cases hrow : row = lastRow
    · subst hrow
      simp only [scroll_last]
      exact printable_space
    · simp only [scroll_of_ne _ hrow]
      exact h (row + 1) col

theorem Legible.place (h : g.Legible) {byte : Byte} (hbyte : Printable byte)
    (hcol : g.col < cols) : (g.place byte hcol).Legible := by
  intro row col
  simp only [Grid.place, Function.update_apply, ite_apply]
  split_ifs with hrow hcell
  · exact hbyte
  · exact h _ col
  · exact h row col

theorem Legible.write (h : g.Legible) {byte : Byte} (hbyte : Printable byte) :
    (g.write byte).Legible := by
  unfold Grid.write
  split
  · have hwrapped : (g.setCol 0 (Nat.zero_le _)).Legible := h
    exact hwrapped.newline.place hbyte _
  · exact h.place hbyte _

theorem Legible.iterate_write (h : g.Legible) {byte : Byte} (hbyte : Printable byte) (count : ℕ) :
    ((Grid.write · byte)^[count] g).Legible := by
  induction count generalizing g with
  | zero => exact h
  | succ count ih =>
      rw [Function.iterate_succ_apply]
      exact ih (h.write hbyte)

theorem Legible.text (h : g.Legible) (byte : Byte) : (g.text byte).Legible := by
  unfold Grid.text
  split_ifs with _ _ _ _ _ hbyte
  · exact h
  · exact Legible.newline (g := g.setCol 0 (Nat.zero_le _)) h
  · exact h
  · exact h
  · exact h.iterate_write printable_space _
  · exact h.write hbyte
  · exact h

theorem Legible.put (h : g.Legible) (byte : Byte) : (g.put byte).Legible := by
  cases hesc : g.esc with
  | ground =>
      rw [put_ground hesc]
      exact Legible.text (g := { g with dirty := true }) h byte
  | seen =>
      rw [put_seen hesc]
      exact h
  | csi =>
      rw [put_csi hesc]
      exact h

theorem Legible.feed (h : g.Legible) (bytes : List Byte) : (g.feed bytes).Legible := by
  induction bytes generalizing g with
  | nil => exact h
  | cons byte bytes ih => exact ih (h.put byte)

theorem legible_new : new.Legible := (legible_blank.feed _).feed _

end Grid

end Baonix.Badge

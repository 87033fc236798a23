import Baonix.Badge.Terminal

/-!
# Escape sequences on the grid

An escape sequence is found by reading the stream from its start: it is a control
sequence, or another `ESC` with the one byte behind it.  Taking all of them out of a
stream leaves the grid that it draws as it was.
-/

namespace Baonix.Badge

open Baonix.LittleEndian
open Baonix.Host (ascii)

/-- The parameter and intermediate bytes of a control sequence. -/
def Inner (byte : Byte) : Prop := 0x20 ≤ byte ∧ byte ≤ 0x3f

instance (byte : Byte) : Decidable (Inner byte) := inferInstanceAs (Decidable (_ ∧ _))

/-- How far a reader of a stream is: in text, behind an `ESC`, or in a control sequence
that began with some bytes. -/
inductive Reading
  | text
  | opened
  | sequence (body : List Byte)

/-- The bytes of a sequence that is not at its end. -/
def Reading.held : Reading → List Byte
  | .text => []
  | .opened => [escape]
  | .sequence body => escape :: bracket :: body

/-- A stream without its escape sequences.  A control sequence stays if it is cut off or
holds a byte that none may hold. -/
def stripFrom : Reading → List Byte → List Byte
  | reading, [] => reading.held
  | .text, byte :: bytes =>
      if byte = escape then stripFrom .opened bytes else byte :: stripFrom .text bytes
  | .opened, byte :: bytes =>
      if byte = bracket then stripFrom (.sequence []) bytes else stripFrom .text bytes
  | .sequence body, byte :: bytes =>
      if ¬Final byte then stripFrom (.sequence (body ++ [byte])) bytes
      else if ∀ inner ∈ body, Inner inner then stripFrom .text bytes
      else escape :: bracket :: (body ++ byte :: stripFrom .text bytes)

def stripEscapes (stream : List Byte) : List Byte := stripFrom .text stream

theorem not_final_of_inner {byte : Byte} (hinner : Inner byte) : ¬Final byte := by
  intro hfinal
  simp only [Inner, Final, BitVec.le_def] at hinner hfinal
  exact absurd (le_trans hfinal.1 hinner.2) (by decide)

theorem stripFrom_sequence {body rest : List Byte} {last : Byte} (hlast : Final last) (seen : List Byte)
    (hseen : ∀ inner ∈ seen, Inner inner) (hbody : ∀ inner ∈ body, Inner inner) :
    stripFrom (.sequence seen) (body ++ last :: rest) = stripEscapes rest := by
  induction body generalizing seen with
  | nil => rw [List.nil_append, stripFrom, if_neg (not_not_intro hlast), if_pos hseen, stripEscapes]
  | cons byte body ih =>
      have hbyte := hbody byte List.mem_cons_self
      rw [List.cons_append, stripFrom, if_pos (not_final_of_inner hbyte)]
      refine ih _ ?_ fun inner hmem => hbody inner (List.mem_cons_of_mem _ hmem)
      intro inner hmem
      rcases List.mem_append.mp hmem with hmem | hmem
      · exact hseen inner hmem
      · exact List.mem_singleton.mp hmem ▸ hbyte

/-- A control sequence that is well formed is taken out. -/
theorem stripEscapes_sequence {body : List Byte} {last : Byte}
    (hbody : ∀ inner ∈ body, Inner inner) (hlast : Final last) (rest : List Byte) :
    stripEscapes (escape :: bracket :: (body ++ last :: rest)) = stripEscapes rest := by
  rw [stripEscapes, stripFrom, if_pos rfl, stripFrom, if_pos rfl]
  exact stripFrom_sequence hlast [] (List.forall_mem_nil _) hbody

theorem stripEscapes_pair {byte : Byte} (hbyte : byte ≠ bracket) (rest : List Byte) :
    stripEscapes (escape :: byte :: rest) = stripEscapes rest := by
  rw [stripEscapes, stripFrom, if_pos rfl, stripFrom, if_neg hbyte, stripEscapes]

theorem stripEscapes_text {byte : Byte} (hbyte : byte ≠ escape) (rest : List Byte) :
    stripEscapes (byte :: rest) = byte :: stripEscapes rest := by
  rw [stripEscapes, stripFrom, if_neg hbyte, stripEscapes]

example : stripEscapes (escape :: ascii "[1;34mbusybox" ++ escape :: ascii "[0m ok") =
    ascii "busybox ok" := by decide

namespace Grid

/-- A grid between escape sequences. -/
def InText (g : Grid) : Prop := g.esc = .ground ∧ g.dirty = true

/-- What of a grid only an escape sequence changes. -/
def mode (g : Grid) : Esc × Bool := (g.esc, g.dirty)

theorem newline_mode (g : Grid) : g.newline.mode = g.mode := by
  unfold newline
  split <;> rfl

theorem write_mode (g : Grid) (byte : Byte) : (g.write byte).mode = g.mode := by
  unfold write
  split
  · exact newline_mode (g.setCol 0 (Nat.zero_le _))
  · rfl

theorem iterate_write_mode (g : Grid) (byte : Byte) (count : ℕ) :
    ((write · byte)^[count] g).mode = g.mode := by
  induction count generalizing g with
  | zero => rfl
  | succ count ih => rw [Function.iterate_succ_apply, ih, write_mode]

theorem text_mode (g : Grid) {byte : Byte} (hbyte : byte ≠ escape) :
    (g.text byte).mode = g.mode := by
  unfold text
  rw [if_neg hbyte]
  split_ifs
  · exact newline_mode (g.setCol 0 (Nat.zero_le _))
  · rfl
  · rfl
  · exact iterate_write_mode g space _
  · exact write_mode g byte
  · rfl

variable {g : Grid}

theorem InText.put (h : g.InText) {byte : Byte} (hbyte : byte ≠ escape) : (g.put byte).InText := by
  rw [put_ground h.1]
  have hmode := text_mode { g with dirty := true } hbyte
  exact ⟨(congrArg Prod.fst hmode).trans h.1, congrArg Prod.snd hmode⟩

theorem InText.put_escape (h : g.InText) : g.put escape = { g with esc := .seen } := by
  rw [put_ground h.1, text, if_pos rfl]
  ext1 <;> first | rfl | exact h.2.symm

theorem InText.feed_pair (h : g.InText) {byte : Byte} (hbyte : byte ≠ bracket) (rest : List Byte) :
    g.feed (escape :: byte :: rest) = g.feed rest := by
  have hback : ({ g with esc := .seen } : Grid).put byte = g := by
    rw [put_seen rfl, if_neg hbyte]
    ext1 <;> first | rfl | exact h.1.symm | exact h.2.symm
  rw [feed_cons, feed_cons, h.put_escape, hback]

/-- No byte before the last ends a control sequence. -/
theorem InText.feed_body (h : g.InText) {body : List Byte} (hbody : ∀ byte ∈ body, ¬Final byte)
    {last : Byte} (hlast : Final last) (rest : List Byte) :
    ({ g with esc := .csi } : Grid).feed (body ++ last :: rest) = g.feed rest := by
  induction body with
  | nil =>
      rw [List.nil_append, feed_cons, put_csi rfl, if_pos hlast]
      congr 1
      ext1 <;> first | rfl | exact h.1.symm | exact h.2.symm
  | cons byte body ih =>
      have hstay : ({ g with esc := .csi } : Grid).put byte = { g with esc := .csi } := by
        rw [put_csi rfl, if_neg (hbody byte List.mem_cons_self)]
        ext1 <;> first | rfl | exact h.2.symm
      rw [List.cons_append, feed_cons, hstay]
      exact ih fun inner hmem => hbody inner (List.mem_cons_of_mem _ hmem)

theorem InText.feed_sequence (h : g.InText) {body : List Byte} (hbody : ∀ byte ∈ body, ¬Final byte)
    {last : Byte} (hlast : Final last) (rest : List Byte) :
    g.feed (escape :: bracket :: (body ++ last :: rest)) = g.feed rest := by
  rw [feed_cons, feed_cons, h.put_escape, put_seen rfl, if_pos rfl]
  refine Eq.trans ?_ (h.feed_body hbody hlast rest)
  congr 1
  ext1 <;> first | rfl | exact h.2.symm

end Grid

/-- Reading never stands behind the end of a control sequence. -/
def Reading.Open : Reading → Prop
  | .sequence body => ∀ byte ∈ body, ¬Final byte
  | _ => True

theorem feed_stripFrom {g : Grid} (h : g.InText) (reading : Reading) (hopen : reading.Open)
    (stream : List Byte) : g.feed (stripFrom reading stream) = g.feed (reading.held ++ stream) := by
  induction stream generalizing g reading with
  | nil => rw [stripFrom, List.append_nil]
  | cons byte bytes ih =>
      cases reading with
      | text =>
          rw [stripFrom]
          split_ifs with hbyte
          · subst hbyte
            exact ih h .opened trivial
          · exact ih (h.put hbyte) .text trivial
      | opened =>
          rw [stripFrom]
          split_ifs with hbyte
          · subst hbyte
            exact ih h (.sequence []) (List.forall_mem_nil _)
          · exact (ih h .text trivial).trans (h.feed_pair hbyte bytes).symm
      | sequence body =>
          rw [stripFrom]
          split_ifs with hlast hbody
          · exact (ih h .text trivial).trans (h.feed_sequence hopen hlast bytes).symm
          · rw [h.feed_sequence hopen hlast]
            exact (ih h .text trivial).trans (h.feed_sequence hopen hlast bytes).symm
          · have hnext : ∀ inner ∈ body ++ [byte], ¬Final inner := by
              intro inner hmem
              rcases List.mem_append.mp hmem with hmem | hmem
              · exact hopen inner hmem
              · exact List.mem_singleton.mp hmem ▸ hlast
            refine (ih h (.sequence (body ++ [byte])) hnext).trans ?_
            rw [Reading.held, Reading.held, List.cons_append, List.cons_append, List.append_assoc]
            rfl

theorem feed_stripEscapes {g : Grid} (h : g.InText) (stream : List Byte) :
    g.feed (stripEscapes stream) = g.feed stream :=
  feed_stripFrom h .text trivial stream

theorem inText_blank : Grid.blank.InText := ⟨rfl, rfl⟩

theorem inText_feed {g : Grid} (h : g.InText) {bytes : List Byte}
    (hbytes : ∀ byte ∈ bytes, byte ≠ escape) : (g.feed bytes).InText := by
  induction bytes generalizing g with
  | nil => exact h
  | cons byte bytes ih =>
      exact ih (h.put (hbytes byte List.mem_cons_self))
        fun later hmem => hbytes later (List.mem_cons_of_mem _ hmem)

theorem inText_new : Grid.new.InText :=
  inText_feed (inText_feed inText_blank (by decide)) (by decide)

/-- An escape sequence as the standard forms it: a control sequence, or `ESC`, some
intermediate bytes and a final byte. -/
inductive AnsiEscape : List Byte → Prop
  | control (body : List Byte) (last : Byte) :
      (∀ inner ∈ body, Inner inner) → Final last → AnsiEscape (escape :: bracket :: (body ++ [last]))
  | plain (between : List Byte) (last : Byte) :
      (∀ inner ∈ between, 0x20 ≤ inner ∧ inner ≤ 0x2f) → 0x30 ≤ last ∧ last ≤ 0x7e →
      between ≠ [] ∨ last ≠ bracket → AnsiEscape (escape :: (between ++ [last]))

/-- Feeds one call after the other. -/
def Grid.feedCalls (g : Grid) (calls : List (List Byte)) : Grid := calls.foldl Grid.feed g

theorem feedCalls_eq (g : Grid) (calls : List (List Byte)) :
    g.feedCalls calls = g.feed calls.flatten := by
  induction calls generalizing g with
  | nil => rfl
  | cons call calls ih =>
      rw [List.flatten_cons, Grid.feed_append]
      exact ih (g.feed call)

/-- What the grid is at all times: the last rows of the terminal, all of it printable, with
the cursor inside. -/
def Grid.Faithful (g : Grid) (p : Paper) : Prop :=
  g.cells = p.lastRows ∧ (∀ row col, Printable (g.cells row col)) ∧ g.row < rows ∧ g.col ≤ cols

/-- The grid shows the last rows of an unbounded terminal, and escape sequences leave no
mark on it, wherever the stream is split into calls. -/
theorem grid_shows_terminal (calls : List (List Byte)) :
    ((Grid.new.feedCalls calls).Faithful (Paper.new.feed calls.flatten) ∧
      Grid.new.feedCalls calls = Grid.new.feed (stripEscapes calls.flatten)) ∧
    (Grid.blank.feedCalls calls).Faithful (Paper.blank.feed calls.flatten) ∧
      Grid.blank.feedCalls calls = Grid.blank.feed (stripEscapes calls.flatten) := by
  simp only [feedCalls_eq]
  have hnew := Grid.shows_new.feed calls.flatten
  have hblank := Grid.shows_blank.feed calls.flatten
  exact ⟨⟨⟨hnew.cells, Grid.legible_new.feed _, Grid.row_lt _, Grid.col_le _⟩,
      (feed_stripEscapes inText_new _).symm⟩,
    ⟨hblank.cells, Grid.legible_blank.feed _, Grid.row_lt _, Grid.col_le _⟩,
    (feed_stripEscapes inText_blank _).symm⟩

/-- Of a sequence with an intermediate byte the grid skips all but the final byte. -/
theorem grid_keeps_final :
    AnsiEscape [escape, 0x28, 0x42] ∧
      Grid.blank.feed (ascii "a" ++ [escape, 0x28, 0x42] ++ ascii "b") ≠
        Grid.blank.feed (ascii "a" ++ ascii "b") := by
  refine ⟨.plain [0x28] 0x42 (by decide) (by decide) ?_, ?_⟩
  · decide
  · intro heq
    have hcell : ∀ g g' : Grid, g = g' → g.cells 0 1 = g'.cells 0 1 :=
      fun g g' h => h ▸ rfl
    exact absurd (hcell _ _ heq) (by decide)

end Baonix.Badge

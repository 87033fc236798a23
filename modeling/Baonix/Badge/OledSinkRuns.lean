import Baonix.Badge.OledSink

/-!
# What the screen shows

The sink is called in any order while draws fail as they like.  A screen that keeps a
record of what happened tells what the calls owe to the display, what it displays and
how often the alert was raised.
-/

namespace Baonix.Badge

open Baonix.LittleEndian

/-- One call on the sink. -/
inductive SinkCall
  | put (byte : Byte)
  | tick
  | setHeartbeat (on : Bool)
  | flush
  deriving DecidableEq

/-- A call, a draw and whether it worked, or an alert. -/
inductive ScreenEvent
  | called (call : SinkCall)
  | drew (frame : List Byte) (worked : Bool)
  | alerted
  deriving DecidableEq

/-- A screen with the record of what happened, the latest first. -/
structure Watched (S : Type) where
  screen : S
  log : List ScreenEvent

variable {S : Type}

instance [Screen S] : Screen (Watched S) where
  draw frame watched :=
    let (result, screen) := Screen.draw frame watched.screen
    (result, ⟨screen, .drew frame result.isOk :: watched.log⟩)
  alert watched := ⟨Screen.alert watched.screen, .alerted :: watched.log⟩

/-- The bytes that were put. -/
def putIn (log : List ScreenEvent) : List Byte :=
  log.reverse.filterMap fun event =>
    match event with
    | .called (.put byte) => some byte
    | _ => none

/-- Whether the display is behind: something changed and no draw has worked since. -/
def owedIn : List ScreenEvent → Bool
  | [] => true
  | .called .flush :: log => owedIn log
  | .called _ :: _ => true
  | .drew _ worked :: log => if worked then false else owedIn log
  | .alerted :: log => owedIn log

/-- The frame of the last draw that worked. -/
def displayedIn : List ScreenEvent → Option (List Byte)
  | [] => none
  | .drew frame true :: _ => some frame
  | _ :: log => displayedIn log

/-- Which draws worked, the latest first. -/
def drawsIn (log : List ScreenEvent) : List Bool :=
  log.filterMap fun event =>
    match event with
    | .drew _ worked => some worked
    | _ => none

def alertsIn (log : List ScreenEvent) : ℕ := log.count .alerted

/-- The maximal runs of draws that failed. -/
def failureRuns (draws : List Bool) : List (List Bool) := draws.splitOn true

/-- The draws that failed since one worked. -/
def currentRun (draws : List Bool) : List Bool := (failureRuns draws).headD []

/-- How many runs are long enough for an alert. -/
def outages (draws : List Bool) : ℕ := (failureRuns draws).countP (3 ≤ ·.length)

theorem failureRuns_worked (draws : List Bool) :
    failureRuns (true :: draws) = [] :: failureRuns draws := by
  rw [failureRuns, List.splitOn_cons_eq_if_modifyHead]
  rfl

theorem failureRuns_failed (draws : List Bool) :
    ∃ others, failureRuns draws = currentRun draws :: others ∧
      failureRuns (false :: draws) = (false :: currentRun draws) :: others := by
  have hne : failureRuns draws ≠ [] := List.splitOn_ne_nil true draws
  obtain ⟨run, others, hruns⟩ := List.exists_cons_of_ne_nil hne
  have hcurrent : currentRun draws = run := by
    rw [currentRun, hruns]
    rfl
  refine ⟨others, hcurrent ▸ hruns, ?_⟩
  rw [failureRuns, List.splitOn_cons_eq_if_modifyHead]
  change (failureRuns draws).modifyHead (List.cons false) = _
  rw [hruns, hcurrent, List.modifyHead_cons]

theorem outages_worked (draws : List Bool) : outages (true :: draws) = outages draws := by
  rw [outages, outages, failureRuns_worked, List.countP_cons_of_neg (by decide)]

/-- A run becomes long enough with its third draw. -/
theorem outages_failed (draws : List Bool) :
    outages (false :: draws) =
      outages draws + if (currentRun draws).length + 1 = 3 then 1 else 0 := by
  obtain ⟨others, hbefore, hafter⟩ := failureRuns_failed draws
  rw [outages, outages, hafter, hbefore, List.countP_cons, List.countP_cons, List.length_cons]
  simp only [decide_eq_true_eq]
  split_ifs <;> omega

/-- No run is as long as the streak can count. -/
def ShortRuns (draws : List Bool) : Prop := ∀ run ∈ failureRuns draws, run.length < 2 ^ 32

theorem ShortRuns.of_cons {worked : Bool} {draws : List Bool} (h : ShortRuns (worked :: draws)) :
    ShortRuns draws := by
  cases worked with
  | true =>
      intro run hrun
      refine h run ?_
      rw [failureRuns_worked]
      exact List.mem_cons_of_mem _ hrun
  | false =>
      obtain ⟨others, hbefore, hafter⟩ := failureRuns_failed draws
      intro run hrun
      rw [hbefore] at hrun
      rcases List.mem_cons.mp hrun with rfl | hrun
      · have hlonger := h (false :: currentRun draws) (hafter ▸ List.mem_cons_self)
        rw [List.length_cons] at hlonger
        omega
      · exact h run (hafter ▸ List.mem_cons_of_mem _ hrun)

theorem ShortRuns.current_lt {draws : List Bool} (h : ShortRuns (false :: draws)) :
    (currentRun draws).length + 1 < 2 ^ 32 := by
  obtain ⟨others, -, hafter⟩ := failureRuns_failed draws
  exact h (false :: currentRun draws) (hafter ▸ List.mem_cons_self)

namespace OledSink

def perform {T : Type} [Screen T] (s : OledSink T) : SinkCall → OledSink T
  | .put byte => s.put byte
  | .tick => s.tick
  | .setHeartbeat on => s.setHeartbeat on
  | .flush => s.flush

def log (s : OledSink (Watched S)) : List ScreenEvent := s.screen.log

/-- A call, which goes into the record. -/
def step [Screen S] (s : OledSink (Watched S)) (call : SinkCall) : OledSink (Watched S) :=
  perform { s with screen := { s.screen with log := .called call :: s.log } } call

def play [Screen S] (s : OledSink (Watched S)) (calls : List SinkCall) : OledSink (Watched S) :=
  calls.foldl step s

/-- A sink on a watched screen, after some calls. -/
def after [Screen S] (screen : S) (calls : List SinkCall) : OledSink (Watched S) :=
  (withScreen ⟨screen, []⟩).play calls

/-- The sink without the record. -/
def forget (s : OledSink (Watched S)) : OledSink S := { s with screen := s.screen.screen }

/-- Whether a frame is owed. -/
def owes {T : Type} (s : OledSink T) : Bool := s.grid.dirty || s.pending

/-- A sink that is about to draw, or has nothing to draw. -/
def caught {T : Type} (s : OledSink T) : OledSink T :=
  { s with grid := { s.grid with dirty := false }, pending := s.owes }

theorem flush_idle {T : Type} [Screen T] {s : OledSink T} (howes : s.owes = false) :
    s.flush = s.caught := by
  rw [owes] at howes
  simp only [flush, Grid.takeDirty, caught, owes, howes, Bool.false_eq_true, not_false_eq_true,
    if_true]

theorem flush_owed {T : Type} [Screen T] {s : OledSink T} (howes : s.owes = true) :
    s.flush =
      match Screen.draw s.caught.frame s.screen with
      | (.ok (), screen) => s.caught.drawn screen
      | (.error _, screen) => s.caught.missed screen := by
  have hpending : ¬¬s.caught.pending = true := not_not_intro howes
  exact if_neg hpending

/-- What a flush of an owed frame can come to. -/
theorem flush_cases [Screen S] {s : OledSink (Watched S)} (howes : s.owes = true) :
    (∃ screen, s.flush = s.caught.drawn ⟨screen, .drew s.frame true :: s.log⟩) ∨
      ∃ screen, s.flush = s.caught.missed ⟨screen, .drew s.frame false :: s.log⟩ := by
  have hwatched : Screen.draw s.caught.frame s.screen =
      ((Screen.draw s.frame s.screen.screen).1,
        ⟨(Screen.draw s.frame s.screen.screen).2,
          .drew s.frame (Screen.draw s.frame s.screen.screen).1.isOk :: s.log⟩) := rfl
  rw [flush_owed howes, hwatched]
  cases (Screen.draw s.frame s.screen.screen).1 with
  | ok => exact .inl ⟨_, rfl⟩
  | error err => exact .inr ⟨_, rfl⟩

/-- A draw that failed is the third of its run, or no alert is raised. -/
theorem missed_cases [Screen S] (s : OledSink (Watched S)) (screen : Watched S) :
    (s.streak + 1 = alertAfter ∧ ∃ inner, s.missed screen =
      { s with
        screen := ⟨inner, .alerted :: screen.log⟩
        fails := s.fails + 1
        streak := s.streak + 1 }) ∨
    (s.streak + 1 ≠ alertAfter ∧ s.missed screen =
      { s with screen := screen, fails := s.fails + 1, streak := s.streak + 1 }) := by
  simp only [missed]
  by_cases hthird : s.streak + 1 = alertAfter
  · refine .inl ⟨hthird, Screen.alert screen.screen, ?_⟩
    rw [if_pos hthird]
    rfl
  · exact .inr ⟨hthird, if_neg hthird⟩

end OledSink

theorem Grid.dirty_put (g : Grid) (byte : Byte) : (g.put byte).dirty = true := by
  cases hesc : g.esc with
  | ground =>
      rw [Grid.put_ground hesc]
      by_cases hbyte : byte = escape
      · rw [Grid.text, if_pos hbyte]
      · exact congrArg Prod.snd (Grid.text_mode { g with dirty := true } hbyte)
  | seen => rw [Grid.put_seen hesc]
  | csi => rw [Grid.put_csi hesc]

/-- A frame of a grid: eight rows of sixteen printable characters, those of the grid but
for a mark in the last cell, which only takes the place of a blank. -/
def FrameOf (frame : List Byte) (g : Grid) : Prop :=
  ∃ shown : Fin rows → Row,
    frame.splitOn lineFeed = List.ofFn (fun row => List.ofFn (shown row)) ∧
    (∀ row col, Printable (shown row col)) ∧
    ∀ row col, shown row col = g.cells row col ∨
      g.cells row col = space ∧ row = lastRow ∧ col = lastCol

/-- Every frame drawn was one of the bytes put before. -/
def FramesSound : List ScreenEvent → Prop
  | [] => True
  | .drew frame _ :: log => FrameOf frame (Grid.new.feed (putIn log)) ∧ FramesSound log
  | _ :: log => FramesSound log

theorem FramesSound.frameOf {log : List ScreenEvent} (h : FramesSound log)
    {later before : List ScreenEvent} {frame : List Byte} {worked : Bool}
    (hlog : log = later ++ .drew frame worked :: before) :
    FrameOf frame (Grid.new.feed (putIn before)) := by
  subst hlog
  induction later with
  | nil => exact h.1
  | cons event later ih =>
      cases event with
      | called call => exact ih h
      | drew frame worked => exact ih h.2
      | alerted => exact ih h

theorem putIn_cons (event : ScreenEvent) (log : List ScreenEvent) :
    putIn (event :: log) = putIn log ++ putIn [event] := by
  simp only [putIn, List.reverse_cons, List.filterMap_append, List.reverse_nil, List.nil_append]

theorem putIn_skip {event : ScreenEvent} (hevent : putIn [event] = []) (log : List ScreenEvent) :
    putIn (event :: log) = putIn log := by
  rw [putIn_cons, hevent, List.append_nil]

namespace OledSink

theorem frameOf_frame {s : OledSink S} {g : Grid} (hcells : s.grid.cells = g.cells)
    (hlegible : g.Legible) : FrameOf s.frame g := by
  have hsame : ∀ row col, s.shown row col = g.cells row col ∨
      g.cells row col = space ∧ row = lastRow ∧ col = lastCol := by
    intro row col
    rw [shown, hcells]
    split_ifs with hmark
    · by_cases hlast : row = lastRow ∧ col = lastCol
      · obtain ⟨rfl, rfl⟩ := hlast
        exact .inr ⟨hmark.2, rfl, rfl⟩
      · exact .inl (marked_of_ne _ _ hlast)
    · exact .inl rfl
  have hprintable : ∀ row col, Printable (s.shown row col) := by
    intro row col
    rw [shown, hcells]
    split_ifs
    · by_cases hlast : row = lastRow ∧ col = lastCol
      · obtain ⟨rfl, rfl⟩ := hlast
        rw [marked_last]
        exact printable_markOf s.beat
      · rw [marked_of_ne _ _ hlast]
        exact hlegible row col
    · exact hlegible row col
  refine ⟨s.shown, ?_, hprintable, hsame⟩
  rw [frame_eq]
  exact splitOn_joined _ hprintable

/-- What the record says of the sink that made it. -/
structure Tracks (s : OledSink (Watched S)) : Prop where
  owed : s.owes = owedIn s.log
  displayed : s.owes = false → displayedIn s.log = some s.frame
  grid : s.grid = { Grid.new.feed (putIn s.log) with dirty := s.grid.dirty }
  streak : s.streak = BitVec.ofNat 32 (currentRun (drawsIn s.log)).length
  alerts : ShortRuns (drawsIn s.log) → alertsIn s.log = outages (drawsIn s.log)
  frames : FramesSound s.log

theorem tracks_start (screen : S) :
    Tracks ⟨Grid.new, ⟨screen, []⟩, true, 0, true, 0, 0, 0⟩ where
  owed := Bool.or_true _
  displayed howes := by
    rw [owes, Bool.or_true] at howes
    cases howes
  grid := rfl
  streak := rfl
  alerts _ := rfl
  frames := trivial

variable {s : OledSink (Watched S)}

/-- The sink with a call in the record. -/
def noted (s : OledSink (Watched S)) (call : SinkCall) : OledSink (Watched S) :=
  { s with screen := { s.screen with log := .called call :: s.log } }

theorem step_eq [Screen S] (s : OledSink (Watched S)) (call : SinkCall) :
    s.step call = (s.noted call).perform call := rfl

theorem Tracks.noted_flush (h : s.Tracks) : (s.noted .flush).Tracks where
  owed := h.owed
  displayed := h.displayed
  grid := by
    rw [show putIn (noted s .flush).log = putIn s.log from putIn_skip rfl s.log]
    exact h.grid
  streak := h.streak
  alerts := h.alerts
  frames := h.frames

/-- The calls other than a flush owe a frame and draw nothing. -/
theorem Tracks.of_call {call : SinkCall} {next : OledSink (Watched S)} (h : s.Tracks)
    (hcall : call ≠ .flush) (howes : next.owes = true) (hlog : next.log = .called call :: s.log)
    (hgrid : next.grid = { Grid.new.feed (putIn next.log) with dirty := next.grid.dirty })
    (hstreak : next.streak = s.streak) : next.Tracks where
  owed := by
    rw [howes, hlog]
    cases call with
    | flush => exact absurd rfl hcall
    | put byte => rfl
    | tick => rfl
    | setHeartbeat on => rfl
  displayed hidle := by
    rw [howes] at hidle
    cases hidle
  grid := hgrid
  streak := by
    rw [hstreak, hlog]
    exact h.streak
  alerts hshort := by
    rw [hlog] at hshort ⊢
    exact (List.count_cons_of_ne (by intro heq; cases heq)).trans (h.alerts hshort)
  frames := by
    rw [hlog]
    exact h.frames

theorem Tracks.grid_clean (h : s.Tracks) :
    ({ s.grid with dirty := false } : Grid) =
      { Grid.new.feed (putIn s.log) with dirty := false } :=
  congrArg (fun g : Grid => { g with dirty := false }) h.grid

theorem Tracks.frameOf (h : s.Tracks) : FrameOf s.frame (Grid.new.feed (putIn s.log)) := by
  have hcells := congrArg Grid.cells h.grid
  exact frameOf_frame hcells (Grid.legible_new.feed _)

theorem Tracks.caught (h : s.Tracks) (howes : s.owes = false) : s.caught.Tracks where
  owed := (Bool.false_or _).trans h.owed
  displayed _ := h.displayed howes
  grid := h.grid_clean
  streak := h.streak
  alerts := h.alerts
  frames := h.frames

theorem Tracks.drawn (h : s.Tracks) (screen : S) :
    (s.caught.drawn ⟨screen, .drew s.frame true :: s.log⟩).Tracks where
  owed := rfl
  displayed _ := rfl
  grid := by
    have hlog : (s.caught.drawn ⟨screen, .drew s.frame true :: s.log⟩).log =
        .drew s.frame true :: s.log := rfl
    rw [hlog, putIn_skip rfl]
    exact h.grid_clean
  streak := by
    change 0 = BitVec.ofNat 32 (currentRun (true :: drawsIn s.log)).length
    rw [currentRun, failureRuns_worked]
    rfl
  alerts hshort := by
    have hbefore := h.alerts hshort.of_cons
    change alertsIn s.log = outages (true :: drawsIn s.log)
    rw [outages_worked, hbefore]
  frames := ⟨h.frameOf, h.frames⟩

/-- After a draw that failed the streak counts the run, so an alert is raised exactly when
the run becomes long enough. -/
theorem Tracks.missed [Screen S] (h : s.Tracks) (howes : s.owes = true) (screen : S) :
    (s.caught.missed ⟨screen, .drew s.frame false :: s.log⟩).Tracks := by
  obtain ⟨others, -, hruns⟩ := failureRuns_failed (drawsIn s.log)
  have hrun : (currentRun (false :: drawsIn s.log)).length =
      (currentRun (drawsIn s.log)).length + 1 := by
    rw [currentRun, hruns]
    rfl
  have hstreak : s.streak + 1 = BitVec.ofNat 32 (currentRun (false :: drawsIn s.log)).length := by
    rw [hrun, h.streak, BitVec.ofNat_add]
    rfl
  have hthird : ShortRuns (false :: drawsIn s.log) →
      (s.streak + 1 = alertAfter ↔ (currentRun (drawsIn s.log)).length + 1 = 3) := by
    intro hshort
    have hlt := hshort.current_lt
    rw [hstreak, hrun, ← BitVec.toNat_inj, BitVec.toNat_ofNat, Nat.mod_eq_of_lt hlt]
    rfl
  have howed : s.caught.owes = owedIn (.drew s.frame false :: s.log) :=
    (Bool.false_or _).trans h.owed
  have hidle : s.caught.owes ≠ false := by
    rw [show s.caught.owes = true from (Bool.false_or _).trans howes]
    decide
  have hdrew : ({ s.grid with dirty := false } : Grid) =
      { Grid.new.feed (putIn (.drew s.frame false :: s.log)) with dirty := false } := by
    rw [putIn_skip rfl]
    exact h.grid_clean
  rcases missed_cases s.caught ⟨screen, .drew s.frame false :: s.log⟩ with
    ⟨halert, inner, hmissed⟩ | ⟨halert, hmissed⟩
  · rw [hmissed]
    refine ⟨howed, fun h => absurd h hidle, ?_, hstreak, ?_, ⟨h.frameOf, h.frames⟩⟩
    · exact hdrew.trans (by rw [← putIn_skip (rfl : putIn [.alerted] = [])]; rfl)
    · intro hshort
      have hbefore := h.alerts hshort.of_cons
      have halerts : alertsIn (.alerted :: .drew s.frame false :: s.log) = alertsIn s.log + 1 :=
        List.count_cons_self
      have hcount : outages (false :: drawsIn s.log) = outages (drawsIn s.log) + 1 := by
        rw [outages_failed, if_pos ((hthird hshort).mp halert)]
      exact halerts.trans (by rw [hbefore, ← hcount]; rfl)
  · rw [hmissed]
    refine ⟨howed, fun h => absurd h hidle, hdrew, hstreak, ?_, ⟨h.frameOf, h.frames⟩⟩
    intro hshort
    have hbefore := h.alerts hshort.of_cons
    change alertsIn s.log = outages (false :: drawsIn s.log)
    rw [outages_failed, if_neg (fun heq => halert ((hthird hshort).mpr heq)), hbefore,
      Nat.add_zero]

theorem Tracks.flush [Screen S] (h : s.Tracks) : s.flush.Tracks := by
  cases howes : s.owes with
  | false =>
      rw [flush_idle howes]
      exact h.caught howes
  | true =>
      rcases flush_cases howes with ⟨screen, hflush⟩ | ⟨screen, hflush⟩
      · rw [hflush]
        exact h.drawn screen
      · rw [hflush]
        exact h.missed howes screen

theorem Tracks.step [Screen S] (h : s.Tracks) (call : SinkCall) : (s.step call).Tracks := by
  cases call with
  | flush => exact h.noted_flush.flush
  | put byte =>
      have hput : putIn (.called (.put byte) :: s.log) = putIn s.log ++ [byte] := putIn_cons _ _
      have hgrid : s.grid.put byte = (Grid.new.feed (putIn s.log)).put byte := by
        rw [h.grid]
        rfl
      refine h.of_call (by intro heq; cases heq) ?_ rfl ?_ rfl
      · exact (congrArg (· || _) (Grid.dirty_put s.grid byte)).trans (Bool.true_or _)
      · change s.grid.put byte = { Grid.new.feed (putIn (.called (.put byte) :: s.log)) with
          dirty := (s.grid.put byte).dirty }
        rw [hput, Grid.feed_append, hgrid]
        rfl
  | tick =>
      refine h.of_call (by intro heq; cases heq) (Bool.or_true _) rfl ?_ rfl
      rw [show putIn (s.step .tick).log = putIn s.log from putIn_skip rfl s.log]
      exact h.grid
  | setHeartbeat on =>
      refine h.of_call (by intro heq; cases heq) (Bool.or_true _) rfl ?_ rfl
      rw [show putIn (s.step (.setHeartbeat on)).log = putIn s.log from putIn_skip rfl s.log]
      exact h.grid

theorem Tracks.play [Screen S] (h : s.Tracks) (calls : List SinkCall) : (s.play calls).Tracks := by
  induction calls generalizing s with
  | nil => exact h
  | cons call calls ih => exact ih (h.step call)

theorem tracks_after [Screen S] (screen : S) (calls : List SinkCall) :
    (after screen calls).Tracks :=
  (tracks_start screen).flush.play calls

/-- The record changes nothing of what the sink does. -/
theorem forget_flush [Screen S] (s : OledSink (Watched S)) : s.flush.forget = s.forget.flush := by
  cases howes : s.owes with
  | false =>
      have hforget : s.forget.owes = false := howes
      rw [flush_idle howes, flush_idle hforget]
      rfl
  | true =>
      have hforget : s.forget.owes = true := howes
      have hwatched : Screen.draw s.caught.frame s.screen =
          ((Screen.draw s.forget.caught.frame s.forget.screen).1,
            ⟨(Screen.draw s.forget.caught.frame s.forget.screen).2,
              .drew s.frame (Screen.draw s.frame s.screen.screen).1.isOk :: s.log⟩) := rfl
      rw [flush_owed howes, flush_owed hforget, hwatched]
      rcases Screen.draw s.forget.caught.frame s.forget.screen with ⟨_ | _, screen⟩
      · simp only [missed]
        by_cases hthird : s.streak + 1 = alertAfter
        · exact (congrArg forget (if_pos hthird)).trans (if_pos hthird).symm
        · exact (congrArg forget (if_neg hthird)).trans (if_neg hthird).symm
      · rfl

theorem forget_play [Screen S] (s : OledSink (Watched S)) (calls : List SinkCall) :
    (s.play calls).forget = calls.foldl perform s.forget := by
  induction calls generalizing s with
  | nil => rfl
  | cons call calls ih =>
      have hstep : (s.step call).forget = s.forget.perform call := by
        cases call with
        | flush => exact forget_flush (s.noted .flush)
        | put byte => rfl
        | tick => rfl
        | setHeartbeat on => rfl
      exact (ih (s.step call)).trans (congrArg (calls.foldl perform) hstep)

/-- A flush of an owed frame draws it, whatever comes of the draw. -/
theorem flush_draws [Screen S] (howes : s.owes = true) :
    s.flush.frame = s.frame ∧ ∃ alert worked,
      s.flush.log = alert ++ .drew s.frame worked :: s.log ∧ ∀ event ∈ alert, event = .alerted := by
  rcases flush_cases howes with ⟨screen, hflush⟩ | ⟨screen, hflush⟩
  · rw [hflush]
    exact ⟨rfl, [], true, rfl, List.forall_mem_nil _⟩
  · rcases missed_cases s.caught ⟨screen, .drew s.frame false :: s.log⟩ with
      ⟨-, inner, hmissed⟩ | ⟨-, hmissed⟩
    · rw [hflush, hmissed]
      exact ⟨rfl, [.alerted], false, rfl, List.forall_mem_singleton.mpr rfl⟩
    · rw [hflush, hmissed]
      exact ⟨rfl, [], false, rfl, List.forall_mem_nil _⟩

/-- The bytes that calls put. -/
def putBy (calls : List SinkCall) : List Byte :=
  calls.filterMap fun call =>
    match call with
    | .put byte => some byte
    | _ => none

theorem putIn_flush [Screen S] (s : OledSink (Watched S)) : putIn s.flush.log = putIn s.log := by
  cases howes : s.owes with
  | false =>
      rw [flush_idle howes]
      rfl
  | true =>
      obtain ⟨-, alert, worked, hlog, halert⟩ := flush_draws howes
      rw [hlog]
      clear hlog
      induction alert with
      | nil => exact putIn_skip rfl s.log
      | cons event alert ih =>
          obtain rfl := halert event List.mem_cons_self
          rw [List.cons_append, putIn_skip rfl]
          exact ih fun event hmem => halert event (List.mem_cons_of_mem _ hmem)

theorem putIn_play [Screen S] (s : OledSink (Watched S)) (calls : List SinkCall) :
    putIn (s.play calls).log = putIn s.log ++ putBy calls := by
  induction calls generalizing s with
  | nil => exact (List.append_nil _).symm
  | cons call calls ih =>
      have hstep : putIn (s.step call).log = putIn s.log ++ putBy [call] := by
        cases call with
        | flush =>
            refine (putIn_flush (s.noted .flush)).trans ?_
            exact putIn_cons (.called .flush) s.log
        | put byte => exact putIn_cons (.called (.put byte)) s.log
        | tick => exact putIn_cons (.called .tick) s.log
        | setHeartbeat on => exact putIn_cons (.called (.setHeartbeat on)) s.log
      refine (ih (s.step call)).trans ?_
      rw [hstep, List.append_assoc, putBy, putBy, putBy, ← List.filterMap_append]
      rfl

theorem putIn_after [Screen S] (screen : S) (calls : List SinkCall) :
    putIn (after screen calls).log = putBy calls := by
  refine (putIn_play _ calls).trans ?_
  rw [withScreen, putIn_flush]
  rfl

end OledSink

/-- No output is lost to a draw that failed.  The grid is that of the bytes put; the sink
owes a frame exactly while the display is behind, and else the display shows its frame; a
flush draws an owed frame; there was one alert for each run of three or more failures; and
each frame drawn was one of the grid of its time. -/
theorem sink_loses_nothing [Screen S] (screen : S) (calls : List SinkCall)
    (hshort : ShortRuns (drawsIn (OledSink.after screen calls).log)) :
    let sink := OledSink.after screen calls
    sink.grid = { Grid.new.feed (OledSink.putBy calls) with dirty := sink.grid.dirty } ∧
    sink.owes = owedIn sink.log ∧
    (sink.owes = false → displayedIn sink.log = some sink.frame) ∧
    (sink.owes = true → ∃ alert worked,
      (sink.step .flush).log =
        alert ++ .drew sink.frame worked :: .called .flush :: sink.log ∧
      ∀ event ∈ alert, event = .alerted) ∧
    alertsIn sink.log = outages (drawsIn sink.log) ∧
    ∀ later frame worked before, sink.log = later ++ .drew frame worked :: before →
      FrameOf frame (Grid.new.feed (putIn before)) := by
  intro sink
  have htracks : sink.Tracks := OledSink.tracks_after screen calls
  have hput : putIn sink.log = OledSink.putBy calls := OledSink.putIn_after screen calls
  refine ⟨hput ▸ htracks.grid, htracks.owed, htracks.displayed, ?_, htracks.alerts hshort, ?_⟩
  · intro howes
    have hnoted : (sink.noted .flush).owes = true := howes
    exact (OledSink.flush_draws hnoted).2
  · intro later frame worked before hlog
    exact htracks.frames.frameOf hlog

/-- A screen whose draws go as a script says. -/
instance : Screen (List Bool) where
  draw _ script := (if script.headD true then .ok () else .error .draw, script.tail)
  alert script := script

theorem sink_loses_nothing_outage :
    alertsIn (OledSink.after [true, false, false, false, false, true]
      [.put 0x61, .flush, .flush, .tick, .flush, .flush, .flush]).log =
    outages [true, false, false, false, false, true] := by
  have hdraws : drawsIn (OledSink.after [true, false, false, false, false, true]
      [.put 0x61, .flush, .flush, .tick, .flush, .flush, .flush]).log =
      [true, false, false, false, false, true] := by decide
  have hshort : ShortRuns [true, false, false, false, false, true] := by
    intro run hrun
    revert run
    decide
  have hrun := sink_loses_nothing [true, false, false, false, false, true]
    [.put 0x61, .flush, .flush, .tick, .flush, .flush, .flush] (hdraws ▸ hshort)
  exact hrun.2.2.2.2.1.trans (congrArg outages hdraws)

end Baonix.Badge

import Baonix.Badge.Link
import Baonix.Proto.MuxRuns

/-!
# Console input over a run of the link

Console frames come in the same stream as the answers to page requests, and are taken in by
`pump`, inside exchanges and in front of a resynchronisation.  A resynchronisation drops the
frame that is partly received.  Apart from this nothing is lost, repeated or reordered.
-/

namespace Baonix.Badge

open Baonix.Core Baonix.LittleEndian Baonix.Scanning Baonix.Proto

/-! ## What one action does to the decoder and the console -/

namespace LinkInner

variable {T : Type}

/-- The decoder and the console bytes are as they were. -/
structure Quiet (before after : LinkInner T) : Prop where
  buf : after.mux.dec.buf = before.mux.dec.buf
  waiting : after.mux.console = before.mux.console
  console : after.console = before.console

/-- The bytes went through the decoder, if there were any. -/
inductive Hears (before : LinkInner T) : List Byte → LinkInner T → Prop
  | nothing {after : LinkInner T} (hquiet : before.Quiet after) : Hears before [] after
  | absorbed {middle : LinkInner T} (hquiet : before.Quiet middle) (bytes : List Byte) :
      Hears before bytes (middle.absorb bytes)

/-- The decoder was replaced; the console bytes that it had completed were kept. -/
structure Resynced (before after : LinkInner T) : Prop where
  buf : after.mux.dec.buf = []
  waiting : after.mux.console = []
  console : after.console = before.console ++ before.mux.console

theorem Quiet.refl (link : LinkInner T) : link.Quiet link := ⟨rfl, rfl, rfl⟩

theorem Quiet.trans {first middle last : LinkInner T} (hfirst : first.Quiet middle)
    (hlast : middle.Quiet last) : first.Quiet last :=
  ⟨hlast.buf.trans hfirst.buf, hlast.waiting.trans hfirst.waiting,
    hlast.console.trans hfirst.console⟩

theorem quiet_stashNoise (link : LinkInner T) : link.Quiet link.stashNoise := by
  rw [stashNoise]
  split <;> exact ⟨rfl, rfl, rfl⟩

theorem t_stashNoise (link : LinkInner T) : link.stashNoise.t = link.t := by
  rw [stashNoise]
  split <;> rfl

variable [Transport T]

theorem quiet_note (link : LinkInner T) (kind : LinkFault) : link.Quiet (link.note kind) := by
  have hstash := quiet_stashNoise
    { link with t := (Transport.status (Transport.takePlatformFault link.t).2).2 }
  exact ⟨hstash.buf, hstash.waiting, hstash.console⟩

theorem t_note (link : LinkInner T) (kind : LinkFault) :
    (link.note kind).t = (Transport.status (Transport.takePlatformFault link.t).2).2 := by
  rw [note]
  exact t_stashNoise _

theorem quiet_sendConsole (bytes : List Byte) (link : LinkInner T) :
    link.Quiet (link.sendConsole bytes).2 := by
  rw [sendConsole]
  split
  · exact .refl link
  · dsimp only
    split
    · exact ⟨rfl, rfl, rfl⟩
    · rename_i err _
      have hnote := quiet_note
        { link with t := (Transport.send (encode (.conOut bytes)) link.t).2, op := none }
        (.ofSend err)
      exact ⟨hnote.buf, hnote.waiting, hnote.console⟩

theorem pump_hears {T : Type} [Polled T] (link : LinkInner T) :
    link.Hears ([.recv (Polled.poll link.t).1].flatMap Event.delivered) link.pump.2 := by
  rw [List.flatMap_singleton, pump]
  cases hreply : (Polled.poll link.t).1 with
  | ok bytes =>
      dsimp only [Event.delivered]
      split
      · rename_i hbytes
        rw [hbytes]
        exact .nothing ⟨rfl, rfl, rfl⟩
      · have hquiet : link.Quiet { link with t := (Polled.poll link.t).2, op := none } :=
          ⟨rfl, rfl, rfl⟩
        exact .absorbed hquiet bytes
  | error err =>
      have hnote := quiet_note { link with t := (Polled.poll link.t).2, op := none } .recvFailed
      exact .nothing ⟨hnote.buf, hnote.waiting, hnote.console⟩

theorem t_giveUp (x : Exchanging T) (fault : LinkFault) :
    (x.giveUp fault).link.t =
      (Transport.status (Transport.takePlatformFault x.link.t).2).2 := by
  rw [Exchanging.giveUp]
  dsimp only
  rw [t_note, resync]
  dsimp only
  rw [t_stashNoise]

theorem resynced_giveUp (x : Exchanging T) (fault : LinkFault) :
    x.link.Resynced (x.giveUp fault).link := by
  have hnote := quiet_note x.link.resync (x.blamed fault)
  have hresync : x.link.resync.console = x.link.console ++ x.link.mux.console := by
    rw [resync]
    exact (quiet_stashNoise _).console
  exact ⟨hnote.buf, hnote.waiting, hnote.console.trans hresync⟩

end LinkInner

open LinkInner (quiet_sendConsole pump_hears resynced_giveUp)

variable {T : Type} [Transport T]

/-- Calls of the transport alone are quiet. -/
theorem Exchanging.Behind.quiet {x after : Exchanging T} {events : List Event}
    (hbehind : x.Behind events after) : x.link.Quiet after.link := by
  rw [hbehind.eq]
  exact ⟨rfl, rfl, rfl⟩

theorem attemptTurn_hears (x : Exchanging T) :
    x.link.Hears ((x.attemptTurn.2.log.drop x.log.length).flatMap Event.delivered)
      x.attemptTurn.2.link := by
  obtain ⟨events, hattempts, hbehind⟩ := x.attemptTurn_calls
  have hretried : x.link.Quiet x.retried.link := by
    constructor <;> simp [Exchanging.retried, discardStaleResponses_eq]
  have hlog : x.attemptTurn.2.log = x.log ++ events := by rw [hbehind.eq]; rfl
  rw [hlog, List.drop_left, hattempts.leads.1]
  exact .nothing (hretried.trans hbehind.quiet)

theorem waits_hears {x after : Exchanging T} {want : Byte} {sentAt : ℕ} {next : Phase}
    (hwaits : x.Waits want sentAt next after) :
    x.link.Hears ((after.log.drop x.log.length).flatMap Event.delivered) after.link := by
  have htaken {ty : Byte} {r : Frame} {mux : Mux} (htake : x.link.mux.takeMatching ty = some (r, mux)) :
      mux.dec.buf = x.link.mux.dec.buf ∧ mux.console = x.link.mux.console := by
    obtain ⟨-, front, rest, -, -, rfl⟩ := Mux.takeMatching_eq_some htake
    exact ⟨rfl, rfl⟩
  have hlogged {after : Exchanging T} {events : List Event} (hbehind : x.Behind events after) :
      after.log.drop x.log.length = events := by
    rw [hbehind.eq]
    exact List.drop_left
  cases hwaits with
  | answered htake hpage =>
      rw [Exchanging.withMux, List.drop_length]
      exact .nothing ⟨(htaken htake).1, (htaken htake).2, rfl⟩
  | otherPage htake =>
      rw [List.drop_length]
      exact .nothing ⟨(htaken htake).1, (htaken htake).2, rfl⟩
  | refused htake =>
      rw [Exchanging.withMux, List.drop_length]
      exact .nothing ⟨(htaken htake).1, (htaken htake).2, rfl⟩
  | stray htake =>
      rw [Exchanging.withMux, List.drop_length]
      exact .nothing ⟨(htaken htake).1, (htaken htake).2, rfl⟩
  | gaveUp fault hafter =>
      rw [hlogged hafter]
      exact .nothing hafter.quiet
  | retry hbudget hafter =>
      have hquiet := hafter.quiet
      rw [hlogged hafter]
      exact .nothing ⟨hquiet.buf, hquiet.waiting, hquiet.console⟩
  | deaf hafter =>
      rw [hlogged hafter]
      exact .nothing hafter.quiet
  | @heard now bytes after hafter =>
      have hdelivered : [Event.clock now, .recv (.ok bytes)].flatMap Event.delivered = bytes :=
        List.append_nil bytes
      rw [(after.deliver_kept bytes).2.2.2.2, hlogged hafter, hdelivered, Exchanging.deliver]
      split
      · rename_i hbytes
        rw [hbytes]
        exact .nothing hafter.quiet
      · exact .absorbed hafter.quiet bytes

/-! ## A run of the link -/

/-- A link in use: the console bytes that `take_console` has returned, and what has been
delivered, cut where the link resynchronised. -/
structure Session (T : Type) where
  activity : Activity T
  handed : List Byte
  closed : List (List Byte)
  stretch : List Byte

namespace Activity

variable {T : Type}

/-- The next turn resynchronises. -/
def breaks : Action → Activity T → Bool
  | .turn, busy _ (.broken _) _ => true
  | _, _ => false

/-- What `take_console` returns. -/
def hands : Action → Activity T → List Byte
  | .takeConsole, idle link => link.takeConsole.1
  | _, _ => []

variable [Polled T]

/-- An action lets the decoder hear what was delivered, hands the console bytes out, or
resynchronises. -/
theorem perform_cases {activity next : Activity T} {action : Action}
    (hnext : activity.perform action = some next) :
    (activity.breaks action = false ∧ activity.hands action = [] ∧
      activity.link.Hears ((activity.events action).flatMap Event.delivered) next.link) ∨
    (activity.breaks action = false ∧ activity.hands action = activity.link.takeConsole.1 ∧
      (activity.events action).flatMap Event.delivered = [] ∧
      next.link = activity.link.takeConsole.2) ∨
    activity.breaks action = true ∧ activity.hands action = [] ∧
      (activity.events action).flatMap Event.delivered = [] ∧
      activity.link.Resynced next.link := by
  cases activity with
  | idle link =>
      cases action with
      | pump =>
          cases hnext
          exact .inl ⟨rfl, rfl, pump_hears link⟩
      | takeConsole =>
          cases hnext
          exact .inr (.inl ⟨rfl, rfl, rfl, rfl⟩)
      | takeFault =>
          cases hnext
          exact .inl ⟨rfl, rfl, .nothing ⟨rfl, rfl, rfl⟩⟩
      | sendConsole bytes =>
          cases hnext
          have hnothing :
              ((Activity.idle link).events (.sendConsole bytes)).flatMap Event.delivered = [] := by
            rw [events]
            split <;> rfl
          rw [hnothing]
          exact .inl ⟨rfl, rfl, .nothing (quiet_sendConsole bytes link)⟩
      | begin request =>
          cases hnext
          exact .inl ⟨rfl, rfl, .nothing ⟨rfl, rfl, rfl⟩⟩
      | turn => cases hnext
      | finish => cases hnext
  | busy request phase x =>
      cases action with
      | turn =>
          cases hnext
          cases phase with
          | attempt => exact .inl ⟨rfl, rfl, attemptTurn_hears x⟩
          | waiting sentAt =>
              exact .inl ⟨rfl, rfl, waits_hears (x.waitTurn_waits request.want sentAt)⟩
          | broken fault =>
              have hnothing :
                  ((Activity.busy request (.broken fault) x).events .turn).flatMap
                    Event.delivered = [] := by
                change ((x.giveUp fault).log.drop x.log.length).flatMap Event.delivered = []
                rw [Exchanging.giveUp, List.drop_length, List.flatMap_nil]
              exact .inr (.inr ⟨rfl, rfl, hnothing, resynced_giveUp x fault⟩)
          | returned result =>
              have hnothing :
                  ((Activity.busy request (.returned result) x).events .turn).flatMap
                    Event.delivered = [] := by
                change (x.log.drop x.log.length).flatMap Event.delivered = []
                rw [List.drop_length, List.flatMap_nil]
              rw [hnothing]
              exact .inl ⟨rfl, rfl, .nothing (.refl x.link)⟩
      | finish =>
          cases phase with
          | returned result =>
              cases hnext
              exact .inl ⟨rfl, rfl, .nothing (.refl x.link)⟩
          | _ => cases hnext
      | _ => cases hnext

end Activity

namespace Session

variable {T : Type}

/-- `UsbHost::new`, before anything was called. -/
def new (t : T) : Session T := ⟨.idle (.new t), [], [], []⟩

/-- The bytes the transport has delivered. -/
def delivered (s : Session T) : List Byte := s.closed.flatten ++ s.stretch

/-- What the next `take_console` returns. -/
def pending (s : Session T) : List Byte := s.activity.link.takeConsole.1

/-- The console bytes of the frames in a stretch. -/
def consoleIn (stretch : List Byte) : List Byte :=
  (Mux.framesIn stretch).flatMap Frame.consoleBytes

/-- The console bytes handed out and pending are those of the stretches, one after the
other, and the decoder has what is left of the last. -/
structure Conserves (s : Session T) : Prop where
  buf : s.activity.link.mux.dec.buf = (Scanning.run wire s.stretch).2
  waiting : s.activity.link.mux.console = []
  console : s.handed ++ s.pending = (s.closed ++ [s.stretch]).flatMap consoleIn

theorem consoleIn_append (stretch bytes : List Byte) :
    consoleIn (stretch ++ bytes) = consoleIn stretch ++
      (framesOf (Scanning.run wire ((Scanning.run wire stretch).2 ++ bytes)).1).flatMap
        Frame.consoleBytes := by
  rw [consoleIn, Mux.framesIn_append, List.flatMap_append, consoleIn]

namespace Conserves

variable {s : Session T}

theorem new (t : T) : Conserves (Session.new t) := by
  have hrun : Scanning.run wire [] = ([], []) := run_eq_of_scans (.refl _) rfl
  constructor
  · rw [Session.new, hrun]
    rfl
  · rfl
  · simp [Session.new, consoleIn, Mux.framesIn, framesOf, hrun]
    rfl

/-- Delivered bytes lengthen the stretch. -/
theorem hears (hs : s.Conserves) {bytes : List Byte} {next : Activity T}
    (hhears : s.activity.link.Hears bytes next.link) :
    Conserves ⟨next, s.handed, s.closed, s.stretch ++ bytes⟩ := by
  have hconsole := hs.console
  rw [List.flatMap_append, List.flatMap_singleton, pending, LinkInner.takeConsole] at hconsole
  generalize hlink : next.link = link at hhears
  cases hhears with
  | nothing hquiet =>
      refine ⟨?_, ?_, ?_⟩
      · rw [hlink, hquiet.buf, hs.buf, List.append_nil]
      · rw [hlink, hquiet.waiting, hs.waiting]
      · rw [List.flatMap_append, List.flatMap_singleton, List.append_nil, pending, LinkInner.takeConsole,
          hlink, hquiet.console]
        exact hconsole
  | @absorbed middle hquiet bytes =>
      have hbuf : (middle.mux.dec.push bytes).buf =
          (Scanning.run wire s.stretch).2 ++ bytes := by
        rw [Decoder.push, hquiet.buf, hs.buf]
      have hdrain := Decoder.drain_eq_run (middle.mux.dec.push bytes)
      rw [hbuf] at hdrain
      refine ⟨?_, ?_, ?_⟩
      · rw [hlink]
        change (middle.mux.push bytes).dec.buf = _
        rw [Mux.dec_push, hdrain.2]
        exact (congrArg Prod.snd (run_append wire s.stretch bytes)).symm
      · rw [hlink]
        rfl
      · rw [List.flatMap_append, List.flatMap_singleton, consoleIn_append, ← List.append_assoc,
          ← hconsole, pending, LinkInner.takeConsole, hlink]
        change s.handed ++ (middle.console ++ (middle.mux.push bytes).console) = _
        rw [Mux.console_push, Mux.completed, hdrain.1, hquiet.console, hquiet.waiting, hs.waiting,
          List.nil_append, List.append_assoc]

/-- Console bytes that are handed out are not pending any more. -/
theorem takeConsole (hs : s.Conserves) {next : Activity T}
    (hlink : next.link = s.activity.link.takeConsole.2) :
    Conserves ⟨next, s.handed ++ s.pending, s.closed, s.stretch⟩ := by
  have hnone : pending (⟨next, s.handed ++ s.pending, s.closed, s.stretch⟩ : Session T) = [] := by
    rw [pending, hlink]
    rfl
  refine ⟨?_, ?_, ?_⟩
  · rw [hlink]
    exact hs.buf
  · rw [hlink]
    exact hs.waiting
  · rw [hnone, List.append_nil]
    exact hs.console

/-- A resynchronisation begins a new stretch. -/
theorem resync (hs : s.Conserves) {next : Activity T}
    (hresynced : s.activity.link.Resynced next.link) :
    Conserves ⟨next, s.handed, s.closed ++ [s.stretch], []⟩ := by
  have hrun : Scanning.run wire [] = ([], []) := run_eq_of_scans (.refl _) rfl
  refine ⟨?_, hresynced.waiting, ?_⟩
  · rw [hresynced.buf, hrun]
  · have hnothing : consoleIn [] = [] := by simp [consoleIn, Mux.framesIn, framesOf, hrun]
    rw [List.flatMap_append, List.flatMap_singleton, hnothing, List.append_nil, ← hs.console,
      pending, LinkInner.takeConsole, hresynced.console, hs.waiting, List.append_nil]
    rfl

end Conserves

variable [Polled T]

def perform (s : Session T) (action : Action) : Option (Session T) :=
  (s.activity.perform action).map fun next =>
    let stretch := s.stretch ++ (s.activity.events action).flatMap Event.delivered
    { activity := next
      handed := s.handed ++ s.activity.hands action
      closed := if s.activity.breaks action then s.closed ++ [stretch] else s.closed
      stretch := if s.activity.breaks action then [] else stretch }

/-- **One action** conserves the console bytes. -/
theorem Conserves.perform {s after : Session T} (hs : s.Conserves) {action : Action}
    (hstep : s.perform action = some after) : after.Conserves := by
  simp only [Session.perform, Option.map_eq_some_iff] at hstep
  obtain ⟨next, hnext, rfl⟩ := hstep
  rcases Activity.perform_cases hnext with
    ⟨hbreaks, hhands, hhears⟩ | ⟨hbreaks, hhands, hnothing, hlink⟩ |
      ⟨hbreaks, hhands, hnothing, hresynced⟩
  · rw [hbreaks, hhands, List.append_nil]
    exact hs.hears hhears
  · rw [hbreaks, hhands, hnothing, List.append_nil]
    exact hs.takeConsole hlink
  · rw [hbreaks, hhands, hnothing, List.append_nil, List.append_nil]
    exact hs.resync hresynced

/-- The session after a sequence of actions, if they are possible. -/
def run (s : Session T) (actions : List Action) : Option (Session T) :=
  actions.foldlM perform s

/-- **A run** conserves them. -/
theorem Conserves.run {s after : Session T} (hs : s.Conserves) {actions : List Action}
    (hrun : s.run actions = some after) : after.Conserves := by
  induction actions generalizing s with
  | nil =>
      cases hrun
      exact hs
  | cons action actions ih =>
      rw [Session.run, List.foldlM_cons] at hrun
      obtain ⟨middle, hfirst, hrest⟩ := Option.bind_eq_some_iff.mp hrun
      exact ih (hs.perform hfirst) hrest

/-- Stretches that end between two frames carry what they carry together. -/
theorem consoleIn_flatten {closed : List (List Byte)} (stretch : List Byte)
    (hwhole : ∀ part ∈ closed, (Scanning.run wire part).2 = []) :
    (closed ++ [stretch]).flatMap consoleIn = consoleIn (closed.flatten ++ stretch) := by
  induction closed with
  | nil => exact List.flatMap_singleton consoleIn stretch
  | cons part closed ih =>
      have hrest := ih fun other hother => hwhole other (List.mem_cons_of_mem _ hother)
      rw [List.cons_append, List.flatMap_cons, hrest, List.flatten_cons, List.append_assoc,
        consoleIn_append part, hwhole part (List.mem_cons_self ..), List.nil_append]
      rfl

/-- **Console input is conserved** over every run of the link.  The bytes that
`take_console` returned, followed by those that it would return now, are the payloads of
the console frames in each stretch of the stream from one resynchronisation to the next.
When no exchange resynchronises while a frame is partly received, and what is delivered
are the first bytes of well-formed frames, in whatever pieces, they are the payloads of
exactly those console frames that were delivered as a whole. -/
theorem console_conserved (t : T) {actions : List Action} {s : Session T}
    (hrun : (new t).run actions = some s) :
    s.handed ++ s.pending = (s.closed ++ [s.stretch]).flatMap consoleIn ∧
      ∀ frames : List Frame, (∀ frame ∈ frames, frame.Whole) →
        s.delivered <+: frames.flatMap encode →
        (∀ part ∈ s.closed, (Scanning.run wire part).2 = []) →
          s.handed ++ s.pending =
            (arrived frames s.delivered.length).flatMap Frame.consoleBytes := by
  have hconserves := (Conserves.new t).run hrun
  refine ⟨hconserves.console, fun frames hframes hprefix hwhole => ?_⟩
  rw [hconserves.console, consoleIn_flatten s.stretch hwhole, ← run_take hframes,
    ← List.prefix_iff_eq_take.mp hprefix]
  rfl

/-- A transport that cannot be armed, and whose polls are told beforehand. -/
structure Script where
  polls : List (List Byte)

instance : Polled Script where
  arm t := (.error (), t)
  send _ t := (.ok (), t)
  recv t := (.ok [], t)
  nowMs t := (0, t)
  takePlatformFault t := (none, t)
  status t := (none, t)
  poll t := (.ok (t.polls.headD []), ⟨t.polls.tail⟩)

/-- A delivery, and an exchange that fails behind it. -/
def broken : List Action := [.pump, .begin (.read 0), .turn, .turn, .finish]

theorem run_broken (byte : Byte) (bytes second : List Byte) :
    ∃ link : LinkInner Script, link.t = ⟨[second]⟩ ∧
      (new (Script.mk [byte :: bytes, second])).run broken =
        some ⟨.idle link, [], [byte :: bytes], []⟩ := by
  let pumped := (LinkInner.new (Script.mk [byte :: bytes, second])).pump.2
  let tried := (opened (.readReq 0) 0 pumped).attemptTurn.2
  have hrun : (new (Script.mk [byte :: bytes, second])).run broken =
      some ⟨.idle (tried.giveUp .notParked).link, [],
        [byte :: bytes ++ [] ++ [] ++ [] ++ []], []⟩ := rfl
  simp only [List.append_nil] at hrun
  exact ⟨_, LinkInner.t_giveUp tried .notParked, hrun⟩

/-- A second delivery behind that exchange. -/
theorem run_interrupted (byte : Byte) (bytes second : List Byte) :
    ∃ s, (new (Script.mk [byte :: bytes, second])).run (broken ++ [.pump, .takeConsole]) = some s ∧
      s.closed = [byte :: bytes] ∧ s.stretch = second ∧ s.pending = [] := by
  obtain ⟨link, hlink, hrun⟩ := run_broken byte bytes second
  rw [run, List.foldlM_append]
  rw [run] at hrun
  rw [hrun]
  refine ⟨_, rfl, rfl, ?_, rfl⟩
  change ([] ++ [Event.recv (Polled.poll link.t).1].flatMap Event.delivered) ++ [] = second
  rw [hlink, List.append_nil, List.nil_append]
  exact List.append_nil second

/-- A frame takes more than eight bytes. -/
theorem consoleIn_short {stretch : List Byte} (hshort : stretch.length < header + trailer) :
    consoleIn stretch = [] := by
  have hnone : Mux.framesIn stretch = [] := by
    rw [List.eq_nil_iff_forall_not_mem]
    intro frame hframe
    obtain ⟨hwhole, before, after, hsplit⟩ :=
      Decodes.bytes ⟨_, _, (scans_run wire stretch).1, hframe⟩
    have hlength := congrArg List.length hsplit
    rw [encode_of_whole hwhole, List.length_append, List.length_append,
      length_encodeFrameBody] at hlength
    omega
  rw [consoleIn, hnone, List.flatMap_nil]

/-- A keystroke in a frame. -/
def keystroke : Frame := .conIn [0x41]

theorem whole_keystroke : keystroke.Whole := by
  simp [Frame.Whole, keystroke, Frame.payload, maxPayload, pageSize]

/-- **A keystroke is lost** when an exchange fails while its frame is partly received. -/
theorem keystroke_lost :
    ∃ s, (new (Script.mk [(encode keystroke).take 5, (encode keystroke).drop 5])).run
        (broken ++ [.pump, .takeConsole]) = some s ∧
      s.delivered = [keystroke].flatMap encode ∧ s.handed ++ s.pending = [] ∧
      (arrived [keystroke] s.delivered.length).flatMap Frame.consoleBytes = [0x41] := by
  have hbytes := encode_of_whole whole_keystroke
  rw [encodeFrameBody_eq] at hbytes
  have hlength : (encode keystroke).length = 10 := by
    rw [encode_of_whole whole_keystroke, length_encodeFrameBody]
    rfl
  have hfirst : ∃ byte bytes, (encode keystroke).take 5 = byte :: bytes := by
    rw [hbytes]
    exact ⟨_, _, rfl⟩
  obtain ⟨byte, bytes, hfirst⟩ := hfirst
  rw [hfirst]
  obtain ⟨s, hrun, hclosed, hstretch, -⟩ := run_interrupted byte bytes ((encode keystroke).drop 5)
  rw [← hfirst] at hclosed
  have hdelivered : s.delivered = encode keystroke := by
    rw [delivered, hclosed, hstretch, List.flatten_singleton, List.take_append_drop]
  refine ⟨s, hrun, ?_, ?_, ?_⟩
  · rw [hdelivered, List.flatMap_singleton]
  · rw [((Conserves.new _).run hrun).console, hclosed, hstretch, List.singleton_append,
      List.flatMap_cons, List.flatMap_singleton, consoleIn_short, consoleIn_short]
    · rfl
    · rw [List.length_drop, hlength]
      decide
    · rw [List.length_take, hlength]
      decide
  · rw [hdelivered, arrived, if_pos le_rfl]
    rfl

/-- Two frames, with an exchange that fails between them. -/
theorem console_conserved_between :
    ∃ s, (new (Script.mk [encode keystroke, encode keystroke])).run
        (broken ++ [.pump, .takeConsole]) = some s ∧
      s.handed ++ s.pending = (arrived [keystroke, keystroke] s.delivered.length).flatMap
        Frame.consoleBytes := by
  have hwhole : ∀ frame ∈ [keystroke, keystroke], frame.Whole := by
    simp [whole_keystroke]
  have hcut : (Scanning.run wire (encode keystroke)).2 = [] := by
    have hone : ∀ frame ∈ [keystroke], frame.Whole := by simp [whole_keystroke]
    have hscan := scans_encode_whole hone []
    rw [List.flatMap_singleton, List.append_nil] at hscan
    rw [run_eq_of_scans hscan rfl]
  have hfirst : ∃ byte bytes, encode keystroke = byte :: bytes := by
    rw [encode_of_whole whole_keystroke, encodeFrameBody_eq]
    exact ⟨_, _, rfl⟩
  obtain ⟨byte, bytes, hfirst⟩ := hfirst
  obtain ⟨s, hrun, hclosed, hstretch, -⟩ := run_interrupted byte bytes (encode keystroke)
  rw [← hfirst] at hrun hclosed
  have hdelivered : s.delivered = [keystroke, keystroke].flatMap encode := by
    rw [delivered, hclosed, hstretch]
    simp
  refine ⟨s, hrun, (console_conserved _ hrun).2 _ hwhole ?_ ?_⟩
  · rw [hdelivered]
  · rw [hclosed]
    simpa using hcut

end Session

end Baonix.Badge

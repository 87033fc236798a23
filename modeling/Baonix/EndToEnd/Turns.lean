import Baonix.Badge.ConsoleInput
import Baonix.Host.ServeOrder

/-!
# What an exchange may still take

An exchange takes its answer from the frames that were held since it last discarded what
was stale.  Every action of the link takes such frames only from those that were there and
those that the decoder completes, sends nothing but its own request, and returns only what
answers it.
-/

namespace Baonix.EndToEnd

open Baonix.Core hiding Action
open Baonix.LittleEndian Baonix.Scanning Baonix.Proto Baonix.Badge

/-- The bytes a call handed to the transport. -/
def sentBytes : Event → List Byte
  | .send bytes _ => bytes
  | _ => []

/-- Of frames, the responses. -/
def responses (frames : List Frame) : List Frame :=
  frames.filter fun frame => responseTypes.contains frame.typeByte

/-- The frame answers the request. -/
structure Answers (request : Request) (frame : Frame) : Prop where
  type : frame.typeByte = request.want
  page : framePage frame = some request.page

theorem Answers.of_read {page : BitVec 32} {frame : Frame} (hanswers : Answers (.read page) frame) :
    ∃ data, frame = .readResp page data := by
  obtain ⟨htype, hpage⟩ := hanswers
  cases frame with
  | readResp asked data =>
      cases hpage
      exact ⟨data, rfl⟩
  | _ => cases htype

theorem Answers.of_write {page : BitVec 32} {data : Page} {frame : Frame}
    (hanswers : Answers (.write page data) frame) : frame = .writeAck page := by
  obtain ⟨htype, hpage⟩ := hanswers
  cases frame with
  | writeAck asked =>
      cases hpage
      rfl
  | _ => cases htype

section Activity

variable {T : Type}

/-- What the exchange that is going on may still take, or has taken. -/
def fresh : Activity T → List Frame
  | .busy _ (.waiting _) x => responses x.link.mux.held
  | .busy _ (.returned (.ok r)) _ => [r]
  | _ => []

theorem fresh_idle (link : LinkInner T) : fresh (.idle link) = [] := rfl

/-- An exchange transmits its request, and returns what answers it. -/
def Sound : Activity T → Prop
  | .idle _ => True
  | .busy request phase x =>
      (∃ began, Disciplined request.frame began phase x) ∧
        ∀ r, phase = .returned (.ok r) → Answers request r

variable [Polled T] {activity next : Activity T} {action : Action}

/-! ## One turn -/

omit [Polled T] in
theorem asked_eq {request : Request} {began : ℕ} {phase : Phase} {x : Exchanging T}
    (hdisciplined : Disciplined request.frame began phase x) : x.asked = request.page := by
  have hasked := hdisciplined.asked
  rw [framePage_request] at hasked
  exact (Option.some.inj hasked).symm

theorem attempts_sent {began : ℕ} {out : List Byte} {events : List Event} {phase : Phase}
    (hattempts : Attempts began out events phase) :
    events.flatMap sentBytes = [] ∨ events.flatMap sentBytes = out := by
  cases hattempts with
  | late now fault => exact .inl rfl
  | unparked now => exact .inl rfl
  | parked hchecks =>
      cases hchecks with
      | late last fault => exact .inl rfl
      | inTime hlast htransmits =>
          cases htransmits with
          | failed err => exact .inr (List.append_nil out)
          | sent sentAt => exact .inr (List.append_nil out)

theorem log_behind {x after : Exchanging T} {events : List Event}
    (hbehind : x.Behind events after) : after.log.drop x.log.length = events := by
  rw [hbehind.eq]
  exact List.drop_left

theorem waits_sent {x after : Exchanging T} {want : Byte} {sentAt : ℕ} {phase : Phase}
    (hwaits : x.Waits want sentAt phase after) :
    (after.log.drop x.log.length).flatMap sentBytes = [] := by
  cases hwaits with
  | answered htake hpage => rw [Exchanging.withMux, List.drop_length, List.flatMap_nil]
  | otherPage htake => rw [List.drop_length, List.flatMap_nil]
  | refused htake => rw [Exchanging.withMux, List.drop_length, List.flatMap_nil]
  | stray htake => rw [Exchanging.withMux, List.drop_length, List.flatMap_nil]
  | gaveUp fault hafter =>
      rw [log_behind hafter]
      rfl
  | retry hbudget hafter =>
      rw [log_behind hafter]
      rfl
  | deaf hafter =>
      rw [log_behind hafter]
      rfl
  | @heard now bytes after hafter =>
      rw [(after.deliver_kept bytes).2.2.2.2, log_behind hafter]
      rfl

/-- Frames are taken from those held and those completed. -/
theorem waits_fresh {request : Request} {x after : Exchanging T} {sentAt : ℕ} {phase : Phase}
    (hwaits : x.Waits request.want sentAt phase after) :
    (fresh (.busy request phase after)).Sublist (responses x.link.mux.held ++
      x.link.mux.completed ((after.log.drop x.log.length).flatMap Event.delivered)) := by
  have hwant := want_mem request
  have htaken {ty : Byte} {r : Frame} {mux : Mux}
      (htake : x.link.mux.takeMatching ty = some (r, mux)) :
      (responses mux.held).Sublist (responses x.link.mux.held) := by
    obtain ⟨-, front, rest, hheld, -, rfl⟩ := Mux.takeMatching_eq_some htake
    rw [hheld]
    exact ((List.sublist_cons_self r rest).append_left front).filter _
  cases hwaits with
  | @answered r mux htake hpage =>
      obtain ⟨htype, front, rest, hheld, -, -⟩ := Mux.takeMatching_eq_some htake
      refine List.Sublist.trans ?_ (List.sublist_append_left ..)
      rw [fresh, List.singleton_sublist, responses, List.mem_filter, hheld]
      exact ⟨List.mem_append_right _ (List.mem_cons_self ..),
        List.contains_iff_mem.mpr (htype ▸ hwant)⟩
  | otherPage htake => exact (htaken htake).trans (List.sublist_append_left ..)
  | refused htake => exact List.nil_sublist _
  | stray htake => exact (htaken htake).trans (List.sublist_append_left ..)
  | gaveUp fault hafter => exact List.nil_sublist _
  | retry hbudget hafter => exact List.nil_sublist _
  | deaf hafter => exact List.nil_sublist _
  | @heard now bytes after hafter =>
      have hmux : after.link.mux = x.link.mux := by rw [hafter.eq]
      have hdelivered : [Event.clock now, .recv (.ok bytes)].flatMap Event.delivered = bytes :=
        List.append_nil bytes
      rw [(after.deliver_kept bytes).2.2.2.2, log_behind hafter, hdelivered, fresh,
        Exchanging.deliver]
      split
      · rw [hmux]
        exact List.sublist_append_left ..
      · change (responses (after.link.mux.push bytes).held).Sublist _
        rw [Mux.held_push, hmux, responses, List.filter_append]
        exact (List.filter_sublist.trans List.filter_sublist).append_left _

/-- Behind the head of an attempt no response is held. -/
theorem attemptTurn_fresh (request : Request) (x : Exchanging T) :
    fresh (.busy request x.attemptTurn.1 x.attemptTurn.2) = [] := by
  obtain ⟨events, hattempts, hbehind⟩ := x.attemptTurn_calls
  obtain ⟨-, hphase⟩ := hattempts.leads
  rcases hphase with ⟨fault, hphase⟩ | ⟨sentAt, hphase⟩
  · rw [hphase]
    rfl
  · rw [hphase, fresh, hbehind.eq, responses, List.filter_eq_nil_iff]
    intro frame hframe
    change frame ∈ (discardStaleResponses x.link.mux).2.held at hframe
    rw [discardStaleResponses_eq] at hframe
    simpa using (List.mem_filter.mp hframe).2

/-! ## Every action -/

theorem perform_sound (hsound : Sound activity) (hnext : activity.perform action = some next) :
    Sound next := by
  cases activity with
  | idle link =>
      cases action with
      | begin request =>
          cases hnext
          refine ⟨⟨_, rfl, framePage_request request, rfl, Nat.zero_le _, Nat.zero_le _,
            fun _ => Nat.zero_le _, .of_not_send (by simp [opened, Event.isSend])⟩, by simp⟩
      | turn => cases hnext
      | finish => cases hnext
      | _ =>
          cases hnext
          trivial
  | busy request phase x =>
      obtain ⟨⟨began, hdisciplined⟩, hanswers⟩ := hsound
      cases action with
      | turn =>
          cases hnext
          refine ⟨⟨began, hdisciplined.step request.want⟩, fun r hreturned => ?_⟩
          cases phase with
          | attempt =>
              obtain ⟨events, hattempts, -⟩ := x.attemptTurn_calls
              have hturn : x.attemptTurn.1 = .returned (.ok r) := hreturned
              obtain ⟨-, ⟨fault, hphase⟩ | ⟨sentAt, hphase⟩⟩ := hattempts.leads
              · rw [hphase] at hturn
                cases hturn
              · rw [hphase] at hturn
                cases hturn
          | waiting sentAt =>
              have hwaits := x.waitTurn_waits request.want sentAt
              have hturn : (x.waitTurn request.want sentAt).1 = .returned (.ok r) := hreturned
              rw [hturn] at hwaits
              generalize (x.waitTurn request.want sentAt).2 = after at hwaits
              cases hwaits with
              | answered htake hpage =>
                  rw [asked_eq hdisciplined] at hpage
                  exact ⟨(Mux.takeMatching_eq_some htake).1, hpage⟩
          | broken fault => cases hreturned
          | returned result => exact hanswers r hreturned
      | finish =>
          cases phase with
          | returned result =>
              cases hnext
              trivial
          | _ => cases hnext
      | _ => cases hnext

/-- What is sent is the request of the exchange, or console output. -/
theorem perform_sent (hsound : Sound activity) (hnext : activity.perform action = some next) :
    ((activity.events action).flatMap sentBytes = []) ∨
      (∃ request phase x, activity = .busy request phase x ∧
        (activity.events action).flatMap sentBytes = encode request.frame) ∨
      ∃ bytes, (activity.events action).flatMap sentBytes = encode (.conOut bytes) := by
  cases activity with
  | idle link =>
      cases action with
      | sendConsole bytes =>
          by_cases hbytes : bytes = []
          · left
            rw [Activity.events, if_pos hbytes, List.flatMap_nil]
          · refine .inr (.inr ⟨bytes, ?_⟩)
            rw [Activity.events, if_neg hbytes, List.flatMap_singleton, sentBytes]
      | _ => exact .inl rfl
  | busy request phase x =>
      obtain ⟨⟨began, hdisciplined⟩, -⟩ := hsound
      cases action with
      | turn =>
          cases phase with
          | attempt =>
              obtain ⟨events, hattempts, hbehind⟩ := x.attemptTurn_calls
              have hlog : (Activity.busy request .attempt x).events .turn = events := by
                change x.attemptTurn.2.log.drop x.log.length = events
                rw [hbehind.eq]
                exact List.drop_left
              rw [hlog]
              rcases attempts_sent hattempts with hnothing | hout
              · exact .inl hnothing
              · exact .inr (.inl ⟨request, _, x, rfl, hout.trans hdisciplined.out⟩)
          | waiting sentAt => exact .inl (waits_sent (x.waitTurn_waits request.want sentAt))
          | broken fault =>
              left
              change ((x.giveUp fault).log.drop x.log.length).flatMap sentBytes = []
              rw [Exchanging.giveUp, List.drop_length, List.flatMap_nil]
          | returned result =>
              left
              change (x.log.drop x.log.length).flatMap sentBytes = []
              rw [List.drop_length, List.flatMap_nil]
      | _ => exact .inl rfl

/-- Unless it resynchronises, an action takes from what was there and what was completed. -/
theorem perform_fresh (hnext : activity.perform action = some next) :
    (fresh next).Sublist (fresh activity ++ activity.link.mux.completed
      ((activity.events action).flatMap Event.delivered)) := by
  cases activity with
  | idle link =>
      cases action with
      | turn => cases hnext
      | finish => cases hnext
      | _ =>
          cases hnext
          exact List.nil_sublist _
  | busy request phase x =>
      cases action with
      | turn =>
          cases hnext
          cases phase with
          | attempt =>
              change (fresh (.busy request x.attemptTurn.1 x.attemptTurn.2)).Sublist _
              rw [attemptTurn_fresh]
              exact List.nil_sublist _
          | waiting sentAt => exact waits_fresh (x.waitTurn_waits request.want sentAt)
          | broken fault => exact List.nil_sublist _
          | returned result => exact List.sublist_append_left ..
      | finish =>
          cases phase with
          | returned result =>
              cases hnext
              exact List.nil_sublist _
          | _ => cases hnext
      | _ => cases hnext

/-- What the decoder is left with. -/
theorem perform_buf (hnext : activity.perform action = some next)
    (hbreaks : activity.breaks action = false)
    (hwaits : wire.look activity.link.mux.dec.buf = none) :
    next.link.mux.dec.buf = (activity.link.mux.dec.push
      ((activity.events action).flatMap Event.delivered)).drain.2.buf := by
  have hnothing : activity.link.mux.dec.buf =
      (activity.link.mux.dec.push []).drain.2.buf := by
    rw [(Decoder.drain_eq_run _).2, Decoder.push, List.append_nil,
      run_eq_of_scans (.refl _) hwaits]
  rcases Activity.perform_cases hnext with
    ⟨-, -, hhears⟩ | ⟨-, -, hdelivered, hlink⟩ | ⟨hresyncs, -⟩
  · generalize (activity.events action).flatMap Event.delivered = bytes at hhears
    generalize next.link = link at hhears
    cases hhears with
    | nothing hquiet => exact hquiet.buf.trans hnothing
    | @absorbed middle hquiet bytes =>
        change (middle.mux.push bytes).dec.buf = _
        rw [Mux.dec_push, (Decoder.drain_eq_run _).2, (Decoder.drain_eq_run _).2, Decoder.push,
          hquiet.buf]
        rfl
  · rw [hdelivered, ← hnothing, hlink]
    rfl
  · rw [hresyncs] at hbreaks
    cases hbreaks

end Activity

end Baonix.EndToEnd

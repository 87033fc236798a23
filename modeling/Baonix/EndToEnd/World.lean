import Baonix.EndToEnd.Channel
import Baonix.EndToEnd.Pages
import Baonix.EndToEnd.Turns

/-!
# The badge and the host, joined by two channels

The badge runs exchanges over any transport; the host calls `serve_once` on the bytes that
have come.  Between them are two channels that lose and delay frames as they like, and keep
their order.  The clock of the badge tells whatever it likes.
-/

namespace Baonix.EndToEnd

open Baonix.Core hiding Action
open Baonix.LittleEndian Baonix.Scanning Baonix.Proto Baonix.Badge Baonix.Host
open FlatImage (contents)

/-- The two sides and what is between them.  Requests carry the number of the exchange that
sent them; `served` are those the host has taken.  `stored` tells for each page what the
last `write_page` that returned wrote, if it returned `Ok`. -/
structure World (T F : Type) where
  activity : Activity T
  call : ℕ
  toHost : Channel ℕ
  host : Serving F
  toBadge : Channel Unit
  served : List (ℕ × Frame)
  stored : BitVec 32 → Option Page

/-- One step of the world: the badge acts, and `frames` and `count` tell what it hands to
its channel and is handed from the other; the host calls `serve_once` on the next `count`
bytes; console input is sent; or a channel lets frames go or loses one. -/
inductive Move
  | badge (action : Badge.Action) (frames : List Frame) (count : ℕ)
  | serve (count : ℕ) (replies : List Frame)
  | type (bytes : List Byte)
  | releaseRequests (count : ℕ)
  | releaseAnswers (count : ℕ)
  | loseRequest (index : ℕ)
  | loseAnswer (index : ℕ)

section Steps

variable {T F : Type}

/-- What the return of an exchange means for what is stored. -/
def settle (activity : Activity T) (stored : BitVec 32 → Option Page) :
    BitVec 32 → Option Page :=
  match activity with
  | .busy (.write page data) (.returned (.ok _)) _ => Function.update stored page (some data)
  | .busy (.write page _) (.returned (.error _)) _ => Function.update stored page none
  | _ => stored

/-- The exchange an action begins is counted. -/
def begins : Badge.Action → ℕ
  | .begin _ => 1
  | _ => 0

namespace World

/-- `UsbHost::new` on one side, a connection on the other. -/
def new (t : T) (img : F) : World T F :=
  ⟨.idle (.new t), 0, .empty, opened img, .empty, [], fun _ => none⟩

/-- The frames the badge may still take, in their order. -/
def coming (w : World T F) : List Frame := fresh w.activity ++ w.toBadge.frames.map Prod.snd

/-- The badge behind one of its actions. -/
def acted (w : World T F) (action : Badge.Action) (next : Activity T) (frames : List Frame)
    (count : ℕ) : World T F :=
  { w with
    activity := next
    call := w.call + begins action
    toHost := w.toHost.sent (frames.map (w.call, ·))
    toBadge := w.toBadge.delivered count
    stored := match action with
      | .finish => settle w.activity w.stored
      | _ => w.stored }

/-- The host sends console input. -/
def typed (w : World T F) (bytes : List Byte) : World T F :=
  { w with toBadge := w.toBadge.sent ((Frame.conIn bytes).fragments.map ((), ·)) }

variable [ImageFile F]

/-- `serve_once` on the next `count` bytes, sending into an empty buffer. -/
def serving (w : World T F) (len count : ℕ) : Serving F :=
  serveOnce len { w.host with out := [] } (w.toHost.bytes count)

/-- The host behind a call of `serve_once`. -/
def answered (w : World T F) (len count : ℕ) (replies : List Frame) : World T F :=
  { w with
    host := w.serving len count
    toHost := w.toHost.delivered count
    toBadge := w.toBadge.sent (replies.map ((), ·))
    served := w.served ++ w.toHost.done count }

variable [Polled T]

/-- One step.  What the badge hands to its transport goes into its channel as a whole, and
what its transport hands to it comes out of the other. -/
inductive Step (len : ℕ) (w : World T F) : Move → World T F → Prop
  | badge {action : Badge.Action} {next : Activity T} {frames : List Frame} {count : ℕ}
      (hnext : w.activity.perform action = some next) (hwhole : ∀ frame ∈ frames, frame.Whole)
      (hsent : (w.activity.events action).flatMap sentBytes = frames.flatMap encode)
      (hheard : (w.activity.events action).flatMap Event.delivered = w.toBadge.bytes count) :
      Step len w (.badge action frames count) (w.acted action next frames count)
  | serve {count : ℕ} {replies : List Frame} (hwhole : ∀ reply ∈ replies, reply.Whole)
      (hout : (w.serving len count).out = replies.flatMap encode) :
      Step len w (.serve count replies) (w.answered len count replies)
  | type (bytes : List Byte) :
      Step len w (.type bytes) (w.typed bytes)
  | releaseRequests (count : ℕ) :
      Step len w (.releaseRequests count) { w with toHost := w.toHost.released count }
  | releaseAnswers (count : ℕ) :
      Step len w (.releaseAnswers count) { w with toBadge := w.toBadge.released count }
  | loseRequest (index : ℕ) :
      Step len w (.loseRequest index) { w with toHost := w.toHost.lost index }
  | loseAnswer (index : ℕ) :
      Step len w (.loseAnswer index) { w with toBadge := w.toBadge.lost index }

/-- No write is begun while a write of its page, or an acknowledgement of one, is on its
way; and no exchange gives up while a frame is partly received. -/
def Careful (w : World T F) : Move → Prop
  | .badge (.begin (.write page _)) _ _ =>
      (∀ tag other, (tag, .writeReq page other) ∉ w.toHost.frames) ∧
        ((), .writeAck page) ∉ w.toBadge.frames
  | .badge action _ _ => w.activity.breaks action = true → w.toBadge.offset = 0
  | _ => True

/-- No exchange gives up while a frame is partly received. -/
def Unbroken (w : World T F) : Move → Prop
  | .badge action _ _ => w.activity.breaks action = true → w.toBadge.offset = 0
  | _ => True

/-- A run all of whose steps are allowed. -/
inductive Runs (allowed : World T F → Move → Prop) (len : ℕ) (start : World T F) :
    World T F → Prop
  | start : Runs allowed len start start
  | step {w after : World T F} (move : Move) (hruns : Runs allowed len start w)
      (hallowed : allowed w move) (hstep : w.Step len move after) : Runs allowed len start after

end World

end Steps

/-! ## What holds throughout -/

section Invariant

variable {T F : Type}

/-- What the exchange that is going on writes to a page. -/
def writes (activity : Activity T) (page : BitVec 32) : Option Page :=
  match activity with
  | .busy (.write asked data) _ _ => if asked = page then some data else none
  | _ => none

variable [FlatImage F]

namespace World

/-- The page is being written, or holds what was stored in it. -/
structure PageState (w : World T F) (page : BitVec 32) : Prop where
  writing : ∀ data, writes w.activity page = some data →
    Writing page data w.call w.toHost.frames (contents w.host.img) w.served w.coming
  settled : writes w.activity page = none → ∀ data, w.stored page = some data →
    Settled page data w.toHost.frames (contents w.host.img) w.coming

/-- The two ends are in step with the channels between them. -/
structure Joined (len : ℕ) (w : World T F) : Prop where
  length : len = (contents w.host.img).length
  unasked : w.host.mux.held.filter isRequest = []
  requests : w.toHost.Feeds w.host.mux.dec
  answers : w.toBadge.Feeds w.activity.link.mux.dec
  sound : Sound w.activity

theorem joined_new (t : T) (img : F) : Joined (contents img).length (new t img) where
  length := rfl
  unasked := rfl
  requests := Channel.feeds_empty rfl
  answers := Channel.feeds_empty rfl
  sound := trivial

structure Wired (len : ℕ) (w : World T F) : Prop where
  length : len = (contents w.host.img).length
  unasked : w.host.mux.held.filter isRequest = []
  requests : w.toHost.Feeds w.host.mux.dec
  answers : w.toBadge.Feeds w.activity.link.mux.dec
  sound : Sound w.activity
  pages : ∀ page, w.PageState page

theorem Wired.joined {len : ℕ} {w : World T F} (hwired : Wired len w) : Joined len w :=
  ⟨hwired.length, hwired.unasked, hwired.requests, hwired.answers, hwired.sound⟩

theorem Joined.wired {len : ℕ} {w : World T F} (hjoined : Joined len w)
    (hpages : ∀ page, w.PageState page) : Wired len w :=
  ⟨hjoined.length, hjoined.unasked, hjoined.requests, hjoined.answers, hjoined.sound, hpages⟩

theorem wired_new (t : T) (img : F) : Wired (contents img).length (new t img) :=
  (joined_new t img).wired fun _ => ⟨by simp [new, writes], by simp [new]⟩

theorem PageState.of_same {w after : World T F} {page : BitVec 32} (hpage : w.PageState page)
    (hactivity : after.activity = w.activity) (hstored : after.stored = w.stored)
    (hwriting : ∀ data, Writing page data w.call w.toHost.frames (contents w.host.img) w.served
      w.coming → Writing page data after.call after.toHost.frames (contents after.host.img)
        after.served after.coming)
    (hsettled : ∀ data, Settled page data w.toHost.frames (contents w.host.img) w.coming →
      Settled page data after.toHost.frames (contents after.host.img) after.coming) :
    after.PageState page where
  writing data hdata := hwriting data (hpage.writing data (hactivity ▸ hdata))
  settled hnone data hdata := hsettled data (hpage.settled (hactivity ▸ hnone) data (hstored ▸ hdata))

/-! ## The host's steps -/

variable {len : ℕ} {w : World T F}

/-- What a call of `serve_once` serves, and what it leaves. -/
theorem serving_serves (hjoined : Joined len w) {count : ℕ} {replies : List Frame}
    (hwhole : ∀ reply ∈ replies, reply.Whole)
    (hout : (w.serving len count).out = replies.flatMap encode) :
    Serves (contents w.host.img) (serveOrder ((w.toHost.done count).map Prod.snd)) replies
        (contents (w.serving len count).img) ∧
      (w.serving len count).mux.held.filter isRequest = [] ∧
      (w.serving len count).mux.dec.buf =
        (w.host.mux.dec.push (w.toHost.bytes count)).drain.2.buf := by
  obtain ⟨himg, hanswers, hunasked, hbuf⟩ :=
    serveOnce_answers len { w.host with out := [] } (w.toHost.bytes count)
  have hcompleted : w.host.mux.completed (w.toHost.bytes count) =
      (w.toHost.done count).map Prod.snd := (hjoined.requests.delivered count).1
  change (w.serving len count).img = (answers len w.host.img (serveOrder (w.host.mux.held ++
    w.host.mux.completed (w.toHost.bytes count)))).2 at himg
  change (w.serving len count).out = [] ++ (answers len w.host.img (serveOrder (w.host.mux.held ++
    w.host.mux.completed (w.toHost.bytes count)))).1.flatMap encode at hanswers
  rw [serveOrder_append_unasked hjoined.unasked, hcompleted] at himg hanswers
  rw [hout, List.nil_append] at hanswers
  have hreplies := flatMap_encode_injective hwhole (map_repliesToRead_answers ..).2 hanswers
  refine ⟨?_, hunasked, ?_⟩
  · rw [himg, hreplies]
    exact answers_serves hjoined.length (serveOrder_isRequest _)
  · rw [(Decoder.drain_eq_run _).2, Decoder.push]
    exact hbuf

theorem coming_answered (len count : ℕ) (replies : List Frame) :
    (w.answered len count replies).coming = w.coming ++ replies := by
  rw [coming, coming, World.answered, Channel.frames_sent, List.map_append, List.map_map,
    List.append_assoc]
  simp

theorem Joined.answered (hjoined : Joined len w) {count : ℕ} {replies : List Frame}
    (hwhole : ∀ reply ∈ replies, reply.Whole)
    (hout : (w.serving len count).out = replies.flatMap encode) :
    Joined len (w.answered len count replies) := by
  obtain ⟨hserves, hunasked, hbuf⟩ := serving_serves hjoined hwhole hout
  refine ⟨hjoined.length.trans hserves.length_image.symm, hunasked,
    (hjoined.requests.delivered count).2.of_buf hbuf, hjoined.answers.sent ?_, hjoined.sound⟩
  simpa using hwhole

theorem Wired.answered (hwired : Wired len w) {count : ℕ} {replies : List Frame}
    (hwhole : ∀ reply ∈ replies, reply.Whole)
    (hout : (w.serving len count).out = replies.flatMap encode) :
    Wired len (w.answered len count replies) := by
  obtain ⟨hserves, -, -⟩ := serving_serves hwired.joined hwhole hout
  refine (hwired.joined.answered hwhole hout).wired fun page =>
    (hwired.pages page).of_same rfl rfl ?_ ?_
  · intro data hpage
    rw [← w.toHost.done_append_frames count] at hpage
    rw [coming_answered]
    exact hpage.serve hserves
  · intro data hpage
    rw [← w.toHost.done_append_frames count] at hpage
    rw [coming_answered]
    exact hpage.serve hserves

/-! ## The badge's steps -/

variable [Polled T] {action : Badge.Action} {next : Activity T} {frames : List Frame}
  {count : ℕ}

omit [FlatImage F] in
theorem frames_eq_nil (hwhole : ∀ frame ∈ frames, frame.Whole)
    (hsent : frames.flatMap encode = []) : frames = [] :=
  flatMap_encode_injective hwhole (by simp) hsent

/-- The badge sends a write only for the page that it is writing. -/
theorem sent_writes {activity : Activity T} (hsound : Sound activity)
    (hnext : activity.perform action = some next) (hwhole : ∀ frame ∈ frames, frame.Whole)
    (hsent : (activity.events action).flatMap sentBytes = frames.flatMap encode)
    {page : BitVec 32} {data : Page} (hmem : .writeReq page data ∈ frames) :
    writes activity page = some data := by
  rcases perform_sent hsound hnext with hnothing | ⟨request, phase, x, rfl, hrequest⟩ |
      ⟨bytes, hconsole⟩
  · rw [hnothing] at hsent
    rw [frames_eq_nil hwhole hsent.symm] at hmem
    cases hmem
  · have hone : request.frame.Whole := by
      cases request <;> exact Frame.whole_of_not_console (by simp [Request.frame])
        (by simp [Request.frame])
    rw [hrequest, ← List.flatMap_singleton encode] at hsent
    rw [← flatMap_encode_injective (by simpa using hone) hwhole hsent, List.mem_singleton] at hmem
    cases request with
    | read asked => cases hmem
    | write asked new =>
        cases hmem
        exact if_pos rfl
  · rw [hconsole, encode_eq_flatMap_fragments] at hsent
    rw [← flatMap_encode_injective (fun _ => Frame.whole_of_mem_fragments) hwhole hsent,
      Frame.fragments, List.mem_map] at hmem
    obtain ⟨chunk, -, hchunk⟩ := hmem
    cases hchunk

/-- What the badge may take afterwards it could take before. -/
theorem coming_acted (frames : List Frame) (hjoined : Joined len w)
    (hnext : w.activity.perform action = some next)
    (hheard : (w.activity.events action).flatMap Event.delivered = w.toBadge.bytes count) :
    (w.acted action next frames count).coming.Sublist w.coming := by
  have hfresh := perform_fresh hnext
  have hcompleted : w.activity.link.mux.completed (w.toBadge.bytes count) =
      (w.toBadge.done count).map Prod.snd := (hjoined.answers.delivered count).1
  rw [hheard, hcompleted] at hfresh
  have hall := hfresh.append_right ((w.toBadge.delivered count).frames.map Prod.snd)
  rw [List.append_assoc, ← List.map_append, Channel.done_append_frames] at hall
  exact hall

theorem feeds_acted (hjoined : Joined len w) (hnext : w.activity.perform action = some next)
    (hheard : (w.activity.events action).flatMap Event.delivered = w.toBadge.bytes count)
    (hcareful : w.activity.breaks action = true → w.toBadge.offset = 0) :
    (w.toBadge.delivered count).Feeds next.link.mux.dec := by
  have hfeeds := (hjoined.answers.delivered count).2
  cases hbreaks : w.activity.breaks action with
  | false =>
      have hbuf := perform_buf hnext hbreaks hjoined.answers.waits
      rw [hheard] at hbuf
      exact hfeeds.of_buf hbuf
  | true =>
      rcases Activity.perform_cases hnext with ⟨hquiet, -⟩ | ⟨hquiet, -⟩ |
          ⟨-, -, hnothing, hresynced⟩
      · rw [hbreaks] at hquiet
        cases hquiet
      · rw [hbreaks] at hquiet
        cases hquiet
      · -- nothing was partly received, so the new decoder knows as much as the old one
        have hbefore : w.activity.link.mux.dec.buf = [] := by
          rw [hjoined.answers.buf, hcareful hbreaks, List.take_zero]
        rw [← hheard, hnothing] at hfeeds
        apply hfeeds.of_buf
        rw [hresynced.buf, (Decoder.drain_eq_run _).2, Decoder.push, hbefore,
          run_eq_of_scans (.refl _) rfl]
        rfl

/-- The exchange that is going on goes on, or there is none. -/
theorem writes_perform {activity : Activity T} (hnext : activity.perform action = some next)
    (hbegin : ∀ request, action ≠ .begin request) (hfinish : action ≠ .finish) :
    writes next = writes activity := by
  cases activity with
  | idle link =>
      cases action with
      | begin request => exact absurd rfl (hbegin request)
      | turn => cases hnext
      | finish => cases hnext
      | _ =>
          cases hnext
          rfl
  | busy request phase x =>
      cases action with
      | turn =>
          cases hnext
          cases request <;> rfl
      | finish => exact absurd rfl hfinish
      | _ => cases hnext

omit [FlatImage F] in
/-- Only an idle link begins an exchange. -/
theorem idle_of_begin {activity : Activity T} {request : Request}
    (hnext : activity.perform (.begin request) = some next) :
    ∃ link, activity = .idle link ∧
      next = .busy request .attempt (opened request.frame request.page link) := by
  cases activity with
  | idle link =>
      cases hnext
      exact ⟨link, rfl, rfl⟩
  | busy _ _ _ => cases hnext

omit [FlatImage F] in
/-- Only an exchange that has returned finishes. -/
theorem returned_of_finish {activity : Activity T} (hnext : activity.perform .finish = some next) :
    ∃ request result x, activity = .busy request (.returned result) x ∧ next = .idle x.link := by
  cases activity with
  | idle link => cases hnext
  | busy request phase x =>
      cases phase with
      | returned result =>
          cases hnext
          exact ⟨request, result, x, rfl, rfl⟩
      | _ => cases hnext

omit [FlatImage F] [Polled T] in
/-- What is stored when an exchange returns was stored before, or was written by it. -/
theorem settle_cases {request : Request} {result : Except Error Frame} {x : Exchanging T}
    {stored : BitVec 32 → Option Page} {page : BitVec 32} {data : Page}
    (hsettle : settle (.busy request (.returned result) x) stored page = some data) :
    (writes (.busy request (.returned result) x) page = none ∧ stored page = some data) ∨
      request = .write page data ∧ ∃ r, result = .ok r := by
  cases request with
  | read asked => exact .inl ⟨rfl, hsettle⟩
  | write asked new =>
      by_cases hasked : asked = page
      · subst hasked
        cases result with
        | ok r =>
            rw [settle, Function.update_self] at hsettle
            cases hsettle
            exact .inr ⟨rfl, r, rfl⟩
        | error err =>
            rw [settle, Function.update_self] at hsettle
            cases hsettle
      · have hstored : stored page = some data := by
          cases result <;> rwa [settle, Function.update_of_ne (Ne.symm hasked)] at hsettle
        exact .inl ⟨if_neg hasked, hstored⟩

omit [FlatImage F] [Polled T] in
theorem frames_acted (action : Badge.Action) (next : Activity T) (frames : List Frame) (count : ℕ) :
    (w.acted action next frames count).toHost.frames =
      w.toHost.frames ++ frames.map (w.call, ·) := Channel.frames_sent ..

section Acted

variable (hwired : Wired len w) (hnext : w.activity.perform action = some next)
  (hwhole : ∀ frame ∈ frames, frame.Whole)
  (hsent : (w.activity.events action).flatMap sentBytes = frames.flatMap encode)
  (hheard : (w.activity.events action).flatMap Event.delivered = w.toBadge.bytes count)
include hwired hnext hwhole hsent

theorem mem_tagged {tag : ℕ} {page : BitVec 32} {data : Page}
    (hmem : (tag, .writeReq page data) ∈ frames.map (w.call, ·)) :
    tag = w.call ∧ writes w.activity page = some data := by
  obtain ⟨frame, hframe, heq⟩ := List.mem_map.mp hmem
  cases heq
  exact ⟨rfl, sent_writes hwired.sound hnext hwhole hsent hframe⟩

include hheard

/-- A page that is not being written stays as it is. -/
theorem settled_acted {page : BitVec 32} {data : Page} (hnone : writes w.activity page = none)
    (hdata : w.stored page = some data) :
    Settled page data (w.acted action next frames count).toHost.frames
      (contents w.host.img) (w.acted action next frames count).coming := by
  have hsettled := (hwired.pages page).settled hnone data hdata
  rw [frames_acted]
  refine (hsettled.asked fun tag other hmem => ?_).lost (List.Sublist.refl _)
    (coming_acted frames hwired.joined hnext hheard)
  rw [(mem_tagged hwired hnext hwhole hsent hmem).2] at hnone
  cases hnone

/-- The exchange that is going on writes what it wrote. -/
theorem writing_acted {page : BitVec 32} {data : Page} (hdata : writes w.activity page = some data) :
    Writing page data w.call (w.acted action next frames count).toHost.frames
      (contents w.host.img) w.served (w.acted action next frames count).coming := by
  have hwriting := (hwired.pages page).writing data hdata
  rw [frames_acted]
  refine (hwriting.asked fun tag other hmem => ?_).lost (List.Sublist.refl _)
    (coming_acted frames hwired.joined hnext hheard)
  obtain ⟨htag, hother⟩ := mem_tagged hwired hnext hwhole hsent hmem
  exact ⟨htag, Option.some.inj (hother.symm.trans hdata)⟩

end Acted

theorem pageState_begin (hwired : Wired len w) {request : Request}
    (hnext : w.activity.perform (.begin request) = some next)
    (hwhole : ∀ frame ∈ frames, frame.Whole)
    (hsent : (w.activity.events (.begin request)).flatMap sentBytes = frames.flatMap encode)
    (hheard : (w.activity.events (.begin request)).flatMap Event.delivered =
      w.toBadge.bytes count)
    (hcareful : w.Careful (.badge (.begin request) frames count)) (page : BitVec 32) :
    (w.acted (.begin request) next frames count).PageState page := by
  obtain ⟨link, hidle, rfl⟩ := idle_of_begin hnext
  have hnone : writes w.activity page = none := by rw [hidle]; rfl
  refine ⟨fun data hdata => ?_, fun _ data hdata => ?_⟩
  · cases request with
    | read asked => cases hdata
    | write asked new =>
        change (if asked = page then some new else none) = some data at hdata
        split at hdata
        · rename_i hasked
          subst hasked
          obtain ⟨hwrites, hacks⟩ := hcareful
          refine .begun (fun tag other hmem => ?_) fun hmem => ?_
          · rw [frames_acted] at hmem
            rcases List.mem_append.mp hmem with hmem | hmem
            · exact hwrites tag other hmem
            · rw [(mem_tagged hwired hnext hwhole hsent hmem).2] at hnone
              cases hnone
          · have hless := coming_acted frames hwired.joined hnext hheard
            have hbefore := hless.subset hmem
            rw [coming, hidle, fresh_idle, List.nil_append, List.mem_map] at hbefore
            obtain ⟨tagged, htagged, heq⟩ := hbefore
            exact hacks (heq ▸ htagged)
        · cases hdata
  · exact settled_acted hwired hnext hwhole hsent hheard hnone hdata

theorem pageState_finish (hwired : Wired len w) (hnext : w.activity.perform .finish = some next)
    (hwhole : ∀ frame ∈ frames, frame.Whole)
    (hsent : (w.activity.events .finish).flatMap sentBytes = frames.flatMap encode)
    (hheard : (w.activity.events .finish).flatMap Event.delivered = w.toBadge.bytes count)
    (page : BitVec 32) : (w.acted .finish next frames count).PageState page := by
  obtain ⟨request, result, x, hactivity, rfl⟩ := returned_of_finish hnext
  refine ⟨fun data hdata => ?_, fun _ data hdata => ?_⟩
  · cases hdata
  · change settle w.activity w.stored page = some data at hdata
    rw [hactivity] at hdata
    rcases settle_cases hdata with ⟨hnone, hstored⟩ | ⟨rfl, r, rfl⟩
    · rw [← hactivity] at hnone
      exact settled_acted hwired hnext hwhole hsent hheard hnone hstored
    · -- the answer taken is an acknowledgement, and everything else came behind it
      have hsound := hwired.sound
      have hwriting := (hwired.pages page).writing data (by rw [hactivity]; exact if_pos rfl)
      rw [hactivity] at hsound
      rw [coming, hactivity, fresh, List.singleton_append, (hsound.2 r rfl).of_write] at hwriting
      have hnothing : frames = [] := by
        apply frames_eq_nil hwhole
        rw [← hsent, hactivity]
        rfl
      rw [frames_acted, hnothing, List.map_nil, List.append_nil]
      refine hwriting.settled.lost (List.Sublist.refl _) ?_
      rw [← w.toBadge.done_append_frames count, List.map_append]
      exact List.sublist_append_right ..

theorem Joined.acted (hjoined : Joined len w) (hnext : w.activity.perform action = some next)
    (hwhole : ∀ frame ∈ frames, frame.Whole)
    (hheard : (w.activity.events action).flatMap Event.delivered = w.toBadge.bytes count)
    (hunbroken : w.activity.breaks action = true → w.toBadge.offset = 0) :
    Joined len (w.acted action next frames count) :=
  ⟨hjoined.length, hjoined.unasked, hjoined.requests.sent (by simpa using hwhole),
    feeds_acted hjoined hnext hheard hunbroken, perform_sound hjoined.sound hnext⟩

omit [FlatImage F] [Polled T] in
/-- A careful step breaks nothing. -/
theorem Careful.unbroken {move : Move} (hcareful : w.Careful move) : w.Unbroken move := by
  cases move with
  | badge action frames count =>
      cases action with
      | turn => exact hcareful
      | _ =>
          intro hbreaks
          cases hbreaks
  | _ => trivial

theorem Wired.acted (hwired : Wired len w) (hnext : w.activity.perform action = some next)
    (hwhole : ∀ frame ∈ frames, frame.Whole)
    (hsent : (w.activity.events action).flatMap sentBytes = frames.flatMap encode)
    (hheard : (w.activity.events action).flatMap Event.delivered = w.toBadge.bytes count)
    (hcareful : w.Careful (.badge action frames count)) :
    Wired len (w.acted action next frames count) := by
  refine (hwired.joined.acted hnext hwhole hheard hcareful.unbroken).wired fun page => ?_
  cases action with
  | begin request => exact pageState_begin hwired hnext hwhole hsent hheard hcareful page
  | finish => exact pageState_finish hwired hnext hwhole hsent hheard page
  | _ =>
      have hwrites := writes_perform hnext (by simp) (by simp)
      refine ⟨fun data hdata => ?_, fun hnone data hdata => ?_⟩
      · change writes next page = some data at hdata
        rw [hwrites] at hdata
        exact writing_acted hwired hnext hwhole hsent hheard hdata
      · change writes next page = none at hnone
        rw [hwrites] at hnone
        exact settled_acted hwired hnext hwhole hsent hheard hnone hdata

/-! ## Every run -/

theorem coming_typed (bytes : List Byte) :
    (w.typed bytes).coming = w.coming ++ (Frame.conIn bytes).fragments := by
  rw [coming, coming, typed, Channel.frames_sent, List.map_append, List.map_map,
    List.append_assoc]
  simp

theorem coming_releaseAnswers (count : ℕ) :
    coming { w with toBadge := w.toBadge.released count } = w.coming := by
  rw [coming, Channel.frames_released]
  rfl

theorem coming_loseAnswer (index : ℕ) :
    (coming { w with toBadge := w.toBadge.lost index }).Sublist w.coming :=
  ((Channel.frames_lost ..).map _).append_left _

/-- **A step that breaks nothing** leaves the ends in step. -/
theorem Joined.step (hjoined : Joined len w) {move : Move} {after : World T F}
    (hunbroken : w.Unbroken move) (hstep : w.Step len move after) : Joined len after := by
  cases hstep with
  | badge hnext hwhole hsent hheard => exact hjoined.acted hnext hwhole hheard hunbroken
  | serve hwhole hout => exact hjoined.answered hwhole hout
  | type bytes =>
      refine ⟨hjoined.length, hjoined.unasked, hjoined.requests, hjoined.answers.sent ?_,
        hjoined.sound⟩
      intro frame hframe
      obtain ⟨fragment, hfragment, rfl⟩ := List.mem_map.mp hframe
      exact Frame.whole_of_mem_fragments hfragment
  | releaseRequests count =>
      exact ⟨hjoined.length, hjoined.unasked, hjoined.requests.released count, hjoined.answers,
        hjoined.sound⟩
  | releaseAnswers count =>
      exact ⟨hjoined.length, hjoined.unasked, hjoined.requests, hjoined.answers.released count,
        hjoined.sound⟩
  | loseRequest index =>
      exact ⟨hjoined.length, hjoined.unasked, hjoined.requests.lost index, hjoined.answers,
        hjoined.sound⟩
  | loseAnswer index =>
      exact ⟨hjoined.length, hjoined.unasked, hjoined.requests, hjoined.answers.lost index,
        hjoined.sound⟩

/-- **One careful step** keeps the invariant. -/
theorem Wired.step (hwired : Wired len w) {move : Move} {after : World T F}
    (hcareful : w.Careful move) (hstep : w.Step len move after) : Wired len after := by
  have hjoined := hwired.joined.step hcareful.unbroken hstep
  cases hstep with
  | badge hnext hwhole hsent hheard => exact hwired.acted hnext hwhole hsent hheard hcareful
  | serve hwhole hout => exact hwired.answered hwhole hout
  | type bytes =>
      have hnot {frame : Frame} (hframe : frame ∈ (Frame.conIn bytes).fragments)
          (hkind : ∀ chunk, frame ≠ .conIn chunk) : False := by
        obtain ⟨chunk, -, hchunk⟩ := List.mem_map.mp hframe
        exact hkind chunk hchunk.symm
      refine hjoined.wired fun page => (hwired.pages page).of_same rfl rfl ?_ ?_
      · intro data hpage
        rw [coming_typed]
        exact hpage.told (fun other hmem => hnot hmem (by simp)) fun hmem => hnot hmem (by simp)
      · intro data hpage
        rw [coming_typed]
        exact hpage.told fun other hmem => hnot hmem (by simp)
  | releaseRequests count =>
      refine hjoined.wired fun page => (hwired.pages page).of_same rfl rfl ?_ ?_
      · intro data hpage
        rwa [Channel.frames_released]
      · intro data hpage
        rwa [Channel.frames_released]
  | releaseAnswers count =>
      refine hjoined.wired fun page => (hwired.pages page).of_same rfl rfl ?_ ?_
      · intro data hpage
        rwa [coming_releaseAnswers]
      · intro data hpage
        rwa [coming_releaseAnswers]
  | loseRequest index =>
      refine hjoined.wired fun page => (hwired.pages page).of_same rfl rfl ?_ ?_
      · exact fun data hpage => hpage.lost (Channel.frames_lost ..) (List.Sublist.refl _)
      · exact fun data hpage => hpage.lost (Channel.frames_lost ..) (List.Sublist.refl _)
  | loseAnswer index =>
      refine hjoined.wired fun page => (hwired.pages page).of_same rfl rfl ?_ ?_
      · exact fun data hpage => hpage.lost (List.Sublist.refl _) (coming_loseAnswer index)
      · exact fun data hpage => hpage.lost (List.Sublist.refl _) (coming_loseAnswer index)

end World

end Invariant

end Baonix.EndToEnd

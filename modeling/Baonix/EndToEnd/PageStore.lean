import Baonix.EndToEnd.World

/-!
# The page store at the other end of the link

Seen through `read_page` and `write_page`, the image is a store of pages as long as no write
is begun while a write of its page, or an acknowledgement of one, is still on its way.  A
retry or a timeout can leave one there, and then it passes for the answer to the next.
-/

namespace Baonix.EndToEnd

open Baonix.Core hiding Action
open Baonix.LittleEndian Baonix.Scanning Baonix.Proto Baonix.Window Baonix.Badge Baonix.Host
open FlatImage (contents)

/-! ## Every careful run -/

section Runs

variable {T F : Type} [FlatImage F] [Polled T]

theorem World.Runs.wired {len : ℕ} {start w : World T F} (hstart : World.Wired len start)
    (hruns : World.Runs World.Careful len start w) : World.Wired len w := by
  induction hruns with
  | start => exact hstart
  | step _ _ hcareful hstep ih => exact ih.step hcareful hstep

/-- **A page store over a lossy link.**  In every careful run, when `write_page` returns
`Ok` the image holds what it wrote, and the host has served a request of this very call;
and when `read_page` returns `Ok` it returns what the last `write_page` of the page that
returned wrote, if it returned `Ok`. -/
theorem page_store (t : T) (img : F) {w : World T F}
    (hruns : World.Runs World.Careful (contents img).length (World.new t img) w) :
    (∀ page data r x, w.activity = .busy (.write page data) (.returned (.ok r)) x →
      HoldsPage (contents w.host.img) page data ∧
        (w.call, .writeReq page data) ∈ w.served) ∧
    ∀ page r x data, w.activity = .busy (.read page) (.returned (.ok r)) x →
      w.stored page = some data → r = .readResp page data := by
  have hwired := hruns.wired (World.wired_new t img)
  refine ⟨fun page data r x hactivity => ?_, fun page r x data hactivity hdata => ?_⟩
  · have hsound := hwired.sound
    have hwriting := (hwired.pages page).writing data (by rw [hactivity]; exact if_pos rfl)
    rw [hactivity] at hsound
    rw [World.coming, hactivity, fresh, List.singleton_append, (hsound.2 r rfl).of_write]
      at hwriting
    exact hwriting.acked (List.mem_cons_self ..)
  · have hsound := hwired.sound
    have hsettled := (hwired.pages page).settled (by rw [hactivity]; rfl) data hdata
    rw [hactivity] at hsound
    obtain ⟨found, hfound⟩ := (hsound.2 r rfl).of_read
    rw [World.coming, hactivity, fresh, List.singleton_append, hfound] at hsettled
    rw [hfound, hsettled.reads found (List.mem_cons_self ..)]

end Runs

/-! ## A transport that is told beforehand -/

/-- The clock tells what it was set to, and 3000 after that. -/
structure Tape where
  clock : List ℕ
  heard : List (List Byte)

instance : Polled Tape where
  arm t := (.ok (), t)
  send _ t := (.ok (), t)
  recv t := (.ok (t.heard.headD []), { t with heard := t.heard.tail })
  nowMs t := (t.clock.headD 3000, { t with clock := t.clock.tail })
  takePlatformFault t := (none, t)
  status t := (none, t)
  poll t := (.ok [], t)

def zeros : Page := fun _ => 0

def ones : Page := fun _ => 1

/-- An image of one page. -/
@[irreducible]
def blank : List Byte := List.replicate pageSize 0

theorem length_blank : blank.length = pageSize := by
  rw [blank, List.length_replicate]

theorem whole_writeReq (data : Page) : ∀ frame ∈ [Frame.writeReq 0 data], frame.Whole := by
  intro frame hframe
  rw [List.mem_singleton.mp hframe]
  exact Frame.whole_of_not_console (by simp) (by simp)

theorem whole_writeAck : ∀ frame ∈ [Frame.writeAck 0], frame.Whole := by
  intro frame hframe
  rw [List.mem_singleton.mp hframe]
  exact Frame.whole_of_not_console (by simp) (by simp)

/-- An idle link that has heard nothing, with an acknowledgement still to be heard. -/
structure Unheard (link : LinkInner Tape) : Prop where
  t : link.t = ⟨[], [encode (.writeAck 0)]⟩
  mux : link.mux = Mux.capturingNoiseCapped noiseSample

/-- The same in an exchange. -/
structure Listening (x : Exchanging Tape) : Prop where
  t : x.link.t = ⟨[], [encode (.writeAck 0)]⟩
  held : x.link.mux.held = []
  buf : x.link.mux.dec.buf = []
  asked : x.asked = 0
  began : x.began = 3000

theorem nowMs_tape (heard : List (List Byte)) :
    Transport.nowMs (⟨[], heard⟩ : Tape) = (3000, ⟨[], heard⟩) := rfl

theorem arm_tape (t : Tape) : Transport.arm t = (.ok (), t) := rfl

theorem send_tape (bytes : List Byte) (t : Tape) : Transport.send bytes t = (.ok (), t) := rfl

theorem recv_tape (bytes : List Byte) (heard : List (List Byte)) :
    Transport.recv (⟨[], bytes :: heard⟩ : Tape) = (.ok bytes, ⟨[], heard⟩) := rfl

/-- While the clock stands still a request is transmitted. -/
theorem attemptTurn_tape {x : Exchanging Tape} {heard : List (List Byte)}
    (ht : x.link.t = ⟨[], heard⟩) (hbegan : x.began = 3000) :
    x.attemptTurn = (.waiting 3000,
      { x.retried with
        log := x.log ++ [.clock 3000, .arm (.ok ()), .clock 3000, .send x.out (.ok ()),
          .clock 3000] }) := by
  have hretried : x.retried.link.t = ⟨[], heard⟩ := ht
  have hsame : x.retried.began = 3000 := hbegan
  have hnow : ¬ 3000 - x.began > 2000 := by omega
  simp only [Exchanging.attemptTurn, Exchanging.armed, Exchanging.transmit, Exchanging.clock,
    Exchanging.arm, Exchanging.send, Exchanging.called, nowMs_tape, arm_tape, send_tape, hretried,
    hsame, Nat.sub_self, recvDeadlineMs]
  simp only [hnow, if_false, List.append_assoc, List.cons_append, List.nil_append, ← hretried]
  simp
  rfl

/-- And what has come is heard. -/
theorem listen_tape {x : Exchanging Tape} {bytes : List Byte} {heard : List (List Byte)}
    (ht : x.link.t = ⟨[], bytes :: heard⟩) (hbegan : x.began = 3000) :
    x.listen 3000 = (.waiting 3000,
      Exchanging.deliver
        { x with
          link := { x.link with t := ⟨[], heard⟩ }
          log := x.log ++ [.clock 3000, .recv (.ok bytes)] } bytes) := by
  have hnow : ¬ 3000 - x.began > 2000 := by omega
  simp only [Exchanging.listen, Exchanging.clock, Exchanging.recv, Exchanging.called, nowMs_tape,
    recv_tape, ht, recvDeadlineMs, attemptDeadlineMs, hnow, if_false, List.append_assoc,
    List.cons_append, List.nil_append, Nat.sub_self, if_neg (Nat.not_lt_zero 250)]

theorem serves_nil {image after : List Byte} {replies : List Frame}
    (hserves : Serves image [] replies after) : replies = [] ∧ after = image := by
  cases hserves
  exact ⟨rfl, rfl⟩

theorem completed_encode {mux : Mux} (hbuf : mux.dec.buf = []) {frame : Frame}
    (hframe : frame.Whole) : mux.completed (encode frame) = [frame] := by
  have hone : ∀ other ∈ [frame], other.Whole := by simpa using hframe
  have hscan := scans_encode_whole hone []
  rw [List.flatMap_singleton, List.append_nil] at hscan
  rw [Mux.completed, (Decoder.drain_eq_run _).1, Decoder.push, hbuf, List.nil_append,
    run_eq_of_scans hscan rfl]
  rfl

section Moves

variable {T : Type} [Polled T]

theorem perform_turn {request : Request} {phase : Phase} {x : Exchanging T}
    {next : Phase × Exchanging T} (hstep : step request.want (phase, x) = next) :
    (Activity.busy request phase x).perform .turn = some (.busy request next.1 next.2) := by
  rw [← hstep]
  rfl

theorem events_turn {request : Request} {phase : Phase} {x : Exchanging T}
    {next : Phase × Exchanging T} (hstep : step request.want (phase, x) = next) :
    (Activity.busy request phase x).events .turn = next.2.log.drop x.log.length := by
  rw [← hstep]
  rfl

/-- With nothing held a turn of the inner loop listens. -/
theorem waitTurn_of_nothing {x : Exchanging T} (hheld : x.link.mux.held = []) (want : Byte)
    (sentAt : ℕ) : x.waitTurn want sentAt = x.listen sentAt := by
  have hnone (ty : Byte) : x.link.mux.takeMatching ty = none := by
    rw [Mux.takeMatching_eq_none, hheld]
    simp
  rw [Exchanging.waitTurn, hnone, hnone]

end Moves

section Parts

variable {allowed : World Tape (List Byte) → Move → Prop}
  (hallowed : ∀ w move, World.Careful w move → allowed w move) {len call : ℕ}
  {start : World Tape (List Byte)} {toHost : Channel ℕ} {host : Serving (List Byte)}
  {queue : List (Unit × Frame)} {served : List (ℕ × Frame)}
  {stored : BitVec 32 → Option Page} {data : Page}

include hallowed

/-- A write is begun, and its request leaves the badge. -/
theorem runs_sends (data : Page) {link : LinkInner Tape} (hlink : Unheard link)
    (hbegin : allowed ⟨.idle link, call, toHost, host, ⟨queue, [], 0⟩, served, stored⟩
      (.badge (.begin (.write 0 data)) [] 0))
    (hruns : World.Runs allowed len start
      ⟨.idle link, call, toHost, host, ⟨queue, [], 0⟩, served, stored⟩) :
    ∃ x, Listening x ∧ World.Runs allowed len start
      ⟨.busy (.write 0 data) (.waiting 3000) x, call + 1,
        ⟨toHost.queue ++ [(call + 1, .writeReq 0 data)], toHost.leaving, toHost.offset⟩, host,
        ⟨queue, [], 0⟩, served, stored⟩ := by
  let x := opened (.writeReq 0 data) 0 link
  have hbegun : World.Runs allowed len start
      ⟨.busy (.write 0 data) .attempt x, call + 1,
        ⟨toHost.queue ++ [], toHost.leaving, toHost.offset⟩, host, ⟨queue, [], 0⟩, served,
        stored⟩ := .step _ hruns hbegin (.badge rfl (by simp) rfl rfl)
  rw [List.append_nil] at hbegun
  have ht : x.link.t = ⟨[], [encode (.writeAck 0)]⟩ := by
    change (Transport.nowMs link.t).2 = _
    rw [hlink.t, nowMs_tape]
  have hbegan : x.began = 3000 := by
    change (Transport.nowMs link.t).1 = _
    rw [hlink.t, nowMs_tape]
  have hstep : step (Request.write 0 data).want (.attempt, x) = _ := attemptTurn_tape ht hbegan
  have hevents := events_turn hstep
  rw [List.drop_left] at hevents
  refine ⟨_, ?_, .step (.badge .turn [.writeReq 0 data] 0) hbegun
    (hallowed _ _ fun hbreaks => ?_) (.badge (perform_turn hstep) (whole_writeReq data) ?_ ?_)⟩
  · refine ⟨ht, ?_, ?_, rfl, hbegan⟩
    · change (discardStaleResponses link.mux).2.held = []
      rw [discardStaleResponses_eq, hlink.mux]
      rfl
    · change (discardStaleResponses link.mux).2.dec.buf = []
      rw [discardStaleResponses_eq, hlink.mux]
      rfl
  · cases hbreaks
  · rw [hevents]
    rfl
  · rw [hevents]
    rfl

/-- The acknowledgement reaches the badge, and the exchange takes it. -/
theorem runs_hears {x : Exchanging Tape} (hx : Listening x)
    (hruns : World.Runs allowed len start
      ⟨.busy (.write 0 data) (.waiting 3000) x, call, toHost, host,
        ⟨[((), .writeAck 0)], [], 0⟩, served, stored⟩) :
    ∃ w x, World.Runs allowed len start w ∧
      w.activity = .busy (.write 0 data) (.returned (.ok (.writeAck 0))) x ∧
      w.host = host := by
  have hreleased : World.Runs allowed len start
      ⟨.busy (.write 0 data) (.waiting 3000) x, call, toHost, host,
        ⟨[], [((), .writeAck 0)], 0⟩, served, stored⟩ :=
    .step (.releaseAnswers 1) hruns (hallowed _ _ trivial) (.releaseAnswers 1)
  let heard : Exchanging Tape :=
    { x with
      link := { x.link with t := ⟨[], []⟩ }
      log := x.log ++ [.clock 3000, .recv (.ok (encode (.writeAck 0)))] }
  have hlisten : step (Request.write 0 data).want (.waiting 3000, x) =
      (.waiting 3000, heard.deliver (encode (.writeAck 0))) :=
    (waitTurn_of_nothing hx.held _ _).trans (listen_tape hx.t hx.began)
  have hevents := events_turn hlisten
  rw [(heard.deliver_kept _).2.2.2.2, List.drop_left] at hevents
  have hack : (Frame.writeAck 0).Whole := whole_writeAck _ (List.mem_singleton_self _)
  have hheld : (heard.deliver (encode (.writeAck 0))).link.mux.held = [.writeAck 0] := by
    rw [Exchanging.deliver, if_neg (encode_ne_nil hack)]
    change (x.link.mux.push (encode (.writeAck 0))).held = _
    rw [Mux.held_push, hx.held, completed_encode hx.buf hack]
    rfl
  have hasked : (heard.deliver (encode (.writeAck 0))).asked = 0 :=
    (heard.deliver_kept _).2.1.trans hx.asked
  have hturn := World.Runs.step (.badge .turn [] (encode (.writeAck 0)).length) hreleased
    (hallowed _ _ fun hbreaks => by cases hbreaks)
    (.badge (perform_turn hlisten) (by simp) (by rw [hevents]; rfl) (by
      rw [hevents]
      change encode (.writeAck 0) ++ [] = ((encode (.writeAck 0) ++ []).drop 0).take _
      rw [List.append_nil, List.drop_zero, List.take_length]))
  generalize heard.deliver (encode (.writeAck 0)) = after at *
  have htake : after.link.mux.takeMatching tyWriteAck =
      some (.writeAck 0, { after.link.mux with held := [] }) := by
    rw [Mux.takeMatching, hheld]
    rfl
  have htaken : step (Request.write 0 data).want (.waiting 3000, after) =
      (.returned (.ok (.writeAck 0)), after.withMux { after.link.mux with held := [] }) := by
    change after.waitTurn tyWriteAck 3000 = _
    rw [Exchanging.waitTurn, htake]
    exact if_pos (congrArg some hasked.symm)
  have hquiet := events_turn htaken
  rw [Exchanging.withMux, List.drop_length] at hquiet
  exact ⟨_, _, .step (.badge .turn [] 0) hturn (hallowed _ _ fun hbreaks => by cases hbreaks)
    (.badge (perform_turn htaken) (by simp) (by
      change ((Activity.busy _ _ after).events .turn).flatMap sentBytes = _
      rw [hquiet]
      rfl) (by
      change ((Activity.busy _ _ after).events .turn).flatMap Event.delivered = _
      rw [hquiet]
      rfl)), rfl, rfl⟩

/-- A write on its way reaches the host, which stores it and acknowledges it. -/
theorem runs_serves {activity : Activity Tape} {tag : ℕ}
    (hruns : World.Runs allowed pageSize start
      ⟨activity, call, ⟨[(tag, .writeReq 0 data)], [], 0⟩, Host.opened blank, .empty, [], stored⟩) :
    ∃ toHost host served, HoldsPage (contents host.img) 0 data ∧
      World.Runs allowed pageSize start
        ⟨activity, call, toHost, host, ⟨[((), .writeAck 0)], [], 0⟩, served, stored⟩ := by
  have hreleased : World.Runs allowed pageSize start
      ⟨activity, call, ⟨[], [(tag, .writeReq 0 data)], 0⟩, Host.opened blank, .empty, [], stored⟩ :=
    .step (.releaseRequests 1) hruns (hallowed _ _ trivial) (.releaseRequests 1)
  have hwhole : (Frame.writeReq 0 data).Whole := whole_writeReq data _ (List.mem_singleton_self _)
  obtain ⟨himg, hout, -, -⟩ :=
    serveOnce_answers pageSize (Host.opened blank) (encode (.writeReq 0 data))
  rw [completed_encode rfl hwhole] at himg hout
  have hinside : Inside blank 0 := by
    rw [Inside, length_blank]
    decide
  have hbytes : World.serving (⟨activity, call, ⟨[], [(tag, .writeReq 0 data)], 0⟩,
      Host.opened blank, .empty, [], stored⟩ : World Tape (List Byte)) pageSize 4109 =
        serveOnce pageSize (Host.opened blank) (encode (.writeReq 0 data)) := by
    have hnext : ((encode (.writeReq 0 data) ++ []).drop 0).take 4109 =
        encode (.writeReq 0 data) := by
      rw [List.append_nil, List.drop_zero, ← length_encode_writeReq 0 data, List.take_length]
    rw [World.serving]
    exact congrArg _ hnext
  have hanswers : Serves (contents blank) [.writeReq 0 data]
      (answers pageSize blank [.writeReq 0 data]).1
      (contents (answers pageSize blank [.writeReq 0 data]).2) :=
    answers_serves length_blank.symm (serveOrder_isRequest [.writeReq 0 data])
  have hserved : (answers pageSize blank [.writeReq 0 data]).1 = [.writeAck 0] ∧
      HoldsPage (contents (answers pageSize blank [.writeReq 0 data]).2) 0 data := by
    generalize answers pageSize blank [.writeReq 0 data] = result at hanswers ⊢
    obtain ⟨replies, after⟩ := result
    cases hanswers with
    | write _ hrest =>
        obtain ⟨rfl, hafter⟩ := serves_nil hrest
        refine ⟨rfl, ?_⟩
        rw [hafter]
        exact holdsPage_overwrite hinside data
    | writeOutside houtside => exact absurd hinside houtside
  refine ⟨_, _, _, ?_, .step (.serve 4109 [.writeAck 0]) hreleased (hallowed _ _ trivial)
    (.serve whole_writeAck ?_)⟩
  · rw [hbytes, himg]
    exact hserved.2
  · rw [hbytes, hout]
    change [] ++ (answers pageSize blank [.writeReq 0 data]).1.flatMap encode = _
    rw [hserved.1]
    rfl

end Parts

/-- Every step is allowed. -/
def anything (_ : World Tape (List Byte)) (_ : Move) : Prop := True

/-- A write times out: the deadline passes before anything comes. -/
theorem runs_late (data : Page) :
    ∃ link stored, Unheard link ∧
      World.Runs anything pageSize (World.new ⟨[0, 0, 0, 0], [encode (.writeAck 0)]⟩ blank)
        ⟨.idle link, 1, ⟨[(1, .writeReq 0 data)], [], 0⟩, Host.opened blank, .empty, [],
          stored⟩ := by
  let link := LinkInner.new (⟨[0, 0, 0, 0], [encode (.writeAck 0)]⟩ : Tape)
  let opened := opened (.writeReq 0 data) 0 link
  let sent := opened.attemptTurn.2
  let late := (sent.listen 0).2
  have hbegun : World.Runs anything pageSize (World.new _ blank)
      ⟨.busy (.write 0 data) .attempt opened, 1, .empty, Host.opened blank, .empty, [],
        fun _ => none⟩ :=
    .step (.badge (.begin (.write 0 data)) [] 0) .start trivial (.badge rfl (by simp) rfl rfl)
  have hsent : World.Runs anything pageSize (World.new _ blank)
      ⟨.busy (.write 0 data) (.waiting 0) sent, 1, ⟨[(1, .writeReq 0 data)], [], 0⟩,
        Host.opened blank, .empty, [], fun _ => none⟩ :=
    .step (.badge .turn [.writeReq 0 data] 0) hbegun trivial
      (.badge rfl (whole_writeReq data) rfl rfl)
  have hheld : sent.link.mux.held = [] := by
    change (discardStaleResponses link.mux).2.held = []
    rw [discardStaleResponses_eq]
    rfl
  have hlisten : step (Request.write 0 data).want (.waiting 0, sent) = sent.listen 0 :=
    waitTurn_of_nothing hheld _ _
  have hlate : World.Runs anything pageSize (World.new _ blank)
      ⟨.busy (.write 0 data) (sent.listen 0).1 late, 1, ⟨[(1, .writeReq 0 data)], [], 0⟩,
        Host.opened blank, .empty, [], fun _ => none⟩ :=
    .step (.badge .turn [] 0) hsent trivial
      (.badge (perform_turn hlisten) (by simp) (by
        change ((Activity.busy _ _ sent).events .turn).flatMap sentBytes = _
        rw [events_turn hlisten]
        rfl) (by
        change ((Activity.busy _ _ sent).events .turn).flatMap Event.delivered = _
        rw [events_turn hlisten]
        rfl))
  let fault : LinkFault := .timeout 1 3000 3000 0 0
  have hbroken : (sent.listen 0).1 = .broken fault := rfl
  rw [hbroken] at hlate
  have hfailed : World.Runs anything pageSize (World.new _ blank)
      ⟨.busy (.write 0 data) (.returned (.error .medium)) (late.giveUp fault), 1,
        ⟨[(1, .writeReq 0 data)], [], 0⟩, Host.opened blank, .empty, [], fun _ => none⟩ :=
    .step (.badge .turn [] 0) hlate trivial (.badge rfl (by simp) (by
      change ((late.giveUp fault).log.drop late.log.length).flatMap sentBytes = _
      rw [Exchanging.giveUp, List.drop_length]
      rfl) (by
      change ((late.giveUp fault).log.drop late.log.length).flatMap Event.delivered = _
      rw [Exchanging.giveUp, List.drop_length]
      rfl))
  refine ⟨_, _, ⟨?_, ?_⟩, .step (.badge .finish [] 0) hfailed trivial
    (.badge rfl (by simp) rfl rfl)⟩
  · exact LinkInner.t_giveUp late fault
  · rfl

/-- **The answer to a write that timed out passes for the answer to the next write** of the
page: it returns `Ok`, and the image does not hold what it wrote. -/
theorem stale_ack :
    ∃ w x, World.Runs anything pageSize (World.new ⟨[0, 0, 0, 0], [encode (.writeAck 0)]⟩ blank) w ∧
      w.activity = .busy (.write 0 ones) (.returned (.ok (.writeAck 0))) x ∧
      ¬ HoldsPage (contents w.host.img) 0 ones := by
  have hallowed : ∀ w move, World.Careful w move → anything w move := fun _ _ _ => trivial
  obtain ⟨link, stored, hlink, hlate⟩ := runs_late zeros
  obtain ⟨toHost, host, served, hholds, hserved⟩ := runs_serves hallowed hlate
  obtain ⟨x, hx, hsent⟩ := runs_sends hallowed ones hlink trivial hserved
  obtain ⟨w, x, hruns, hactivity, hhost⟩ := runs_hears hallowed hx hsent
  refine ⟨w, x, hruns, hactivity, fun hones => ?_⟩
  rw [hhost] at hones
  have hsame := congrFun (hholds.eq hones.bytes) 0
  exact absurd hsame (by decide)

/-- A write that is acknowledged by the host that stored it. -/
theorem page_store_acknowledged :
    ∃ w, World.Runs World.Careful (contents blank).length
        (World.new (⟨[], [encode (.writeAck 0)]⟩ : Tape) blank) w ∧
      HoldsPage (contents w.host.img) 0 ones := by
  have hlength : (contents blank).length = pageSize := length_blank
  have hallowed (w : World Tape (List Byte)) (move : Move) (hcareful : w.Careful move) :
      w.Careful move := hcareful
  let link : LinkInner Tape := .new ⟨[], [encode (.writeAck 0)]⟩
  have hlink : Unheard link := ⟨rfl, rfl⟩
  have hstart : World.Runs World.Careful pageSize (World.new link.t blank)
      ⟨.idle link, 0, .empty, Host.opened blank, ⟨[], [], 0⟩, [], fun _ => none⟩ := .start
  have hnothing : World.Careful (⟨.idle link, 0, .empty, Host.opened blank, ⟨[], [], 0⟩, [],
      fun _ => none⟩ : World Tape (List Byte)) (.badge (.begin (.write 0 ones)) [] 0) :=
    ⟨fun _ _ => List.not_mem_nil, List.not_mem_nil⟩
  obtain ⟨x, hx, hsent⟩ := runs_sends hallowed ones hlink hnothing hstart
  obtain ⟨toHost, host, served, -, hserved⟩ := runs_serves hallowed hsent
  obtain ⟨w, x, hruns, hactivity, -⟩ := runs_hears hallowed hx hserved
  rw [← hlength] at hruns
  exact ⟨w, hruns, ((page_store _ blank hruns).1 0 ones _ x hactivity).1⟩

end Baonix.EndToEnd

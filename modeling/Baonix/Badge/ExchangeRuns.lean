import Baonix.Badge.Exchange

/-!
# The discipline of an exchange

Whatever the transport does, an exchange transmits a bounded number of times, arms
and looks at the clock in front of every transmission, ends soon after its deadline,
and returns only what answers its own request.
-/

namespace Baonix.Badge

open Baonix.Core Baonix.LittleEndian Baonix.Scanning Baonix.Proto

/-! ## Stale responses -/

theorem discardType_eq (mux : Mux) (ty : Byte) :
    (discardType mux ty).2 = { mux with held := mux.held.filter (·.typeByte ≠ ty) } := by
  fun_induction discardType mux ty with
  | case1 mux hnone =>
      rw [Mux.takeMatching_eq_none] at hnone
      rw [List.filter_eq_self.mpr (by simpa using hnone)]
  | case2 mux frame next htake ih =>
      obtain ⟨htype, front, rest, hheld, -, rfl⟩ := Mux.takeMatching_eq_some htake
      rw [ih, hheld]
      simp [htype]

/-- Nothing is held afterwards that could answer anything. -/
theorem discardStaleResponses_eq (mux : Mux) :
    (discardStaleResponses mux).2 =
      { mux with held := mux.held.filter (·.typeByte ∉ responseTypes) } := by
  simp only [discardStaleResponses, responseTypes, List.foldl_cons, List.foldl_nil,
    discardType_eq, List.filter_filter, List.mem_cons, List.not_mem_nil, or_false, not_or]
  congr 2
  funext frame
  simp only [Bool.decide_and, Bool.and_comm, Bool.and_left_comm]

/-! ## What a turn can do -/

/-- The calls of `transmit`, and the phase they lead to. -/
inductive Transmits (out : List Byte) : List Event → Phase → Prop
  | failed (err : SendError) : Transmits out [.send out (.error err)] (.broken (.ofSend err))
  | sent (sentAt : ℕ) : Transmits out [.send out (.ok ()), .clock sentAt] (.waiting sentAt)

/-- The calls behind a successful `arm`. -/
inductive Checks (began : ℕ) (out : List Byte) : List Event → Phase → Prop
  | late (now : ℕ) (fault : LinkFault) : Checks began out [.clock now] (.broken fault)
  | inTime {now : ℕ} {events : List Event} {phase : Phase} (hnow : now - began ≤ recvDeadlineMs)
      (htransmits : Transmits out events phase) : Checks began out (.clock now :: events) phase

/-- The calls of a turn of `'attempts` up to its inner loop. -/
inductive Attempts (began : ℕ) (out : List Byte) : List Event → Phase → Prop
  | late (now : ℕ) (fault : LinkFault) : Attempts began out [.clock now] (.broken fault)
  | unparked (now : ℕ) :
      Attempts began out [.clock now, .arm (.error ())] (.broken .notParked)
  | parked {now : ℕ} {events : List Event} {phase : Phase} (hchecks : Checks began out events phase) :
      Attempts began out (.clock now :: .arm (.ok ()) :: events) phase

variable {T : Type} [Transport T]

/-- The events are calls of the transport, one after the other, with its answers. -/
inductive Calls : T → List Event → T → Prop
  | done (t : T) : Calls t [] t
  | clock {t last : T} {events : List Event} (hrest : Calls (Transport.nowMs t).2 events last) :
      Calls t (.clock (Transport.nowMs t).1 :: events) last
  | arm {t last : T} {events : List Event} (hrest : Calls (Transport.arm t).2 events last) :
      Calls t (.arm (Transport.arm t).1 :: events) last
  | send {t last : T} {events : List Event} (bytes : List Byte)
      (hrest : Calls (Transport.send bytes t).2 events last) :
      Calls t (.send bytes (Transport.send bytes t).1 :: events) last
  | recv {t last : T} {events : List Event} (hrest : Calls (Transport.recv t).2 events last) :
      Calls t (.recv (Transport.recv t).1 :: events) last

theorem Calls.trans {first middle last : T} {events more : List Event}
    (hfirst : Calls first events middle) (hmore : Calls middle more last) :
    Calls first (events ++ more) last := by
  induction hfirst with
  | done => exact hmore
  | clock _ ih => exact .clock (ih hmore)
  | arm _ ih => exact .arm (ih hmore)
  | send bytes _ ih => exact .send bytes (ih hmore)
  | recv _ ih => exact .recv (ih hmore)

namespace Exchanging

/-- The exchange behind some calls. -/
structure Behind (x : Exchanging T) (events : List Event) (after : Exchanging T) : Prop where
  calls : Calls x.link.t events after.link.t
  eq : after = { x with link := { x.link with t := after.link.t }, log := x.log ++ events }

theorem Behind.trans {x middle after : Exchanging T} {events more : List Event}
    (hfirst : x.Behind events middle) (hmore : middle.Behind more after) :
    x.Behind (events ++ more) after := by
  refine ⟨hfirst.calls.trans hmore.calls, ?_⟩
  have heq := hmore.eq
  rw [hfirst.eq] at heq
  rw [heq]
  simp only [List.append_assoc]

variable (x : Exchanging T)

theorem clock_behind : x.Behind [.clock x.clock.1] x.clock.2 := ⟨.clock (.done _), rfl⟩

theorem arm_behind : x.Behind [.arm x.arm.1] x.arm.2 := ⟨.arm (.done _), rfl⟩

theorem send_behind : x.Behind [.send x.out x.send.1] x.send.2 := ⟨.send _ (.done _), rfl⟩

theorem recv_behind : x.Behind [.recv x.recv.1] x.recv.2 := ⟨.recv (.done _), rfl⟩

theorem transmit_calls :
    ∃ events, Transmits x.out events x.transmit.1 ∧ x.Behind events x.transmit.2 := by
  have hsend := x.send_behind
  rw [transmit]
  cases hreply : x.send.1 with
  | error err =>
      rw [hreply] at hsend
      exact ⟨_, .failed err, hsend⟩
  | ok value =>
      rw [hreply] at hsend
      exact ⟨_, .sent _, hsend.trans x.send.2.clock_behind⟩

theorem armed_calls :
    ∃ events, Checks x.began x.out events x.armed.1 ∧ x.Behind events x.armed.2 := by
  rw [armed]
  split
  · exact ⟨_, .late _ _, x.clock_behind⟩
  · rename_i hnow
    obtain ⟨events, htransmits, hbehind⟩ := x.clock.2.transmit_calls
    exact ⟨_, .inTime (not_lt.mp hnow) htransmits, x.clock_behind.trans hbehind⟩

theorem attemptTurn_calls :
    ∃ events, Attempts x.began x.out events x.attemptTurn.1 ∧
      x.retried.Behind events x.attemptTurn.2 := by
  rw [attemptTurn]
  dsimp only
  split
  · exact ⟨_, .late _ _, x.retried.clock_behind⟩
  · have harm := x.retried.clock_behind.trans x.retried.clock.2.arm_behind
    cases hreply : x.retried.clock.2.arm.1 with
    | error err =>
        rw [hreply] at harm
        exact ⟨_, .unparked _, harm⟩
    | ok value =>
        rw [hreply] at harm
        obtain ⟨events, hchecks, hbehind⟩ := x.retried.clock.2.arm.2.armed_calls
        exact ⟨_, .parked hchecks, harm.trans hbehind⟩

/-- What a turn of the inner loop can do. -/
inductive Waits (want : Byte) (sentAt : ℕ) : Phase → Exchanging T → Prop
  | answered {r : Frame} {mux : Mux} (htake : x.link.mux.takeMatching want = some (r, mux))
      (hpage : framePage r = some x.asked) : Waits want sentAt (.returned (.ok r)) (x.withMux mux)
  | otherPage {r : Frame} {mux : Mux} (htake : x.link.mux.takeMatching want = some (r, mux)) :
      Waits want sentAt (.waiting sentAt)
        { x with
          mismatched := x.mismatched + 1
          lastMismatch := framePage r
          link := { x.link with mux := mux, lateDropped := x.link.lateDropped + 1 } }
  | refused {code : BitVec 16} {mux : Mux}
      (htake : x.link.mux.takeMatching tyErr = some (.err code x.asked, mux)) :
      Waits want sentAt (.returned (.error (errCode code))) (x.withMux mux)
  | stray {r : Frame} {mux : Mux} (htake : x.link.mux.takeMatching tyErr = some (r, mux)) :
      Waits want sentAt (.waiting sentAt) (x.withMux mux)
  | gaveUp {now : ℕ} {after : Exchanging T} (fault : LinkFault)
      (hafter : x.Behind [.clock now] after) : Waits want sentAt (.broken fault) after
  | retry {now : ℕ} {after : Exchanging T} (hbudget : x.attempts ≤ retryBudget)
      (hafter : x.Behind [.clock now] after) :
      Waits want sentAt .attempt
        { after with link := { after.link with retries := after.link.retries + 1 } }
  | deaf {now : ℕ} {after : Exchanging T}
      (hafter : x.Behind [.clock now, .recv (.error ())] after) :
      Waits want sentAt (.broken .recvFailed) after
  | heard {now : ℕ} {bytes : List Byte} {after : Exchanging T}
      (hafter : x.Behind [.clock now, .recv (.ok bytes)] after) :
      Waits want sentAt (.waiting sentAt) (after.deliver bytes)

theorem listen_waits (want : Byte) (sentAt : ℕ) :
    Waits x want sentAt (x.listen sentAt).1 (x.listen sentAt).2 := by
  rw [listen]
  split
  · exact .gaveUp _ x.clock_behind
  split
  · split
    · exact .gaveUp _ x.clock_behind
    · rename_i hbudget
      exact .retry (not_lt.mp hbudget) x.clock_behind
  · have hrecv := x.clock_behind.trans x.clock.2.recv_behind
    dsimp only
    cases hreply : x.clock.2.recv.1 with
    | error err =>
        rw [hreply] at hrecv
        exact .deaf hrecv
    | ok bytes =>
        rw [hreply] at hrecv
        exact .heard hrecv

theorem waitTurn_waits (want : Byte) (sentAt : ℕ) :
    Waits x want sentAt (x.waitTurn want sentAt).1 (x.waitTurn want sentAt).2 := by
  rw [waitTurn]
  split
  · rename_i r mux htake
    split
    · rename_i hpage
      exact .answered htake hpage
    · exact .otherPage htake
  · split
    · rename_i code page mux htake
      split
      · rename_i hpage
        subst hpage
        exact .refused htake
      · exact .stray htake
    · rename_i frame mux hnot htake
      obtain ⟨htype, -⟩ := Mux.takeMatching_eq_some htake
      cases frame with
      | err code page => exact absurd rfl (hnot code page)
      | _ => cases htype
    · exact x.listen_waits want sentAt

omit [Transport T] in
/-- What a delivery leaves alone. -/
theorem deliver_kept (bytes : List Byte) :
    (x.deliver bytes).out = x.out ∧ (x.deliver bytes).asked = x.asked ∧
      (x.deliver bytes).began = x.began ∧ (x.deliver bytes).attempts = x.attempts ∧
      (x.deliver bytes).log = x.log := by
  rw [deliver]
  split <;> exact ⟨rfl, rfl, rfl, rfl, rfl⟩

end Exchanging

/-! ## Transmissions -/

def Event.isSend : Event → Bool
  | .send _ _ => true
  | _ => false

/-- Every transmission is of `out`, right behind a successful `arm` and a look at a clock
that was in time. -/
def Guarded (began : ℕ) (out : List Byte) (log : List Event) : Prop :=
  ∀ before bytes reply after, log = before ++ .send bytes reply :: after →
    bytes = out ∧ ∃ front first last,
      before = front ++ [.clock first, .arm (.ok ()), .clock last] ∧ last - began ≤ recvDeadlineMs

section Transmissions

variable {began : ℕ} {out : List Byte} {log events : List Event} {phase : Phase}

theorem Guarded.of_not_send (hevents : ∀ event ∈ events, event.isSend = false) :
    Guarded began out events := by
  intro before bytes reply after hsplit
  have hsend := hevents (.send bytes reply) (by simp [hsplit])
  cases hsend

theorem Guarded.append (hlog : Guarded began out log) (hevents : Guarded began out events) :
    Guarded began out (log ++ events) := by
  intro before bytes reply after hsplit
  rcases List.append_eq_append_iff.mp hsplit with ⟨middle, rfl, hlater⟩ | ⟨middle, hfront, hlater⟩
  · obtain ⟨hbytes, front, first, last, rfl, hlast⟩ := hevents middle bytes reply after hlater
    exact ⟨hbytes, log ++ front, first, last, (List.append_assoc ..).symm, hlast⟩
  · cases middle with
    | nil =>
        obtain ⟨-, front, first, last, hnil, -⟩ := hevents [] bytes reply after hlater.symm
        simp at hnil
    | cons event middle =>
        cases hlater
        exact hlog before bytes reply middle hfront

/-- One transmission behind the calls that guard it. -/
theorem Guarded.transmission {first last : ℕ} (hlast : last - began ≤ recvDeadlineMs)
    (reply : Except SendError Unit) (hevents : ∀ event ∈ events, event.isSend = false) :
    Guarded began out
      (.clock first :: .arm (.ok ()) :: .clock last :: .send out reply :: events) := by
  intro before bytes answer after hsplit
  match before with
  | [] => cases hsplit
  | [_] => cases hsplit
  | [_, _] => cases hsplit
  | [_, _, _] =>
      cases hsplit
      exact ⟨rfl, [], first, last, rfl, hlast⟩
  | _ :: _ :: _ :: _ :: before =>
      cases hsplit
      have hsend := hevents (.send bytes answer) (by simp)
      cases hsend

theorem Transmits.guarded (htransmits : Transmits out events phase) {first last : ℕ}
    (hlast : last - began ≤ recvDeadlineMs) :
    Guarded began out (.clock first :: .arm (.ok ()) :: .clock last :: events) ∧
      (events.filter Event.isSend).length = 1 ∧ phase ≠ .attempt := by
  cases htransmits with
  | failed err => exact ⟨.transmission hlast _ (by simp), rfl, by simp⟩
  | sent sentAt => exact ⟨.transmission hlast _ (by simp [Event.isSend]), rfl, by simp⟩

/-- A turn of `'attempts` transmits at most once, guarded. -/
theorem Attempts.guarded (hattempts : Attempts began out events phase) :
    Guarded began out events ∧ (events.filter Event.isSend).length ≤ 1 ∧ phase ≠ .attempt := by
  cases hattempts with
  | late now fault => exact ⟨.of_not_send (by simp [Event.isSend]), Nat.zero_le 1, by simp⟩
  | unparked now => exact ⟨.of_not_send (by simp [Event.isSend]), Nat.zero_le 1, by simp⟩
  | parked hchecks =>
      cases hchecks with
      | late last fault => exact ⟨.of_not_send (by simp [Event.isSend]), Nat.zero_le 1, by simp⟩
      | inTime hlast htransmits =>
          obtain ⟨hguarded, hone, hphase⟩ := htransmits.guarded hlast
          exact ⟨hguarded, hone.le, hphase⟩

end Transmissions

/-- What an exchange has done with the transport so far. -/
structure Disciplined (f : Frame) (began : ℕ) (phase : Phase) (x : Exchanging T) : Prop where
  out : x.out = encode f
  asked : framePage f = some x.asked
  start : x.began = began
  transmissions : (x.log.filter Event.isSend).length ≤ x.attempts
  attempts : x.attempts ≤ retryBudget + 1
  /-- An attempt is begun only inside the budget. -/
  budget : phase = .attempt → x.attempts ≤ retryBudget
  guarded : Guarded began (encode f) x.log

namespace Disciplined

variable {f : Frame} {began : ℕ} {phase : Phase} {x : Exchanging T}

omit [Transport T] in
/-- Calls that transmit nothing. -/
theorem quiet (hx : Disciplined f began phase x) {after : Exchanging T} {events : List Event}
    {next : Phase} (hout : after.out = x.out) (hasked : after.asked = x.asked)
    (hbegan : after.began = x.began) (hattempts : after.attempts = x.attempts)
    (hlog : after.log = x.log ++ events) (hevents : ∀ event ∈ events, event.isSend = false)
    (hnext : next = .attempt → x.attempts ≤ retryBudget) : Disciplined f began next after where
  out := hout.trans hx.out
  asked := hx.asked.trans (congrArg some hasked.symm)
  start := hbegan.trans hx.start
  transmissions := by
    have hnone : events.filter Event.isSend = [] := List.filter_eq_nil_iff.mpr (by simpa using hevents)
    rw [hlog, List.filter_append, hnone, List.append_nil, hattempts]
    exact hx.transmissions
  attempts := hattempts.trans_le hx.attempts
  budget hphase := hattempts.trans_le (hnext hphase)
  guarded := by
    rw [hlog]
    exact hx.guarded.append (.of_not_send hevents)

theorem attemptTurn (hx : Disciplined f began .attempt x) :
    Disciplined f began x.attemptTurn.1 x.attemptTurn.2 := by
  obtain ⟨events, hattempts, hbehind⟩ := x.attemptTurn_calls
  obtain ⟨hguarded, hone, hphase⟩ := hattempts.guarded
  have hbudget := hx.budget rfl
  have htransmissions := hx.transmissions
  rw [hx.out, hx.start] at hguarded
  rw [hbehind.eq]
  refine ⟨hx.out, hx.asked, hx.start, ?_, Nat.succ_le_succ hbudget, fun hattempt => absurd hattempt hphase,
    hx.guarded.append hguarded⟩
  change ((x.log ++ events).filter Event.isSend).length ≤ x.attempts + 1
  rw [List.filter_append, List.length_append]
  omega

theorem waits (hx : Disciplined f began phase x) {want : Byte} {sentAt : ℕ} {next : Phase}
    {after : Exchanging T} (hwaits : x.Waits want sentAt next after) :
    Disciplined f began next after := by
  cases hwaits with
  | answered htake hpage =>
      exact hx.quiet rfl rfl rfl rfl (List.append_nil _).symm (by simp) (by simp)
  | otherPage htake => exact hx.quiet rfl rfl rfl rfl (List.append_nil _).symm (by simp) (by simp)
  | refused htake => exact hx.quiet rfl rfl rfl rfl (List.append_nil _).symm (by simp) (by simp)
  | stray htake => exact hx.quiet rfl rfl rfl rfl (List.append_nil _).symm (by simp) (by simp)
  | gaveUp fault hafter =>
      rw [hafter.eq]
      exact hx.quiet rfl rfl rfl rfl rfl (by simp [Event.isSend]) (by simp)
  | retry hbudget hafter =>
      rw [hafter.eq]
      exact hx.quiet rfl rfl rfl rfl rfl (by simp [Event.isSend]) fun _ => hbudget
  | deaf hafter =>
      rw [hafter.eq]
      exact hx.quiet rfl rfl rfl rfl rfl (by simp [Event.isSend]) (by simp)
  | @heard now bytes after hafter =>
      obtain ⟨hout, hasked, hbegan, hattempts, hlog⟩ := after.deliver_kept bytes
      have heq := hafter.eq
      exact hx.quiet (hout.trans (by rw [heq])) (hasked.trans (by rw [heq]))
        (hbegan.trans (by rw [heq])) (hattempts.trans (by rw [heq]))
        (hlog.trans (congrArg Exchanging.log heq)) (by simp [Event.isSend]) nofun

/-- **Every turn keeps the discipline.** -/
theorem step (want : Byte) (hx : Disciplined f began phase x) :
    Disciplined f began (step want (phase, x)).1 (step want (phase, x)).2 := by
  cases phase with
  | attempt => exact hx.attemptTurn
  | waiting sentAt => exact hx.waits (x.waitTurn_waits want sentAt)
  | broken fault => exact hx.quiet rfl rfl rfl rfl (List.append_nil _).symm (by simp) nofun
  | returned result => exact hx

end Disciplined

/-! ## What is returned -/

/-- The bytes a call delivered. -/
def Event.delivered : Event → List Byte
  | .recv (.ok bytes) => bytes
  | _ => []

/-- The decoder took the frame from the stream. -/
def Decodes (stream : List Byte) (frame : Frame) : Prop :=
  ∃ tokens rest, Scans wire stream tokens rest ∧ frame ∈ framesOf tokens

/-- **A frame taken from a stream stands in it**, checksum and all. -/
theorem Decodes.bytes {stream : List Byte} {frame : Frame} (hdecodes : Decodes stream frame) :
    frame.Whole ∧ ∃ before after, stream = before ++ (encode frame ++ after) := by
  obtain ⟨tokens, rest, hscan, hframe⟩ := hdecodes
  obtain ⟨token, htoken, hdecoded⟩ := List.mem_filterMap.mp hframe
  cases token with
  | frame bytes decoded =>
      cases hdecoded
      obtain ⟨hwhole, hbytes⟩ := scans_valid hscan _ htoken
      obtain ⟨front, back, hsplit⟩ := List.append_of_mem htoken
      refine ⟨hwhole, front.flatMap Token.bytes, back.flatMap Token.bytes ++ rest, ?_⟩
      rw [← hscan.conserves Token.bytes wire_bytes, hsplit, List.flatMap_append, List.flatMap_cons,
        Token.bytes, hbytes, List.append_assoc, List.append_assoc]
  | noise bytes => cases hdecoded
  | foreign bytes => cases hdecoded

/-- The decoder has taken `tokens` from what came before the exchange and in it. -/
def Decoding (early : List Byte) (x : Exchanging T) (tokens : List Token) : Prop :=
  Scans wire (early ++ x.log.flatMap Event.delivered) tokens x.link.mux.dec.buf

/-- What is held that could answer a request came during the exchange. -/
def Fresh (x : Exchanging T) (tokens : List Token) : Prop :=
  ∀ frame ∈ x.link.mux.held, frame.typeByte ∈ responseTypes → frame ∈ framesOf tokens

/-- What an exchange knows in each phase about the frames it holds or returns; `early` is
what the decoder had been left with before. -/
def Answering (want : Byte) (asked : BitVec 32) (early : List Byte) :
    Phase → Exchanging T → Prop
  | .attempt, x => ∃ tokens, Decoding early x tokens
  | .waiting _, x => ∃ tokens, Decoding early x tokens ∧ Fresh x tokens
  | .broken _, _ => True
  | .returned (.ok frame), x =>
      frame.typeByte = want ∧ framePage frame = some asked ∧
        Decodes (early ++ x.log.flatMap Event.delivered) frame
  | .returned (.error err), x =>
      (∃ code, err = errCode code ∧
        Decodes (early ++ x.log.flatMap Event.delivered) (.err code asked)) ∨
      err = .medium ∧ ∃ fault, x.link.fault = some fault ∧ fault.op = x.link.op

theorem scans_push {stream : List Byte} {tokens : List Token} {mux : Mux}
    (hscan : Scans wire stream tokens mux.dec.buf) (bytes : List Byte) :
    ∃ more, Scans wire (stream ++ bytes) (tokens ++ more) (mux.push bytes).dec.buf ∧
      framesOf more = mux.completed bytes := by
  obtain ⟨more, hperforms, hframes, -⟩ := Decoder.drain_performs (mux.dec.push bytes)
  refine ⟨more, (hscan.append bytes).trans ?_, hframes⟩
  rw [Mux.dec_push]
  exact hperforms.scans

section Returned

variable {want : Byte} {asked : BitVec 32} {early : List Byte} {x : Exchanging T}

/-- A turn of `'attempts` receives nothing, and gives up or waits. -/
theorem Attempts.leads {began : ℕ} {out : List Byte} {events : List Event} {phase : Phase}
    (hattempts : Attempts began out events phase) : events.flatMap Event.delivered = [] ∧
      ((∃ fault, phase = .broken fault) ∨ ∃ sentAt, phase = .waiting sentAt) := by
  cases hattempts with
  | late now fault => exact ⟨rfl, .inl ⟨_, rfl⟩⟩
  | unparked now => exact ⟨rfl, .inl ⟨_, rfl⟩⟩
  | parked hchecks =>
      cases hchecks with
      | late now fault => exact ⟨rfl, .inl ⟨_, rfl⟩⟩
      | inTime hnow htransmits =>
          cases htransmits with
          | failed err => exact ⟨rfl, .inl ⟨_, rfl⟩⟩
          | sent sentAt => exact ⟨rfl, .inr ⟨_, rfl⟩⟩

omit [Transport T] in
/-- A frame that was held is one of those that came. -/
theorem Fresh.decodes {tokens : List Token} (hdecoding : Decoding early x tokens)
    (hfresh : Fresh x tokens) {ty : Byte} (hty : ty ∈ responseTypes) {r : Frame} {mux : Mux}
    (htake : x.link.mux.takeMatching ty = some (r, mux)) :
    r.typeByte = ty ∧ Decodes (early ++ x.log.flatMap Event.delivered) r := by
  obtain ⟨htype, front, rest, hheld, -, -⟩ := Mux.takeMatching_eq_some htake
  refine ⟨htype, tokens, _, hdecoding, hfresh r ?_ (htype ▸ hty)⟩
  rw [hheld]
  exact List.mem_append_right front (List.mem_cons_self ..)

omit [Transport T] in
/-- What is left when a frame has been taken is still fresh. -/
theorem Fresh.take {tokens : List Token} (hdecoding : Decoding early x tokens)
    (hfresh : Fresh x tokens) {ty : Byte} {r : Frame} {mux : Mux}
    (htake : x.link.mux.takeMatching ty = some (r, mux)) :
    Scans wire (early ++ x.log.flatMap Event.delivered) tokens mux.dec.buf ∧
      ∀ frame ∈ mux.held, frame.typeByte ∈ responseTypes → frame ∈ framesOf tokens := by
  obtain ⟨-, front, rest, hheld, -, rfl⟩ := Mux.takeMatching_eq_some htake
  refine ⟨hdecoding, fun frame hframe => hfresh frame ?_⟩
  rw [hheld]
  rcases List.mem_append.mp hframe with hbefore | hbehind
  · exact List.mem_append_left _ hbefore
  · exact List.mem_append_right _ (List.mem_cons_of_mem _ hbehind)

omit [Transport T] in
theorem Fresh.deliver {stream : List Byte} {tokens : List Token} (hfresh : Fresh x tokens)
    (hscan : Scans wire stream tokens x.link.mux.dec.buf) (bytes : List Byte) :
    ∃ more, Scans wire (stream ++ bytes) more (x.deliver bytes).link.mux.dec.buf ∧
      Fresh (x.deliver bytes) more := by
  rw [Exchanging.deliver]
  by_cases hbytes : bytes = []
  · rw [if_pos hbytes, hbytes, List.append_nil]
    exact ⟨tokens, hscan, hfresh⟩
  · rw [if_neg hbytes]
    obtain ⟨more, hmore, hframes⟩ := scans_push hscan bytes
    refine ⟨tokens ++ more, hmore, fun frame hframe hresponse => ?_⟩
    change frame ∈ (x.link.mux.push bytes).held at hframe
    rw [Mux.held_push] at hframe
    rw [framesOf_append, hframes]
    rcases List.mem_append.mp hframe with hbefore | hnow
    · exact List.mem_append_left _ (hfresh frame hbefore hresponse)
    · exact List.mem_append_right _ (List.mem_filter.mp hnow).1

theorem answering_attempt (hx : Answering want asked early .attempt x) :
    Answering want asked early x.attemptTurn.1 x.attemptTurn.2 := by
  obtain ⟨tokens, hdecoding⟩ := hx
  obtain ⟨events, hattempts, hbehind⟩ := x.attemptTurn_calls
  obtain ⟨hdelivered, hphase⟩ := hattempts.leads
  rcases hphase with ⟨fault, hphase⟩ | ⟨sentAt, hphase⟩
  · rw [hphase]
    trivial
  · rw [hphase, hbehind.eq]
    refine ⟨tokens, ?_, ?_⟩
    · rw [Decoding]
      change Scans wire (early ++ (x.log ++ events).flatMap Event.delivered) tokens
        (discardStaleResponses x.link.mux).2.dec.buf
      rw [List.flatMap_append, hdelivered, List.append_nil, discardStaleResponses_eq]
      exact hdecoding
    · intro frame hframe hresponse
      change frame ∈ (discardStaleResponses x.link.mux).2.held at hframe
      rw [discardStaleResponses_eq] at hframe
      have hstale := (List.mem_filter.mp hframe).2
      exact absurd hresponse (by simpa using hstale)

theorem answering_waits (hwant : want ∈ responseTypes) {sentAt : ℕ}
    (hx : Answering want x.asked early (.waiting sentAt) x) {next : Phase} {after : Exchanging T}
    (hwaits : x.Waits want sentAt next after) : Answering want x.asked early next after := by
  obtain ⟨tokens, hdecoding, hfresh⟩ := hx
  cases hwaits with
  | answered htake hpage =>
      obtain ⟨htype, hdecodes⟩ := hfresh.decodes hdecoding hwant htake
      exact ⟨htype, hpage, hdecodes⟩
  | otherPage htake => exact ⟨tokens, hfresh.take hdecoding htake⟩
  | refused htake =>
      obtain ⟨-, hdecodes⟩ := hfresh.decodes hdecoding (by decide) htake
      exact .inl ⟨_, rfl, hdecodes⟩
  | stray htake => exact ⟨tokens, hfresh.take hdecoding htake⟩
  | gaveUp fault hafter => trivial
  | retry hbudget hafter =>
      rw [hafter.eq]
      refine ⟨tokens, ?_⟩
      rw [Decoding] at hdecoding ⊢
      simpa [Event.delivered] using hdecoding
  | deaf hafter => trivial
  | @heard now bytes after hafter =>
      have hlog : (after.deliver bytes).log.flatMap Event.delivered =
          x.log.flatMap Event.delivered ++ bytes := by
        rw [(after.deliver_kept bytes).2.2.2.2, hafter.eq, List.flatMap_append]
        simp [Event.delivered]
      rw [Decoding] at hdecoding
      have heq := hafter.eq
      have hmux : after.link.mux = x.link.mux := by rw [heq]
      rw [← hmux] at hdecoding
      have hheld : Fresh after tokens := by rwa [Fresh, hmux]
      obtain ⟨more, hscan, hnext⟩ := hheld.deliver hdecoding bytes
      refine ⟨more, ?_, hnext⟩
      rwa [Decoding, hlog, ← List.append_assoc]

/-- **Every turn knows what it returns.** -/
theorem answering_step (hwant : want ∈ responseTypes) {phase : Phase}
    (hx : Answering want x.asked early phase x) :
    Answering want x.asked early (step want (phase, x)).1 (step want (phase, x)).2 := by
  cases phase with
  | attempt => exact answering_attempt hx
  | waiting sentAt => exact answering_waits hwant hx (x.waitTurn_waits want sentAt)
  | broken fault => exact .inr ⟨rfl, _, rfl, rfl⟩
  | returned result => exact hx

end Returned

/-! ## The deadline -/

/-- A clock that never goes back; `time` is what it stands at. -/
structure MonotoneClock (time : T → ℕ) : Prop where
  arm : ∀ t, time t ≤ time (Transport.arm t).2
  send : ∀ bytes t, time t ≤ time (Transport.send bytes t).2
  recv : ∀ t, time t ≤ time (Transport.recv t).2
  before : ∀ t, time t ≤ (Transport.nowMs t).1
  after : ∀ t, (Transport.nowMs t).1 ≤ time (Transport.nowMs t).2

section Deadline

variable {time : T → ℕ} {x : Exchanging T}

theorem Calls.told (hclock : MonotoneClock time) {first last : T} {events : List Event}
    (hcalls : Calls first events last) :
    time first ≤ time last ∧ ∀ now, .clock now ∈ events → now ≤ time last := by
  induction hcalls with
  | done t => exact ⟨le_rfl, fun now hnow => absurd hnow List.not_mem_nil⟩
  | @clock t last events hrest ih =>
      obtain ⟨hlater, hevents⟩ := ih
      refine ⟨(hclock.before t).trans ((hclock.after t).trans hlater), fun now hnow => ?_⟩
      rcases List.mem_cons.mp hnow with heq | hmem
      · cases heq
        exact (hclock.after t).trans hlater
      · exact hevents now hmem
  | @arm t last events hrest ih =>
      exact ⟨(hclock.arm t).trans ih.1, fun now hnow => ih.2 now (by simpa using hnow)⟩
  | @send t last events bytes hrest ih =>
      exact ⟨(hclock.send bytes t).trans ih.1, fun now hnow => ih.2 now (by simpa using hnow)⟩
  | @recv t last events hrest ih =>
      exact ⟨(hclock.recv t).trans ih.1, fun now hnow => ih.2 now (by simpa using hnow)⟩

/-- Until an exchange returns, its log is what it called. -/
def Logged (first : T) : Phase → Exchanging T → Prop
  | .returned _, _ => True
  | _, x => Calls first x.log x.link.t

theorem Logged.behind {first : T} (hx : Calls first x.log x.link.t) {events : List Event}
    {after : Exchanging T} (hbehind : x.Behind events after) :
    Calls first after.log after.link.t := by
  rw [hbehind.eq]
  exact hx.trans hbehind.calls

theorem Logged.step {first : T} {phase : Phase} (want : Byte) (hx : Logged first phase x) :
    Logged first (step want (phase, x)).1 (step want (phase, x)).2 := by
  have hcalls {next : Phase} {after : Exchanging T} (hafter : Calls first after.log after.link.t) :
      Logged first next after := by
    cases next with
    | returned result => trivial
    | _ => exact hafter
  cases phase with
  | attempt =>
      obtain ⟨events, -, hbehind⟩ := x.attemptTurn_calls
      have hretried : Calls first x.retried.log x.retried.link.t := hx
      exact hcalls (Logged.behind hretried hbehind)
  | waiting sentAt =>
      have hwaits := x.waitTurn_waits want sentAt
      change Logged first (x.waitTurn want sentAt).1 (x.waitTurn want sentAt).2
      generalize x.waitTurn want sentAt = turn at hwaits
      obtain ⟨next, after⟩ := turn
      cases hwaits with
      | answered => trivial
      | otherPage => exact hx
      | refused => trivial
      | stray => exact hx
      | gaveUp fault hafter => exact Logged.behind hx hafter
      | retry hbudget hafter =>
          have hbehind := Logged.behind hx hafter
          exact hbehind
      | deaf hafter => exact Logged.behind hx hafter
      | @heard now bytes after hafter =>
          have hbehind := Logged.behind hx hafter
          change Calls first (after.deliver bytes).log (after.deliver bytes).link.t
          rw [Exchanging.deliver]
          split <;> exact hbehind
  | broken fault => trivial
  | returned result => trivial

/-- Past the deadline no attempt gets further than the clock. -/
theorem attemptTurn_late (hclock : MonotoneClock time)
    (hlate : x.began + recvDeadlineMs < time x.link.t) :
    ∃ fault, x.attemptTurn.1 = .broken fault := by
  have hreading := hclock.before x.link.t
  have hover : x.retried.clock.1 - x.began > recvDeadlineMs := by
    change (Transport.nowMs x.link.t).1 - x.began > recvDeadlineMs
    omega
  rw [Exchanging.attemptTurn]
  dsimp only
  rw [if_pos hover]
  exact ⟨_, rfl⟩

theorem listen_late (hclock : MonotoneClock time) (sentAt : ℕ)
    (hlate : x.began + recvDeadlineMs < time x.link.t) :
    ∃ fault, (x.listen sentAt).1 = .broken fault := by
  have hreading := hclock.before x.link.t
  have hover : x.clock.1 - x.began > recvDeadlineMs := by
    change (Transport.nowMs x.link.t).1 - x.began > recvDeadlineMs
    omega
  rw [Exchanging.listen]
  dsimp only
  rw [if_pos hover]
  exact ⟨_, rfl⟩

/-- Past the deadline a turn of the inner loop uses up a held frame, or is the last. -/
theorem waitTurn_late (hclock : MonotoneClock time) (want : Byte) (sentAt : ℕ)
    (hlate : x.began + recvDeadlineMs < time x.link.t) :
    (∃ fault, (x.waitTurn want sentAt).1 = .broken fault) ∨
      (∃ result, (x.waitTurn want sentAt).1 = .returned result) ∨
      (x.waitTurn want sentAt).1 = .waiting sentAt ∧
        (x.waitTurn want sentAt).2.began = x.began ∧
        (x.waitTurn want sentAt).2.link.t = x.link.t ∧
        (x.waitTurn want sentAt).2.link.mux.held.length < x.link.mux.held.length := by
  rw [Exchanging.waitTurn]
  split
  · rename_i r mux htake
    split
    · exact .inr (.inl ⟨_, rfl⟩)
    · exact .inr (.inr ⟨rfl, rfl, rfl, Mux.length_takeMatching htake⟩)
  · split
    · rename_i code page mux htake
      split
      · exact .inr (.inl ⟨_, rfl⟩)
      · exact .inr (.inr ⟨rfl, rfl, rfl, Mux.length_takeMatching htake⟩)
    · exact .inl (listen_late hclock sentAt hlate)
    · exact .inl (listen_late hclock sentAt hlate)

theorem returns_of_returned (want : Byte) {phase : Phase} {result : Except Error Frame}
    (hphase : phase = .returned result) (turns : ℕ) :
    ∃ result, ((step want)^[turns] (phase, x)).1 = .returned result := by
  rw [hphase, Function.iterate_fixed rfl turns]
  exact ⟨result, rfl⟩

/-- Whatever broke the loops, the exchange returns in the next turn. -/
theorem returns_of_broken (want : Byte) {phase : Phase} {fault : LinkFault}
    (hphase : phase = .broken fault) (turns : ℕ) :
    ∃ result, ((step want)^[turns + 1] (phase, x)).1 = .returned result := by
  rw [hphase, Function.iterate_succ_apply]
  exact returns_of_returned want rfl turns

theorem returns_of_waiting (hclock : MonotoneClock time) (want : Byte) (sentAt : ℕ) (turns : ℕ)
    (hlate : x.began + recvDeadlineMs < time x.link.t)
    (hturns : x.link.mux.held.length ≤ turns) :
    ∃ result, ((step want)^[turns + 2] (.waiting sentAt, x)).1 = .returned result := by
  induction turns generalizing x with
  | zero =>
      rw [Function.iterate_succ_apply, step]
      rcases waitTurn_late hclock want sentAt hlate with
        ⟨fault, hbroken⟩ | ⟨result, hreturned⟩ | ⟨-, -, -, hless⟩
      · exact returns_of_broken want hbroken 0
      · exact returns_of_returned want hreturned 1
      · omega
  | succ turns ih =>
      rw [Function.iterate_succ_apply, step]
      rcases waitTurn_late hclock want sentAt hlate with
        ⟨fault, hbroken⟩ | ⟨result, hreturned⟩ | ⟨hphase, hbegan, ht, hless⟩
      · exact returns_of_broken want hbroken (turns + 1)
      · exact returns_of_returned want hreturned (turns + 2)
      · rw [← Prod.eta (x.waitTurn want sentAt), hphase]
        exact ih (by rw [hbegan, ht]; exact hlate) (by omega)

/-- **Past its deadline an exchange ends** as soon as the frames it holds are used up. -/
theorem returns_late (hclock : MonotoneClock time) (want : Byte) (phase : Phase)
    (hlate : x.began + recvDeadlineMs < time x.link.t) :
    ∃ result, ((step want)^[x.link.mux.held.length + 2] (phase, x)).1 = .returned result := by
  cases phase with
  | attempt =>
      obtain ⟨fault, hbroken⟩ := attemptTurn_late hclock hlate
      rw [Function.iterate_succ_apply, step]
      exact returns_of_broken want hbroken x.link.mux.held.length
  | waiting sentAt => exact returns_of_waiting hclock want sentAt _ hlate le_rfl
  | broken fault => exact returns_of_broken want rfl (x.link.mux.held.length + 1)
  | returned result => exact returns_of_returned want rfl (x.link.mux.held.length + 2)

end Deadline

/-! ## Every exchange -/

/-- What holds of an exchange after any number of turns. -/
structure Exchanged (time : T → ℕ) (request : Request) (link : LinkInner T) (phase : Phase)
    (x : Exchanging T) : Prop where
  transmissions : (x.log.filter Event.isSend).length ≤ retryBudget + 1
  /-- Armed, in time and the same request again. -/
  guarded : Guarded (Transport.nowMs link.t).1 (encode request.frame) x.log
  /-- It ends when the clock has passed the deadline. -/
  ends : (Transport.nowMs link.t).1 + recvDeadlineMs < time x.link.t →
    ∃ result, ((step request.want)^[x.link.mux.held.length + 2] (phase, x)).1 = .returned result
  /-- What the clock told it was not ahead of the clock. -/
  told : (∀ result, phase ≠ .returned result) →
    ∀ now, .clock now ∈ x.log → now ≤ time x.link.t
  answered : ∀ frame, phase = .returned (.ok frame) →
    frame.typeByte = request.want ∧ framePage frame = some request.page ∧
      Decodes (link.mux.dec.buf ++ x.log.flatMap Event.delivered) frame ∧
      ∃ before after, link.mux.dec.buf ++ x.log.flatMap Event.delivered =
        before ++ (encode frame ++ after)
  refused : ∀ err, phase = .returned (.error err) →
    (∃ code, err = errCode code ∧
      Decodes (link.mux.dec.buf ++ x.log.flatMap Event.delivered) (.err code request.page)) ∨
    err = .medium ∧ ∃ fault, x.link.fault = some fault ∧ fault.op = x.link.op

theorem framePage_request (request : Request) : framePage request.frame = some request.page := by
  cases request <;> rfl

theorem want_mem (request : Request) : request.want ∈ responseTypes := by
  cases request with
  | read page => exact List.mem_cons_self ..
  | write page data => exact List.mem_cons_of_mem _ (List.mem_cons_self ..)

/-- **The discipline of an exchange**, over every transport with a monotone clock, after
every number of turns. -/
theorem exchange_disciplined {time : T → ℕ} (hclock : MonotoneClock time) (request : Request)
    (link : LinkInner T) (turns : ℕ) :
    ∃ phase x, exchangeInner request.frame request.want link turns = some (phase, x) ∧
      Exchanged time request link phase x := by
  have hrun : Disciplined request.frame (Transport.nowMs link.t).1
        ((step request.want)^[turns] (.attempt, opened request.frame request.page link)).1
        ((step request.want)^[turns] (.attempt, opened request.frame request.page link)).2 ∧
      Answering request.want request.page link.mux.dec.buf
        ((step request.want)^[turns] (.attempt, opened request.frame request.page link)).1
        ((step request.want)^[turns] (.attempt, opened request.frame request.page link)).2 ∧
      Logged link.t
        ((step request.want)^[turns] (.attempt, opened request.frame request.page link)).1
        ((step request.want)^[turns] (.attempt, opened request.frame request.page link)).2 := by
    induction turns with
    | zero =>
        refine ⟨⟨rfl, framePage_request request, rfl, Nat.zero_le _, Nat.zero_le _,
          fun _ => Nat.zero_le _, .of_not_send (by simp [opened, Event.isSend])⟩, ⟨[], ?_⟩, ?_⟩
        · rw [Decoding]
          exact (List.append_nil link.mux.dec.buf).symm ▸ .refl _
        · exact .clock (.done _)
    | succ turns ih =>
        rw [Function.iterate_succ_apply']
        generalize (step request.want)^[turns] (.attempt, opened request.frame request.page link) =
          now at ih ⊢
        obtain ⟨phase, x⟩ := now
        obtain ⟨hdisciplined, hanswering, hlogged⟩ := ih
        have hasked : x.asked = request.page :=
          (Option.some.inj ((framePage_request request).symm.trans hdisciplined.asked)).symm
        rw [← hasked] at hanswering ⊢
        exact ⟨hdisciplined.step _, answering_step (want_mem request) hanswering, hlogged.step _⟩
  rw [exchangeInner, framePage_request, Option.map_some]
  generalize (step request.want)^[turns] (.attempt, opened request.frame request.page link) =
    now at hrun ⊢
  obtain ⟨phase, x⟩ := now
  obtain ⟨hdisciplined, hanswering, hlogged⟩ := hrun
  refine ⟨phase, x, rfl, hdisciplined.transmissions.trans hdisciplined.attempts,
    hdisciplined.guarded, ?_, ?_, ?_, ?_⟩
  · intro hlate
    rw [← hdisciplined.start] at hlate
    exact returns_late hclock request.want phase hlate
  · intro hrunning
    cases phase with
    | returned result => exact absurd rfl (hrunning result)
    | _ => exact (Calls.told hclock hlogged).2
  · intro frame hphase
    subst hphase
    obtain ⟨htype, hpage, hdecodes⟩ := hanswering
    exact ⟨htype, hpage, hdecodes, hdecodes.bytes.2⟩
  · intro err hphase
    subst hphase
    exact hanswering

/-- A transport that answers every `recv` with the same bytes, a millisecond later. -/
structure Echo where
  now : ℕ
  answer : List Byte

instance : Transport Echo where
  arm t := (.ok (), t)
  send _ t := (.ok (), t)
  recv t := (.ok t.answer, { t with now := t.now + 1 })
  nowMs t := (t.now, t)
  takePlatformFault t := (none, t)
  status t := (none, t)

/-- A link over which page 7 is acknowledged. -/
def acknowledged : LinkInner Echo where
  t := ⟨0, encode (.writeAck 7)⟩
  op := none
  mux := Mux.capturingNoiseCapped noiseSample
  console := []
  fault := none
  retries := 0
  staleDropped := 0
  lateDropped := 0
  noiseSample := []
  noiseDropped := 0
  deliveries := 0
  bytesIn := 0

theorem exchange_disciplined_acknowledged :
    ∃ phase x, exchangeInner (.writeReq 7 fun _ => 0) tyWriteAck acknowledged 3 = some (phase, x) ∧
      Exchanged Echo.now (.write 7 fun _ => 0) acknowledged phase x := by
  have hclock : MonotoneClock Echo.now :=
    ⟨fun _ => le_rfl, fun _ _ => le_rfl, fun _ => Nat.le_succ _, fun _ => le_rfl, fun _ => le_rfl⟩
  exact exchange_disciplined hclock (.write 7 fun _ => 0) acknowledged 3

end Baonix.Badge

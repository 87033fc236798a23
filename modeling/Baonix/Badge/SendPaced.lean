import Baonix.Lib.LittleEndian

/-!
# Sending through a sink that takes what it likes

`send_paced` hands a byte string to a sink that accepts part of what it is offered,
nothing, or fails.  Its closures act on a common world; what it does to them is
recorded as a list of events.
-/

namespace Baonix.Badge

open Baonix.LittleEndian

/-- `SEND_RETRY_BUDGET`. -/
def sendRetryBudget : ℕ := 64

inductive SendFault (E : Type)
  | stalled
  | link (err : E)
  | timedOut (sent len : ℕ)
  deriving DecidableEq

/-- A call of one of the closures, and what it answered. -/
inductive SendEvent (E : Type)
  | outOfTime (late : Bool)
  | gap
  | offer (bytes : List Byte) (reply : Except E ℕ)

namespace SendEvent

variable {E : Type}

/-- The bytes the sink took. -/
def taken : SendEvent E → List Byte
  | offer bytes (.ok n) => bytes.take n
  | _ => []

def isOffer : SendEvent E → Bool
  | offer _ _ => true
  | _ => false

def isClock : SendEvent E → Bool
  | outOfTime _ => true
  | _ => false

/-- What the sink answered to an offer. -/
def reply? : SendEvent E → Option (Except E ℕ)
  | offer _ reply => some reply
  | _ => none

end SendEvent

/-! ## The tally of a send -/

/-- `TxTally`, without the flushes and the time, which the caller counts. -/
structure TxTally where
  asked : ℕ
  calls : ℕ
  accepted : ℕ
  refusals : ℕ
  shorts : ℕ

namespace TxTally

variable {E : Type}

def new (asked : ℕ) : TxTally := ⟨asked, 0, 0, 0, 0⟩

def record (t : TxTally) (offered : ℕ) : Except E ℕ → TxTally
  | .ok 0 => { t with calls := t.calls + 1, refusals := t.refusals + 1 }
  | .ok n =>
      { t with
        calls := t.calls + 1
        accepted := t.accepted + n
        shorts := if n < offered then t.shorts + 1 else t.shorts }
  | .error _ => { t with calls := t.calls + 1 }

/-- Fed the result of every call. -/
def recordAll (t : TxTally) : List (SendEvent E) → TxTally
  | [] => t
  | .offer bytes reply :: events => (t.record bytes.length reply).recordAll events
  | _ :: events => t.recordAll events

end TxTally

/-! ## The loop -/

/-- The closures `write_some`, `gap` and `out_of_time`. -/
structure Sink (E W : Type) where
  writeSome : W → List Byte → Except E ℕ × W
  gap : W → W
  outOfTime : W → Bool × W

/-- The variables of the loop. -/
structure Cursor where
  sent : ℕ
  idle : ℕ
  first : Bool

/-- How a turn of the loop ends. -/
inductive SendTurn (E : Type)
  | stop (result : Except (SendFault E) PUnit)
  | again (next : Cursor)

/-- What a send or a turn of it leaves: how it ended, the world and the events. -/
structure Sent (Ending E W : Type) where
  ending : Ending
  world : W
  events : List (SendEvent E)

variable {E W : Type} (sink : Sink E W) (chunk : ℕ) (bytes : List Byte)

/-- `bytes[sent..end]`.  The sum saturates in the source, which the length cuts off
in any case. -/
def offered (c : Cursor) : List Byte :=
  (bytes.drop c.sent).take (min bytes.length (c.sent + max chunk 1) - c.sent)

/-- The arms of the match on what `write_some` returned. -/
def afterWrite (c : Cursor) : Except E ℕ → SendTurn E
  | .ok 0 =>
      if c.idle + 1 > sendRetryBudget then .stop (.error .stalled)
      else .again ⟨c.sent, c.idle + 1, false⟩
  | .ok n => .again ⟨c.sent + n, 0, false⟩
  | .error err => .stop (.error (.link err))

/-- The body of the loop. -/
def sendTurn (c : Cursor) (world : W) : Sent (SendTurn E) E W :=
  let clock := sink.outOfTime world
  if clock.1 then
    ⟨.stop (.error (.timedOut c.sent bytes.length)), clock.2, [.outOfTime true]⟩
  else
    let rested := if c.first then clock.2 else sink.gap clock.2
    let written := sink.writeSome rested (offered chunk bytes c)
    ⟨afterWrite c written.1, written.2,
      .outOfTime false :: (if c.first then [] else [.gap]) ++
        [.offer (offered chunk bytes c) written.1]⟩

theorem afterWrite_again {c next : Cursor} {reply : Except E ℕ}
    (hagain : afterWrite c reply = .again next) :
    c.sent < next.sent ∨ c.sent = next.sent ∧ c.idle < next.idle ∧ next.idle ≤ sendRetryBudget := by
  unfold afterWrite at hagain
  split at hagain
  · split at hagain <;> cases hagain
    right
    dsimp only
    omega
  · rename_i n hn
    cases hagain
    have hpos : n ≠ 0 := fun hzero => hn (hzero ▸ rfl)
    left
    dsimp only
    omega
  · cases hagain

theorem sendTurn_again {c next : Cursor} {world : W}
    (hagain : (sendTurn sink chunk bytes c world).ending = .again next) :
    c.sent < next.sent ∨ c.sent = next.sent ∧ c.idle < next.idle ∧ next.idle ≤ sendRetryBudget := by
  rw [sendTurn] at hagain
  dsimp only at hagain
  split at hagain
  · cases hagain
  · exact afterWrite_again hagain

/-- The loop of `send_paced` from given variables on. -/
def sendFrom (c : Cursor) (world : W) : Sent (Except (SendFault E) PUnit) E W :=
  if _hmore : c.sent < bytes.length then
    let turn := sendTurn sink chunk bytes c world
    match _hturn : turn.ending with
    | .stop result => ⟨result, turn.world, turn.events⟩
    | .again next =>
        let rest := sendFrom next turn.world
        ⟨rest.ending, rest.world, turn.events ++ rest.events⟩
  else ⟨.ok .unit, world, []⟩
termination_by (bytes.length - c.sent, sendRetryBudget + 1 - c.idle)
decreasing_by
  rcases sendTurn_again sink chunk bytes _hturn with hsent | ⟨hsent, hidle, hbudget⟩
  · exact .left _ _ (by omega)
  · rw [hsent]
    exact .right _ (by omega)

def sendPaced (world : W) : Sent (Except (SendFault E) PUnit) E W :=
  sendFrom sink chunk bytes ⟨0, 0, true⟩ world

/-! ## What a send can do -/

/-- The events of a turn that made an offer. -/
def turnEvents (c : Cursor) (reply : Except E ℕ) : List (SendEvent E) :=
  .outOfTime false :: (if c.first then [] else [.gap]) ++ [.offer (offered chunk bytes c) reply]

/-- The ways a send goes on from given variables, over a sink that takes no more than
it is offered. -/
inductive Sends : Cursor → Except (SendFault E) PUnit → List (SendEvent E) → Prop
  | finished {c : Cursor} (hend : bytes.length ≤ c.sent) : Sends c (.ok .unit) []
  | late {c : Cursor} (hmore : c.sent < bytes.length) :
      Sends c (.error (.timedOut c.sent bytes.length)) [.outOfTime true]
  | stalled {c : Cursor} (hmore : c.sent < bytes.length) (hidle : sendRetryBudget ≤ c.idle) :
      Sends c (.error .stalled) (turnEvents chunk bytes c (.ok 0))
  | failed {c : Cursor} (hmore : c.sent < bytes.length) (err : E) :
      Sends c (.error (.link err)) (turnEvents chunk bytes c (.error err))
  | refused {c : Cursor} {result : Except (SendFault E) PUnit} {events : List (SendEvent E)}
      (hmore : c.sent < bytes.length) (hidle : c.idle < sendRetryBudget)
      (hrest : Sends ⟨c.sent, c.idle + 1, false⟩ result events) :
      Sends c result (turnEvents chunk bytes c (.ok 0) ++ events)
  | took {c : Cursor} {result : Except (SendFault E) PUnit} {events : List (SendEvent E)}
      (hmore : c.sent < bytes.length) {n : ℕ} (hpos : 0 < n)
      (htaken : n ≤ (offered chunk bytes c).length)
      (hrest : Sends ⟨c.sent + n, 0, false⟩ result events) :
      Sends c result (turnEvents chunk bytes c (.ok n) ++ events)

/-- The sink takes no more than it is offered. -/
def Sink.Honest : Prop :=
  ∀ world offer n, (sink.writeSome world offer).1 = .ok n → n ≤ offer.length

variable {sink chunk bytes}

/-- What one turn can do. -/
theorem sendTurn_cases (hsink : sink.Honest) (c : Cursor) (world : W) :
    ((sendTurn sink chunk bytes c world).ending =
        .stop (.error (.timedOut c.sent bytes.length)) ∧
      (sendTurn sink chunk bytes c world).events = [.outOfTime true]) ∨
    ∃ reply, (sendTurn sink chunk bytes c world).ending = afterWrite c reply ∧
      (sendTurn sink chunk bytes c world).events = turnEvents chunk bytes c reply ∧
      ∀ n, reply = .ok n → n ≤ (offered chunk bytes c).length := by
  rw [sendTurn]
  dsimp only
  split
  · exact .inl ⟨rfl, rfl⟩
  · exact .inr ⟨_, rfl, rfl, fun n => hsink _ _ n⟩

theorem sendFrom_stop {c : Cursor} {world : W} (hmore : c.sent < bytes.length)
    {result : Except (SendFault E) PUnit}
    (hturn : (sendTurn sink chunk bytes c world).ending = .stop result) :
    (sendFrom sink chunk bytes c world).ending = result ∧
      (sendFrom sink chunk bytes c world).events = (sendTurn sink chunk bytes c world).events := by
  rw [sendFrom, dif_pos hmore]
  dsimp only
  split <;> rename_i heq <;> rw [hturn] at heq <;> cases heq
  exact ⟨rfl, rfl⟩

theorem sendFrom_again {c next : Cursor} {world : W} (hmore : c.sent < bytes.length)
    (hturn : (sendTurn sink chunk bytes c world).ending = .again next) :
    let rest := sendFrom sink chunk bytes next (sendTurn sink chunk bytes c world).world
    (sendFrom sink chunk bytes c world).ending = rest.ending ∧
      (sendFrom sink chunk bytes c world).events =
        (sendTurn sink chunk bytes c world).events ++ rest.events := by
  intro rest
  rw [sendFrom.eq_1 sink chunk bytes c world, dif_pos hmore]
  dsimp only
  split <;> rename_i heq <;> rw [hturn] at heq <;> cases heq
  exact ⟨rfl, rfl⟩

/-- **Every send goes on in one of these ways.** -/
theorem sendFrom_sends (hsink : sink.Honest) (c : Cursor) (world : W) :
    Sends chunk bytes c (sendFrom sink chunk bytes c world).ending
      (sendFrom sink chunk bytes c world).events := by
  induction c, world using sendFrom.induct sink chunk bytes with
  | case1 c world hmore turn result hturn =>
      obtain ⟨hending, hevents⟩ := sendFrom_stop hmore hturn
      rw [hending, hevents]
      rcases sendTurn_cases hsink c world with ⟨hlate, htrace⟩ | ⟨reply, hafter, htrace, -⟩
      · rw [htrace]
        cases hlate.symm.trans hturn
        exact .late hmore
      · rw [htrace]
        have hstop := hafter.symm.trans hturn
        unfold afterWrite at hstop
        split at hstop
        · split at hstop <;> cases hstop
          exact .stalled hmore (by omega)
        · cases hstop
        · cases hstop
          exact .failed hmore _
  | case2 c world hmore turn next hturn ih =>
      obtain ⟨hending, hevents⟩ := sendFrom_again hmore hturn
      rw [hending, hevents]
      rcases sendTurn_cases hsink c world with ⟨hlate, -⟩ | ⟨reply, hafter, htrace, htaken⟩
      · cases hlate.symm.trans hturn
      · rw [htrace]
        have hagain := hafter.symm.trans hturn
        unfold afterWrite at hagain
        split at hagain
        · split at hagain <;> cases hagain
          exact .refused hmore (by omega) ih
        · rename_i n hn
          cases hagain
          exact .took hmore (Nat.pos_of_ne_zero fun hzero => hn (hzero ▸ rfl)) (htaken n rfl) ih
        · cases hagain
  | case3 c world hend =>
      rw [sendFrom, dif_neg hend]
      exact .finished (not_lt.mp hend)

/-! ## What follows for every send -/

/-- Nothing comes behind the time being up. -/
def EndsLate (events : List (SendEvent E)) : Prop :=
  ∀ before after, events = before ++ .outOfTime true :: after → after = []

theorem EndsLate.nil : EndsLate ([] : List (SendEvent E)) := by
  intro before after hsplit
  simp at hsplit

theorem EndsLate.append {first rest : List (SendEvent E)} (hfirst : .outOfTime true ∉ first)
    (hrest : EndsLate rest) : EndsLate (first ++ rest) := by
  intro before after hsplit
  rcases List.append_eq_append_iff.mp hsplit with ⟨middle, -, hlater⟩ | ⟨middle, hfront, hlater⟩
  · exact hrest middle after hlater
  · cases middle with
    | nil => exact hrest [] after hlater.symm
    | cons event middle =>
        cases hlater
        exact absurd (by rw [hfront]; simp) hfirst

namespace Sends

variable {c : Cursor} {result : Except (SendFault E) PUnit} {events : List (SendEvent E)}

theorem length_offered (hmore : c.sent < bytes.length) :
    0 < (offered chunk bytes c).length ∧ (offered chunk bytes c).length ≤ max chunk 1 := by
  rw [offered, List.length_take, List.length_drop]
  omega

@[simp]
theorem taken_turnEvents (c : Cursor) (reply : Except E ℕ) :
    (turnEvents chunk bytes c reply).flatMap SendEvent.taken =
      (SendEvent.offer (offered chunk bytes c) reply).taken := by
  rw [turnEvents]
  cases c.first <;> simp [SendEvent.taken]

/-- What the sink took is what came next. -/
theorem taken_append {n : ℕ} (htaken : n ≤ (offered chunk bytes c).length) :
    (offered chunk bytes c).take n ++ bytes.drop (c.sent + n) = bytes.drop c.sent := by
  rw [offered, List.length_take, List.length_drop] at htaken
  rw [offered, List.take_take, min_eq_left (by omega), ← List.drop_drop, List.take_append_drop]

/-- **The bytes taken are the next bytes**, all of them if the send succeeds. -/
theorem taken_front (hsends : Sends chunk bytes c result events) :
    events.flatMap SendEvent.taken <+: bytes.drop c.sent ∧
      (result = .ok .unit → events.flatMap SendEvent.taken = bytes.drop c.sent) := by
  induction hsends with
  | finished hend =>
      rw [List.drop_eq_nil_of_le hend]
      exact ⟨List.prefix_refl _, fun _ => rfl⟩
  | late hmore => exact ⟨List.nil_prefix, fun heq => nomatch heq⟩
  | stalled hmore hidle =>
      rw [taken_turnEvents]
      exact ⟨List.nil_prefix, fun heq => nomatch heq⟩
  | failed hmore err =>
      rw [taken_turnEvents]
      exact ⟨List.nil_prefix, fun heq => nomatch heq⟩
  | refused hmore hidle hrest ih =>
      rw [List.flatMap_append, taken_turnEvents]
      exact ih
  | took hmore hpos htaken hrest ih =>
      rw [List.flatMap_append, taken_turnEvents, ← taken_append htaken]
      obtain ⟨hfront, hall⟩ := ih
      refine ⟨?_, fun hok => ?_⟩
      · exact (List.prefix_append_right_inj _).mpr hfront
      · exact congrArg _ (hall hok)

/-- A timeout reports how far the send got. -/
theorem timedOut (hsends : Sends chunk bytes c result events) {sent len : ℕ}
    (htimedOut : result = .error (.timedOut sent len)) :
    sent = c.sent + (events.flatMap SendEvent.taken).length ∧ len = bytes.length := by
  induction hsends with
  | finished hend => cases htimedOut
  | late hmore =>
      cases htimedOut
      exact ⟨rfl, rfl⟩
  | stalled hmore hidle => cases htimedOut
  | failed hmore err => cases htimedOut
  | refused hmore hidle hrest ih =>
      rw [List.flatMap_append, taken_turnEvents]
      exact ih htimedOut
  | took hmore hpos htaken hrest ih =>
      obtain ⟨hsent, hlen⟩ := ih htimedOut
      refine ⟨?_, hlen⟩
      rw [List.flatMap_append, taken_turnEvents, List.length_append, SendEvent.taken,
        List.length_take, min_eq_left htaken, hsent, Nat.add_assoc]

/-! ### The tally -/

theorem recordAll_append (t : TxTally) (first second : List (SendEvent E)) :
    t.recordAll (first ++ second) = (t.recordAll first).recordAll second := by
  induction first generalizing t with
  | nil => rfl
  | cons event first ih =>
      cases event with
      | outOfTime late => exact ih t
      | gap => exact ih t
      | offer offer reply => exact ih _

theorem recordAll_turnEvents (t : TxTally) (c : Cursor) (reply : Except E ℕ) :
    t.recordAll (turnEvents chunk bytes c reply) =
      t.record (offered chunk bytes c).length reply := by
  rw [turnEvents]
  cases c.first <;> rfl

theorem record_ok (t : TxTally) (length n : ℕ) :
    (t.record length (.ok n : Except E ℕ)).accepted = t.accepted + n ∧
      (t.record length (.ok n : Except E ℕ)).asked = t.asked := by
  cases n with
  | zero => exact ⟨rfl, rfl⟩
  | succ n => exact ⟨rfl, rfl⟩

/-- A tally fed every result counts the bytes taken. -/
theorem recordAll_accepted (hsends : Sends chunk bytes c result events) (t : TxTally) :
    (t.recordAll events).accepted = t.accepted + (events.flatMap SendEvent.taken).length ∧
      (t.recordAll events).asked = t.asked := by
  induction hsends generalizing t with
  | finished hend => exact ⟨rfl, rfl⟩
  | late hmore => exact ⟨rfl, rfl⟩
  | stalled hmore hidle =>
      rw [recordAll_turnEvents, taken_turnEvents]
      exact record_ok t _ 0
  | failed hmore err =>
      rw [recordAll_turnEvents, taken_turnEvents]
      exact ⟨rfl, rfl⟩
  | refused hmore hidle hrest ih =>
      rw [recordAll_append, recordAll_turnEvents, List.flatMap_append, taken_turnEvents]
      exact ih _
  | @took c _ _ _ n hpos htaken hrest ih =>
      obtain ⟨haccepted, hasked⟩ := ih (t.record (offered chunk bytes c).length (.ok n : Except E ℕ))
      obtain ⟨hrecorded, hkept⟩ := record_ok (E := E) t (offered chunk bytes c).length n
      rw [recordAll_append, recordAll_turnEvents, List.flatMap_append, taken_turnEvents,
        List.length_append, SendEvent.taken, List.length_take, min_eq_left htaken, haccepted, hasked,
        hrecorded, hkept, Nat.add_assoc]
      exact ⟨rfl, rfl⟩

/-! ### The offers -/

/-- Every offer is made of the next bytes, and is neither empty nor too long. -/
theorem offer_bounds (hsends : Sends chunk bytes c result events) {offer : List Byte}
    {reply : Except E ℕ} (hoffer : .offer offer reply ∈ events) :
    offer ≠ [] ∧ offer.length ≤ max chunk 1 := by
  have hturn {c : Cursor} {other : Except E ℕ} (hmore : c.sent < bytes.length)
      (hmem : .offer offer reply ∈ turnEvents chunk bytes c other) :
      offer ≠ [] ∧ offer.length ≤ max chunk 1 := by
    have hsame : offer = offered chunk bytes c := by
      have hcases : SendEvent.offer offer reply = .offer (offered chunk bytes c) other := by
        rw [turnEvents] at hmem
        cases hfirst : c.first <;> simpa [hfirst] using hmem
      cases hcases
      rfl
    have hlengths : 0 < (offered chunk bytes c).length ∧
        (offered chunk bytes c).length ≤ max chunk 1 := length_offered hmore
    obtain ⟨hpos, hle⟩ := hlengths
    rw [hsame]
    exact ⟨List.length_pos_iff.mp hpos, hle⟩
  induction hsends with
  | finished hend => cases hoffer
  | late hmore => simp at hoffer
  | stalled hmore hidle => exact hturn hmore hoffer
  | failed hmore err => exact hturn hmore hoffer
  | refused hmore hidle hrest ih => exact (List.mem_append.mp hoffer).elim (hturn hmore) ih
  | took hmore hpos htaken hrest ih => exact (List.mem_append.mp hoffer).elim (hturn hmore) ih

theorem endsLate (hsends : Sends chunk bytes c result events) : EndsLate events := by
  have hturn {c : Cursor} {reply : Except E ℕ} :
      SendEvent.outOfTime true ∉ turnEvents chunk bytes c reply := by
    rw [turnEvents]
    cases c.first <;> simp
  have hlast {c : Cursor} {reply : Except E ℕ} : EndsLate (turnEvents chunk bytes c reply) := by
    have hnil : EndsLate (turnEvents chunk bytes c reply ++ []) :=
      EndsLate.append hturn EndsLate.nil
    rwa [List.append_nil] at hnil
  induction hsends with
  | finished hend => exact EndsLate.nil
  | late hmore =>
      intro before after hsplit
      have hlength := congrArg List.length hsplit
      simp only [List.length_append, List.length_cons, List.length_nil] at hlength
      exact List.length_eq_zero_iff.mp (by omega)
  | stalled hmore hidle => exact hlast
  | failed hmore err => exact hlast
  | refused hmore hidle hrest ih => exact .append hturn ih
  | took hmore hpos htaken hrest ih => exact .append hturn ih

/-! ### Gaps -/

theorem filter_turnEvents (c : Cursor) (reply : Except E ℕ) :
    (turnEvents chunk bytes c reply).filter (! SendEvent.isClock ·) =
        (if c.first then [] else [.gap]) ++ [.offer (offered chunk bytes c) reply] ∧
      (turnEvents chunk bytes c reply).filter SendEvent.isOffer =
        [.offer (offered chunk bytes c) reply] := by
  rw [turnEvents]
  cases c.first <;> exact ⟨rfl, rfl⟩

theorem intersperse_cons {Item : Type*} (separator first : Item) (rest : List Item) :
    (first :: rest).intersperse separator =
      first :: rest.flatMap fun item => [separator, item] := by
  induction rest generalizing first with
  | nil => rfl
  | cons second rest ih =>
      rw [List.intersperse_cons_cons, ih, List.flatMap_cons]
      rfl

/-- What a send does but for asking the time: the offers with a gap in front of each, but
for the very first. -/
theorem spaced (hsends : Sends chunk bytes c result events) :
    events.filter (! SendEvent.isClock ·) =
      if c.first then (events.filter SendEvent.isOffer).intersperse .gap
      else (events.filter SendEvent.isOffer).flatMap fun offer => [.gap, offer] := by
  have hturn (c : Cursor) (reply : Except E ℕ) (rest : List (SendEvent E))
      (hrest : rest.filter (! SendEvent.isClock ·) =
        (rest.filter SendEvent.isOffer).flatMap fun offer => [.gap, offer]) :
      (turnEvents chunk bytes c reply ++ rest).filter (! SendEvent.isClock ·) =
        if c.first then
          ((turnEvents chunk bytes c reply ++ rest).filter SendEvent.isOffer).intersperse .gap
        else ((turnEvents chunk bytes c reply ++ rest).filter SendEvent.isOffer).flatMap
          fun offer => [.gap, offer] := by
    rw [List.filter_append, List.filter_append, (filter_turnEvents c reply).1,
      (filter_turnEvents c reply).2, hrest]
    cases c.first
    · rfl
    · exact (intersperse_cons ..).symm
  induction hsends with
  | finished hend => simp
  | late hmore => simp [SendEvent.isClock, SendEvent.isOffer]
  | stalled hmore hidle => simpa using hturn _ _ [] rfl
  | failed hmore err => simpa using hturn _ _ [] rfl
  | refused hmore hidle hrest ih => exact hturn _ _ _ (by simpa using ih)
  | took hmore hpos htaken hrest ih => exact hturn _ _ _ (by simpa using ih)

/-! ### Refusals -/

theorem replies_turnEvents (c : Cursor) (reply : Except E ℕ) :
    (turnEvents chunk bytes c reply).filterMap SendEvent.reply? = [reply] := by
  rw [turnEvents]
  cases c.first <;> rfl

/-- Refusals from the start on, counted on from those before. -/
theorem refusals_leading (hsends : Sends chunk bytes c result events)
    (hidle : c.idle ≤ sendRetryBudget) {n : ℕ}
    (hrefusals : List.replicate n (.ok 0) <+: events.filterMap SendEvent.reply?) :
    c.idle + n ≤ sendRetryBudget ∨
      c.idle + n = sendRetryBudget + 1 ∧ result = .error .stalled := by
  induction hsends generalizing n with
  | finished hend =>
      have hlength := hrefusals.length_le
      simp only [List.length_replicate, List.filterMap_nil, List.length_nil] at hlength
      exact .inl (by omega)
  | late hmore =>
      have hlength := hrefusals.length_le
      simp only [List.length_replicate, SendEvent.reply?, List.filterMap_cons, List.filterMap_nil,
        List.length_nil] at hlength
      exact .inl (by omega)
  | stalled hmore hspent =>
      have hlength := hrefusals.length_le
      rw [replies_turnEvents, List.length_replicate, List.length_singleton] at hlength
      rcases Nat.lt_or_ge n 1 with hnone | hone
      · exact .inl (by omega)
      · exact .inr ⟨by omega, rfl⟩
  | failed hmore err =>
      rw [replies_turnEvents] at hrefusals
      cases n with
      | zero => exact .inl hidle
      | succ n =>
          rw [List.replicate_succ, List.cons_prefix_cons] at hrefusals
          cases hrefusals.1
  | refused hmore hless hrest ih =>
      rw [List.filterMap_append, replies_turnEvents] at hrefusals
      cases n with
      | zero => exact .inl hidle
      | succ n =>
          rw [List.replicate_succ, List.singleton_append, List.cons_prefix_cons] at hrefusals
          rw [Nat.add_comm n, ← Nat.add_assoc]
          exact ih hless hrefusals.2
  | took hmore hpos htaken hrest ih =>
      rw [List.filterMap_append, replies_turnEvents] at hrefusals
      cases n with
      | zero => exact .inl hidle
      | succ n =>
          rw [List.replicate_succ, List.singleton_append, List.cons_prefix_cons] at hrefusals
          cases hrefusals.1
          exact absurd hpos (Nat.lt_irrefl 0)

theorem refusals_of_front (hsends : Sends chunk bytes c result events)
    (hidle : c.idle ≤ sendRetryBudget) {n : ℕ}
    (hrefusals : List.replicate n (.ok 0) <+: events.filterMap SendEvent.reply?) :
    n ≤ sendRetryBudget ∨ n = sendRetryBudget + 1 ∧ result = .error .stalled := by
  rcases hsends.refusals_leading hidle hrefusals with hborne | ⟨hspent, hstalled⟩
  · exact .inl (by omega)
  · rcases Nat.lt_or_ge sendRetryBudget n with hmore | hborne
    · exact .inr ⟨by omega, hstalled⟩
    · exact .inl hborne

/-- **The budget for refusals.**  No more than the budget are borne in a row; one more ends
the send. -/
theorem refusals (hsends : Sends chunk bytes c result events)
    (hidle : c.idle ≤ sendRetryBudget) {n : ℕ}
    (hrefusals : List.replicate n (.ok 0) <:+: events.filterMap SendEvent.reply?) :
    n ≤ sendRetryBudget ∨ n = sendRetryBudget + 1 ∧ result = .error .stalled := by
  have hone (turn : List (SendEvent E)) (hlength : (turn.filterMap SendEvent.reply?).length ≤ 1)
      (hwithin : List.replicate n (.ok 0) <:+: turn.filterMap SendEvent.reply?) :
      n ≤ sendRetryBudget := by
    have hle := hwithin.length_le
    rw [List.length_replicate] at hle
    rw [sendRetryBudget]
    omega
  induction hsends with
  | finished hend => exact .inl (hone [] (Nat.zero_le 1) hrefusals)
  | late hmore => exact .inl (hone [.outOfTime true] (Nat.zero_le 1) hrefusals)
  | stalled hmore hspent => exact .inl (hone _ (by rw [replies_turnEvents]; rfl) hrefusals)
  | failed hmore err => exact .inl (hone _ (by rw [replies_turnEvents]; rfl) hrefusals)
  | refused hmore hless hrest ih =>
      rw [List.filterMap_append, replies_turnEvents, List.singleton_append,
        List.infix_cons_iff] at hrefusals
      rcases hrefusals with hfront | hlater
      · apply (Sends.refused hmore hless hrest).refusals_of_front hidle
        rwa [List.filterMap_append, replies_turnEvents]
      · exact ih hless hlater
  | took hmore hpos htaken hrest ih =>
      rw [List.filterMap_append, replies_turnEvents, List.singleton_append,
        List.infix_cons_iff] at hrefusals
      rcases hrefusals with hfront | hlater
      · apply (Sends.took hmore hpos htaken hrest).refusals_of_front hidle
        rwa [List.filterMap_append, replies_turnEvents]
      · exact ih (Nat.zero_le _) hlater

/-- How often the sink is called. -/
theorem count_offers (hsends : Sends chunk bytes c result events)
    (hidle : c.idle ≤ sendRetryBudget) :
    (events.filter SendEvent.isOffer).length ≤
      (bytes.length - c.sent) * (sendRetryBudget + 1) - c.idle := by
  have hturn (c : Cursor) (reply : Except E ℕ) :
      ((turnEvents chunk bytes c reply).filter SendEvent.isOffer).length = 1 := by
    rw [(filter_turnEvents c reply).2, List.length_singleton]
  rw [sendRetryBudget] at hidle ⊢
  induction hsends with
  | finished hend => exact Nat.zero_le _
  | late hmore => exact Nat.zero_le _
  | stalled hmore hspent =>
      rw [hturn]
      omega
  | failed hmore err =>
      rw [hturn]
      omega
  | refused hmore hless hrest ih =>
      rw [sendRetryBudget] at hless
      have hlater := ih hless
      rw [List.filter_append, List.length_append, hturn]
      dsimp only at hlater
      omega
  | took hmore hpos htaken hrest ih =>
      have hlater := ih (Nat.zero_le _)
      rw [List.filter_append, List.length_append, hturn]
      rw [offered, List.length_take, List.length_drop] at htaken
      dsimp only at hlater
      omega

end Sends

/-- What a send of `bytes` in chunks does, by its result and its events. -/
structure Delivers (chunk : ℕ) (bytes : List Byte) (result : Except (SendFault E) PUnit)
    (events : List (SendEvent E)) : Prop where
  /-- The bytes taken, one offer after the other, are the first bytes. -/
  inOrder : events.flatMap SendEvent.taken <+: bytes
  all : result = .ok .unit → events.flatMap SendEvent.taken = bytes ∧
    ((TxTally.new bytes.length).recordAll events).accepted =
      ((TxTally.new bytes.length).recordAll events).asked
  timedOut : ∀ sent len, result = .error (.timedOut sent len) →
    sent = (events.flatMap SendEvent.taken).length ∧ len = bytes.length
  offers : ∀ offer reply, .offer offer reply ∈ events → offer ≠ [] ∧ offer.length ≤ max chunk 1
  endsLate : EndsLate events
  spaced : events.filter (! SendEvent.isClock ·) =
    (events.filter SendEvent.isOffer).intersperse .gap
  refusals : ∀ n, List.replicate n (.ok 0) <:+: events.filterMap SendEvent.reply? →
    n ≤ sendRetryBudget ∨ n = sendRetryBudget + 1 ∧ result = .error .stalled
  calls : (events.filter SendEvent.isOffer).length ≤ bytes.length * (sendRetryBudget + 1)

/-- **`send_paced` delivers an exact prefix**, whatever an honest sink takes, refuses or
fails at, whatever the clock says, and at any chunk size. -/
theorem send_paced_delivers (hsink : sink.Honest) (chunk : ℕ) (bytes : List Byte) (world : W) :
    Delivers chunk bytes (sendPaced sink chunk bytes world).ending
      (sendPaced sink chunk bytes world).events := by
  have hsends : Sends chunk bytes ⟨0, 0, true⟩ (sendPaced sink chunk bytes world).ending
      (sendPaced sink chunk bytes world).events := sendFrom_sends hsink ⟨0, 0, true⟩ world
  have hidle : (0 : ℕ) ≤ sendRetryBudget := Nat.zero_le _
  obtain ⟨hfront, hall⟩ := hsends.taken_front
  rw [List.drop_zero] at hfront hall
  refine ⟨hfront, ?_, ?_, ?_, hsends.endsLate, hsends.spaced, ?_, hsends.count_offers hidle⟩
  · intro hok
    obtain ⟨haccepted, hasked⟩ := hsends.recordAll_accepted (TxTally.new bytes.length)
    refine ⟨hall hok, ?_⟩
    rw [haccepted, hasked, hall hok]
    exact Nat.zero_add _
  · intro sent len htimedOut
    have hreport := hsends.timedOut htimedOut
    rwa [Nat.zero_add] at hreport
  · exact fun _ _ hoffer => hsends.offer_bounds hoffer
  · exact fun _ hrefusals => hsends.refusals hidle hrefusals

/-- A sink that takes as many bytes as a list says, or as there are. -/
def scriptedSink : Sink Empty (List ℕ) where
  writeSome world offer := (.ok (min (world.headD 0) offer.length), world.tail)
  gap world := world
  outOfTime world := (world.isEmpty, world)

/-- Three bytes taken one at a time, with a refusal between the first two. -/
theorem send_paced_delivers_refused :
    Delivers 0 [1, 2, 3] (sendPaced scriptedSink 0 [1, 2, 3] [1, 0, 5, 1]).ending
      (sendPaced scriptedSink 0 [1, 2, 3] [1, 0, 5, 1]).events := by
  have hhonest : scriptedSink.Honest := by
    intro world offer n hn
    cases hn
    exact min_le_right _ _
  exact send_paced_delivers hhonest 0 [1, 2, 3] [1, 0, 5, 1]

end Baonix.Badge

import Baonix.Proto.Frame

/-!
# Keyboard forwarding

`pump_input` reads the operator's terminal and sends what was typed as `ConIn`
frames.  `Ctrl-]` quotes the next byte and `Ctrl-C` ends the forwarding, so what
is sent is the unescaping of the stream of keys, wherever a read ends.
-/

namespace Baonix.Host

open Baonix.LittleEndian Baonix.Proto

/-- `QUIT`. -/
def quitByte : Byte := 0x03

/-- `ESCAPE`. -/
def escapeByte : Byte := 0x1d

/-- The length of `buf`. -/
def bufLen : ℕ := 256

inductive InputEnd
  | quit
  | eof
  deriving DecidableEq

/-- The `n` bytes that a `read` put into the buffer. -/
structure Chunk where
  bytes : List Byte
  fits : bytes.length ≤ bufLen

/-- What `tx.send` does to a link and returns. -/
structure Link (E W : Type) where
  send : W → List Byte → Except E PUnit × W

/-- A payload encoded and handed to the link, and what the link returned. -/
structure Call (E : Type) where
  payload : List Byte
  reply : Except E PUnit

/-! ## The loops -/

/-- The variables of the inner loop. -/
structure Typed where
  payload : List Byte
  escaped : Bool
  quit : Bool

/-- The inner loop. -/
def scan (t : Typed) : List Byte → Typed
  | [] => t
  | b :: bytes =>
      if t.escaped then scan { t with payload := t.payload ++ [b], escaped := false } bytes
      else if b = escapeByte then scan { t with escaped := true } bytes
      else if b = quitByte then { t with quit := true }
      else scan { t with payload := t.payload ++ [b] } bytes

/-- How the outer loop was left, if it was, with the calls made and the link. -/
structure Pumped (E W : Type) where
  ending : Option (Except E InputEnd)
  calls : List (Call E)
  world : W

variable {E W : Type} (link : Link E W)

/-- What is sent behind the inner loop: no empty frame. -/
def sendTyped (payload : List Byte) (world : W) : List (Call E) × W :=
  if payload = [] then ([], world)
  else
    let sent := link.send world (encode (.conIn payload))
    ([⟨payload, sent.1⟩], sent.2)

/-- The error `tx.send` returned, if it did. -/
def sendError (calls : List (Call E)) : Option E :=
  calls.findSome? fun call =>
    match call.reply with
    | .ok _ => none
    | .error err => some err

/-- The end of a turn: the loop is left on an error of the link or a `Ctrl-C`, and goes on
with `rest` otherwise. -/
def endTurn (quit : Bool) (sent : List (Call E) × W) (rest : W → Pumped E W) : Pumped E W :=
  match sendError sent.1 with
  | some err => ⟨some (.error err), sent.1, sent.2⟩
  | none =>
      if quit then ⟨some (.ok .quit), sent.1, sent.2⟩
      else ⟨(rest sent.2).ending, sent.1 ++ (rest sent.2).calls, (rest sent.2).world⟩

/-- The outer loop over what the reads return.  Behind the last of them it waits. -/
def pumpFrom (escaped : Bool) (world : W) : List (Except E Chunk) → Pumped E W
  | [] => ⟨none, [], world⟩
  | .error err :: _ => ⟨some (.error err), [], world⟩
  | .ok chunk :: reads =>
      if chunk.bytes = [] then ⟨some (.ok .eof), [], world⟩
      else
        let typed := scan ⟨[], escaped, false⟩ chunk.bytes
        endTurn typed.quit (sendTyped link typed.payload world)
          fun world => pumpFrom typed.escaped world reads

def pumpInput (world : W) (reads : List (Except E Chunk)) : Pumped E W :=
  pumpFrom link false world reads

/-! ## The stream of keys -/

/-- What was typed: a key of its own, or one behind `Ctrl-]`. -/
inductive Key
  | plain (b : Byte) (hescape : b ≠ escapeByte) (hquit : b ≠ quitByte)
  | quoted (b : Byte)

namespace Key

def bytes : Key → List Byte
  | plain b _ _ => [b]
  | quoted b => [escapeByte, b]

def value : Key → Byte
  | plain b _ _ => b
  | quoted b => b

end Key

/-- What a stream of keys says, up to the first `Ctrl-C` that is not quoted. -/
def unescape : List Byte → List Byte
  | [] => []
  | b :: bytes =>
      if b = escapeByte then
        match bytes with
        | [] => []
        | quoted :: bytes => quoted :: unescape bytes
      else if b = quitByte then []
      else b :: unescape bytes

/-- A `Ctrl-C` stands behind whole keys. -/
def Quits (bytes : List Byte) : Prop :=
  ∃ (keys : List Key) (rest : List Byte), bytes = keys.flatMap Key.bytes ++ quitByte :: rest

theorem unescape_key (key : Key) (bytes : List Byte) :
    unescape (key.bytes ++ bytes) = key.value :: unescape bytes := by
  cases key with
  | plain b hescape hquit =>
      rw [Key.bytes, List.singleton_append, unescape.eq_def]
      exact (if_neg hescape).trans (if_neg hquit)
  | quoted b =>
      rw [Key.bytes, List.cons_append, unescape.eq_def]
      exact if_pos rfl

theorem unescape_quit (bytes : List Byte) : unescape (quitByte :: bytes) = [] := by
  rw [unescape.eq_def]
  exact (if_neg (by decide)).trans (if_pos rfl)

/-- Whole keys are what a stream says until a `Ctrl-C` or the end. -/
theorem unescape_keys (keys : List Key) (bytes : List Byte) :
    unescape (keys.flatMap Key.bytes ++ bytes) = keys.map Key.value ++ unescape bytes := by
  induction keys with
  | nil => rfl
  | cons key keys ih =>
      rw [List.flatMap_cons, List.append_assoc, unescape_key, ih, List.map_cons, List.cons_append]

theorem quits_quit (bytes : List Byte) : Quits (quitByte :: bytes) := ⟨[], bytes, rfl⟩

theorem not_quits_nil : ¬ Quits [] := by
  rintro ⟨keys, rest, hbytes⟩
  exact absurd hbytes.symm (List.append_ne_nil_of_right_ne_nil _ (List.cons_ne_nil _ _))

theorem not_quits_escape : ¬ Quits [escapeByte] := by
  rintro ⟨keys, rest, hbytes⟩
  cases keys with
  | nil => exact absurd (List.cons.inj hbytes).1 (by decide)
  | cons key keys =>
      rw [List.flatMap_cons, List.append_assoc] at hbytes
      cases key with
      | plain b hescape hquit => exact hescape (List.cons.inj hbytes).1.symm
      | quoted b => exact absurd (List.cons.inj hbytes).2 (List.cons_ne_nil _ _).symm

/-- The first key decides nothing. -/
theorem quits_key {key : Key} {bytes : List Byte} :
    Quits (key.bytes ++ bytes) ↔ Quits bytes := by
  constructor
  · rintro ⟨keys, rest, hbytes⟩
    cases keys with
    | nil =>
        cases key with
        | plain b hescape hquit => exact absurd (List.cons.inj hbytes).1 hquit
        | quoted b => exact absurd (List.cons.inj hbytes).1 (by decide)
    | cons other keys =>
        rw [List.flatMap_cons, List.append_assoc] at hbytes
        refine ⟨keys, rest, ?_⟩
        cases key with
        | plain b hescape hquit =>
            cases other with
            | plain other _ _ => exact (List.cons.inj hbytes).2
            | quoted other => exact absurd (List.cons.inj hbytes).1 hescape
        | quoted b =>
            cases other with
            | plain other hother _ => exact absurd (List.cons.inj hbytes).1.symm hother
            | quoted other => exact (List.cons.inj (List.cons.inj hbytes).2).2
  · rintro ⟨keys, rest, rfl⟩
    exact ⟨key :: keys, rest, by rw [List.flatMap_cons, List.append_assoc]⟩

/-! ## The inner loop -/

/-- The bytes that a pending `Ctrl-]` stands for. -/
def pending (escaped : Bool) : List Byte := if escaped then [escapeByte] else []

/-- What the inner loop made of `keys` behind a payload, and the keys it leaves for `later`. -/
def Splits (payload keys later : List Byte) (typed : Typed) : Prop :=
  if typed.quit then payload ++ unescape keys = typed.payload ∧ Quits keys
  else payload ++ unescape keys = typed.payload ++ unescape later ∧ (Quits keys ↔ Quits later)

theorem Splits.key {payload keys later : List Byte} {typed : Typed} (key : Key)
    (hsplits : Splits (payload ++ [key.value]) keys later typed) :
    Splits payload (key.bytes ++ keys) later typed := by
  rw [Splits, List.append_assoc, List.singleton_append] at hsplits
  rwa [Splits, unescape_key, quits_key]

/-- **The inner loop unescapes.** -/
theorem scan_splits (t : Typed) (hquit : t.quit = false) (bytes rest : List Byte) :
    Splits t.payload (pending t.escaped ++ (bytes ++ rest))
      (pending (scan t bytes).escaped ++ rest) (scan t bytes) := by
  induction bytes generalizing t with
  | nil =>
      rw [scan, Splits, hquit]
      exact ⟨rfl, Iff.rfl⟩
  | cons b bytes ih =>
      rcases t with ⟨payload, escaped, quit⟩
      cases hquit
      cases escaped with
      | true => exact (ih ⟨payload ++ [b], false, false⟩ rfl).key (.quoted b)
      | false =>
          by_cases hescape : b = escapeByte
          · subst hescape
            exact ih ⟨payload, true, false⟩ rfl
          by_cases hquit : b = quitByte
          · subst hquit
            rw [scan, if_neg Bool.false_ne_true, if_neg hescape, if_pos rfl]
            refine ⟨?_, quits_quit _⟩
            rw [pending, if_neg Bool.false_ne_true, List.nil_append, List.cons_append,
              unescape_quit, List.append_nil]
          · rw [scan, if_neg Bool.false_ne_true, if_neg hescape, if_neg hquit]
            exact (ih ⟨payload ++ [b], false, false⟩ rfl).key (.plain b hescape hquit)

/-- A byte is pushed at most once. -/
theorem length_scan (t : Typed) (bytes : List Byte) :
    (scan t bytes).payload.length ≤ t.payload.length + bytes.length := by
  induction bytes generalizing t with
  | nil => exact Nat.le_refl _
  | cons b bytes ih =>
      rw [scan, List.length_cons]
      split
      · have hrest := ih { t with payload := t.payload ++ [b], escaped := false }
        rw [List.length_append, List.length_singleton] at hrest
        omega
      · split
        · have hrest := ih { t with escaped := true }
          dsimp only at hrest
          omega
        · split
          · exact Nat.le_add_right _ _
          · have hrest := ih { t with payload := t.payload ++ [b] }
            rw [List.length_append, List.length_singleton] at hrest
            omega

/-! ## The calls of one turn -/

variable {link}

/-- The link behind the calls, each of them one frame. -/
def sentBy (link : Link E W) (world : W) (calls : List (Call E)) : W :=
  calls.foldl (fun world call => (link.send world (encode (.conIn call.payload))).2) world

theorem sendError_eq_none {calls : List (Call E)} :
    sendError calls = none ↔ ∀ call ∈ calls, call.reply = .ok .unit := by
  rw [sendError, List.findSome?_eq_none_iff]
  refine forall₂_congr fun call _ => ?_
  cases call.reply with
  | ok value => simp
  | error err => simp

theorem sendError_append {calls later : List (Call E)} (hcalls : sendError calls = none) :
    sendError (calls ++ later) = sendError later := by
  rw [sendError] at hcalls ⊢
  rw [List.findSome?_append, hcalls, Option.none_or]
  rfl

theorem sendTyped_cases (link : Link E W) (payload : List Byte) (world : W) :
    payload = [] ∧ sendTyped link payload world = ([], world) ∨
      payload ≠ [] ∧ ∃ reply, sendTyped link payload world =
        ([⟨payload, reply⟩], sentBy link world [⟨payload, reply⟩]) := by
  rw [sendTyped]
  by_cases hpayload : payload = []
  · exact .inl ⟨hpayload, if_pos hpayload⟩
  · exact .inr ⟨hpayload, _, if_neg hpayload⟩

/-- What a forwarding of `keys` does, where the reads would leave the loop by `closing`. -/
structure Forwards (link : Link E W) (world : W) (keys : List Byte)
    (closing : Option (Except E InputEnd)) (pumped : Pumped E W) : Prop where
  /-- No frame is empty, and none holds more than the buffer. -/
  payloads : ∀ call ∈ pumped.calls, call.payload ≠ [] ∧ call.payload.length ≤ bufLen
  /-- The payloads, one after the other, are the first that the keys say. -/
  inOrder : pumped.calls.flatMap Call.payload <+: unescape keys
  all : sendError pumped.calls = none → pumped.calls.flatMap Call.payload = unescape keys
  quit : pumped.ending = some (.ok .quit) ↔ sendError pumped.calls = none ∧ Quits keys
  closes : sendError pumped.calls = none → ¬ Quits keys → pumped.ending = closing
  failed : ∀ err, sendError pumped.calls = some err → pumped.ending = some (.error err)
  /-- Nothing is sent behind a call that failed. -/
  lastFails : ∀ call ∈ pumped.calls.dropLast, call.reply = .ok .unit
  link : pumped.world = sentBy link world pumped.calls

namespace Forwards

theorem idle (link : Link E W) (world : W) (escaped : Bool)
    {closing : Option (Except E InputEnd)} (hclosing : closing ≠ some (.ok .quit)) :
    Forwards link world (pending escaped ++ []) closing ⟨closing, [], world⟩ := by
  have hkeys : unescape (pending escaped ++ []) = [] ∧ ¬ Quits (pending escaped ++ []) := by
    cases escaped with
    | false => exact ⟨rfl, not_quits_nil⟩
    | true => exact ⟨rfl, not_quits_escape⟩
  obtain ⟨hnothing, hquits⟩ := hkeys
  exact
    { payloads := fun call hcall => absurd hcall List.not_mem_nil
      inOrder := List.nil_prefix
      all := fun _ => hnothing.symm
      quit := iff_of_false hclosing fun hquit => hquits hquit.2
      closes := fun _ _ => rfl
      failed := fun err herr => by cases herr
      lastFails := fun call hcall => absurd hcall List.not_mem_nil
      link := rfl }

/-- A frame that did not go out ends the forwarding. -/
theorem refused {world : W} {keys payload later : List Byte}
    {closing : Option (Except E InputEnd)} (hpayload : payload ≠ [])
    (hlength : payload.length ≤ bufLen) (hkeys : unescape keys = payload ++ later) (err : E) :
    Forwards link world keys closing ⟨some (.error err), [⟨payload, .error err⟩],
      sentBy link world [⟨payload, .error err⟩]⟩ where
  payloads call hcall := by
    cases List.mem_singleton.mp hcall
    exact ⟨hpayload, hlength⟩
  inOrder := by
    rw [hkeys, List.flatMap_singleton]
    exact List.prefix_append payload later
  all hsent := by cases hsent
  quit := iff_of_false (by simp) fun hquit => by cases hquit.1
  closes hsent := by cases hsent
  failed other hother := by
    cases hother
    rfl
  lastFails call hcall := absurd hcall List.not_mem_nil
  link := rfl

/-- A turn that sent what it had ends the forwarding at a `Ctrl-C`. -/
theorem quitting {world : W} {keys : List Byte} {closing : Option (Except E InputEnd)}
    {calls : List (Call E)} (hcalls : sendError calls = none)
    (hpayloads : ∀ call ∈ calls, call.payload ≠ [] ∧ call.payload.length ≤ bufLen)
    (hkeys : unescape keys = calls.flatMap Call.payload) (hquits : Quits keys) :
    Forwards link world keys closing ⟨some (.ok .quit), calls, sentBy link world calls⟩ where
  payloads := hpayloads
  inOrder := hkeys ▸ List.prefix_refl _
  all _ := hkeys.symm
  quit := iff_of_true rfl ⟨hcalls, hquits⟩
  closes _ hnot := absurd hquits hnot
  failed err herr := by
    rw [hcalls] at herr
    cases herr
  lastFails call hcall := sendError_eq_none.mp hcalls call (List.dropLast_subset calls hcall)
  link := rfl

/-- A turn that sent what it had, and the forwarding of what comes behind it. -/
theorem behind {world : W} {keys later : List Byte} {closing : Option (Except E InputEnd)}
    {calls : List (Call E)} {rest : Pumped E W} (hcalls : sendError calls = none)
    (hpayloads : ∀ call ∈ calls, call.payload ≠ [] ∧ call.payload.length ≤ bufLen)
    (hkeys : unescape keys = calls.flatMap Call.payload ++ unescape later)
    (hquits : Quits keys ↔ Quits later)
    (hrest : Forwards link (sentBy link world calls) later closing rest) :
    Forwards link world keys closing ⟨rest.ending, calls ++ rest.calls, rest.world⟩ where
  payloads call hcall := by
    rcases List.mem_append.mp hcall with hnow | hlater
    · exact hpayloads call hnow
    · exact hrest.payloads call hlater
  inOrder := by
    rw [hkeys, List.flatMap_append]
    exact (List.prefix_append_right_inj _).mpr hrest.inOrder
  all hsent := by
    rw [sendError_append hcalls] at hsent
    rw [hkeys, List.flatMap_append, hrest.all hsent]
  quit := by
    rw [sendError_append hcalls, hquits]
    exact hrest.quit
  closes hsent hnot := by
    rw [sendError_append hcalls] at hsent
    exact hrest.closes hsent fun hquit => hnot (hquits.mpr hquit)
  failed err herr := by
    rw [sendError_append hcalls] at herr
    exact hrest.failed err herr
  lastFails call hcall := by
    rw [List.dropLast_append] at hcall
    split at hcall
    · exact sendError_eq_none.mp hcalls call (List.dropLast_subset calls hcall)
    · rcases List.mem_append.mp hcall with hnow | hlater
      · exact sendError_eq_none.mp hcalls call hnow
      · exact hrest.lastFails call hlater
  link := by
    rw [hrest.link, sentBy, sentBy, sentBy, List.foldl_append]

/-- The end of a turn whose calls went through. -/
theorem going {world : W} {keys later : List Byte} {closing : Option (Except E InputEnd)}
    {typed : Typed} {calls : List (Call E)} {rest : W → Pumped E W}
    (hsplits : Splits [] keys later typed) (hcalls : sendError calls = none)
    (hpayloads : ∀ call ∈ calls, call.payload ≠ [] ∧ call.payload.length ≤ bufLen)
    (hflat : calls.flatMap Call.payload = typed.payload)
    (hrest : ∀ world, Forwards link world later closing (rest world)) :
    Forwards link world keys closing
      (endTurn typed.quit (calls, sentBy link world calls) rest) := by
  rw [endTurn]
  dsimp only
  rw [hcalls]
  dsimp only
  rw [Splits, ← hflat, List.nil_append] at hsplits
  cases hquit : typed.quit with
  | true =>
      rw [hquit, if_pos rfl] at hsplits
      rw [if_pos rfl]
      exact quitting hcalls hpayloads hsplits.1 hsplits.2
  | false =>
      rw [hquit, if_neg Bool.false_ne_true] at hsplits
      rw [if_neg Bool.false_ne_true]
      exact behind hcalls hpayloads hsplits.1 hsplits.2 (hrest _)

/-- One turn of the outer loop, behind the inner one. -/
theorem turn {keys later : List Byte} {closing : Option (Except E InputEnd)} {typed : Typed}
    {rest : W → Pumped E W} (hsplits : Splits [] keys later typed)
    (hlength : typed.payload.length ≤ bufLen) (world : W)
    (hrest : ∀ world, Forwards link world later closing (rest world)) :
    Forwards link world keys closing
      (endTurn typed.quit (sendTyped link typed.payload world) rest) := by
  rcases sendTyped_cases link typed.payload world with ⟨hnone, hsent⟩ | ⟨hsome, reply, hsent⟩
  · rw [hsent]
    exact going hsplits rfl (fun call hcall => absurd hcall List.not_mem_nil) hnone.symm hrest
  · rw [hsent]
    cases reply with
    | ok value =>
        refine going hsplits rfl (fun call hcall => ?_) (List.flatMap_singleton ..) hrest
        cases List.mem_singleton.mp hcall
        exact ⟨hsome, hlength⟩
    | error err =>
        rw [Splits, List.nil_append] at hsplits
        split at hsplits
        · exact refused hsome hlength (hsplits.1.trans (List.append_nil _).symm) err
        · exact refused hsome hlength hsplits.1 err

end Forwards

/-! ## The outer loop -/

/-- The keys that the reads deliver, up to the end of the input or an error. -/
def stream : List (Except E Chunk) → List Byte
  | .ok chunk :: reads => if chunk.bytes = [] then [] else chunk.bytes ++ stream reads
  | _ => []

/-- How the reads leave the loop, if they do. -/
def closing : List (Except E Chunk) → Option (Except E InputEnd)
  | [] => none
  | .error err :: _ => some (.error err)
  | .ok chunk :: reads => if chunk.bytes = [] then some (.ok .eof) else closing reads

theorem pumpFrom_forwards (link : Link E W) (escaped : Bool) (world : W)
    (reads : List (Except E Chunk)) :
    Forwards link world (pending escaped ++ stream reads) (closing reads)
      (pumpFrom link escaped world reads) := by
  induction reads generalizing escaped world with
  | nil => exact Forwards.idle link world escaped (by simp [closing])
  | cons read reads ih =>
      cases read with
      | error err => exact Forwards.idle link world escaped (by simp [closing])
      | ok chunk =>
          rw [pumpFrom, stream, closing]
          by_cases hchunk : chunk.bytes = []
          · rw [if_pos hchunk, if_pos hchunk, if_pos hchunk]
            exact Forwards.idle link world escaped (by simp)
          rw [if_neg hchunk, if_neg hchunk, if_neg hchunk]
          dsimp only
          refine Forwards.turn ?_ ?_ world fun world => ih _ world
          · exact scan_splits ⟨[], escaped, false⟩ rfl chunk.bytes (stream reads)
          · have hlength := length_scan ⟨[], escaped, false⟩ chunk.bytes
            rw [List.length_nil, Nat.zero_add] at hlength
            exact hlength.trans chunk.fits

/-- **Keyboard forwarding does not depend on where the reads end**, whatever the link
takes or refuses. -/
theorem pump_input_forwards (link : Link E W) (world : W) (reads : List (Except E Chunk)) :
    Forwards link world (stream reads) (closing reads) (pumpInput link world reads) :=
  pumpFrom_forwards link false world reads

end Baonix.Host

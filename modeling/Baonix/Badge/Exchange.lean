import Baonix.Core.Backing
import Baonix.Proto.Mux

/-!
# One exchange over the page link

`exchange_inner` sends a page request and waits for the answer, over a transport that
may refuse, fail or stay silent.  Between two places where its loops turn the source
is straight-line code, so the exchange is a machine with one step for each turn.  Every
call of the transport that matters for the protocol is recorded with its answer.
-/

namespace Baonix.Badge

open Baonix.Core Baonix.LittleEndian Baonix.Proto

/-! ## The transport -/

/-- `SendError`. -/
inductive SendError
  | stalled
  | failed
  | timedOut (sent len : ℕ)
  deriving DecidableEq

/-- `Transport`, without `poll`, which an exchange does not call. -/
class Transport (T : Type) where
  arm : T → Except Unit Unit × T
  send : List Byte → T → Except SendError Unit × T
  recv : T → Except Unit (List Byte) × T
  nowMs : T → ℕ × T
  takePlatformFault : T → Option String × T
  status : T → Option String × T

/-- `RECV_DEADLINE_MS`. -/
def recvDeadlineMs : ℕ := 2000

/-- `ATTEMPT_DEADLINE_MS`. -/
def attemptDeadlineMs : ℕ := 250

/-- `RETRY_BUDGET`. -/
def retryBudget : ℕ := 3

/-- `NOISE_SAMPLE`. -/
def noiseSample : ℕ := 64

/-- `TY_READ_RESP`. -/
def tyReadResp : Byte := 0x02

/-- `TY_WRITE_ACK`. -/
def tyWriteAck : Byte := 0x04

/-- `TY_ERR`. -/
def tyErr : Byte := 0x07

/-! ## Faults -/

inductive LinkFault
  | notParked
  | stalled
  | sendTimedOut (sent len : ℕ)
  | sendFailed
  | recvFailed
  | timeout (attempts elapsedMs waitedMs deliveries bytesIn : ℕ)
  | wrongPage (asked got : BitVec 32)
  deriving DecidableEq

/-- `Op`. -/
inductive Op
  | read (page : BitVec 32)
  | write (page : BitVec 32)
  deriving DecidableEq

structure Fault where
  kind : LinkFault
  op : Option Op
  platform : Option String
  status : Option String
  discarded : Option String
  deriving DecidableEq

/-- The match on the error of `send`. -/
def LinkFault.ofSend : SendError → LinkFault
  | .stalled => .stalled
  | .failed => .sendFailed
  | .timedOut sent len => .sendTimedOut sent len

def framePage : Frame → Option (BitVec 32)
  | .readReq page => some page
  | .writeAck page => some page
  | .readResp page _ => some page
  | .writeReq page _ => some page
  | .err _ page => some page
  | .conIn _ => none
  | .conOut _ => none

def errCode (code : BitVec 16) : Error :=
  if code = 1 ∨ code = 2 then .outOfRange else .medium

/-! ## The link -/

/-- `LinkInner`, without the buffer it reuses and the times it adds up. -/
structure LinkInner (T : Type) where
  t : T
  op : Option Op
  mux : Mux
  console : List Byte
  fault : Option Fault
  retries : ℕ
  staleDropped : ℕ
  lateDropped : ℕ
  noiseSample : List Byte
  noiseDropped : ℕ
  deliveries : ℕ
  bytesIn : ℕ

/-- The format `02x`. -/
def hexByte (byte : Byte) : String :=
  let digits := String.ofList (Nat.toDigits 16 byte.toNat)
  if digits.length < 2 then "0" ++ digits else digits

namespace LinkInner

variable {T : Type}

def absorb (link : LinkInner T) (bytes : List Byte) : LinkInner T :=
  let taken := (link.mux.push bytes).takeConsole
  { link with
    deliveries := link.deliveries + 1
    bytesIn := link.bytesIn + bytes.length
    mux := taken.2
    console := link.console ++ taken.1 }

def stashNoise (link : LinkInner T) : LinkInner T :=
  let noise := link.mux.takeNoise
  if noise.1.1 = [] ∧ noise.1.2 = 0 then { link with mux := noise.2 }
  else
    { link with
      mux := noise.2
      noiseSample := noise.1.1
      noiseDropped := link.noiseDropped + noise.1.2 }

def resync (link : LinkInner T) : LinkInner T :=
  let taken := link.mux.takeConsole
  let stashed := { link with mux := taken.2, console := link.console ++ taken.1 }.stashNoise
  { stashed with mux := Mux.capturingNoiseCapped Badge.noiseSample }

/-- `noise_report`: the text, and the link with the stash drained. -/
def noiseReport (link : LinkInner T) : Option String × LinkInner T :=
  let total := link.noiseSample.length + link.noiseDropped
  (if total = 0 then none
    else some ("decoder discarded " ++ toString total ++ " bytes; first " ++
      toString link.noiseSample.length ++ ": " ++
      " ".intercalate (link.noiseSample.map hexByte)),
    { link with noiseSample := [], noiseDropped := 0 })

/-- `note`; the error it returns is always `Medium`. -/
def note [Transport T] (link : LinkInner T) (kind : LinkFault) : LinkInner T :=
  let platform := Transport.takePlatformFault link.t
  let status := Transport.status platform.2
  let report := { link with t := status.2 }.stashNoise.noiseReport
  { report.2 with fault := some ⟨kind, link.op, platform.1, status.1, report.1⟩ }

end LinkInner

/-- The inner loop of `discard_stale_responses`. -/
def discardType (mux : Mux) (ty : Byte) : ℕ × Mux :=
  match _htake : mux.takeMatching ty with
  | none => (0, mux)
  | some (_, next) => ((discardType next ty).1 + 1, (discardType next ty).2)
termination_by mux.held.length
decreasing_by exact Mux.length_takeMatching _htake

/-- `RESPONSE_TYPES`. -/
def responseTypes : List Byte := [tyReadResp, tyWriteAck, tyErr]

def discardStaleResponses (mux : Mux) : ℕ × Mux :=
  responseTypes.foldl (fun found ty =>
    ((discardType found.2 ty).1 + found.1, (discardType found.2 ty).2)) (0, mux)

/-! ## The exchange -/

/-- A call of the transport and its answer. -/
inductive Event
  | clock (now : ℕ)
  | arm (reply : Except Unit Unit)
  | send (bytes : List Byte) (reply : Except SendError Unit)
  | recv (reply : Except Unit (List Byte))

/-- The variables of `exchange_inner`, the link, and the calls made so far. -/
structure Exchanging (T : Type) where
  link : LinkInner T
  asked : BitVec 32
  out : List Byte
  began : ℕ
  attempts : ℕ
  mismatched : ℕ
  lastMismatch : Option (BitVec 32)
  log : List Event

/-- Where an exchange is: at the head of `'attempts`, at the head of the inner loop,
behind a `break 'attempts`, or returned. -/
inductive Phase
  | attempt
  | waiting (sentAt : ℕ)
  | broken (fault : LinkFault)
  | returned (result : Except Error Frame)

variable {T : Type} [Transport T]

namespace Exchanging

variable (x : Exchanging T)

/-- The exchange behind a call of the transport. -/
def called (t : T) (event : Event) : Exchanging T :=
  { x with link := { x.link with t := t }, log := x.log ++ [event] }

def clock : ℕ × Exchanging T :=
  let called := Transport.nowMs x.link.t
  (called.1, x.called called.2 (.clock called.1))

def arm : Except Unit Unit × Exchanging T :=
  let called := Transport.arm x.link.t
  (called.1, x.called called.2 (.arm called.1))

def send : Except SendError Unit × Exchanging T :=
  let called := Transport.send x.out x.link.t
  (called.1, x.called called.2 (.send x.out called.1))

def recv : Except Unit (List Byte) × Exchanging T :=
  let called := Transport.recv x.link.t
  (called.1, x.called called.2 (.recv called.1))

def withMux (mux : Mux) : Exchanging T := { x with link := { x.link with mux := mux } }

/-- `LinkFault::Timeout` with the numbers of this exchange. -/
def timeout (elapsed waited : ℕ) : LinkFault :=
  .timeout x.attempts elapsed waited x.link.deliveries x.link.bytesIn

/-- The head of `'attempts`: one more attempt, and nothing held that answers another. -/
def retried : Exchanging T :=
  let found := discardStaleResponses x.link.mux
  { x with
    attempts := x.attempts + 1
    link := { x.link with mux := found.2, staleDropped := x.link.staleDropped + found.1 } }

/-- `send`, and the clock behind it. -/
def transmit : Phase × Exchanging T :=
  let sent := x.send
  match sent.1 with
  | .error err => (.broken (.ofSend err), sent.2)
  | .ok _ => (.waiting sent.2.clock.1, sent.2.clock.2)

/-- The second check of the deadline, behind `arm`. -/
def armed : Phase × Exchanging T :=
  let now := x.clock
  let elapsed := now.1 - x.began
  if elapsed > recvDeadlineMs then (.broken (now.2.timeout elapsed elapsed), now.2)
  else now.2.transmit

/-- A turn of `'attempts` up to its inner loop. -/
def attemptTurn : Phase × Exchanging T :=
  let now := x.retried.clock
  let elapsed := now.1 - x.began
  if elapsed > recvDeadlineMs then (.broken (now.2.timeout elapsed elapsed), now.2)
  else
    let parked := now.2.arm
    match parked.1 with
    | .error _ => (.broken .notParked, parked.2)
    | .ok _ => parked.2.armed

/-- What a delivery does; an empty one means "not yet". -/
def deliver (bytes : List Byte) : Exchanging T :=
  if bytes = [] then x else { x with link := x.link.absorb bytes }

/-- The rest of a turn of the inner loop that found no answer held. -/
def listen (sentAt : ℕ) : Phase × Exchanging T :=
  let now := x.clock
  if now.1 - x.began > recvDeadlineMs then
    (.broken (now.2.timeout (now.1 - x.began) (now.1 - sentAt)), now.2)
  else if now.1 - sentAt > attemptDeadlineMs then
    if x.attempts > retryBudget then
      (.broken (now.2.timeout (now.1 - x.began) (now.1 - sentAt)), now.2)
    else
      (.attempt, { now.2 with link := { now.2.link with retries := now.2.link.retries + 1 } })
  else
    let heard := now.2.recv
    match heard.1 with
    | .error _ => (.broken .recvFailed, heard.2)
    | .ok bytes => (.waiting sentAt, heard.2.deliver bytes)

/-- A turn of the inner loop. -/
def waitTurn (want : Byte) (sentAt : ℕ) : Phase × Exchanging T :=
  match x.link.mux.takeMatching want with
  | some (r, mux) =>
      if framePage r = some x.asked then (.returned (.ok r), x.withMux mux)
      else
        (.waiting sentAt,
          { x with
            mismatched := x.mismatched + 1
            lastMismatch := framePage r
            link := { x.link with mux := mux, lateDropped := x.link.lateDropped + 1 } })
  | none =>
      match x.link.mux.takeMatching tyErr with
      | some (.err code page, mux) =>
          if page = x.asked then (.returned (.error (errCode code)), x.withMux mux)
          else (.waiting sentAt, x.withMux mux)
      | some (_, mux) => (x.withMux mux).listen sentAt
      | none => x.listen sentAt

/-- A timeout during which answers for other pages came is a `WrongPage`. -/
def blamed : LinkFault → LinkFault
  | .timeout attempts elapsed waited deliveries bytesIn =>
      if x.mismatched > 0 then .wrongPage x.asked (x.lastMismatch.getD (BitVec.allOnes 32))
      else .timeout attempts elapsed waited deliveries bytesIn
  | fault => fault

/-- What follows `'attempts`. -/
def giveUp (fault : LinkFault) : Exchanging T :=
  { x with link := x.link.resync.note (x.blamed fault) }

end Exchanging

/-- One turn of whichever loop the exchange is in. -/
def step (want : Byte) : Phase × Exchanging T → Phase × Exchanging T
  | (.attempt, x) => x.attemptTurn
  | (.waiting sentAt, x) => x.waitTurn want sentAt
  | (.broken fault, x) => (.returned (.error .medium), x.giveUp fault)
  | (.returned result, x) => (.returned result, x)

/-- `exchange_inner` before its loops, for a frame about the page `asked`. -/
def opened (f : Frame) (asked : BitVec 32) (link : LinkInner T) : Exchanging T :=
  let began := Transport.nowMs link.t
  { link :=
      { link with
        t := began.2
        op := some (match f with
          | .writeReq _ _ => .write asked
          | _ => .read asked) }
    asked := asked
    out := encode f
    began := began.1
    attempts := 0
    mismatched := 0
    lastMismatch := none
    log := [.clock began.1] }

/-- `exchange_inner` after a number of turns.  A frame without a page is refused at once. -/
def exchangeInner (f : Frame) (want : Byte) (link : LinkInner T) (turns : ℕ) :
    Option (Phase × Exchanging T) :=
  (framePage f).map fun asked => (step want)^[turns] (.attempt, opened f asked link)

/-- The exchanges of `read_page` and `write_page`. -/
inductive Request
  | read (page : BitVec 32)
  | write (page : BitVec 32) (data : Page)

namespace Request

def frame : Request → Frame
  | read page => .readReq page
  | write page data => .writeReq page data

def want : Request → Byte
  | read _ => tyReadResp
  | write _ _ => tyWriteAck

def page : Request → BitVec 32
  | read page => page
  | write page _ => page

end Request

end Baonix.Badge

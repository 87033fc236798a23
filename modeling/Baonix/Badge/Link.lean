import Baonix.Badge.ExchangeRuns
import Baonix.Badge.Run
import Baonix.Badge.SendPaced

/-!
# The link between the backing and the run loop

`UsbHost` and the `Link` it hands out share one `LinkInner`: the cache calls `read_page`
and `write_page` on it, and between two slices the run loop pumps it, takes the console
bytes and mirrors the guest's output.  An exchange takes as many turns as its peer and its
clock need, and nothing else is called on the link before it has returned.
-/

namespace Baonix.Badge

open Baonix.Core Baonix.LittleEndian Baonix.Proto

/-- `Transport`, with `poll`. -/
class Polled (T : Type) extends Transport T where
  poll : T → Except Unit (List Byte) × T

/-! ## The text of a fault -/

/-- `SEND_DEADLINE_MS`. -/
def sendDeadlineMs : ℕ := 500

/-- What `LinkFault::describe` reads out of the numbers of a timeout. -/
def timeoutReading (waitedMs deliveries : ℕ) : String :=
  if deliveries = 0 then
    if waitedMs < attemptDeadlineMs / 2 then
      "RETURNED EARLY and heard nothing: the attempt gave up well short " ++
        "of its own deadline, so the receive path is failing fast rather " ++
        "than waiting -- look at arm/recv, not at the peer"
    else
      "waited and heard nothing: no delivery ever reached the decoder, " ++
        "so either nothing arrived or the listener never took it"
  else if waitedMs < attemptDeadlineMs / 2 then
    "RETURNED EARLY though bytes were arriving: the wait is not being waited"
  else
    "bytes arrived but never formed the frame asked for: framing, CRC, " ++
      "truncation, or an answer for another page"

/-- `LinkFault::describe`. -/
def LinkFault.describe (fault : LinkFault) (platform : Option String) : String :=
  let base :=
    match fault with
    | .notParked => "no receive listener confirmed parked before send"
    | .stalled => "send sink accepted nothing " ++ toString sendRetryBudget ++ " times running"
    | .sendTimedOut sent len =>
        "send gave up after " ++ toString sendDeadlineMs ++ " ms with " ++ toString sent ++ " of " ++
          toString len ++ " bytes handed over: the transmit path is accepting bytes and not " ++
          "draining them"
    | .sendFailed => "transport send failed"
    | .recvFailed => "transport recv failed"
    | .timeout attempts elapsedMs waitedMs deliveries bytesIn =>
        "no answer after " ++ toString attempts ++ " attempt(s); measured " ++ toString elapsedMs ++
          " ms total, " ++ toString waitedMs ++ " ms on the last attempt, " ++
          toString deliveries ++ " deliveries (" ++ toString bytesIn ++
          " bytes) ever received. Policy: " ++ toString recvDeadlineMs ++ " ms total, " ++
          toString attemptDeadlineMs ++ " ms per attempt, " ++ toString retryBudget ++
          " re-sends. Reading: " ++ timeoutReading waitedMs deliveries
    | .wrongPage asked got =>
        "response for page " ++ toString got.toNat ++ " while waiting for page " ++
          toString asked.toNat
  match platform with
  | some text => base ++ " (" ++ text ++ ")"
  | none => base

/-- `Op::describe`. -/
def Op.describe : Op → String
  | .read page => "reading page " ++ toString page.toNat
  | .write page => "writing page " ++ toString page.toNat

/-- `Fault::describe`. -/
def Fault.describe (fault : Fault) : String :=
  let text := fault.kind.describe fault.platform
  let bracket : Option String → String
    | some s => " [" ++ s ++ "]"
    | none => ""
  (match fault.op with
    | some op => op.describe ++ ": " ++ text
    | none => text) ++ bracket fault.status ++ bracket fault.discarded

/-! ## The calls of the run loop -/

namespace LinkInner

/-- `UsbHost::new`. -/
def new {T : Type} (t : T) : LinkInner T where
  t := t
  op := none
  mux := Mux.capturingNoiseCapped Badge.noiseSample
  console := []
  fault := none
  retries := 0
  staleDropped := 0
  lateDropped := 0
  noiseSample := []
  noiseDropped := 0
  deliveries := 0
  bytesIn := 0

def takeConsole {T : Type} (link : LinkInner T) : List Byte × LinkInner T :=
  (link.console, { link with console := [] })

def takeFault {T : Type} (link : LinkInner T) : Option Fault × LinkInner T :=
  (link.fault, { link with fault := none })

variable {T : Type}

def pump [Polled T] (link : LinkInner T) : Except Error Unit × LinkInner T :=
  let polled := Polled.poll link.t
  let quiet := { link with t := polled.2, op := none }
  match polled.1 with
  | .ok bytes => (.ok (), if bytes = [] then quiet else quiet.absorb bytes)
  | .error _ => (.error .medium, quiet.note .recvFailed)

def sendConsole [Transport T] (bytes : List Byte) (link : LinkInner T) :
    Except Error Unit × LinkInner T :=
  if bytes = [] then (.ok (), link)
  else
    let sent := Transport.send (encode (.conOut bytes)) link.t
    let quiet := { link with t := sent.2, op := none }
    match sent.1 with
    | .ok _ => (.ok (), quiet)
    | .error err => (.error .medium, quiet.note (.ofSend err))

end LinkInner

instance {T : Type} [Polled T] : Link (LinkInner T) Fault where
  pump := LinkInner.pump
  takeConsole := LinkInner.takeConsole
  sendConsole := LinkInner.sendConsole
  takeFault := LinkInner.takeFault
  describe := Fault.describe

/-! ## What goes on on a link -/

/-- What the link is doing: nothing, or an exchange. -/
inductive Activity (T : Type)
  | idle (link : LinkInner T)
  | busy (request : Request) (phase : Phase) (x : Exchanging T)

/-- A call on an idle link, a turn of the exchange that is going on, or its return. -/
inductive Action
  | pump
  | takeConsole
  | takeFault
  | sendConsole (bytes : List Byte)
  | begin (request : Request)
  | turn
  | finish

namespace Activity

variable {T : Type}

def link : Activity T → LinkInner T
  | idle link => link
  | busy _ _ x => x.link

variable [Polled T]

def perform : Action → Activity T → Option (Activity T)
  | .pump, idle link => some (idle link.pump.2)
  | .takeConsole, idle link => some (idle link.takeConsole.2)
  | .takeFault, idle link => some (idle link.takeFault.2)
  | .sendConsole bytes, idle link => some (idle (link.sendConsole bytes).2)
  | .begin request, idle link =>
      some (busy request .attempt (opened request.frame request.page link))
  | .turn, busy request phase x =>
      let next := step request.want (phase, x)
      some (busy request next.1 next.2)
  | .finish, busy _ (.returned _) x => some (idle x.link)
  | _, _ => none

/-- The calls of the transport that an action makes; a poll is told like a `recv`. -/
def events : Action → Activity T → List Event
  | .pump, idle link => [.recv (Polled.poll link.t).1]
  | .sendConsole bytes, idle link =>
      if bytes = [] then []
      else [.send (encode (.conOut bytes)) (Transport.send (encode (.conOut bytes)) link.t).1]
  | .begin request, idle link => (opened request.frame request.page link).log
  | .turn, busy request phase x => (step request.want (phase, x)).2.log.drop x.log.length
  | _, _ => []

end Activity

end Baonix.Badge

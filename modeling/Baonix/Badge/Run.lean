import Baonix.Host.Run

/-!
# The badge's run loop

`run` of the badge steps the guest in slices.  Between two slices it serves the
console: input that arrived on the link goes to the UART, output goes back, and
the screen is repainted.  The time measurements and the log lines are left out.
-/

namespace Baonix.Badge

open Baonix.Core Baonix.LittleEndian
open Baonix.Host (deadEnd)

/-- `Console`: a sink that can repaint, tick and hand over what it mirrors. -/
class Console (S : Type) extends ConsoleSink S where
  flush : S → S
  tick : S → S
  takeOutput : S → List Byte × S

/-- `Link`: what the run loop uses of the link behind the backing, and the text
of its faults. -/
class Link (B : Type) (Fault : outParam Type) where
  pump : B → Except Error Unit × B
  takeConsole : B → List Byte × B
  sendConsole : List Byte → B → Except Error Unit × B
  takeFault : B → Option Fault × B
  describe : Fault → String

/-- `Config`, with a slice that is not empty. -/
structure Config where
  sliceInsns : ℕ
  maxInsns : ℕ
  heartbeatSlices : ℕ
  sliceInsns_pos : 1 ≤ sliceInsns

inductive Ending (Fault : Type)
  | shutdown
  | capped
  | backing (addr : BitVec 64) (fault : Option Fault)
  | machineTrap (mcause mepc mtval : BitVec 64)
  | stopped

/-- The format `#x`. -/
def hex (v : BitVec 64) : String := "0x" ++ String.ofList (Nat.toDigits 16 v.toNat)

variable {B S Fault : Type}

/-- `Ending::describe`. -/
def Ending.describe [Link B Fault] : Ending Fault → String
  | .shutdown => "-- shutdown --"
  | .capped => "-- insn cap --"
  | .backing addr (some fault) => "MEM FAULT " ++ hex addr ++ " " ++ Link.describe B fault
  | .backing addr none => "MEM FAULT " ++ hex addr ++ " (no link fault recorded)"
  | .machineTrap mcause mepc mtval =>
      "M-TRAP c" ++ toString mcause.toNat ++ " pc " ++ hex mepc ++ " tv " ++ hex mtval
  | .stopped => "-- stopped --"

/-- What the loop counts besides the instructions. -/
structure Tally where
  slices : ℕ
  pumpFaults : ℕ
  mirrorFaults : ℕ

/-- `Report`, without what it copies from the machine and the link. -/
structure Report (Fault : Type) where
  ending : Ending Fault
  executed : ℕ
  tally : Tally

/-- What the run loop computes in. -/
abbrev RunM (B S : Type) := Exec Empty (Machine B S)

/-- An operation of the link the backing is the other end of. -/
def onLink {Value : Type} (operation : B → Value × B) : RunM B S Value :=
  Exec.call (·.bus.cache.backing)
    (fun m backing => { m with bus := { m.bus with cache := { m.bus.cache with backing } } })
    operation

/-- An operation of `bus.uart.sink`. -/
def onSink {Value : Type} (operation : S → Value × S) : RunM B S Value :=
  Exec.call (·.bus.uart.sink)
    (fun m sink => { m with bus := { m.bus with uart := { m.bus.uart with sink } } }) operation

section Loop

variable [MemBacking B] [Link B Fault] [Console S]

/-- The inner loop of `run`: a slice, and the ending if the run ends in it. -/
def slice : (budget executed : ℕ) → RunM B S (ℕ × Option (Ending Fault))
  | 0, executed => pure (executed, none)
  | budget + 1, executed => do
      let cpu := (← Exec.read).cpu
      if deadEnd cpu then
        pure (executed, some (.machineTrap (cpu.csrs.read Csr.mcause) (cpu.csrs.read Csr.mepc)
          (cpu.csrs.read Csr.mtval)))
      else do
        Exec.update Machine.interrupted
        match ← Machine.stepTrapping with
        | .ok .shutdown => pure (executed + 1, some .shutdown)
        | .ok .handled => do
            Exec.update (Machine.ticked 1)
            slice budget (executed + 1)
        | .error addr => do
            let fault ← onLink Link.takeFault
            pure (executed, some (.backing addr fault))

/-- A call of the link whose failure is counted and whose fault is dropped: the
failures so far and after it. -/
def tolerate (operation : B → Except Error Unit × B) (faults : ℕ) : RunM B S ℕ := do
  match ← onLink operation with
  | .ok () => pure faults
  | .error _ => do
      let _ ← onLink Link.takeFault
      pure (faults + 1)

/-- `push_input` of each byte. -/
def pushAll : List Byte → RunM B S PUnit
  | [] => pure ()
  | byte :: rest => do
      Exec.update (Machine.given byte)
      pushAll rest

/-- What arrived on the console goes to the UART. -/
def receive : RunM B S PUnit := do
  pushAll (← onLink Link.takeConsole)

/-- `take_output`, and `send_console` if there is any: the failures so far and
after it. -/
def mirror (faults : ℕ) : RunM B S ℕ := do
  let out ← onSink Console.takeOutput
  if out = [] then pure faults else tolerate (Link.sendConsole out) faults

/-- The heartbeat, every so many slices. -/
def beat (cfg : Config) (slices : ℕ) : RunM B S PUnit :=
  if cfg.heartbeatSlices ≠ 0 ∧ slices % cfg.heartbeatSlices = 0 then
    onSink fun sink => ((), Console.tick sink)
  else pure ()

/-- The service between two slices. -/
def service (cfg : Config) (tally : Tally) : RunM B S Tally := do
  let pumpFaults ← tolerate Link.pump tally.pumpFaults
  receive
  let mirrorFaults ← mirror tally.mirrorFaults
  let slices := tally.slices + 1
  beat cfg slices
  onSink fun sink => ((), Console.flush sink)
  pure ⟨slices, pumpFaults, mirrorFaults⟩

/-- The watch of a run: a closure with a state of its own that sees the bus and
the instructions executed. -/
abbrev Watch (B S W : Type) := W → Bus B S → ℕ → Bool × W × Bus B S

/-- A call of the watch. -/
def watched {W : Type} (watch : Watch B S W) (w : W) (executed : ℕ) : RunM B S (Bool × W) :=
  Exec.call (·.bus) (fun m bus => { m with bus := bus }) fun bus =>
    let result := watch w bus executed
    ((result.1, result.2.1), result.2.2)

/-- The outer loop of `run`, with what is left of the budget. -/
def loop {W : Type} (cfg : Config) (watch : Watch B S W) (w : W) (left executed : ℕ)
    (tally : Tally) : RunM B S (Report Fault) :=
  if _hspent : left = 0 then pure ⟨.capped, executed, tally⟩
  else do
    let (executed, ended) ← slice (min cfg.sliceInsns left) executed
    match ended with
    | some ending => pure ⟨ending, executed, tally⟩
    | none => do
        let tally ← service cfg tally
        let (continues, w) ← watched watch w executed
        if continues then loop cfg watch w (left - min cfg.sliceInsns left) executed tally
        else pure ⟨.stopped, executed, tally⟩
termination_by left
decreasing_by
  have hpos := cfg.sliceInsns_pos
  omega

/-- `note`. -/
def note (line : String) : RunM B S PUnit :=
  onSink fun sink =>
    ((), Console.flush ((line.toUTF8.toList.map UInt8.toBitVec ++ [0x0A]).foldl ConsoleSink.put sink))

/-- The ending goes to the console, unless the caller asked for it. -/
def announce (ending : Ending Fault) : RunM B S PUnit :=
  match ending with
  | .stopped => pure ()
  | ending => do
      note ""
      note (ending.describe (B := B))

/-- `run`. -/
def run {W : Type} (cfg : Config) (watch : Watch B S W) (w : W) : RunM B S (Report Fault) := do
  let report ← loop cfg watch w cfg.maxInsns 0 ⟨0, 0, 0⟩
  announce report.ending
  let mirrorFaults ← mirror report.tally.mirrorFaults
  pure { report with tally := { report.tally with mirrorFaults } }

end Loop

end Baonix.Badge

import Baonix.Core.Devices
import Baonix.Lib.Bits

/-!
# The UART over a history of accesses

Two offsets name five registers: which one, `DLAB` and the direction of the access say.
Everything the guest reads is said here in terms of what happened before alone: the bytes
the host sent, the ones already read, and the last byte stored to each of the registers.
-/

namespace Baonix.Core.Uart

open Baonix.LittleEndian

variable {S : Type}

/-- What the host and the guest do to the UART. -/
inductive Call
  | input (byte : Byte)
  | load (off : BitVec 64)
  | store (off v : BitVec 64)

/-- A call that was made, a load with what it returned. -/
inductive Event
  | input (byte : Byte)
  | loaded (off value : BitVec 64)
  | stored (off v : BitVec 64)

def perform [ConsoleSink S] (u : Uart S) : Call → Event × Uart S
  | .input byte => (.input byte, u.pushInput byte)
  | .load off => (.loaded off (u.load off).1, (u.load off).2)
  | .store off v => (.stored off v, u.store off v)

/-- A sequence of calls, after a history, which is the latest event first. -/
def play [ConsoleSink S] : List Call → List Event × Uart S → List Event × Uart S
  | [], now => now
  | call :: calls, now => play calls ((now.2.perform call).1 :: now.1, (now.2.perform call).2)

/-! ## What a history says -/

/-- The registers a store can name. -/
inductive Register
  | transmit
  | interruptEnable
  | lineControl
  | divisorLow
  | divisorHigh
  deriving DecidableEq

/-- The register a store names. -/
def Register.named (dlab : Bool) (off : BitVec 64) : Option Register :=
  if off = thr then some (if dlab then divisorLow else transmit)
  else if off = ierReg then some (if dlab then divisorHigh else interruptEnable)
  else if off = lcrReg then some lineControl
  else none

theorem Register.named_eq_lineControl {dlab : Bool} {off : BitVec 64} :
    named dlab off = some lineControl ↔ off = lcrReg := by
  rw [named]
  cases dlab <;> split_ifs <;> simp_all [thr, ierReg, lcrReg]

/-- Whether the last store to the line control register set `DLAB`. -/
def dlabIn : List Event → Bool
  | [] => false
  | .stored off v :: before =>
      if off = lcrReg then v.setWidth 8 &&& lcrDlab ≠ 0 else dlabIn before
  | _ :: before => dlabIn before

/-- The bytes stored to a register, in order. -/
def storedIn (register : Register) : List Event → List Byte
  | [] => []
  | .stored off v :: before =>
      if Register.named (dlabIn before) off = some register then
        storedIn register before ++ [v.setWidth 8]
      else storedIn register before
  | _ :: before => storedIn register before

/-- The byte stored last, or zero. -/
def lastIn (register : Register) (history : List Event) : Byte :=
  (storedIn register history).getLastD 0

/-- The bytes the host sent, in order. -/
def sentIn : List Event → List Byte
  | [] => []
  | .input byte :: before => sentIn before ++ [byte]
  | _ :: before => sentIn before

/-- The bytes the guest read from the receive buffer while one was waiting there. -/
def readIn : List Event → List Byte
  | [] => []
  | .loaded off value :: before =>
      if off = rbr ∧ dlabIn before = false ∧ (readIn before).length < (sentIn before).length then
        readIn before ++ [value.setWidth 8]
      else readIn before
  | _ :: before => readIn before

/-- The bytes sent and not yet read. -/
def waitingIn (history : List Event) : List Byte := (sentIn history).drop (readIn history).length

/-- The cause an interrupt would have: received data, if the guest asked for it, before an
empty transmitter, if it asked for that. -/
def causeIn (history : List Event) : BitVec 64 :=
  if (lastIn .interruptEnable history).getLsbD 0 ∧ waitingIn history ≠ [] then iirRxAvailable
  else if (lastIn .interruptEnable history).getLsbD 1 then iirThrEmpty
  else iirNoInterrupt

/-- What a load returns. -/
def replyIn (history : List Event) (off : BitVec 64) : BitVec 64 :=
  if off = rbr then
    if dlabIn history then (lastIn .divisorLow history).setWidth 64
    else ((waitingIn history).headD 0).setWidth 64
  else if off = ierReg then
    if dlabIn history then (lastIn .divisorHigh history).setWidth 64
    else (lastIn .interruptEnable history).setWidth 64
  else if off = iir then causeIn history
  else if off = lcrReg then (lastIn .lineControl history).setWidth 64
  else if off = lsr then
    (if waitingIn history = [] then 0 else lsrDr) ||| (lsrThre ||| lsrTemt)
  else 0

/-! ## The registers say the same -/

/-- What a register keeps; a byte to transmit is handed on. -/
def held (u : Uart S) : Register → Byte
  | .transmit => 0
  | .interruptEnable => u.ier
  | .lineControl => u.lcr
  | .divisorLow => u.dll
  | .divisorHigh => u.dlm

/-- The UART is where its history leaves it. -/
structure Follows [ConsoleSink S] (sink : S) (history : List Event) (u : Uart S) : Prop where
  input : readIn history ++ u.input = sentIn history
  sink : u.sink = (storedIn .transmit history).foldl ConsoleSink.put sink
  held : ∀ register ≠ .transmit, u.held register = lastIn register history
  dlab : u.dlab = dlabIn history
  replies : ∀ later off value before, history = later ++ .loaded off value :: before →
    value = replyIn before off

theorem lastIn_stored {register : Register} {off v : BitVec 64} {before : List Event} :
    lastIn register (.stored off v :: before) =
      if Register.named (dlabIn before) off = some register then v.setWidth 8
      else lastIn register before := by
  rw [lastIn, storedIn]
  split
  · rw [List.getLastD_concat]
  · rfl

/-- A load changes the receive buffer at most. -/
theorem load_state (u : Uart S) (off : BitVec 64) :
    (u.load off).2 =
      { u with input := if off = rbr ∧ u.dlab = false then u.input.tail else u.input } := by
  rw [load]
  by_cases hrbr : off = rbr
  · rw [if_pos hrbr]
    cases hdlab : u.dlab with
    | true => simp
    | false => simp [hrbr]
  · have hkept : ¬ (off = rbr ∧ u.dlab = false) := fun hboth => hrbr hboth.1
    rw [if_neg hrbr, if_neg hkept]
    split_ifs <;> rfl

section Stores

variable [ConsoleSink S]

/-- Gives a register a byte. -/
def assign (u : Uart S) (byte : Byte) : Register → Uart S
  | .transmit => { u with sink := ConsoleSink.put u.sink byte }
  | .interruptEnable => { u with ier := byte }
  | .lineControl => { u with lcr := byte }
  | .divisorLow => { u with dll := byte }
  | .divisorHigh => { u with dlm := byte }

/-- A store goes to the register it names, if there is one. -/
theorem store_eq (u : Uart S) (off v : BitVec 64) :
    u.store off v = ((Register.named u.dlab off).map (u.assign (v.setWidth 8))).getD u := by
  rw [store, Register.named]
  cases u.dlab <;> split_ifs <;> rfl

@[simp]
theorem input_assign (u : Uart S) (byte : Byte) (register : Register) :
    (u.assign byte register).input = u.input := by
  cases register <;> rfl

theorem sink_assign (u : Uart S) (byte : Byte) (register : Register) :
    (u.assign byte register).sink =
      if register = .transmit then ConsoleSink.put u.sink byte else u.sink := by
  cases register <;> rfl

/-- No register reaches another. -/
theorem held_assign (u : Uart S) (byte : Byte) {register other : Register}
    (hother : other ≠ .transmit) :
    (u.assign byte register).held other = if register = other then byte else u.held other := by
  cases register <;> cases other <;> first | rfl | exact absurd rfl hother

end Stores

namespace Follows

variable [ConsoleSink S] {sink : S} {history : List Event} {u : Uart S}

theorem new (sink : S) : Follows sink [] (Uart.new sink) where
  input := rfl
  sink := rfl
  held := by
    intro register _
    cases register <;> rfl
  dlab := decide_eq_false (not_not.mpr BitVec.zero_and)
  replies := by
    intro later off value before heq
    cases later <;> cases heq

theorem waiting (hfollows : Follows sink history u) : waitingIn history = u.input := by
  rw [waitingIn, ← hfollows.input, List.drop_left' rfl]

/-- The events before stay as they were. -/
theorem replies_cons (hfollows : Follows sink history u) {event : Event}
    (hevent : ∀ off value, event = .loaded off value → value = replyIn history off) :
    ∀ later off value before, event :: history = later ++ .loaded off value :: before →
      value = replyIn before off := by
  intro later off value before heq
  cases later with
  | nil =>
      obtain ⟨hhead, htail⟩ := List.cons.inj heq
      rw [← htail]
      exact hevent off value hhead
  | cons head later => exact hfollows.replies later off value before (List.cons.inj heq).2

theorem ier (hfollows : Follows sink history u) : u.ier = lastIn .interruptEnable history :=
  hfollows.held .interruptEnable (by decide)

theorem lcr (hfollows : Follows sink history u) : u.lcr = lastIn .lineControl history :=
  hfollows.held .lineControl (by decide)

theorem dll (hfollows : Follows sink history u) : u.dll = lastIn .divisorLow history :=
  hfollows.held .divisorLow (by decide)

theorem dlm (hfollows : Follows sink history u) : u.dlm = lastIn .divisorHigh history :=
  hfollows.held .divisorHigh (by decide)

theorem iir_eq (hfollows : Follows sink history u) : u.loadIir = causeIn history := by
  have hbit (byte : Byte) {i : ℕ} (hi : i < 8) :
      byte &&& (1 : Byte) <<< i ≠ 0 ↔ byte.getLsbD i = true := by
    rw [← Bool.not_eq_false]
    exact not_congr (Bits.and_one_shiftLeft_eq_zero hi)
  have hreceive : ierRxAvailable = (1 : Byte) <<< 0 := rfl
  have htransmit : ierThrEmpty = (1 : Byte) <<< 1 := rfl
  rw [loadIir, causeIn, hfollows.waiting, ← hfollows.ier, hreceive, htransmit]
  simp only [hbit u.ier (show 0 < 8 by norm_num), hbit u.ier (show 1 < 8 by norm_num), thrEmpty,
    and_true]

/-- **A load returns what the history says.** -/
theorem load_eq (hfollows : Follows sink history u) (off : BitVec 64) :
    (u.load off).1 = replyIn history off := by
  rw [load, replyIn, ← hfollows.dlab, hfollows.waiting, ← hfollows.dll, ← hfollows.dlm,
    ← hfollows.ier, ← hfollows.lcr]
  split
  · split
    · rfl
    · rw [List.headD_eq_head?_getD]
  split
  · split <;> rfl
  split
  · exact hfollows.iir_eq
  split
  · rfl
  split
  · rfl
  · rfl

/-- A load takes the first byte that waits, if it is of the receive buffer, and changes
nothing else. -/
theorem loaded (hfollows : Follows sink history u) (off : BitVec 64) :
    Follows sink (.loaded off (u.load off).1 :: history) (u.load off).2 := by
  have hevent (off' value : BitVec 64)
      (heq : Event.loaded off (u.load off).1 = .loaded off' value) :
      value = replyIn history off' := by
    cases heq
    exact hfollows.load_eq off
  have hinput := hfollows.input
  have hwaiting : (readIn history).length < (sentIn history).length ↔ u.input ≠ [] := by
    rw [← hinput, List.length_append, Nat.lt_add_right_iff_pos, List.length_pos_iff]
  rw [load_state]
  refine ⟨?_, hfollows.sink, hfollows.held, hfollows.dlab, hfollows.replies_cons hevent⟩
  change readIn (.loaded off (u.load off).1 :: history) ++ _ = sentIn history
  rw [readIn, ← hfollows.dlab]
  simp only [hwaiting]
  by_cases hreceive : off = rbr ∧ u.dlab = false
  · rw [if_pos hreceive]
    cases hbytes : u.input with
    | nil => simpa [hbytes] using hinput
    | cons byte rest =>
        have hvalue : (u.load off).1 = byte.setWidth 64 := by
          rw [load, if_pos hreceive.1, hreceive.2, hbytes]
          rfl
        rw [if_pos ⟨hreceive.1, hreceive.2, List.cons_ne_nil _ _⟩, hvalue, List.tail_cons,
          BitVec.setWidth_setWidth_of_le _ (by norm_num), BitVec.setWidth_eq, List.append_assoc,
          List.singleton_append, ← hbytes]
        exact hinput
  · have hkept : ¬ (off = rbr ∧ u.dlab = false ∧ u.input ≠ []) :=
      fun hall => hreceive ⟨hall.1, hall.2.1⟩
    rw [if_neg hreceive, if_neg hkept]
    exact hinput

theorem stored (hfollows : Follows sink history u) (off v : BitVec 64) :
    Follows sink (.stored off v :: history) (u.store off v) := by
  have hevent (off' value : BitVec 64) (heq : Event.stored off v = .loaded off' value) :
      value = replyIn history off' := by
    cases heq
  have hreplies := hfollows.replies_cons hevent
  rw [store_eq, hfollows.dlab]
  cases hnamed : Register.named (dlabIn history) off with
  | none =>
      have hdlab : off ≠ lcrReg := fun heq => by
        rw [Register.named_eq_lineControl.mpr heq] at hnamed
        cases hnamed
      refine ⟨hfollows.input, ?_, fun register hregister => ?_, ?_, hreplies⟩
      · rw [storedIn, hnamed, if_neg (Option.some_ne_none _).symm]
        exact hfollows.sink
      · rw [lastIn_stored, hnamed, if_neg (Option.some_ne_none _).symm]
        exact hfollows.held register hregister
      · rw [dlabIn, if_neg hdlab]
        exact hfollows.dlab
  | some register =>
      rw [Option.map_some, Option.getD_some]
      refine ⟨?_, ?_, fun other hother => ?_, ?_, hreplies⟩
      · rw [input_assign]
        exact hfollows.input
      · rw [sink_assign, storedIn, hnamed, hfollows.sink]
        simp only [Option.some.injEq]
        split
        · rw [List.foldl_append, List.foldl_cons, List.foldl_nil]
        · rfl
      · rw [held_assign u _ hother, lastIn_stored, hnamed, hfollows.held other hother]
        simp only [Option.some.injEq]
      · have hlcr : (u.assign (v.setWidth 8) register).lcr =
            if register = .lineControl then v.setWidth 8 else u.lcr := by
          have hheld := @held_assign S _ u (v.setWidth 8) register .lineControl (by decide)
          exact hheld
        have hline := @Register.named_eq_lineControl (dlabIn history) off
        rw [hnamed, Option.some.injEq] at hline
        rw [Uart.dlab, hlcr, dlabIn, ← hfollows.dlab, Uart.dlab]
        simp only [hline]
        split <;> rfl

/-- **One call** is followed by the history with it. -/
theorem perform (hfollows : Follows sink history u) (call : Call) :
    Follows sink ((u.perform call).1 :: history) (u.perform call).2 := by
  cases call with
  | input byte =>
      refine ⟨?_, hfollows.sink, hfollows.held, hfollows.dlab,
        hfollows.replies_cons fun _ _ heq => by cases heq⟩
      change readIn history ++ (u.input ++ [byte]) = sentIn history ++ [byte]
      rw [← List.append_assoc, hfollows.input]
  | load off => exact hfollows.loaded off
  | store off v => exact hfollows.stored off v

theorem play (hfollows : Follows sink history u) (calls : List Call) :
    Follows sink (play calls (history, u)).1 (play calls (history, u)).2 := by
  induction calls generalizing history u with
  | nil => exact hfollows
  | cons call calls ih => exact ih (hfollows.perform call)

end Follows

/-- **The FIFO and the banks.**  After any calls on a new UART: the bytes read from the
receive buffer and those that still wait are the bytes the host sent, in order; what the
sink was given is what was stored to the transmit register, in order; each register is
the last byte stored to it, whatever `DLAB` was in between; and each load returned what
the history before it says: of the receive buffer the byte that waits, or zero, and of
the identification register the cause that is enabled and pending. -/
theorem fifo_and_banks [ConsoleSink S] (sink : S) (calls : List Call) :
    let history := (play calls ([], new sink)).1
    let u := (play calls ([], new sink)).2
    readIn history ++ u.input = sentIn history ∧
      u.sink = (storedIn .transmit history).foldl ConsoleSink.put sink ∧
      u.ier = lastIn .interruptEnable history ∧ u.lcr = lastIn .lineControl history ∧
      u.dll = lastIn .divisorLow history ∧ u.dlm = lastIn .divisorHigh history ∧
      ∀ later off value before, history = later ++ .loaded off value :: before →
        value = replyIn before off := by
  intro history u
  have hfollows : Follows sink history u := (Follows.new sink).play calls
  exact ⟨hfollows.input, hfollows.sink, hfollows.ier, hfollows.lcr, hfollows.dll, hfollows.dlm,
    hfollows.replies⟩

end Baonix.Core.Uart

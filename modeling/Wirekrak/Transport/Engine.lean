import Wirekrak.Transport.History

/-!
# Wirekrak.Transport.Engine — the control plane of the websocket engine, beside its connection

The receive thread of `Engine`, as far as it emits control events.  What the data plane does is an argument of its
steps (`Turn`): no slot, no block, or a read result, with what was acquired for it.

* `outbox` holds the events the thread is about to push, in order; each push is a step of its own, so the connection
  may pop between two of them.  Only a `BackpressureDetected` that does not fit changes what the thread does next.
* `check` is the loop condition; between it and the end of a turn `close()` may have been called.
* `Engine::close` joins the thread: a connection that has called it goes on when the thread has exited and has pushed
  its last event (`Sys.Joining`).

`Sys` puts engine and connection together.  A step of the engine reaches the connection as a push into the control
ring only, so a run of `Sys` is a run of `Host` with the pushes as deliveries.
-/

namespace Wirekrak.Transport

open Wirekrak.Lib

/-! ## Hysteresis -/

/-- `BinaryHysteresis`; the thresholds are arguments of its operations. -/
structure Hysteresis where
  active : Bool := false
  activateStreak : ℕ := 0
  deactivateStreak : ℕ := 0
  deriving DecidableEq, Repr

inductive Transition
  | none
  | activated
  | deactivated
  deriving DecidableEq, Repr

namespace Hysteresis

def onActiveSignal (threshold : ℕ) (h : Hysteresis) : Hysteresis × Transition :=
  if h.active then (⟨h.active, 0, 0⟩, .none)
  else if threshold ≤ h.activateStreak + 1 then (⟨true, 0, 0⟩, .activated)
  else (⟨h.active, h.activateStreak + 1, 0⟩, .none)

def onInactiveSignal (threshold : ℕ) (h : Hysteresis) : Hysteresis × Transition :=
  if h.active then
    if threshold ≤ h.deactivateStreak + 1 then (⟨false, 0, 0⟩, .deactivated)
    else (⟨h.active, 0, h.deactivateStreak + 1⟩, .none)
  else (⟨h.active, 0, 0⟩, .none)

end Hysteresis

/-! ## Read results -/

namespace Websocket

inductive ReceiveStatus
  | ok
  | timeout
  | protocolError
  | transportError
  deriving DecidableEq, Repr

inductive FrameType
  | fragment
  | message
  | close
  deriving DecidableEq, Repr

inductive BackendError
  | none
  | localShutdown
  | remoteClosed
  | timeout
  | connectionFailed
  | protocolError
  | transportFailure
  deriving DecidableEq, Repr

/-- `data` are the bytes that `read_some` has written; their number is `bytes`. -/
structure ReadResult where
  status : ReceiveStatus
  data : List UInt8
  frame : FrameType
  error : BackendError
  deriving DecidableEq

def mapBackendError (r : ReadResult) : Error :=
  match r.error with
  | .none =>
    match r.status with
    | .timeout => .timeout
    | .protocolError => .protocolError
    | _ => .transportFailure
  | .localShutdown => .localShutdown
  | .remoteClosed => .remoteClosed
  | .timeout => .timeout
  | .connectionFailed => .connectionFailed
  | .protocolError => .protocolError
  | .transportFailure => .transportFailure

end Websocket

/-! ## The engine -/

/-- The backpressure policy: zero tolerance, or a hysteresis with its two thresholds. -/
structure Pressure where
  zeroTolerance : Bool
  activate : ℕ
  deactivate : ℕ
  deriving DecidableEq, Repr

/-- Where the receive thread stands: at the loop condition, in the body, or past the loop. -/
inductive Loop
  | head
  | body
  | exited
  deriving DecidableEq, Repr

/-- What a turn acquires before it reads: a slot, a block for the slot it has, or nothing. -/
inductive Acquired
  | slot
  | block
  | nothing
  deriving DecidableEq, Repr

inductive Turn
  | saturated
  | exhausted
  | received (got : Acquired) (r : Websocket.ReadResult)
  deriving DecidableEq

structure Engine where
  ringBackpressure : Hysteresis := {}
  poolBackpressure : Hysteresis := {}
  backpressureActive : Bool := false
  running : Bool := true
  closed : Bool := false
  closeSignaled : Bool := false
  loop : Loop := .head
  outbox : List Websocket.Event := []
  deriving DecidableEq, Repr

namespace Engine

def emitEvent (ev : Websocket.Event) (e : Engine) : Engine :=
  { e with outbox := e.outbox ++ [ev] }

def signalClose (e : Engine) : Engine :=
  if e.closeSignaled then e else emitEvent .close { e with closeSignaled := true }

def handleFatalError (error : Error) (e : Engine) : Engine :=
  if e.running then signalClose (emitEvent (.error error) { e with running := false }) else e

/-- Is one of the two stabilizers active? -/
def pressed (e : Engine) : Bool :=
  e.ringBackpressure.active || e.poolBackpressure.active

def updateBackpressureState (e : Engine) : Engine :=
  if e.pressed = e.backpressureActive then e
  else
    emitEvent (if e.pressed then .backpressureDetected else .backpressureCleared)
      { e with backpressureActive := e.pressed }

/-- A stabilizer has moved; a transition of it updates the global state. -/
def noteRing (r : Hysteresis × Transition) (e : Engine) : Engine :=
  if r.2 = .none then { e with ringBackpressure := r.1 } else updateBackpressureState { e with ringBackpressure := r.1 }

def notePool (r : Hysteresis × Transition) (e : Engine) : Engine :=
  if r.2 = .none then { e with poolBackpressure := r.1 } else updateBackpressureState { e with poolBackpressure := r.1 }

/-- `acquire_slot_` and `promote_slot_` on their way out with nothing. -/
def refuse (q : Pressure) (pool : Bool) (e : Engine) : Engine :=
  if q.zeroTolerance then handleFatalError .backpressure e
  else if pool then notePool (e.poolBackpressure.onActiveSignal q.activate) e
  else noteRing (e.ringBackpressure.onActiveSignal q.activate) e

/-- `acquire_slot_` and `promote_slot_` on their way out with what was asked for. -/
def grant (q : Pressure) (got : Acquired) (e : Engine) : Engine :=
  if q.zeroTolerance then e
  else
    match got with
    | .slot => noteRing (e.ringBackpressure.onInactiveSignal q.deactivate) e
    | .block => notePool (e.poolBackpressure.onInactiveSignal q.deactivate) e
    | .nothing => e

/-- The loop is left: `signal_close_` is the last thing the thread does. -/
def exit (e : Engine) : Engine :=
  signalClose { e with loop := .exited }

/-- What the thread does with a read result, as far as control events go. -/
def receive (r : Websocket.ReadResult) (e : Engine) : Engine :=
  if r.status ≠ .ok then exit { emitEvent (.error (Websocket.mapBackendError r)) e with running := false }
  else if r.frame = .close then
    if r.error ≠ .none ∧ r.error ≠ .localShutdown then
      exit { emitEvent (.error (Websocket.mapBackendError r)) e with running := false }
    else exit { e with running := false }
  else if r.data = [] then exit { emitEvent (.error .protocolError) e with running := false }
  else { e with loop := .head }

/-- The loop condition. -/
def check (e : Engine) : Engine :=
  if e.running then { e with loop := .body } else exit e

/-- The body of the loop. -/
def turn (q : Pressure) (t : Turn) (e : Engine) : Engine :=
  match t with
  | .saturated => { refuse q false e with loop := .head }
  | .exhausted => { refuse q true e with loop := .head }
  | .received got r => receive r (grant q got e)

/-- The next event of the outbox has been pushed, or did not fit. -/
def pushed (fits : Bool) (e : Engine) : Engine :=
  match e.outbox with
  | [] => e
  | ev :: rest =>
    if fits then { e with outbox := rest }
    else if ev = .backpressureDetected then handleFatalError .backpressure { e with outbox := rest }
    else { e with outbox := rest }

/-- `close()`, to the join. -/
def close (e : Engine) : Engine :=
  if e.closed then e else { e with closed := true, running := false }

/-- The thread has ended. -/
def finished (e : Engine) : Bool :=
  e.loop = .exited ∧ e.outbox = []

end Engine

/-! ## Engine and connection -/

structure Sys where
  host : Host := {}
  engine : Option Engine := none
  deriving DecidableEq

inductive SysAct
  | host (a : Act)
  | check
  | turn (t : Turn)
  | push
  deriving DecidableEq

namespace Sys

/-- The thread of a connect that has succeeded starts; a transport that is gone or told to close is closed. -/
def settle (before after : Host) (engine : Option Engine) : Option Engine :=
  if before.pc.waits = false ∧ after.pc.waits = true then if after.pc.succeeded then some {} else none
  else if after.conn.ws = some ⟨false⟩ then engine
  else engine.map Engine.close

/-- The connection's thread waits in `recv_thread_.join()`. -/
def Joining (s : Sys) : Prop :=
  ∃ e, s.engine = some e ∧ e.closed = true ∧ e.finished = false

instance (s : Sys) : Decidable s.Joining :=
  match h : s.engine with
  | none => isFalse (by rintro ⟨e, he, -⟩; simp [h] at he)
  | some e =>
    decidable_of_iff (e.closed = true ∧ e.finished = false) (by
      unfold Joining
      rw [h]
      simp)

/-- The engine's thread is at `loop`, with nothing left to push. -/
def Ready (s : Sys) (l : Loop) : Prop :=
  s.engine.any (fun e => e.loop = l ∧ e.outbox = []) = true

instance (s : Sys) (l : Loop) : Decidable (s.Ready l) :=
  inferInstanceAs (Decidable (_ = true))

def Enabled (s : Sys) : SysAct → Prop
  | .host (.deliver _) => False
  | .host a => s.host.Enabled a ∧ ¬ s.Joining
  | .check => s.Ready .head
  | .turn _ => s.Ready .body
  | .push => s.engine.any (fun e => e.outbox ≠ []) = true

instance (s : Sys) (a : SysAct) : Decidable (s.Enabled a) :=
  match a with
  | .host (.deliver _) => inferInstanceAs (Decidable False)
  | .host (.open u e) => inferInstanceAs (Decidable (s.host.Enabled (.open u e) ∧ ¬ s.Joining))
  | .host .close => inferInstanceAs (Decidable (s.host.Enabled .close ∧ ¬ s.Joining))
  | .host (.send b n) => inferInstanceAs (Decidable (s.host.Enabled (.send b n) ∧ ¬ s.Joining))
  | .host (.peekMessage b n) => inferInstanceAs (Decidable (s.host.Enabled (.peekMessage b n) ∧ ¬ s.Joining))
  | .host .pollSignal => inferInstanceAs (Decidable (s.host.Enabled .pollSignal ∧ ¬ s.Joining))
  | .host .poll => inferInstanceAs (Decidable (s.host.Enabled .poll ∧ ¬ s.Joining))
  | .host (.resume e) => inferInstanceAs (Decidable (s.host.Enabled (.resume e) ∧ ¬ s.Joining))
  | .check => inferInstanceAs (Decidable (s.Ready .head))
  | .turn _ => inferInstanceAs (Decidable (s.Ready .body))
  | .push => inferInstanceAs (Decidable (_ = true))

/-- Is there a place in the control ring? -/
def room (s : Sys) : Bool :=
  s.host.conn.controlRing.length < controlPlaces

def step (p : Policy) (q : Pressure) (s : Sys) : SysAct → Sys
  | .host a => ⟨s.host.step p a, settle s.host (s.host.step p a) s.engine⟩
  | .check => { s with engine := s.engine.map Engine.check }
  | .turn t => { s with engine := s.engine.map (Engine.turn q t) }
  | .push =>
    match s.engine.bind (·.outbox.head?) with
    | none => s
    | some ev => ⟨s.host.step p (.deliver ev), s.engine.map (Engine.pushed s.room)⟩

def Step (p : Policy) (q : Pressure) (s : Sys) (a : SysAct) (s' : Sys) : Prop :=
  s.Enabled a ∧ s.step p q a = s'

end Sys

end Wirekrak.Transport

import Mathlib.Algebra.Group.Nat.Defs
import Mathlib.Data.Int.Init
import Wirekrak.Lib.Fifo
import Wirekrak.Transport.Url

/-!
# Wirekrak.Transport.Connection — the connection state machine

The functions of `Connection`, under the names of the source.  What is outside a call is an argument of it: the
clock readings, the answers of `ws_->connect` and `ws_->send`, whether the message ring holds a message.

* `ws` is the owned transport; all the connection does to it is to create, connect, send, close and destroy.
* The control ring and the signal ring are bounded queues; one place of the source's capacity stays unused.
* `emit` calls `close` when the signal ring is full, and `close` runs `transition` on `CloseRequested`.  That column
  of `transition` emits nothing, so it stands first (`closeRequested`) and the recursion is unfolded.
* `log` and `faults` are histories that no function reads: every signal that `emit` pushed or lost, every `open`
  whose connect failed, and every use of the transport or the URL that the source's pointers do not allow.
-/

namespace Wirekrak.Transport

open Wirekrak.Lib

inductive State
  | connecting
  | connected
  | disconnecting
  | waitingReconnect
  | disconnected
  deriving DecidableEq, Repr

inductive Event
  | openRequested
  | closeRequested
  | transportConnected
  | transportConnectFailed
  | transportReconnectFailed
  | transportClosed
  | livenessOutdated
  | livenessExpired
  | retryTimerExpired
  deriving DecidableEq, Repr

inductive DisconnectReason
  | none
  | localClose
  | transportError
  | livenessTimeout
  deriving DecidableEq, Repr

inductive Signal
  | connected
  | disconnected
  | retryImmediate
  | retryScheduled
  | livenessThreatened
  | backpressureDetected
  | backpressureCleared
  deriving DecidableEq, Repr

/-- `websocket::Event`, what a transport puts into the control ring. -/
inductive Websocket.Event
  | close
  | error (e : Error)
  | backpressureDetected
  | backpressureCleared
  deriving DecidableEq, Repr

inductive RetryMode
  | never
  | retryableOnly
  | always
  deriving DecidableEq, Repr

/-- The retry and the liveness policy; durations are in milliseconds, `maxAttempts = 0` is no limit. -/
structure Policy where
  mode : RetryMode
  maxAttempts : ℕ
  maxExponent : ℕ
  fastBase : ℕ
  fastCap : ℕ
  normalBase : ℕ
  normalCap : ℕ
  slowBase : ℕ
  slowCap : ℕ
  livenessEnabled : Bool
  timeout : ℕ
  warningPercent : ℕ

/-- `retry::Exponential<>` with `liveness::Enabled<>`. -/
def defaultPolicy : Policy :=
  { mode := .retryableOnly, maxAttempts := 0, maxExponent := 6, fastBase := 50, fastCap := 1000, normalBase := 100,
    normalCap := 5000, slowBase := 250, slowCap := 10000, livenessEnabled := true, timeout := 15000,
    warningPercent := 80 }

/-- Places of the signal ring, `SIGNAL_RING_CAPACITY - 1`. -/
def signalPlaces : ℕ := 63

/-- Places of the control ring, `CONTROL_RING_CAPACITY - 1`. -/
def controlPlaces : ℕ := 255

/-- The transport as its owner sees it: has `ws_->close()` been called? -/
structure Ws where
  closed : Bool
  deriving DecidableEq, Repr

/-- An entry of the history. -/
inductive Mark
  | signal (s : Signal)
  | lost (s : Signal)
  | openFailed
  deriving DecidableEq, Repr

inductive Fault
  | absentTransport
  | replacedTransport
  | missingUrl
  deriving DecidableEq, Repr

structure Connection where
  lastUrl : List Char := []
  parsedUrl : Option ParsedUrl := none
  controlRing : List Websocket.Event := []
  ws : Option Ws := none
  epoch : ℕ := 0
  rxMessages : ℕ := 0
  txMessages : ℕ := 0
  lastMessageTs : ℕ := 0
  livenessWarningEmitted : Bool := false
  livenessTimeoutEmitted : Bool := false
  lastError : Error := .none
  retryRootError : Error := .none
  disconnectReason : DisconnectReason := .none
  state : State := .disconnected
  nextRetry : ℕ := 0
  retryAttempts : ℕ := 0
  signals : List Signal := []
  log : List Mark := []
  faults : List Fault := []
  deriving DecidableEq, Repr

/-! ## Retry policy -/

/-- Nanoseconds of a millisecond. -/
def ms : ℕ := 1000000

/-- `std::chrono::milliseconds::max()`. -/
def millisecondsMax : ℕ := 2 ^ 63 - 1

namespace Policy

variable (p : Policy)

def computeBackoff (base cap attempt : ℕ) : ℕ :=
  let attempt := if attempt > p.maxExponent then p.maxExponent else attempt
  let delay := base * 2 ^ attempt
  if delay > cap then cap else delay

def backoff (error : Error) (attempt : ℕ) : ℕ :=
  if p.mode = .never then millisecondsMax
  else
    let attempt := min attempt p.maxExponent
    match error with
    | .remoteClosed | .timeout | .backpressure => p.computeBackoff p.fastBase p.fastCap attempt
    | .connectionFailed | .handshakeFailed => p.computeBackoff p.normalBase p.normalCap attempt
    | .transportFailure => p.computeBackoff p.slowBase p.slowCap attempt
    | _ => millisecondsMax

def shouldRetry (error : Error) : Bool :=
  match p.mode with
  | .never => false
  | .always => true
  | .retryableOnly =>
    match error with
    | .connectionFailed | .handshakeFailed | .timeout | .remoteClosed | .transportFailure => true
    | _ => false

end Policy

namespace Connection

/-! ## The transport and its owner -/

/-- A use of `ws_`. -/
def useTransport (c : Connection) : Connection :=
  match c.ws with
  | some _ => c
  | none => { c with faults := c.faults ++ [.absentTransport] }

/-- `ws_->close()`. -/
def closeTransport (c : Connection) : Connection :=
  match c.ws with
  | some w => { c with ws := some { w with closed := true } }
  | none => { c with faults := c.faults ++ [.absentTransport] }

def createTransport (c : Connection) : Connection :=
  match c.ws with
  | none => { c with controlRing := [], ws := some ⟨false⟩ }
  | some _ => { c with controlRing := [], ws := some ⟨false⟩, faults := c.faults ++ [.replacedTransport] }

/-- `ws_->close(); ws_.reset();` when there is a transport. -/
def destroyTransportIfNeeded (c : Connection) : Connection :=
  { c with ws := none }

/-! ## Closing and emitting -/

/-- `transition_(Event::CloseRequested)`. -/
def closeRequested (c : Connection) : Connection :=
  match c.state with
  | .disconnected => c
  | .connecting => destroyTransportIfNeeded { c with state := .disconnected }
  | .connected => closeTransport { c with disconnectReason := .localClose, state := .disconnecting }
  | .disconnecting => c
  | .waitingReconnect => destroyTransportIfNeeded { c with state := .disconnected }

def close (c : Connection) : Connection :=
  if c.state = .disconnected then c
  else if c.state = .disconnecting then c
  else closeRequested c

/-- Push a signal; a full ring loses it and closes the connection. -/
def emit (sig : Signal) (c : Connection) : Connection :=
  match Fifo.push signalPlaces c.signals sig with
  | some signals => { c with signals := signals, log := c.log ++ [.signal sig] }
  | none => close { c with log := c.log ++ [.lost sig] }

def armImmediateReconnect (error : Error) (c : Connection) : Connection :=
  { emit .retryImmediate c with retryRootError := error, retryAttempts := 1, nextRetry := 0 }

def scheduleNextRetry (p : Policy) (now : ℕ) (c : Connection) : Connection :=
  if p.mode = .never then { c with state := .disconnected }
  else if 0 < p.maxAttempts ∧ p.maxAttempts ≤ c.retryAttempts then { c with state := .disconnected }
  else
    let c := emit .retryScheduled c
    let delay := p.backoff c.retryRootError c.retryAttempts
    { c with retryAttempts := c.retryAttempts + 1, nextRetry := now + delay * ms }

/-! ## The transition function -/

/-- What `TransportClosed` does in `Connected` and in `Disconnecting`: retry at once, or settle. -/
def resolveClosed (p : Policy) (c : Connection) : Connection :=
  if c.disconnectReason ≠ .localClose ∧ p.shouldRetry c.lastError = true then
    armImmediateReconnect c.lastError (destroyTransportIfNeeded { c with state := .waitingReconnect })
  else destroyTransportIfNeeded { c with state := .disconnected }

/-- `TransportConnected` in `Connecting`. -/
def enterConnected (p : Policy) (now : ℕ) (c : Connection) : Connection :=
  let c := emit .connected { c with state := .connected }
  { c with
    retryAttempts := 0
    retryRootError := .none
    lastMessageTs := now
    livenessWarningEmitted := if p.livenessEnabled then false else c.livenessWarningEmitted
    livenessTimeoutEmitted := if p.livenessEnabled then false else c.livenessTimeoutEmitted
    disconnectReason := .none
    epoch := c.epoch + 1 }

def transition (p : Policy) (now : ℕ) (event : Event) (error : Error) (c : Connection) : Connection :=
  match c.state, event with
  | .disconnected, .openRequested => { c with state := .connecting }
  | .connecting, .transportConnected => enterConnected p now c
  | .connecting, .transportConnectFailed =>
    if p.shouldRetry error then
      armImmediateReconnect error (destroyTransportIfNeeded { c with state := .waitingReconnect })
    else
      { destroyTransportIfNeeded { c with state := .disconnected } with disconnectReason := .transportError }
  | .connecting, .transportReconnectFailed =>
    let c := { c with disconnectReason := .transportError }
    if p.shouldRetry error then
      scheduleNextRetry p now (destroyTransportIfNeeded { c with state := .waitingReconnect })
    else destroyTransportIfNeeded { c with state := .disconnected }
  | .connecting, .transportClosed => destroyTransportIfNeeded { c with state := .disconnected }
  | .connected, .livenessOutdated => emit .livenessThreatened c
  | .connected, .livenessExpired =>
    closeTransport { c with lastError := error, disconnectReason := .livenessTimeout, state := .disconnecting }
  | .connected, .transportClosed => resolveClosed p c
  | .disconnecting, .transportClosed => resolveClosed p c
  | .waitingReconnect, .retryTimerExpired => { c with state := .connecting }
  | .waitingReconnect, .openRequested => { c with state := .connecting }
  | _, .closeRequested => closeRequested c
  | _, _ => c

/-! ## Transport events -/

def onTransportError (error : Error) (c : Connection) : Connection :=
  if c.disconnectReason = .livenessTimeout ∨ c.disconnectReason = .localClose then c
  else { c with lastError := error, disconnectReason := .transportError }

def onTransportClosed (p : Policy) (now : ℕ) (c : Connection) : Connection :=
  if c.state = .disconnected then c
  else if c.state = .connecting then c
  else
    let c := emit .disconnected c
    transition p now .transportClosed c.lastError c

/-- The switch over a popped control event. -/
def onEvent (p : Policy) (now : ℕ) (ev : Websocket.Event) (c : Connection) : Connection :=
  match ev with
  | .close => onTransportClosed p now c
  | .error e => onTransportError e c
  | .backpressureDetected => emit .backpressureDetected c
  | .backpressureCleared => emit .backpressureCleared c

/-! ## Liveness -/

/-- `liveness_remaining_`, in milliseconds. -/
def livenessRemaining (p : Policy) (now : ℕ) (c : Connection) : ℤ :=
  p.timeout - ((now : ℤ) - c.lastMessageTs).tdiv ms

def isLivenessStale (p : Policy) (now : ℕ) (c : Connection) : Bool :=
  (p.timeout * ms : ℕ) < (now : ℤ) - c.lastMessageTs

/-- `warning_remaining_threshold`. -/
def warningThreshold (p : Policy) : ℤ :=
  (p.timeout * (100 - p.warningPercent) / 100 : ℕ)

/-- The liveness warning check. -/
def warnLiveness (p : Policy) (now : ℕ) (c : Connection) : Connection :=
  if c.livenessWarningEmitted = false then
    if c.livenessRemaining p now ≤ warningThreshold p then
      transition p now .livenessOutdated .none { c with livenessWarningEmitted := true }
    else c
  else if warningThreshold p < c.livenessRemaining p now then { c with livenessWarningEmitted := false }
  else c

/-- The liveness timeout check. -/
def expireLiveness (p : Policy) (now : ℕ) (c : Connection) : Connection :=
  if c.livenessTimeoutEmitted = false ∧ c.isLivenessStale p now = true then
    transition p now .livenessExpired .timeout { c with livenessTimeoutEmitted := true }
  else c

/-- `now` is read for the warning, `now'` for the timeout. -/
def enforceLivenessPolicy (p : Policy) (now now' : ℕ) (c : Connection) : Connection :=
  if c.state = .connected then expireLiveness p now' (warnLiveness p now c) else c

end Connection

end Wirekrak.Transport

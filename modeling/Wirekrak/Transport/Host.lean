import Wirekrak.Lib.Run
import Wirekrak.Transport.Connection

/-!
# Wirekrak.Transport.Host — the calls of a connection, piece by piece

A transport puts events into the control ring while `open` or `poll` is running, so a call is cut where the ring or
the transport is looked at: `pc` says which piece of which call comes next.

* `open` runs to the answer of `ws_->connect`, then to its end;
* `poll` takes one control event at a time out of the ring, handles it, and, when the ring is empty, looks at the
  retry timer (a reconnect is again cut at the answer of `ws_->connect`) and at the liveness policy.

No piece reads the ring after it has called into the transport, so what a transport pushes while it is being closed
may as well be pushed right before or right after the piece.  `deliver` is one push by the transport; the ring drops
what does not fit.
-/

namespace Wirekrak.Transport

open Wirekrak.Lib

/-- Where the caller's thread stands. -/
inductive Pc
  | idle
  | opening (answer : Error)
  | draining
  | handling (ev : Websocket.Event)
  | reconnecting (answer : Error)
  | liveness
  deriving DecidableEq, Repr

/-- The answer of `ws_->connect` is waiting to be acted on. -/
def Pc.waits : Pc → Bool
  | .opening _ | .reconnecting _ => true
  | _ => false

/-- What a piece reads from outside: two clock readings and the answer of `ws_->connect`. -/
structure Env where
  now : ℕ
  now' : ℕ
  answer : Error
  deriving DecidableEq, Repr

inductive Act
  | open (url : List Char) (answer : Error)
  | close
  | send (accepted : Bool) (now : ℕ)
  | peekMessage (found : Bool) (now : ℕ)
  | pollSignal
  | poll
  | resume (env : Env)
  | deliver (ev : Websocket.Event)
  deriving DecidableEq, Repr

structure Host where
  conn : Connection := {}
  pc : Pc := .idle
  deriving DecidableEq, Repr

namespace Connection

/-- `open`, to the answer of `ws_->connect`. -/
def openBegin (p : Policy) (url : List Char) (answer : Error) (c : Connection) : Host :=
  if c.state ≠ .disconnected ∧ c.state ≠ .waitingReconnect then ⟨c, .idle⟩
  else
    match parseUrl url with
    | .error e => ⟨{ c with lastUrl := url, lastError := e }, .idle⟩
    | .ok u =>
      let c := { c with lastUrl := url, lastError := .none, parsedUrl := some u }
      let c := useTransport (createTransport (transition p 0 .openRequested .none c))
      ⟨{ c with lastError := answer }, .opening answer⟩

/-- `open`, from the answer of `ws_->connect` on. -/
def openEnd (p : Policy) (now : ℕ) (answer : Error) (c : Connection) : Connection :=
  if answer ≠ .none then transition p now .transportConnectFailed answer { c with log := c.log ++ [.openFailed] }
  else transition p now .transportConnected .none c

def send (accepted : Bool) (now : ℕ) (c : Connection) : Connection :=
  if c.state ≠ .connected then c
  else
    let c := useTransport c
    if accepted then { c with txMessages := c.txMessages + 1, lastMessageTs := now } else c

def peekMessage (found : Bool) (now : ℕ) (c : Connection) : Connection :=
  if found then { c with rxMessages := c.rxMessages + 1, lastMessageTs := now } else c

def pollSignal (c : Connection) : Connection :=
  { c with signals := c.signals.tail }

/-- `reconnect_`, to the answer of `ws_->connect`. -/
def reconnectBegin (p : Policy) (answer : Error) (c : Connection) : Connection :=
  let c :=
    match c.parsedUrl with
    | some _ => c
    | none => { c with faults := c.faults ++ [.missingUrl] }
  let c := useTransport (createTransport (transition p 0 .retryTimerExpired .none c))
  { c with lastError := answer }

/-- `reconnect_`, from the answer of `ws_->connect` on. -/
def reconnectEnd (p : Policy) (now : ℕ) (answer : Error) (c : Connection) : Connection :=
  if answer ≠ .none then transition p now .transportReconnectFailed answer c
  else transition p now .transportConnected .none c

/-- One push into the control ring. -/
def deliver (ev : Websocket.Event) (c : Connection) : Connection :=
  match Fifo.push controlPlaces c.controlRing ev with
  | some ring => { c with controlRing := ring }
  | none => c

theorem send_eq (accepted : Bool) (now : ℕ) (c : Connection) :
    ∃ tx ts fs, c.send accepted now = { c with txMessages := tx, lastMessageTs := ts, faults := fs } := by
  have hu : ∃ fs, c.useTransport = { c with faults := fs } := by
    unfold useTransport
    split <;> exact ⟨_, rfl⟩
  obtain ⟨fs, hu⟩ := hu
  unfold send
  split
  · exact ⟨_, _, _, rfl⟩
  · rw [hu]
    cases accepted <;> exact ⟨_, _, _, rfl⟩

theorem peekMessage_eq (found : Bool) (now : ℕ) (c : Connection) :
    ∃ rx ts, c.peekMessage found now = { c with rxMessages := rx, lastMessageTs := ts } := by
  cases found <;> exact ⟨_, _, rfl⟩

theorem deliver_room {c : Connection} (h : c.controlRing.length < controlPlaces) (ev : Websocket.Event) :
    c.deliver ev = { c with controlRing := c.controlRing ++ [ev] } := by
  unfold deliver
  rw [Fifo.push_some h]

theorem deliver_full {c : Connection} (h : controlPlaces ≤ c.controlRing.length) (ev : Websocket.Event) :
    c.deliver ev = c := by
  unfold deliver
  rw [Fifo.push_none h]

theorem deliver_eq (ev : Websocket.Event) (c : Connection) : ∃ ring, c.deliver ev = { c with controlRing := ring } := by
  by_cases h : c.controlRing.length < controlPlaces
  · exact ⟨_, deliver_room h ev⟩
  · exact ⟨_, deliver_full (by omega) ev⟩

end Connection

namespace Host

/-- The next piece of the call in progress. -/
def resume (p : Policy) (env : Env) (h : Host) : Host :=
  match h.pc with
  | .idle => h
  | .opening answer => ⟨h.conn.openEnd p env.now answer, .idle⟩
  | .draining =>
    match h.conn.controlRing with
    | ev :: ring => ⟨{ h.conn with controlRing := ring }, .handling ev⟩
    | [] =>
      if h.conn.state = .waitingReconnect ∧ h.conn.nextRetry ≤ env.now then
        ⟨h.conn.reconnectBegin p env.answer, .reconnecting env.answer⟩
      else ⟨h.conn, .liveness⟩
  | .handling ev => ⟨h.conn.onEvent p env.now ev, .draining⟩
  | .reconnecting answer => ⟨h.conn.reconnectEnd p env.now answer, .liveness⟩
  | .liveness => ⟨if p.livenessEnabled then h.conn.enforceLivenessPolicy p env.now env.now' else h.conn, .idle⟩

section Resume

variable {p : Policy} {e : Env} {h : Host}

theorem resume_opening {answer : Error} (hpc : h.pc = .opening answer) :
    h.resume p e = ⟨h.conn.openEnd p e.now answer, .idle⟩ := by
  unfold resume
  rw [hpc]

theorem resume_pop {ev : Websocket.Event} {ring : List Websocket.Event} (hpc : h.pc = .draining)
    (hr : h.conn.controlRing = ev :: ring) :
    h.resume p e = ⟨{ h.conn with controlRing := ring }, .handling ev⟩ := by
  unfold resume
  rw [hpc]
  simp only [hr]

theorem resume_reconnect (hpc : h.pc = .draining) (hr : h.conn.controlRing = [])
    (ht : h.conn.state = .waitingReconnect ∧ h.conn.nextRetry ≤ e.now) :
    h.resume p e = ⟨h.conn.reconnectBegin p e.answer, .reconnecting e.answer⟩ := by
  unfold resume
  rw [hpc]
  simp only [hr, if_pos ht]

theorem resume_drained (hpc : h.pc = .draining) (hr : h.conn.controlRing = [])
    (ht : ¬ (h.conn.state = .waitingReconnect ∧ h.conn.nextRetry ≤ e.now)) :
    h.resume p e = ⟨h.conn, .liveness⟩ := by
  unfold resume
  rw [hpc]
  simp only [hr, if_neg ht]

theorem resume_handling {ev : Websocket.Event} (hpc : h.pc = .handling ev) :
    h.resume p e = ⟨h.conn.onEvent p e.now ev, .draining⟩ := by
  unfold resume
  rw [hpc]

theorem resume_reconnecting {answer : Error} (hpc : h.pc = .reconnecting answer) :
    h.resume p e = ⟨h.conn.reconnectEnd p e.now answer, .liveness⟩ := by
  unfold resume
  rw [hpc]

theorem resume_liveness (hpc : h.pc = .liveness) :
    h.resume p e =
      ⟨if p.livenessEnabled then h.conn.enforceLivenessPolicy p e.now e.now' else h.conn, .idle⟩ := by
  unfold resume
  rw [hpc]

end Resume

/-- A call is made when the last one has returned; a transport pushes at any time. -/
def Enabled (h : Host) : Act → Prop
  | .deliver _ => True
  | .resume _ => h.pc ≠ .idle
  | _ => h.pc = .idle

instance (h : Host) (a : Act) : Decidable (h.Enabled a) :=
  match a with
  | .deliver _ => inferInstanceAs (Decidable True)
  | .resume _ => inferInstanceAs (Decidable (h.pc ≠ .idle))
  | .open .. | .close | .send .. | .peekMessage .. | .pollSignal | .poll => inferInstanceAs (Decidable (h.pc = .idle))

def step (p : Policy) (h : Host) : Act → Host
  | .open url answer => h.conn.openBegin p url answer
  | .close => { h with conn := h.conn.close }
  | .send accepted now => { h with conn := h.conn.send accepted now }
  | .peekMessage found now => { h with conn := h.conn.peekMessage found now }
  | .pollSignal => { h with conn := h.conn.pollSignal }
  | .poll => if h.conn.state = .disconnected then h else { h with pc := .draining }
  | .resume env => h.resume p env
  | .deliver ev => { h with conn := h.conn.deliver ev }

/-- The steps that can be taken. -/
def Step (p : Policy) (h : Host) (a : Act) (h' : Host) : Prop :=
  h.Enabled a ∧ h.step p a = h'

/-- The state a sequence of steps leads to from a new connection. -/
def after (p : Policy) (as : List Act) : Host :=
  as.foldl (step p) {}

theorem run_steps {p : Policy} {s : Host} {ok : Host → Act → Prop} (as : List Act)
    (h : Admitted (step p) (fun s a => s.Enabled a ∧ ok s a) s as) : Run (Step p) ok s as (as.foldl (step p) s) := by
  have hr : Run (Step p) (fun s a => s.Enabled a ∧ ok s a) s as (as.foldl (step p) s) :=
    Run.of_admitted (fun _ _ ha => ⟨ha.1, rfl⟩) h
  exact hr.mono fun _ _ ha => ha.2

end Host

end Wirekrak.Transport

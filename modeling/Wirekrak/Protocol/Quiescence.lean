import Wirekrak.Protocol.Paced
import Wirekrak.Transport.Backpressure
import Wirekrak.Transport.Poll

/-!
# Wirekrak.Protocol.Quiescence — the session over its connection, and when nothing is left to do

Session, scheduler and connection as one object, with the two rings that lie between them.  A transport may push while
a call runs: a control event that arrives during a poll is found by it or left for the next one, so it is pushed before
or after; a message may come in on a connection that the poll itself makes, and is then an argument of the poll
(`arrived`).

* `poll`: `Session::poll`, its parts in their order.
* `isQuiescent`: the source's predicate, a conjunction over three of the places where work can wait.
* `Settled`: the places it does not look at are empty, and nothing is due.
* `quiescent_sound`: a quiescent session that is settled has nothing queued and awaits nothing, and no number of polls
  at the same time changes it or sends anything.
-/

namespace Wirekrak.Protocol

open Wirekrak.Lib

/-- What the message handler makes of a message; `fits` says whether the user's ring had a place for it. -/
inductive Incoming (Sym : Type)
  | subscribeAck (ch : Channel) (id : ReqId) (sym : Sym) (success : Bool)
  | unsubscribeAck (ch : Channel) (id : ReqId) (sym : Sym) (success : Bool)
  | rejection (id : ReqId) (sym : Sym)
  | data (fits : Bool)
  | other

/-- The policies of both layers, and the constants of `poll`. -/
structure Setup (Sym P : Type) where
  link : Transport.Policy
  pol : Policy
  pace : Pace Sym P
  proactive : Bool
  zeroTolerance : Bool
  escalationThreshold : ℕ
  maxMessagesPerPoll : ℕ

/-- What a call meets outside: the clock, the answers of `ws_->connect` and `ws_->send`, the order of the replay
table, and the messages that arrive on the way. -/
structure Surroundings (Sym P : Type) where
  now : ℕ
  answer : Transport.Error := .none
  accept : Request Sym P → Bool := fun _ => true
  acceptPing : Bool := true
  acceptPaced : Bool := true
  order : Table.Order Sym P := id
  arrived : List (Incoming Sym) := []

/-- `inbox` is the message ring, `undrained` the number of messages in the user's rings. -/
structure Client (Sym P : Type) where
  conn : Transport.Connection := {}
  proto : Paced Sym P := .new
  overload : Transport.ConsecutiveStateCounter := {}
  inbox : List (Incoming Sym) := []
  undrained : ℕ := 0

def Manager.hasPendingRequests {Sym : Type} (m : Manager Sym) : Bool :=
  !m.pendingSubscriptions.isEmpty || !m.pendingUnsubscriptions.isEmpty

namespace Client

variable {Sym P : Type} (S : Setup Sym P)

/-! ## Session and connection -/

/-- The session, with what it asks its connection filled in. -/
def view (c : Client Sym P) : Paced Sym P :=
  { c.proto with core := { c.proto.core with connected := c.conn.state = .connected, epoch := c.conn.epoch } }

/-- How many messages the session has handed to the connection. -/
def handed (u : Paced Sym P) : ℕ :=
  match S.pol.mode with
  | .paced => u.wire.length
  | .immediate | .batch => u.core.emitted.length

/-- The session goes on to `u`; what it handed over has been sent. -/
def follow (now : ℕ) (c : Client Sym P) (u : Paced Sym P) : Client Sym P :=
  { c with proto := u, conn := (Transport.Connection.send true now)^[handed S u - handed S c.proto] c.conn }

variable [DecidableEq Sym]

/-! ## `poll` -/

/-- `connection_.poll()`; a transport that is created clears the message ring. -/
def pollConnection (e : Surroundings Sym P) (c : Client Sym P) : Client Sym P :=
  let d := Transport.Connection.drain S.link e.now c.conn.controlRing.length c.conn
  let creates := c.conn.state ≠ .disconnected ∧ d.state = .waitingReconnect ∧ d.nextRetry ≤ e.now
  { c with
    conn := c.conn.poll S.link e.now e.answer
    inbox := (if creates then [] else c.inbox) ++ e.arrived }

def handleConnectionSignal (e : Surroundings Sym P) (c : Client Sym P) (sig : Transport.Signal) : Client Sym P :=
  let c := { c with overload := Transport.handleConnectionSignal sig c.overload }
  match sig with
  | .connected =>
    match S.pol.mode with
    | .paced => follow S e.now c (c.view.handleConnectionSignal S.pol S.pace e.order .connected)
    | .immediate | .batch =>
      follow S e.now c
        { c.view with core := c.view.core.handleConnectionSignal S.pol e.accept e.order .connected }
  | .disconnected => { c with proto := { c.proto with core := c.proto.core.handleDisconnect } }
  | .livenessThreatened => if S.proactive then { c with conn := c.conn.send e.acceptPing e.now } else c
  | .retryImmediate | .retryScheduled | .backpressureDetected | .backpressureCleared => c

def pollSignals (e : Surroundings Sym P) (c : Client Sym P) : Client Sym P :=
  c.conn.signals.foldl (handleConnectionSignal S e) { c with conn := { c.conn with signals := [] } }

def onMessage (c : Client Sym P) : Incoming Sym → Client Sym P
  | .subscribeAck ch id sym success =>
    { c with proto := { c.proto with core := c.proto.core.step S.pol (.subscribeAck ch id sym success) } }
  | .unsubscribeAck ch id sym success =>
    { c with proto := { c.proto with core := c.proto.core.step S.pol (.unsubscribeAck ch id sym success) } }
  | .rejection id sym => { c with proto := { c.proto with core := c.proto.core.step S.pol (.rejection id sym) } }
  | .data fits => if fits then { c with undrained := c.undrained + 1 } else c
  | .other => c

/-- The loop over the message ring; a message that the user's ring does not take ends it. -/
def pollMessages (e : Surroundings Sym P) : ℕ → Client Sym P → Client Sym P
  | 0, c => c
  | n + 1, c =>
    match c.inbox with
    | [] => c
    | m :: rest =>
      let c := { c with inbox := rest, conn := c.conn.peekMessage true e.now }
      match m with
      | .data false => c
      | m => pollMessages e n (c.onMessage S m)

def pollScheduler (e : Surroundings Sym P) (c : Client Sym P) : Client Sym P :=
  match S.pol.mode with
  | .paced => follow S e.now c (c.view.pollPaced S.pace e.acceptPaced)
  | .immediate | .batch => c

def enforceBackpressurePolicy (c : Client Sym P) : Client Sym P :=
  let o := c.overload.nextFrame
  if o.active = true ∧ S.zeroTolerance = false ∧ S.escalationThreshold ≤ o.consecutive then
    { c with conn := c.conn.close, overload := o.reset }
  else { c with overload := o }

def poll (c : Client Sym P) (e : Surroundings Sym P) : Client Sym P :=
  enforceBackpressurePolicy S
    (pollScheduler S e (pollMessages S e S.maxMessagesPerPoll (pollSignals S e (pollConnection S e c))))

/-! ## Quiescence -/

omit [DecidableEq Sym] in
def isQuiescent (now : ℕ) (c : Client Sym P) : Bool :=
  c.conn.isIdle now && (!(c.proto.core.managers .trade).hasPendingRequests &&
    !(c.proto.core.managers .book).hasPendingRequests) && decide (c.undrained = 0)

omit [DecidableEq Sym] in
/-- Nothing waits where `is_quiescent` does not look: in the scheduler, in the two rings, on a retry armed to run at
once, on a liveness check that is due, or on the escalation of an overload. -/
structure Settled (now : ℕ) (c : Client Sym P) : Prop where
  queue : c.proto.queue = []
  control : c.conn.controlRing = []
  inbox : c.inbox = []
  retry : c.conn.state = .waitingReconnect → c.conn.nextRetry ≠ 0
  warning : S.link.livenessEnabled = true → c.conn.state = .connected → c.conn.livenessWarningEmitted = false →
    Transport.Connection.warningThreshold S.link < c.conn.livenessRemaining S.link now
  timeout : S.link.livenessEnabled = true → c.conn.state = .connected → c.conn.livenessTimeoutEmitted = false →
    c.conn.isLivenessStale S.link now = false
  overload : c.overload.active = true → S.zeroTolerance = true

end Client

/-! ## The system -/

/-- The user's calls, and the pushes of the transport. -/
inductive ClientEvent (Sym P : Type)
  | connect (url : List Char) (now : ℕ) (answer : Transport.Error)
  | close
  | subscribe (ch : Channel) (req : Request Sym P) (accept : Request Sym P → Bool) (now : ℕ)
  | unsubscribe (ch : Channel) (req : Request Sym P) (accept : Request Sym P → Bool) (now : ℕ)
  | send (accepted : Bool) (now : ℕ)
  | drainMessages
  | poll (e : Surroundings Sym P)
  | deliver (ev : Transport.Websocket.Event)
  | receive (m : Incoming Sym)

namespace Client

variable {Sym P : Type} [DecidableEq Sym] (S : Setup Sym P)

def connect (url : List Char) (now : ℕ) (answer : Transport.Error) (c : Client Sym P) : Client Sym P :=
  { c with
    conn := c.conn.openCall S.link url now answer
    inbox := if (c.conn.openBegin S.link url answer).pc.waits then [] else c.inbox }

def subscribe (ch : Channel) (req : Request Sym P) (accept : Request Sym P → Bool) (now : ℕ) (c : Client Sym P) :
    Client Sym P :=
  match S.pol.mode with
  | .paced => follow S now c (c.view.subscribe S.pol S.pace ch req).2
  | .immediate | .batch => follow S now c { c.view with core := (c.view.core.subscribe S.pol accept ch req).2 }

def unsubscribe (ch : Channel) (req : Request Sym P) (accept : Request Sym P → Bool) (now : ℕ) (c : Client Sym P) :
    Client Sym P :=
  match S.pol.mode with
  | .paced => follow S now c (c.view.unsubscribe S.pol S.pace ch req).2
  | .immediate | .batch => follow S now c { c.view with core := (c.view.core.unsubscribe S.pol accept ch req).2 }

def step (c : Client Sym P) : ClientEvent Sym P → Client Sym P
  | .connect url now answer => c.connect S url now answer
  | .close => { c with conn := c.conn.close }
  | .subscribe ch req accept now => c.subscribe S ch req accept now
  | .unsubscribe ch req accept now => c.unsubscribe S ch req accept now
  | .send accepted now => { c with conn := c.conn.send accepted now }
  | .drainMessages => { c with undrained := 0 }
  | .poll e => c.poll S e
  | .deliver ev => { c with conn := c.conn.deliver ev }
  | .receive m => { c with inbox := c.inbox ++ [m] }

/-- The session after a list of events. -/
def after (evs : List (ClientEvent Sym P)) : Client Sym P := evs.foldl (step S) {}

/-! ## A poll of a settled session -/

omit [DecidableEq Sym] in
/-- Nothing was sent, the link is the same, and so are the scheduler and the subscription stores. -/
structure Same (c d : Client Sym P) : Prop where
  state : d.conn.state = c.conn.state
  epoch : d.conn.epoch = c.conn.epoch
  sent : d.conn.txMessages = c.conn.txMessages
  wire : d.proto.wire = c.proto.wire
  emitted : d.proto.core.emitted = c.proto.core.emitted
  queue : d.proto.queue = c.proto.queue
  managers : d.proto.core.managers = c.proto.core.managers
  replayDb : d.proto.core.replayDb = c.proto.core.replayDb

variable {S} {c d u : Client Sym P} {now : ℕ} {e : Surroundings Sym P}

omit [DecidableEq Sym] in
theorem Same.refl (c : Client Sym P) : Same c c :=
  ⟨rfl, rfl, rfl, rfl, rfl, rfl, rfl, rfl⟩

omit [DecidableEq Sym] in
theorem Same.trans (h : Same c d) (h' : Same d u) : Same c u :=
  ⟨h'.state.trans h.state, h'.epoch.trans h.epoch, h'.sent.trans h.sent, h'.wire.trans h.wire,
    h'.emitted.trans h.emitted, h'.queue.trans h.queue, h'.managers.trans h.managers, h'.replayDb.trans h.replayDb⟩

omit [DecidableEq Sym] in
/-- Settled, with no signal waiting and no retry due. -/
structure Resting (S : Setup Sym P) (now : ℕ) (c : Client Sym P) : Prop where
  conn : c.conn.Unmoved S.link now
  queue : c.proto.queue = []
  inbox : c.inbox = []
  overload : c.overload.active = true → S.zeroTolerance = true

omit [DecidableEq Sym] in
/-- What `is_quiescent` sees and what it does not see, together. -/
theorem Settled.resting (hs : Settled S now c) (hq : c.conn.isIdle now = true) : Resting S now c := by
  obtain ⟨hsig, hretry⟩ := of_decide_eq_true hq
  refine ⟨⟨hs.control, hsig, ?_, hs.warning, hs.timeout⟩, hs.queue, hs.inbox, hs.overload⟩
  exact fun ht => hretry ⟨ht.1, hs.retry ht.1, ht.2⟩

omit [DecidableEq Sym] in
theorem pollConnection_resting (h : Resting S now c) (hnow : e.now = now) (ha : e.arrived = []) :
    Resting S now (pollConnection S e c) ∧ Same c (pollConnection S e c) ∧
      (pollConnection S e c).conn.signals = [] := by
  obtain ⟨⟨b, hb⟩, hun⟩ := Transport.Connection.poll_unmoved h.conn e.answer
  have hin : (pollConnection S e c).inbox = [] := by
    simp only [pollConnection, h.inbox, ha, ite_self, List.append_nil]
  refine ⟨⟨?_, h.queue, hin, h.overload⟩, ?_, ?_⟩
  · simp only [pollConnection, hnow]
    exact hun
  · constructor <;> simp only [pollConnection, hnow, hb]
  · simp only [pollConnection, hnow]
    exact hun.signals

omit [DecidableEq Sym] in
theorem pollScheduler_resting (h : Resting S now c) :
    Resting S now (pollScheduler S e c) ∧ Same c (pollScheduler S e c) := by
  unfold pollScheduler
  split
  · next hmode =>
    have hpaced : c.view.pollPaced S.pace e.acceptPaced =
        { c.view with pollCounter := c.proto.pollCounter + 1 } := by
      have hq : c.view.queue = [] := h.queue
      unfold Paced.pollPaced
      split
      · rfl
      · next heq => rw [hq] at heq; cases heq
    have hzero : handed S { c.view with pollCounter := c.proto.pollCounter + 1 } - handed S c.proto = 0 := by
      simp only [handed, hmode]
      exact Nat.sub_self _
    rw [hpaced]
    unfold follow
    rw [hzero]
    exact ⟨⟨h.conn, h.queue, h.inbox, h.overload⟩, rfl, rfl, rfl, rfl, rfl, rfl, rfl, rfl⟩
  · exact ⟨h, .refl c⟩
  · exact ⟨h, .refl c⟩

omit [DecidableEq Sym] in
theorem enforce_resting (h : Resting S now c) :
    Resting S now (enforceBackpressurePolicy S c) ∧ Same c (enforceBackpressurePolicy S c) := by
  have hno : ¬ (c.overload.nextFrame.active = true ∧ S.zeroTolerance = false ∧
      S.escalationThreshold ≤ c.overload.nextFrame.consecutive) := by
    rintro ⟨ha, hz, -⟩
    exact absurd ((h.overload ha).symm.trans hz) (by decide)
  unfold enforceBackpressurePolicy
  simp only [if_neg hno]
  exact ⟨⟨h.conn, h.queue, h.inbox, h.overload⟩, rfl, rfl, rfl, rfl, rfl, rfl, rfl, rfl⟩

/-- **A poll at the same time leaves a resting session as it is**, and resting. -/
theorem poll_resting (h : Resting S now c) (hnow : e.now = now) (ha : e.arrived = []) :
    Resting S now (c.poll S e) ∧ Same c (c.poll S e) := by
  obtain ⟨h1, hsame1, hsig⟩ := pollConnection_resting h hnow ha
  unfold poll
  generalize pollConnection S e c = c1 at h1 hsame1 hsig
  have hsignals : pollSignals S e c1 = c1 := by
    unfold pollSignals
    rw [hsig, List.foldl_nil, ← hsig]
  have hmessages : ∀ n, pollMessages S e n c1 = c1 := by
    intro n
    cases n with
    | zero => rfl
    | succ n =>
      unfold pollMessages
      rw [h1.inbox]
  rw [hsignals, hmessages]
  obtain ⟨h2, hsame2⟩ := pollScheduler_resting (e := e) h1
  obtain ⟨h3, hsame3⟩ := enforce_resting h2
  exact ⟨h3, (hsame1.trans hsame2).trans hsame3⟩

theorem polls_resting (h : Resting S now c) : ∀ {es : List (Surroundings Sym P)},
    (∀ e ∈ es, e.now = now ∧ e.arrived = []) → Same c (es.foldl (poll S) c) := by
  intro es
  induction es generalizing c with
  | nil => exact fun _ => .refl c
  | cons e es ih =>
    intro hes
    obtain ⟨hnow, ha⟩ := hes e List.mem_cons_self
    obtain ⟨h1, hsame⟩ := poll_resting h hnow ha
    exact hsame.trans (ih h1 fun x hx => hes x (List.mem_cons_of_mem _ hx))

omit [DecidableEq Sym] in
theorem not_owns_of_isEmpty {r : PendingRequests Sym} (h : r.isEmpty = true) (id : ReqId) (x : Sym) : ¬ r.Owns id x := by
  rintro ⟨vec, hl, -⟩
  have hent : r.requests.entries = [] := List.isEmpty_iff.mp h
  have hkey : id ∈ r.requests := AList.lookup_isSome.mp (by rw [hl]; rfl)
  rw [AList.mem_keys, AList.keys, hent] at hkey
  exact absurd hkey List.not_mem_nil

omit [DecidableEq Sym] in
theorem awaits_nothing (h : c.isQuiescent now = true) (ch : Channel) (id : ReqId) (x : Sym) :
    ¬ (c.proto.core.managers ch).pendingSubscriptions.Owns id x ∧
    ¬ (c.proto.core.managers ch).pendingUnsubscriptions.Owns id x := by
  have hpend : (c.proto.core.managers ch).hasPendingRequests = false := by
    simp only [isQuiescent, Bool.and_eq_true, Bool.not_eq_true'] at h
    cases ch with
    | trade => exact h.1.2.1
    | book => exact h.1.2.2
  simp only [Manager.hasPendingRequests, Bool.or_eq_false_iff, Bool.not_eq_false'] at hpend
  exact ⟨not_owns_of_isEmpty hpend.1 id x, not_owns_of_isEmpty hpend.2 id x⟩

/-- **Quiescence is sound for settled sessions**: after any history, a session that says it is quiescent and is settled
has no request queued and awaits no ACK, and whatever number of polls at the same time, with no new event, sends
nothing and leaves connection, scheduler and subscription stores as they are. -/
theorem quiescent_sound (S : Setup Sym P) (evs : List (ClientEvent Sym P)) (now : ℕ)
    (hq : (after S evs).isQuiescent now = true) (hs : (after S evs).Settled S now) :
    (after S evs).proto.queue = [] ∧
    (∀ ch id x, ¬ ((after S evs).proto.core.managers ch).pendingSubscriptions.Owns id x ∧
      ¬ ((after S evs).proto.core.managers ch).pendingUnsubscriptions.Owns id x) ∧
    ∀ es : List (Surroundings Sym P), (∀ e ∈ es, e.now = now ∧ e.arrived = []) →
      Same (after S evs) (es.foldl (poll S) (after S evs)) := by
  have hidle : (after S evs).conn.isIdle now = true := by
    simp only [isQuiescent, Bool.and_eq_true] at hq
    exact hq.1.1
  exact ⟨hs.queue, awaits_nothing hq, fun _ => polls_resting (hs.resting hidle)⟩

/-! ## Two histories -/

/-- Default transport, two symbols a paced batch and a batch each poll. -/
def pacedPairs : Setup ℕ Unit :=
  { link := Transport.defaultPolicy, pol := Paced.pairs, pace := Paced.eachPoll, proactive := true,
    zeroTolerance := false, escalationThreshold := 8, maxMessagesPerPoll := 64 }

/-- Connected, and polled once. -/
def up : List (ClientEvent ℕ Unit) :=
  [.connect "ws://a".toList 1 .none, .poll { now := 2 }]

theorem settled_up : (after pacedPairs up).Settled pacedPairs 3 :=
  ⟨by decide, by decide, rfl, by decide, by decide, by decide, by decide⟩

theorem quiescent_sound_up :
    Same (after pacedPairs up) ([{ now := 3 }, { now := 3 }].foldl (poll pacedPairs) (after pacedPairs up)) :=
  (quiescent_sound pacedPairs up 3 (by decide) settled_up).2.2 _ (by simp)

/-- The user cancels a symbol that is not subscribed: the request is accepted, and waits in the scheduler. -/
def cancelled : List (ClientEvent ℕ Unit) :=
  up ++ [.unsubscribe .trade (.single 7) (fun _ => true) 3]

/-- The session says that it is quiescent; the request is still queued, and the next poll sends it. -/
theorem quiescent_with_queued_request :
    (after pacedPairs cancelled).isQuiescent 3 = true ∧
    (after pacedPairs cancelled).proto.queue.map (fun m => m.request.symbols) = [[7]] ∧
    (after pacedPairs cancelled).conn.txMessages = 0 ∧
    ((after pacedPairs cancelled).poll pacedPairs { now := 3 }).conn.txMessages = 1 := by
  decide

end Client

end Wirekrak.Protocol

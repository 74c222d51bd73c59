import Wirekrak.Lib.Run
import Wirekrak.Protocol.Session

/-!
# Wirekrak.Protocol.Paced — paced emission: the request scheduler between the session and the connection

In paced mode `emit_request_` puts the batches of a request into the scheduler's ring; each `poll` counts, and every
`emit_interval` polls it takes the oldest batch and hands it to the connection.

* `Paced`: the session, the scheduler, and what went on the wire, each batch with the epoch it went out in.  The
  session's log `emitted` is here the log of the enqueued batches, each with the epoch it was enqueued in.
* `pollPaced`: the tail of `poll`; the batch is released whether or not the connection took it.
* `sentOnce_iff_admitted`: every enqueued batch is sent once, in order and on its own connection, exactly when the
  connection takes each batch that is due and no batch is due after a reconnect.
-/

namespace Wirekrak.Protocol

open Wirekrak.Lib

/-- The scheduler's constants: `emit_interval`, `QueueCapacity`, and whether a batch fits the slot's buffer. -/
structure Pace (Sym P : Type) where
  emitInterval : ℕ
  queueCapacity : ℕ
  fits : Request Sym P → Bool

structure Paced (Sym P : Type) where
  core : Session Sym P
  queue : List (Message Sym P) := []
  pollCounter : ℕ := 0
  wire : List (ℕ × Message Sym P) := []
  /-- A batch has been written past the end of its slot. -/
  overrun : Bool := false

namespace Paced

variable {Sym P : Type} (pol : Policy) (pace : Pace Sym P)

def new : Paced Sym P := { core := .new }

/-! ## Enqueueing -/

/-- The ring keeps one slot free; a batch is written into its slot before its length is known to fit. -/
def enqueue (p : Paced Sym P) (m : Message Sym P) : Bool × Paced Sym P :=
  if p.queue.length + 1 < pace.queueCapacity then
    if pace.fits m.request = true then
      (true, { p with queue := p.queue ++ [m], core := { p.core with emitted := p.core.emitted ++ [m] } })
    else (false, { p with overrun := true })
  else (false, p)

/-- The batches of a request, up to the first that is refused. -/
def enqueueAll : List (Message Sym P) → Paced Sym P → Bool × Paced Sym P
  | [], p => (true, p)
  | m :: ms, p => if (p.enqueue pace m).1 then enqueueAll ms (p.enqueue pace m).2 else (false, (p.enqueue pace m).2)

def emitRequest (p : Paced Sym P) (kind : Kind) (ch : Channel) (req : Request Sym P) : Bool × Paced Sym P :=
  let batches := (Session.batches pol.batchSize req.symbols.length req.symbols).map fun b => { req with symbols := b }
  p.enqueueAll pace (batches.map fun m => ⟨p.core.epoch, kind, ch, m⟩)

variable [DecidableEq Sym]

/-- `Session.place` with the emission replaced: it is called with nothing accepted. -/
def place (p : Paced Sym P) (ch : Channel) (req : Request Sym P) (id : ReqId) : Option Bool × Paced Sym P :=
  let accepted := ((p.core.managers ch).registerSubscription req.symbols id).1
  let p1 := { p with core := (p.core.place pol (fun _ => false) ch req id).2 }
  if accepted = [] then (none, p1)
  else
    let e := p1.emitRequest pol pace .subscribe ch { req with symbols := accepted, reqId := some id }
    (some e.1, e.2)

def subscribe (p : Paced Sym P) (ch : Channel) (req : Request Sym P) : ReqId × Paced Sym P :=
  if pol.hardLimit && !(p.core.hardSymbolLimitEnforcement pol ch req) then (invalidReqId, p)
  else
    let r := place pol pace { p with core := p.core.assignReqId req } ch req (p.core.requestId req)
    (if r.1 = some true then p.core.requestId req else invalidReqId, r.2)

def unsubscribe (p : Paced Sym P) (ch : Channel) (req : Request Sym P) : ReqId × Paced Sym P :=
  let id := p.core.requestId req
  let e := emitRequest pol pace { p with core := p.core.assignReqId req } .unsubscribe ch { req with reqId := some id }
  if e.1 then
    let r := (e.2.core.managers ch).registerUnsubscription req.symbols id
    let s1 := { e.2.core with managers := Function.update e.2.core.managers ch r.2 }
    (id, { e.2 with core := if pol.replay then { s1 with
      replayDb := Function.update s1.replayDb ch (r.1.foldl Table.eraseSymbol (s1.replayDb ch)) } else s1 })
  else (invalidReqId, e.2)

/-! ## Connection signals -/

def reSubscribe (ch : Channel) (p : Paced Sym P) (req : Request Sym P) : Paced Sym P :=
  (p.place pol pace ch req (req.reqId.getD invalidReqId)).2

def replayChannel (order : Table.Order Sym P) (p : Paced Sym P) (ch : Channel) : Paced Sym P :=
  let r := (p.core.replayDb ch).takeSubscriptions order
  r.1.foldl (reSubscribe pol pace ch)
    { p with core := { p.core with replayDb := Function.update p.core.replayDb ch r.2 } }

def doReplay (order : Table.Order Sym P) (p : Paced Sym P) : Paced Sym P :=
  if 1 < p.core.epoch then [Channel.trade, Channel.book].foldl (replayChannel pol pace order) p else p

/-- The scheduler is not among what `handle_disconnect_` clears. -/
def handleConnectionSignal (order : Table.Order Sym P) (p : Paced Sym P) : Signal → Paced Sym P
  | .connected => if pol.replay then p.doReplay pol pace order else p
  | .disconnected => { p with core := p.core.handleDisconnect }

def pollSignal (order : Table.Order Sym P) (p : Paced Sym P) : Paced Sym P :=
  match p.core.signals with
  | [] => p
  | sig :: rest => handleConnectionSignal pol pace order { p with core := { p.core with signals := rest } } sig

/-! ## Emission -/

omit [DecidableEq Sym] in
/-- The paced part of `poll`; `Connection::send` refuses while not connected. -/
def pollPaced (p : Paced Sym P) (accept : Bool) : Paced Sym P :=
  match p.queue with
  | [] => { p with pollCounter := p.pollCounter + 1 }
  | m :: rest =>
    if p.pollCounter + 1 < pace.emitInterval then { p with pollCounter := p.pollCounter + 1 }
    else
      { p with
        pollCounter := 0
        queue := rest
        wire := if p.core.connected && accept then p.wire ++ [(p.core.epoch, m)] else p.wire }

end Paced

/-- What can happen to a paced session. -/
inductive PacedEvent (Sym P : Type)
  | subscribe (ch : Channel) (req : Request Sym P)
  | unsubscribe (ch : Channel) (req : Request Sym P)
  | subscribeAck (ch : Channel) (id : ReqId) (sym : Sym) (success : Bool)
  | unsubscribeAck (ch : Channel) (id : ReqId) (sym : Sym) (success : Bool)
  | rejection (id : ReqId) (sym : Sym)
  | transportConnected
  | transportClosing
  | transportClosed
  | pollSignal (order : Table.Order Sym P)
  | pollPaced (accept : Bool)

namespace Paced

variable {Sym P : Type} [DecidableEq Sym] (pol : Policy) (pace : Pace Sym P)

def step (p : Paced Sym P) : PacedEvent Sym P → Paced Sym P
  | .subscribe ch req => (p.subscribe pol pace ch req).2
  | .unsubscribe ch req => (p.unsubscribe pol pace ch req).2
  | .subscribeAck ch id sym success => { p with core := p.core.step pol (.subscribeAck ch id sym success) }
  | .unsubscribeAck ch id sym success => { p with core := p.core.step pol (.unsubscribeAck ch id sym success) }
  | .rejection id sym => { p with core := p.core.step pol (.rejection id sym) }
  | .transportConnected => { p with core := p.core.step pol .transportConnected }
  | .transportClosing => { p with core := p.core.step pol .transportClosing }
  | .transportClosed => { p with core := p.core.step pol .transportClosed }
  | .pollSignal order => p.pollSignal pol pace order
  | .pollPaced accept => p.pollPaced pace accept

/-- The paced session after a list of events. -/
def after (evs : List (PacedEvent Sym P)) : Paced Sym P := evs.foldl (step pol pace) new

omit [DecidableEq Sym] in
/-- The enqueued batches are those on the wire and those in the queue, in order, and each of the former went out in the
epoch it was enqueued in. -/
structure SentOnce (p : Paced Sym P) : Prop where
  order : p.core.emitted = p.wire.map Prod.snd ++ p.queue
  epochs : ∀ x ∈ p.wire, x.1 = x.2.epoch

omit [DecidableEq Sym] in
/-- A batch that is due is taken by the connection, which is still the one of its epoch. -/
def OnTime (p : Paced Sym P) : PacedEvent Sym P → Prop
  | .pollPaced accept => ∀ m, p.queue.head? = some m → pace.emitInterval ≤ p.pollCounter + 1 →
      (p.core.connected && accept) = true ∧ m.epoch = p.core.epoch
  | _ => True

/-! ## Enqueueing events -/

omit [DecidableEq Sym] in
/-- Batches were enqueued, nothing was sent. -/
def Adds (p u : Paced Sym P) : Prop :=
  ∃ ms, u.core.emitted = p.core.emitted ++ ms ∧ u.queue = p.queue ++ ms ∧ u.wire = p.wire

variable {pol pace} {p u v : Paced Sym P}

omit [DecidableEq Sym] in
theorem Adds.of_eq (h1 : u.core.emitted = p.core.emitted) (h2 : u.queue = p.queue) (h3 : u.wire = p.wire) : Adds p u :=
  ⟨[], by rw [h1, List.append_nil], by rw [h2, List.append_nil], h3⟩

omit [DecidableEq Sym] in
theorem Adds.trans (h : Adds p u) (h' : Adds u v) : Adds p v := by
  obtain ⟨ms, h1, h2, h3⟩ := h
  obtain ⟨ms', h1', h2', h3'⟩ := h'
  exact ⟨ms ++ ms', by rw [h1', h1, List.append_assoc], by rw [h2', h2, List.append_assoc], h3'.trans h3⟩

omit [DecidableEq Sym] in
theorem adds_enqueue (p : Paced Sym P) (m : Message Sym P) : Adds p (p.enqueue pace m).2 := by
  unfold enqueue
  split_ifs
  · exact ⟨[m], rfl, rfl, rfl⟩
  · exact .of_eq rfl rfl rfl
  · exact .of_eq rfl rfl rfl

omit [DecidableEq Sym] in
theorem adds_enqueueAll (pace : Pace Sym P) (ms : List (Message Sym P)) :
    ∀ p : Paced Sym P, Adds p (p.enqueueAll pace ms).2 := by
  induction ms with
  | nil => intro p; exact .of_eq rfl rfl rfl
  | cons m ms ih =>
    intro p
    unfold enqueueAll
    split_ifs
    · exact (adds_enqueue p m).trans (ih _)
    · exact adds_enqueue p m

/-- Registering alone emits nothing. -/
theorem place_refused (s : Session Sym P) (ch : Channel) (req : Request Sym P) (id : ReqId) :
    (s.place pol (fun _ => false) ch req id).2.emitted = s.emitted := by
  have hnone : ∀ (t : Session Sym P) (k : Kind) (r : Request Sym P),
      (t.emitRequest pol (fun _ => false) k ch r).2.emitted = t.emitted := by
    intro t k r
    have htakes : ∀ m, t.takes pol (fun _ => false) m = false := by
      intro m
      unfold Session.takes
      split <;> simp
    unfold Session.emitRequest
    cases Session.messages pol r with
    | nil => simp [Session.sendAll]
    | cons m ms => simp [Session.sendAll, htakes]
  unfold Session.place
  dsimp only
  split_ifs
  · rfl
  · exact hnone _ _ _
  · exact hnone _ _ _

theorem adds_place (p : Paced Sym P) (ch : Channel) (req : Request Sym P) (id : ReqId) :
    Adds p (p.place pol pace ch req id).2 := by
  have h1 : Adds p { p with core := (p.core.place pol (fun _ => false) ch req id).2 } :=
    .of_eq (place_refused _ _ _ _) rfl rfl
  unfold place
  dsimp only
  split_ifs
  · exact h1
  · exact h1.trans (adds_enqueueAll _ _ _)

omit [DecidableEq Sym] in
theorem adds_foldl {α : Type} {f : Paced Sym P → α → Paced Sym P} (hf : ∀ p a, Adds p (f p a)) (as : List α) :
    ∀ p, Adds p (as.foldl f p) := by
  induction as with
  | nil => intro p; exact .of_eq rfl rfl rfl
  | cons a as ih => intro p; exact (hf p a).trans (ih _)

theorem adds_replayChannel (order : Table.Order Sym P) (p : Paced Sym P) (ch : Channel) :
    Adds p (p.replayChannel pol pace order ch) := by
  have h0 : Adds p { p with core := { p.core with
      replayDb := Function.update p.core.replayDb ch ((p.core.replayDb ch).takeSubscriptions order).2 } } :=
    .of_eq rfl rfl rfl
  exact h0.trans (adds_foldl (fun q r => adds_place q ch r _) _ _)

theorem adds_pollSignal (order : Table.Order Sym P) (p : Paced Sym P) : Adds p (p.pollSignal pol pace order) := by
  unfold pollSignal
  cases p.core.signals with
  | nil => exact .of_eq rfl rfl rfl
  | cons sig rest =>
    have h0 : Adds p { p with core := { p.core with signals := rest } } := .of_eq rfl rfl rfl
    cases sig with
    | disconnected => exact h0.trans (.of_eq rfl rfl rfl)
    | connected =>
      simp only [handleConnectionSignal, doReplay]
      split_ifs
      · exact h0.trans (adds_foldl (fun q ch => adds_replayChannel order q ch) _ _)
      · exact h0
      · exact h0

/-- Every event but the paced part of `poll` only enqueues. -/
theorem adds_step (p : Paced Sym P) {ev : PacedEvent Sym P} (hev : ∀ accept, ev ≠ .pollPaced accept) :
    Adds p (p.step pol pace ev) := by
  have hassign : ∀ req, Adds p { p with core := p.core.assignReqId req } :=
    fun req => .of_eq (Session.assignReqId_emitted _ _) rfl rfl
  cases ev with
  | pollPaced accept => exact absurd rfl (hev accept)
  | subscribe ch req =>
    simp only [step, subscribe]
    split_ifs
    · exact .of_eq rfl rfl rfl
    · exact (hassign req).trans (adds_place _ _ _ _)
    · exact (hassign req).trans (adds_place _ _ _ _)
  | unsubscribe ch req =>
    have h1 := (hassign req).trans (adds_enqueueAll pace
      (((Session.batches pol.batchSize req.symbols.length req.symbols).map fun b =>
        ({ req with reqId := some (p.core.requestId req), symbols := b } : Request Sym P)).map fun m =>
          ⟨(p.core.assignReqId req).epoch, .unsubscribe, ch, m⟩) _)
    simp only [step, unsubscribe]
    split_ifs
    · exact h1.trans (.of_eq rfl rfl rfl)
    · exact h1.trans (.of_eq rfl rfl rfl)
    · exact h1
  | subscribeAck ch id x success => exact .of_eq rfl rfl rfl
  | unsubscribeAck ch id x success =>
    refine .of_eq ?_ rfl rfl
    simp only [step, Session.step, Session.onUnsubscribeAck]
    split_ifs <;> rfl
  | rejection id x => exact .of_eq rfl rfl rfl
  | transportConnected => exact .of_eq rfl rfl rfl
  | transportClosing => exact .of_eq rfl rfl rfl
  | transportClosed => exact .of_eq rfl rfl rfl
  | pollSignal order => exact adds_pollSignal order p

omit [DecidableEq Sym] in
theorem SentOnce.adds (h : SentOnce p) (ha : Adds p u) : SentOnce u := by
  obtain ⟨ms, h1, h2, h3⟩ := ha
  refine ⟨?_, ?_⟩
  · rw [h1, h2, h3, h.order, List.append_assoc]
  · rw [h3]
    exact h.epochs

/-! ## The paced part of `poll` -/

omit [DecidableEq Sym] in
theorem sentOnce_pollPaced_iff (h : SentOnce p) (accept : Bool) :
    SentOnce (p.pollPaced pace accept) ↔ p.OnTime pace (.pollPaced accept) := by
  have horder := h.order
  unfold pollPaced OnTime
  cases hq : p.queue with
  | nil => exact iff_of_true ⟨by simpa only [hq] using horder, h.epochs⟩ fun m hm => by cases hm
  | cons m rest =>
    simp only [List.head?_cons, Option.some.injEq, forall_eq']
    by_cases hdue : p.pollCounter + 1 < pace.emitInterval
    · rw [if_pos hdue]
      exact iff_of_true ⟨by simpa only [hq] using horder, h.epochs⟩ fun hle => by omega
    · rw [if_neg hdue]
      rw [hq] at horder
      by_cases hsend : (p.core.connected && accept) = true
      · simp only [hsend, if_true, true_and]
        constructor
        · intro h' _
          exact (h'.epochs (p.core.epoch, m) (by simp)).symm
        · intro he
          refine ⟨by simpa using horder, fun x hx => ?_⟩
          rcases List.mem_append.mp hx with hx | hx
          · exact h.epochs x hx
          · rw [List.mem_singleton.mp hx]
            exact (he (by omega)).symm
      · -- the batch is released all the same
        simp only [hsend, if_false, Bool.false_eq_true, false_and]
        refine iff_of_false (fun h' => ?_) fun hc => hc (by omega)
        have hlen := congrArg List.length (horder.symm.trans h'.order)
        simp at hlen

theorem sentOnce_step_iff (h : SentOnce p) (ev : PacedEvent Sym P) :
    SentOnce (p.step pol pace ev) ↔ p.OnTime pace ev := by
  cases ev with
  | pollPaced accept => exact sentOnce_pollPaced_iff h accept
  | subscribe | unsubscribe | subscribeAck | unsubscribeAck | rejection | transportConnected | transportClosing |
    transportClosed | pollSignal => exact iff_of_true (h.adds (adds_step p nofun)) trivial

/-- Batches are sent once, in order and on their own connection, throughout a run exactly when every batch that is due
is on time. -/
theorem sentOnce_iff_admitted (pol : Policy) (pace : Pace Sym P) (evs : List (PacedEvent Sym P)) :
    (∀ bs, bs <+: evs → SentOnce (after pol pace bs)) ↔ Admitted (step pol pace) (OnTime pace) new evs :=
  forall_prefix_iff_admitted ⟨rfl, fun _ h => by cases h⟩ fun _ ev _ _ h => sentOnce_step_iff h ev

/-- Two symbols a batch, one batch each poll. -/
def pairs : Policy := { defaultPolicy with mode := .paced, batchSize := 2, batchSize_pos := Nat.zero_lt_two }

def eachPoll : Pace ℕ Unit := ⟨1, 256, fun _ => true⟩

/-- The connection is lost while two batches are queued; the next one is up before the next poll. -/
def reconnected : List (PacedEvent ℕ Unit) :=
  [.transportConnected, .pollSignal id, .subscribe .trade ⟨[1, 2, 3], none, ()⟩, .transportClosed, .transportConnected,
   .pollSignal id, .pollSignal id, .pollPaced true, .pollPaced true, .pollPaced true]

/-- The batches of the lost connection go out on the new one, and so does the replay of their symbols. -/
theorem stale_batch_is_sent : ¬ (∀ bs, bs <+: reconnected → SentOnce (after pairs eachPoll bs)) ∧
    (after pairs eachPoll reconnected).wire.map (fun x => (x.1, x.2.epoch, x.2.request.symbols)) =
      [(2, 1, [1, 2]), (2, 1, [3]), (2, 2, [1, 2])] := by
  refine ⟨fun h => ?_, by decide⟩
  have h1 := (h reconnected List.prefix_rfl).epochs
  exact absurd h1 (by decide)

end Paced

end Wirekrak.Protocol

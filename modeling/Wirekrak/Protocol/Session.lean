import Wirekrak.Protocol.Table

/-!
# Wirekrak.Protocol.Session — the session: controller, replay database, emission, connection signals

One manager and one replay table for each channel of the Kraken model (trade, book).  What lies below the session is
seen through

* `accept`, the answer of `ws_->send` (or of the request scheduler's `enqueue`) to one message;
* the transport events: the connection comes up (`Connected` is queued, the epoch grows), is being closed, is closed
  (`Disconnected` is queued);
* `order`, the iteration order of the replay table's `unordered_map`.

`emitted` is the log of the messages handed over, each with the epoch it was handed over in: to the connection, or, for
a paced policy, to the request scheduler, which sends them later (`Paced` models that part).  `poll` drains the
signal queue; here every signal is a step of its own, so user calls may also come between two of them.
-/

namespace Wirekrak.Protocol

/-- The subscription types of the protocol model, in the order of its type list. -/
inductive Channel
  | trade
  | book
  deriving DecidableEq

inductive Kind
  | subscribe
  | unsubscribe
  deriving DecidableEq

/-- The connection signals the session acts on. -/
inductive Signal
  | connected
  | disconnected
  deriving DecidableEq

inductive BatchingMode
  | immediate
  | batch
  | paced
  deriving DecidableEq

/-- The policy bundle, as far as the subscription path reads it; a limit of `0` is no limit. -/
structure Policy where
  replay : Bool
  mode : BatchingMode
  batchSize : ℕ
  batchSize_pos : 0 < batchSize
  hardLimit : Bool
  maxPerChannel : ℕ
  maxGlobal : ℕ

structure Message (Sym P : Type) where
  epoch : ℕ
  kind : Kind
  channel : Channel
  request : Request Sym P
  deriving DecidableEq

structure Session (Sym P : Type) where
  managers : Channel → Manager Sym
  replayDb : Channel → Table Sym P
  reqIdSeq : ReqId
  connected : Bool
  epoch : ℕ
  signals : List Signal
  emitted : List (Message Sym P)

/-- Replay on, one message a request, no symbol limit. -/
def defaultPolicy : Policy :=
  { replay := true, mode := .immediate, batchSize := 1, batchSize_pos := by decide, hardLimit := false,
    maxPerChannel := 0, maxGlobal := 0 }

/-- A request for one symbol, its id left to the session. -/
def Request.single (x : ℕ) : Request ℕ Unit := ⟨[x], none, ()⟩

/-- `ctrl::INVALID_REQ_ID`. -/
def invalidReqId : ReqId := 0

/-- `ctrl::PROTOCOL_BASE`. -/
def protocolBase : ReqId := 10

namespace Session

variable {Sym P : Type}

/-- A session as constructed. -/
def new : Session Sym P where
  managers := fun _ => .empty
  replayDb := fun _ => .empty
  reqIdSeq := protocolBase
  connected := false
  epoch := 0
  signals := []
  emitted := []

/-- The id a request is sent under: its own, or the next of the sequence. -/
def requestId (s : Session Sym P) (req : Request Sym P) : ReqId := req.reqId.getD s.reqIdSeq

def assignReqId (s : Session Sym P) (req : Request Sym P) : Session Sym P :=
  if req.reqId.isSome then s else { s with reqIdSeq := s.reqIdSeq + 1 }

/-! ## Emission -/

/-- The batches of a request: `n` symbols each, the last one shorter.  The first argument bounds their number. -/
def batches (n : ℕ) : ℕ → List Sym → List (List Sym)
  | 0, _ => []
  | _ + 1, [] => []
  | k + 1, s :: rest => (s :: rest).take n :: batches n k ((s :: rest).drop n)

/-- The messages `emit_request_` makes of a request. -/
def messages (pol : Policy) (req : Request Sym P) : List (Request Sym P) :=
  match pol.mode with
  | .immediate => [req]
  | .batch | .paced =>
    (batches pol.batchSize req.symbols.length req.symbols).map (fun b => { req with symbols := b })

/-- Messages go out one after the other, up to the first that is refused. -/
def sendAll (accept : Request Sym P → Bool) : List (Request Sym P) → Bool × List (Request Sym P)
  | [] => (true, [])
  | m :: ms => if accept m then ((sendAll accept ms).1, m :: (sendAll accept ms).2) else (false, [])

/-- `Connection::send` refuses while not connected; a paced request only enters the scheduler. -/
def takes (pol : Policy) (s : Session Sym P) (accept : Request Sym P → Bool) (m : Request Sym P) : Bool :=
  match pol.mode with
  | .immediate | .batch => s.connected && accept m
  | .paced => accept m

def emitRequest (pol : Policy) (accept : Request Sym P → Bool) (s : Session Sym P) (kind : Kind) (ch : Channel)
    (req : Request Sym P) : Bool × Session Sym P :=
  let r := sendAll (s.takes pol accept) (messages pol req)
  (r.1, { s with emitted := s.emitted ++ r.2.map (fun m => ⟨s.epoch, kind, ch, m⟩) })

variable [DecidableEq Sym]

/-! ## User calls -/

/-- `Controller::total_symbols`. -/
def totalSymbols (s : Session Sym P) : ℕ := (s.managers .trade).totalSymbols + (s.managers .book).totalSymbols

def hardSymbolLimitEnforcement (pol : Policy) (s : Session Sym P) (ch : Channel) (req : Request Sym P) : Bool :=
  (pol.maxPerChannel = 0 || decide ((s.managers ch).totalSymbols + req.symbols.length ≤ pol.maxPerChannel)) &&
  (pol.maxGlobal = 0 || decide (s.totalSymbols + req.symbols.length ≤ pol.maxGlobal))

/-- What `subscribe` and `re_subscribe_` share: register with the manager, store the accepted symbols for replay,
emit them.  `none`: the manager filtered every symbol. -/
def place (pol : Policy) (accept : Request Sym P → Bool) (s : Session Sym P) (ch : Channel) (req : Request Sym P)
    (id : ReqId) : Option Bool × Session Sym P :=
  let r := (s.managers ch).registerSubscription req.symbols id
  let s1 := { s with managers := Function.update s.managers ch r.2 }
  if r.1 = [] then (none, s1)
  else
    let req' : Request Sym P := { req with symbols := r.1, reqId := some id }
    let s2 := if pol.replay then { s1 with
      replayDb := Function.update s1.replayDb ch ((s1.replayDb ch).add req').2 } else s1
    let e := s2.emitRequest pol accept .subscribe ch req'
    (some e.1, e.2)

/-- The request stays registered and stored when its emission fails. -/
def subscribe (pol : Policy) (accept : Request Sym P → Bool) (s : Session Sym P) (ch : Channel)
    (req : Request Sym P) : ReqId × Session Sym P :=
  if pol.hardLimit && !(s.hardSymbolLimitEnforcement pol ch req) then (invalidReqId, s)
  else
    let r := (s.assignReqId req).place pol accept ch req (s.requestId req)
    (if r.1 = some true then s.requestId req else invalidReqId, r.2)

/-- The request is emitted as the user wrote it, before anything is registered. -/
def unsubscribe (pol : Policy) (accept : Request Sym P → Bool) (s : Session Sym P) (ch : Channel)
    (req : Request Sym P) : ReqId × Session Sym P :=
  let id := s.requestId req
  let e := (s.assignReqId req).emitRequest pol accept .unsubscribe ch { req with reqId := some id }
  if e.1 then
    let r := (e.2.managers ch).registerUnsubscription req.symbols id
    let s1 := { e.2 with managers := Function.update e.2.managers ch r.2 }
    (id, if pol.replay then { s1 with
      replayDb := Function.update s1.replayDb ch (r.1.foldl Table.eraseSymbol (s1.replayDb ch)) } else s1)
  else (invalidReqId, e.2)

/-! ## Answers of the server -/

def onSubscribeAck (s : Session Sym P) (ch : Channel) (id : ReqId) (sym : Sym) (success : Bool) : Session Sym P :=
  { s with managers := Function.update s.managers ch ((s.managers ch).processSubscribeAck id sym success).2 }

/-- The replay entry of the symbol goes on every success, whichever request the ACK answers. -/
def onUnsubscribeAck (pol : Policy) (s : Session Sym P) (ch : Channel) (id : ReqId) (sym : Sym) (success : Bool) :
    Session Sym P :=
  let m := ((s.managers ch).processUnsubscribeAck id sym success).2
  let s1 := { s with managers := Function.update s.managers ch m }
  if pol.replay && success then
    { s1 with replayDb := Function.update s1.replayDb ch ((s1.replayDb ch).eraseSymbol sym) }
  else s1

/-- `std::apply` with the `!done &&` guard: the channels in order, up to the first that handles the rejection. -/
def firstDone {σ : Type} (f : σ → Bool × σ) (comp : Channel → σ) : Channel → σ :=
  let t := f (comp .trade)
  if t.1 then Function.update comp .trade t.2
  else
    let comp1 := Function.update comp .trade t.2
    Function.update comp1 .book (f (comp1 .book)).2

def onRejection (pol : Policy) (s : Session Sym P) (id : ReqId) (sym : Sym) : Session Sym P :=
  { s with
    managers := firstDone (fun m => m.tryProcessRejection id sym) s.managers
    replayDb := if pol.replay then firstDone (fun t => t.tryProcessRejection id sym) s.replayDb else s.replayDb }

/-! ## Connection signals -/

def reSubscribe (pol : Policy) (accept : Request Sym P → Bool) (ch : Channel) (s : Session Sym P)
    (req : Request Sym P) : Session Sym P :=
  (s.place pol accept ch req (req.reqId.getD invalidReqId)).2

/-- One channel's round of `do_replay_`: the table is emptied, then its requests are placed again. -/
def replayChannel (pol : Policy) (accept : Request Sym P → Bool) (order : Table.Order Sym P) (s : Session Sym P)
    (ch : Channel) : Session Sym P :=
  let r := (s.replayDb ch).takeSubscriptions order
  r.1.foldl (reSubscribe pol accept ch) { s with replayDb := Function.update s.replayDb ch r.2 }

def doReplay (pol : Policy) (accept : Request Sym P → Bool) (order : Table.Order Sym P) (s : Session Sym P) :
    Session Sym P :=
  if 1 < s.epoch then [Channel.trade, Channel.book].foldl (replayChannel pol accept order) s else s

def handleConnect (pol : Policy) (accept : Request Sym P → Bool) (order : Table.Order Sym P) (s : Session Sym P) :
    Session Sym P :=
  if pol.replay then s.doReplay pol accept order else s

def handleDisconnect (s : Session Sym P) : Session Sym P := { s with managers := fun _ => .empty }

def handleConnectionSignal (pol : Policy) (accept : Request Sym P → Bool) (order : Table.Order Sym P)
    (s : Session Sym P) : Signal → Session Sym P
  | .connected => s.handleConnect pol accept order
  | .disconnected => s.handleDisconnect

/-- `poll_signal` and its handler, for the oldest signal. -/
def pollSignal (pol : Policy) (accept : Request Sym P → Bool) (order : Table.Order Sym P) (s : Session Sym P) :
    Session Sym P :=
  match s.signals with
  | [] => s
  | sig :: rest => handleConnectionSignal pol accept order { s with signals := rest } sig

/-! ## The session as a transition system -/

end Session

/-- What can happen to a session. -/
inductive Event (Sym P : Type)
  | subscribe (ch : Channel) (req : Request Sym P) (accept : Request Sym P → Bool)
  | unsubscribe (ch : Channel) (req : Request Sym P) (accept : Request Sym P → Bool)
  | subscribeAck (ch : Channel) (id : ReqId) (sym : Sym) (success : Bool)
  | unsubscribeAck (ch : Channel) (id : ReqId) (sym : Sym) (success : Bool)
  | rejection (id : ReqId) (sym : Sym)
  | transportConnected
  | transportClosing
  | transportClosed
  | pollSignal (order : Table.Order Sym P) (accept : Request Sym P → Bool)

namespace Session

variable {Sym P : Type} [DecidableEq Sym]

def step (pol : Policy) (s : Session Sym P) : Event Sym P → Session Sym P
  | .subscribe ch req accept => (s.subscribe pol accept ch req).2
  | .unsubscribe ch req accept => (s.unsubscribe pol accept ch req).2
  | .subscribeAck ch id sym success => s.onSubscribeAck ch id sym success
  | .unsubscribeAck ch id sym success => s.onUnsubscribeAck pol ch id sym success
  | .rejection id sym => s.onRejection pol id sym
  -- the FSM queues the signal, then counts the epoch
  | .transportConnected =>
    { s with connected := true, signals := s.signals ++ [.connected], epoch := s.epoch + 1 }
  | .transportClosing => { s with connected := false }
  | .transportClosed => { s with connected := false, signals := s.signals ++ [.disconnected] }
  | .pollSignal order accept => s.pollSignal pol accept order

/-! ## Emission lemmas -/

omit [DecidableEq Sym] in
theorem flatten_batches {n : ℕ} (hn : 0 < n) : ∀ (k : ℕ) (l : List Sym), l.length ≤ k →
    (batches n k l).flatten = l := by
  intro k
  induction k with
  | zero =>
    intro l hl
    rw [List.length_eq_zero_iff.mp (Nat.le_zero.mp hl)]
    rfl
  | succ k ih =>
    intro l hl
    cases l with
    | nil => rfl
    | cons x rest =>
      have hlen : ((x :: rest).drop n).length ≤ k := by
        rw [List.length_drop]
        simp only [List.length_cons] at hl ⊢
        omega
      rw [batches, List.flatten_cons, ih _ hlen, List.take_append_drop]

omit [DecidableEq Sym] in
theorem bounds_batches {n : ℕ} (hn : 0 < n) {b : List Sym} : ∀ (k : ℕ) (l : List Sym), b ∈ batches n k l →
    b ≠ [] ∧ b.length ≤ n := by
  intro k
  induction k with
  | zero => intro l h; simp [batches] at h
  | succ k ih =>
    intro l h
    cases l with
    | nil => simp [batches] at h
    | cons x rest =>
      rw [batches, List.mem_cons] at h
      rcases h with rfl | h
      · refine ⟨?_, List.length_take_le _ _⟩
        obtain ⟨m, rfl⟩ := Nat.exists_eq_add_of_lt hn
        simp
      · exact ih _ h

omit [DecidableEq Sym] in
theorem mem_batches {n : ℕ} (hn : 0 < n) {x : Sym} (k : ℕ) (l : List Sym) (hl : l.length ≤ k) (hx : x ∈ l) :
    ∃ b ∈ batches n k l, x ∈ b := by
  rw [← flatten_batches hn k l hl] at hx
  exact List.mem_flatten.mp hx

omit [DecidableEq Sym] in
theorem messages_reqId {pol : Policy} {req m : Request Sym P} (h : m ∈ messages pol req) : m.reqId = req.reqId := by
  unfold messages at h
  cases hmode : pol.mode with
  | immediate =>
    rw [hmode] at h
    rw [List.mem_singleton.mp h]
  | batch =>
    rw [hmode] at h
    obtain ⟨b, -, rfl⟩ := List.mem_map.mp h
    rfl
  | paced =>
    rw [hmode] at h
    obtain ⟨b, -, rfl⟩ := List.mem_map.mp h
    rfl

omit [DecidableEq Sym] in
/-- Every symbol of the request is in one of its messages. -/
theorem mem_messages (pol : Policy) {req : Request Sym P} {x : Sym} (hx : x ∈ req.symbols) :
    ∃ m ∈ messages pol req, x ∈ m.symbols := by
  obtain ⟨b, hb, hxb⟩ := mem_batches pol.batchSize_pos req.symbols.length req.symbols (Nat.le_refl _) hx
  unfold messages
  cases hmode : pol.mode with
  | immediate => exact ⟨req, List.mem_singleton.mpr rfl, hx⟩
  | batch => exact ⟨_, List.mem_map.mpr ⟨b, hb, rfl⟩, hxb⟩
  | paced => exact ⟨_, List.mem_map.mpr ⟨b, hb, rfl⟩, hxb⟩

omit [DecidableEq Sym] in
theorem mem_sendAll {accept : Request Sym P → Bool} {m : Request Sym P} : ∀ {ms : List (Request Sym P)},
    m ∈ (sendAll accept ms).2 → m ∈ ms := by
  intro ms
  induction ms with
  | nil => intro h; simp [sendAll] at h
  | cons x ms ih =>
    intro h
    unfold sendAll at h
    split_ifs at h
    · rcases List.mem_cons.mp h with rfl | h
      · exact List.mem_cons_self
      · exact List.mem_cons_of_mem _ (ih h)
    · simp at h

omit [DecidableEq Sym] in
theorem sendAll_of_accept {accept : Request Sym P → Bool} : ∀ {ms : List (Request Sym P)},
    (∀ m ∈ ms, accept m = true) → sendAll accept ms = (true, ms) := by
  intro ms
  induction ms with
  | nil => intro _; rfl
  | cons x ms ih =>
    intro h
    unfold sendAll
    rw [if_pos (h x List.mem_cons_self), ih (fun m hm => h m (List.mem_cons_of_mem _ hm))]

section Emit

variable (pol : Policy) (accept : Request Sym P → Bool) (s : Session Sym P) (kind : Kind) (ch : Channel)
  (req : Request Sym P)

omit [DecidableEq Sym] in
@[simp] theorem emitRequest_managers : (s.emitRequest pol accept kind ch req).2.managers = s.managers := rfl

omit [DecidableEq Sym] in
@[simp] theorem emitRequest_replayDb : (s.emitRequest pol accept kind ch req).2.replayDb = s.replayDb := rfl

omit [DecidableEq Sym] in
@[simp] theorem emitRequest_connected : (s.emitRequest pol accept kind ch req).2.connected = s.connected := rfl

omit [DecidableEq Sym] in
@[simp] theorem emitRequest_epoch : (s.emitRequest pol accept kind ch req).2.epoch = s.epoch := rfl

omit [DecidableEq Sym] in
/-- Nothing is taken back, and what is new is a message of the request. -/
theorem mem_emitRequest {m : Message Sym P} (h : m ∈ (s.emitRequest pol accept kind ch req).2.emitted) :
    m ∈ s.emitted ∨ (m.kind = kind ∧ m.channel = ch ∧ m.request.reqId = req.reqId) := by
  rcases List.mem_append.mp h with h | h
  · exact Or.inl h
  · obtain ⟨r, hr, rfl⟩ := List.mem_map.mp h
    exact Or.inr ⟨rfl, rfl, messages_reqId (mem_sendAll hr)⟩

omit [DecidableEq Sym] in
theorem emitted_subset_emitRequest {m : Message Sym P} (h : m ∈ s.emitted) :
    m ∈ (s.emitRequest pol accept kind ch req).2.emitted := List.mem_append_left _ h

omit [DecidableEq Sym] in
/-- When nothing refuses, every symbol of the request goes out. -/
theorem emitRequest_all (hall : ∀ m, s.takes pol accept m = true) :
    ∃ l, (s.emitRequest pol accept kind ch req).2.emitted = s.emitted ++ l ∧
      ∀ x ∈ req.symbols, ∃ m ∈ l, m.epoch = s.epoch ∧ m.kind = kind ∧ m.channel = ch ∧ x ∈ m.request.symbols := by
  refine ⟨_, rfl, fun x hx => ?_⟩
  obtain ⟨r, hr, hxr⟩ := mem_messages pol hx
  refine ⟨⟨s.epoch, kind, ch, r⟩, ?_, rfl, rfl, rfl, hxr⟩
  rw [sendAll_of_accept (fun m _ => hall m)]
  exact List.mem_map.mpr ⟨r, hr, rfl⟩

end Emit

/-! ## `place` -/

section Place

variable {pol : Policy} (accept : Request Sym P → Bool) (s : Session Sym P) (ch : Channel) (req : Request Sym P)
  (id : ReqId)

theorem place_managers : (s.place pol accept ch req id).2.managers =
    Function.update s.managers ch ((s.managers ch).registerSubscription req.symbols id).2 := by
  unfold place
  dsimp only
  split_ifs <;> simp

/-- When every symbol is filtered, the table is left alone, as `add` leaves it for a request without symbols. -/
theorem place_replayDb (hr : pol.replay = true) : (s.place pol accept ch req id).2.replayDb =
    Function.update s.replayDb ch ((s.replayDb ch).add
      { req with symbols := ((s.managers ch).registerSubscription req.symbols id).1, reqId := some id }).2 := by
  unfold place
  dsimp only
  split_ifs with hnil
  · simp [hnil, Table.add]
  · simp

theorem place_epoch : (s.place pol accept ch req id).2.epoch = s.epoch := by
  unfold place
  dsimp only
  split_ifs <;> simp

theorem place_connected : (s.place pol accept ch req id).2.connected = s.connected := by
  unfold place
  dsimp only
  split_ifs <;> simp

theorem mem_place_emitted {m : Message Sym P} (h : m ∈ (s.place pol accept ch req id).2.emitted) :
    m ∈ s.emitted ∨ (m.kind = .subscribe ∧ m.channel = ch ∧ m.request.reqId = some id) := by
  unfold place at h
  dsimp only at h
  split_ifs at h
  · exact Or.inl h
  · exact mem_emitRequest _ _ _ _ _ _ h
  · exact mem_emitRequest _ _ _ _ _ _ h

theorem emitted_subset_place {m : Message Sym P} (h : m ∈ s.emitted) :
    m ∈ (s.place pol accept ch req id).2.emitted := by
  unfold place
  dsimp only
  split_ifs
  · exact h
  · exact emitted_subset_emitRequest _ _ _ _ _ _ h
  · exact emitted_subset_emitRequest _ _ _ _ _ _ h

/-- When nothing refuses, what the manager accepted goes out. -/
theorem place_all (hall : ∀ m, s.takes pol accept m = true) :
    ∃ l, (s.place pol accept ch req id).2.emitted = s.emitted ++ l ∧
      ∀ x ∈ ((s.managers ch).registerSubscription req.symbols id).1, ∃ m ∈ l,
        m.epoch = s.epoch ∧ m.kind = .subscribe ∧ m.channel = ch ∧ x ∈ m.request.symbols := by
  unfold place
  dsimp only
  split_ifs with hnil
  · exact ⟨[], (List.append_nil _).symm, by simp [hnil]⟩
  · exact emitRequest_all _ _ _ _ _ _ hall
  · exact emitRequest_all _ _ _ _ _ _ hall

end Place

section Assign

omit [DecidableEq Sym]

variable (s : Session Sym P) (req : Request Sym P)

@[simp] theorem assignReqId_managers : (s.assignReqId req).managers = s.managers := by
  unfold assignReqId; split_ifs <;> rfl

@[simp] theorem assignReqId_replayDb : (s.assignReqId req).replayDb = s.replayDb := by
  unfold assignReqId; split_ifs <;> rfl

@[simp] theorem assignReqId_emitted : (s.assignReqId req).emitted = s.emitted := by
  unfold assignReqId; split_ifs <;> rfl

theorem assignReqId_connected : (s.assignReqId req).connected = s.connected := by
  unfold assignReqId; split_ifs <;> rfl

theorem assignReqId_epoch : (s.assignReqId req).epoch = s.epoch := by
  unfold assignReqId; split_ifs <;> rfl

end Assign

end Session

end Wirekrak.Protocol

import Wirekrak.Lib.Chunk
import Wirekrak.Protocol.Limits

/-!
# Wirekrak.Protocol.Emission — `emit_request_` message by message, and the calls around it

`Session.emitRequest` knows the transport by one answer for each message.  Here the loop of `emit_request_` is written
as in the source, with its offset into the symbols, and the `k`-th message of a call is taken iff `answer k`: equal
messages may be answered differently.  A closed connection, a failed send and a full queue are answers.

* `emitLoop_eq`, `emitEach_eq`: the loop makes the messages of `Session.messages`.
* `Carries`: a list of messages that cuts a request into batches.
* `batches_partition`: the messages of a call cut its request, and the pending symbols of the request are those of the
  messages, each once, exactly when no symbol that is to be registered is repeated.
-/

namespace Wirekrak.Protocol.Session

open Wirekrak.Lib

variable {Sym P : Type}

/-! ## The loop -/

/-- The loop of `emit_request_` from the offset on, after `k` messages.  The first argument bounds the rounds. -/
def emitLoop (n : ℕ) (answer : ℕ → Bool) (req : Request Sym P) : ℕ → ℕ → ℕ → Bool × List (Request Sym P)
  | 0, _, _ => (true, [])
  | fuel + 1, k, offset =>
    if offset < req.symbols.length then
      let m := min n (req.symbols.length - offset)
      let batch := { req with symbols := (req.symbols.drop offset).take m }
      if answer k then
        let r := emitLoop n answer req fuel (k + 1) (offset + m)
        (r.1, batch :: r.2)
      else (false, [])
    else (true, [])

/-- `emit_request_`: whether all went out, and the messages that did. -/
def emitEach (pol : Policy) (answer : ℕ → Bool) (req : Request Sym P) : Bool × List (Request Sym P) :=
  match pol.mode with
  | .immediate => if answer 0 then (true, [req]) else (false, [])
  | .batch | .paced => emitLoop pol.batchSize answer req req.symbols.length 0 0

/-- Messages go out one after the other, the first of them as the `k`-th, up to the first that is refused. -/
def sendEach (answer : ℕ → Bool) : ℕ → List (Request Sym P) → Bool × List (Request Sym P)
  | _, [] => (true, [])
  | k, m :: ms =>
    if answer k then ((sendEach answer (k + 1) ms).1, m :: (sendEach answer (k + 1) ms).2) else (false, [])

theorem drop_add_min (l : List Sym) (n i : ℕ) : l.drop (i + min n (l.length - i)) = (l.drop i).drop n := by
  rw [List.drop_drop]
  rcases Nat.le_total n (l.length - i) with h | h
  · rw [Nat.min_eq_left h]
  · rw [Nat.min_eq_right h, List.drop_eq_nil_of_le (by omega), List.drop_eq_nil_of_le (by omega)]

theorem emitLoop_eq (n : ℕ) (answer : ℕ → Bool) (req : Request Sym P) (fuel : ℕ) : ∀ k offset : ℕ,
    emitLoop n answer req fuel k offset =
      sendEach answer k ((batches n fuel (req.symbols.drop offset)).map fun b => { req with symbols := b }) := by
  induction fuel with
  | zero => intro k offset; rfl
  | succ fuel ih =>
    intro k offset
    unfold emitLoop
    by_cases h : offset < req.symbols.length
    · rw [if_pos h]
      have htake : (req.symbols.drop offset).take (min n (req.symbols.length - offset)) =
          (req.symbols.drop offset).take n := by
        rw [← List.length_drop, ← List.take_take, List.take_length]
      have hdrop := drop_add_min req.symbols n offset
      obtain ⟨x, rest, hx⟩ : ∃ x rest, req.symbols.drop offset = x :: rest := by
        cases hc : req.symbols.drop offset with
        | nil => exact absurd (List.drop_eq_nil_iff.mp hc) (by omega)
        | cons x rest => exact ⟨x, rest, rfl⟩
      rw [hx] at htake hdrop ⊢
      simp only [batches, List.map_cons, sendEach, ih, htake, hdrop]
    · rw [if_neg h, List.drop_eq_nil_of_le (by omega)]
      simp [batches, sendEach]

theorem emitEach_eq (pol : Policy) (answer : ℕ → Bool) (req : Request Sym P) :
    emitEach pol answer req = sendEach answer 0 (messages pol req) := by
  unfold emitEach messages
  cases pol.mode with
  | immediate => simp [sendEach]
  | batch => exact emitLoop_eq pol.batchSize answer req _ 0 0
  | paced => exact emitLoop_eq pol.batchSize answer req _ 0 0

theorem sendEach_eq_sendAll {accept : Request Sym P → Bool} {answer : ℕ → Bool} {ms : List (Request Sym P)} :
    ∀ k : ℕ, (∀ i (h : i < ms.length), answer (k + i) = accept ms[i]) → sendEach answer k ms = sendAll accept ms := by
  induction ms with
  | nil => intro k _; rfl
  | cons m ms ih =>
    intro k h
    have h0 : answer k = accept m := h 0 (by simp)
    have hrest := ih (k + 1) fun i hi => by
      have := h (i + 1) (by simpa using hi)
      rwa [Nat.add_right_comm, Nat.add_assoc]
    simp only [sendEach, sendAll, h0, hrest]

/-- One answer for each message is a case of one answer for each round. -/
theorem emitRequest_eq_emitEach (pol : Policy) (accept : Request Sym P → Bool) (s : Session Sym P) (kind : Kind)
    (ch : Channel) (req : Request Sym P) : s.emitRequest pol accept kind ch req =
      let r := emitEach pol (fun k => ((messages pol req)[k]?).elim false (s.takes pol accept)) req
      (r.1, { s with emitted := s.emitted ++ r.2.map (fun m => ⟨s.epoch, kind, ch, m⟩) }) := by
  have h : sendEach (fun k => ((messages pol req)[k]?).elim false (s.takes pol accept)) 0 (messages pol req) =
      sendAll (s.takes pol accept) (messages pol req) := sendEach_eq_sendAll 0 fun i hi => by simp [hi]
  rw [emitEach_eq, h]
  rfl

theorem sendEach_fst (answer : ℕ → Bool) (ms : List (Request Sym P)) : ∀ k : ℕ,
    (sendEach answer k ms).1 = true ↔ ∀ i < ms.length, answer (k + i) = true := by
  induction ms with
  | nil => intro k; simp [sendEach]
  | cons m ms ih =>
    intro k
    rw [List.length_cons, Nat.forall_lt_succ_left]
    by_cases h : answer k = true
    · simp only [sendEach, h, if_true, ih, Nat.add_zero, true_and]
      simp only [Nat.add_right_comm k 1, Nat.add_assoc]
    · simp [sendEach, h]

theorem sendEach_of_all {answer : ℕ → Bool} (h : ∀ k, answer k = true) (ms : List (Request Sym P)) : ∀ k : ℕ,
    sendEach answer k ms = (true, ms) := by
  induction ms with
  | nil => intro k; rfl
  | cons m ms ih =>
    intro k
    simp only [sendEach, h k, if_true, ih]

/-! ## Batches -/

/-- The messages are the request cut into batches of at most `n` symbols, sent under `id`. -/
structure Carries (n : ℕ) (id : ReqId) (req : Request Sym P) (ms : List (Request Sym P)) : Prop where
  flatten : (ms.map Request.symbols).flatten = req.symbols
  ne_nil : ∀ m ∈ ms, m.symbols ≠ []
  length_le : ∀ m ∈ ms, m.symbols.length ≤ n
  reqId : ∀ m ∈ ms, m.reqId = some id
  params : ∀ m ∈ ms, m.params = req.params

theorem carries_messages {pol : Policy} (hmode : pol.mode ≠ .immediate) {id : ReqId} {req : Request Sym P}
    (hid : req.reqId = some id) : Carries pol.batchSize id req (messages pol req) := by
  have heq : messages pol req =
      (batches pol.batchSize req.symbols.length req.symbols).map fun b => { req with symbols := b } := by
    unfold messages
    cases h : pol.mode with
    | immediate => exact absurd h hmode
    | batch => rfl
    | paced => rfl
  rw [heq]
  constructor
  · rw [List.map_map]
    exact (congrArg List.flatten (List.map_id' _)).trans (flatten_batches pol.batchSize_pos _ _ (Nat.le_refl _))
  all_goals
    intro m hm
    obtain ⟨b, hb, rfl⟩ := List.mem_map.mp hm
  · exact (bounds_batches pol.batchSize_pos _ _ hb).1
  · exact (bounds_batches pol.batchSize_pos _ _ hb).2
  · exact hid
  · rfl

/-! ## The calls -/

section Calls

/-- `emit_request_` and the log. -/
def emit (pol : Policy) (answer : ℕ → Bool) (s : Session Sym P) (kind : Kind) (ch : Channel) (req : Request Sym P) :
    Bool × Session Sym P :=
  let r := emitEach pol answer req
  (r.1, { s with emitted := s.emitted ++ r.2.map (fun m => ⟨s.epoch, kind, ch, m⟩) })

/-- The answers of a transport that answers message by message. -/
def answers (pol : Policy) (s : Session Sym P) (accept : Request Sym P → Bool) (req : Request Sym P) (k : ℕ) : Bool :=
  ((messages pol req)[k]?).elim false (s.takes pol accept)

theorem emit_answers (pol : Policy) (accept : Request Sym P → Bool) (s : Session Sym P) (kind : Kind) (ch : Channel)
    (req : Request Sym P) :
    s.emit pol (s.answers pol accept req) kind ch req = s.emitRequest pol accept kind ch req := by
  rw [emitRequest_eq_emitEach]
  rfl

theorem answers_congr {pol : Policy} {s u : Session Sym P} (h : s.connected = u.connected)
    (accept : Request Sym P → Bool) (req : Request Sym P) : s.answers pol accept req = u.answers pol accept req := by
  have htakes : s.takes pol accept = u.takes pol accept := by
    funext m
    unfold takes
    rw [h]
  unfold answers
  rw [htakes]

variable [DecidableEq Sym]

/-- The steps of `subscribe` between the id and the emission: manager, accepted symbols, replay table. -/
def register (pol : Policy) (s : Session Sym P) (ch : Channel) (req : Request Sym P) (id : ReqId) :
    Request Sym P × Session Sym P :=
  let r := (s.managers ch).registerSubscription req.symbols id
  let req' := { req with symbols := r.1, reqId := some id }
  let s1 := { s with managers := Function.update s.managers ch r.2 }
  (req', if pol.replay && !r.1.isEmpty then { s1 with
    replayDb := Function.update s1.replayDb ch ((s1.replayDb ch).add req').2 } else s1)

/-- The hard symbol limits turn the request away. -/
def turnsAway (s : Session Sym P) (pol : Policy) (ch : Channel) (req : Request Sym P) : Bool :=
  pol.hardLimit && !(s.hardSymbolLimitEnforcement pol ch req)

def subscribeEach (pol : Policy) (answer : ℕ → Bool) (s : Session Sym P) (ch : Channel) (req : Request Sym P) :
    ReqId × Session Sym P :=
  if s.turnsAway pol ch req then (invalidReqId, s)
  else
    let id := s.requestId req
    let r := (s.assignReqId req).register pol ch req id
    if r.1.symbols = [] then (invalidReqId, r.2)
    else
      let e := r.2.emit pol answer .subscribe ch r.1
      (if e.1 then id else invalidReqId, e.2)

def unsubscribeEach (pol : Policy) (answer : ℕ → Bool) (s : Session Sym P) (ch : Channel) (req : Request Sym P) :
    ReqId × Session Sym P :=
  let id := s.requestId req
  let e := (s.assignReqId req).emit pol answer .unsubscribe ch { req with reqId := some id }
  if e.1 then
    let r := (e.2.managers ch).registerUnsubscription req.symbols id
    let s1 := { e.2 with managers := Function.update e.2.managers ch r.2 }
    (id, if pol.replay then { s1 with
      replayDb := Function.update s1.replayDb ch (r.1.foldl Table.eraseSymbol (s1.replayDb ch)) } else s1)
  else (invalidReqId, e.2)

theorem register_connected (pol : Policy) (s : Session Sym P) (ch : Channel) (req : Request Sym P) (id : ReqId) :
    (s.register pol ch req id).2.connected = s.connected := by
  unfold register
  dsimp only
  split_ifs <;> rfl

theorem place_eq_register (pol : Policy) (accept : Request Sym P → Bool) (s : Session Sym P) (ch : Channel)
    (req : Request Sym P) (id : ReqId) : s.place pol accept ch req id =
      if (s.register pol ch req id).1.symbols = [] then (none, (s.register pol ch req id).2)
      else
        let e := (s.register pol ch req id).2.emitRequest pol accept .subscribe ch (s.register pol ch req id).1
        (some e.1, e.2) := by
  unfold place register
  dsimp only
  by_cases hnil : ((s.managers ch).registerSubscription req.symbols id).1 = []
  · simp only [hnil, if_true, List.isEmpty_nil, Bool.not_true, Bool.and_false, Bool.false_eq_true, if_false]
  · simp only [hnil, if_false, List.isEmpty_eq_false_iff.mpr hnil, Bool.not_false, Bool.and_true]

/-- `Session.subscribe` is a case of `subscribeEach`. -/
theorem subscribe_eq_subscribeEach (pol : Policy) (accept : Request Sym P → Bool) (s : Session Sym P) (ch : Channel)
    (req : Request Sym P) : s.subscribe pol accept ch req =
      s.subscribeEach pol (s.answers pol accept ((s.assignReqId req).register pol ch req (s.requestId req)).1) ch req := by
  unfold subscribe subscribeEach turnsAway
  rw [place_eq_register]
  dsimp only
  set r := (s.assignReqId req).register pol ch req (s.requestId req) with hr
  have hc : s.connected = r.2.connected := by rw [hr, register_connected, assignReqId_connected]
  rw [answers_congr hc, emit_answers]
  split_ifs <;> simp_all

/-- `Session.unsubscribe` is a case of `unsubscribeEach`. -/
theorem unsubscribe_eq_unsubscribeEach (pol : Policy) (accept : Request Sym P → Bool) (s : Session Sym P)
    (ch : Channel) (req : Request Sym P) : s.unsubscribe pol accept ch req =
      s.unsubscribeEach pol (s.answers pol accept { req with reqId := some (s.requestId req) }) ch req := by
  unfold unsubscribe unsubscribeEach
  dsimp only
  rw [answers_congr (assignReqId_connected s req).symm, emit_answers]

end Calls

/-! ## What a call does -/

section Calls

variable [DecidableEq Sym]

/-- The transport takes every message of the request. -/
def Taken (pol : Policy) (answer : ℕ → Bool) (req : Request Sym P) : Prop :=
  ∀ k < (messages pol req).length, answer k = true

omit [DecidableEq Sym] in
theorem emit_fst {pol : Policy} {answer : ℕ → Bool} {s : Session Sym P} {kind : Kind} {ch : Channel}
    {req : Request Sym P} : (s.emit pol answer kind ch req).1 = true ↔ Taken pol answer req := by
  unfold emit Taken
  dsimp only
  rw [emitEach_eq, sendEach_fst]
  simp only [Nat.zero_add]

omit [DecidableEq Sym] in
theorem emit_emitted (pol : Policy) (s : Session Sym P) (kind : Kind) (ch : Channel) (req : Request Sym P) :
    (s.emit pol (fun _ => true) kind ch req).2.emitted =
      s.emitted ++ (messages pol req).map (fun m => ⟨s.epoch, kind, ch, m⟩) := by
  unfold emit
  dsimp only
  rw [emitEach_eq, sendEach_of_all (fun _ => rfl)]

/-- What `subscribe` asks for: the symbols the manager does not count yet, under the id. -/
def asked (s : Session Sym P) (ch : Channel) (req : Request Sym P) : Request Sym P :=
  { req with symbols := (s.managers ch).accepted req.symbols, reqId := some (s.requestId req) }

section Sound

variable {pol : Policy} {s : Session Sym P} {ch : Channel} {req : Request Sym P} {answer : ℕ → Bool}

theorem register_fst (hs : s.Sound) :
    ((s.assignReqId req).register pol ch req (s.requestId req)).1 = s.asked ch req := by
  unfold register asked
  dsimp only
  rw [assignReqId_managers, (Manager.registerSubscription_spec (hs.mgr ch) _ _).1]

theorem register_managers (pol : Policy) (s : Session Sym P) (ch : Channel) (req : Request Sym P) (id : ReqId) :
    (s.register pol ch req id).2.managers =
      Function.update s.managers ch ((s.managers ch).registerSubscription req.symbols id).2 := by
  unfold register
  dsimp only
  split_ifs <;> rfl

theorem register_emitted (pol : Policy) (s : Session Sym P) (ch : Channel) (req : Request Sym P) (id : ReqId) :
    (s.register pol ch req id).2.emitted = s.emitted ∧ (s.register pol ch req id).2.epoch = s.epoch := by
  unfold register
  dsimp only
  split_ifs <;> exact ⟨rfl, rfl⟩

theorem subscribeEach_of_turnsAway (h : s.turnsAway pol ch req = true) :
    s.subscribeEach pol answer ch req = (invalidReqId, s) := by
  unfold subscribeEach
  rw [if_pos h]

theorem subscribeEach_of_filtered (hs : s.Sound) (h : s.turnsAway pol ch req = false)
    (hnil : (s.managers ch).accepted req.symbols = []) : (s.subscribeEach pol answer ch req).1 = invalidReqId ∧
      (s.subscribeEach pol answer ch req).2 = s.assignReqId req := by
  have hreg : ((s.assignReqId req).register pol ch req (s.requestId req)).1.symbols = [] := by
    rw [register_fst hs]
    exact hnil
  have hsame : ((s.assignReqId req).register pol ch req (s.requestId req)).2 = s.assignReqId req := by
    unfold register
    dsimp only
    rw [assignReqId_managers, Manager.registerSubscription_eq (hs.mgr ch), if_pos hnil]
    simp only [hnil, List.isEmpty_nil, Bool.not_true, Bool.and_false, Bool.false_eq_true, if_false]
    rw [Function.update_eq_self, ← assignReqId_managers s req]
  unfold subscribeEach
  rw [if_neg (Bool.eq_false_iff.mp h)]
  dsimp only
  rw [if_pos hreg]
  exact ⟨rfl, hsame⟩

theorem subscribeEach_of_accepted (hs : s.Sound) (h : s.turnsAway pol ch req = false)
    (hne : (s.managers ch).accepted req.symbols ≠ []) : s.subscribeEach pol answer ch req =
      let e := ((s.assignReqId req).register pol ch req (s.requestId req)).2.emit pol answer .subscribe ch (s.asked ch req)
      (if e.1 then s.requestId req else invalidReqId, e.2) := by
  unfold subscribeEach
  rw [if_neg (Bool.eq_false_iff.mp h)]
  dsimp only
  rw [register_fst hs, if_neg (show (s.asked ch req).symbols ≠ [] from hne)]

/-- Who waits for a subscription after `subscribe`: whoever did, and the request for what it asks. -/
theorem owns_subscribeEach (hs : s.Sound) (h : s.turnsAway pol ch req = false) (i : ReqId) (x : Sym) :
    ((s.subscribeEach pol answer ch req).2.managers ch).pendingSubscriptions.Owns i x ↔
      (s.managers ch).pendingSubscriptions.Owns i x ∨ (i = s.requestId req ∧ x ∈ (s.asked ch req).symbols) := by
  by_cases hnil : (s.managers ch).accepted req.symbols = []
  · rw [(subscribeEach_of_filtered hs h hnil).2, assignReqId_managers]
    simp [asked, hnil]
  · rw [subscribeEach_of_accepted hs h hnil]
    have hm : ∀ c, ((s.assignReqId req).managers c).Wf := by rw [assignReqId_managers]; exact hs.mgr
    have := (Manager.registerSubscription_spec (hm ch) req.symbols (s.requestId req)).2.2.2.2 i x
    simp only [emit, register_managers, Function.update_self]
    rwa [assignReqId_managers] at this ⊢

end Sound

/-! ## Batches and pending symbols -/

/-- No symbol that the manager would register occurs twice in the request. -/
def NoRepeat (s : Session Sym P) (ch : Channel) (req : Request Sym P) : Prop :=
  ∀ x, ¬ (s.managers ch).Counts x → req.symbols.count x ≤ 1

theorem nodup_asked {s : Session Sym P} {ch : Channel} {req : Request Sym P} :
    (s.asked ch req).symbols.Nodup ↔ s.NoRepeat ch req := by
  unfold asked NoRepeat Manager.accepted
  rw [List.nodup_iff_count_le_one]
  refine forall_congr' fun x => ?_
  by_cases hx : (s.managers ch).Counts x
  · have hno : x ∉ req.symbols.filter (fun s' =>
        decide (s' ∉ (s.managers ch).activeSymbols ∧ s' ∉ (s.managers ch).pendingSubscriptions.pendingSymbols)) :=
      fun h => (Manager.mem_accepted.mp h).2 hx
    simp only [List.count_eq_zero.mpr hno, Nat.zero_le, hx, not_true_eq_false, false_implies]
  · rw [List.count_filter (by simpa [Manager.Counts] using hx)]
    simp only [hx, not_false_eq_true, true_implies]

/-- The messages of an `unsubscribe` cut the request, under its id. -/
def UnsubscribesInBatches (pol : Policy) (s : Session Sym P) (ch : Channel) (req : Request Sym P) : Prop :=
  ∃ ms, (s.unsubscribeEach pol (fun _ => true) ch req).2.emitted =
      s.emitted ++ ms.map (fun m => ⟨s.epoch, .unsubscribe, ch, m⟩) ∧
    Carries pol.batchSize (s.requestId req) req ms

/-- The messages of a `subscribe` cut a list of symbols, under the id and with the parameters of the request, and these
symbols are the ones that the call has made pending under the id, each once. -/
def SubscribesInBatches (pol : Policy) (s : Session Sym P) (ch : Channel) (req : Request Sym P) : Prop :=
  ∃ (symbols : List Sym) (ms : List (Request Sym P)),
    (s.subscribeEach pol (fun _ => true) ch req).2.emitted =
      s.emitted ++ ms.map (fun m => ⟨s.epoch, .subscribe, ch, m⟩) ∧
    Carries pol.batchSize (s.requestId req) { req with symbols := symbols } ms ∧ symbols.Nodup ∧
    ∀ x, x ∈ symbols ↔
      ((s.subscribeEach pol (fun _ => true) ch req).2.managers ch).pendingSubscriptions.Owns (s.requestId req) x ∧
      ¬ (s.managers ch).pendingSubscriptions.Owns (s.requestId req) x

theorem unsubscribes_in_batches {pol : Policy} (hmode : pol.mode ≠ .immediate) (s : Session Sym P) (ch : Channel)
    (req : Request Sym P) : UnsubscribesInBatches pol s ch req := by
  refine ⟨messages pol { req with reqId := some (s.requestId req) }, ?_, ?_⟩
  · have hemit := emit_emitted pol (s.assignReqId req) .unsubscribe ch { req with reqId := some (s.requestId req) }
    rw [assignReqId_emitted, assignReqId_epoch] at hemit
    unfold unsubscribeEach
    dsimp only
    split_ifs <;> exact hemit
  · have h : Carries pol.batchSize (s.requestId req) { req with reqId := some (s.requestId req) } _ :=
      carries_messages hmode rfl
    exact ⟨h.flatten, h.ne_nil, h.length_le, h.reqId, h.params⟩

omit [DecidableEq Sym] in
theorem messages_of_nil {pol : Policy} (hmode : pol.mode ≠ .immediate) {req : Request Sym P} (h : req.symbols = []) :
    messages pol req = [] := by
  unfold messages
  rw [h]
  cases hm : pol.mode with
  | immediate => exact absurd hm hmode
  | batch => rfl
  | paced => rfl

/-- What a `subscribe` puts on the wire when nothing refuses. -/
theorem subscribeEach_emitted {pol : Policy} (hmode : pol.mode ≠ .immediate) {s : Session Sym P} (hs : s.Sound)
    {ch : Channel} {req : Request Sym P} (h : s.turnsAway pol ch req = false) :
    (s.subscribeEach pol (fun _ => true) ch req).2.emitted =
      s.emitted ++ (messages pol (s.asked ch req)).map (fun m => ⟨s.epoch, .subscribe, ch, m⟩) := by
  by_cases hnil : (s.managers ch).accepted req.symbols = []
  · rw [(subscribeEach_of_filtered hs h hnil).2, assignReqId_emitted,
      messages_of_nil hmode (show (s.asked ch req).symbols = [] from hnil), List.map_nil, List.append_nil]
  · rw [subscribeEach_of_accepted hs h hnil]
    dsimp only
    rw [emit_emitted, (register_emitted _ _ _ _ _).1, (register_emitted _ _ _ _ _).2, assignReqId_emitted,
      assignReqId_epoch]

omit [DecidableEq Sym] in
/-- A message list can be read off the log. -/
theorem messages_inj {old : List (Message Sym P)} {e : ℕ} {k : Kind} {ch : Channel} {ms ms' : List (Request Sym P)}
    (h : old ++ ms.map (fun m => ⟨e, k, ch, m⟩) = old ++ ms'.map (fun m => ⟨e, k, ch, m⟩)) : ms = ms' := by
  have hinj : Function.Injective fun m : Request Sym P => (⟨e, k, ch, m⟩ : Message Sym P) :=
    fun a b hab => (Message.mk.inj hab).2.2.2
  exact List.map_injective_iff.mpr hinj (List.append_cancel_left h)

theorem subscribes_in_batches_iff {pol : Policy} (hmode : pol.mode ≠ .immediate) {s : Session Sym P} (hs : s.Sound)
    (ch : Channel) (req : Request Sym P) :
    SubscribesInBatches pol s ch req ↔ s.turnsAway pol ch req = true ∨ s.NoRepeat ch req := by
  by_cases hturn : s.turnsAway pol ch req = true
  · refine iff_of_true ⟨[], [], ?_, ?_, List.nodup_nil, fun x => ?_⟩ (Or.inl hturn)
    · rw [subscribeEach_of_turnsAway hturn, List.map_nil, List.append_nil]
    · exact ⟨rfl, by simp, by simp, by simp, by simp⟩
    · rw [subscribeEach_of_turnsAway hturn]
      exact ⟨fun h => absurd h List.not_mem_nil, fun h => absurd h.1 h.2⟩
  · have hoff := Bool.eq_false_iff.mpr hturn
    rw [← nodup_asked, or_iff_right hturn]
    have hcut : Carries pol.batchSize (s.requestId req) (s.asked ch req) _ := carries_messages hmode rfl
    constructor
    · rintro ⟨symbols, ms, hlog, hms, hnd, -⟩
      rw [subscribeEach_emitted hmode hs hoff] at hlog
      rw [← hcut.flatten, messages_inj hlog, hms.flatten]
      exact hnd
    · intro hnd
      refine ⟨(s.asked ch req).symbols, messages pol (s.asked ch req), subscribeEach_emitted hmode hs hoff,
        ⟨hcut.flatten, hcut.ne_nil, hcut.length_le, hcut.reqId, hcut.params⟩, hnd, fun x => ?_⟩
      rw [owns_subscribeEach hs hoff]
      constructor
      · intro hx
        refine ⟨Or.inr ⟨rfl, hx⟩, fun hold => ?_⟩
        exact (Manager.mem_accepted.mp hx).2 (Or.inr (hold.mem (hs.mgr ch).sub))
      · rintro ⟨h | h, hnot⟩
        · exact absurd h hnot
        · exact h.2

/-- **The messages of a call cut its request into batches.**  The symbols of a `subscribe` are those it makes pending,
each once, exactly when the limits turn it away or it repeats no symbol that it registers. -/
theorem batches_partition {pol : Policy} (hmode : pol.mode ≠ .immediate) (evs : List (Event Sym P)) (ch : Channel)
    (req : Request Sym P) : UnsubscribesInBatches pol (after pol evs) ch req ∧
      (SubscribesInBatches pol (after pol evs) ch req ↔
        (after pol evs).turnsAway pol ch req = true ∨ (after pol evs).NoRepeat ch req) :=
  ⟨unsubscribes_in_batches hmode _ ch req, subscribes_in_batches_iff hmode (sound_after pol evs) ch req⟩

/-- Batches of two symbols, no limit. -/
def inPairs : Policy := { defaultPolicy with mode := .batch, batchSize := 2, batchSize_pos := Nat.zero_lt_two }

theorem batches_partition_three : SubscribesInBatches inPairs (after inPairs [.transportConnected])
    .trade (⟨[1, 2, 3], none, ()⟩ : Request ℕ Unit) := by
  refine (batches_partition (by decide) _ _ _).2.mpr (Or.inr fun x _ => ?_)
  exact List.nodup_iff_count_le_one.mp (by decide) x

/-- A symbol named twice goes out twice and is registered once. -/
theorem repeated_symbol_sent_twice : ¬ SubscribesInBatches inPairs (after inPairs [.transportConnected])
    .trade (⟨[1, 1], none, ()⟩ : Request ℕ Unit) := by
  rw [subscribes_in_batches_iff (by decide) (sound_after _ _)]
  rintro (h | h)
  · exact absurd h (by decide)
  · exact absurd (h 1 (by decide)) (by decide)

end Calls

end Wirekrak.Protocol.Session

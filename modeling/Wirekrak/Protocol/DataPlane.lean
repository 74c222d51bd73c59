import Wirekrak.Lib.Fifo
import Wirekrak.Protocol.Session

/-!
# Wirekrak.Protocol.DataPlane — the session and the queues of its user

What the router makes of a message goes two ways: ACKs and rejections to the control plane, trades, book updates and
rejection notices into a bounded queue per type, from which the user pops.  A push that finds its queue full ends the
drain loop of `poll`; the message is gone, and the next one waits for the next `poll`.

* `history`: the calls, signals and messages as they were handled, each with the session it led to.
* `received`: the messages for the user in order of receipt, each with whether its queue had a place for it.
* `slow_user_harmless`: sessions with equal histories are equal at every point, whatever is popped when; and the user
  gets the messages of a type that had a place, in order, each once.
-/

namespace Wirekrak.Protocol

open Wirekrak.Lib

/-- The message types of the data plane, `KrakenModel::messages`. -/
inductive DataType
  | trade
  | book
  | rejection
  deriving DecidableEq

inductive MessageResult
  | ignored
  | invalidJson
  | invalidSchema
  | invalidValue
  | parsed
  | delivered
  | backpressure
  deriving DecidableEq

/-- `schema::rejection::Notice`. -/
structure Notice (Sym : Type) where
  error : List Char
  reqId : Option ReqId
  symbol : Option Sym
  deriving DecidableEq

/-- A message for the user; `T` and `B` are the trade and the book responses. -/
inductive Item (Sym T B : Type)
  | trade (response : T)
  | book (response : B)
  | rejection (notice : Notice Sym)
  deriving DecidableEq

def Item.type {Sym T B : Type} : Item Sym T B → DataType
  | .trade _ => .trade
  | .book _ => .book
  | .rejection _ => .rejection

/-- What the router makes of a message; `state` is a pong or a status, which overwrites the one before, and `result` a
message that is not routed. -/
inductive Routed (Sym T B : Type)
  | subscribeAck (ch : Channel) (id : ReqId) (sym : Sym) (success : Bool)
  | unsubscribeAck (ch : Channel) (id : ReqId) (sym : Sym) (success : Bool)
  | item (x : Item Sym T B)
  | state
  | result (r : MessageResult)

/-- What the control plane acts on, one at a time. -/
inductive Handled (Sym P T B : Type)
  | event (ev : Event Sym P)
  | message (m : Routed Sym T B)

/-- The policy, the usable capacity of each queue and the bound of the drain loop. -/
structure Plane where
  pol : Policy
  capacity : DataType → ℕ
  maxMessagesPerPoll : ℕ

structure UserSession (Sym P T B : Type) where
  core : Session Sym P := .new
  inbox : List (Routed Sym T B) := []
  queues : DataType → List (Item Sym T B) := fun _ => []
  history : List (Handled Sym P T B × Session Sym P) := []
  received : List (Item Sym T B × Bool) := []
  popped : List (Item Sym T B) := []

namespace UserSession

variable {Sym P T B : Type}

/-- `MessageBus::push`. -/
def push (S : Plane) (s : UserSession Sym P T B) (x : Item Sym T B) : Bool × UserSession Sym P T B :=
  match Fifo.push (S.capacity x.type) (s.queues x.type) x with
  | some q => (true, { s with queues := Function.update s.queues x.type q, received := s.received ++ [(x, true)] })
  | none => (false, { s with received := s.received ++ [(x, false)] })

/-- `MessageBus::pop`. -/
def pop (s : UserSession Sym P T B) (k : DataType) : UserSession Sym P T B :=
  match s.queues k with
  | [] => s
  | x :: q => { s with queues := Function.update s.queues k q, popped := s.popped ++ [x] }

variable [DecidableEq Sym]

/-- The callbacks of the context: ACKs and complete rejections reach the stores, data does not. -/
def control (pol : Policy) (c : Session Sym P) : Routed Sym T B → Session Sym P
  | .subscribeAck ch id sym success => c.step pol (.subscribeAck ch id sym success)
  | .unsubscribeAck ch id sym success => c.step pol (.unsubscribeAck ch id sym success)
  | .item (.rejection ⟨_, some id, some sym⟩) => c.step pol (.rejection id sym)
  | _ => c

def handle (pol : Policy) (c : Session Sym P) : Handled Sym P T B → Session Sym P
  | .event ev => c.step pol ev
  | .message m => control pol c m

/-- The control plane takes one call, signal or message. -/
def advance (S : Plane) (s : UserSession Sym P T B) (h : Handled Sym P T B) : UserSession Sym P T B :=
  { s with core := handle S.pol s.core h, history := s.history ++ [(h, handle S.pol s.core h)] }

/-- `on_message`: a rejection notice is taken by the control plane first and then pushed. -/
def onMessage (S : Plane) (s : UserSession Sym P T B) (m : Routed Sym T B) : MessageResult × UserSession Sym P T B :=
  let s := s.advance S (.message m)
  match m with
  | .item x => (if (s.push S x).1 then .delivered else .backpressure, (s.push S x).2)
  | .subscribeAck _ _ _ _ | .unsubscribeAck _ _ _ _ | .state => (.delivered, s)
  | .result r => (r, s)

/-- The signals that were queued when the poll began; `env` is what the handler of each meets. -/
def pollSignals (S : Plane) (env : ℕ → Table.Order Sym P × (Request Sym P → Bool)) (s : UserSession Sym P T B) :
    UserSession Sym P T B :=
  (List.range s.core.signals.length).foldl
    (fun s i => s.advance S (.event (.pollSignal (env i).1 (env i).2))) s

/-- The loop over the message ring. -/
def pollMessages (S : Plane) : ℕ → UserSession Sym P T B → UserSession Sym P T B
  | 0, s => s
  | n + 1, s =>
    match s.inbox with
    | [] => s
    | m :: rest =>
      let r := onMessage S { s with inbox := rest } m
      -- the slot is released either way
      if r.1 = .backpressure then r.2 else pollMessages S n r.2

def poll (S : Plane) (env : ℕ → Table.Order Sym P × (Request Sym P → Bool)) (s : UserSession Sym P T B) :
    UserSession Sym P T B :=
  pollMessages S S.maxMessagesPerPoll (pollSignals S env s)

end UserSession

/-- Calls of the user and events of the transport (`event`), messages of the server, and the user's `poll` and `pop`. -/
inductive UserEvent (Sym P T B : Type)
  | event (ev : Event Sym P)
  | receive (m : Routed Sym T B)
  | poll (env : ℕ → Table.Order Sym P × (Request Sym P → Bool))
  | pop (k : DataType)

namespace UserSession

variable {Sym P T B : Type} [DecidableEq Sym]

def step (S : Plane) (s : UserSession Sym P T B) : UserEvent Sym P T B → UserSession Sym P T B
  | .event ev => s.advance S (.event ev)
  | .receive m => { s with inbox := s.inbox ++ [m] }
  | .poll env => s.poll S env
  | .pop k => s.pop k

def after (S : Plane) (evs : List (UserEvent Sym P T B)) : UserSession Sym P T B := evs.foldl (step S) {}

/-- The messages of type `k` the user has popped. -/
def poppedOf (s : UserSession Sym P T B) (k : DataType) : List (Item Sym T B) :=
  s.popped.filter (fun x => x.type = k)

/-- The messages of type `k` whose push found a place, in order of receipt. -/
def acceptedOf (s : UserSession Sym P T B) (k : DataType) : List (Item Sym T B) :=
  (s.received.filter (fun r => r.2 && decide (r.1.type = k))).map Prod.fst

/-- The sessions that a list of calls, signals and messages leads to, one after the other. -/
def trail (pol : Policy) : Session Sym P → List (Handled Sym P T B) → List (Session Sym P)
  | _, [] => []
  | c, h :: hs => handle pol c h :: trail pol (handle pol c h) hs

theorem trail_concat (pol : Policy) (h : Handled Sym P T B) (hs : List (Handled Sym P T B)) : ∀ c : Session Sym P,
    trail pol c (hs ++ [h]) = trail pol c hs ++ [handle pol (hs.foldl (handle pol) c) h] := by
  induction hs with
  | nil => intro c; rfl
  | cons h' hs ih =>
    intro c
    rw [List.cons_append, trail, trail, ih, List.foldl_cons, List.cons_append]

theorem trail_take (pol : Policy) (hs : List (Handled Sym P T B)) : ∀ (c : Session Sym P) (n : ℕ),
    (trail pol c hs).take n = trail pol c (hs.take n) := by
  induction hs with
  | nil => intro c n; rw [trail, List.take_nil, List.take_nil, trail]
  | cons h hs ih =>
    intro c n
    cases n with
    | zero => rfl
    | succ n => rw [trail, List.take_succ_cons, List.take_succ_cons, trail, ih]

/-! ## The invariant -/

/-- The control plane is its own history; each queue holds what was accepted and is not popped. -/
structure Inv (S : Plane) (s : UserSession Sym P T B) : Prop where
  core : s.core = (s.history.map Prod.fst).foldl (handle S.pol) .new
  trail : s.history.map Prod.snd = trail S.pol .new (s.history.map Prod.fst)
  typed : ∀ k, ∀ x ∈ s.queues k, x.type = k
  fifo : ∀ k, s.poppedOf k ++ s.queues k = s.acceptedOf k

section Steps

variable {S : Plane} {s : UserSession Sym P T B}

theorem Inv.inbox (h : Inv S s) (rest : List (Routed Sym T B)) : Inv S { s with inbox := rest } :=
  ⟨h.core, h.trail, h.typed, h.fifo⟩

theorem Inv.advance (h : Inv S s) (a : Handled Sym P T B) : Inv S (s.advance S a) := by
  refine ⟨?_, ?_, h.typed, h.fifo⟩
  · show handle S.pol s.core a = ((s.history ++ [_]).map Prod.fst).foldl (handle S.pol) .new
    rw [List.map_append, List.map_singleton, List.foldl_append, ← h.core]
    rfl
  · show (s.history ++ [_]).map Prod.snd = UserSession.trail S.pol .new ((s.history ++ [_]).map Prod.fst)
    rw [List.map_append, List.map_append, List.map_singleton, List.map_singleton, trail_concat, ← h.trail, ← h.core]

omit [DecidableEq Sym] in
/-- A push that succeeds appends to the queue of its type, one that fails is only noted. -/
theorem push_cases (S : Plane) (s : UserSession Sym P T B) (x : Item Sym T B) :
    ((s.queues x.type).length < S.capacity x.type ∧ s.push S x = (true, { s with
      queues := Function.update s.queues x.type (s.queues x.type ++ [x]), received := s.received ++ [(x, true)] })) ∨
    (S.capacity x.type ≤ (s.queues x.type).length ∧
      s.push S x = (false, { s with received := s.received ++ [(x, false)] })) := by
  unfold push
  by_cases hlt : (s.queues x.type).length < S.capacity x.type
  · rw [Fifo.push_some hlt]
    exact Or.inl ⟨hlt, rfl⟩
  · rw [Fifo.push_none (by omega)]
    exact Or.inr ⟨by omega, rfl⟩

theorem Inv.push (h : Inv S s) (x : Item Sym T B) : Inv S (s.push S x).2 := by
  rcases push_cases S s x with ⟨-, he⟩ | ⟨-, he⟩
  · rw [he]
    refine ⟨h.core, h.trail, fun k y hy => ?_, fun k => ?_⟩
    · dsimp only at hy
      by_cases hk : k = x.type
      · subst hk
        rw [Function.update_self, List.mem_append, List.mem_singleton] at hy
        rcases hy with hy | rfl
        · exact h.typed _ y hy
        · rfl
      · rw [Function.update_of_ne hk] at hy
        exact h.typed k y hy
    · have hf := h.fifo k
      show s.poppedOf k ++ Function.update s.queues x.type (s.queues x.type ++ [x]) k = _
      unfold acceptedOf at hf ⊢
      rw [List.filter_append, List.map_append, ← hf]
      by_cases hk : k = x.type
      · subst hk
        rw [Function.update_self, List.append_assoc]
        simp
      · rw [Function.update_of_ne hk, List.filter_singleton]
        simp [Ne.symm hk]
  · rw [he]
    refine ⟨h.core, h.trail, h.typed, fun k => ?_⟩
    have hf := h.fifo k
    show s.poppedOf k ++ s.queues k = _
    unfold acceptedOf at hf ⊢
    rw [List.filter_append, List.map_append, ← hf]
    simp

theorem Inv.pop (h : Inv S s) (k : DataType) : Inv S (s.pop k) := by
  unfold UserSession.pop
  cases hq : s.queues k with
  | nil => exact h
  | cons x q =>
    have hx : x.type = k := h.typed k x (by rw [hq]; exact List.mem_cons_self)
    refine ⟨h.core, h.trail, fun k' y hy => ?_, fun k' => ?_⟩
    · dsimp only at hy
      by_cases hk : k' = k
      · subst hk
        rw [Function.update_self] at hy
        exact h.typed k' y (by rw [hq]; exact List.mem_cons_of_mem x hy)
      · rw [Function.update_of_ne hk] at hy
        exact h.typed k' y hy
    · have hf := h.fifo k'
      show ((s.popped ++ [x]).filter _) ++ Function.update s.queues k q k' = s.acceptedOf k'
      rw [← hf, List.filter_append]
      by_cases hk : k' = k
      · subst hk
        rw [Function.update_self, hq, List.append_assoc]
        simp [hx, poppedOf]
      · rw [Function.update_of_ne hk]
        have hne : x.type ≠ k' := fun he => hk (he.symm.trans hx)
        simp [hne, poppedOf]

theorem Inv.onMessage (h : Inv S s) (m : Routed Sym T B) : Inv S (s.onMessage S m).2 := by
  have h1 := h.advance (.message m)
  cases m with
  | item x => exact h1.push x
  | subscribeAck ch id sym success => exact h1
  | unsubscribeAck ch id sym success => exact h1
  | state => exact h1
  | result r => exact h1

theorem Inv.pollMessages (n : ℕ) : ∀ {s : UserSession Sym P T B}, Inv S s → Inv S (pollMessages S n s) := by
  induction n with
  | zero => intro s h; exact h
  | succ n ih =>
    intro s h
    unfold UserSession.pollMessages
    cases s.inbox with
    | nil => exact h
    | cons m rest =>
      have h1 := (h.inbox rest).onMessage m
      dsimp only
      split_ifs
      · exact h1
      · exact ih h1

theorem Inv.poll (h : Inv S s) (env : ℕ → Table.Order Sym P × (Request Sym P → Bool)) : Inv S (s.poll S env) := by
  refine Inv.pollMessages _ ?_
  unfold pollSignals
  generalize List.range s.core.signals.length = is
  induction is generalizing s with
  | nil => exact h
  | cons i is ih => exact ih (h.advance _)

theorem Inv.step (h : Inv S s) (ev : UserEvent Sym P T B) : Inv S (s.step S ev) := by
  cases ev with
  | event ev => exact h.advance _
  | receive m => exact h.inbox _
  | poll env => exact h.poll env
  | pop k => exact h.pop k

end Steps

theorem inv_after (S : Plane) (evs : List (UserEvent Sym P T B)) : Inv S (after S evs) := by
  unfold after
  induction evs using List.reverseRecOn with
  | nil => exact ⟨rfl, rfl, fun k x hx => absurd hx List.not_mem_nil, fun k => rfl⟩
  | append_singleton evs ev ih =>
    rw [List.foldl_append]
    exact ih.step ev

/-! ## Two runs -/

/-- **A slow user cannot disturb the protocol.**  As far as two runs handle the same calls, signals and messages in the
same order, their managers and replay databases are equal after each of them, whatever the user pops in between; and
what the user has popped of a type, followed by what waits in its queue, is what found a place there. -/
theorem slow_user_harmless (S : Plane) (evs evs' : List (UserEvent Sym P T B)) :
    (∀ n, ((after S evs).history.map Prod.fst).take n = ((after S evs').history.map Prod.fst).take n →
      ((after S evs).history.map fun h => (h.2.managers, h.2.replayDb)).take n =
        ((after S evs').history.map fun h => (h.2.managers, h.2.replayDb)).take n) ∧
    ∀ k, (after S evs).poppedOf k ++ (after S evs).queues k = (after S evs).acceptedOf k := by
  have h := inv_after S evs
  have h' := inv_after S evs'
  refine ⟨fun n hn => ?_, h.fifo⟩
  have hcores : ((after S evs).history.map Prod.snd).take n = ((after S evs').history.map Prod.snd).take n := by
    rw [h.trail, h'.trail, trail_take, trail_take, hn]
  have hmap := congrArg (List.map fun c : Session Sym P => (c.managers, c.replayDb)) hcores
  rw [List.map_take, List.map_take, List.map_map, List.map_map] at hmap
  exact hmap

/-- Room for one message of each type. -/
def oneEach : Plane := ⟨defaultPolicy, fun _ => 1, 2⟩

/-- A trade, then a trade and an ACK; the user may pop before the second trade comes. -/
def burst (pops : List (UserEvent ℕ Unit ℕ ℕ)) : List (UserEvent ℕ Unit ℕ ℕ) :=
  ([.event (.subscribe .trade (.single 7) fun _ => true), .receive (.item (.trade 1)),
    .poll fun _ => (id, fun _ => true)] : List (UserEvent ℕ Unit ℕ ℕ)) ++ pops ++
  ([.receive (.item (.trade 2)), .receive (.subscribeAck .trade 10 7 true), .poll fun _ => (id, fun _ => true),
    .poll fun _ => (id, fun _ => true), .pop .trade] : List (UserEvent ℕ Unit ℕ ℕ))

/-- One user loses the second trade, the other one gets it; the managers agree throughout. -/
theorem slow_user_harmless_burst :
    (after oneEach (burst [])).poppedOf .trade = [.trade 1] ∧
      (after oneEach (burst [.pop .trade])).poppedOf .trade = [.trade 1, .trade 2] ∧
      ((after oneEach (burst [])).history.map fun h => (h.2.managers, h.2.replayDb)).take 4 =
        ((after oneEach (burst [.pop .trade])).history.map fun h => (h.2.managers, h.2.replayDb)).take 4 := by
  refine ⟨by decide +kernel, by decide +kernel, ?_⟩
  have hsame : ∀ pops, pops = [] ∨ pops = [.pop .trade] → (after oneEach (burst pops)).history.map Prod.fst =
      [.event (.subscribe .trade (.single 7) fun _ => true), .message (.item (.trade 1)),
        .message (.item (.trade 2)), .message (.subscribeAck .trade 10 7 true)] := by
    rintro pops (rfl | rfl) <;> rfl
  refine (slow_user_harmless oneEach (burst []) (burst [.pop .trade])).1 4 ?_
  rw [hsame _ (Or.inl rfl), hsame _ (Or.inr rfl)]

end UserSession

end Wirekrak.Protocol

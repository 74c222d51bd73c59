import Wirekrak.Lib.Multimap
import Wirekrak.Protocol.Router

/-!
# Wirekrak.Protocol.Lite — the client with callbacks

The lite client owns a session, a dispatcher of callbacks per channel and the partitioner of trade responses.  Its
`poll` polls the session and then drains the three queues of the data plane: a rejection takes the callbacks of its
symbol away, on both channels, a trade response is cut into one view per symbol, and each view and each book goes to the
callbacks of its symbol.

* `calls`: every invocation of a callback, with the symbol it was registered for.
* `callbacks_see_their_data`: between two states of a run a callback is invoked, once per registration, with what was
  received for its symbol, as long as it is registered; a rejection ends the registrations of its symbol and no others.
-/

namespace Wirekrak.Protocol

open Wirekrak.Lib

variable {P D Cb : Type}

/-- `c_str()`: the text up to its first zero byte. -/
def Symbol.cStr (s : Symbol) : Symbol :=
  ⟨s.text.takeWhile (fun c => c ≠ '\x00'), (List.takeWhile_prefix _).length_le.trans s.property⟩

def orderTypeText : OrderType → Text
  | .limit => ['l', 'i', 'm', 'i', 't']
  | .market => ['m', 'a', 'r', 'k', 'e', 't']

/-! ## What a callback gets -/

/-- `lite::domain::Trade`; the tag is the type of the payload. -/
structure LiteTrade (D : Type) where
  tradeId : ℕ
  symbol : Text
  price : D
  quantity : D
  takerSide : Side
  timestampNs : BitVec 64
  orderType : Option Text
  tag : PayloadType
  deriving DecidableEq

/-- `lite::domain::BookLevel`. -/
structure BookLevel (D : Type) where
  symbol : Text
  bookSide : Side
  price : D
  quantity : D
  timestampNs : Option (BitVec 64)
  tag : PayloadType
  deriving DecidableEq

inductive Record (D : Type)
  | trade (t : LiteTrade D)
  | level (l : BookLevel D)
  deriving DecidableEq

def liteTrade (tag : PayloadType) (t : Trade D) : Record D :=
  .trade ⟨t.tradeId, t.symbol.cStr.text, t.price, t.qty, t.side, BitVec.ofInt 64 t.timestamp,
    t.ordType.map orderTypeText, tag⟩

def bookLevel (r : BookResponse D) (side : Side) (l : Level D) : Record D :=
  .level ⟨r.symbol.cStr.text, side, l.price, l.qty, r.timestamp.map (BitVec.ofInt 64), r.type⟩

/-- The levels of a book in the order they are emitted: asks, then bids. -/
def bookLevels (r : BookResponse D) : List (Record D) :=
  r.asks.map (bookLevel r .sell) ++ r.bids.map (bookLevel r .buy)

/-- An invocation of a callback. -/
structure Call (Cb D : Type) where
  channel : Channel
  callback : Cb
  symbol : Symbol
  record : Record D

/-! ## The dispatcher and the partitioner -/

abbrev Dispatcher (Cb : Type) := Multimap Symbol Cb

namespace Dispatcher

def add (d : Dispatcher Cb) (symbols : List Symbol) (cb : Cb) : Dispatcher Cb :=
  symbols.foldl (fun d s => d.push s cb) d

def remove (d : Dispatcher Cb) (s : Symbol) : Dispatcher Cb := AList.erase s d

def removeAll (d : Dispatcher Cb) (symbols : List Symbol) : Dispatcher Cb := symbols.foldl remove d

/-- A message of symbol `s` goes to the callbacks of `s`; each of them loops over its records. -/
def dispatch (d : Dispatcher Cb) (ch : Channel) (s : Symbol) (records : List (Record D)) : List (Call Cb D) :=
  (d.get s).flatMap fun cb => records.map fun r => ⟨ch, cb, s, r⟩

end Dispatcher

/-- `Partitioner::classify_`: the buckets of earlier responses stay, emptied. -/
def classify (buckets : Multimap Symbol (Trade D)) (r : TradeResponse D) : Multimap Symbol (Trade D) :=
  r.trades.foldl (fun m t => m.push t.symbol t) buckets.clearValues

/-! ## The client -/

/-- What the client keeps besides its session. -/
structure Behavior (Cb D : Type) where
  dispatchers : Channel → Dispatcher Cb := fun _ => ∅
  buckets : Multimap Symbol (Trade D) := ∅
  errorCb : Bool := false
  calls : List (Call Cb D) := []
  errors : List Text := []

namespace Behavior

/-- A drained message. -/
def deliver (it : Iteration (Σ _ : Symbol, List (Trade D))) (b : Behavior Cb D) :
    Item Symbol (TradeResponse D) (BookResponse D) → Behavior Cb D
  | .rejection n => { b with
      dispatchers := match n.symbol with
        | some s => fun ch => (b.dispatchers ch).remove s.cStr
        | none => b.dispatchers
      errors := if b.errorCb then b.errors ++ [n.error] else b.errors }
  | .trade r => { b with
      buckets := classify b.buckets r
      calls := b.calls ++ (it.arrange (classify b.buckets r).entries).flatMap fun view =>
        (b.dispatchers .trade).dispatch .trade view.1 (view.2.map (liteTrade r.type)) }
  | .book r => { b with calls := b.calls ++ (b.dispatchers .book).dispatch .book r.symbol (bookLevels r) }

/-- The callbacks registered for a symbol. -/
def callbacks (b : Behavior Cb D) (ch : Channel) (s : Symbol) : List Cb := (b.dispatchers ch).get s

/-- The records that callback `c` got for symbol `s`. -/
def callsOf [DecidableEq Cb] (b : Behavior Cb D) (ch : Channel) (s : Symbol) (c : Cb) : List (Record D) :=
  (b.calls.filter fun k => k.channel = ch ∧ k.symbol = s ∧ k.callback = c).map Call.record

end Behavior

structure LiteClient (P Cb D : Type) where
  session : UserSession Symbol P (TradeResponse D) (BookResponse D) := {}
  behavior : Behavior Cb D := {}

/-- The data plane of the default session: the rings are declared with 1024 slots, of which one stays free. -/
def litePlane (pol : Policy) : Plane := ⟨pol, fun _ => 1023, 128⟩

namespace LiteClient

/-- `dp.drain`: pop and deliver until the queue is empty. -/
def drain (it : Iteration (Σ _ : Symbol, List (Trade D))) (k : DataType) (u : LiteClient P Cb D) : LiteClient P Cb D :=
  (u.session.queues k).foldl (fun u x => ⟨u.session.pop k, u.behavior.deliver it x⟩) u

def poll (pol : Policy) (env : ℕ → Table.Order Symbol P × (Request Symbol P → Bool))
    (it : Iteration (Σ _ : Symbol, List (Trade D))) (u : LiteClient P Cb D) : LiteClient P Cb D :=
  (((LiteClient.mk (u.session.poll (litePlane pol) env) u.behavior).drain it .rejection).drain it .trade).drain it .book

end LiteClient

/-- Calls of the user, events of the transport and messages of the server. -/
inductive LiteEvent (P Cb D : Type)
  | subscribe (ch : Channel) (symbols : List Symbol) (cb : Cb) (params : P) (accept : Request Symbol P → Bool)
  | unsubscribe (ch : Channel) (symbols : List Symbol) (params : P) (accept : Request Symbol P → Bool)
  | onError
  | transport (ev : Event Symbol P)
  | receive (m : Routed Symbol (TradeResponse D) (BookResponse D))
  | poll (env : ℕ → Table.Order Symbol P × (Request Symbol P → Bool)) (it : Iteration (Σ _ : Symbol, List (Trade D)))

namespace LiteClient

def step (pol : Policy) (u : LiteClient P Cb D) : LiteEvent P Cb D → LiteClient P Cb D
  | .subscribe ch symbols cb params accept =>
    ⟨u.session.step (litePlane pol) (.event (.subscribe ch ⟨symbols, none, params⟩ accept)),
      { u.behavior with
        dispatchers := Function.update u.behavior.dispatchers ch ((u.behavior.dispatchers ch).add symbols cb) }⟩
  | .unsubscribe ch symbols params accept =>
    ⟨u.session.step (litePlane pol) (.event (.unsubscribe ch ⟨symbols, none, params⟩ accept)),
      { u.behavior with
        dispatchers := Function.update u.behavior.dispatchers ch ((u.behavior.dispatchers ch).removeAll symbols) }⟩
  | .onError => ⟨u.session, { u.behavior with errorCb := true }⟩
  | .transport ev => ⟨u.session.step (litePlane pol) (.event ev), u.behavior⟩
  | .receive m => ⟨u.session.step (litePlane pol) (.receive m), u.behavior⟩
  | .poll env it => u.poll pol env it

def after (pol : Policy) (evs : List (LiteEvent P Cb D)) : LiteClient P Cb D := evs.foldl (step pol) {}

/-- The messages for the user, in the order the session took them from the transport. -/
def received (u : LiteClient P Cb D) : List (Item Symbol (TradeResponse D) (BookResponse D)) :=
  u.session.received.map Prod.fst

end LiteClient

/-! ## The session under the client -/

section Session

variable {Sym T B : Type}

/-- Between two states of a session the items `new` were received, and each has its place in the queue of its type. -/
structure Gained (s s' : UserSession Sym P T B) (new : List (Item Sym T B)) : Prop where
  received : s'.received.map Prod.fst = s.received.map Prod.fst ++ new
  queues : ∀ k, s'.queues k = s.queues k ++ new.filter (fun x => x.type = k)

theorem Gained.of_eq {s s' : UserSession Sym P T B} (hr : s'.received = s.received) (hq : s'.queues = s.queues) :
    Gained s s' [] := by
  constructor
  · rw [hr, List.append_nil]
  · intro k
    rw [hq, List.filter_nil, List.append_nil]

theorem Gained.trans {s₁ s₂ s₃ : UserSession Sym P T B} {new new' : List (Item Sym T B)} (h : Gained s₁ s₂ new)
    (h' : Gained s₂ s₃ new') : Gained s₁ s₃ (new ++ new') := by
  constructor
  · rw [h'.received, h.received, List.append_assoc]
  · intro k
    rw [h'.queues, h.queues, List.filter_append, List.append_assoc]

theorem Gained.push {S : Plane} {s : UserSession Sym P T B} {x : Item Sym T B}
    (hroom : (s.queues x.type).length < S.capacity x.type) : Gained s (s.push S x).2 [x] := by
  obtain ⟨-, he⟩ | ⟨hfull, -⟩ := UserSession.push_cases S s x
  · rw [he]
    constructor
    · show (s.received ++ [(x, true)]).map Prod.fst = _
      rw [List.map_append, List.map_singleton]
    · intro k
      show Function.update s.queues x.type _ k = _
      by_cases hk : k = x.type
      · subst hk
        rw [Function.update_self, List.filter_singleton]
        simp
      · rw [Function.update_of_ne hk, List.filter_singleton]
        simp [Ne.symm hk]
  · omega

variable [DecidableEq Sym]

/-- A message adds at most one item. -/
theorem exists_gained_onMessage {S : Plane} {s : UserSession Sym P T B} (m : Routed Sym T B)
    (hroom : ∀ k, (s.queues k).length < S.capacity k) :
    ∃ new, Gained s (s.onMessage S m).2 new ∧ new.length ≤ 1 := by
  have h1 : Gained s (s.advance S (.message m)) [] := .of_eq rfl rfl
  cases m with
  | item x => exact ⟨[x], h1.trans (.push (hroom x.type)), le_rfl⟩
  | subscribeAck ch id sym success => exact ⟨[], h1, Nat.zero_le 1⟩
  | unsubscribeAck ch id sym success => exact ⟨[], h1, Nat.zero_le 1⟩
  | state => exact ⟨[], h1, Nat.zero_le 1⟩
  | result r => exact ⟨[], h1, Nat.zero_le 1⟩

/-- While each queue has a place per message left, nothing is dropped. -/
theorem exists_gained_pollMessages {S : Plane} (n : ℕ) : ∀ {s : UserSession Sym P T B},
    (∀ k, (s.queues k).length + n ≤ S.capacity k) → ∃ new, Gained s (s.pollMessages S n) new := by
  induction n with
  | zero => exact fun _ => ⟨[], .of_eq rfl rfl⟩
  | succ n ih =>
    intro s hroom
    unfold UserSession.pollMessages
    cases s.inbox with
    | nil => exact ⟨[], .of_eq rfl rfl⟩
    | cons m rest =>
      have h0 : Gained s { s with inbox := rest } [] := .of_eq rfl rfl
      obtain ⟨new, hnew, hlen⟩ := exists_gained_onMessage (S := S) (s := { s with inbox := rest }) m
        fun k => Nat.lt_of_lt_of_le (Nat.lt_add_of_pos_right (Nat.succ_pos n)) (hroom k)
      dsimp only
      split_ifs
      · exact ⟨_, h0.trans hnew⟩
      · obtain ⟨new', hnew'⟩ := ih (s := (UserSession.onMessage S { s with inbox := rest } m).2) (by
          intro k
          have hk := hroom k
          have hle := List.length_filter_le (fun x : Item Sym T B => decide (x.type = k)) new
          rw [hnew.queues k, List.length_append]
          show (s.queues k).length + _ + n ≤ _
          omega)
        exact ⟨_, h0.trans (hnew.trans hnew')⟩

theorem exists_gained_poll {S : Plane} {s : UserSession Sym P T B}
    (env : ℕ → Table.Order Sym P × (Request Sym P → Bool))
    (hroom : ∀ k, (s.queues k).length + S.maxMessagesPerPoll ≤ S.capacity k) : ∃ new, Gained s (s.poll S env) new := by
  have hsignals : ∀ (is : List ℕ) (s : UserSession Sym P T B),
      Gained s (is.foldl (fun s i => s.advance S (.event (.pollSignal (env i).1 (env i).2))) s) [] := by
    intro is
    induction is with
    | nil => exact fun s => .of_eq rfl rfl
    | cons i is ih =>
      intro s
      have h1 : Gained s (s.advance S (.event (.pollSignal (env i).1 (env i).2))) [] := .of_eq rfl rfl
      exact h1.trans (ih _)
  have h1 := hsignals (List.range s.core.signals.length) s
  obtain ⟨new, hnew⟩ := exists_gained_pollMessages (S := S) S.maxMessagesPerPoll (s := s.pollSignals S env) (by
    intro k
    rw [UserSession.pollSignals, h1.queues k, List.filter_nil, List.append_nil]
    exact hroom k)
  exact ⟨_, h1.trans hnew⟩

omit [DecidableEq Sym] in
/-- Popping as often as the queue is long empties it. -/
theorem foldl_pop (k : DataType) : ∀ {xs : List (Item Sym T B)} {s : UserSession Sym P T B}, s.queues k = xs →
    (xs.foldl (fun s _ => s.pop k) s).queues = Function.update s.queues k [] ∧
      (xs.foldl (fun s _ => s.pop k) s).received = s.received := by
  intro xs
  induction xs with
  | nil =>
    intro s hq
    refine ⟨?_, rfl⟩
    rw [List.foldl_nil, ← hq, Function.update_eq_self]
  | cons x xs ih =>
    intro s hq
    have hpop : s.pop k = { s with queues := Function.update s.queues k xs, popped := s.popped ++ [x] } := by
      rw [UserSession.pop, hq]
    obtain ⟨h1, h2⟩ := ih (s := s.pop k) (by rw [hpop]; exact Function.update_self ..)
    rw [List.foldl_cons, h1, h2, hpop, Function.update_idem]
    exact ⟨rfl, rfl⟩

end Session

/-! ## What a delivered message does -/

/-- What a message has for symbol `s` of channel `ch`. -/
def Item.records (ch : Channel) (s : Symbol) : Item Symbol (TradeResponse D) (BookResponse D) → List (Record D)
  | .trade r => if ch = .trade then (r.trades.filter fun t => t.symbol = s).map (liteTrade r.type) else []
  | .book r => if ch = .book ∧ r.symbol = s then bookLevels r else []
  | .rejection _ => []

/-- The message is a rejection that names symbol `s`. -/
def Item.Rejects (s : Symbol) : Item Symbol (TradeResponse D) (BookResponse D) → Prop
  | .rejection n => n.symbol.map Symbol.cStr = some s
  | _ => False

instance (s : Symbol) (x : Item Symbol (TradeResponse D) (BookResponse D)) : Decidable (x.Rejects s) :=
  match x with
  | .rejection n => inferInstanceAs (Decidable (n.symbol.map Symbol.cStr = some s))
  | .trade _ | .book _ => inferInstanceAs (Decidable False)

namespace Behavior

variable {it : Iteration (Σ _ : Symbol, List (Trade D))} {b : Behavior Cb D}

/-- A rejection takes the callbacks of its symbol away, on both channels; nothing else changes the dispatchers. -/
theorem callbacks_deliver (x : Item Symbol (TradeResponse D) (BookResponse D)) (ch : Channel) (s : Symbol) :
    (b.deliver it x).callbacks ch s = if x.Rejects s then [] else b.callbacks ch s := by
  cases x with
  | trade r => rfl
  | book r => rfl
  | rejection n =>
    obtain ⟨error, reqId, symbol⟩ := n
    cases symbol with
    | none => rfl
    | some t =>
      show Multimap.get (AList.erase t.cStr (b.dispatchers ch)) s = if some t.cStr = some s then [] else _
      rw [Multimap.get_erase]
      simp only [Option.some_inj, eq_comm, callbacks]

variable [DecidableEq Cb]

theorem callsOf_append {calls calls' : List (Call Cb D)} (ch : Channel) (s : Symbol) (c : Cb) :
    callsOf { b with calls := calls ++ calls' } ch s c =
      callsOf { b with calls := calls } ch s c ++ callsOf { b with calls := calls' } ch s c := by
  unfold callsOf
  rw [List.filter_append, List.map_append]

theorem callsOf_flatMap {α : Type} (l : List α) (f : α → List (Call Cb D)) (ch : Channel) (s : Symbol) (c : Cb) :
    callsOf { b with calls := l.flatMap f } ch s c = l.flatMap fun a => callsOf { b with calls := f a } ch s c := by
  induction l with
  | nil => rfl
  | cons a l ih => rw [List.flatMap_cons, callsOf_append, ih, List.flatMap_cons]

/-- Each registration of `c` gets the records once. -/
theorem callsOf_dispatch (d : Dispatcher Cb) (ch : Channel) (s : Symbol) (c : Cb) (records : List (Record D)) :
    callsOf { b with calls := d.dispatch ch s records } ch s c =
      (List.replicate ((d.get s).count c) records).flatten := by
  unfold callsOf Dispatcher.dispatch
  dsimp only
  induction d.get s with
  | nil => rfl
  | cons cb cbs ih =>
    rw [List.flatMap_cons, List.filter_append, List.map_append, ih, List.count_cons]
    by_cases h : cb = c
    · subst h
      simp [List.filter_map, Function.comp_def, List.replicate_succ]
    · simp [List.filter_map, Function.comp_def, h]

theorem callsOf_dispatch_ne (d : Dispatcher Cb) {ch ch' : Channel} {s s' : Symbol} (h : ch' ≠ ch ∨ s' ≠ s) (c : Cb)
    (records : List (Record D)) : callsOf { b with calls := d.dispatch ch' s' records } ch s c = [] := by
  unfold callsOf Dispatcher.dispatch
  rw [List.map_eq_nil_iff, List.filter_eq_nil_iff]
  intro k hk
  simp only [List.mem_flatMap, List.mem_map] at hk
  obtain ⟨cb, -, r, -, rfl⟩ := hk
  simp only [decide_eq_true_eq]
  rintro ⟨rfl, rfl, -⟩
  exact h.elim (· rfl) (· rfl)

theorem get_classify (buckets : Multimap Symbol (Trade D)) (r : TradeResponse D) (s : Symbol) :
    (classify buckets r).get s = r.trades.filter fun t => t.symbol = s := by
  refine (Multimap.get_foldl_push (fun t : Trade D => t.symbol) r.trades s buckets.clearValues).trans ?_
  rw [Multimap.get_clearValues, List.nil_append]

/-- The records of a delivered message reach the callbacks registered for their symbol, in order. -/
theorem callsOf_deliver (x : Item Symbol (TradeResponse D) (BookResponse D)) (ch : Channel) (s : Symbol) (c : Cb) :
    (b.deliver it x).callsOf ch s c =
      b.callsOf ch s c ++ (List.replicate ((b.callbacks ch s).count c) (x.records ch s)).flatten := by
  cases x with
  | rejection n =>
    rw [Item.records, List.flatten_replicate_nil, List.append_nil]
    rfl
  | book r =>
    refine (callsOf_append ch s c).trans (congrArg _ ?_)
    dsimp only [Item.records]
    by_cases h : ch = .book ∧ r.symbol = s
    · obtain ⟨rfl, rfl⟩ := h
      rw [callsOf_dispatch, if_pos ⟨rfl, rfl⟩]
      rfl
    · rw [callsOf_dispatch_ne _ (by tauto), if_neg h, List.flatten_replicate_nil]
  | trade r =>
    refine (callsOf_append ch s c).trans (congrArg _ ?_)
    rw [callsOf_flatMap]
    dsimp only [Item.records]
    by_cases h : ch = .trade
    · subst h
      -- only the view of `s` matters, and there is at most one
      rw [Multimap.flatMap_arrange (k := s) _ _ (fun view hne => callsOf_dispatch_ne _ (.inr hne) c _)
        (by rw [callsOf_dispatch, List.map_nil, List.flatten_replicate_nil]),
        callsOf_dispatch, get_classify, if_pos rfl]
      rfl
    · rw [if_neg h, List.flatten_replicate_nil]
      exact List.flatMap_eq_nil_iff.mpr fun view _ => callsOf_dispatch_ne _ (.inl (Ne.symm h)) c _

omit [DecidableEq Cb] in
theorem callbacks_foldl (ch : Channel) (s : Symbol) (xs : List (Item Symbol (TradeResponse D) (BookResponse D))) :
    ∀ b : Behavior Cb D,
      (xs.foldl (deliver it) b).callbacks ch s = if ∃ x ∈ xs, x.Rejects s then [] else b.callbacks ch s := by
  induction xs with
  | nil =>
    intro b
    rw [List.foldl_nil, if_neg (by simp)]
  | cons x xs ih =>
    intro b
    rw [List.foldl_cons, ih, callbacks_deliver]
    by_cases h : x.Rejects s
    · simp [h]
    · simp [h]

/-- As long as no rejection names `s`, its callbacks get what is delivered. -/
theorem callsOf_foldl (ch : Channel) (s : Symbol) (c : Cb)
    (xs : List (Item Symbol (TradeResponse D) (BookResponse D))) (hxs : ∀ x ∈ xs, ¬ x.Rejects s) :
    ∀ b : Behavior Cb D, (xs.foldl (deliver it) b).callsOf ch s c = b.callsOf ch s c ++
      xs.flatMap fun x => (List.replicate ((b.callbacks ch s).count c) (x.records ch s)).flatten := by
  induction xs with
  | nil =>
    intro b
    rw [List.foldl_nil, List.flatMap_nil, List.append_nil]
  | cons x xs ih =>
    intro b
    rw [List.foldl_cons, ih (fun y hy => hxs y (List.mem_cons_of_mem x hy)), callsOf_deliver, callbacks_deliver,
      if_neg (hxs x List.mem_cons_self), List.flatMap_cons, List.append_assoc]

/-- Rejections invoke no callback. -/
theorem callsOf_foldl_rejections (ch : Channel) (s : Symbol) (c : Cb)
    (xs : List (Item Symbol (TradeResponse D) (BookResponse D))) (hxs : ∀ x ∈ xs, x.type = .rejection) :
    ∀ b : Behavior Cb D, (xs.foldl (deliver it) b).callsOf ch s c = b.callsOf ch s c := by
  induction xs with
  | nil => exact fun b => rfl
  | cons x xs ih =>
    intro b
    have hx := hxs x List.mem_cons_self
    rw [List.foldl_cons, ih (fun y hy => hxs y (List.mem_cons_of_mem x hy))]
    cases x with
    | rejection n => rfl
    | trade r => cases hx
    | book r => cases hx

/-- A callback that is not registered is not invoked. -/
theorem callsOf_foldl_unregistered (ch : Channel) (s : Symbol) (c : Cb)
    (xs : List (Item Symbol (TradeResponse D) (BookResponse D))) : ∀ b : Behavior Cb D,
    c ∉ b.callbacks ch s → (xs.foldl (deliver it) b).callsOf ch s c = b.callsOf ch s c := by
  induction xs with
  | nil => exact fun b _ => rfl
  | cons x xs ih =>
    intro b hc
    have hc' : c ∉ (b.deliver it x).callbacks ch s := by
      rw [callbacks_deliver]
      split_ifs
      · exact List.not_mem_nil
      · exact hc
    rw [List.foldl_cons, ih _ hc', callsOf_deliver, List.count_eq_zero_of_not_mem hc, List.replicate_zero,
      List.flatten_nil, List.append_nil]

end Behavior

/-! ## Steps -/

namespace LiteClient

/-- Nothing waits in the data plane. -/
def Drained (u : LiteClient P Cb D) : Prop := ∀ k, u.session.queues k = []

/-- The messages of a poll in the order they are delivered. -/
def drainOrder (new : List (Item Symbol (TradeResponse D) (BookResponse D))) :
    List (Item Symbol (TradeResponse D) (BookResponse D)) :=
  new.filter (fun x => x.type = .rejection) ++ new.filter (fun x => x.type = .trade) ++
    new.filter (fun x => x.type = .book)

theorem mem_drainOrder {new : List (Item Symbol (TradeResponse D) (BookResponse D))}
    {x : Item Symbol (TradeResponse D) (BookResponse D)} : x ∈ drainOrder new ↔ x ∈ new := by
  unfold drainOrder
  simp only [List.mem_append, List.mem_filter, decide_eq_true_eq]
  cases x <;> simp [Item.type]

theorem flatMap_filter_of_nil {α β : Type} {p : α → Bool} {g : α → List β} (h : ∀ x, p x = false → g x = [])
    (l : List α) : (l.filter p).flatMap g = l.flatMap g := by
  induction l with
  | nil => rfl
  | cons x l ih =>
    cases hx : p x with
    | true => rw [List.filter_cons_of_pos hx, List.flatMap_cons, List.flatMap_cons, ih]
    | false => rw [List.filter_cons_of_neg (by simp [hx]), List.flatMap_cons, h x hx, List.nil_append, ih]

/-- The type of the messages that have records for a channel. -/
def dataType : Channel → DataType
  | .trade => .trade
  | .book => .book

theorem records_of_type_ne {ch : Channel} {s : Symbol} {x : Item Symbol (TradeResponse D) (BookResponse D)}
    (h : x.type ≠ dataType ch) : x.records ch s = [] := by
  cases x <;> cases ch <;> first | rfl | exact absurd rfl h

/-- Each channel has its records from messages of one type, so that draining by type keeps their order. -/
theorem flatMap_drainOrder (n : ℕ) (ch : Channel) (s : Symbol)
    (new : List (Item Symbol (TradeResponse D) (BookResponse D))) :
    ((drainOrder new).flatMap fun x => (List.replicate n (x.records ch s)).flatten) =
      new.flatMap fun x => (List.replicate n (x.records ch s)).flatten := by
  have hnil : ∀ x : Item Symbol (TradeResponse D) (BookResponse D), x.type ≠ dataType ch →
      (List.replicate n (x.records ch s)).flatten = [] := by
    intro x hx
    rw [records_of_type_ne hx, List.flatten_replicate_nil]
  have hother : ∀ k, k ≠ dataType ch →
      (new.filter fun x => x.type = k).flatMap (fun x => (List.replicate n (x.records ch s)).flatten) = [] := by
    intro k hk
    refine List.flatMap_eq_nil_iff.mpr fun x hx => hnil x ?_
    rw [(by simpa using (List.mem_filter.mp hx).2 : x.type = k)]
    exact hk
  have hsame := flatMap_filter_of_nil (p := fun x => decide (x.type = dataType ch))
    (fun x hx => hnil x (by simpa using hx)) new
  unfold drainOrder
  rw [List.flatMap_append, List.flatMap_append]
  cases ch with
  | trade => rw [hother .rejection nofun, hother .book nofun, List.nil_append, List.append_nil]; exact hsame
  | book => rw [hother .rejection nofun, hother .trade nofun, List.nil_append]; exact hsame

theorem drain_spec (it : Iteration (Σ _ : Symbol, List (Trade D))) (k : DataType) (u : LiteClient P Cb D) :
    (u.drain it k).session.queues = Function.update u.session.queues k [] ∧
      (u.drain it k).received = u.received ∧
      (u.drain it k).behavior = (u.session.queues k).foldl (Behavior.deliver it) u.behavior := by
  have hsplit : ∀ (xs : List (Item Symbol (TradeResponse D) (BookResponse D))) (u : LiteClient P Cb D),
      xs.foldl (fun u x => ⟨u.session.pop k, u.behavior.deliver it x⟩) u =
        (⟨xs.foldl (fun s _ => s.pop k) u.session, xs.foldl (Behavior.deliver it) u.behavior⟩ : LiteClient P Cb D) := by
    intro xs
    induction xs with
    | nil => exact fun u => rfl
    | cons x xs ih => exact fun u => ih _
  obtain ⟨h1, h2⟩ := foldl_pop k (s := u.session) rfl
  unfold drain received
  rw [hsplit, h1, h2]
  exact ⟨rfl, rfl, rfl⟩

theorem poll_spec (pol : Policy) (env : ℕ → Table.Order Symbol P × (Request Symbol P → Bool))
    (it : Iteration (Σ _ : Symbol, List (Trade D))) {u : LiteClient P Cb D} (hu : u.Drained) :
    ∃ new, (u.poll pol env it).received = u.received ++ new ∧ (u.poll pol env it).Drained ∧
      (u.poll pol env it).behavior = (drainOrder new).foldl (Behavior.deliver it) u.behavior := by
  obtain ⟨new, hnew⟩ := exists_gained_poll (S := litePlane pol) (s := u.session) env (by
    intro k
    rw [hu k]
    show 0 + 128 ≤ 1023
    omega)
  refine ⟨new, ?_⟩
  unfold poll
  set u0 : LiteClient P Cb D := ⟨u.session.poll (litePlane pol) env, u.behavior⟩ with hu0
  have hq : ∀ k, u0.session.queues k = new.filter (fun x => x.type = k) := by
    intro k
    rw [hu0, hnew.queues k, hu k, List.nil_append]
  have hr : u0.received = u.received ++ new := hnew.received
  obtain ⟨q1, r1, b1⟩ := drain_spec it .rejection u0
  obtain ⟨q2, r2, b2⟩ := drain_spec it .trade (u0.drain it .rejection)
  obtain ⟨q3, r3, b3⟩ := drain_spec it .book ((u0.drain it .rejection).drain it .trade)
  refine ⟨?_, ?_, ?_⟩
  · rw [r3, r2, r1, hr]
  · intro k
    rw [q3, q2, q1]
    cases k <;> rfl
  · rw [b3, b2, b1, q2, q1, drainOrder, List.foldl_append, List.foldl_append, ← hq, ← hq, ← hq]
    rfl

end LiteClient

/-- The event changes the registrations of callback `c` for symbol `s`. -/
def LiteEvent.Concerns (ch : Channel) (s : Symbol) (c : Cb) : LiteEvent P Cb D → Prop
  | .subscribe ch' symbols cb _ _ => ch' = ch ∧ s ∈ symbols ∧ cb = c
  | .unsubscribe ch' symbols _ _ => ch' = ch ∧ s ∈ symbols
  | _ => False

namespace LiteClient

variable [DecidableEq Cb]

/-- Between two states the messages `new` were received, and callback `c` was invoked, once per registration, with what
the messages `live` have for `s`: all of `new`, or those before a rejection of `s`, which ends the registrations. -/
structure Serves (ch : Channel) (s : Symbol) (c : Cb) (u u' : LiteClient P Cb D)
    (new live : List (Item Symbol (TradeResponse D) (BookResponse D))) : Prop where
  received : u'.received = u.received ++ new
  live_prefix : live <+: new
  live_eq : (∀ x ∈ new, ¬ x.Rejects s) → live = new
  unrejected : ∀ x ∈ live, ¬ x.Rejects s
  registered : (u'.behavior.callbacks ch s).count c =
    if ∃ x ∈ new, x.Rejects s then 0 else (u.behavior.callbacks ch s).count c
  calls : u'.behavior.callsOf ch s c = u.behavior.callsOf ch s c ++
    live.flatMap fun x => (List.replicate ((u.behavior.callbacks ch s).count c) (x.records ch s)).flatten

variable {ch : Channel} {s : Symbol} {c : Cb} {u u' u'' : LiteClient P Cb D}

theorem Serves.of_eq (hr : u'.received = u.received)
    (hc : (u'.behavior.callbacks ch s).count c = (u.behavior.callbacks ch s).count c)
    (hcalls : u'.behavior.callsOf ch s c = u.behavior.callsOf ch s c) : Serves ch s c u u' [] [] where
  received := by rw [hr, List.append_nil]
  live_prefix := List.prefix_rfl
  live_eq _ := rfl
  unrejected x hx := absurd hx List.not_mem_nil
  registered := by rw [hc, if_neg (by simp)]
  calls := by rw [hcalls, List.flatMap_nil, List.append_nil]

theorem Serves.trans {new live new' live' : List (Item Symbol (TradeResponse D) (BookResponse D))}
    (h : Serves ch s c u u' new live) (h' : Serves ch s c u' u'' new' live') :
    ∃ live'', Serves ch s c u u'' (new ++ new') live'' := by
  have hreceived : u''.received = u.received ++ (new ++ new') := by rw [h'.received, h.received, List.append_assoc]
  by_cases hrej : ∃ x ∈ new, x.Rejects s
  · have hzero : (u'.behavior.callbacks ch s).count c = 0 := by rw [h.registered, if_pos hrej]
    obtain ⟨x, hx, hxs⟩ := hrej
    refine ⟨live, hreceived, h.live_prefix.trans (List.prefix_append _ _), ?_, h.unrejected, ?_, ?_⟩
    · intro hno
      exact absurd hxs (hno x (List.mem_append_left _ hx))
    · rw [h'.registered, hzero, ite_self, if_pos ⟨x, List.mem_append_left _ hx, hxs⟩]
    · rw [h'.calls, h.calls, hzero]
      simp
  · have hcount : (u'.behavior.callbacks ch s).count c = (u.behavior.callbacks ch s).count c := by
      rw [h.registered, if_neg hrej]
    push Not at hrej
    have hlive := h.live_eq hrej
    subst hlive
    refine ⟨live ++ live', hreceived, (List.prefix_append_right_inj _).mpr h'.live_prefix, ?_, ?_, ?_, ?_⟩
    · intro hno
      rw [h'.live_eq fun x hx => hno x (List.mem_append_right _ hx)]
    · intro x hx
      rcases List.mem_append.mp hx with hx | hx
      · exact hrej x hx
      · exact h'.unrejected x hx
    · rw [h'.registered, hcount]
      have hiff : (∃ x ∈ live ++ new', x.Rejects s) ↔ ∃ x ∈ new', x.Rejects s := by
        simp only [List.mem_append, or_and_right, exists_or]
        exact or_iff_right fun ⟨x, hx, hxs⟩ => hrej x hx hxs
      simp only [hiff]
    · rw [h'.calls, h.calls, hcount, List.flatMap_append, List.append_assoc]

/-- One poll: the rejections come first. -/
theorem exists_serves_poll {pol : Policy} {env : ℕ → Table.Order Symbol P × (Request Symbol P → Bool)}
    {it : Iteration (Σ _ : Symbol, List (Trade D))} (hu : u.Drained) :
    ∃ new live, Serves ch s c u (u.poll pol env it) new live := by
  obtain ⟨new, hreceived, -, hb⟩ := poll_spec pol env it hu
  have hregistered : ((u.poll pol env it).behavior.callbacks ch s).count c =
      if ∃ x ∈ new, x.Rejects s then 0 else (u.behavior.callbacks ch s).count c := by
    rw [hb, Behavior.callbacks_foldl]
    simp only [mem_drainOrder]
    split_ifs
    · rfl
    · rfl
  by_cases hrej : ∃ x ∈ new, x.Rejects s
  · refine ⟨new, [], hreceived, List.nil_prefix, ?_, fun x hx => absurd hx List.not_mem_nil, hregistered, ?_⟩
    · intro hno
      obtain ⟨x, hx, hxs⟩ := hrej
      exact absurd hxs (hno x hx)
    · rw [hb, drainOrder, List.append_assoc, List.foldl_append, Behavior.callsOf_foldl_unregistered,
        Behavior.callsOf_foldl_rejections, List.flatMap_nil, List.append_nil]
      · intro x hx
        simpa using (List.mem_filter.mp hx).2
      · obtain ⟨x, hx, hxs⟩ := hrej
        rw [Behavior.callbacks_foldl, if_pos]
        · exact List.not_mem_nil
        · refine ⟨x, List.mem_filter.mpr ⟨hx, ?_⟩, hxs⟩
          cases x with
          | rejection n => rfl
          | trade r => cases hxs
          | book r => cases hxs
  · have hno : ∀ x ∈ new, ¬ x.Rejects s := fun x hx hxs => hrej ⟨x, hx, hxs⟩
    refine ⟨new, new, hreceived, List.prefix_rfl, fun _ => rfl, hno, hregistered, ?_⟩
    rw [hb, Behavior.callsOf_foldl _ _ _ _ (fun x hx => hno x (mem_drainOrder.mp hx)), flatMap_drainOrder]

omit [DecidableEq Cb] in
theorem callbacks_subscribe (pol : Policy) (ch' : Channel) (symbols : List Symbol) (cb : Cb) (params : P)
    (accept : Request Symbol P → Bool) :
    (u.step pol (.subscribe ch' symbols cb params accept)).behavior.callbacks ch s =
      u.behavior.callbacks ch s ++ if ch' = ch then List.replicate (symbols.count s) cb else [] := by
  show Multimap.get (Function.update u.behavior.dispatchers ch' _ ch) s = _
  by_cases h : ch' = ch
  · subst h
    rw [Function.update_self, if_pos rfl]
    exact Multimap.get_foldl_push_const cb symbols s _
  · rw [Function.update_of_ne (Ne.symm h), if_neg h, List.append_nil]
    rfl

omit [DecidableEq Cb] in
theorem callbacks_unsubscribe (pol : Policy) (ch' : Channel) (symbols : List Symbol) (params : P)
    (accept : Request Symbol P → Bool) :
    (u.step pol (.unsubscribe ch' symbols params accept)).behavior.callbacks ch s =
      if ch' = ch ∧ s ∈ symbols then [] else u.behavior.callbacks ch s := by
  show Multimap.get (Function.update u.behavior.dispatchers ch' _ ch) s = _
  by_cases h : ch' = ch
  · subst h
    rw [Function.update_self]
    simp only [true_and]
    exact Multimap.get_foldl_erase symbols s _
  · rw [Function.update_of_ne (Ne.symm h), if_neg (fun hh => h hh.1)]
    rfl

omit [DecidableEq Cb] in
theorem drained_step (pol : Policy) (hu : u.Drained) (ev : LiteEvent P Cb D) : (u.step pol ev).Drained := by
  cases ev with
  | subscribe ch symbols cb params accept => exact hu
  | unsubscribe ch symbols params accept => exact hu
  | onError => exact hu
  | transport ev => exact hu
  | receive m => exact hu
  | poll env it =>
    obtain ⟨new, -, hd, -⟩ := poll_spec pol env it hu
    exact hd

theorem exists_serves_step (pol : Policy) (hu : u.Drained) {ev : LiteEvent P Cb D} (hev : ¬ ev.Concerns ch s c) :
    ∃ new live, Serves ch s c u (u.step pol ev) new live := by
  cases ev with
  | subscribe ch' symbols cb params accept =>
    refine ⟨[], [], .of_eq rfl ?_ rfl⟩
    rw [callbacks_subscribe, List.count_append]
    simp only [LiteEvent.Concerns] at hev
    split_ifs with h
    · rw [List.count_replicate]
      by_cases hcb : cb = c
      · have hs : s ∉ symbols := fun hs => hev ⟨h, hs, hcb⟩
        rw [List.count_eq_zero_of_not_mem hs, ite_self, Nat.add_zero]
      · simp [hcb]
    · rfl
  | unsubscribe ch' symbols params accept =>
    refine ⟨[], [], .of_eq rfl ?_ rfl⟩
    have hno : ¬ (ch' = ch ∧ s ∈ symbols) := hev
    rw [callbacks_unsubscribe, if_neg hno]
  | onError => exact ⟨[], [], .of_eq rfl rfl rfl⟩
  | transport ev => exact ⟨[], [], .of_eq rfl rfl rfl⟩
  | receive m => exact ⟨[], [], .of_eq rfl rfl rfl⟩
  | poll env it => exact exists_serves_poll hu

omit [DecidableEq Cb] in
theorem drained_after (pol : Policy) (evs : List (LiteEvent P Cb D)) : (after pol evs).Drained := by
  unfold after
  induction evs using List.reverseRecOn with
  | nil => exact fun k => rfl
  | append_singleton evs ev ih =>
    rw [List.foldl_append]
    exact drained_step pol ih ev

theorem exists_serves_after (pol : Policy) (evs evs' : List (LiteEvent P Cb D))
    (hkeep : ∀ ev ∈ evs', ¬ ev.Concerns ch s c) :
    ∃ new live, Serves ch s c (after pol evs) (after pol (evs ++ evs')) new live := by
  induction evs' using List.reverseRecOn with
  | nil =>
    rw [List.append_nil]
    exact ⟨[], [], .of_eq rfl rfl rfl⟩
  | append_singleton evs' ev ih =>
    obtain ⟨new, live, h⟩ := ih fun ev' hev' => hkeep ev' (List.mem_append_left _ hev')
    obtain ⟨new', live', h'⟩ := exists_serves_step pol (drained_after pol (evs ++ evs'))
      (hkeep ev (List.mem_append_right _ List.mem_cons_self))
    obtain ⟨live'', h''⟩ := h.trans h'
    refine ⟨new ++ new', live'', ?_⟩
    rw [← List.append_assoc]
    unfold after at h'' ⊢
    rw [List.foldl_append]
    exact h''

/-- **Callbacks see exactly their data.**  From any state of any run on, as long as the user neither unsubscribes symbol
`s` of channel `ch` nor subscribes callback `c` to it again, the messages `live` reach `c`: all that are received until
a rejection names `s`.  Their records for `s` come in order, and all of them once per registration.  A rejection ends
the registrations of the symbol it names, on either channel, and no others.  A subscription registers its callback for
each symbol it lists; an unsubscription ends the registrations of its symbols on its channel. -/
theorem callbacks_see_their_data (pol : Policy) (evs : List (LiteEvent P Cb D)) :
    (∀ evs' ch s c, (∀ ev ∈ evs', ¬ ev.Concerns ch s c) →
      ∃ new live, Serves ch s c (after pol evs) (after pol (evs ++ evs')) new live) ∧
    (∀ ch ch' s symbols cb params accept,
      (after pol (evs ++ [.subscribe ch' symbols cb params accept])).behavior.callbacks ch s =
        (after pol evs).behavior.callbacks ch s ++ if ch' = ch then List.replicate (symbols.count s) cb else []) ∧
    ∀ ch ch' s symbols params accept,
      (after pol (evs ++ [.unsubscribe ch' symbols params accept])).behavior.callbacks ch s =
        if ch' = ch ∧ s ∈ symbols then [] else (after pol evs).behavior.callbacks ch s := by
  refine ⟨fun evs' ch s c hkeep => exists_serves_after pol evs evs' hkeep, ?_, ?_⟩
  · intro ch ch' s symbols cb params accept
    unfold after
    rw [List.foldl_append]
    exact callbacks_subscribe pol ch' symbols cb params accept
  · intro ch ch' s symbols params accept
    unfold after
    rw [List.foldl_append]
    exact callbacks_unsubscribe pol ch' symbols params accept

def xbt : Symbol := ⟨['X', 'B', 'T'], by decide⟩

def eth : Symbol := ⟨['E', 'T', 'H'], by decide⟩

def aTrade (s : Symbol) (id : ℕ) : Trade ℤ := ⟨⟨.buy, 1, 100, id, 0, none⟩, s⟩

/-- The connection stands, and the session has been told. -/
def connected : List (LiteEvent Unit ℕ ℤ) := [.transport .transportConnected, .poll (fun _ => (id, fun _ => true)) .inOrder]

def subscribed : List (LiteEvent Unit ℕ ℤ) := connected ++ [.subscribe .trade [xbt, eth] 1 () fun _ => true]

/-- A response with trades of two symbols, and the poll that takes it. -/
def mixedTrades : List (LiteEvent Unit ℕ ℤ) :=
  [.receive (.item (.trade ⟨.update, [aTrade xbt 1, aTrade eth 2, aTrade xbt 3]⟩)),
    .poll (fun _ => (id, fun _ => true)) .inOrder]

/-- Callback 1 gets the two trades of the one symbol, in order. -/
theorem callbacks_see_their_data_trades :
    (after defaultPolicy (subscribed ++ mixedTrades)).behavior.callsOf .trade xbt 1 =
      [liteTrade .update (aTrade xbt 1), liteTrade .update (aTrade xbt 3)] ∧
    ∃ new live, Serves .trade xbt 1 (after defaultPolicy subscribed)
      (after defaultPolicy (subscribed ++ mixedTrades)) new live := by
  refine ⟨by decide +kernel, (callbacks_see_their_data defaultPolicy subscribed).1 mixedTrades .trade xbt 1 ?_⟩
  intro ev hev
  simp only [mixedTrades, List.mem_cons, List.not_mem_nil, or_false] at hev
  rcases hev with rfl | rfl <;> exact id

/-- Callback 2 waits for the book of the symbol whose trade subscription is rejected. -/
def rejectedTrades : List (LiteEvent Unit ℕ ℤ) := connected ++
  [.subscribe .trade [xbt] 1 () fun _ => true, .subscribe .book [xbt] 2 () fun _ => true,
    .receive (.item (.rejection ⟨['n', 'o'], some 10, some xbt⟩)), .poll (fun _ => (id, fun _ => true)) .inOrder,
    .receive (.item (.book ⟨⟨[⟨100, 1⟩], [], 0#32, none⟩, .update, xbt⟩)),
    .poll (fun _ => (id, fun _ => true)) .inOrder]

def beforeRejection : LiteClient Unit ℕ ℤ := after defaultPolicy (rejectedTrades.take 4)

def afterRejection : LiteClient Unit ℕ ℤ := after defaultPolicy rejectedTrades

/-- Request 10 is the trade subscription; its rejection takes callback 2 away, before the book comes. -/
theorem rejection_removes_other_channel :
    (beforeRejection.session.core.managers .trade).pendingSubscriptions.requests.keys = [10] ∧
      (beforeRejection.session.core.managers .book).pendingSubscriptions.requests.keys = [11] ∧
      beforeRejection.behavior.callbacks .book xbt = [2] ∧ afterRejection.behavior.callbacks .book xbt = [] ∧
      (afterRejection.received.flatMap (Item.records .book xbt)).length = 1 ∧
      afterRejection.behavior.callsOf .book xbt 2 = [] := by
  refine ⟨?_, ?_, ?_, ?_, ?_, ?_⟩ <;> decide +kernel

end LiteClient

end Wirekrak.Protocol

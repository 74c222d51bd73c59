import Wirekrak.Lib.Run
import Wirekrak.Protocol.Json

/-!
# Wirekrak.Protocol.Router — from a received document to the callbacks, and where it can trap

A message parser is a row of checks, each of which may end it with a result code.  Between the checks stand the steps
that do not check: a `Symbol` of fixed capacity is built from a text, `value()` of an optional is read, the element of a
status update is converted to an object inside a `noexcept` function, and a symbol is interned in a table of fixed size.
Where such a step goes wrong the program traps (`Fault`).  Each parser is cut at these steps: `ackHead` is what it
checks before it builds the symbol, `ackTail` what it checks after.

* `parseAndRoute`: `Router::parse_and_route`, up to the callback.
* `Endpoint.onMessage`: a document, the callbacks and the data plane.
* `no_trap_iff`: a sequence of documents is handled without a trap just when every one of them is harmless
  (`Harmless`) for the symbol table it meets.  `ack_without_reqId` is one that is not.
-/

namespace Wirekrak.Protocol

open Wirekrak.Lib Json

/-- What the code relies on and a document can break. -/
inductive Fault
  | absentValue
  | symbolOverflow
  | internOverflow
  | uncaught
  deriving DecidableEq

/-- Why a parser stops. -/
inductive Stop
  | result (r : MessageResult)
  | trap (f : Fault)
  deriving DecidableEq

abbrev Exec (α : Type) := Except Stop α

def Parse.lift {α : Type} (p : Parse α) : Exec α :=
  match p with
  | .ok a => .ok a
  | .error r => .error (.result r)

/-- `MAX_SYMBOL_LENGTH`. -/
def maxSymbolLength : ℕ := 16

/-- `lcr::local::string<MAX_SYMBOL_LENGTH>`. -/
def Symbol : Type := { s : Text // s.length ≤ maxSymbolLength }

instance : DecidableEq Symbol := inferInstanceAs (DecidableEq { s : Text // s.length ≤ maxSymbolLength })

def Symbol.text (s : Symbol) : Text := s.val

def Symbol.empty : Symbol := ⟨[], Nat.zero_le _⟩

/-- `assign` asserts that the text fits. -/
def Symbol.ofText (s : Text) : Exec Symbol :=
  if h : s.length ≤ maxSymbolLength then .ok ⟨s, h⟩ else .error (.trap .symbolOverflow)

def Symbol.ofOption : Option Text → Exec (Option Symbol)
  | none => .ok none
  | some s => (Symbol.ofText s).map some

/-- `lcr::optional::value()`. -/
def Exec.value {α : Type} : Option α → Exec α
  | some a => .ok a
  | none => .error (.trap .absentValue)

/-! ## Messages -/

structure Ack where
  success : Bool
  symbol : Symbol
  reqId : Option ReqId

/-- A trade without its symbol. -/
structure TradeFields (D : Type) where
  side : Side
  qty : D
  price : D
  tradeId : ℕ
  timestamp : Timestamp
  ordType : Option OrderType

structure Trade (D : Type) extends TradeFields D where
  symbol : Symbol

structure TradeResponse (D : Type) where
  type : PayloadType
  trades : List (Trade D)

structure Level (D : Type) where
  price : D
  qty : D

/-- A book without its symbol. -/
structure BookFields (D : Type) where
  asks : List (Level D)
  bids : List (Level D)
  checksum : BitVec 32
  timestamp : Option Timestamp

structure BookResponse (D : Type) extends BookFields D where
  type : PayloadType
  symbol : Symbol

variable {D : Type}

/-! ## The parts of the parsers that only check -/

def fieldAbsent (obj : Json D) (key : Key) : Parse Unit :=
  if (obj.field? key).isSome then .error .invalidSchema else .ok ()

/-- `time_in` and `time_out`. -/
def timestamps (root : Json D) : Parse Unit := do
  let _ ← parseTimestampOptional root .timeIn
  let _ ← parseTimestampOptional root .timeOut
  return ()

/-- An ACK up to its symbol: the `result` object and the text of the symbol, when it reports success. -/
def ackHead (root : Json D) : Parse (Option (Json D × Text)) := do
  requireObject root
  if ← parseBoolRequired root .success then
    let result ← parseObjectRequired root .result
    let text ← symbolTextRequired result .symbol
    return some (result, text)
  else return none

/-- The fields that only a subscribe ACK has. -/
def subscribeOnly (kind : Kind) (result : Json D) : Parse Unit := do
  match kind with
  | .unsubscribe => return ()
  | .subscribe =>
    let _ ← parseBoolOptional result .snapshot
    let _ ← parseStringListOptional result .warnings
    return ()

/-- The rest of an ACK, and its `req_id`.  A book ACK has a depth, and may carry a `result` when it reports failure; a
trade ACK may not. -/
def ackTail (ch : Channel) (kind : Kind) (root : Json D) (head : Option (Json D × Text)) : Parse (Option ReqId) := do
  match head, ch with
  | some (result, _), .trade =>
    subscribeOnly kind result
    fieldAbsent root .error
  | some (result, _), .book =>
    let _ ← parseUint64Required result .depth
    subscribeOnly kind result
    fieldAbsent root .error
  | none, .trade =>
    let _ ← parseStringRequired root .error
    fieldAbsent root .result
  | none, .book =>
    let _ ← parseStringRequired root .error
    pure ()
  let reqId ← parseUint64Optional root .reqId
  timestamps root
  return reqId

/-- A rejection notice up to its symbol. -/
def noticeHead (root : Json D) : Parse (Text × Option ReqId × Option Text) := do
  requireObject root
  let error ← parseStringRequired root .error
  let reqId ← parseUint64Optional root .reqId
  let text ← symbolTextOptional root .symbol
  return (error, reqId, text)

/-- A trade up to its symbol. -/
def tradeHead (elem : Json D) : Parse Text := do
  requireObject elem
  symbolTextRequired elem .symbol

def tradeTail [IntCast D] (obj : Json D) : Parse (TradeFields D) := do
  let side ← parseSideRequired obj .side
  let qty ← parseDoubleRequired obj .qty
  let price ← parseDoubleRequired obj .price
  let tradeId ← parseUint64Required obj .tradeId
  let timestamp ← parseTimestampRequired obj .timestamp
  let ordType ← parseOrderTypeOptional obj .ordType
  return ⟨side, qty, price, tradeId, timestamp, ordType⟩

/-- A trade response up to its trades. -/
def tradesHead (root : Json D) : Parse (PayloadType × List (Json D)) := do
  requireObject root
  let type ← parsePayloadTypeRequired root .type
  let data ← parseArrayRequired root .data
  if data = [] then .error .ignored else return (type, data)

/-- `parse_side_levels_common`: `none` for a side that is missing. -/
def parseSideLevels [IntCast D] (book : Json D) (key : Key) : Parse (Option (List (Level D))) := do
  match book.field? key with
  | none => return none
  | some levels =>
    match levels with
    | .array elems =>
      let out ← elems.mapM fun lvl => do
        requireObject lvl
        let price ← parseDoubleRequired lvl .price
        let qty ← parseDoubleRequired lvl .qty
        return ⟨price, qty⟩
      return some out
    | _ => .error .invalidSchema

/-- A book response up to its symbol: the type, the one book and the text of the symbol. -/
def bookHead (root : Json D) : Parse (PayloadType × Json D × Text) := do
  requireObject root
  let type ← parsePayloadTypeRequired root .type
  let data ← parseArrayRequired root .data
  match data with
  | [book] =>
    requireObject book
    let text ← symbolTextRequired book .symbol
    return (type, book, text)
  | _ => .error .invalidSchema

def bookTail [IntCast D] (book : Json D) : Parse (BookFields D) := do
  let asks ← parseSideLevels book .asks
  let bids ← parseSideLevels book .bids
  if asks.isNone ∧ bids.isNone then .error .invalidSchema
  else
    let checksum ← parseUint64Required book .checksum
    let timestamp ← parseTimestampOptional book .timestamp
    return ⟨asks.getD [], bids.getD [], BitVec.ofNat 32 checksum, timestamp⟩

/-- A status update up to its first element. -/
def statusHead (root : Json D) : Parse (Json D) := do
  requireObject root
  match ← parseArrayRequired root .data with
  | [] => .error .invalidSchema
  | first :: _ => return first

def statusTail (obj : Json D) : Parse Unit := do
  let _ ← parseSystemStateRequired obj .system
  let _ ← parseStringRequired obj .apiVersion
  let _ ← parseUint64Optional obj .connectionId
  let _ ← parseStringOptional obj .version
  return ()

def parsePong (root : Json D) : Parse Unit := do
  requireObject root
  let _ ← parseUint64Optional root .reqId
  timestamps root
  match ← parseBoolOptional root .success with
  | none => return ()
  | some true =>
    let result ← parseObjectRequired root .result
    let _ ← parseStringListOptional result .warnings
    return ()
  | some false =>
    let _ ← parseStringRequired root .error
    return ()

/-! ## The parsers -/

/-- `parse_ack_common` of the trade and of the book channel. -/
def parseAckCommon (ch : Channel) (kind : Kind) (root : Json D) : Exec Ack := do
  let head ← (ackHead root).lift
  let symbol ← Symbol.ofOption (head.map Prod.snd)
  let reqId ← (ackTail ch kind root head).lift
  -- a failed ACK leaves the symbol as it was constructed
  return ⟨head.isSome, symbol.getD Symbol.empty, reqId⟩

/-- `rejection_notice::parse`. -/
def parseRejectionNotice (root : Json D) : Exec (Notice Symbol) := do
  let (error, reqId, text) ← (noticeHead root).lift
  let symbol ← Symbol.ofOption text
  (timestamps root).lift
  return ⟨error, reqId, symbol⟩

def parseTrade [IntCast D] (elem : Json D) : Exec (Trade D) := do
  let symbol ← Symbol.ofText (← (tradeHead elem).lift)
  let fields ← (tradeTail elem).lift
  return ⟨fields, symbol⟩

/-- `trade::response::parse`. -/
def parseTradeResponse [IntCast D] (root : Json D) : Exec (TradeResponse D) := do
  let (type, data) ← (tradesHead root).lift
  let trades ← data.mapM parseTrade
  return ⟨type, trades⟩

/-- `book::response::parse`. -/
def parseBookResponse [IntCast D] (root : Json D) : Exec (BookResponse D) := do
  let (type, book, text) ← (bookHead root).lift
  let symbol ← Symbol.ofText text
  let fields ← (bookTail book).lift
  return ⟨fields, type, symbol⟩

/-- `status::update::parse`: the first element is converted to an object, and the conversion throws when it is none. -/
def parseStatusUpdate (root : Json D) : Exec Unit := do
  let first ← (statusHead root).lift
  match first.object? with
  | none => .error (.trap .uncaught)
  | some obj => (statusTail obj).lift

/-! ## Routing -/

/-- The parser that a document is given to. -/
inductive Target
  | ack (kind : Kind) (ch : Channel)
  | notice
  | pong
  | trade
  | book
  | status
  | none (r : MessageResult)
  deriving DecidableEq

/-- The channel named in the `result` of an ACK. -/
def ackChannel (root : Json D) : Option Feed :=
  match parseObjectRequired root .result with
  | .ok result => (parseChannelRequired result).toOption
  | .error _ => .none

/-- `parse_method_message_`: an ACK whose channel is unknown is a rejection notice. -/
def methodTarget (root : Json D) : Method → Target
  | .pong => .pong
  | .subscribe =>
    match ackChannel root with
    | some .trade => .ack .subscribe .trade
    | some .book => .ack .subscribe .book
    | _ => .notice
  | .unsubscribe =>
    match ackChannel root with
    | some .trade => .ack .unsubscribe .trade
    | some .book => .ack .unsubscribe .book
    | _ => .notice
  | .ping => .none .ignored

/-- `parse_channel_message_`. -/
def channelTarget : Feed → Target
  | .trade => .trade
  | .ticker => .none .ignored
  | .book => .book
  | .heartbeat => .none .delivered
  | .status => .status

def target (root : Json D) : Target :=
  match parseMethodRequired root with
  | .ok method => methodTarget root method
  | .error _ =>
    match parseChannelRequired root with
    | .ok channel => channelTarget channel
    | .error _ => .none .ignored

/-- `Router::parse_and_route`, up to the callback it invokes. -/
def parseAndRoute [IntCast D] (root : Json D) : Exec (Routed Symbol (TradeResponse D) (BookResponse D)) :=
  match target root with
  | .ack .subscribe ch => do
    let ack ← parseAckCommon ch .subscribe root
    return .subscribeAck ch (← Exec.value ack.reqId) ack.symbol ack.success
  | .ack .unsubscribe ch => do
    let ack ← parseAckCommon ch .unsubscribe root
    return .unsubscribeAck ch (← Exec.value ack.reqId) ack.symbol ack.success
  | .notice => do return .item (.rejection (← parseRejectionNotice root))
  | .pong => do
    (parsePong root).lift
    return .state
  | .trade => do return .item (.trade (← parseTradeResponse root))
  | .book => do return .item (.book (← parseBookResponse root))
  | .status => do
    parseStatusUpdate root
    return .state
  | .none r => return .result r

/-! ## The endpoint -/

/-- The bound of `SymbolTable`. -/
def maxSymbols : ℕ := 4096

/-- `InternTable::intern`: a new symbol needs a place. -/
def intern (table : List Symbol) (s : Symbol) : Except Fault (List Symbol) :=
  if s ∈ table then .ok table
  else if maxSymbols ≤ table.length then .error .internOverflow
  else .ok (table ++ [s])

/-- The symbol that the callbacks of a message intern. -/
def Routed.interned {Sym T B : Type} : Routed Sym T B → Option Sym
  | .subscribeAck _ _ sym _ => some sym
  | .unsubscribeAck _ _ sym _ => some sym
  | .item (.rejection ⟨_, some _, some sym⟩) => some sym
  | _ => none

/-- The interned symbols of the process, and a session. -/
structure Endpoint (P D : Type) where
  symbols : List Symbol := []
  session : UserSession Symbol P (TradeResponse D) (BookResponse D) := {}

namespace Endpoint

variable {P : Type} [IntCast D]

def deliver (S : Plane) (e : Endpoint P D) (m : Routed Symbol (TradeResponse D) (BookResponse D)) :
    Except Fault (MessageResult × Endpoint P D) :=
  match m.interned with
  | none => .ok ((e.session.onMessage S m).1, ⟨e.symbols, (e.session.onMessage S m).2⟩)
  | some s =>
    match intern e.symbols s with
    | .error f => .error f
    | .ok symbols => .ok ((e.session.onMessage S m).1, ⟨symbols, (e.session.onMessage S m).2⟩)

/-- A received document: a result code and the endpoint after it, or a trap. -/
def onMessage (S : Plane) (e : Endpoint P D) (root : Json D) : Except Fault (MessageResult × Endpoint P D) :=
  match parseAndRoute root with
  | .error (.trap f) => .error f
  | .error (.result r) => e.deliver S (.result r)
  | .ok m => e.deliver S m

def onMessages (S : Plane) : Endpoint P D → List (Json D) → Except Fault (Endpoint P D)
  | e, [] => .ok e
  | e, root :: docs =>
    match e.onMessage S root with
    | .error f => .error f
    | .ok (_, e') => onMessages S e' docs

/-- The endpoint after a document; a trap leaves none, here the old one stands for it. -/
def next (S : Plane) (e : Endpoint P D) (root : Json D) : Endpoint P D :=
  match e.onMessage S root with
  | .error _ => e
  | .ok (_, e') => e'

end Endpoint

/-! ## Harmless documents -/

/-- The table has the symbol, or a place for it. -/
def RoomFor (table : List Symbol) (text : Text) : Prop := text ∈ table.map Symbol.text ∨ table.length < maxSymbols

/-- Every trade that the parser comes to names a symbol that fits. -/
def TradesFit [IntCast D] : List (Json D) → Prop
  | [] => True
  | elem :: data => ∀ text, tradeHead elem = .ok text →
      text.length ≤ maxSymbolLength ∧ ∀ fields, tradeTail elem = .ok fields → TradesFit data

/-- The document breaks nothing that the code relies on: each symbol that its parser comes to fits; an ACK that passes
all checks has a `req_id`; the first element of a status update is an object; and the symbol of an ACK or of a complete
rejection is interned or has a place. -/
def Harmless [IntCast D] (table : List Symbol) (root : Json D) : Prop :=
  match target root with
  | .ack kind ch => ∀ head, ackHead root = .ok head →
      (∀ p ∈ head, p.2.length ≤ maxSymbolLength) ∧ ackTail ch kind root head ≠ .ok none ∧
      ∀ id, ackTail ch kind root head = .ok (some id) → RoomFor table ((head.map Prod.snd).getD [])
  | .notice => ∀ error reqId text, noticeHead root = .ok (error, reqId, text) →
      (∀ t ∈ text, t.length ≤ maxSymbolLength) ∧
      (timestamps root = .ok () → reqId.isSome → ∀ t ∈ text, RoomFor table t)
  | .trade => ∀ type data, tradesHead root = .ok (type, data) → TradesFit data
  | .book => ∀ type book text, bookHead root = .ok (type, book, text) → text.length ≤ maxSymbolLength
  | .status => ∀ first, statusHead root = .ok first → first.object?.isSome
  | .pong | .none _ => True

/-! ## Where an execution traps -/

def Traps {α : Type} (x : Exec α) : Prop := ∃ f, x = .error (.trap f)

section Traps

variable {α β : Type}

theorem traps_bind {x : Exec α} {k : α → Exec β} : Traps (x >>= k) ↔ Traps x ∨ ∃ a, x = .ok a ∧ Traps (k a) := by
  unfold Traps
  cases x with
  | error e => simp [bind, Except.bind]
  | ok a => simp [bind, Except.bind]

theorem except_bind_ok {ε : Type} {x : Except ε α} {k : α → Except ε β} {b : β} :
    x >>= k = .ok b ↔ ∃ a, x = .ok a ∧ k a = .ok b := by
  cases x with
  | error e => simp [bind, Except.bind]
  | ok a => simp [bind, Except.bind]

@[simp] theorem not_traps_pure (a : α) : ¬ Traps (pure a : Exec α) := by
  rintro ⟨f, h⟩
  cases h

@[simp] theorem not_traps_ok (a : α) : ¬ Traps (.ok a : Exec α) := by
  rintro ⟨f, h⟩
  cases h

@[simp] theorem not_traps_lift (p : Parse α) : ¬ Traps p.lift := by
  rintro ⟨f, h⟩
  cases p <;> cases h

@[simp] theorem lift_ok {p : Parse α} {a : α} : p.lift = .ok a ↔ p = .ok a := by
  cases p <;> simp [Parse.lift]

@[simp] theorem traps_ofText {s : Text} : Traps (Symbol.ofText s) ↔ maxSymbolLength < s.length := by
  unfold Traps Symbol.ofText
  split
  · next h => simp [Nat.not_lt.mpr h]
  · next h => simp [Nat.lt_of_not_le h]

@[simp] theorem ofText_ok {s : Text} {y : Symbol} : Symbol.ofText s = .ok y ↔ y.text = s := by
  unfold Symbol.ofText
  split
  · constructor
    · intro he
      cases he
      rfl
    · rintro rfl
      rfl
  · next h =>
    constructor
    · intro he
      cases he
    · rintro rfl
      exact absurd y.property h

theorem ofOption_some (t : Text) : Symbol.ofOption (some t) = (Symbol.ofText t >>= fun s => .ok (some s)) := by
  show (Symbol.ofText t).map some = _
  cases Symbol.ofText t <;> rfl

@[simp] theorem traps_ofOption {o : Option Text} : Traps (Symbol.ofOption o) ↔ ∃ t ∈ o, maxSymbolLength < t.length := by
  cases o with
  | none => simp [Symbol.ofOption]
  | some t => simp [ofOption_some, traps_bind]

@[simp] theorem ofOption_ok {o : Option Text} {y : Option Symbol} :
    Symbol.ofOption o = .ok y ↔ y.map Symbol.text = o := by
  cases o with
  | none =>
    show Except.ok none = Except.ok y ↔ _
    rw [Except.ok.injEq, Option.map_eq_none_iff, eq_comm]
  | some t =>
    rw [ofOption_some]
    simp only [except_bind_ok, ofText_ok, Except.ok.injEq]
    constructor
    · rintro ⟨s, rfl, rfl⟩
      rfl
    · intro h
      obtain ⟨s, rfl, hs⟩ := Option.map_eq_some_iff.mp h
      exact ⟨s, hs, rfl⟩

@[simp] theorem traps_value {o : Option α} : Traps (Exec.value o) ↔ o = none := by
  unfold Traps
  cases o <;> simp [Exec.value]

@[simp] theorem value_ok {o : Option α} {a : α} : Exec.value o = .ok a ↔ o = some a := by
  cases o <;> simp [Exec.value]

end Traps

/-! ### The parsers -/

theorem traps_parseAckCommon {ch : Channel} {kind : Kind} {root : Json D} : Traps (parseAckCommon ch kind root) ↔
    ∃ head, ackHead root = .ok head ∧ ∃ p ∈ head, maxSymbolLength < p.2.length := by
  unfold parseAckCommon
  simp only [traps_bind, not_traps_lift, not_traps_pure, lift_ok, traps_ofOption, false_or, and_false, exists_false,
    or_false]
  refine exists_congr fun head => and_congr_right fun _ => ?_
  cases head <;> simp

theorem parseAckCommon_ok {ch : Channel} {kind : Kind} {root : Json D} {ack : Ack}
    (h : parseAckCommon ch kind root = .ok ack) :
    ∃ head, ackHead root = .ok head ∧ ack.symbol.text = (head.map Prod.snd).getD [] ∧
      ackTail ch kind root head = .ok ack.reqId := by
  unfold parseAckCommon at h
  simp only [except_bind_ok, lift_ok, ofOption_ok] at h
  obtain ⟨head, hhead, symbol, hs, reqId, hid, he⟩ := h
  cases he
  refine ⟨head, hhead, ?_, hid⟩
  rw [← hs]
  cases symbol <;> rfl

/-- An ACK that passes all checks is parsed when its symbol fits. -/
theorem exists_parseAckCommon {ch : Channel} {kind : Kind} {root : Json D} {head : Option (Json D × Text)}
    {reqId : Option ReqId} (hhead : ackHead root = .ok head) (hfit : ∀ p ∈ head, p.2.length ≤ maxSymbolLength)
    (htail : ackTail ch kind root head = .ok reqId) :
    ∃ ack, parseAckCommon ch kind root = .ok ack ∧ ack.reqId = reqId ∧
      ack.symbol.text = (head.map Prod.snd).getD [] := by
  have hmake : ∀ symbol : Option Symbol, symbol.map Symbol.text = head.map Prod.snd →
      parseAckCommon ch kind root = .ok ⟨head.isSome, symbol.getD Symbol.empty, reqId⟩ := by
    intro symbol hs
    unfold parseAckCommon
    simp only [except_bind_ok, lift_ok, ofOption_ok]
    exact ⟨head, hhead, symbol, hs, reqId, htail, rfl⟩
  cases head with
  | none => exact ⟨_, hmake none rfl, rfl, rfl⟩
  | some p => exact ⟨_, hmake (some ⟨p.2, hfit p rfl⟩) rfl, rfl, rfl⟩

theorem traps_parseRejectionNotice {root : Json D} : Traps (parseRejectionNotice root) ↔
    ∃ error reqId text, noticeHead root = .ok (error, reqId, text) ∧ ∃ t ∈ text, maxSymbolLength < t.length := by
  unfold parseRejectionNotice
  simp only [traps_bind, not_traps_lift, not_traps_pure, lift_ok, traps_ofOption, false_or, and_false, exists_false,
    or_false, Prod.exists]

theorem parseRejectionNotice_ok {root : Json D} {n : Notice Symbol} : parseRejectionNotice root = .ok n ↔
    noticeHead root = .ok (n.error, n.reqId, n.symbol.map Symbol.text) ∧ timestamps root = .ok () := by
  unfold parseRejectionNotice
  simp only [except_bind_ok, lift_ok, ofOption_ok, Prod.exists]
  constructor
  · rintro ⟨error, reqId, text, hhead, symbol, rfl, _, ht, he⟩
    cases he
    exact ⟨hhead, ht⟩
  · rintro ⟨hhead, ht⟩
    exact ⟨_, _, _, hhead, n.symbol, rfl, (), ht, rfl⟩

theorem traps_parseTrade [IntCast D] {elem : Json D} : Traps (parseTrade elem) ↔
    ∃ text, tradeHead elem = .ok text ∧ maxSymbolLength < text.length := by
  unfold parseTrade
  simp only [traps_bind, not_traps_lift, not_traps_pure, lift_ok, traps_ofText, false_or, and_false, exists_false,
    or_false]

theorem exists_parseTrade [IntCast D] {elem : Json D} : (∃ t, parseTrade elem = .ok t) ↔
    ∃ text, tradeHead elem = .ok text ∧ text.length ≤ maxSymbolLength ∧ ∃ fields, tradeTail elem = .ok fields := by
  unfold parseTrade
  simp only [except_bind_ok, lift_ok, ofText_ok]
  constructor
  · rintro ⟨_, text, hhead, symbol, rfl, fields, hf, -⟩
    exact ⟨_, hhead, symbol.property, fields, hf⟩
  · rintro ⟨text, hhead, hfit, fields, hf⟩
    exact ⟨_, text, hhead, ⟨text, hfit⟩, rfl, fields, hf, rfl⟩

/-- The trades are parsed in order, and a parser that stops leaves the rest alone. -/
theorem traps_mapM_parseTrade [IntCast D] (data : List (Json D)) : Traps (data.mapM parseTrade) ↔ ¬ TradesFit data := by
  induction data with
  | nil => simp [TradesFit]
  | cons elem data ih =>
    have hcons : Traps ((elem :: data).mapM parseTrade) ↔
        Traps (parseTrade elem) ∨ (∃ t, parseTrade elem = .ok t) ∧ Traps (data.mapM parseTrade) := by
      rw [List.mapM_cons]
      simp only [traps_bind, not_traps_pure, and_false, exists_false, or_false, exists_and_right]
    rw [hcons, traps_parseTrade, exists_parseTrade, ih, TradesFit]
    cases hhead : tradeHead elem with
    | error r => simp
    | ok text =>
      cases hf : tradeTail elem with
      | error r => simp
      | ok fields =>
        by_cases hfit : text.length ≤ maxSymbolLength
        · simp [hfit]
        · simp [hfit, Nat.lt_of_not_le hfit]

theorem traps_parseTradeResponse [IntCast D] {root : Json D} : Traps (parseTradeResponse root) ↔
    ∃ type data, tradesHead root = .ok (type, data) ∧ ¬ TradesFit data := by
  unfold parseTradeResponse
  simp only [traps_bind, not_traps_lift, not_traps_pure, lift_ok, false_or, and_false, exists_false, or_false,
    Prod.exists, traps_mapM_parseTrade]

theorem traps_parseBookResponse [IntCast D] {root : Json D} : Traps (parseBookResponse root) ↔
    ∃ type book text, bookHead root = .ok (type, book, text) ∧ maxSymbolLength < text.length := by
  unfold parseBookResponse
  simp only [traps_bind, not_traps_lift, not_traps_pure, lift_ok, traps_ofText, false_or, and_false, exists_false,
    or_false, Prod.exists]

theorem traps_parseStatusUpdate {root : Json D} : Traps (parseStatusUpdate root) ↔
    ∃ first, statusHead root = .ok first ∧ first.object? = none := by
  unfold parseStatusUpdate
  simp only [traps_bind, not_traps_lift, lift_ok, false_or]
  refine exists_congr fun first => and_congr_right fun _ => ?_
  cases first.object? with
  | none => simp [Traps]
  | some obj => simp

/-! ### The callbacks -/

theorem Symbol.text_injective : Function.Injective Symbol.text := fun _ _ h => Subtype.ext h

theorem exists_intern {table : List Symbol} {s : Symbol} : (∃ t, intern table s = .ok t) ↔ RoomFor table s.text := by
  unfold intern RoomFor
  rw [List.mem_map_of_injective Symbol.text_injective]
  split
  · next h => simp [h]
  · next h =>
    split
    · next hfull => simp [h, Nat.not_lt.mpr hfull]
    · next hroom => simp [Nat.lt_of_not_le hroom]

section Step

variable {P : Type} [IntCast D]

omit [IntCast D] in
theorem exists_deliver {S : Plane} {e : Endpoint P D} {m : Routed Symbol (TradeResponse D) (BookResponse D)} :
    (∃ u, e.deliver S m = .ok u) ↔ ∀ s ∈ m.interned, RoomFor e.symbols s.text := by
  unfold Endpoint.deliver
  cases m.interned with
  | none => simp
  | some s =>
    simp only [Option.mem_some_iff, forall_eq', ← exists_intern]
    cases intern e.symbols s <;> simp

/-- The execution does not trap, and the table has a place for the symbol of the message it ends with. -/
def Clears (table : List Symbol) (x : Exec (Routed Symbol (TradeResponse D) (BookResponse D))) : Prop :=
  ¬ Traps x ∧ ∀ m, x = .ok m → ∀ s ∈ m.interned, RoomFor table s.text

theorem exists_onMessage {S : Plane} {e : Endpoint P D} {root : Json D} :
    (∃ u, e.onMessage S root = .ok u) ↔ Clears e.symbols (parseAndRoute root) := by
  unfold Endpoint.onMessage Clears Traps
  cases parseAndRoute root with
  | error stop =>
    cases stop with
    | result r => simp [exists_deliver, Routed.interned, -Prod.exists]
    | trap f => simp
  | ok m => simp [exists_deliver, -Prod.exists]

omit [IntCast D] in
/-- A message whose callback interns nothing. -/
theorem clears_silent {table : List Symbol} {α : Type} {x : Exec α}
    {make : α → Routed Symbol (TradeResponse D) (BookResponse D)} (hmake : ∀ a, (make a).interned = none) :
    Clears table (x >>= fun a => pure (make a)) ↔ ¬ Traps x := by
  unfold Clears
  simp only [traps_bind, except_bind_ok, not_traps_pure, and_false, exists_false, or_false]
  refine and_iff_left ?_
  rintro m ⟨a, -, hm⟩ s hs
  cases hm
  rw [hmake a] at hs
  cases hs

omit [IntCast D] in
/-- Both callbacks of an ACK intern its symbol, and read its `req_id` first. -/
theorem clears_ack {table : List Symbol} {ch : Channel} {kind : Kind} {root : Json D}
    (make : ReqId → Ack → Routed Symbol (TradeResponse D) (BookResponse D))
    (hmake : ∀ id ack, (make id ack).interned = some ack.symbol) :
    Clears table (parseAckCommon ch kind root >>= fun ack => Exec.value ack.reqId >>= fun id => pure (make id ack)) ↔
      ∀ head, ackHead root = .ok head →
        (∀ p ∈ head, p.2.length ≤ maxSymbolLength) ∧ ackTail ch kind root head ≠ .ok none ∧
        ∀ id, ackTail ch kind root head = .ok (some id) → RoomFor table ((head.map Prod.snd).getD []) := by
  unfold Clears
  simp only [traps_bind, except_bind_ok, not_traps_pure, and_false, exists_false, or_false, traps_value, value_ok,
    traps_parseAckCommon]
  constructor
  · rintro ⟨hnot, hroom⟩ head hhead
    have hfit : ∀ p ∈ head, p.2.length ≤ maxSymbolLength := by
      intro p hp
      by_contra hlong
      exact hnot (.inl ⟨head, hhead, p, hp, Nat.lt_of_not_le hlong⟩)
    refine ⟨hfit, ?_, ?_⟩
    · intro hnone
      obtain ⟨ack, hack, hid, -⟩ := exists_parseAckCommon hhead hfit hnone
      exact hnot (.inr ⟨ack, hack, hid⟩)
    · intro id hsome
      obtain ⟨ack, hack, hid, hsym⟩ := exists_parseAckCommon hhead hfit hsome
      rw [← hsym]
      exact hroom _ ⟨ack, hack, id, hid, rfl⟩ _ (hmake id ack)
  · intro h
    constructor
    · rintro (⟨head, hhead, p, hp, hlong⟩ | ⟨ack, hack, hnone⟩)
      · exact absurd ((h head hhead).1 p hp) (Nat.not_le.mpr hlong)
      · obtain ⟨head, hhead, -, htail⟩ := parseAckCommon_ok hack
        exact (h head hhead).2.1 (by rw [htail, hnone])
    · rintro m ⟨ack, hack, id, hid, hm⟩ s hs
      obtain ⟨head, hhead, hsym, htail⟩ := parseAckCommon_ok hack
      cases hm
      rw [hmake] at hs
      cases hs
      rw [hsym]
      exact (h head hhead).2.2 id (by rw [htail, hid])

omit [IntCast D] in
theorem interned_rejection {n : Notice Symbol} {s : Symbol} :
    s ∈ (.item (.rejection n) : Routed Symbol (TradeResponse D) (BookResponse D)).interned ↔
      n.reqId.isSome ∧ n.symbol = some s := by
  obtain ⟨error, reqId, symbol⟩ := n
  cases reqId <;> cases symbol <;> simp [Routed.interned]

omit [IntCast D] in
theorem clears_notice {table : List Symbol} {root : Json D} :
    Clears table (D := D) (parseRejectionNotice root >>= fun n => pure (.item (.rejection n))) ↔
      ∀ error reqId text, noticeHead root = .ok (error, reqId, text) →
        (∀ t ∈ text, t.length ≤ maxSymbolLength) ∧
        (timestamps root = .ok () → reqId.isSome → ∀ t ∈ text, RoomFor table t) := by
  unfold Clears
  simp only [traps_bind, except_bind_ok, not_traps_pure, and_false, exists_false, or_false, traps_parseRejectionNotice]
  constructor
  · rintro ⟨hnot, hroom⟩ error reqId text hhead
    have hfit : ∀ t ∈ text, t.length ≤ maxSymbolLength := by
      intro t ht
      by_contra hlong
      exact hnot ⟨error, reqId, text, hhead, t, ht, Nat.lt_of_not_le hlong⟩
    refine ⟨hfit, ?_⟩
    rintro htime hid t rfl
    have hn : parseRejectionNotice root = .ok ⟨error, reqId, some ⟨t, hfit t rfl⟩⟩ :=
      parseRejectionNotice_ok.mpr ⟨hhead, htime⟩
    exact hroom _ ⟨_, hn, rfl⟩ _ (interned_rejection.mpr ⟨hid, rfl⟩)
  · intro h
    constructor
    · rintro ⟨error, reqId, text, hhead, t, ht, hlong⟩
      exact absurd ((h error reqId text hhead).1 t ht) (Nat.not_le.mpr hlong)
    · rintro m ⟨n, hn, hm⟩ s hs
      cases hm
      obtain ⟨hid, hsym⟩ := interned_rejection.mp hs
      obtain ⟨hhead, htime⟩ := parseRejectionNotice_ok.mp hn
      exact (h _ _ _ hhead).2 htime hid s.text (by rw [hsym]; rfl)

/-- One document. -/
theorem exists_onMessage_iff_harmless {S : Plane} {e : Endpoint P D} {root : Json D} :
    (∃ u, e.onMessage S root = .ok u) ↔ Harmless e.symbols root := by
  rw [exists_onMessage]
  unfold parseAndRoute Harmless
  cases target root with
  | ack kind ch =>
    cases kind with
    | subscribe => exact clears_ack (fun id ack => .subscribeAck ch id ack.symbol ack.success) fun _ _ => rfl
    | unsubscribe => exact clears_ack (fun id ack => .unsubscribeAck ch id ack.symbol ack.success) fun _ _ => rfl
  | notice => exact clears_notice
  | pong =>
    refine (clears_silent fun _ => rfl).trans ?_
    simp
  | trade =>
    refine (clears_silent fun _ => rfl).trans ?_
    simp [traps_parseTradeResponse]
  | book =>
    refine (clears_silent fun _ => rfl).trans ?_
    simp [traps_parseBookResponse]
  | status =>
    refine (clears_silent fun _ => rfl).trans ?_
    simp [traps_parseStatusUpdate, Option.isSome_iff_ne_none]
  | none r =>
    refine ⟨fun _ => trivial, fun _ => ⟨not_traps_pure _, ?_⟩⟩
    rintro m hm s hs
    cases hm
    cases hs

theorem exists_onMessages {S : Plane} {docs : List (Json D)} : ∀ {e : Endpoint P D},
    (∃ u, Endpoint.onMessages S e docs = .ok u) ↔
      Admitted (Endpoint.next S) (fun e root => ∃ u, e.onMessage S root = .ok u) e docs := by
  induction docs with
  | nil => simp [Endpoint.onMessages, Admitted]
  | cons root docs ih =>
    intro e
    unfold Endpoint.onMessages Admitted
    cases h : e.onMessage S root with
    | error f => simp
    | ok u =>
      have hnext : e.next S root = u.2 := by rw [Endpoint.next, h]
      rw [hnext, ← ih]
      simp

end Step

/-- A sequence of documents is handled without a trap just when each of them is harmless at the table it meets. -/
theorem no_trap_iff {P : Type} [IntCast D] (S : Plane) (e : Endpoint P D) (docs : List (Json D)) :
    (∃ u, Endpoint.onMessages S e docs = .ok u) ↔
      Admitted (Endpoint.next S) (fun e root => Harmless e.symbols root) e docs := by
  rw [exists_onMessages]
  simp only [exists_onMessage_iff_harmless]

/-- The ACK of a trade subscription, without `req_id`. -/
def ackWithoutReqId : Json ℤ :=
  .object [(.method, .string ['s', 'u', 'b', 's', 'c', 'r', 'i', 'b', 'e']),
    (.result, .object [(.channel, .string ['t', 'r', 'a', 'd', 'e']),
      (.symbol, .string ['B', 'T', 'C', '/', 'U', 'S', 'D'])]),
    (.success, .bool true)]

/-- A book whose symbol has seventeen characters. -/
def bookOfLongSymbol : Json ℤ :=
  .object [(.channel, .string ['b', 'o', 'o', 'k']), (.type, .string ['u', 'p', 'd', 'a', 't', 'e']),
    (.data, .array [.object [(.symbol, .string (List.replicate 17 'X'))]])]

/-- Each of them traps a fresh endpoint. -/
theorem ack_without_reqId :
    (Endpoint.onMessages UserSession.oneEach ({} : Endpoint Unit ℤ) [ackWithoutReqId]).toOption.isNone ∧
      Endpoint.onMessage UserSession.oneEach ({} : Endpoint Unit ℤ) ackWithoutReqId = .error .absentValue ∧
      Endpoint.onMessage UserSession.oneEach ({} : Endpoint Unit ℤ) bookOfLongSymbol = .error .symbolOverflow :=
  ⟨rfl, rfl, rfl⟩

end Wirekrak.Protocol

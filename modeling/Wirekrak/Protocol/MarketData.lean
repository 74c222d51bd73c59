import Wirekrak.Lib.Reading
import Wirekrak.Protocol.Enums
import Wirekrak.Protocol.Router
import Wirekrak.Protocol.Timestamp

/-!
# Wirekrak.Protocol.MarketData — the trade and the book parser against the schema of their messages

`parseTradeResponseInto`, `parseBookInto` and `parseBookResponseInto` write into an output object that exists before the
call, and their time stamps are the 64-bit counts.  The schema is one description of a document, given a reading of the
texts and numbers in it: `Readings.schema` takes them for what they mean, `Readings.code` for what the conversions make
of them.

* `TradesDoc`, `BookDoc`, `BookResponseDoc`: the description, with the data it holds.
* `parseTradeResponseInto_ok`, `parseBookInto_ok`, `parseBookResponseInto_ok`: the parsers follow it, in the code's
  reading; `parseTradeResponseInto_eq`, `parseBookResponseInto_eq`: they are those of the router.
* `TradesClean`, `BookClean`, `BookResponseClean`: documents in which no text or number is misread.
* `market_data_exact_iff`: where the parsers are exact.
-/

namespace Wirekrak.Protocol

open Wirekrak.Lib Json

variable {D : Type}

/-! ## The parsers and their output -/

/-- The time stamp as it is stored. -/
def TradeFields.stored (t : TradeFields D) : TradeFields D := { t with timestamp := Int.bmod t.timestamp (2 ^ 64) }

def Trade.stored (t : Trade D) : Trade D := { t with toTradeFields := t.toTradeFields.stored }

/-- `trade::response::parse`: the output is reset, and the trades are appended to it one by one. -/
def parseTradeResponseInto [IntCast D] (root : Json D) (_out : TradeResponse D) : Exec (TradeResponse D) := do
  let (type, data) ← (tradesHead root).lift
  data.foldlM (fun out elem => do return { out with trades := out.trades ++ [(← parseTrade elem).stored] })
    { type, trades := [] }

/-- `schema::book::Book`. -/
structure Book (D : Type) extends BookFields D where
  symbol : Symbol

def Book.empty : Book D := ⟨⟨[], [], 0, none⟩, Symbol.empty⟩

/-- The price and the quantity of a level. -/
def parseLevel [IntCast D] (lvl : Json D) : Parse (Level D) := do
  requireObject lvl
  let price ← parseDoubleRequired lvl .price
  let qty ← parseDoubleRequired lvl .qty
  return ⟨price, qty⟩

/-- `parse_side_levels_common`: whether the side is there; its levels are appended to the output. -/
def parseSideLevelsInto [IntCast D] (book : Json D) (key : Key) (out : List (Level D)) :
    Parse (Bool × List (Level D)) := do
  match book.field? key with
  | none => return (false, out)
  | some (.array elems) =>
    return (true, ← elems.foldlM (fun out lvl => do return out ++ [← parseLevel lvl]) out)
  | some _ => .error .invalidSchema

/-- `book::response::parse` into a book. -/
def parseBookInto [IntCast D] (root : Json D) (out : Book D) : Exec (Book D) := do
  match ← (parseArrayRequired root .data).lift with
  | [book] =>
    (requireObject book).lift
    let symbol ← Symbol.ofText (← (symbolTextRequired book .symbol).lift)
    let (hasAsks, asks) ← (parseSideLevelsInto book .asks out.asks).lift
    let (hasBids, bids) ← (parseSideLevelsInto book .bids out.bids).lift
    if !hasAsks && !hasBids then .error (.result .invalidSchema)
    else
      let checksum ← (parseUint64Required book .checksum).lift
      let timestamp ← (parseTimestampOptional book .timestamp).lift
      return ⟨⟨asks, bids, BitVec.ofNat 32 checksum, timestamp.map fun t => Int.bmod t (2 ^ 64)⟩, symbol⟩
  | _ => .error (.result .invalidSchema)

/-- `book::response::parse` into a response: the output is reset. -/
def parseBookResponseInto [IntCast D] (root : Json D) (_out : BookResponse D) : Exec (BookResponse D) := do
  (requireObject root).lift
  let type ← (parsePayloadTypeRequired root .type).lift
  let book ← parseBookInto root Book.empty
  return ⟨book.toBookFields, type, book.symbol⟩

/-! ## The schema -/

/-- How the texts and the numbers of a document are read. -/
structure Readings where
  symbol : Text → Text → Prop
  payload : Text → PayloadType → Prop
  side : Text → Side → Prop
  ordType : Text → OrderType → Prop
  time : Text → Timestamp → Prop
  checksum : ℕ → BitVec 32 → Prop

/-- What they mean. -/
def Readings.schema : Readings where
  symbol s text := s ≠ [] ∧ text = s
  payload s v := PayloadType.toString (some v) = s
  side s v := Side.toString (some v) = s
  ordType s v := OrderType.toString (some v) = s
  time := Denotes
  checksum n c := c.toNat = n

/-- What the conversions make of them. -/
def Readings.code : Readings where
  symbol s text := (s ≠ [] ∧ s.length ≤ maxSymbolLength) ∧ text = s
  payload s v := toPayloadTypeEnumFast s = some v
  side s v := toSideEnumFast s = some v
  ordType s v := toOrderTypeEnumFast s = some v
  time s t := parseRfc3339In s s.length = some t
  checksum n c := c = BitVec.ofNat 32 n

/-- A trade with the text of its symbol. -/
structure TradeItem (D : Type) extends TradeFields D where
  symbol : Text

def Trade.item (t : Trade D) : TradeItem D := ⟨t.toTradeFields, t.symbol.text⟩

def TradeResponse.items (r : TradeResponse D) : PayloadType × List (TradeItem D) := (r.type, r.trades.map Trade.item)

/-- A book with the text of its symbol. -/
structure BookItem (D : Type) extends BookFields D where
  symbol : Text

def Book.item (b : Book D) : BookItem D := ⟨b.toBookFields, b.symbol.text⟩

/-- The levels of a book, behind those that the output held. -/
def BookItem.behind (out : Book D) (b : BookItem D) : BookItem D :=
  { b with asks := out.asks ++ b.asks, bids := out.bids ++ b.bids }

def BookResponse.item (r : BookResponse D) : PayloadType × BookItem D := (r.type, ⟨r.toBookFields, r.symbol.text⟩)

def text? (obj : Json D) (key : Key) : Option Text := (obj.field? key).bind string?

/-- A text of the object, read. -/
def Field {α : Type} (obj : Json D) (key : Key) (R : Text → α → Prop) (a : α) : Prop :=
  ∃ s, text? obj key = some s ∧ R s a

/-- A text that may be missing. -/
def FieldOpt {α : Type} (obj : Json D) (key : Key) (R : Text → α → Prop) (o : Option α) : Prop :=
  (obj.field? key = none ∧ o = none) ∨ ∃ s a, text? obj key = some s ∧ R s a ∧ o = some a

structure TradeElem [IntCast D] (R : Readings) (elem : Json D) (t : TradeItem D) : Prop where
  symbol : Field elem .symbol R.symbol t.symbol
  side : Field elem .side R.side t.side
  qty : (elem.field? .qty).bind double? = some t.qty
  price : (elem.field? .price).bind double? = some t.price
  tradeId : (elem.field? .tradeId).bind uint64? = some t.tradeId
  timestamp : Field elem .timestamp R.time t.timestamp
  ordType : FieldOpt elem .ordType R.ordType t.ordType

/-- A trade message: its type, and its trades in their order. -/
structure TradesDoc [IntCast D] (R : Readings) (root : Json D) (m : PayloadType × List (TradeItem D)) : Prop where
  type : Field root .type R.payload m.1
  trades : ∃ elems, (root.field? .data).bind array? = some elems ∧ elems ≠ [] ∧ List.Forall₂ (TradeElem R) elems m.2

structure LevelElem [IntCast D] (elem : Json D) (l : Level D) : Prop where
  price : (elem.field? .price).bind double? = some l.price
  qty : (elem.field? .qty).bind double? = some l.qty

/-- The levels of a side, in their order; none for a side that is missing. -/
def SideDoc [IntCast D] (book : Json D) (key : Key) (levels : List (Level D)) : Prop :=
  (book.field? key = none ∧ levels = []) ∨
    ∃ elems, book.field? key = some (.array elems) ∧ List.Forall₂ LevelElem elems levels

structure BookElem [IntCast D] (R : Readings) (book : Json D) (b : BookItem D) : Prop where
  symbol : Field book .symbol R.symbol b.symbol
  asks : SideDoc book .asks b.asks
  bids : SideDoc book .bids b.bids
  some_side : book.field? .asks ≠ none ∨ book.field? .bids ≠ none
  checksum : ∃ n, (book.field? .checksum).bind uint64? = some n ∧ R.checksum n b.checksum
  timestamp : FieldOpt book .timestamp R.time b.timestamp

/-- The one book of a book message. -/
def BookDoc [IntCast D] (R : Readings) (root : Json D) (b : BookItem D) : Prop :=
  ∃ book, (root.field? .data).bind array? = some [book] ∧ BookElem R book b

def BookResponseDoc [IntCast D] (R : Readings) (root : Json D) (m : PayloadType × BookItem D) : Prop :=
  Field root .type R.payload m.1 ∧ BookDoc R root m.2

/-! ## What the steps of the parsers accept -/

section Steps

variable {α β ε : Type}

/-- A loop that appends what it reads, and stops at the first bad element. -/
theorem foldlM_eq_mapM {γ : Type} (f : α → Except ε β) (push : γ → β → γ) (xs : List α) (out : γ) :
    xs.foldlM (fun out x => do return push out (← f x)) out = (xs.mapM f).map fun ys => ys.foldl push out := by
  induction xs generalizing out with
  | nil => rfl
  | cons x xs ih =>
    rw [List.foldlM_cons, List.mapM_cons]
    cases hx : f x with
    | error e => rfl
    | ok y =>
      have hstep := ih (push out y)
      cases hxs : xs.mapM f with
      | error e =>
        rw [hxs] at hstep
        exact hstep
      | ok ys =>
        rw [hxs] at hstep
        exact hstep

theorem mapM_ok {f : α → Except ε β} {xs : List α} {ys : List β} :
    xs.mapM f = .ok ys ↔ List.Forall₂ (fun x y => f x = .ok y) xs ys := by
  induction xs generalizing ys with
  | nil =>
    rw [List.mapM_nil, List.forall₂_nil_left_iff]
    exact ⟨fun h => by cases h; rfl, fun h => by rw [h]; rfl⟩
  | cons x xs ih =>
    simp only [List.mapM_cons, except_bind_ok, ih, List.forall₂_cons_left_iff]
    constructor
    · rintro ⟨y, hy, ys, hys, h⟩
      cases h
      exact ⟨y, ys, hy, hys, rfl⟩
    · rintro ⟨y, ys, hy, hys, rfl⟩
      exact ⟨y, hy, ys, hys, rfl⟩

theorem foldlM_ok {γ : Type} {f : α → Except ε β} {push : γ → β → γ} {xs : List α} {out r : γ} :
    xs.foldlM (fun out x => do return push out (← f x)) out = .ok r ↔
      ∃ ys, List.Forall₂ (fun x y => f x = .ok y) xs ys ∧ r = ys.foldl push out := by
  rw [foldlM_eq_mapM]
  simp only [← mapM_ok]
  cases xs.mapM f with
  | error e => simp [Except.map]
  | ok ys =>
    simp only [Except.map, Except.ok.injEq, exists_eq_left']
    exact eq_comm

theorem foldl_push (ys out : List α) : ys.foldl (fun out y => out ++ [y]) out = out ++ ys := by
  induction ys generalizing out with
  | nil => simp
  | cons y ys ih => simp [ih]

@[simp]
theorem requireObject_ok {j : Json D} {u : Unit} : requireObject j = .ok u ↔ j.object?.isSome = true := by
  unfold requireObject
  cases j.object? <;> simp

theorem object_of_field {j v : Json D} {key : Key} (h : j.field? key = some v) : j.object?.isSome = true := by
  cases j with
  | object fields => rfl
  | _ => cases h

@[simp]
theorem required_ok {get : Json D → Option α} {obj : Json D} {key : Key} {a : α} :
    required get obj key = .ok a ↔ (obj.field? key).bind get = some a := by
  unfold required
  cases (obj.field? key).bind get <;> simp

theorem object_of_bind {get : Json D → Option α} {obj : Json D} {key : Key} {a : α}
    (h : (obj.field? key).bind get = some a) : obj.object?.isSome = true := by
  obtain ⟨v, hv, -⟩ := Option.bind_eq_some_iff.mp h
  exact object_of_field hv

@[simp]
theorem symbolTextRequired_ok {obj : Json D} {key : Key} {s : Text} :
    symbolTextRequired obj key = .ok s ↔ text? obj key = some s ∧ s ≠ [] := by
  simp only [symbolTextRequired, except_bind_ok, parseStringRequired, required_ok, text?]
  constructor
  · rintro ⟨s', hs, h⟩
    by_cases hnil : s' = []
    · rw [if_pos hnil] at h
      cases h
    · rw [if_neg hnil] at h
      cases h
      exact ⟨hs, hnil⟩
  · rintro ⟨hs, hnil⟩
    exact ⟨s, hs, if_neg hnil⟩

theorem parseEnumRequired_ok {convert : Text → Option α} {obj : Json D} {key : Key} {a : α} :
    parseEnumRequired convert obj key = .ok a ↔ Field obj key (fun s a => convert s = some a) a := by
  simp only [parseEnumRequired, except_bind_ok, parseStringRequired, required_ok, Field, text?]
  refine exists_congr fun s => and_congr_right fun _ => ?_
  cases convert s <;> simp

theorem parseEnumOptional_ok {convert : Text → Option α} {obj : Json D} (hobj : obj.object?.isSome = true) {key : Key}
    {o : Option α} :
    parseEnumOptional convert obj key = .ok o ↔ FieldOpt obj key (fun s a => convert s = some a) o := by
  simp only [parseEnumOptional, parseStringOptional, Json.optional, FieldOpt, text?]
  have hreq : requireObject obj = .ok () := requireObject_ok.mpr hobj
  rw [hreq]
  cases hf : obj.field? key with
  | none =>
    simp [bind, Except.bind]
    exact eq_comm
  | some v =>
    cases hs : string? v with
    | none => simp [bind, Except.bind, hs]
    | some s =>
      cases hc : convert s with
      | none => simp [bind, Except.bind, hs, hc]
      | some a =>
        simp [bind, Except.bind, hs, hc]
        exact eq_comm

end Steps

/-! ## The parsers in the code's reading -/

section Parsers

/-- The count is wrapped when it is stored. -/
theorem parseRfc3339In_eq_some {s : Text} {t : Timestamp} :
    parseRfc3339In s s.length = some t ↔ ∃ u, parseRfc3339 s = some u ∧ Int.bmod u (2 ^ 64) = t := by
  rw [parseRfc3339In_self, Option.map_eq_some_iff]

theorem field_stored {obj : Json D} {key : Key} {t : Timestamp} : Field obj key Readings.code.time t ↔
    ∃ u, Field obj key (fun s a => parseRfc3339 s = some a) u ∧ Int.bmod u (2 ^ 64) = t := by
  simp only [Field, Readings.code, parseRfc3339In_eq_some]
  constructor
  · rintro ⟨s, hs, u, hu, rfl⟩
    exact ⟨u, ⟨s, hs, hu⟩, rfl⟩
  · rintro ⟨u, ⟨s, hs, hu⟩, rfl⟩
    exact ⟨s, hs, u, hu, rfl⟩

theorem fieldOpt_stored {obj : Json D} {key : Key} {o : Option Timestamp} : FieldOpt obj key Readings.code.time o ↔
    ∃ u, FieldOpt obj key (fun s a => parseRfc3339 s = some a) u ∧ (u.map fun t => Int.bmod t (2 ^ 64)) = o := by
  simp only [FieldOpt, Readings.code, parseRfc3339In_eq_some]
  constructor
  · rintro (⟨habsent, rfl⟩ | ⟨s, t, hs, ⟨u, hu, rfl⟩, rfl⟩)
    · exact ⟨none, Or.inl ⟨habsent, rfl⟩, rfl⟩
    · exact ⟨some u, Or.inr ⟨s, u, hs, hu, rfl⟩, rfl⟩
  · rintro ⟨u, ⟨habsent, rfl⟩ | ⟨s, t, hs, ht, rfl⟩, rfl⟩
    · exact Or.inl ⟨habsent, rfl⟩
    · exact Or.inr ⟨s, Int.bmod t (2 ^ 64), hs, ⟨t, ht, rfl⟩, rfl⟩

theorem symbol_ok {obj : Json D} {key : Key} {y : Symbol} :
    (∃ s, symbolTextRequired obj key = .ok s ∧ Symbol.ofText s = .ok y) ↔
      Field obj key Readings.code.symbol y.text := by
  simp only [symbolTextRequired_ok, ofText_ok, Field, Readings.code]
  constructor
  · rintro ⟨s, ⟨hs, hnil⟩, rfl⟩
    exact ⟨y.text, hs, ⟨hnil, y.property⟩, rfl⟩
  · rintro ⟨s, hs, ⟨hnil, -⟩, rfl⟩
    exact ⟨y.text, ⟨hs, hnil⟩, rfl⟩

theorem foldl_trades (ts : List (Trade D)) (out : TradeResponse D) :
    ts.foldl (fun out t => { out with trades := out.trades ++ [t.stored] }) out =
      { out with trades := out.trades ++ ts.map Trade.stored } := by
  induction ts generalizing out with
  | nil => simp
  | cons t ts ih => simp [ih]

theorem behind_empty (w : BookItem D) : w.behind (Book.empty : Book D) = w := rfl

theorem behind_of_nil {out : Book D} (h : out.asks = [] ∧ out.bids = []) (w : BookItem D) : w.behind out = w := by
  rw [BookItem.behind, h.1, h.2]
  rfl

variable [IntCast D]

theorem parseLevel_ok {lvl : Json D} {l : Level D} : parseLevel lvl = .ok l ↔ LevelElem lvl l := by
  simp only [parseLevel, except_bind_ok, requireObject_ok, parseDoubleRequired, required_ok]
  constructor
  · rintro ⟨-, -, price, hprice, qty, hqty, h⟩
    cases h
    exact ⟨hprice, hqty⟩
  · rintro ⟨hprice, hqty⟩
    exact ⟨(), object_of_bind hprice, l.price, hprice, l.qty, hqty, rfl⟩

theorem parseTrade_ok {elem : Json D} {v : TradeItem D} :
    (∃ t, parseTrade elem = .ok t ∧ t.stored.item = v) ↔ TradeElem .code elem v := by
  simp only [parseTrade, tradeHead, tradeTail, except_bind_ok, lift_ok, requireObject_ok, parseSideRequired,
    parseTimestampRequired, parseEnumRequired_ok, parseDoubleRequired, parseUint64Required, required_ok]
  constructor
  · rintro ⟨t, ⟨s, ⟨-, hobj, hs⟩, symbol, hsymbol, fields, ⟨side, hside, qty, hqty, price, hprice, tradeId, hid, time,
      htime, ordType, hord, hfields⟩, ht⟩, rfl⟩
    cases hfields
    cases ht
    exact ⟨symbol_ok.mp ⟨s, hs, hsymbol⟩, hside, hqty, hprice, hid, field_stored.mpr ⟨time, htime, rfl⟩,
      (parseEnumOptional_ok hobj).mp hord⟩
  · rintro ⟨hsymbol, hside, hqty, hprice, hid, htime, hord⟩
    have hobj := object_of_bind hqty
    obtain ⟨time, htime, hstored⟩ := field_stored.mp htime
    obtain ⟨y, hy⟩ : ∃ y : Symbol, y.text = v.symbol := by
      obtain ⟨s, -, ⟨-, hlen⟩, hs⟩ := hsymbol
      exact ⟨⟨s, hlen⟩, hs.symm⟩
    rw [← hy] at hsymbol
    obtain ⟨s, hs, hofText⟩ := symbol_ok.mpr hsymbol
    refine ⟨⟨{ v.toTradeFields with timestamp := time }, y⟩, ⟨s, ⟨(), hobj, hs⟩, y, hofText,
      { v.toTradeFields with timestamp := time }, ⟨v.side, hside, v.qty, hqty, v.price, hprice, v.tradeId, hid, time,
        htime, v.ordType, (parseEnumOptional_ok hobj).mpr hord, rfl⟩, rfl⟩, ?_⟩
    rw [Trade.item, Trade.stored, TradeFields.stored, hstored, hy]

theorem parseTrades_ok {elems : List (Json D)} {vs : List (TradeItem D)} :
    (∃ ts, List.Forall₂ (fun e t => parseTrade e = .ok t) elems ts ∧ ts.map (fun t => t.stored.item) = vs) ↔
      List.Forall₂ (TradeElem .code) elems vs := by
  constructor
  · rintro ⟨ts, hts, rfl⟩
    rw [List.forall₂_map_right_iff]
    exact hts.imp fun e t ht => parseTrade_ok.mp ⟨t, ht, rfl⟩
  · intro h
    induction h with
    | nil => exact ⟨[], .nil, rfl⟩
    | cons he _ ih =>
      obtain ⟨t, ht, rfl⟩ := parseTrade_ok.mpr he
      obtain ⟨ts, hts, rfl⟩ := ih
      exact ⟨t :: ts, .cons ht hts, rfl⟩

/-- **The trade parser follows the schema in the code's reading**, whatever the output held. -/
theorem parseTradeResponseInto_ok {root : Json D} {out : TradeResponse D} {v : PayloadType × List (TradeItem D)} :
    (∃ r, parseTradeResponseInto root out = .ok r ∧ r.items = v) ↔ TradesDoc .code root v := by
  simp only [parseTradeResponseInto, tradesHead, except_bind_ok, lift_ok, requireObject_ok, parsePayloadTypeRequired,
    parseEnumRequired_ok, parseArrayRequired, required_ok]
  constructor
  · rintro ⟨r, ⟨⟨type, data⟩, ⟨-, -, type', htype, data', hdata, hhead⟩, hfold⟩, rfl⟩
    by_cases hnil : data' = []
    · rw [if_pos hnil] at hhead
      cases hhead
    · rw [if_neg hnil] at hhead
      cases hhead
      obtain ⟨ts, hts, rfl⟩ := foldlM_ok.mp hfold
      rw [foldl_trades]
      refine ⟨htype, data, hdata, hnil, parseTrades_ok.mp ⟨ts, hts, ?_⟩⟩
      simp [TradeResponse.items]
  · rintro ⟨htype, data, hdata, hnil, helems⟩
    obtain ⟨ts, hts, hvs⟩ := parseTrades_ok.mpr helems
    refine ⟨⟨v.1, ts.map Trade.stored⟩, ⟨(v.1, data), ⟨(), object_of_bind hdata, v.1, htype, data, hdata, if_neg hnil⟩,
      foldlM_ok.mpr ⟨ts, hts, ?_⟩⟩, ?_⟩
    · rw [foldl_trades]
      rfl
    · simp only [TradeResponse.items, List.map_map]
      exact Prod.ext rfl hvs

/-- A side is appended to what the output holds. -/
theorem parseSideLevelsInto_ok {book : Json D} {key : Key} {out : List (Level D)} {r : Bool × List (Level D)} :
    parseSideLevelsInto book key out = .ok r ↔
      ∃ levels, SideDoc book key levels ∧ r = (decide (book.field? key ≠ none), out ++ levels) := by
  unfold parseSideLevelsInto SideDoc
  cases hf : book.field? key with
  | none =>
    constructor
    · intro h
      cases h
      exact ⟨[], Or.inl ⟨rfl, rfl⟩, by simp⟩
    · rintro ⟨levels, ⟨-, rfl⟩ | ⟨elems, h, -⟩, rfl⟩
      · simp
        rfl
      · cases h
  | some v =>
    cases v with
    | array elems =>
      simp only [except_bind_ok, foldlM_ok, parseLevel_ok, foldl_push]
      constructor
      · rintro ⟨a, ⟨levels, hlevels, rfl⟩, h⟩
        cases h
        exact ⟨levels, Or.inr ⟨elems, rfl, hlevels⟩, by simp⟩
      · rintro ⟨levels, ⟨h, -⟩ | ⟨elems', h, hlevels⟩, rfl⟩
        · cases h
        · cases h
          refine ⟨_, ⟨levels, hlevels, rfl⟩, ?_⟩
          simp
          rfl
    | _ => simp

/-- **The book parser follows the schema in the code's reading**, and puts the levels behind those of the output. -/
theorem parseBookInto_ok {root : Json D} {out : Book D} {v : BookItem D} :
    (∃ b, parseBookInto root out = .ok b ∧ b.item = v) ↔ ∃ w, BookDoc .code root w ∧ v = w.behind out := by
  simp only [parseBookInto, except_bind_ok, lift_ok, parseArrayRequired, required_ok]
  constructor
  · rintro ⟨b, ⟨elems, hdata, h⟩, rfl⟩
    obtain _ | ⟨book, _ | ⟨_, _⟩⟩ := elems
    · cases h
    · simp only [except_bind_ok, lift_ok, requireObject_ok, parseSideLevelsInto_ok] at h
      obtain ⟨-, hobj, s, hs, symbol, hsymbol, -, ⟨asks, hasks, rfl⟩, -, ⟨bids, hbids, rfl⟩, h⟩ := h
      by_cases hnone : book.field? .asks = none ∧ book.field? .bids = none
      · simp [hnone.1, hnone.2] at h
      · rw [if_neg (by simpa using fun ha hb => hnone ⟨ha, hb⟩)] at h
        simp only [except_bind_ok, lift_ok, parseUint64Required, required_ok, parseTimestampOptional,
          parseEnumOptional_ok hobj] at h
        obtain ⟨checksum, hchecksum, time, htime, h⟩ := h
        cases h
        refine ⟨⟨⟨asks, bids, BitVec.ofNat 32 checksum, time.map fun t => Int.bmod t (2 ^ 64)⟩, symbol.text⟩,
          ⟨book, hdata, symbol_ok.mp ⟨s, hs, hsymbol⟩, hasks, hbids, by tauto, ⟨checksum, hchecksum, rfl⟩,
            fieldOpt_stored.mpr ⟨time, htime, rfl⟩⟩, rfl⟩
    · cases h
  · rintro ⟨w, ⟨book, hdata, hw⟩, rfl⟩
    obtain ⟨checksum, hchecksum, hbits⟩ := hw.checksum
    have hobj := object_of_bind hchecksum
    obtain ⟨time, htime, hstored⟩ := fieldOpt_stored.mp hw.timestamp
    obtain ⟨y, hy⟩ : ∃ y : Symbol, y.text = w.symbol := by
      obtain ⟨s, -, ⟨-, hlen⟩, hs⟩ := hw.symbol
      exact ⟨⟨s, hlen⟩, hs.symm⟩
    obtain ⟨s, hs, hofText⟩ := symbol_ok.mpr (hy ▸ hw.symbol)
    have hsome : ¬ ((!decide (book.field? .asks ≠ none) && !decide (book.field? .bids ≠ none)) = true) := by
      have := hw.some_side
      simp
      tauto
    refine ⟨⟨⟨out.asks ++ w.asks, out.bids ++ w.bids, w.checksum, w.timestamp⟩, y⟩, ⟨[book], hdata, ?_⟩, ?_⟩
    · simp only [except_bind_ok, lift_ok, requireObject_ok, parseSideLevelsInto_ok]
      refine ⟨(), hobj, s, hs, y, hofText, _, ⟨w.asks, hw.asks, rfl⟩, _, ⟨w.bids, hw.bids, rfl⟩, ?_⟩
      rw [if_neg hsome]
      simp only [except_bind_ok, lift_ok, parseUint64Required, required_ok, parseTimestampOptional,
        parseEnumOptional_ok hobj]
      refine ⟨checksum, hchecksum, time, htime, ?_⟩
      rw [hstored, hbits]
      rfl
    · rw [Book.item, BookItem.behind, hy]

/-- **The parser of book responses follows the schema in the code's reading**, whatever the output held. -/
theorem parseBookResponseInto_ok {root : Json D} {out : BookResponse D} {v : PayloadType × BookItem D} :
    (∃ r, parseBookResponseInto root out = .ok r ∧ r.item = v) ↔ BookResponseDoc .code root v := by
  simp only [parseBookResponseInto, except_bind_ok, lift_ok, requireObject_ok, parsePayloadTypeRequired,
    parseEnumRequired_ok]
  constructor
  · rintro ⟨r, ⟨-, -, type, htype, b, hb, h⟩, rfl⟩
    cases h
    obtain ⟨w, hw, hbw⟩ := parseBookInto_ok.mp ⟨b, hb, rfl⟩
    rw [behind_empty] at hbw
    subst hbw
    exact ⟨htype, hw⟩
  · rintro ⟨htype, hbook⟩
    obtain ⟨b, hb, hbw⟩ := (parseBookInto_ok (v := v.2)).mpr ⟨v.2, hbook, (behind_empty v.2).symm⟩
    have hobj : root.object?.isSome = true := by
      obtain ⟨s, hs, -⟩ := htype
      exact object_of_bind hs
    refine ⟨⟨b.toBookFields, v.1, b.symbol⟩, ⟨(), hobj, v.1, htype, b, hb, rfl⟩, ?_⟩
    rw [BookResponse.item]
    exact Prod.ext rfl hbw

end Parsers

/-! ## The parsers of the router -/

section Router

def TradeResponse.stored (r : TradeResponse D) : TradeResponse D := { r with trades := r.trades.map Trade.stored }

def BookResponse.stored (r : BookResponse D) : BookResponse D :=
  { r with timestamp := r.timestamp.map fun t => Int.bmod t (2 ^ 64) }

variable [IntCast D]

/-- Into whatever output, the trades are those of `parseTradeResponse`. -/
theorem parseTradeResponseInto_eq (root : Json D) (out : TradeResponse D) :
    parseTradeResponseInto root out = (parseTradeResponse root).map TradeResponse.stored := by
  unfold parseTradeResponseInto parseTradeResponse
  cases (tradesHead root).lift with
  | error e => rfl
  | ok head =>
    obtain ⟨type, data⟩ := head
    have hfold := foldlM_eq_mapM parseTrade (fun (out : TradeResponse D) t =>
      { out with trades := out.trades ++ [t.stored] }) data ⟨type, []⟩
    refine hfold.trans ?_
    change _ = Except.map TradeResponse.stored ((data.mapM parseTrade).bind fun trades => .ok ⟨type, trades⟩)
    cases data.mapM parseTrade with
    | error e => rfl
    | ok trades => exact congrArg Except.ok (foldl_trades trades _)

theorem parseSideLevelsInto_eq (book : Json D) (key : Key) (out : List (Level D)) :
    parseSideLevelsInto book key out =
      (parseSideLevels book key).map fun side => (side.isSome, out ++ side.getD []) := by
  unfold parseSideLevelsInto parseSideLevels
  cases book.field? key with
  | none => simp [pure, Except.pure, Except.map]
  | some v =>
    cases v with
    | array elems =>
      simp only
      rw [foldlM_eq_mapM]
      change _ = Except.map _ ((elems.mapM parseLevel).bind fun out => .ok (some out))
      cases elems.mapM parseLevel with
      | error e => rfl
      | ok levels => exact congrArg (fun l => Except.ok (true, l)) (foldl_push levels out)
    | _ => rfl

/-- Into whatever output, the book is that of `parseBookResponse`. -/
theorem parseBookResponseInto_eq (root : Json D) (out : BookResponse D) :
    parseBookResponseInto root out = (parseBookResponse root).map BookResponse.stored := by
  unfold parseBookResponseInto parseBookResponse bookHead parseBookInto
  cases requireObject root with
  | error e => rfl
  | ok u =>
    cases parsePayloadTypeRequired root .type with
    | error e => rfl
    | ok type =>
      cases parseArrayRequired root .data with
      | error e => rfl
      | ok data =>
        match data with
        | [] | _ :: _ :: _ => rfl
        | [book] =>
          simp only [bind, Except.bind, Parse.lift]
          cases requireObject book with
          | error e => rfl
          | ok u =>
            cases symbolTextRequired book .symbol with
            | error e => rfl
            | ok text =>
              simp only [pure, Except.pure]
              cases Symbol.ofText text with
              | error e => rfl
              | ok symbol =>
                simp only [bookTail, parseSideLevelsInto_eq, bind, Except.bind]
                cases parseSideLevels book .asks with
                | error e => rfl
                | ok asks =>
                  cases parseSideLevels book .bids with
                  | error e => rfl
                  | ok bids =>
                    simp only [Except.map]
                    by_cases hnone : asks.isNone = true ∧ bids.isNone = true
                    · rw [if_pos hnone, if_pos (by simpa using hnone)]
                    · rw [if_neg hnone, if_neg (by simpa using hnone)]
                      cases parseUint64Required book .checksum with
                      | error e => rfl
                      | ok n => cases parseTimestampOptional book .timestamp <;> rfl

end Router

/-! ## Where the readings agree -/

/-- The text is the name of a value. -/
def IsName {α : Type} (toString : Option α → Text) (s : Text) : Prop := ∃ a, toString (some a) = s

/-- The text is no time stamp that the parser slips on. -/
def CleanTime (s : Text) : Prop := ∀ (st : Stamp) (tail : Text), st.Admitted → st.text ++ tail = s → ¬ Slip st tail

theorem faithful_symbol : Faithful Readings.code.symbol Readings.schema.symbol fun s => s.length ≤ maxSymbolLength where
  agree hlen := and_congr_left fun _ => and_iff_left hlen
  clean_of ha _ := ha.1.2

theorem faithful_tags {α : Type} {pack : Text → Text} {toString : Option α → Text} {tags : List (Text × α)}
    (h : TagsOf pack (fun a => toString (some a)) tags) :
    Faithful (fun s a => ofTag tags (pack s) = some a) (fun s a => toString (some a) = s) (IsName toString) where
  agree := by
    rintro s a ⟨b, rfl⟩
    rw [ofTag_eq_some_iff h]
    exact ⟨fun hab => by rw [h.pack_inj hab], fun hab => by rw [hab]⟩
  clean_of _ hi := ⟨_, hi⟩

theorem faithful_payload : Faithful Readings.code.payload Readings.schema.payload (IsName PayloadType.toString) :=
  faithful_tags payloadTypeTags_spec

theorem faithful_side : Faithful Readings.code.side Readings.schema.side (IsName Side.toString) :=
  faithful_tags sideTags_spec

theorem faithful_ordType : Faithful Readings.code.ordType Readings.schema.ordType (IsName OrderType.toString) :=
  faithful_tags orderTypeTags_spec

theorem faithful_time : Faithful Readings.code.time Readings.schema.time CleanTime where
  agree := by
    intro s t hclean
    have hexact := (parse_exact_iff s []).mpr fun ⟨st, tail, hst, htext, hslip⟩ => hclean st tail hst htext hslip
    rw [List.append_nil] at hexact
    exact hexact t
  clean_of := by
    rintro s t ha hi st tail hst rfl
    have hread := parse_of_admitted hst tail []
    rw [List.append_nil, show parseRfc3339In (st.text ++ tail) (st.text ++ tail).length = some t from ha] at hread
    exact not_slip_of_denotes hst.toShaped hi (Option.some.inj hread).symm

theorem faithful_checksum : Faithful Readings.code.checksum Readings.schema.checksum fun n => n < 2 ^ 32 where
  agree := by
    intro n c hn
    constructor
    · rintro rfl
      exact BitVec.toNat_ofNat _ _ |>.trans (Nat.mod_eq_of_lt hn)
    · rintro rfl
      change c = BitVec.ofNat 32 c.toNat
      rw [BitVec.ofNat_toNat, BitVec.setWidth_eq]
  clean_of := by
    rintro n c - rfl
    exact c.isLt

section Documents

variable {α : Type} {actual intended : Text → α → Prop} {clean : Text → Prop}

/-- If the field is a text, it is clean. -/
def FieldClean (obj : Json D) (key : Key) (clean : Text → Prop) : Prop := ∀ s, text? obj key = some s → clean s

theorem faithful_field (h : Faithful actual intended clean) (key : Key) :
    Faithful (fun obj : Json D => Field obj key actual) (fun obj => Field obj key intended)
      fun obj => FieldClean obj key clean :=
  h.through fun obj => text? obj key

theorem faithful_fieldOpt (h : Faithful actual intended clean) (key : Key) :
    Faithful (fun obj : Json D => FieldOpt obj key actual) (fun obj => FieldOpt obj key intended)
      fun obj => FieldClean obj key clean :=
  h.optional (fun obj => text? obj key) (fun obj => obj.field? key = none) fun obj habsent => by simp [text?, habsent]

/-- A trade without a text that is misread: the symbol fits, the side and the order type are names, and the time stamp
is one. -/
structure TradeClean (elem : Json D) : Prop where
  symbol : FieldClean elem .symbol fun s => s.length ≤ maxSymbolLength
  side : FieldClean elem .side (IsName Side.toString)
  timestamp : FieldClean elem .timestamp CleanTime
  ordType : FieldClean elem .ordType (IsName OrderType.toString)

structure TradesClean (root : Json D) : Prop where
  type : FieldClean root .type (IsName PayloadType.toString)
  trades : ∀ elems, (root.field? .data).bind array? = some elems → ∀ e ∈ elems, TradeClean e

structure BookElemClean (book : Json D) : Prop where
  symbol : FieldClean book .symbol fun s => s.length ≤ maxSymbolLength
  checksum : ∀ n, (book.field? .checksum).bind uint64? = some n → n < 2 ^ 32
  timestamp : FieldClean book .timestamp CleanTime

def BookClean (root : Json D) : Prop := ∀ book, (root.field? .data).bind array? = some [book] → BookElemClean book

def BookResponseClean (root : Json D) : Prop :=
  FieldClean root .type (IsName PayloadType.toString) ∧ BookClean root

variable [IntCast D]

theorem faithful_trade : Faithful (TradeElem (D := D) .code) (TradeElem .schema) TradeClean where
  agree := by
    intro elem t hclean
    have hsymbol := (faithful_field faithful_symbol .symbol).agree (y := t.symbol) hclean.symbol
    have hside := (faithful_field faithful_side .side).agree (y := t.side) hclean.side
    have htime := (faithful_field faithful_time .timestamp).agree (y := t.timestamp) hclean.timestamp
    have hord := (faithful_fieldOpt faithful_ordType .ordType).agree (y := t.ordType) hclean.ordType
    constructor
    · rintro ⟨h1, h2, h3, h4, h5, h6, h7⟩
      exact ⟨hsymbol.mp h1, hside.mp h2, h3, h4, h5, htime.mp h6, hord.mp h7⟩
    · rintro ⟨h1, h2, h3, h4, h5, h6, h7⟩
      exact ⟨hsymbol.mpr h1, hside.mpr h2, h3, h4, h5, htime.mpr h6, hord.mpr h7⟩
  clean_of ha hi :=
    ⟨(faithful_field faithful_symbol .symbol).clean_of ha.symbol hi.symbol,
      (faithful_field faithful_side .side).clean_of ha.side hi.side,
      (faithful_field faithful_time .timestamp).clean_of ha.timestamp hi.timestamp,
      (faithful_fieldOpt faithful_ordType .ordType).clean_of ha.ordType hi.ordType⟩

theorem faithful_trades : Faithful (TradesDoc (D := D) .code) (TradesDoc .schema) TradesClean where
  agree := by
    intro root m hclean
    have htype := (faithful_field faithful_payload .type).agree (y := m.1) hclean.type
    have htrades : ∀ elems, (root.field? .data).bind array? = some elems →
        (List.Forall₂ (TradeElem .code) elems m.2 ↔ List.Forall₂ (TradeElem .schema) elems m.2) :=
      fun elems helems => faithful_trade.list.agree (hclean.trades elems helems)
    constructor
    · rintro ⟨h1, elems, helems, hne, h2⟩
      exact ⟨htype.mp h1, elems, helems, hne, (htrades elems helems).mp h2⟩
    · rintro ⟨h1, elems, helems, hne, h2⟩
      exact ⟨htype.mpr h1, elems, helems, hne, (htrades elems helems).mpr h2⟩
  clean_of := by
    rintro root m ⟨ha, elems, helems, -, htrades⟩ ⟨hi, elems', helems', -, htrades'⟩
    obtain rfl := Option.some.inj (helems.symm.trans helems')
    refine ⟨(faithful_field faithful_payload .type).clean_of ha hi, fun elems' h => ?_⟩
    obtain rfl := Option.some.inj (helems.symm.trans h)
    exact faithful_trade.list.clean_of htrades htrades'

theorem faithful_bookElem : Faithful (BookElem (D := D) .code) (BookElem .schema) BookElemClean where
  agree := by
    intro book b hclean
    have hsymbol := (faithful_field faithful_symbol .symbol).agree (y := b.symbol) hclean.symbol
    have hsum := (faithful_checksum.through fun book : Json D => (book.field? .checksum).bind uint64?).agree
      (y := b.checksum) hclean.checksum
    have htime := (faithful_fieldOpt faithful_time .timestamp).agree (y := b.timestamp) hclean.timestamp
    constructor
    · rintro ⟨h1, h2, h3, h4, h5, h6⟩
      exact ⟨hsymbol.mp h1, h2, h3, h4, hsum.mp h5, htime.mp h6⟩
    · rintro ⟨h1, h2, h3, h4, h5, h6⟩
      exact ⟨hsymbol.mpr h1, h2, h3, h4, hsum.mpr h5, htime.mpr h6⟩
  clean_of ha hi :=
    ⟨(faithful_field faithful_symbol .symbol).clean_of ha.symbol hi.symbol,
      (faithful_checksum.through fun book : Json D => (book.field? .checksum).bind uint64?).clean_of ha.checksum
        hi.checksum,
      (faithful_fieldOpt faithful_time .timestamp).clean_of ha.timestamp hi.timestamp⟩

theorem faithful_book : Faithful (BookDoc (D := D) .code) (BookDoc .schema) BookClean where
  agree hclean := exists_congr fun book => and_congr_right fun hbook => faithful_bookElem.agree (hclean book hbook)
  clean_of := by
    rintro root b ⟨book, hbook, ha⟩ ⟨book', hbook', hi⟩ book'' hbook''
    obtain rfl : book = book' := List.singleton_inj.mp (Option.some.inj (hbook.symm.trans hbook'))
    obtain rfl : book = book'' := List.singleton_inj.mp (Option.some.inj (hbook.symm.trans hbook''))
    exact faithful_bookElem.clean_of ha hi

theorem faithful_bookResponse :
    Faithful (BookResponseDoc (D := D) .code) (BookResponseDoc .schema) BookResponseClean where
  agree hclean := and_congr ((faithful_field faithful_payload .type).agree hclean.1) (faithful_book.agree hclean.2)
  clean_of ha hi :=
    ⟨(faithful_field faithful_payload .type).clean_of ha.1 hi.1, faithful_book.clean_of ha.2 hi.2⟩

end Documents

/-! ## Exactness -/

section Exactness

variable [IntCast D]

theorem sideDoc_unique {book : Json D} {key : Key} {a b : List (Level D)} (ha : SideDoc book key a)
    (hb : SideDoc book key b) : a = b := by
  rcases ha with ⟨hnone, rfl⟩ | ⟨elems, helems, ha⟩
  · rcases hb with ⟨-, rfl⟩ | ⟨elems, helems, -⟩
    · rfl
    · rw [hnone] at helems
      cases helems
  · rcases hb with ⟨hnone, -⟩ | ⟨elems', helems', hb⟩
    · rw [hnone] at helems
      cases helems
    · obtain rfl : elems = elems' := Json.array.inj (Option.some.inj (helems.symm.trans helems'))
      clear helems helems'
      induction ha generalizing b with
      | nil => exact (List.forall₂_nil_left_iff.mp hb).symm
      | @cons e l _ _ hl _ ih =>
        obtain ⟨l', ls', hl', hrest, rfl⟩ := List.forall₂_cons_left_iff.mp hb
        obtain ⟨price, qty⟩ := l
        obtain ⟨price', qty'⟩ := l'
        obtain rfl : price = price' := Option.some.inj (hl.price.symm.trans hl'.price)
        obtain rfl : qty = qty' := Option.some.inj (hl.qty.symm.trans hl'.qty)
        rw [ih hrest]

/-- The levels that a book parser finds do not depend on the reading. -/
theorem behind_of_schema {root : Json D} {out : Book D} {w : BookItem D} (hcode : BookDoc .code root w)
    (hschema : BookDoc .schema root (w.behind out)) : out.asks = [] ∧ out.bids = [] := by
  obtain ⟨book, hbook, hw⟩ := hcode
  obtain ⟨book', hbook', hw'⟩ := hschema
  obtain rfl : book = book' := List.singleton_inj.mp (Option.some.inj (hbook.symm.trans hbook'))
  exact ⟨List.append_left_eq_self.mp (sideDoc_unique hw'.asks hw.asks),
    List.append_left_eq_self.mp (sideDoc_unique hw'.bids hw.bids)⟩

theorem book_exact_iff (root : Json D) (out : Book D) :
    (∀ v, (∃ b, parseBookInto root out = .ok b ∧ b.item = v) ↔ BookDoc .schema root v) ↔
      (BookClean root ∧ out.asks = [] ∧ out.bids = []) ∨
        ∀ v, ¬ BookDoc .code root v ∧ ¬ BookDoc .schema root v := by
  simp only [parseBookInto_ok]
  constructor
  · intro hexact
    by_cases hw : ∃ w, BookDoc .code root w
    · obtain ⟨w, hw⟩ := hw
      have hschema := (hexact (w.behind out)).mp ⟨w, hw, rfl⟩
      have hnil := behind_of_schema hw hschema
      rw [behind_of_nil hnil] at hschema
      exact Or.inl ⟨faithful_book.clean_of hw hschema, hnil⟩
    · refine Or.inr fun v => ⟨fun hv => hw ⟨v, hv⟩, fun hv => ?_⟩
      obtain ⟨w, hcode, -⟩ := (hexact v).mpr hv
      exact hw ⟨w, hcode⟩
  · rintro (⟨hclean, hnil⟩ | hnone) v
    · simp only [behind_of_nil hnil, exists_eq_right']
      exact faithful_book.agree hclean
    · exact iff_of_false (fun ⟨w, hw, _⟩ => (hnone w).1 hw) (hnone v).2

/-- **The parsers return what the document says, whatever the output held, just where no text or number of the document
is misread**, or it is no message in either reading: then the parser fails, and rightly so.  A document without what is
misread needs nothing else.  The parser that fills a book must be given one without levels. -/
theorem market_data_exact_iff (root : Json D) :
    (∀ out : TradeResponse D,
      (∀ v, (∃ r, parseTradeResponseInto root out = .ok r ∧ r.items = v) ↔ TradesDoc .schema root v) ↔
        TradesClean root ∨ ∀ v, ¬ TradesDoc .code root v ∧ ¬ TradesDoc .schema root v) ∧
    (∀ out : BookResponse D,
      (∀ v, (∃ r, parseBookResponseInto root out = .ok r ∧ r.item = v) ↔ BookResponseDoc .schema root v) ↔
        BookResponseClean root ∨ ∀ v, ¬ BookResponseDoc .code root v ∧ ¬ BookResponseDoc .schema root v) ∧
    (∀ out : Book D,
      (∀ v, (∃ b, parseBookInto root out = .ok b ∧ b.item = v) ↔ BookDoc .schema root v) ↔
        (BookClean root ∧ out.asks = [] ∧ out.bids = []) ∨
          ∀ v, ¬ BookDoc .code root v ∧ ¬ BookDoc .schema root v) := by
  refine ⟨fun out => ?_, fun out => ?_, fun out => book_exact_iff root out⟩
  · simp only [parseTradeResponseInto_ok]
    exact faithful_trades.exact_iff root
  · simp only [parseBookResponseInto_ok]
    exact faithful_bookResponse.exact_iff root

end Exactness

/-- A book update whose checksum has 33 bits. -/
def wideChecksum : Json ℤ :=
  .object [(.type, .string ['u', 'p', 'd', 'a', 't', 'e']), (.data, .array [.object [(.symbol, .string ['A']),
    (.asks, .array []), (.checksum, .int 4294967296)]])]

/-- It is accepted with the checksum zero. -/
theorem wideChecksum_truncated :
    (∀ out, ∃ r, parseBookResponseInto wideChecksum out = .ok r ∧ r.checksum = 0) ∧
    ¬ ∃ v, BookResponseDoc .schema wideChecksum v := by
  refine ⟨fun out => ⟨⟨⟨[], [], 0, none⟩, .update, ⟨['A'], by decide⟩⟩, rfl, rfl⟩, ?_⟩
  rintro ⟨v, -, book, hbook, hw⟩
  obtain ⟨n, hn, hbits⟩ := hw.checksum
  obtain rfl := List.singleton_inj.mp (Option.some.inj hbook)
  obtain rfl : 4294967296 = n := Option.some.inj hn
  exact absurd v.2.checksum.isLt (by rw [show v.2.checksum.toNat = 4294967296 from hbits]; decide)

end Wirekrak.Protocol

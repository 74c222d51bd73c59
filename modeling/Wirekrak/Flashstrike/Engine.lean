import Wirekrak.Flashstrike.OrderBook

/-!
# Wirekrak.Flashstrike.Engine — the matching engine's manager

`Taker` is the order `match_order_` is given by reference: the local order of `process_order`, or a resting order in
the pool (`match_resting_order_`).  The trade events go to the log `trades`, as if the ring had always room: the source
waits while it is full, which `Wirekrak.Flashstrike.TradesRing` is about.

A round of the matching loop uses up the taker or the maker it trades with; a maker that is used up is removed, if the
id map finds it.  A loop that runs for more rounds than there are orders has failed to remove one and repeats the
same round for ever: `matchLoop` reports it as `Fault.diverges`.
-/

namespace Wirekrak.Flashstrike

structure Engine where
  book : OrderBook
  trades : List TradeEvent
  seqGen : UInt64

inductive Taker
  | fresh (o : Order)
  | resting (i : ℕ)

inductive Request
  | newOrder (id : OrderId) (type : OrderType) (side : Side) (price : ℤ) (qty : ℤ)
  | modifyPrice (id : OrderId) (newPrice : ℤ)
  | modifyQuantity (id : OrderId) (newQty : ℤ)
  | cancel (id : OrderId)
  deriving DecidableEq

namespace Engine

def new (cfg : Config) : Engine := ⟨.new cfg, [], 1⟩

/-- The order behind the reference. -/
def taker (b : OrderBook) : Taker → Order
  | .fresh o => o
  | .resting i => b.order i

/-- `qty -= q; filled += q`. -/
def fill (q : ℤ) (o : Order) : Order := { o with qty := o.qty - q, filled := wrap64 (o.filled + q) }

def fillTaker (b : OrderBook) (q : ℤ) : Taker → OrderBook × Taker
  | .fresh o => (b, .fresh (fill q o))
  | .resting i => (b.modifyOrder i (fill q), .resting i)

/-- The event is numbered and logged; its way into the ring is not part of it. -/
def emitTradeEvent (e : Engine) (maker taker : OrderId) (price : ℤ) (qty : ℤ) (side : Side) : Engine :=
  { e with trades := e.trades ++ [⟨e.seqGen, maker, taker, price, qty, side⟩], seqGen := e.seqGen + 1 }

variable (cfg : Config)

/-- A maker with nothing left is removed from the book. -/
def removeIfFilled (b : OrderBook) (r : ℕ) : Except Fault OrderBook :=
  if (b.order r).qty = 0 then do
    let (_, b1) ← b.removeOrder cfg (b.order r).id
    return b1
  else .ok b

/-- One round of the loop, with the head `r` of the best level at `(k, off)`. -/
def matchRound (side : Side) (e : Engine) (t : Taker) (k off r : ℕ) : Except Fault (Engine × Taker) := do
  let tradeQty := min (taker e.book t).qty (e.book.order r).qty
  let (b1, t1) := fillTaker e.book tradeQty t
  let b2 := b1.modifyOrder r (fill tradeQty)
  let b3 := b2.modifyLevel k off (fun l => l.subtractQuantity tradeQty)
  let price := (b3.level k off).price
  let b4 ← removeIfFilled cfg b3 r
  return (({ e with book := b4 } : Engine).emitTradeEvent (b4.order r).id (taker b4 t1).id price tradeQty side, t1)

def matchLoop (side : Side) : ℕ → Engine → Taker → Except Fault (Engine × Taker)
  | 0, _, _ => .error .diverges
  | fuel + 1, e, t => do
    match ← e.book.getBestPriceLevel cfg side.opp with
    | none => return (e, t)
    | some (k, off) =>
      match (e.book.level k off).headIdx with
      | none => return (e, t)
      | some r =>
        if 0 < (taker e.book t).qty then
          let (e1, t1) ← matchRound cfg side e t k off r
          matchLoop side fuel e1 t1
        else return (e, t)

/-- No crossing: a limit order against the price of the best level. -/
def blocked (side : Side) (b : OrderBook) (o : Order) : Option (ℕ × ℕ) → Bool
  | none => false
  | some (k, off) => decide (o.type = .limit) && !(side.crosses o.price (b.level k off).price)

/-- The status `match_order_` returns after its loop. -/
def fillStatus (o : Order) : OperationStatus :=
  if 0 < o.filled then (if o.qty = 0 then .fullFill else .partialFill) else .noMatch

def matchOrder (side : Side) (e : Engine) (t : Taker) : Except Fault (OperationStatus × Engine × Taker) := do
  let best ← e.book.getBestPriceLevel cfg side.opp
  if blocked side e.book (taker e.book t) best then return (.noMatch, e, t)
  else
    let (e1, t1) ← matchLoop cfg side (cfg.maxOrders + 2) e t
    return (fillStatus (taker e1.book t1), e1, t1)

/-- What the taker has paid is subtracted from the level it rests in. -/
def settleLevel (side : Side) (status : OperationStatus) (b : OrderBook) (i : ℕ) (qty : ℤ) : Except Fault OrderBook :=
  if status = .partialFill ∨ status = .fullFill then do
    let price := (b.order i).price
    let (k, b1) ← b.getOrCreatePartition cfg side (cfg.partitionId price)
    return b1.modifyLevel k (cfg.offset price) (fun l => l.subtractQuantity (qty - (b1.order i).qty))
  else .ok b

def matchRestingOrder (side : Side) (e : Engine) (i : ℕ) : Except Fault (OperationStatus × Engine) := do
  let qty := (e.book.order i).qty
  let (status, e1, _) ← matchOrder cfg side e (.resting i)
  let b1 ← settleLevel cfg side status e1.book i qty
  if status = .fullFill then
    let (_, b2) ← b1.removeOrder cfg (b1.order i).id
    return (status, { e1 with book := b2 })
  else return (status, { e1 with book := b1 })

def validateOrder (o : Order) : Bool :=
  decide (cfg.priceMin ≤ o.price) && decide (o.price ≤ cfg.priceMax) &&
  decide (cfg.qtyMin ≤ o.qty) && decide (o.qty ≤ cfg.qtyMax) &&
  decide (cfg.minNotional ≤ wrap64 (o.price * o.qty))

/-- The order of a request, before it is matched. -/
def incoming (id : OrderId) (type : OrderType) (side : Side) (price : ℤ) (qty : ℤ) : Order :=
  ⟨some 0, some 0, some 0, id, type, price, qty, 0, side⟩

/-- The status, the pool index, the order as `process_order` leaves it, and the new state. -/
def processOrder (e : Engine) (id : OrderId) (type : OrderType) (side : Side) (price : ℤ) (qty : ℤ) :
    Except Fault (OperationStatus × OrderIdx × Order × Engine) :=
  let order := incoming id type side price qty
  if validateOrder cfg order = false then .ok (.rejected, none, order, e)
  else do
    let (status, e1, t) ← matchOrder cfg side e (.fresh order)
    let o := taker e1.book t
    if type = .market ∨ status = .fullFill then return (status, none, o, e1)
    else
      let (insertStatus, idx, b) ← e1.book.insertOrder cfg o.id side o.price o.qty o.filled
      let e2 : Engine := { e1 with book := b }
      if insertStatus = .success then
        let status := if 0 < o.filled then (if 0 < o.qty then .partialFill else .fullFill) else status
        return (status, idx, o, e2)
      else return (insertStatus, idx, o, e2)

def modifyOrderPrice (e : Engine) (id : OrderId) (newPrice : ℤ) : Except Fault (OperationStatus × Engine) := do
  let (status, idx, b) ← e.book.repriceOrder cfg id newPrice
  let e1 : Engine := { e with book := b }
  match status, idx with
  | .success, some i =>
    let (matchStatus, e2) ← matchRestingOrder cfg (b.order i).side e1 i
    return (if matchStatus = .partialFill ∨ matchStatus = .fullFill then matchStatus else .success, e2)
  | status, _ => return (status, e1)

def modifyOrderQuantity (e : Engine) (id : OrderId) (newQty : ℤ) : Except Fault (OperationStatus × Engine) := do
  let (status, b) ← e.book.resizeOrder cfg id newQty
  return (status, { e with book := b })

def cancelOrder (e : Engine) (id : OrderId) : Except Fault (OperationStatus × Engine) := do
  let (status, b) ← e.book.removeOrder cfg id
  return (status, { e with book := b })

/-- One request. -/
def step (e : Engine) : Request → Except Fault (OperationStatus × Engine)
  | .newOrder id type side price qty => do
    let (status, _, _, e1) ← processOrder cfg e id type side price qty
    return (status, e1)
  | .modifyPrice id newPrice => modifyOrderPrice cfg e id newPrice
  | .modifyQuantity id newQty => modifyOrderQuantity cfg e id newQty
  | .cancel id => cancelOrder cfg e id

end Engine

end Wirekrak.Flashstrike

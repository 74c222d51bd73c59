import Wirekrak.Flashstrike.OrderIdMap

/-!
# Wirekrak.Flashstrike.OrderBook — pools, price level stores, order book

The book holds the order pool (an intrusive free list through `nextFree`), the id map, the partition pool (a stack of
free partitions) and the two stores.  `linkOrder` and `unlinkOrder` work on the level of the order's price in a given
partition; the emptied partition is not released.

An operation that would read a missing partition returns a `Fault`.
-/

namespace Wirekrak.Flashstrike

open Wirekrak.Lib

structure OrderPool where
  pool : ℕ → Order
  freeHead : OrderIdx

structure PartitionPool where
  partitions : ℕ → Partition
  freeList : List ℕ

structure OrderBook where
  orderPool : OrderPool
  idMap : OrderIdMap
  partPool : PartitionPool
  bids : PriceLevelStore
  asks : PriceLevelStore

/-! ## Order pool -/

namespace OrderPool

/-- An order as value-initialised by `vector::resize`. -/
def blank : Order := ⟨some 0, some 0, none, 0, .limit, 0, 0, 0, .bid⟩

def new (maxOrders : ℕ) : OrderPool where
  pool := fun i => { blank with nextFree := if i + 1 < maxOrders then some (i + 1) else none }
  freeHead := some 0

def allocate (p : OrderPool) : Option (ℕ × OrderPool) :=
  match p.freeHead with
  | none => none
  | some i =>
    let o := p.pool i
    some (i, { pool := Function.update p.pool i { o with nextFree := none, prevIdx := none, nextIdx := none, qty := 0 }
               freeHead := o.nextFree })

def release (p : OrderPool) (i : ℕ) : OrderPool where
  pool := Function.update p.pool i { p.pool i with nextFree := p.freeHead }
  freeHead := some i

def modify (p : OrderPool) (i : ℕ) (f : Order → Order) : OrderPool :=
  { p with pool := Function.update p.pool i (f (p.pool i)) }

end OrderPool

/-! ## Partitions -/

namespace Partition

def initializeForPartid (cfg : Config) (partid : ℕ) : Partition where
  levels := fun i => ⟨partid * cfg.partitionSize + i, none, none, 0, false⟩
  bitmap := .empty
  bestPrice := invalidPrice
  hasBest := false

def tryUpdateBest (side : Side) (part : Partition) (price : ℤ) : Partition :=
  if part.hasBest = false then { part with bestPrice := price, hasBest := true }
  else if side.isBetter price part.bestPrice then { part with bestPrice := price } else part

/-- The level of the best bid is the highest set bit, that of the best ask the lowest. -/
def bestOffset (cfg : Config) (side : Side) (part : Partition) : Option ℕ :=
  match side with
  | .bid => part.bitmap.highest? cfg.levelWords
  | .ask => part.bitmap.lowest? cfg.levelWords

def recomputeBest (cfg : Config) (side : Side) (part : Partition) : Partition :=
  match part.bestOffset cfg side with
  | some off => { part with bestPrice := (part.levels off).price, hasBest := true }
  | none => { part with bestPrice := invalidPrice, hasBest := false }

def modifyLevel (part : Partition) (off : ℕ) (f : PriceLevel → PriceLevel) : Partition :=
  { part with levels := Function.update part.levels off (f (part.levels off)) }

/-- The level's part of `link_order_`. -/
def linkLevel (part : Partition) (off i : ℕ) (qty : ℤ) : Partition :=
  let part1 := part.modifyLevel off (fun l =>
    ({ l with tailIdx := some i, headIdx := if l.headIdx = none then some i else l.headIdx } : PriceLevel).addQuantity
      qty)
  if (part1.levels off).active then part1
  else { part1.modifyLevel off (fun l => { l with active := true }) with bitmap := part1.bitmap.set off }

/-- The level's part of `unlink_order_`. -/
def unlinkLevel (part : Partition) (off i : ℕ) (o : Order) : Partition :=
  let part1 := part.modifyLevel off (fun l => l.detach i o)
  if (part1.levels off).headIdx = none then
    { part1.modifyLevel off (fun l => { l with active := false }) with bitmap := part1.bitmap.clear off }
  else part1

def minPrice (part : Partition) : ℤ := (part.levels 0).price

def maxPrice (cfg : Config) (part : Partition) : ℤ := (part.levels (cfg.partitionSize - 1)).price

end Partition

namespace PriceLevelStore

def new : PriceLevelStore := ⟨fun _ => none, .empty, invalidPrice, false⟩

def tryUpdateGlobalBest (side : Side) (st : PriceLevelStore) (price : ℤ) : PriceLevelStore :=
  if st.hasBest = false then { st with bestPrice := price, hasBest := true }
  else if side.isBetter price st.bestPrice then { st with bestPrice := price } else st

end PriceLevelStore

namespace OrderBook

def new (cfg : Config) : OrderBook where
  orderPool := .new cfg.maxOrders
  idMap := .new cfg.maxOrders
  partPool := ⟨fun _ => .initializeForPartid cfg 0, (List.range cfg.numPartitions).reverse⟩
  bids := .new
  asks := .new

/-! ## Accessors -/

def order (b : OrderBook) (i : ℕ) : Order := b.orderPool.pool i

def modifyOrder (b : OrderBook) (i : ℕ) (f : Order → Order) : OrderBook :=
  { b with orderPool := b.orderPool.modify i f }

def getStore (b : OrderBook) : Side → PriceLevelStore
  | .bid => b.bids
  | .ask => b.asks

def setStore (b : OrderBook) : Side → PriceLevelStore → OrderBook
  | .bid, st => { b with bids := st }
  | .ask, st => { b with asks := st }

def partition (b : OrderBook) (k : ℕ) : Partition := b.partPool.partitions k

def modifyPartition (b : OrderBook) (k : ℕ) (f : Partition → Partition) : OrderBook :=
  { b with partPool := { b.partPool with
      partitions := Function.update b.partPool.partitions k (f (b.partPool.partitions k)) } }

/-- The partition a store holds for `partid`, as an index of the pool. -/
def held (b : OrderBook) (side : Side) (partid : ℕ) : Option ℕ := (b.getStore side).activePartitions partid

variable (cfg : Config)

def getPartition (b : OrderBook) (side : Side) (partid : ℕ) : Except Fault ℕ :=
  if cfg.numPartitions ≤ partid then .error .invalidPartitionId
  else
    match b.held side partid with
    | none => .error .partitionNotFound
    | some k => .ok k

def getOrCreatePartition (b : OrderBook) (side : Side) (partid : ℕ) : Except Fault (ℕ × OrderBook) :=
  if cfg.numPartitions ≤ partid then .error .invalidPartitionId
  else
    match b.held side partid with
    | some k => .ok (k, b)
    | none =>
      match b.partPool.freeList with
      | [] => .error .partitionPoolExhausted
      | k :: rest =>
        let st := b.getStore side
        .ok (k, { b with partPool :=
                    ⟨Function.update b.partPool.partitions k (.initializeForPartid cfg partid), rest⟩ }.setStore side
                  { st with activePartitions := Function.update st.activePartitions partid (some k)
                            activeBitmap := st.activeBitmap.set partid })

/-- The partition and the offset of the best price level. -/
def getBestPriceLevel (b : OrderBook) (side : Side) : Except Fault (Option (ℕ × ℕ)) :=
  let st := b.getStore side
  if st.hasBest = false then .ok none
  else do
    let k ← b.getPartition cfg side (cfg.partitionId st.bestPrice)
    return some (k, cfg.offset st.bestPrice)

def level (b : OrderBook) (k off : ℕ) : PriceLevel := (b.partition k).levels off

def modifyLevel (b : OrderBook) (k off : ℕ) (f : PriceLevel → PriceLevel) : OrderBook :=
  b.modifyPartition k (fun part => part.modifyLevel off f)

/-! ## Linking and unlinking -/

/-- The links of the order and of the last order of its level, in `link_order_`. -/
def linkCells (b : OrderBook) (i : ℕ) (tail : OrderIdx) : OrderBook :=
  let b1 := b.modifyOrder i (fun o => { o with prevIdx := tail, nextIdx := none })
  match tail with
  | some t => b1.modifyOrder t (fun o => { o with nextIdx := some i })
  | none => b1

/-- The links of the order's neighbours, in `unlink_order_`. -/
def unlinkCells (b : OrderBook) (i : ℕ) : OrderBook :=
  let b1 := match (b.order i).prevIdx with
    | some p => b.modifyOrder p (fun o => { o with nextIdx := (b.order i).nextIdx })
    | none => b
  match (b1.order i).nextIdx with
  | some n => b1.modifyOrder n (fun o => { o with prevIdx := (b1.order i).prevIdx })
  | none => b1

def linkOrder (b : OrderBook) (i k : ℕ) : OrderBook :=
  let off := cfg.offset (b.order i).price
  let b1 := b.linkCells i (b.level k off).tailIdx
  b1.modifyPartition k (fun part => part.linkLevel off i (b1.order i).qty)

def unlinkOrder (b : OrderBook) (i k : ℕ) : OrderBook :=
  let off := cfg.offset (b.order i).price
  let b1 := b.unlinkCells i
  b1.modifyPartition k (fun part => part.unlinkLevel off i (b1.order i))

/-- The new state, and whether the best of the partition changed.  The release of an emptied partition is disabled. -/
def unlinkOrderAndUpdatePartition (b : OrderBook) (side : Side) (i k : ℕ) : Bool × OrderBook :=
  let price := (b.order i).price
  let b1 := b.unlinkOrder cfg i k
  if (b1.level k (cfg.offset price)).active = false then
    if (b1.partition k).bitmap.isEmpty cfg.levelWords then (true, b1)
    else if (b1.partition k).bestPrice = price then
      (true, b1.modifyPartition k (Partition.recomputeBest cfg side))
    else (false, b1)
  else (false, b1)

/-! ## Best prices -/

/-- One active partition of the scan in `recompute_global_best_`. -/
def scanPartition (b : OrderBook) (side : Side) (newBest : ℤ) (partid : ℕ) : ℤ :=
  match b.held side partid with
  | none => newBest
  | some k =>
    let bestPrice := (b.partition k).bestPrice
    if newBest = invalidPrice || side.isBetter bestPrice newBest then bestPrice else newBest

def recomputeGlobalBest (b : OrderBook) (side : Side) : OrderBook :=
  let st := b.getStore side
  let newBest := st.activeBitmap.foldSet (b.scanPartition side) cfg.partitionWords invalidPrice
  b.setStore side { st with bestPrice := newBest, hasBest := decide (newBest ≠ invalidPrice) }

def tryUpdateBests (b : OrderBook) (side : Side) (k : ℕ) (price : ℤ) : OrderBook :=
  let b1 := b.setStore side ((b.getStore side).tryUpdateGlobalBest side price)
  b1.modifyPartition k (fun part => part.tryUpdateBest side price)

/-! ## Store operations -/

/-- `insert_order_`. -/
def storeInsert (b : OrderBook) (side : Side) (i : ℕ) : Except Fault OrderBook := do
  let price := (b.order i).price
  let (k, b1) ← b.getOrCreatePartition cfg side (cfg.partitionId price)
  return (b1.linkOrder cfg i k).tryUpdateBests side k price

/-- `remove_order_`. -/
def storeRemove (b : OrderBook) (side : Side) (i : ℕ) : Except Fault OrderBook := do
  let price := (b.order i).price
  let k ← b.getPartition cfg side (cfg.partitionId price)
  let (changed, b1) := b.unlinkOrderAndUpdatePartition cfg side i k
  let st := b1.getStore side
  if st.hasBest && decide (st.bestPrice = price) && changed then return b1.recomputeGlobalBest cfg side
  else return b1

/-- Unlink, change the price, link in the partition `k'`. -/
def relinkOrder (b : OrderBook) (i k k' : ℕ) (newPrice : ℤ) : OrderBook :=
  ((b.unlinkOrder cfg i k).modifyOrder i (fun o => { o with price := newPrice })).linkOrder cfg i k'

/-- `try_to_reprice_order_by_flashstrike_`: `none` when no fast path applies. -/
def tryToRepriceOrderByFlashstrike (b : OrderBook) (side : Side) (i : ℕ) (newPrice : ℤ) :
    Except Fault (Option OrderBook) := do
  let price := (b.order i).price
  let oldPid := cfg.partitionId price
  let newPid := cfg.partitionId newPrice
  let k ← b.getPartition cfg side oldPid
  let part := b.partition k
  if oldPid = newPid then
    if price ≠ (b.getStore side).bestPrice then
      if side.isWorse newPrice part.bestPrice then return some (b.relinkOrder cfg i k k newPrice)
      else return none
    else if side.isBetter newPrice price && decide (part.minPrice ≤ newPrice) &&
        decide (newPrice ≤ part.maxPrice cfg) then
      let b1 := b.relinkOrder cfg i k k newPrice
      return some (b1.setStore side { b1.getStore side with bestPrice := newPrice })
    else return none
  else if price ≠ part.bestPrice then
    let (k', b1) ← b.getOrCreatePartition cfg side newPid
    let b2 := b1.relinkOrder cfg i k k' newPrice
    let b3 := b2.modifyPartition k' (fun part => part.tryUpdateBest side newPrice)
    return some (b3.setStore side ((b3.getStore side).tryUpdateGlobalBest side newPrice))
  else return none

def storeReprice (b : OrderBook) (side : Side) (i : ℕ) (newPrice : ℤ) : Except Fault OrderBook := do
  match ← b.tryToRepriceOrderByFlashstrike cfg side i newPrice with
  | some b1 => return b1
  | none =>
    let b1 ← b.storeRemove cfg side i
    (b1.modifyOrder i (fun o => { o with price := newPrice })).storeInsert cfg side i

def storeResize (b : OrderBook) (side : Side) (i : ℕ) (newQty : ℤ) : Except Fault OrderBook := do
  let o := b.order i
  let k ← b.getPartition cfg side (cfg.partitionId o.price)
  let b1 := b.modifyLevel k (cfg.offset o.price) (fun l => l.addQuantity (newQty - o.qty))
  return b1.modifyOrder i (fun o => { o with qty := newQty })

/-! ## Book operations -/

def insertOrder (b : OrderBook) (id : OrderId) (side : Side) (price : ℤ) (qty filled : ℤ) :
    Except Fault (OperationStatus × OrderIdx × OrderBook) :=
  match b.orderPool.allocate with
  | none => .ok (.badAlloc, none, b)
  | some (i, pool) =>
    match b.idMap.insert id i with
    | none => .ok (.idmapFull, none, { b with orderPool := pool.release i })
    | some idMap => do
      let b1 : OrderBook := { b with orderPool := pool, idMap := idMap }
      let b2 := b1.modifyOrder i (fun o =>
        { o with id := id, type := .limit, side := side, price := price, qty := qty, filled := filled })
      let b3 ← b2.storeInsert cfg side i
      return (.success, some i, b3)

/-- The status, the order (`*out_order`) and the new state. -/
def repriceOrder (b : OrderBook) (id : OrderId) (newPrice : ℤ) :
    Except Fault (OperationStatus × OrderIdx × OrderBook) :=
  if newPrice = 0 then .ok (.rejected, none, b)
  else
    match b.idMap.find id with
    | none => .ok (.notFound, none, b)
    | some i =>
      if (b.order i).price = newPrice then .ok (.unchanged, some i, b)
      else do
        let b1 ← b.storeReprice cfg (b.order i).side i newPrice
        return (.success, some i, b1)

def resizeOrder (b : OrderBook) (id : OrderId) (newQty : ℤ) : Except Fault (OperationStatus × OrderBook) :=
  if newQty = 0 then .ok (.rejected, b)
  else
    match b.idMap.find id with
    | none => .ok (.notFound, b)
    | some i =>
      if (b.order i).qty = newQty then .ok (.unchanged, b)
      else do
        let b1 ← b.storeResize cfg (b.order i).side i newQty
        return (.success, b1)

def removeOrder (b : OrderBook) (id : OrderId) : Except Fault (OperationStatus × OrderBook) :=
  match b.idMap.find id with
  | none => .ok (.notFound, b)
  | some i => do
    let b1 ← b.storeRemove cfg (b.order i).side i
    return (.success, { b1 with idMap := b1.idMap.remove id, orderPool := b1.orderPool.release i })

end OrderBook

/-! ## What the accessors read after an update -/

namespace OrderBook

section Accessors

variable (b : OrderBook) (i j k k' : ℕ) (f : Order → Order) (g : Partition → Partition) (s s' : Side)
  (st : PriceLevelStore)

theorem order_modifyOrder : (b.modifyOrder i f).order j = if j = i then f (b.order i) else b.order j := by
  unfold modifyOrder order OrderPool.modify
  by_cases h : j = i
  · subst h; simp
  · simp [h]

@[simp] theorem order_modifyOrder_self : (b.modifyOrder i f).order i = f (b.order i) := by
  rw [order_modifyOrder, if_pos rfl]

@[simp] theorem getStore_modifyOrder : (b.modifyOrder i f).getStore s = b.getStore s := by cases s <;> rfl

@[simp] theorem partition_modifyOrder : (b.modifyOrder i f).partition k = b.partition k := rfl

@[simp] theorem partPool_modifyOrder : (b.modifyOrder i f).partPool = b.partPool := rfl

@[simp] theorem idMap_modifyOrder : (b.modifyOrder i f).idMap = b.idMap := rfl

@[simp] theorem freeHead_modifyOrder : (b.modifyOrder i f).orderPool.freeHead = b.orderPool.freeHead := rfl

@[simp] theorem order_modifyPartition : (b.modifyPartition k g).order j = b.order j := rfl

@[simp] theorem getStore_modifyPartition : (b.modifyPartition k g).getStore s = b.getStore s := by cases s <;> rfl

theorem partition_modifyPartition :
    (b.modifyPartition k g).partition k' = if k' = k then g (b.partition k) else b.partition k' := by
  unfold modifyPartition partition
  by_cases h : k' = k
  · subst h; simp
  · simp [h]

@[simp] theorem partition_modifyPartition_self : (b.modifyPartition k g).partition k = g (b.partition k) := by
  rw [partition_modifyPartition, if_pos rfl]

@[simp] theorem orderPool_modifyPartition : (b.modifyPartition k g).orderPool = b.orderPool := rfl

@[simp] theorem idMap_modifyPartition : (b.modifyPartition k g).idMap = b.idMap := rfl

@[simp] theorem freeList_modifyPartition : (b.modifyPartition k g).partPool.freeList = b.partPool.freeList := rfl

@[simp] theorem order_setStore : (b.setStore s st).order j = b.order j := by cases s <;> rfl

@[simp] theorem partition_setStore : (b.setStore s st).partition k = b.partition k := by cases s <;> rfl

theorem getStore_setStore : (b.setStore s st).getStore s' = if s' = s then st else b.getStore s' := by
  cases s <;> cases s' <;> rfl

@[simp] theorem getStore_setStore_self : (b.setStore s st).getStore s = st := by cases s <;> rfl

@[simp] theorem orderPool_setStore : (b.setStore s st).orderPool = b.orderPool := by cases s <;> rfl

@[simp] theorem partPool_setStore : (b.setStore s st).partPool = b.partPool := by cases s <;> rfl

@[simp] theorem idMap_setStore : (b.setStore s st).idMap = b.idMap := by cases s <;> rfl

end Accessors

/-! ## The state after linking and unlinking -/

section Link

variable (cfg : Config) (b : OrderBook) (i j k k' : ℕ) (tail : OrderIdx) (s : Side)

theorem order_linkCells (ht : tail ≠ some i) : (b.linkCells i tail).order j =
    if j = i then { b.order i with prevIdx := tail, nextIdx := none }
    else if tail = some j then { b.order j with nextIdx := some i } else b.order j := by
  unfold linkCells
  cases tail with
  | none => simp [order_modifyOrder]
  | some t =>
    have hti : t ≠ i := fun h => ht (congrArg some h)
    simp only [order_modifyOrder, Option.some.injEq]
    by_cases hj : j = i
    · subst hj
      simp [Ne.symm hti]
    · by_cases hjt : j = t
      · subst hjt
        simp [hj]
      · simp [hj, hjt, Ne.symm hjt]

theorem order_unlinkCells (hp : (b.order i).prevIdx ≠ some i) :
    (b.unlinkCells i).order j =
      { b.order j with
        nextIdx := if (b.order i).prevIdx = some j then (b.order i).nextIdx else (b.order j).nextIdx
        prevIdx := if (b.order i).nextIdx = some j then (b.order i).prevIdx else (b.order j).prevIdx } := by
  -- the first write leaves the order itself alone
  have hself : ∀ p, (b.order i).prevIdx = some p → ∀ f, (b.modifyOrder p f).order i = b.order i := by
    intro p hpi f
    rw [order_modifyOrder, if_neg]
    rintro rfl
    exact hp hpi
  unfold unlinkCells
  cases hprev : (b.order i).prevIdx with
  | none =>
    dsimp only
    cases hnext : (b.order i).nextIdx with
    | none => simp
    | some n =>
      dsimp only
      rw [order_modifyOrder]
      by_cases hj : j = n
      · subst hj; simp [hprev]
      · simp [hj, Ne.symm hj]
  | some p =>
    dsimp only
    rw [hself p hprev]
    cases hnext : (b.order i).nextIdx with
    | none =>
      dsimp only
      rw [order_modifyOrder]
      by_cases hj : j = p
      · subst hj; simp
      · simp [hj, Ne.symm hj]
    | some n =>
      dsimp only
      rw [order_modifyOrder, order_modifyOrder, order_modifyOrder]
      by_cases hj : j = n
      · subst hj
        by_cases hjp : j = p
        · subst hjp; simp [hprev]
        · simp [hprev, hjp, Ne.symm hjp]
      · by_cases hjp : j = p
        · subst hjp; simp [hj, Ne.symm hj]
        · simp [hj, hjp, Ne.symm hj, Ne.symm hjp]

@[simp] theorem getStore_linkCells : (b.linkCells i tail).getStore s = b.getStore s := by
  unfold linkCells
  cases tail <;> simp

@[simp] theorem partPool_linkCells : (b.linkCells i tail).partPool = b.partPool := by
  unfold linkCells
  cases tail <;> simp

@[simp] theorem idMap_linkCells : (b.linkCells i tail).idMap = b.idMap := by
  unfold linkCells
  cases tail <;> simp

@[simp] theorem freeHead_linkCells : (b.linkCells i tail).orderPool.freeHead = b.orderPool.freeHead := by
  unfold linkCells
  cases tail <;> simp

@[simp] theorem getStore_unlinkCells : (b.unlinkCells i).getStore s = b.getStore s := by
  unfold unlinkCells
  dsimp only
  split <;> split <;> simp

@[simp] theorem partPool_unlinkCells : (b.unlinkCells i).partPool = b.partPool := by
  unfold unlinkCells
  dsimp only
  split <;> split <;> simp

@[simp] theorem idMap_unlinkCells : (b.unlinkCells i).idMap = b.idMap := by
  unfold unlinkCells
  dsimp only
  split <;> split <;> simp

@[simp] theorem freeHead_unlinkCells : (b.unlinkCells i).orderPool.freeHead = b.orderPool.freeHead := by
  unfold unlinkCells
  dsimp only
  split <;> split <;> simp

theorem order_linkOrder : (b.linkOrder cfg i k).order j =
    (b.linkCells i (b.level k (cfg.offset (b.order i).price)).tailIdx).order j := rfl

theorem order_unlinkOrder : (b.unlinkOrder cfg i k).order j = (b.unlinkCells i).order j := rfl

theorem partition_linkOrder (ht : (b.level k (cfg.offset (b.order i).price)).tailIdx ≠ some i) :
    (b.linkOrder cfg i k).partition k' =
      if k' = k then (b.partition k).linkLevel (cfg.offset (b.order i).price) i (b.order i).qty
      else b.partition k' := by
  unfold linkOrder
  dsimp only
  rw [partition_modifyPartition, order_linkCells _ _ _ _ ht, if_pos rfl]
  unfold partition
  rw [partPool_linkCells]

theorem partition_unlinkOrder (hp : (b.order i).prevIdx ≠ some i) (hn : (b.order i).nextIdx ≠ some i) :
    (b.unlinkOrder cfg i k).partition k' =
      if k' = k then (b.partition k).unlinkLevel (cfg.offset (b.order i).price) i (b.order i)
      else b.partition k' := by
  have hi : (b.unlinkCells i).order i = b.order i := by
    rw [order_unlinkCells _ _ _ hp, if_neg hp, if_neg hn]
  unfold unlinkOrder
  dsimp only
  rw [partition_modifyPartition, hi]
  unfold partition
  rw [partPool_unlinkCells]

@[simp] theorem getStore_linkOrder : (b.linkOrder cfg i k).getStore s = b.getStore s := by
  simp [linkOrder]

@[simp] theorem freeList_linkOrder : (b.linkOrder cfg i k).partPool.freeList = b.partPool.freeList := by
  simp [linkOrder]

@[simp] theorem idMap_linkOrder : (b.linkOrder cfg i k).idMap = b.idMap := by
  simp [linkOrder]

@[simp] theorem freeHead_linkOrder : (b.linkOrder cfg i k).orderPool.freeHead = b.orderPool.freeHead := by
  simp [linkOrder]

@[simp] theorem getStore_unlinkOrder : (b.unlinkOrder cfg i k).getStore s = b.getStore s := by
  simp [unlinkOrder]

@[simp] theorem freeList_unlinkOrder : (b.unlinkOrder cfg i k).partPool.freeList = b.partPool.freeList := by
  simp [unlinkOrder]

@[simp] theorem idMap_unlinkOrder : (b.unlinkOrder cfg i k).idMap = b.idMap := by
  simp [unlinkOrder]

@[simp] theorem freeHead_unlinkOrder : (b.unlinkOrder cfg i k).orderPool.freeHead = b.orderPool.freeHead := by
  simp [unlinkOrder]

end Link

end OrderBook

namespace Partition

variable (part : Partition) (off i : ℕ) (qty : ℤ) (o : Order)

/-- The level an order is linked into, afterwards. -/
def linkedLevel (l : PriceLevel) : PriceLevel where
  price := l.price
  headIdx := if l.headIdx = none then some i else l.headIdx
  tailIdx := some i
  totalQty := wrap64 (l.totalQty + qty)
  active := true

/-- The level an order is unlinked from, afterwards. -/
def unlinkedLevel (l : PriceLevel) : PriceLevel where
  price := l.price
  headIdx := if l.headIdx = some i then o.nextIdx else l.headIdx
  tailIdx := if l.tailIdx = some i then o.prevIdx else l.tailIdx
  totalQty := wrap64 (l.totalQty + -o.qty)
  active := if (if l.headIdx = some i then o.nextIdx else l.headIdx) = none then false else l.active

theorem linkLevel_eq : part.linkLevel off i qty =
    { part with
      levels := Function.update part.levels off (linkedLevel i qty (part.levels off))
      bitmap := if (part.levels off).active then part.bitmap else part.bitmap.set off } := by
  unfold linkLevel modifyLevel linkedLevel PriceLevel.addQuantity
  cases h : (part.levels off).active <;> simp [h]

theorem unlinkLevel_eq : part.unlinkLevel off i o =
    { part with
      levels := Function.update part.levels off (unlinkedLevel i o (part.levels off))
      bitmap := if (unlinkedLevel i o (part.levels off)).headIdx = none then part.bitmap.clear off
        else part.bitmap } := by
  have hl : ∀ l : PriceLevel, l.detach i o = { unlinkedLevel i o l with active := l.active } := by
    intro l
    unfold unlinkedLevel PriceLevel.detach PriceLevel.addQuantity
    dsimp only
    split_ifs <;> rfl
  unfold unlinkLevel modifyLevel
  simp only [hl]
  have hact : (unlinkedLevel i o (part.levels off)).active =
      if (unlinkedLevel i o (part.levels off)).headIdx = none then false else (part.levels off).active := rfl
  by_cases h : (unlinkedLevel i o (part.levels off)).headIdx = none
  · rw [if_pos h] at hact
    simp only [Function.update_self, h, if_true, Function.update_idem, ← hact]
    rw [← h]
  · rw [if_neg h] at hact
    simp only [Function.update_self, h, if_false, ← hact]

end Partition

end Wirekrak.Flashstrike

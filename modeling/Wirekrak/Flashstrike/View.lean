import Wirekrak.Flashstrike.Bests
import Wirekrak.Flashstrike.Shape

/-!
# Wirekrak.Flashstrike.View — the book as queues, order data and best prices

`View` is the book without its memory: the queues, the data of the orders, the recorded best prices, the free indices
and, for each level, by how much its total is off (`slack`).  `attach`, `detach`, `move` and `reprice` are what
`insert_order_`, `remove_order_` and `reprice_order` do to it.

`Mem cfg b V`: the memory of the stores stands for `V`.
-/

namespace Wirekrak.Flashstrike

structure OrderData where
  id : OrderId
  type : OrderType
  price : ℤ
  qty : ℤ
  filled : ℤ
  side : Side
  deriving DecidableEq

/-- An order without its links. -/
def Order.data (o : Order) : OrderData := ⟨o.id, o.type, o.price, o.qty, o.filled, o.side⟩

structure View where
  queues : Queues
  data : ℕ → OrderData
  bests : Side → Bests
  free : List ℕ
  slack : Side → ℤ → ℤ

namespace View

variable (cfg : Config)

def setData (V : View) (i : ℕ) (f : OrderData → OrderData) : View :=
  { V with data := Function.update V.data i (f (V.data i)) }

def setBests (V : View) (s : Side) (g : Bests) : View := { V with bests := Function.update V.bests s g }

def addSlack (V : View) (s : Side) (p x : ℤ) : View :=
  { V with slack := fun s' p' => if s' = s ∧ p' = p then V.slack s p + x else V.slack s' p' }

/-- The quantity resting at a price. -/
def resting (V : View) (s : Side) (p : ℤ) : ℤ := ((V.queues s p).map (fun i => (V.data i).qty)).sum

/-- `link_order_`. -/
def link (V : View) (i : ℕ) : View :=
  let d := V.data i
  { V with queues := V.queues.set d.side d.price (V.queues d.side d.price ++ [i]) }

/-- `unlink_order_`. -/
def unlink (V : View) (i : ℕ) : View :=
  let d := V.data i
  { V with queues := V.queues.set d.side d.price ((V.queues d.side d.price).erase i) }

/-- `insert_order_`. -/
def attach (V : View) (i : ℕ) : View :=
  let d := V.data i
  (V.link i).setBests d.side ((V.bests d.side).insert cfg d.side d.price)

/-- `remove_order_`. -/
def detach (V : View) (i : ℕ) : View :=
  let d := V.data i
  let V1 := V.unlink i
  V1.setBests d.side ((V.bests d.side).remove cfg d.side (V1.queues d.side) d.price)

def setPrice (V : View) (i : ℕ) (newPrice : ℤ) : View := V.setData i (fun d => { d with price := newPrice })

/-- Unlink, change the price, link. -/
def move (V : View) (i : ℕ) (newPrice : ℤ) : View := ((V.unlink i).setPrice i newPrice).link i

/-- `reprice_order`: the three fast paths, and the slow one. -/
def reprice (V : View) (i : ℕ) (newPrice : ℤ) : View :=
  let d := V.data i
  let g := V.bests d.side
  let partBest := (g.partAt (cfg.partitionId d.price)).2
  let slow := ((V.detach cfg i).setPrice i newPrice).attach cfg i
  if cfg.partitionId d.price = cfg.partitionId newPrice then
    if d.price ≠ g.best then (if d.side.isWorse newPrice partBest then V.move i newPrice else slow)
    else if d.side.isBetter newPrice d.price then (V.move i newPrice).setBests d.side { g with best := newPrice }
    else slow
  else if d.price ≠ partBest then (V.move i newPrice).setBests d.side (g.insert cfg d.side newPrice)
  else slow

theorem data_setData (V : View) (i j : ℕ) (f : OrderData → OrderData) :
    (V.setData i f).data j = if j = i then f (V.data i) else V.data j := by
  unfold setData
  dsimp only
  by_cases h : j = i
  · subst h
    rw [Function.update_self, if_pos rfl]
  · rw [Function.update_of_ne h, if_neg h]

@[simp] theorem data_setData_self (V : View) (i : ℕ) (f : OrderData → OrderData) :
    (V.setData i f).data i = f (V.data i) := by
  rw [data_setData, if_pos rfl]

theorem addSlack_addSlack (V : View) (s : Side) (p x y : ℤ) :
    (V.addSlack s p x).addSlack s p y = V.addSlack s p (x + y) := by
  unfold addSlack
  congr 1
  funext s' p'
  by_cases h : s' = s ∧ p' = p
  · simp only [h, and_self, if_true]
    omega
  · simp only [h, if_false]

@[simp] theorem addSlack_zero (V : View) (s : Side) (p : ℤ) : V.addSlack s p 0 = V := by
  unfold addSlack
  congr 1
  funext s' p'
  split_ifs with h
  · rw [h.1, h.2, Int.add_zero]
  · rfl

section Queues

variable {V : View} {s : Side} {p : ℤ} {i : ℕ} (hs : (V.data i).side = s) (hp : (V.data i).price = p)

include hs hp

theorem queues_link : (V.link i).queues = V.queues.set s p (V.queues s p ++ [i]) := by
  subst hs hp
  rfl

theorem queues_unlink : (V.unlink i).queues = V.queues.set s p ((V.queues s p).erase i) := by
  subst hs hp
  rfl

theorem attach_eq (cfg : Config) :
    V.attach cfg i = (V.link i).setBests s ((V.bests s).insert cfg s p) := by
  subst hs hp
  rfl

theorem detach_eq (cfg : Config) : V.detach cfg i =
    (V.unlink i).setBests s ((V.bests s).remove cfg s ((V.unlink i).queues s) p) := by
  subst hs hp
  rfl

end Queues

end View

namespace OrderBook

variable (cfg : Config)

/-- The recorded best prices of a store. -/
def bests (b : OrderBook) (s : Side) : Bests where
  has := (b.getStore s).hasBest
  best := (b.getStore s).bestPrice
  part := fun pid => (b.held s pid).map (fun k => ((b.partition k).hasBest, (b.partition k).bestPrice))

/-- The recorded quantity of a level. -/
def totalAt (b : OrderBook) (s : Side) (p : ℤ) : ℤ :=
  match b.held s (cfg.partitionId p) with
  | some k => (b.level k (cfg.offset p)).totalQty
  | none => 0

/-- The memory of the stores stands for the view. -/
structure Mem (b : OrderBook) (V : View) : Prop where
  shape : b.Shape cfg V.queues
  data : ∀ j, (b.order j).data = V.data j
  bests : ∀ s, b.bests s = V.bests s
  totals : ∀ s p, cfg.InPlan p → b.totalAt cfg s p = wrap64 (V.resting s p + V.slack s p)

/-- The pool's free list and the id map stay. -/
structure SamePool (b b' : OrderBook) : Prop where
  idMap : b'.idMap = b.idMap
  freeHead : b'.orderPool.freeHead = b.orderPool.freeHead
  nextFree : ∀ j, (b'.order j).nextFree = (b.order j).nextFree

theorem SamePool.refl (b : OrderBook) : SamePool b b := ⟨rfl, rfl, fun _ => rfl⟩

theorem SamePool.trans {b1 b2 b3 : OrderBook} (h : SamePool b1 b2) (h' : SamePool b2 b3) : SamePool b1 b3 :=
  ⟨h'.idMap.trans h.idMap, h'.freeHead.trans h.freeHead, fun j => (h'.nextFree j).trans (h.nextFree j)⟩

variable {cfg} {b b' : OrderBook} {V : View} {Q : Queues} {s : Side} {p : ℤ} {i k pid : ℕ}

/-! ## Levels and best prices that stay -/

/-- The totals of all levels but one stay. -/
theorem totalAt_of_ne (hparts : b.PartsOk cfg) (hh : SameHeld b b') (hplan : cfg.InPlan p)
    (hk : b.held s (cfg.partitionId p) = some k) (hpart : ∀ k', k' ≠ k → b'.partition k' = b.partition k')
    (hlevel : ∀ off, off ≠ cfg.offset p → b'.level k off = b.level k off) {s' : Side} {p' : ℤ} (hplan' : cfg.InPlan p')
    (hne : ¬ (s' = s ∧ p' = p)) : b'.totalAt cfg s' p' = b.totalAt cfg s' p' := by
  unfold totalAt
  rw [hh.held]
  cases hk' : b.held s' (cfg.partitionId p') with
  | none => rfl
  | some k' =>
    dsimp only
    by_cases hkk : k' = k
    · subst hkk
      obtain ⟨rfl, hpid⟩ := hparts.inj _ _ _ _ _ hk' hk
      rw [hlevel]
      intro hoff
      refine hne ⟨rfl, ?_⟩
      rw [← hplan'.priceOf_eq, ← hplan.priceOf_eq, hpid, hoff]
    · unfold level
      rw [hpart k' hkk]

theorem totalAt_eq (hk : b.held s (cfg.partitionId p) = some k) :
    b.totalAt cfg s p = (b.level k (cfg.offset p)).totalQty := by
  unfold totalAt
  rw [hk]

/-- The recorded prices depend on the stores and on the flags and prices of the partitions. -/
theorem bests_congr (hstore : b'.getStore s = b.getStore s)
    (hpart : ∀ pid k, b.held s pid = some k →
      (b'.partition k).hasBest = (b.partition k).hasBest ∧ (b'.partition k).bestPrice = (b.partition k).bestPrice) :
    b'.bests s = b.bests s := by
  unfold bests held
  rw [hstore]
  congr 1
  funext pid
  cases hk : (b.getStore s).activePartitions pid with
  | none => rfl
  | some k =>
    obtain ⟨h1, h2⟩ := hpart pid k hk
    simp only [Option.map_some, h1, h2]

end OrderBook

/-! ## Sums of a queue -/

theorem sum_map_erase {L : List ℕ} {i : ℕ} (hi : i ∈ L) (f : ℕ → ℤ) : ((L.erase i).map f).sum = (L.map f).sum - f i := by
  have h := (List.perm_cons_erase hi).map f
  have h2 := h.sum_eq
  rw [List.map_cons, List.sum_cons] at h2
  omega

/-- One summand changes. -/
theorem sum_map_update {L : List ℕ} {i : ℕ} (hnd : L.Nodup) (hi : i ∈ L) (f g : ℕ → ℤ) (hfg : ∀ j, j ≠ i → g j = f j) :
    (L.map g).sum = (L.map f).sum + (g i - f i) := by
  have h1 := sum_map_erase hi g
  have h2 := sum_map_erase hi f
  have h3 : (L.erase i).map g = (L.erase i).map f := by
    refine List.map_congr_left (fun j hj => hfg j ?_)
    rintro rfl
    exact hnd.not_mem_erase hj
  rw [h3] at h1
  omega

end Wirekrak.Flashstrike

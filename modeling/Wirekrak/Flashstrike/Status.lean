import Wirekrak.Flashstrike.Ledger
import Wirekrak.Flashstrike.OrderIdTable

/-!
# Wirekrak.Flashstrike.Status — what the reported status tells

`FULL_FILL` and `PARTIAL_FILL` should say that the order traded in this call, and a refusal that nothing happened.  The
status is computed from the order's account of fills, which also holds those of earlier calls.

* `insert_ne_none`: while an order slot is free the id map is not full, so that `IDMAP_FULL` is not reported.
* `processOrder_status`: a new order has no earlier fills, and one that finds no slot has met nobody.
* `modifyOrderPrice_status`, `status_truthful_iff`: a partly filled order that gets a new price is reported as partly
  filled again, if there is nobody to trade with and no price to compare with.
-/

namespace Wirekrak.Flashstrike

open Wirekrak.Lib Engine

namespace Engine

variable (cfg : Config)

/-- A trade of the request's order was emitted during the call. -/
def Traded (e : Engine) (req : Request) (e' : Engine) : Prop := ∃ t ∈ e.newTrades e', t.takerOrderId = req.orderId

/-- What is left of the request's order after the call: of the order that `process_order` was given, or in the book. -/
def left (e : Engine) (req : Request) (e' : Engine) : ℤ :=
  match req with
  | .newOrder id type side price qty =>
    match processOrder cfg e id type side price qty with
    | .ok (_, _, o, _) => o.qty
    | .error _ => 0
  | .modifyPrice id _ => e'.book.remaining cfg id
  | .modifyQuantity id _ => e'.book.remaining cfg id
  | .cancel id => e'.book.remaining cfg id

/-- **The status tells what happened.** -/
structure Truthful (e : Engine) (req : Request) (st : OperationStatus) (e' : Engine) : Prop where
  full : st = .fullFill ↔ e.Traded req e' ∧ e.left cfg req e' = 0
  partly : st = .partialFill ↔ e.Traded req e' ∧ 0 < e.left cfg req e'
  refused : st = .rejected ∨ st = .notFound ∨ st = .badAlloc ∨ st = .idmapFull → e' = e

/-- An order that has traded before gets a new price, on the other side no order is in reach, and there is no best price
that the new one does not cross. -/
def Stale (e : Engine) : Request → Prop
  | .modifyPrice id newPrice => newPrice ≠ 0 ∧ ∃ i ∈ e.book.live cfg, (e.book.order i).id = id ∧
      (e.book.order i).price ≠ newPrice ∧ 0 < (e.book.order i).filled ∧
      (e.book.view cfg).reach cfg (e.book.order i).side.opp = [] ∧
      ¬ (e.book.view cfg).Blocked (e.book.order i).side { (e.book.order i).data with price := newPrice }
  | _ => False

instance (e : Engine) : ∀ req : Request, Decidable (e.Stale cfg req)
  | .modifyPrice _ _ => inferInstanceAs (Decidable (_ ∧ ∃ i ∈ e.book.live cfg, _))
  | .newOrder _ _ _ _ _ => inferInstanceAs (Decidable False)
  | .modifyQuantity _ _ => inferInstanceAs (Decidable False)
  | .cancel _ => inferInstanceAs (Decidable False)

end Engine

/-! ## The size of the id map -/

/-- The id map of the book that a call ends with has that many slots. -/
def Slotted {α : Type} (n : ℕ) (r : Except Fault α) (f : α → OrderBook) : Prop :=
  ∀ x, r = .ok x → (f x).idMap.capacity = n

section Slotted

variable {cfg : Config} {b : OrderBook} {s side : Side} {n i k pid : ℕ} {id : OrderId} {e : Engine} {t : Taker}

theorem Slotted.bind {α β : Type} {r : Except Fault α} {f : α → OrderBook} {g : α → Except Fault β} {h : β → OrderBook}
    (hr : Slotted n r f) (hg : ∀ x, (f x).idMap.capacity = n → Slotted n (g x) h) : Slotted n (r >>= g) h := by
  cases r with
  | error e => exact nofun
  | ok x => exact hg x (hr x rfl)

theorem slotted_ok {α : Type} {x : α} {f : α → OrderBook} (h : (f x).idMap.capacity = n) : Slotted n (.ok x) f := by
  rintro y ⟨⟩
  exact h

theorem idMap_recomputeGlobalBest : (b.recomputeGlobalBest cfg s).idMap = b.idMap :=
  OrderBook.idMap_setStore _ _ _

theorem idMap_tryUpdateBests {p : ℤ} : (b.tryUpdateBests s k p).idMap = b.idMap := by
  unfold OrderBook.tryUpdateBests
  rw [OrderBook.idMap_modifyPartition, OrderBook.idMap_setStore]

theorem idMap_unlinkOrderAndUpdatePartition : (b.unlinkOrderAndUpdatePartition cfg s i k).2.idMap = b.idMap := by
  unfold OrderBook.unlinkOrderAndUpdatePartition
  dsimp only
  split_ifs <;> simp

theorem idMap_relinkOrder {k' : ℕ} {p : ℤ} : (b.relinkOrder cfg i k k' p).idMap = b.idMap := by
  unfold OrderBook.relinkOrder
  simp

theorem slotted_getPartition (hb : b.idMap.capacity = n) : Slotted n (b.getPartition cfg s pid) (fun _ => b) :=
  fun _ _ => hb

theorem slotted_getOrCreatePartition (hb : b.idMap.capacity = n) :
    Slotted n (b.getOrCreatePartition cfg s pid) (fun x => x.2) := by
  unfold OrderBook.getOrCreatePartition
  split_ifs
  · exact nofun
  split
  · exact slotted_ok hb
  split
  · exact nofun
  · refine slotted_ok ?_
    dsimp only
    rw [OrderBook.idMap_setStore]
    exact hb

theorem slotted_storeInsert (hb : b.idMap.capacity = n) : Slotted n (b.storeInsert cfg s i) (fun b' => b') := by
  unfold OrderBook.storeInsert
  refine (slotted_getOrCreatePartition hb).bind (fun x hx => slotted_ok ?_)
  rw [idMap_tryUpdateBests, OrderBook.idMap_linkOrder]
  exact hx

theorem slotted_storeRemove (hb : b.idMap.capacity = n) : Slotted n (b.storeRemove cfg s i) (fun b' => b') := by
  unfold OrderBook.storeRemove
  refine (slotted_getPartition hb).bind (fun k hk => ?_)
  have h1 : (b.unlinkOrderAndUpdatePartition cfg s i k).2.idMap.capacity = n := by
    rw [idMap_unlinkOrderAndUpdatePartition]
    exact hk
  dsimp only
  split_ifs
  · refine slotted_ok ?_
    rw [idMap_recomputeGlobalBest]
    exact h1
  · exact slotted_ok h1

theorem slotted_storeReprice {p : ℤ} (hb : b.idMap.capacity = n) :
    Slotted n (b.storeReprice cfg s i p) (fun b' => b') := by
  have hslow : Slotted n (do
      let b1 ← b.storeRemove cfg s i
      (b1.modifyOrder i (fun o => { o with price := p })).storeInsert cfg s i) (fun b' => b') :=
    (slotted_storeRemove hb).bind (fun b1 h1 => slotted_storeInsert h1)
  unfold OrderBook.storeReprice
  refine Slotted.bind (f := fun x => x.getD b) ?_ (fun x hx => ?_)
  · unfold OrderBook.tryToRepriceOrderByFlashstrike
    refine (slotted_getPartition hb).bind (fun k _ => ?_)
    dsimp only
    split_ifs
    · refine slotted_ok ?_
      rw [Option.getD_some, idMap_relinkOrder]
      exact hb
    · exact slotted_ok hb
    · refine slotted_ok ?_
      rw [Option.getD_some, OrderBook.idMap_setStore, idMap_relinkOrder]
      exact hb
    · exact slotted_ok hb
    · refine (slotted_getOrCreatePartition hb).bind (fun x hx => slotted_ok ?_)
      rw [Option.getD_some, OrderBook.idMap_setStore, OrderBook.idMap_modifyPartition, idMap_relinkOrder]
      exact hx
    · exact slotted_ok hb
  · cases x with
    | some b1 => exact slotted_ok hx
    | none => exact hslow

theorem capacity_insert {m m' : OrderIdMap} (h : m.insert id i = some m') : m'.capacity = m.capacity := by
  unfold OrderIdMap.insert at h
  split at h
  · cases h
  · cases h
    rfl

theorem capacity_remove (m : OrderIdMap) (id : OrderId) : (m.remove id).capacity = m.capacity := by
  unfold OrderIdMap.remove
  split
  · rfl
  · split_ifs <;> rfl

theorem slotted_insertOrder {price qty filled : ℤ} (hb : b.idMap.capacity = n) :
    Slotted n (b.insertOrder cfg id s price qty filled) (fun x => x.2.2) := by
  unfold OrderBook.insertOrder
  split
  · exact slotted_ok hb
  split
  · exact slotted_ok hb
  · next m hm =>
    refine (slotted_storeInsert (i := _) (b := _) ?_).bind (fun b3 h3 => slotted_ok h3)
    rw [OrderBook.idMap_modifyOrder]
    exact (capacity_insert hm).trans hb

theorem slotted_removeOrder (hb : b.idMap.capacity = n) : Slotted n (b.removeOrder cfg id) (fun x => x.2) := by
  unfold OrderBook.removeOrder
  split
  · exact slotted_ok hb
  · refine (slotted_storeRemove hb).bind (fun b1 h1 => slotted_ok ?_)
    exact (capacity_remove _ _).trans h1

theorem slotted_repriceOrder {p : ℤ} (hb : b.idMap.capacity = n) :
    Slotted n (b.repriceOrder cfg id p) (fun x => x.2.2) := by
  unfold OrderBook.repriceOrder
  split_ifs
  · exact slotted_ok hb
  split
  · exact slotted_ok hb
  split_ifs
  · exact slotted_ok hb
  · exact (slotted_storeReprice hb).bind (fun b1 h1 => slotted_ok h1)

theorem slotted_resizeOrder {q : ℤ} (hb : b.idMap.capacity = n) :
    Slotted n (b.resizeOrder cfg id q) (fun x => x.2) := by
  unfold OrderBook.resizeOrder
  split_ifs
  · exact slotted_ok hb
  split
  · exact slotted_ok hb
  split_ifs
  · exact slotted_ok hb
  · refine Slotted.bind (f := fun b' => b') ?_ (fun b1 h1 => slotted_ok h1)
    unfold OrderBook.storeResize
    exact (slotted_getPartition hb).bind (fun k _ => slotted_ok hb)

theorem slotted_matchRound {off r : ℕ} (hb : e.book.idMap.capacity = n) :
    Slotted n (matchRound cfg side e t k off r) (fun x => x.1.book) := by
  unfold matchRound
  dsimp only
  refine Slotted.bind (f := fun b => b) ?_ (fun b4 h4 => slotted_ok h4)
  have h3 : ((((fillTaker e.book (min (taker e.book t).qty (e.book.order r).qty) t).1).modifyOrder r
      (fill (min (taker e.book t).qty (e.book.order r).qty))).modifyLevel k off (fun l =>
        l.subtractQuantity (min (taker e.book t).qty (e.book.order r).qty))).idMap.capacity = n := by
    cases t <;> exact hb
  unfold removeIfFilled
  split_ifs
  · exact (slotted_removeOrder h3).bind (fun x hx => slotted_ok hx)
  · exact slotted_ok h3

theorem slotted_matchLoop (fuel : ℕ) : ∀ (e : Engine) (t : Taker), e.book.idMap.capacity = n →
    Slotted n (matchLoop cfg side fuel e t) (fun x => x.1.book) := by
  induction fuel with
  | zero =>
    intro e t _ x hx
    rw [matchLoop] at hx
    cases hx
  | succ fuel ih =>
    intro e t hb
    unfold matchLoop
    refine Slotted.bind (f := fun _ => e.book) (fun _ _ => hb) (fun best _ => ?_)
    cases best with
    | none => exact slotted_ok hb
    | some best =>
      dsimp only
      split
      · exact slotted_ok hb
      · split_ifs
        · exact (slotted_matchRound hb).bind (fun x hx => ih x.1 x.2 hx)
        · exact slotted_ok hb

theorem slotted_matchOrder (hb : e.book.idMap.capacity = n) :
    Slotted n (matchOrder cfg side e t) (fun x => x.2.1.book) := by
  unfold matchOrder
  refine Slotted.bind (f := fun _ => e.book) (fun _ _ => hb) (fun best _ => ?_)
  split_ifs
  · exact slotted_ok hb
  · exact (slotted_matchLoop _ e t hb).bind (fun x hx => slotted_ok hx)

theorem slotted_matchRestingOrder (hb : e.book.idMap.capacity = n) :
    Slotted n (matchRestingOrder cfg side e i) (fun x => x.2.book) := by
  unfold matchRestingOrder
  refine (slotted_matchOrder hb).bind (fun x hx => ?_)
  refine Slotted.bind (f := fun b => b) ?_ (fun b1 h1 => ?_)
  · unfold settleLevel
    split_ifs
    · exact (slotted_getOrCreatePartition hx).bind (fun y hy => slotted_ok hy)
    · exact slotted_ok hx
  · split_ifs
    · exact (slotted_removeOrder h1).bind (fun y hy => slotted_ok hy)
    · exact slotted_ok h1

/-- **The id map keeps its size.** -/
theorem slotted_step {req : Request} (hb : e.book.idMap.capacity = n) :
    Slotted n (step cfg e req) (fun x => x.2.book) := by
  cases req with
  | newOrder id type side price qty =>
    refine Slotted.bind (f := fun x => x.2.2.2.book) ?_ (fun x hx => slotted_ok hx)
    unfold processOrder
    dsimp only
    split_ifs
    · exact slotted_ok hb
    refine (slotted_matchOrder hb).bind (fun x hx => ?_)
    by_cases hend : type = .market ∨ x.1 = .fullFill
    · rw [if_pos hend]
      exact slotted_ok hx
    · rw [if_neg hend]
      refine (slotted_insertOrder hx).bind (fun y hy => ?_)
      split_ifs <;> exact slotted_ok hy
  | modifyPrice id newPrice =>
    refine (slotted_repriceOrder hb).bind (fun x hx => ?_)
    obtain ⟨st, idx, b⟩ := x
    dsimp only at hx ⊢
    split
    · refine (slotted_matchRestingOrder (e := { e with book := b }) hx).bind (fun y hy => ?_)
      exact slotted_ok hy
    · exact slotted_ok hx
  | modifyQuantity id newQty => exact (slotted_resizeOrder hb).bind (fun x hx => slotted_ok hx)
  | cancel id => exact (slotted_removeOrder hb).bind (fun x hx => slotted_ok hx)

end Slotted

/-- While an order slot is free, the id map has a slot for its id. -/
theorem OrderBook.Abs.insert_ne_none {cfg : Config} {b : OrderBook} {V : View} (h : b.Abs cfg V)
    (hcap : b.idMap.capacity = OrderIdMap.tableSize cfg.maxOrders) {i : ℕ} {rest : List ℕ} (hfree : V.free = i :: rest)
    (id : OrderId) : b.idMap.insert id i ≠ none := by
  intro hnone
  obtain ⟨f, hrep, hf⟩ := h.ids
  obtain ⟨hnodup, hlen, hkeys⟩ := OrderIdMap.keys_of_insert_eq_none hrep hnone
  -- every slot holds the id of a resting order of its own
  have hrest : ∀ id' ∈ b.idMap.keys, V.queues.Resting ((f id').getD 0) ∧ (V.data ((f id').getD 0)).id = id' := by
    intro id' hid'
    obtain ⟨k, hk⟩ := hkeys id' hid'
    rw [hk]
    exact (hf id' k).mp hk
  have hnd : (b.idMap.keys.map fun id' => (f id').getD 0).Nodup := by
    refine List.Nodup.map_on (fun a ha c hc he => ?_) hnodup
    rw [← (hrest a ha).2, ← (hrest c hc).2, he]
  have hresting : ∀ k ∈ b.idMap.keys.map (fun id' => (f id').getD 0), V.queues.Resting k := by
    intro k hk
    obtain ⟨id', hid', rfl⟩ := List.mem_map.mp hk
    exact (hrest id' hid').1
  have hmem : i ∈ V.free := hfree ▸ List.mem_cons_self
  have hle := h.length_le (List.nodup_cons.mpr ⟨fun hi => h.disjoint i hmem (hresting i hi), hnd⟩) (fun k hk => by
    rcases List.mem_cons.mp hk with rfl | hk
    · exact Or.inl hmem
    · exact Or.inr (hresting k hk))
  rw [List.length_cons, List.length_map, hlen, hcap] at hle
  have hmax := cfg.maxOrders_le
  obtain ⟨k, hk, hiff, hge⟩ := OrderIdMap.tableSize_spec cfg.maxOrders
  have := hge (hiff.mpr (by omega))
  omega

/-- An order is refused for want of a slot, and not by the id map. -/
theorem OrderBook.insertOrder_refused {cfg : Config} {b b' : OrderBook} {V : View} (h : b.Abs cfg V)
    (hcap : b.idMap.capacity = OrderIdMap.tableSize cfg.maxOrders) {id : OrderId} {side : Side} {price qty filled : ℤ}
    {st : OperationStatus} {idx : OrderIdx} (hok : b.insertOrder cfg id side price qty filled = .ok (st, idx, b'))
    (hst : st ≠ .success) : V.free = [] ∧ st = .badAlloc ∧ b' = b := by
  have hc := h.chain
  unfold OrderBook.insertOrder OrderPool.allocate at hok
  cases hfree : V.free with
  | nil =>
    rw [hfree] at hc
    rw [show b.orderPool.freeHead = none from hc] at hok
    cases hok
    exact ⟨rfl, rfl, rfl⟩
  | cons i rest =>
    -- a free slot, and then one in the id map
    exfalso
    rw [hfree] at hc
    rw [hc.1] at hok
    dsimp only at hok
    cases hmap : b.idMap.insert id i with
    | none => exact h.insert_ne_none hcap hfree _ hmap
    | some m =>
      rw [hmap] at hok
      simp only [bind, Except.bind] at hok
      split at hok
      · cases hok
      · cases hok
        exact hst rfl

theorem OrderBook.repriceOrder_refused {cfg : Config} {b b' : OrderBook} {id : OrderId} {newPrice : ℤ}
    {st : OperationStatus} {idx : OrderIdx} (hok : b.repriceOrder cfg id newPrice = .ok (st, idx, b'))
    (hst : st ≠ .success) : st = .rejected ∨ st = .notFound ∨ st = .unchanged := by
  unfold OrderBook.repriceOrder at hok
  split_ifs at hok
  · cases hok
    exact Or.inl rfl
  split at hok
  · cases hok
    exact Or.inr (Or.inl rfl)
  split_ifs at hok
  · cases hok
    exact Or.inr (Or.inr rfl)
  · simp only [bind, Except.bind] at hok
    split at hok
    · cases hok
    · cases hok
      exact absurd rfl hst

namespace Engine

variable {cfg : Config} {e e1 e' : Engine} {V : View} {side : Side} {t t1 : Taker} {st : OperationStatus} {id : OrderId}
  {type : OrderType} {price qty : ℤ} {d : OrderData}

/-! ## The status of the matching loop -/

/-- A round emits a trade, so that a loop without one has done nothing. -/
theorem matchLoop_idle (fuel : ℕ) : ∀ (e : Engine) (t : Taker), matchLoop cfg side fuel e t = .ok (e1, t1) →
    e.trades.length ≤ e1.trades.length ∧ (e1.trades.length = e.trades.length → e1 = e) := by
  induction fuel with
  | zero => exact fun _ _ => nofun
  | succ fuel ih =>
    intro e t hok
    unfold matchLoop at hok
    cases hb : e.book.getBestPriceLevel cfg side.opp with
    | error f => rw [hb] at hok; cases hok
    | ok best =>
      rw [hb] at hok
      simp only [bind, Except.bind] at hok
      cases best with
      | none => cases hok; exact ⟨le_rfl, fun _ => rfl⟩
      | some ko =>
        obtain ⟨k, off⟩ := ko
        dsimp only at hok
        cases hh : (e.book.level k off).headIdx with
        | none => rw [hh] at hok; cases hok; exact ⟨le_rfl, fun _ => rfl⟩
        | some r =>
          rw [hh] at hok
          dsimp only at hok
          split_ifs at hok with hq
          · cases hm : matchRound cfg side e t k off r with
            | error f => rw [hm] at hok; cases hok
            | ok x =>
              rw [hm] at hok
              have hlen : x.1.trades.length = e.trades.length + 1 := by
                unfold matchRound at hm
                simp only [bind, Except.bind] at hm
                split at hm
                · cases hm
                · cases hm
                  simp [emitTradeEvent]
              have := (ih x.1 x.2 hok).1
              exact ⟨by omega, fun hc => by omega⟩
          · cases hok
            exact ⟨le_rfl, fun _ => rfl⟩

theorem matchOrder_idle (hok : matchOrder cfg side e t = .ok (st, e1, t1)) (htr : e1.trades = e.trades) : e1 = e := by
  unfold matchOrder at hok
  cases hb : e.book.getBestPriceLevel cfg side.opp with
  | error f => rw [hb] at hok; cases hok
  | ok best =>
    rw [hb] at hok
    simp only [bind, Except.bind] at hok
    split_ifs at hok
    · cases hok
      rfl
    · cases hl : matchLoop cfg side (cfg.maxOrders + 2) e t with
      | error f => rw [hl] at hok; cases hok
      | ok x =>
        rw [hl] at hok
        cases hok
        exact (matchLoop_idle _ e t hl).2 (by rw [htr])

/-- The status of an order that has taken, and of which that much is left. -/
def verdict (traded left : ℤ) : OperationStatus :=
  if 0 < traded then (if left = 0 then .fullFill else .partialFill) else .noMatch

theorem matchOrder_status (h : e.book.Abs cfg V) (htk : TakerOk V side t)
    (hok : matchOrder cfg side e t = .ok (st, e1, t1)) :
    st = if V.Blocked side (taker e.book t).data then .noMatch else fillStatus (taker e1.book t1) := by
  obtain ⟨e2, t2, hm, -⟩ := matchOrder_spec h htk rfl rfl
  rw [hm] at hok
  cases hok
  rfl

theorem takes_blocked (h : V.Blocked d.side d) : V.takes cfg d = [] := by
  unfold View.takes View.makers
  rw [if_pos h]
  rfl

/-- Orders have something to give: what is taken is nothing only if nobody is met. -/
theorem takes_ne_nil (h : e.book.Abs cfg V) (hs : V.Sound) (d : OrderData) :
    V.takes cfg d ≠ [] ↔ 0 < traded (V.takes cfg d) := by
  constructor
  · intro hne
    refine List.sum_pos _ (fun x hx => ?_) (by simpa using hne)
    obtain ⟨f, hf, rfl⟩ := List.mem_map.mp hx
    refine fills_pos (fun r hr => ?_) hf
    obtain ⟨p, hp⟩ := (lined_fresh h.weak h.mem.queued d).rest r hr
    exact (hs r ⟨_, p, hp⟩).1
  · intro hpos hnil
    rw [hnil] at hpos
    exact absurd hpos (by decide)

/-- A sweep that leaves something of the taker has freed the slot of every order it met. -/
theorem free_swept {b : OrderBook} (h : e.book.Abs cfg V) (hA : b.Abs cfg (V.swept cfg none d))
    (hlt : traded (V.takes cfg d) < d.qty) (hne : V.takes cfg d ≠ []) : (V.swept cfg none d).free ≠ [] := by
  have hl := lined_fresh h.weak h.mem.queued d
  have hall : V.takes cfg d = (V.makers cfg d.side d).map (fun r => (r, (V.data r).qty)) := fills_all hlt
  obtain ⟨f, hf⟩ := List.exists_mem_of_ne_nil _ hne
  have hf' := hf
  rw [hall] at hf'
  obtain ⟨r, -, rfl⟩ := List.mem_map.mp hf'
  have hres := (View.resting_of_takes hl hf).1
  have hgone : ¬ (V.swept cfg none d).queues.Resting r := fun hc => ((View.resting_swept_iff hl).mp hc).2 hf
  have hidx := (hA.index r).mp ((h.index r).mpr (Or.inr hres))
  exact List.ne_nil_of_mem (hidx.resolve_right hgone)

/-- **`process_order`** reports what it did; an order that finds no slot has not traded. -/
theorem processOrder_status (h : e.book.Abs cfg V)
    (hcap : e.book.idMap.capacity = OrderIdMap.tableSize cfg.maxOrders) (hd : d = requested id type side price qty)
    (hval : validateOrder cfg (incoming id type side price qty) = true) {idx : OrderIdx} {o : Order}
    (hok : processOrder cfg e id type side price qty = .ok (st, idx, o, e')) :
    st = verdict (traded (V.takes cfg d)) (qty - traded (V.takes cfg d)) ∨
      (st = .badAlloc ∧ V.takes cfg d = [] ∧ e' = e) := by
  obtain ⟨hq0, hq1⟩ := qty_of_valid hval
  obtain ⟨st1, e1, t1, hm, hfull, hA, htr, -, htd⟩ := matchFresh_spec h hq0 hq1 hd
  have hst := matchOrder_status h (t := .fresh _) trivial hm
  have hfilled : (taker e1.book t1).filled = traded (V.takes cfg d) := congrArg OrderData.filled htd
  have hleft : (taker e1.book t1).qty = qty - traded (V.takes cfg d) := congrArg OrderData.qty htd
  have hle : traded (V.takes cfg d) ≤ qty := traded_takes_le h hd hq0.le
  -- the loop's own status
  have hst1 : st1 = verdict (traded (V.takes cfg d)) (qty - traded (V.takes cfg d)) := by
    rw [hst]
    by_cases hbl : V.Blocked side (taker e.book (.fresh (incoming id type side price qty))).data
    · have hnil : V.takes cfg d = [] := takes_blocked (by rw [hd]; exact hbl)
      rw [if_pos hbl, hnil]
      rfl
    · rw [if_neg hbl, fillStatus, hfilled, hleft, verdict]
  unfold processOrder at hok
  dsimp only at hok
  rw [if_neg (by rw [hval]; decide), hm] at hok
  simp only [bind, Except.bind] at hok
  by_cases hend : type = .market ∨ st1 = .fullFill
  · rw [if_pos hend] at hok
    cases hok
    exact Or.inl hst1
  rw [if_neg hend] at hok
  rw [not_or] at hend
  have hlt : traded (V.takes cfg d) < qty := lt_of_le_of_ne hle (fun hc => hend.2 (hfull.mpr hc))
  have hqty : d.qty = qty := by rw [hd]; rfl
  cases hins : e1.book.insertOrder cfg (taker e1.book t1).id side (taker e1.book t1).price (taker e1.book t1).qty
      (taker e1.book t1).filled with
  | error f => rw [hins] at hok; cases hok
  | ok r =>
    obtain ⟨ist, iidx, b⟩ := r
    rw [hins] at hok
    dsimp only at hok
    by_cases hi : ist = .success
    · rw [if_pos hi] at hok
      cases hok
      left
      rw [hfilled, hleft, verdict]
      split_ifs with h1 h2 h3
      · omega
      · rfl
      · rfl
      · omega
      · rw [hst1, verdict, if_neg h1]
    · rw [if_neg hi] at hok
      cases hok
      right
      obtain ⟨hfree, rfl, rfl⟩ := OrderBook.insertOrder_refused hA (slotted_matchOrder hcap _ hm) hins hi
      have hnil : V.takes cfg d = [] := by
        by_contra hne
        exact free_swept h hA (by rw [hqty]; exact hlt) hne hfree
      refine ⟨rfl, hnil, ?_⟩
      rw [hnil] at htr
      rw [← matchOrder_idle hm (by rw [htr]; exact List.append_nil _)]

theorem matchRestingOrder_matched {i : ℕ} (hok : matchRestingOrder cfg side e i = .ok (st, e')) :
    ∃ e1 t1, matchOrder cfg side e (.resting i) = .ok (st, e1, t1) := by
  unfold matchRestingOrder at hok
  cases hm : matchOrder cfg side e (.resting i) with
  | error f => rw [hm] at hok; cases hok
  | ok x =>
    obtain ⟨st1, e1, t1⟩ := x
    rw [hm] at hok
    simp only [bind, Except.bind] at hok
    split at hok
    · cases hok
    · next b1 _ =>
      split_ifs at hok with hfull
      · cases hr : b1.removeOrder cfg (b1.order i).id with
        | error f => rw [hr] at hok; cases hok
        | ok y =>
          rw [hr] at hok
          cases hok
          exact ⟨e1, t1, rfl⟩
      · cases hok
        exact ⟨e1, t1, rfl⟩

/-- The status of a resting order that is matched at its new price. -/
theorem matchRestingOrder_repriced (h : e.book.Abs cfg V) {b : OrderBook} {i : ℕ} {newPrice : ℤ}
    (hA : b.Abs cfg (V.reprice cfg i newPrice)) (hi : V.queues.Resting i) (hsd : d.Sound)
    (hd : d = { V.data i with price := newPrice })
    (hok : matchRestingOrder cfg (b.order i).side { e with book := b } i = .ok (st, e')) :
    st = if V.Blocked d.side d then .noMatch
      else if 0 < d.filled + traded (V.takes cfg d) then
        (if d.qty - traded (V.takes cfg d) = 0 then .fullFill else .partialFill)
      else .noMatch := by
  have hres : (V.reprice cfg i newPrice).queues.Resting i := by
    rw [View.queues_reprice]
    exact (View.resting_move h.mem.queued (h.mem_queues hi)).mpr hi
  have hdata : (V.reprice cfg i newPrice).data i = d := by rw [View.data_reprice, if_pos rfl, hd]
  have hside : d.side = (V.data i).side := by rw [hd]
  have htaken := View.taken_eq (d := d) h hsd
  obtain ⟨e1, t1, hmo⟩ := matchRestingOrder_matched hok
  rw [hA.mem.side_eq, hdata] at hmo
  have htk : TakerOk (V.reprice cfg i newPrice) d.side (.resting i) := ⟨hres, by rw [hdata]⟩
  have htaker : (taker ({ e with book := b } : Engine).book (.resting i)).data = d := (hA.mem.data i).trans hdata
  obtain ⟨e3, t3, hm3, -, -, -, -, htd⟩ := matchOrder_spec (e := { e with book := b }) hA htk rfl rfl
  rw [hmo] at hm3
  cases hm3
  have htd' : (taker e1.book t1).data = V.taken cfg d := by
    rw [htd, show (taker ({ e with book := b } : Engine).book (.resting i)).qty = d.qty from
      congrArg OrderData.qty htaker, htaker]
    exact congrArg (fun fs => List.foldl (fun d f => OrderData.fill f.2 d) d fs) (takes_reprice hside newPrice)
  have hfilled : (taker e1.book t1).filled = d.filled + traded (V.takes cfg d) := by
    rw [show (taker e1.book t1).filled = (V.taken cfg d).filled from congrArg OrderData.filled htd', htaken]
  have hqty : (taker e1.book t1).qty = d.qty - traded (V.takes cfg d) := by
    rw [show (taker e1.book t1).qty = (V.taken cfg d).qty from congrArg OrderData.qty htd', htaken]
  rw [htaker, fillStatus, hfilled, hqty]
  simp only [blocked_reprice hside]

/-- **`modify_order_price`** reports the order's account of fills, of which only some are new. -/
theorem modifyOrderPrice_status (h : e.book.Abs cfg V) (hs : V.Sound) {newPrice : ℤ} (hfits : cfg.Fits newPrice)
    (hok : modifyOrderPrice cfg e id newPrice = .ok (st, e')) :
    (e' = e ∧ (st = .rejected ∨ st = .notFound ∨ st = .unchanged) ∧ (newPrice = 0 ∨
      ∀ i, V.queues.Resting i → (V.data i).id = id → (V.data i).price = newPrice)) ∨
    ∃ i d, V.queues.Resting i ∧ (V.data i).id = id ∧ (V.data i).price ≠ newPrice ∧ newPrice ≠ 0 ∧
      (∃ b, e.book.repriceOrder cfg id newPrice = .ok (.success, some i, b)) ∧
      cfg.InPlan newPrice ∧ d = { V.data i with price := newPrice } ∧
      st = if V.Blocked d.side d then .success
        else if 0 < d.filled + traded (V.takes cfg d) then
          (if d.qty - traded (V.takes cfg d) = 0 then .fullFill else .partialFill)
        else .success := by
  unfold modifyOrderPrice at hok
  cases hr : e.book.repriceOrder cfg id newPrice with
  | error f => rw [hr] at hok; cases hok
  | ok r =>
    obtain ⟨rst, idx, b⟩ := r
    rw [hr] at hok
    simp only [bind, Except.bind] at hok
    obtain ⟨hst, rfl, hno⟩ | ⟨rfl, i, rfl, hi, hid, hne, hplan, hA⟩ := OrderBook.repriceOrder_spec h hfits hr
    · left
      have hkind := OrderBook.repriceOrder_refused hr hst
      have hno' : newPrice = 0 ∨ ∀ i, V.queues.Resting i → (V.data i).id = id → (V.data i).price = newPrice :=
        hno.imp_right (fun hall i hi hid => (hall i hi hid).1)
      rcases hkind with rfl | rfl | rfl <;>
      · cases hok
        exact ⟨rfl, by simp, hno'⟩
    · right
      have h0 : newPrice ≠ 0 := by
        rintro rfl
        unfold OrderBook.repriceOrder at hr
        rw [if_pos rfl] at hr
        cases hr
      obtain ⟨d, hd⟩ : ∃ d : OrderData, d = { V.data i with price := newPrice } := ⟨_, rfl⟩
      refine ⟨i, d, hi, hid, hne, h0, ⟨b, rfl⟩, hplan, hd, ?_⟩
      have hsd : d.Sound := by
        rw [hd]
        exact hs i hi
      dsimp only at hok
      cases hm : matchRestingOrder cfg (b.order i).side { e with book := b } i with
      | error f => rw [hm] at hok; cases hok
      | ok x =>
        obtain ⟨mst, e2⟩ := x
        rw [hm] at hok
        cases hok
        show (if mst = .partialFill ∨ mst = .fullFill then mst else .success) = _
        rw [matchRestingOrder_repriced h hA hi hsd hd hm]
        split_ifs <;> first
          | rfl
          | (rename_i hc; exact absurd hc (by decide))

/-! ## Every request -/

theorem traded_iff {req : Request} {s : Side} {n : UInt64} {fs : List (ℕ × ℤ)} {data : ℕ → OrderData}
    (htr : e'.trades = e.trades ++ events data req.orderId s n fs) : e.Traded req e' ↔ fs ≠ [] := by
  unfold Traded
  rw [newTrades_eq htr]
  constructor
  · rintro ⟨t, ht, -⟩ rfl
    cases ht
  · intro hne
    have hlen : (events data req.orderId s n fs).length ≠ 0 := by
      rw [length_events]
      exact fun hc => hne (List.length_eq_zero_iff.mp hc)
    obtain ⟨t, ht⟩ := List.exists_mem_of_ne_nil _ (mt List.length_eq_zero_iff.mpr hlen)
    exact ⟨t, ht, (taker_events ht).1⟩

theorem not_traded {req : Request} (htr : e'.trades = e.trades) : ¬ e.Traded req e' := by
  rintro ⟨t, ht, -⟩
  have hnil : e.newTrades e' = [] := newTrades_eq (by rw [htr, List.append_nil])
  rw [hnil] at ht
  cases ht

/-- A request without trades. -/
theorem truthful_of_idle {req : Request} (htr : e'.trades = e.trades) (h1 : st ≠ .fullFill) (h2 : st ≠ .partialFill)
    (h3 : st = .rejected ∨ st = .notFound ∨ st = .badAlloc ∨ st = .idmapFull → e' = e) : e.Truthful cfg req st e' :=
  ⟨iff_of_false h1 (fun hc => not_traded htr hc.1), iff_of_false h2 (fun hc => not_traded htr hc.1), h3⟩

/-- A request whose trades are those of the verdict. -/
theorem truthful_of_verdict {req : Request} {x : ℤ} (hx : e.Traded req e' ↔ 0 < x) (hleft : 0 ≤ e.left cfg req e')
    (hst : st = verdict x (e.left cfg req e')) : e.Truthful cfg req st e' := by
  rw [hst]
  unfold verdict
  constructor
  · rw [hx]
    split_ifs <;> simp_all
  · rw [hx]
    split_ifs <;> simp_all
    omega
  · split_ifs <;> simp

theorem newOrder_truthful (h : e.book.Abs cfg V) (hs : V.Sound)
    (hcap : e.book.idMap.capacity = OrderIdMap.tableSize cfg.maxOrders)
    (hadm : e.Admissible cfg (.newOrder id type side price qty))
    (hstep : step cfg e (.newOrder id type side price qty) = .ok (st, e')) :
    e.Truthful cfg (.newOrder id type side price qty) st e' := by
  unfold step at hstep
  dsimp only at hstep
  cases hp : processOrder cfg e id type side price qty with
  | error f => rw [hp] at hstep; cases hstep
  | ok r =>
    obtain ⟨st', idx, o, e1⟩ := r
    rw [hp] at hstep
    obtain ⟨rfl, rfl⟩ : st' = st ∧ e1 = e' := by
      cases hstep
      exact ⟨rfl, rfl⟩
    have hleft : e.left cfg (.newOrder id type side price qty) e1 = o.qty := by
      unfold left
      dsimp only
      rw [hp]
    have hadm' : type = .limit → validateOrder cfg (incoming id type side price qty) = true →
        OrderIdMap.Usable id ∧ e.book.idMap.find id = none ∧ cfg.Fits price := by
      intro h1 h2
      obtain ⟨h3, h4, h5⟩ := hadm h1 h2
      exact ⟨h3, h.find_none h4, h5⟩
    obtain ⟨hval, rfl, -, -⟩ | ⟨hval, hq0, -, hdata, htr, -⟩ := processOrder_spec h hadm' rfl hp
    · have hrej : st' = .rejected := by
        unfold processOrder at hp
        dsimp only at hp
        rw [if_pos hval] at hp
        cases hp
        rfl
      rw [hrej]
      exact truthful_of_idle rfl (by decide) (by decide) (fun _ => rfl)
    · obtain hst | ⟨rfl, hnil, rfl⟩ := processOrder_status h hcap rfl hval hp
      · have hq : o.qty = qty - traded (V.takes cfg (requested id type side price qty)) := congrArg OrderData.qty hdata
        refine truthful_of_verdict ((traded_iff htr).trans (takes_ne_nil h hs _)) ?_ ?_
        · rw [hleft, hq]
          have := traded_takes_le h (d := requested id type side price qty) rfl hq0.le
          omega
        · rw [hleft, hq]
          exact hst
      · exact truthful_of_idle rfl (by decide) (by decide) (fun _ => rfl)

/-- The order keeps what it has not traded. -/
theorem left_modifyPrice (h : e.book.Abs cfg V) {V' : View} (hA : e'.book.Abs cfg V') {i : ℕ} {newPrice : ℤ}
    {n : UInt64} {idx : OrderIdx} (hi : V.queues.Resting i) (hd : d = { V.data i with price := newPrice })
    (hS : V.Step cfg n (.modifyPrice (V.data i).id newPrice)
      (events V.data (V.data i).id d.side n (V.takes cfg d)) idx V') :
    e.left cfg (.modifyPrice (V.data i).id newPrice) e' = d.qty - traded (V.takes cfg d) := by
  have hset := hS.settles h trivial hi
  have hqty : d.qty = (V.data i).qty := by rw [hd]
  have hvol : volume (V.data i).id (events V.data (V.data i).id d.side n (V.takes cfg d)) = traded (V.takes cfg d) :=
    volume_taker
  show e'.book.remaining cfg (V.data i).id = _
  rcases hset with ⟨⟨hr, hid, -⟩, hq⟩ | ⟨hno, -, hq⟩
  · rw [← hid, hA.remaining_eq hr, hq, hvol, hqty]
    exact congrArg (· - _) (Int.add_zero _)
  · rw [hA.remaining_eq_zero hno]
    rw [hvol, if_neg (fun hc => by cases hc)] at hq
    omega

/-- **A new price**: the report is right, unless the order's earlier fills are reported again. -/
theorem modifyPrice_truthful_iff (h : e.book.Abs cfg (e.book.view cfg)) (hs : (e.book.view cfg).Sound) {newPrice : ℤ}
    (hadm : e.Admissible cfg (.modifyPrice id newPrice))
    (hstep : step cfg e (.modifyPrice id newPrice) = .ok (st, e')) :
    e.Truthful cfg (.modifyPrice id newPrice) st e' ↔ ¬ e.Stale cfg (.modifyPrice id newPrice) := by
  obtain ⟨V, hV⟩ : ∃ V, V = e.book.view cfg := ⟨_, rfl⟩
  have hstale : e.Stale cfg (.modifyPrice id newPrice) ↔ newPrice ≠ 0 ∧ ∃ i, V.queues.Resting i ∧ (V.data i).id = id ∧
      (V.data i).price ≠ newPrice ∧ 0 < (V.data i).filled ∧ V.reach cfg (V.data i).side.opp = [] ∧
      ¬ V.Blocked (V.data i).side { V.data i with price := newPrice } := by
    rw [hV]
    unfold Stale
    refine and_congr_right (fun _ => exists_congr (fun i => ?_))
    rw [h.mem_live]
    rfl
  rw [← hV] at h hs
  rw [hstale]
  obtain ⟨rfl, hst, hno⟩ | ⟨i, d, hi, rfl, hne, h0, ⟨b, hb⟩, hplan, hd, hst⟩ :=
    modifyOrderPrice_status h hs hadm hstep
  · refine iff_of_true (truthful_of_idle rfl ?_ ?_ (fun _ => rfl)) ?_
    · rcases hst with rfl | rfl | rfl <;> decide
    · rcases hst with rfl | rfl | rfl <;> decide
    · rintro ⟨hne, i, hi, hid, hp, -⟩
      exact hp (hno.resolve_left hne i hi hid)
  obtain ⟨hidle, -⟩ | ⟨i', d', hi', hid', -, -, -, hd', hA, htr, -⟩ := modifyOrderPrice_spec h hadm hstep
  · exact absurd hb (hidle _ b)
  obtain rfl := h.id_inj hi' hi hid'
  obtain rfl : d' = d := hd'.trans hd.symm
  have hside : d'.side = (V.data i').side := by rw [hd]
  have hsd : d'.Sound := by
    rw [hd]
    exact hs i' hi
  have hleft := left_modifyPrice (e := e) h hA hi hd (.reprice (n := e.seqGen) hi rfl hne hplan hd)
  have hpos : e.Traded (.modifyPrice (V.data i').id newPrice) e' ↔ 0 < traded (V.takes cfg d') :=
    (traded_iff htr).trans (takes_ne_nil h hs d')
  obtain ⟨hle0, hle1⟩ := View.traded_takes (d := d') h hsd.1.le
  have honly : (∃ i, V.queues.Resting i ∧ (V.data i).id = (V.data i').id ∧ (V.data i).price ≠ newPrice ∧
      0 < (V.data i).filled ∧ V.reach cfg (V.data i).side.opp = [] ∧
      ¬ V.Blocked (V.data i).side { V.data i with price := newPrice }) ↔
      0 < d'.filled ∧ V.reach cfg d'.side.opp = [] ∧ ¬ V.Blocked d'.side d' := by
    rw [hd]
    constructor
    · rintro ⟨i, hri, hid, -, hrest⟩
      obtain rfl := h.id_inj hri hi hid
      exact hrest
    · exact fun hrest => ⟨i', hi, rfl, hne, hrest⟩
  rw [honly]
  by_cases hbl : V.Blocked d'.side d'
  · -- the other side is out of reach
    have hnil : V.takes cfg d' = [] := takes_blocked hbl
    rw [if_pos hbl] at hst
    rw [hnil] at htr
    subst hst
    exact iff_of_true (truthful_of_idle (htr.trans (List.append_nil _)) (by decide) (by decide) (by simp))
      (fun hc => hc.2.2.2 hbl)
  rw [if_neg hbl] at hst
  have hmakers : V.takes cfg d' = fills (fun j => (V.data j).qty) (V.reach cfg d'.side.opp) d'.qty := by
    unfold View.takes View.makers
    rw [if_neg hbl]
    rfl
  have hreach : V.takes cfg d' = [] ↔ V.reach cfg d'.side.opp = [] := by
    rw [hmakers, fills_eq_nil]
    exact or_iff_left (not_le.mpr hsd.1)
  by_cases hT : 0 < traded (V.takes cfg d')
  · -- it trades
    rw [if_pos (by have := hsd.2.1; omega)] at hst
    refine iff_of_true (truthful_of_verdict hpos ?_ ?_) (fun hc => ?_)
    · rw [hleft]
      omega
    · rw [hleft, hst, verdict, if_pos hT]
    · exact (takes_ne_nil h hs d').mpr hT (hreach.mpr hc.2.2.1)
  · -- it meets nobody
    have hnil : V.takes cfg d' = [] := by
      by_contra hne
      exact hT ((takes_ne_nil h hs d').mp hne)
    have hq := hsd.1
    rw [hnil, traded_nil, add_zero, sub_zero] at hst
    rw [hnil] at htr
    by_cases hf : 0 < d'.filled
    · rw [if_pos hf, if_neg hq.ne'] at hst
      refine iff_of_false (fun hc => ?_) (fun hc => hc ⟨h0, hf, hreach.mp hnil, hbl⟩)
      exact not_traded (htr.trans (List.append_nil _)) (hc.partly.mp hst).1
    · rw [if_neg hf] at hst
      subst hst
      exact iff_of_true (truthful_of_idle (htr.trans (List.append_nil _)) (by decide) (by decide) (by simp))
        (fun hc => hf hc.2.1)

theorem modifyQuantity_truthful {newQty : ℤ} (hstep : step cfg e (.modifyQuantity id newQty) = .ok (st, e')) :
    e.Truthful cfg (.modifyQuantity id newQty) st e' := by
  unfold step modifyOrderQuantity OrderBook.resizeOrder at hstep
  dsimp only at hstep
  split_ifs at hstep
  · cases hstep
    exact truthful_of_idle rfl nofun nofun (fun _ => rfl)
  split at hstep
  · cases hstep
    exact truthful_of_idle rfl nofun nofun (fun _ => rfl)
  split_ifs at hstep
  · cases hstep
    exact truthful_of_idle rfl nofun nofun (fun _ => rfl)
  · simp only [bind, Except.bind] at hstep
    split at hstep
    · cases hstep
    · next hr =>
      cases hstep
      split at hr
      · cases hr
      · cases hr
        exact truthful_of_idle rfl nofun nofun (by simp)

theorem cancel_truthful (h : e.book.Abs cfg V) (hstep : step cfg e (.cancel id) = .ok (st, e')) :
    e.Truthful cfg (.cancel id) st e' := by
  obtain ⟨st', e1, hc, htr, -, ⟨rfl, rfl, -⟩ | ⟨rfl, -⟩⟩ := cancelOrder_spec h id
  all_goals
    unfold step at hstep
    dsimp only at hstep
    rw [hc] at hstep
    cases hstep
  · exact truthful_of_idle rfl (by decide) (by decide) (fun _ => rfl)
  · exact truthful_of_idle htr (by decide) (by decide) (by simp)

/-- **The report is right** for every request in every state of a run with admissible requests, but for a new price of a
partly filled order that meets nobody. -/
theorem status_truthful_iff {reqs : List Request} {req : Request}
    (hrun : Run (Steps cfg) (fun e req => e.Admissible cfg req ∧ e.Sized cfg req) (.new cfg) reqs e)
    (hadm : e.Admissible cfg req) (hstep : step cfg e req = .ok (st, e')) :
    e.Truthful cfg req st e' ↔ ¬ e.Stale cfg req := by
  obtain ⟨h, hs⟩ := run_invariant (I := fun V => V.Sound) (fun _ _ hreq => hreq.1)
    (fun i hi => absurd hi (OrderBook.not_resting_empty i)) (fun b V h hI => hI.view h)
    (fun e req V evs idx V' h hV hreq hI hS => by
      subst hV
      exact View.sound_step h hI hS (hreq.2.view h)) hrun
  have hcap : e.book.idMap.capacity = OrderIdMap.tableSize cfg.maxOrders := by
    refine hrun.invariant (I := fun e => e.book.idMap.capacity = OrderIdMap.tableSize cfg.maxOrders) rfl ?_
    rintro e req e' hc - ⟨st, hs⟩
    exact slotted_step hc _ hs
  cases req with
  | newOrder id type side price qty => exact iff_of_true (newOrder_truthful h hs hcap hadm hstep) not_false
  | modifyPrice id newPrice => exact modifyPrice_truthful_iff h hs hadm hstep
  | modifyQuantity id newQty => exact iff_of_true (modifyQuantity_truthful hstep) not_false
  | cancel id => exact iff_of_true (cancel_truthful h hstep) not_false

theorem step_eq_after {req : Request} (h : (step cfg e req).toOption.map Prod.fst = some st) :
    step cfg e req = .ok (st, e.after cfg req) := by
  unfold after
  cases hs : step cfg e req with
  | error f => rw [hs] at h; cases h
  | ok x =>
    rw [hs] at h
    cases h
    rfl

/-- An ask for 5 of which a bid takes 2. -/
def partlySold : List Request := [.newOrder 1 .limit .ask 6 5, .newOrder 2 .limit .bid 6 2]

/-- The ask gets a new price, at which a bid waits. -/
theorem status_truthful_bid : (afterAll (partlySold ++ [.newOrder 3 .limit .bid 4 1])).Truthful small
    (.modifyPrice 1 4) .partialFill
    ((afterAll (partlySold ++ [.newOrder 3 .limit .bid 4 1])).after small (.modifyPrice 1 4)) :=
  (status_truthful_iff (run_after (by decide +kernel)) (by decide +kernel)
    (step_eq_after (by decide +kernel))).mpr (by decide +kernel)

/-- Nobody waits: the ask is reported as partly filled, and no trade is emitted. -/
theorem partial_fill_without_trade :
    Run (Steps small) (fun e req => e.Admissible small req ∧ e.Sized small req) (.new small) partlySold
      (afterAll partlySold) ∧
    (afterAll partlySold).Admissible small (.modifyPrice 1 7) ∧
    step small (afterAll partlySold) (.modifyPrice 1 7) =
      .ok (.partialFill, (afterAll partlySold).after small (.modifyPrice 1 7)) ∧
    ((afterAll partlySold).after small (.modifyPrice 1 7)).trades = (afterAll partlySold).trades ∧
    ¬ (afterAll partlySold).Truthful small (.modifyPrice 1 7) .partialFill
      ((afterAll partlySold).after small (.modifyPrice 1 7)) := by
  have htr : ((afterAll partlySold).after small (.modifyPrice 1 7)).trades = (afterAll partlySold).trades := by
    decide +kernel
  exact ⟨run_after (by decide +kernel), by decide +kernel, step_eq_after (by decide +kernel), htr,
    fun h => not_traded htr (h.partly.mp rfl).1⟩

end Engine

end Wirekrak.Flashstrike

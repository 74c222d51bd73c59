import Wirekrak.Flashstrike.Sweep

/-!
# Wirekrak.Flashstrike.Requests — the requests on the view

What `process_order`, `modify_order_price`, `modify_order_quantity` and `cancel_order` do to the view, when they return
(`processOrder_spec`, `modifyOrderPrice_spec`, `modifyOrderQuantity_spec`, `cancelOrder_spec`).
-/

namespace Wirekrak.Flashstrike

open Wirekrak.Lib

theorem wrap64_of_lt {x : ℤ} (h0 : 0 ≤ x) (h1 : x < 2 ^ 63) : wrap64 x = x :=
  wrap64_eq_iff.mpr ⟨by omega, h1⟩

/-- The order after its fills. -/
theorem foldl_fill (d : OrderData) (fs : List (ℕ × ℤ)) (hd : wrap64 d.filled = d.filled) :
    fs.foldl (fun d f => d.fill f.2) d =
      { d with qty := d.qty - traded fs, filled := wrap64 (d.filled + traded fs) } := by
  induction fs generalizing d with
  | nil => simp [hd]
  | cons f fs ih =>
    have hw : wrap64 (OrderData.fill f.2 d).filled = (OrderData.fill f.2 d).filled := by
      unfold OrderData.fill wrap64
      dsimp only
      exact Int.bmod_bmod
    rw [List.foldl_cons, ih _ hw, traded_cons]
    unfold OrderData.fill
    dsimp only
    rw [wrap64_add]
    congr 1
    · omega
    · congr 1
      omega

theorem qty_foldl_fill (d : OrderData) (fs : List (ℕ × ℤ)) :
    (fs.foldl (fun d f => d.fill f.2) d).qty = d.qty - traded fs := by
  induction fs generalizing d with
  | nil => simp
  | cons f fs ih =>
    rw [List.foldl_cons, ih, traded_cons]
    unfold OrderData.fill
    dsimp only
    omega

namespace View

variable (cfg : Config)

/-- What an order takes. -/
def takes (V : View) (d : OrderData) : List (ℕ × ℤ) := fills (fun j => (V.data j).qty) (V.makers cfg d.side d) d.qty

/-- The view after an order has taken what it can. -/
def swept (V : View) (taker : Option ℕ) (d : OrderData) : View :=
  (V.sweep cfg taker (V.makers cfg d.side d) d.qty).1

/-- The view after `match_resting_order_`: the level is settled if the order counts as filled. -/
def settled (V : View) (i : ℕ) : View :=
  let d := V.data i
  let W := V.swept cfg (some i) d
  let W1 := W.addSlack d.side d.price (-traded (V.takes cfg d))
  if V.Blocked d.side d ∨ (W.data i).filled ≤ 0 then W else if (W.data i).qty = 0 then W1.leave cfg i else W1

end View

namespace Engine

variable {cfg : Config} {e e' : Engine} {V : View} {side : Side} {t : Taker} {i : ℕ}

theorem lined_makers (hw : V.Weak cfg) (hq : V.Queued) (htk : TakerOk V side t) (d : OrderData) :
    Lined V side t.idx (V.makers cfg side d) := by
  unfold View.makers
  split_ifs
  · exact ⟨hq, fun r hr => absurd hr List.not_mem_nil, List.nodup_nil, fun r hr => absurd hr List.not_mem_nil⟩
  · refine ⟨hq, fun r hr => ?_, sweepable_nodup hw hq, fun r hr he => ?_⟩
    · obtain ⟨p, -, hp⟩ := sweepable_resting hw hr
      exact ⟨p, hp⟩
    · obtain ⟨p, -, hp⟩ := sweepable_resting hw hr
      cases t with
      | fresh o => cases he
      | resting i =>
        cases he
        have h1 := (hq.member _ _ _ hp).1
        rw [htk.2] at h1
        exact Side.opp_ne side h1.symm

/-- The makers of a new order. -/
theorem lined_fresh (hw : V.Weak cfg) (hq : V.Queued) (d : OrderData) : Lined V d.side none (V.makers cfg d.side d) :=
  lined_makers (t := .fresh OrderPool.blank) hw hq trivial d

/-- The makers of an order that rests. -/
theorem lined_resting (hw : V.Weak cfg) (hq : V.Queued) (hi : V.queues.Resting i) :
    Lined V (V.data i).side (some i) (V.makers cfg (V.data i).side (V.data i)) :=
  lined_makers (t := .resting i) hw hq ⟨hi, rfl⟩ (V.data i)

/-- The makers have a quantity. -/
theorem makers_nonneg {b : OrderBook} (h : b.Abs cfg V) (htk : TakerOk V side t) (d : OrderData) :
    ∀ r ∈ V.makers cfg side d, 0 ≤ (V.data r).qty := by
  intro r hr
  obtain ⟨p, hp⟩ := (lined_makers h.weak h.mem.queued htk d).rest r hr
  exact (h.orders r ⟨_, p, hp⟩).2

/-! ## A new order -/

section Process

variable {id : OrderId} {type : OrderType} {price qty : ℤ}

theorem qty_of_valid (hv : validateOrder cfg (incoming id type side price qty) = true) : 0 < qty ∧ qty < 2 ^ 63 := by
  unfold validateOrder incoming at hv
  simp only [Bool.and_eq_true, decide_eq_true_eq] at hv
  obtain ⟨⟨⟨⟨-, -⟩, h1⟩, h2⟩, h3⟩ := hv
  have h4 := cfg.qtyMin_nonneg
  have h5 := cfg.qtyMax_lt
  have h6 := cfg.minNotional_pos
  refine ⟨?_, by omega⟩
  rcases Int.lt_or_eq_of_le (show 0 ≤ qty by omega) with h | h
  · exact h
  · rw [← h, Int.mul_zero] at h3
    have h0 : wrap64 0 = 0 := rfl
    omega

/-- The order of a request. -/
def requested (id : OrderId) (type : OrderType) (side : Side) (price qty : ℤ) : OrderData :=
  ⟨id, type, price, qty, 0, side⟩

/-- A new order is matched: it is filled when it took its whole quantity. -/
theorem matchFresh_spec (h : e.book.Abs cfg V) (hq0 : 0 < qty) (hq1 : qty < 2 ^ 63) {d : OrderData}
    (hd : d = requested id type side price qty) :
    ∃ st e1 t1, matchOrder cfg side e (.fresh (incoming id type side price qty)) = .ok (st, e1, t1) ∧
      (st = .fullFill ↔ traded (V.takes cfg d) = qty) ∧ e1.book.Abs cfg (V.swept cfg none d) ∧
      e1.trades = e.trades ++ events V.data id side e.seqGen (V.takes cfg d) ∧
      e1.seqGen = e.seqGen + UInt64.ofNat (V.takes cfg d).length ∧
      (taker e1.book t1).data = { d with qty := qty - traded (V.takes cfg d), filled := traded (V.takes cfg d) } := by
  have htk : TakerOk V side (.fresh (incoming id type side price qty)) := trivial
  have htaker : (taker e.book (.fresh (incoming id type side price qty))).data = d := hd.symm
  have hL : V.makers cfg d.side d =
      V.makers cfg side (taker e.book (.fresh (incoming id type side price qty))).data := by
    rw [htaker, hd]
    rfl
  have hfs : V.takes cfg d = fills (fun j => (V.data j).qty) (V.makers cfg d.side d)
      (taker e.book (.fresh (incoming id type side price qty))).qty := by
    unfold View.takes
    rw [hd]
    rfl
  obtain ⟨e1, t1, hm, hA, htr, hseq, -, htd⟩ := matchOrder_spec h htk hL hfs
  have hqty : d.qty = qty := by rw [hd]; rfl
  have hdf : d.filled = 0 := by rw [hd]; rfl
  have hnn := makers_nonneg (t := .fresh (incoming id type side price qty)) h htk d
  obtain ⟨ht0, ht1⟩ : 0 ≤ traded (V.takes cfg d) ∧ traded (V.takes cfg d) ≤ qty := by
    unfold View.takes
    rw [hqty, show d.side = side by rw [hd]; rfl]
    exact traded_le hnn hq0.le
  rw [htaker, foldl_fill _ _ (by rw [hdf]; rfl), hdf, hqty, Int.zero_add, wrap64_of_lt ht0 (by omega)] at htd
  refine ⟨_, e1, t1, hm, ?_, ?_, htr, hseq, htd⟩
  · have hfilled : (taker e1.book t1).filled = traded (V.takes cfg d) := congrArg OrderData.filled htd
    have hleft : (taker e1.book t1).qty = qty - traded (V.takes cfg d) := congrArg OrderData.qty htd
    by_cases hbl : V.Blocked side (taker e.book (.fresh (incoming id type side price qty))).data
    · -- nothing is taken
      have hnil : V.takes cfg d = [] := by
        rw [hfs, hL]
        unfold View.makers
        rw [if_pos hbl]
        rfl
      rw [if_pos hbl, hnil, traded_nil]
      exact ⟨fun hc => (by cases hc), fun hc => absurd hc (by omega)⟩
    · rw [if_neg hbl]
      unfold fillStatus
      rw [hfilled, hleft]
      split_ifs with h1 h2
      · exact ⟨fun _ => by omega, fun _ => rfl⟩
      · exact ⟨fun hc => (by cases hc), fun hc => absurd hc (by omega)⟩
      · exact ⟨fun hc => (by cases hc), fun hc => absurd hc (by omega)⟩
  · unfold View.swept
    rw [hqty]
    exact hA

/-- Fills change neither ids, types, prices nor sides. -/
theorem same_swept {taker : Option ℕ} {d : OrderData} (hl : Lined V d.side taker (V.makers cfg d.side d)) (j : ℕ) :
    ((V.swept cfg taker d).data j).id = (V.data j).id ∧ ((V.swept cfg taker d).data j).type = (V.data j).type ∧
      ((V.swept cfg taker d).data j).price = (V.data j).price ∧
      ((V.swept cfg taker d).data j).side = (V.data j).side := by
  refine View.sweep_invariant (P := fun W => (W.data j).id = (V.data j).id ∧ (W.data j).type = (V.data j).type ∧
    (W.data j).price = (V.data j).price ∧ (W.data j).side = (V.data j).side)
    (fun W r t hr _ _ hW => ?_) hl ⟨rfl, rfl, rfl, rfl⟩
  rw [View.data_round (hl.ne r hr)]
  split_ifs
  · exact hW
  · exact hW

theorem resting_swept {taker : Option ℕ} {d : OrderData} (hl : Lined V d.side taker (V.makers cfg d.side d)) {j : ℕ}
    (hj : (V.swept cfg taker d).queues.Resting j) : V.queues.Resting j := by
  obtain ⟨s, p, hm⟩ := hj
  unfold View.swept at hm
  rw [View.queues_sweep hl] at hm
  exact ⟨s, p, List.mem_of_mem_filter hm⟩

/-- The ids of a swept view are ids of the view. -/
theorem find_swept {b b' : OrderBook} (h : b.Abs cfg V) {d : OrderData} (hW : b'.Abs cfg (V.swept cfg none d))
    (hfind : b.idMap.find id = none) : b'.idMap.find id = none := by
  have hlined := lined_fresh h.weak h.mem.queued d
  cases hc : b'.idMap.find id with
  | none => rfl
  | some j =>
    obtain ⟨h1, h2⟩ := hW.find_iff.mp hc
    rw [(same_swept hlined j).1] at h2
    rw [h.find_iff.mpr ⟨resting_swept hlined h1, h2⟩] at hfind
    cases hfind

theorem traded_takes_le {b : OrderBook} (h : b.Abs cfg V) {d : OrderData} (hd : d = requested id type side price qty)
    (hq : 0 ≤ qty) : traded (V.takes cfg d) ≤ qty := by
  have htk : TakerOk V d.side (.fresh OrderPool.blank) := trivial
  have hnn := makers_nonneg h htk d
  unfold View.takes
  have hle := (traded_le hnn (show 0 ≤ d.qty by rw [hd]; exact hq)).2
  rwa [show d.qty = qty by rw [hd]; rfl] at hle ⊢

/-- **`process_order`**: the order is rejected, or it takes from its makers, and the rest of a limit order enters the
book. -/
theorem processOrder_spec (h : e.book.Abs cfg V)
    (hadm : type = .limit → validateOrder cfg (incoming id type side price qty) = true →
      OrderIdMap.Usable id ∧ e.book.idMap.find id = none ∧ cfg.Fits price)
    {d : OrderData} (hd : d = requested id type side price qty) {st : OperationStatus} {idx : OrderIdx} {o : Order}
    (hok : processOrder cfg e id type side price qty = .ok (st, idx, o, e')) :
    (validateOrder cfg (incoming id type side price qty) = false ∧ e' = e ∧ idx = none ∧
      o = incoming id type side price qty) ∨
    (validateOrder cfg (incoming id type side price qty) = true ∧ 0 < qty ∧ qty < 2 ^ 63 ∧
      o.data = { d with qty := qty - traded (V.takes cfg d), filled := traded (V.takes cfg d) } ∧
      e'.trades = e.trades ++ events V.data id side e.seqGen (V.takes cfg d) ∧
      e'.seqGen = e.seqGen + UInt64.ofNat (V.takes cfg d).length ∧
      (((type = .market ∨ traded (V.takes cfg d) = qty) ∧ idx = none ∧ e'.book.Abs cfg (V.swept cfg none d)) ∨
        (type = .limit ∧ traded (V.takes cfg d) < qty ∧
          ((∃ i rest, (V.swept cfg none d).free = i :: rest ∧ ¬ (V.swept cfg none d).queues.Resting i ∧ idx = some i ∧
              e'.book.Abs cfg ((V.swept cfg none d).enter cfg i rest
                { d with qty := qty - traded (V.takes cfg d), filled := traded (V.takes cfg d) })) ∨
            (idx = none ∧ ∃ i f, ¬ (V.swept cfg none d).queues.Resting i ∧
              e'.book.Abs cfg ((V.swept cfg none d).setData i f)))))) := by
  unfold processOrder at hok
  dsimp only at hok
  by_cases hval : validateOrder cfg (incoming id type side price qty) = false
  · rw [if_pos hval] at hok
    cases hok
    exact Or.inl ⟨hval, rfl, rfl, rfl⟩
  rw [if_neg hval] at hok
  rw [Bool.not_eq_false] at hval
  obtain ⟨hq0, hq1⟩ := qty_of_valid hval
  right
  refine ⟨hval, hq0, hq1, ?_⟩
  obtain ⟨st1, e1, t1, hm, hst, hA, htr, hseq, htd⟩ := matchFresh_spec h hq0 hq1 hd
  rw [hm] at hok
  simp only [bind, Except.bind] at hok
  by_cases hend : type = .market ∨ st1 = .fullFill
  · rw [if_pos hend] at hok
    cases hok
    refine ⟨htd, htr, hseq, Or.inl ⟨?_, rfl, hA⟩⟩
    rcases hend with h1 | h1
    · exact Or.inl h1
    · exact Or.inr (hst.mp h1)
  · rw [if_neg hend] at hok
    rw [not_or] at hend
    have hlimit : type = .limit := by
      cases type with
      | limit => rfl
      | market => exact absurd rfl hend.1
    obtain ⟨hu, hfind, hfits⟩ := hadm hlimit hval
    have hle : traded (V.takes cfg d) ≤ qty := traded_takes_le h hd hq0.le
    have hlt : traded (V.takes cfg d) < qty := lt_of_le_of_ne hle (fun hc => hend.2 (hst.mpr hc))
    have hid : (taker e1.book t1).id = id := (congrArg OrderData.id htd).trans (by rw [hd]; rfl)
    have hprice : (taker e1.book t1).price = price := (congrArg OrderData.price htd).trans (by rw [hd]; rfl)
    have hqty : (taker e1.book t1).qty = qty - traded (V.takes cfg d) := congrArg OrderData.qty htd
    have hfilled : (taker e1.book t1).filled = traded (V.takes cfg d) := congrArg OrderData.filled htd
    cases hins : e1.book.insertOrder cfg (taker e1.book t1).id side (taker e1.book t1).price (taker e1.book t1).qty
        (taker e1.book t1).filled with
    | error f => rw [hins] at hok; cases hok
    | ok r =>
      obtain ⟨ist, iidx, b⟩ := r
      rw [hins] at hok
      dsimp only at hok
      rw [hid, hprice, hqty, hfilled] at hins
      have hsp := OrderBook.insertOrder_spec hA hu (find_swept h hA hfind) hfits (by omega) hins
      have he' : e' = { e1 with book := b } ∧ o = taker e1.book t1 ∧ idx = iidx := by
        by_cases hs : ist = .success
        · rw [if_pos hs] at hok
          cases hok
          exact ⟨rfl, rfl, rfl⟩
        · rw [if_neg hs] at hok
          cases hok
          exact ⟨rfl, rfl, rfl⟩
      obtain ⟨rfl, rfl, rfl⟩ := he'
      refine ⟨htd, htr, hseq, Or.inr ⟨hlimit, hlt, ?_⟩⟩
      obtain ⟨-, i, rest, h1, h2, h3⟩ | ⟨-, h0, i, f, h1, h2⟩ := hsp
      · refine Or.inl ⟨i, rest, h1, hA.disjoint i (by rw [h1]; exact List.mem_cons_self), h2, ?_⟩
        rw [hd, hlimit]
        rw [hd, hlimit] at h3
        exact h3
      · exact Or.inr ⟨h0, i, f, h1, h2⟩

end Process

/-! ## An order that rests -/

section Resting

/-- What the taker has paid is taken from its level. -/
theorem abs_settle {b : OrderBook} (h : b.Abs cfg V) (hi : V.queues.Resting i) (x : ℤ) : ∃ k,
    b.getOrCreatePartition cfg (V.data i).side (cfg.partitionId (V.data i).price) = .ok (k, b) ∧
      (b.modifyLevel k (cfg.offset (V.data i).price) (fun l => l.subtractQuantity x)).Abs cfg
        (V.addSlack (V.data i).side (V.data i).price (-x)) := by
  obtain ⟨hplan, k, hk⟩ := h.mem.shape.mem_plan (h.mem_queues hi)
  refine ⟨k, ?_, ?_⟩
  · unfold OrderBook.getOrCreatePartition
    rw [if_neg (by have := hplan.partitionId_lt; omega), hk]
  · have hm := OrderBook.mem_addTotal h.mem hplan hk (-x) (f := fun l => l.subtractQuantity x) (fun l => by
      unfold PriceLevel.subtractQuantity PriceLevel.addQuantity
      rw [Int.sub_eq_add_neg])
    exact h.step hm OrderBook.samePool_modifyPartition h.weak rfl (fun _ => Iff.rfl) (fun _ => rfl) h.orders

/-- The taker rests until it is removed. -/
theorem resting_taker {b : OrderBook} (h : b.Abs cfg V) (hi : V.queues.Resting i) :
    (V.swept cfg (some i) (V.data i)).queues.Resting i := by
  have hl := lined_resting h.weak h.mem.queued hi
  refine ⟨(V.data i).side, (V.data i).price, ?_⟩
  unfold View.swept
  rw [View.queues_sweep_side hl]
  exact h.mem_queues hi

/-- What the order at `i` has left, when it has taken. -/
theorem qty_swept {b : OrderBook} (h : b.Abs cfg V) (hi : V.queues.Resting i) :
    ((V.swept cfg (some i) (V.data i)).data i).qty = (V.data i).qty - traded (V.takes cfg (V.data i)) := by
  have hd : (V.swept cfg (some i) (V.data i)).data i =
      (V.takes cfg (V.data i)).foldl (fun d f => d.fill f.2) (V.data i) := View.data_sweep_taker (lined_resting h.weak h.mem.queued hi)
  rw [hd, qty_foldl_fill]

/-- `match_order_` for an order that rests. -/
theorem matchResting_spec (h : e.book.Abs cfg V) (hi : V.queues.Resting i) {W : View}
    (hW : W = V.swept cfg (some i) (V.data i)) :
    ∃ e1, matchOrder cfg (V.data i).side e (.resting i) = .ok (if V.Blocked (V.data i).side (V.data i) then .noMatch
        else fillStatus (e1.book.order i), e1, .resting i) ∧ e1.book.Abs cfg W ∧
      e1.trades = e.trades ++ events V.data (V.data i).id (V.data i).side e.seqGen (V.takes cfg (V.data i)) ∧
      e1.seqGen = e.seqGen + UInt64.ofNat (V.takes cfg (V.data i)).length := by
  have htk : TakerOk V (V.data i).side (.resting i) := ⟨hi, rfl⟩
  have htaker : (taker e.book (.resting i)).data = V.data i := h.mem.data i
  have hqty : (taker e.book (.resting i)).qty = (V.data i).qty := congrArg OrderData.qty htaker
  have hid : (taker e.book (.resting i)).id = (V.data i).id := congrArg OrderData.id htaker
  have hL : V.makers cfg (V.data i).side (V.data i) =
      V.makers cfg (V.data i).side (taker e.book (.resting i)).data := by rw [htaker]
  have hfs : V.takes cfg (V.data i) = fills (fun j => (V.data j).qty) (V.makers cfg (V.data i).side (V.data i))
      (taker e.book (.resting i)).qty := by
    rw [hqty]
    rfl
  obtain ⟨e1, t1, hm, hA, htr, hseq, hidx, -⟩ := matchOrder_spec h htk hL hfs
  have ht1 : t1 = .resting i := by
    cases t1 with
    | fresh o => cases hidx
    | resting j => rw [Option.some.inj hidx]
  subst ht1
  rw [htaker] at hm
  rw [hqty] at hA
  rw [hid] at htr
  refine ⟨e1, hm, ?_, htr, hseq⟩
  rw [hW]
  exact hA

/-- **`match_resting_order_`**: an order that rests takes from its makers. -/
theorem matchRestingOrder_spec (h : e.book.Abs cfg V) (hi : V.queues.Resting i) :
    ∃ st e', matchRestingOrder cfg (V.data i).side e i = .ok (st, e') ∧ e'.book.Abs cfg (V.settled cfg i) ∧
      e'.trades = e.trades ++ events V.data (V.data i).id (V.data i).side e.seqGen (V.takes cfg (V.data i)) ∧
      e'.seqGen = e.seqGen + UInt64.ofNat (V.takes cfg (V.data i)).length := by
  obtain ⟨W, hW⟩ : ∃ W, W = V.swept cfg (some i) (V.data i) := ⟨_, rfl⟩
  obtain ⟨e1, hm, hA, htr, hseq⟩ := matchResting_spec h hi hW
  have hres : W.queues.Resting i := by
    rw [hW]
    exact resting_taker h hi
  have hsame : (W.data i).price = (V.data i).price ∧ (W.data i).side = (V.data i).side := by
    rw [hW]
    exact (same_swept (lined_resting h.weak h.mem.queued hi) i).2.2
  have hqty : (e.book.order i).qty - (e1.book.order i).qty = traded (V.takes cfg (V.data i)) := by
    rw [h.mem.qty_eq, hA.mem.qty_eq, hW, qty_swept h hi]
    omega
  have hprice : (e1.book.order i).price = (V.data i).price := (hA.mem.price_eq i).trans hsame.1
  have hfilled : (e1.book.order i).filled = (W.data i).filled := congrArg OrderData.filled (hA.mem.data i)
  unfold matchRestingOrder
  rw [hm]
  simp only [bind, Except.bind]
  obtain ⟨k, hk, hA1⟩ := abs_settle hA hres (traded (V.takes cfg (V.data i)))
  rw [hsame.1, hsame.2] at hk hA1
  -- the level is settled, if the status says that the order was filled
  have hsettle : ∀ st : OperationStatus, st = .partialFill ∨ st = .fullFill →
      settleLevel cfg (V.data i).side st e1.book i (e.book.order i).qty = .ok (e1.book.modifyLevel k
        (cfg.offset (V.data i).price) (fun l => l.subtractQuantity (traded (V.takes cfg (V.data i))))) := by
    intro st hst
    unfold settleLevel
    rw [if_pos hst]
    dsimp only
    rw [hprice, hk]
    simp only [bind, Except.bind]
    rw [hqty]
    rfl
  have hskip : settleLevel cfg (V.data i).side .noMatch e1.book i (e.book.order i).qty = .ok e1.book := by
    unfold settleLevel
    rw [if_neg (by decide)]
  unfold View.settled
  dsimp only
  rw [← hW]
  by_cases hbl : V.Blocked (V.data i).side (V.data i)
  · rw [if_pos hbl, hskip, if_pos (Or.inl hbl)]
    exact ⟨_, _, rfl, hA, htr, hseq⟩
  rw [if_neg hbl]
  by_cases hf : 0 < (e1.book.order i).filled
  · rw [if_neg (show ¬ (V.Blocked (V.data i).side (V.data i) ∨ (W.data i).filled ≤ 0) by
      rw [← hfilled]
      exact fun hc => hc.elim hbl (by omega))]
    by_cases hq : (e1.book.order i).qty = 0
    · have hst : fillStatus (e1.book.order i) = .fullFill := by
        unfold fillStatus
        rw [if_pos hf, if_pos hq]
      rw [hst, hsettle _ (Or.inr rfl), if_pos (by rw [← hA.mem.qty_eq]; exact hq)]
      dsimp only
      rw [if_pos rfl]
      obtain ⟨b2, hb2, hA2⟩ := OrderBook.removeOrder_spec hA1 hres
      rw [← hA1.mem.id_eq i] at hb2
      rw [hb2]
      exact ⟨_, _, rfl, hA2, htr, hseq⟩
    · have hst : fillStatus (e1.book.order i) = .partialFill := by
        unfold fillStatus
        rw [if_pos hf, if_neg hq]
      rw [hst, hsettle _ (Or.inl rfl), if_neg (by rw [← hA.mem.qty_eq]; exact hq)]
      exact ⟨_, _, rfl, hA1, htr, hseq⟩
  · have hst : fillStatus (e1.book.order i) = .noMatch := by
      unfold fillStatus
      rw [if_neg hf]
    rw [hst, hskip, if_pos (Or.inr (by omega))]
    exact ⟨_, _, rfl, hA, htr, hseq⟩

/-- A new price of an order changes nothing on the other side. -/
theorem bests_reprice_opp (cfg : Config) (V : View) (i : ℕ) (newPrice : ℤ) :
    (V.reprice cfg i newPrice).bests (V.data i).side.opp = V.bests (V.data i).side.opp := by
  obtain ⟨g, hg⟩ := View.reprice_eq cfg V i newPrice
  rw [hg, View.bests_setBests_opp]
  rfl

theorem blocked_reprice {d : OrderData} (hs : d.side = (V.data i).side) (newPrice : ℤ) :
    (V.reprice cfg i newPrice).Blocked d.side d ↔ V.Blocked d.side d := by
  unfold View.Blocked
  rw [hs, bests_reprice_opp]

theorem makers_reprice {d : OrderData} (hs : d.side = (V.data i).side) (newPrice : ℤ) :
    (V.reprice cfg i newPrice).makers cfg d.side d = V.makers cfg d.side d := by
  have hq : (V.reprice cfg i newPrice).queues (V.data i).side.opp = V.queues (V.data i).side.opp := by
    rw [View.queues_reprice]
    exact View.queues_move_opp rfl
  unfold View.makers
  simp only [blocked_reprice hs]
  rw [hs, bests_reprice_opp, hq]

theorem takes_reprice {d : OrderData} (hs : d.side = (V.data i).side) (newPrice : ℤ) :
    (V.reprice cfg i newPrice).takes cfg d = V.takes cfg d := by
  unfold View.takes
  rw [makers_reprice hs newPrice]
  refine fills_congr (fun j _ => ?_) d.qty
  rw [View.data_reprice]
  split_ifs with hj
  · rw [hj]
  · rfl

theorem events_reprice {b : OrderBook} (h : b.Abs cfg V) {d : OrderData} (hs : d.side = (V.data i).side) (id : OrderId)
    (newPrice : ℤ) (n : UInt64) : events (V.reprice cfg i newPrice).data id d.side n (V.takes cfg d) =
      events V.data id d.side n (V.takes cfg d) := by
  refine events_congr (fun f hf => ?_) n
  obtain ⟨p, hp⟩ := (lined_fresh h.weak h.mem.queued d).rest f.1 (fills_mem hf)
  have hne : f.1 ≠ i := by
    intro he
    have hside := (h.mem.mem_queue hp).1
    rw [he, ← hs] at hside
    exact Side.opp_ne d.side hside.symm
  rw [View.data_reprice, if_neg hne]
  exact ⟨rfl, rfl⟩

/-- **`modify_order_price`**: nothing happens, or the order is moved to its new price and takes from there. -/
theorem modifyOrderPrice_spec (h : e.book.Abs cfg V) {id : OrderId} {newPrice : ℤ} (hfits : cfg.Fits newPrice)
    {st : OperationStatus} (hok : modifyOrderPrice cfg e id newPrice = .ok (st, e')) :
    ((∀ idx b, e.book.repriceOrder cfg id newPrice ≠ .ok (.success, idx, b)) ∧ e' = e) ∨
    ∃ i d, V.queues.Resting i ∧ (V.data i).id = id ∧ (V.data i).price ≠ newPrice ∧ cfg.InPlan newPrice ∧
      (∃ b, e.book.repriceOrder cfg id newPrice = .ok (.success, some i, b)) ∧
      d = { V.data i with price := newPrice } ∧ e'.book.Abs cfg ((V.reprice cfg i newPrice).settled cfg i) ∧
      e'.trades = e.trades ++ events V.data id d.side e.seqGen (V.takes cfg d) ∧
      e'.seqGen = e.seqGen + UInt64.ofNat (V.takes cfg d).length := by
  unfold modifyOrderPrice at hok
  cases hr : e.book.repriceOrder cfg id newPrice with
  | error f => rw [hr] at hok; cases hok
  | ok r =>
    obtain ⟨rst, idx, b⟩ := r
    rw [hr] at hok
    simp only [bind, Except.bind] at hok
    obtain ⟨hst, rfl, -⟩ | ⟨rfl, i, rfl, hi, hid, hne, hplan, hA⟩ := OrderBook.repriceOrder_spec h hfits hr
    · left
      cases rst with
      | success => exact absurd rfl hst
      | _ => cases hok; exact ⟨fun _ _ hc => (by cases hc), rfl⟩
    · right
      have hres : (V.reprice cfg i newPrice).queues.Resting i := by
        rw [View.queues_reprice]
        exact (View.resting_move h.mem.queued (h.mem_queues hi)).mpr hi
      obtain ⟨d, hd⟩ : ∃ d : OrderData, d = { V.data i with price := newPrice } := ⟨_, rfl⟩
      have hdata : (V.reprice cfg i newPrice).data i = d := by rw [View.data_reprice, if_pos rfl, hd]
      have hside : d.side = (V.data i).side := by rw [hd]
      have hid' : d.id = id := by rw [hd]; exact hid
      refine ⟨i, d, hi, hid, hne, hplan, ⟨b, rfl⟩, hd, ?_⟩
      dsimp only at hok
      obtain ⟨mst, e2, hm, hA2, htr, hseq⟩ := matchRestingOrder_spec (e := { e with book := b }) hA hres
      rw [← hA.mem.side_eq i] at hm
      rw [hm] at hok
      rw [hdata, takes_reprice hside] at hseq
      rw [hdata, takes_reprice hside, events_reprice h hside, hid'] at htr
      cases hok
      exact ⟨hA2, htr, hseq⟩

/-- **`modify_order_quantity`**. -/
theorem modifyOrderQuantity_spec (h : e.book.Abs cfg V) (id : OrderId) {newQty : ℤ} (hqty : 0 ≤ newQty) :
    ∃ st e', modifyOrderQuantity cfg e id newQty = .ok (st, e') ∧ e'.trades = e.trades ∧ e'.seqGen = e.seqGen ∧
      ((st ≠ .success ∧ e' = e ∧
          (newQty = 0 ∨ ∀ i, V.queues.Resting i → (V.data i).id = id → (V.data i).qty = newQty)) ∨
        (st = .success ∧ ∃ i, V.queues.Resting i ∧ (V.data i).id = id ∧ (V.data i).qty ≠ newQty ∧ newQty ≠ 0 ∧
          e'.book.Abs cfg (V.setData i (fun d => { d with qty := newQty })))) := by
  obtain ⟨st, b', hr, hsp⟩ := OrderBook.resizeOrder_spec h id hqty
  unfold modifyOrderQuantity
  rw [hr]
  refine ⟨st, { e with book := b' }, rfl, rfl, rfl, ?_⟩
  obtain ⟨hst, rfl, hun⟩ | ⟨rfl, i, hi, hid, hne, hA⟩ := hsp
  · exact Or.inl ⟨hst, rfl, hun⟩
  · refine Or.inr ⟨rfl, i, hi, hid, hne, ?_, hA⟩
    rintro rfl
    unfold OrderBook.resizeOrder at hr
    rw [if_pos rfl] at hr
    cases hr

/-- **`cancel_order`**. -/
theorem cancelOrder_spec (h : e.book.Abs cfg V) (id : OrderId) :
    ∃ st e', cancelOrder cfg e id = .ok (st, e') ∧ e'.trades = e.trades ∧ e'.seqGen = e.seqGen ∧
      ((st = .notFound ∧ e' = e ∧ ∀ i, V.queues.Resting i → (V.data i).id ≠ id) ∨
        (st = .success ∧ ∃ i, V.queues.Resting i ∧ (V.data i).id = id ∧ e'.book.Abs cfg (V.leave cfg i))) := by
  unfold cancelOrder
  cases hf : e.book.idMap.find id with
  | none =>
    rw [OrderBook.removeOrder_notFound hf]
    refine ⟨_, _, rfl, rfl, rfl, Or.inl ⟨rfl, rfl, fun i hi hid => ?_⟩⟩
    rw [h.find_iff.mpr ⟨hi, hid⟩] at hf
    cases hf
  | some i =>
    obtain ⟨hi, rfl⟩ := h.find_iff.mp hf
    obtain ⟨b', hb, hA⟩ := OrderBook.removeOrder_spec h hi
    rw [hb]
    exact ⟨_, _, rfl, rfl, rfl, Or.inr ⟨rfl, i, hi, rfl, hA⟩⟩

end Resting

end Engine

end Wirekrak.Flashstrike

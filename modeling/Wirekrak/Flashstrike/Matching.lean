import Wirekrak.Flashstrike.Book
import Wirekrak.Flashstrike.Engine

/-!
# Wirekrak.Flashstrike.Matching — the matching loop on the view

The loop takes the sweepable orders of the opposite side one after the other, until the taker is filled.

* `fills`: the makers and the quantities taken from them; `events` the trade events.
* `View.sweep`: the view after the loop, and the quantity the taker has left.
* `matchLoop_spec`, `matchOrder_spec`: the loop returns, with these trades and this view.
-/

namespace Wirekrak.Flashstrike

open Wirekrak.Lib

/-- `qty -= q; filled += q`. -/
def OrderData.fill (t : ℤ) (d : OrderData) : OrderData := { d with qty := d.qty - t, filled := wrap64 (d.filled + t) }

/-- What a taker of quantity `q` takes from the orders of the list. -/
def fills (qty : ℕ → ℤ) : List ℕ → ℤ → List (ℕ × ℤ)
  | [], _ => []
  | r :: L, q => if 0 < q then (r, min q (qty r)) :: fills qty L (q - min q (qty r)) else []

/-- The trade events of the fills, numbered from `n` on. -/
def events (data : ℕ → OrderData) (takerId : OrderId) (side : Side) : UInt64 → List (ℕ × ℤ) → List TradeEvent
  | _, [] => []
  | n, (r, t) :: fs => ⟨n, (data r).id, takerId, (data r).price, t, side⟩ :: events data takerId side (n + 1) fs

namespace View

variable (cfg : Config)

/-- A taker that rests pays; its level does not know yet. -/
def pay (V : View) (t : ℤ) : Option ℕ → View
  | none => V
  | some i => (V.setData i (OrderData.fill t)).addSlack (V.data i).side (V.data i).price t

/-- A maker is hit, and leaves if nothing is left of it. -/
def hit (V : View) (t : ℤ) (r : ℕ) : View :=
  let V1 := V.setData r (OrderData.fill t)
  if (V1.data r).qty = 0 then V1.leave cfg r else V1

/-- The taker takes from the orders of the list, in order. -/
def sweep (taker : Option ℕ) : List ℕ → ℤ → View → View × ℤ
  | [], q, V => (V, q)
  | r :: L, q, V =>
    if 0 < q then
      let t := min q (V.data r).qty
      sweep taker L (q - t) ((V.pay t taker).hit cfg t r)
    else (V, q)

variable {cfg} {V : View} {taker : Option ℕ} {q t : ℤ} {r i j : ℕ} {s : Side}

theorem sweep_of_nonpos (hq : q ≤ 0) (L : List ℕ) : V.sweep cfg taker L q = (V, q) := by
  cases L with
  | nil => rfl
  | cons r L =>
    unfold sweep
    rw [if_neg (by omega)]

end View

theorem fills_of_nonpos {qty : ℕ → ℤ} {q : ℤ} (hq : q ≤ 0) (L : List ℕ) : fills qty L q = [] := by
  cases L with
  | nil => rfl
  | cons r L =>
    unfold fills
    rw [if_neg (by omega)]

/-! ## One round -/

/-- The pool index of a taker that rests. -/
def Taker.idx : Taker → Option ℕ
  | .fresh _ => none
  | .resting i => some i

namespace OrderBook

variable {cfg : Config} {b : OrderBook} {V : View} {s : Side} {p q t : ℤ} {i r k : ℕ}

theorem abs_pay (h : b.Abs cfg V) (hi : V.queues.Resting i) (ht : t ≤ (V.data i).qty) :
    (b.modifyOrder i (Engine.fill t)).Abs cfg (V.pay t (some i)) := by
  have hfill : (Engine.fill t (b.order i)).data = OrderData.fill t (b.order i).data := rfl
  have hm := mem_setQty h.mem (h.mem_queues hi) hfill ⟨rfl, rfl, rfl, rfl⟩
  have hslack : (V.data i).qty - (OrderData.fill t (V.data i)).qty = t := by
    unfold OrderData.fill
    dsimp only
    omega
  rw [hslack] at hm
  have hdata : ∀ j, (V.pay t (some i)).data j = if j = i then OrderData.fill t (V.data i) else V.data j :=
    fun j => View.data_setData V i j _
  refine h.step hm (samePool_modifyOrder b i (Engine.fill t) (fun _ => rfl)) h.weak rfl (fun _ => Iff.rfl) (fun j => ?_)
    (fun j hj => ?_)
  · rw [hdata]
    split_ifs with hj
    · rw [hj]
      rfl
    · rfl
  · rw [hdata]
    split_ifs with hji
    · refine ⟨(h.orders i hi).1, ?_⟩
      unfold OrderData.fill
      dsimp only
      omega
    · exact h.orders j hj

/-- The maker's quantity and the total of its level. -/
theorem abs_fill (h : b.Abs cfg V) (hr : r ∈ V.queues s p) (hk : b.held s (cfg.partitionId p) = some k)
    (ht : t ≤ (V.data r).qty) :
    ((b.modifyOrder r (Engine.fill t)).modifyLevel k (cfg.offset p) (fun l => l.subtractQuantity t)).Abs cfg
      (V.setData r (OrderData.fill t)) := by
  have hm : ((b.modifyLevel k (cfg.offset p) (fun l => l.subtractQuantity t)).modifyOrder r (Engine.fill t)).Mem cfg
      (V.setData r (OrderData.fill t)) := by
    refine mem_setQtyTotal (x := -t) h.mem hr hk rfl ⟨rfl, rfl, rfl, rfl⟩ (fun l => ?_) ?_
    · unfold PriceLevel.subtractQuantity PriceLevel.addQuantity
      rw [Int.sub_eq_add_neg]
    · unfold OrderData.fill
      dsimp only
      omega
  refine h.step hm ?_ h.weak rfl (fun _ => Iff.rfl) (fun j => ?_) (fun j hj => ?_)
  · exact (samePool_modifyOrder b r (Engine.fill t) (fun _ => rfl)).trans samePool_modifyPartition
  · rw [View.data_setData]
    split_ifs with hj
    · rw [hj]
      rfl
    · rfl
  · rw [View.data_setData]
    split_ifs with hjr
    · refine ⟨(h.orders r ⟨s, p, hr⟩).1, ?_⟩
      unfold OrderData.fill
      dsimp only
      omega
    · exact h.orders j hj

/-- The maker is hit, and removed if nothing is left of it. -/
theorem abs_hit (h : b.Abs cfg V) (hr : r ∈ V.queues s p) (hk : b.held s (cfg.partitionId p) = some k)
    (ht : t ≤ (V.data r).qty) : ∃ b', Engine.removeIfFilled cfg ((b.modifyOrder r (Engine.fill t)).modifyLevel k
      (cfg.offset p) (fun l => l.subtractQuantity t)) r = .ok b' ∧ b'.Abs cfg (V.hit cfg t r) := by
  have h3 := abs_fill h hr hk ht
  unfold View.hit Engine.removeIfFilled
  dsimp only
  rw [h3.mem.qty_eq, h3.mem.id_eq]
  by_cases h0 : ((V.setData r (OrderData.fill t)).data r).qty = 0
  · rw [if_pos h0, if_pos h0]
    obtain ⟨b', hb', hA⟩ := removeOrder_spec h3 (i := r) ⟨s, p, hr⟩
    rw [hb']
    exact ⟨b', rfl, hA⟩
  · rw [if_neg h0, if_neg h0]
    exact ⟨_, rfl, h3⟩

end OrderBook

namespace View

variable {cfg : Config} {V : View} {s : Side} {q t : ℤ} {r j : ℕ} {taker : Option ℕ}

@[simp] theorem queues_pay : (V.pay t taker).queues = V.queues := by cases taker <;> rfl

@[simp] theorem bests_pay : (V.pay t taker).bests = V.bests := by cases taker <;> rfl

@[simp] theorem free_pay : (V.pay t taker).free = V.free := by cases taker <;> rfl

theorem data_pay : (V.pay t taker).data j = if taker = some j then OrderData.fill t (V.data j) else V.data j := by
  cases taker with
  | none => simp [pay]
  | some i =>
    show (V.setData i (OrderData.fill t)).data j = _
    rw [data_setData]
    by_cases hj : j = i
    · subst hj
      simp
    · simp [hj, Ne.symm hj]

theorem data_hit : (V.hit cfg t r).data j = if j = r then OrderData.fill t (V.data r) else V.data j := by
  unfold hit
  dsimp only
  split_ifs with h1 h2 h2
  · exact (data_setData V r j _).trans (if_pos h2)
  · exact (data_setData V r j _).trans (if_neg h2)
  · rw [data_setData, if_pos h2]
  · rw [data_setData, if_neg h2]

theorem Queued.congr {W : View} (h : V.Queued) (hq : W.queues = V.queues)
    (hd : ∀ j, (W.data j).side = (V.data j).side ∧ (W.data j).price = (V.data j).price) : W.Queued := by
  refine ⟨fun s p j hj => ?_, fun s p => by rw [hq]; exact h.nodup s p⟩
  rw [hq] at hj
  rw [(hd j).1, (hd j).2]
  exact h.member s p j hj

/-- Taker and maker after a round, before the maker leaves. -/
def met (V : View) (t : ℤ) (taker : Option ℕ) (r : ℕ) : View := (V.pay t taker).setData r (OrderData.fill t)

theorem hit_eq : (V.pay t taker).hit cfg t r =
    if ((V.met t taker r).data r).qty = 0 then (V.met t taker r).leave cfg r else V.met t taker r := rfl

@[simp] theorem queues_met : (V.met t taker r).queues = V.queues := queues_pay

@[simp] theorem bests_met : (V.met t taker r).bests = V.bests := bests_pay

theorem data_met : (V.met t taker r).data j =
    if j = r then OrderData.fill t ((V.pay t taker).data r) else (V.pay t taker).data j := data_setData _ _ _ _

theorem queued_met (h : V.Queued) : (V.met t taker r).Queued := by
  have hpay : ∀ j, ((V.pay t taker).data j).side = (V.data j).side ∧ ((V.pay t taker).data j).price = (V.data j).price := by
    intro j
    rw [data_pay]
    split_ifs <;> exact ⟨rfl, rfl⟩
  refine h.congr queues_met (fun j => ?_)
  rw [data_met]
  split_ifs with hj
  · rw [hj]
    exact hpay r
  · exact hpay j

/-- Only the maker can leave in a round. -/
theorem resting_hit (h : V.Queued) {p : ℤ} (hr : r ∈ V.queues s p) (hj : V.queues.Resting j) (hne : j ≠ r) :
    ((V.pay t taker).hit cfg t r).queues.Resting j := by
  rw [hit_eq]
  split_ifs
  · refine (resting_unlink (queued_met h) (s := s) (p := p) (by rw [queues_met]; exact hr)).mpr ⟨?_, hne⟩
    rw [queues_met]
    exact hj
  · rw [queues_met]
    exact hj

/-- Without the maker that was used up, the rest is sweepable in the same order. -/
theorem sweepable_leave (hw : V.Weak cfg) {L : List ℕ}
    (hs : (V.bests s).sweepable cfg s (V.queues s) = r :: L) (hside : (V.data r).side = s)
    (hprice : (V.data r).price = (V.bests s).best) :
    ((V.leave cfg r).bests s).sweepable cfg s ((V.leave cfg r).queues s) = L := by
  obtain ⟨-, rest, hrest⟩ := Bests.sweepable_cons (hw s) hs
  have hq : (V.leave cfg r).queues = V.queues.set s (V.bests s).best ((V.queues s (V.bests s).best).erase r) :=
    queues_unlink hside hprice
  have hb : (V.leave cfg r).bests s = (V.bests s).remove cfg s ((V.leave cfg r).queues s) (V.bests s).best := by
    unfold leave
    rw [detach_eq hside hprice]
    exact bests_setBests_self
  have hself : (V.leave cfg r).queues s (V.bests s).best = rest := by
    rw [hq, Queues.set_self, hrest, List.erase_cons_head]
  rw [hb]
  refine Bests.sweepable_remove (hw s) hs (by rw [hself, hrest]) (fun p hp => ?_)
  rw [hq, Queues.set_of_ne (fun h => hp h.2)]

end View

/-! ## The makers -/

section Makers

variable {cfg : Config} {V : View} {s : Side} {i j : ℕ}

theorem mem_ladder : i ∈ ladder cfg s (V.queues s) ↔ ∃ p, cfg.InPlan p ∧ i ∈ V.queues s p := by
  unfold ladder
  simp only [List.mem_flatMap, mem_planPrices]

theorem nodup_ladder (h : V.Queued) : (ladder cfg s (V.queues s)).Nodup := by
  unfold ladder
  rw [List.nodup_flatMap]
  refine ⟨fun p _ => h.nodup s p, (planPrices_sorted cfg s).imp (fun {a c} hac => ?_)⟩
  rw [Function.onFun, List.disjoint_left]
  intro i hi hi'
  have h1 := (h.member s a i hi).2
  have h2 := (h.member s c i hi').2
  rw [← h1, ← h2] at hac
  omega

/-- A sweepable order rests at its price on its side. -/
theorem sweepable_resting (hw : V.Weak cfg) (hi : i ∈ (V.bests s).sweepable cfg s (V.queues s)) :
    ∃ p, cfg.InPlan p ∧ i ∈ V.queues s p :=
  mem_ladder.mp ((Bests.sweepable_isPrefix (hw s)).subset hi)

theorem sweepable_nodup (hw : V.Weak cfg) (h : V.Queued) : ((V.bests s).sweepable cfg s (V.queues s)).Nodup :=
  (nodup_ladder h).sublist (Bests.sweepable_isPrefix (hw s)).sublist

/-- The makers are orders of the pool: there are not more of them than the pool has. -/
theorem sweepable_length {b : OrderBook} (h : b.Abs cfg V) :
    ((V.bests s).sweepable cfg s (V.queues s)).length ≤ cfg.maxOrders := by
  have hsub : (V.bests s).sweepable cfg s (V.queues s) ⊆ List.range cfg.maxOrders := by
    intro i hi
    obtain ⟨p, -, hm⟩ := sweepable_resting h.weak hi
    exact List.mem_range.mpr ((h.index i).mpr (Or.inr ⟨s, p, hm⟩))
  have hle := (List.subperm_of_subset (sweepable_nodup h.weak h.mem.queued) hsub).length_le
  rwa [List.length_range] at hle

theorem fills_congr {qty qty' : ℕ → ℤ} {L : List ℕ} (h : ∀ j ∈ L, qty' j = qty j) (q : ℤ) :
    fills qty' L q = fills qty L q := by
  induction L generalizing q with
  | nil => rfl
  | cons r L ih =>
    unfold fills
    rw [h r List.mem_cons_self, ih (fun j hj => h j (List.mem_cons_of_mem r hj))]

theorem fills_mem {qty : ℕ → ℤ} {L : List ℕ} {q : ℤ} {f : ℕ × ℤ} (hf : f ∈ fills qty L q) : f.1 ∈ L := by
  induction L generalizing q with
  | nil => exact absurd hf List.not_mem_nil
  | cons r L ih =>
    unfold fills at hf
    split_ifs at hf
    · rcases List.mem_cons.mp hf with rfl | hf
      · exact List.mem_cons_self
      · exact List.mem_cons_of_mem r (ih hf)
    · exact absurd hf List.not_mem_nil

@[simp] theorem length_events (data : ℕ → OrderData) (id : OrderId) (s : Side) (n : UInt64) (fs : List (ℕ × ℤ)) :
    (events data id s n fs).length = fs.length := by
  induction fs generalizing n with
  | nil => rfl
  | cons f fs ih => exact congrArg (· + 1) (ih (n + 1))

/-- What the events say is what the fills are. -/
theorem map_events {β : Type*} (g : OrderId → ℤ → ℤ → β) (data : ℕ → OrderData) (id : OrderId) (s : Side) (n : UInt64)
    (fs : List (ℕ × ℤ)) : (events data id s n fs).map (fun t => g t.makerOrderId t.price t.qty) =
      fs.map (fun f => g (data f.1).id (data f.1).price f.2) := by
  induction fs generalizing n with
  | nil => rfl
  | cons f fs ih => exact congrArg (g (data f.1).id (data f.1).price f.2 :: ·) (ih (n + 1))

theorem events_congr {data data' : ℕ → OrderData} {id : OrderId} {fs : List (ℕ × ℤ)}
    (h : ∀ f ∈ fs, (data' f.1).id = (data f.1).id ∧ (data' f.1).price = (data f.1).price) (n : UInt64) :
    events data' id s n fs = events data id s n fs := by
  induction fs generalizing n with
  | nil => rfl
  | cons f fs ih =>
    obtain ⟨r, t⟩ := f
    unfold events
    obtain ⟨h1, h2⟩ := h (r, t) List.mem_cons_self
    rw [h1, h2, ih (fun f hf => h f (List.mem_cons_of_mem _ hf))]

end Makers

/-! ## The loop -/

namespace Engine

variable {cfg : Config} {e e' : Engine} {V : View} {side : Side} {t : Taker} {q : ℤ} {k r fuel : ℕ} {L : List ℕ}

/-- A taker that rests is an order of its side. -/
def TakerOk (V : View) (side : Side) : Taker → Prop
  | .fresh _ => True
  | .resting i => V.queues.Resting i ∧ (V.data i).side = side

/-- The best level of a side. -/
theorem bestLevel_spec {b : OrderBook} (h : b.Abs cfg V) (s : Side) :
    ((V.bests s).has = false ∧ b.getBestPriceLevel cfg s = .ok none) ∨
      ((V.bests s).has = true ∧ ∃ k, b.held s (cfg.partitionId (V.bests s).best) = some k ∧
        b.getBestPriceLevel cfg s = .ok (some (k, cfg.offset (V.bests s).best)) ∧
        (b.level k (cfg.offset (V.bests s).best)).headIdx = (V.queues s (V.bests s).best).head? ∧
        (b.level k (cfg.offset (V.bests s).best)).price = (V.bests s).best) := by
  have hb := h.mem.bests s
  have hhas : (b.getStore s).hasBest = (V.bests s).has := by rw [← hb]; rfl
  have hbest : (b.getStore s).bestPrice = (V.bests s).best := by rw [← hb]; rfl
  unfold OrderBook.getBestPriceLevel
  dsimp only
  rw [hhas, hbest]
  cases hc : (V.bests s).has with
  | false => exact Or.inl ⟨rfl, rfl⟩
  | true =>
    obtain ⟨hplan, hv, hpart⟩ := (h.weak s).home hc
    right
    cases hk : b.held s (cfg.partitionId (V.bests s).best) with
    | none => rw [h.mem.part_none hk] at hpart; cases hpart
    | some k =>
      have hlev := h.mem.shape.levelAt hplan hk
      rw [if_neg (by decide), OrderBook.getPartition_eq h.mem.shape.parts hk]
      exact ⟨rfl, k, rfl, rfl, hlev.dll.head_eq, hlev.price⟩

theorem matchLoop_done (h : e.book.Abs cfg V) (hfuel : 0 < fuel) (hq : (taker e.book t).qty ≤ 0) :
    matchLoop cfg side fuel e t = .ok (e, t) := by
  obtain ⟨n, rfl⟩ : ∃ n, fuel = n + 1 := ⟨fuel - 1, by omega⟩
  unfold matchLoop
  rcases bestLevel_spec h side.opp with ⟨-, hb⟩ | ⟨-, k, -, hb, -, -⟩
  · rw [hb]
    rfl
  · rw [hb]
    simp only [bind, Except.bind]
    cases (e.book.level k (cfg.offset (V.bests side.opp).best)).headIdx with
    | none => rfl
    | some r =>
      dsimp only
      rw [if_neg (by omega)]
      rfl

theorem matchLoop_nil (h : e.book.Abs cfg V) (hfuel : 0 < fuel)
    (hs : (V.bests side.opp).sweepable cfg side.opp (V.queues side.opp) = []) :
    matchLoop cfg side fuel e t = .ok (e, t) := by
  obtain ⟨n, rfl⟩ : ∃ n, fuel = n + 1 := ⟨fuel - 1, by omega⟩
  unfold matchLoop
  rcases bestLevel_spec h side.opp with ⟨-, hb⟩ | ⟨hhas, k, -, hb, hhead, -⟩
  · rw [hb]
    rfl
  · have hnil : V.queues side.opp (V.bests side.opp).best = [] := by
      rcases Bests.sweepable_nil (h.weak _) hs with h1 | h1
      · rw [hhas] at h1
        cases h1
      · exact h1
    rw [hb]
    simp only [bind, Except.bind]
    rw [hhead, hnil]
    rfl

/-- The taker pays. -/
theorem abs_fillTaker {b : OrderBook} {x : ℤ} (h : b.Abs cfg V) (htk : TakerOk V side t) (hx : x ≤ (taker b t).qty) :
    (fillTaker b x t).1.Abs cfg (V.pay x t.idx) ∧ (fillTaker b x t).2.idx = t.idx := by
  cases t with
  | fresh o => exact ⟨h, rfl⟩
  | resting i =>
    refine ⟨OrderBook.abs_pay h htk.1 ?_, rfl⟩
    rw [← h.mem.qty_eq]
    exact hx

/-- The taker after it has paid: its own copy, or the order in the pool, which no maker is. -/
theorem taker_fillTaker {b b' : OrderBook} {x : ℤ} {W : View} (h : b.Abs cfg V) (hW : b'.Abs cfg W)
    (hdata : ∀ i, t.idx = some i → W.data i = OrderData.fill x (V.data i)) :
    (taker b' (fillTaker b x t).2).data = OrderData.fill x (taker b t).data := by
  cases t with
  | fresh o => rfl
  | resting i =>
    show (b'.order i).data = OrderData.fill x (b.order i).data
    rw [hW.mem.data, h.mem.data]
    exact hdata i rfl

section Round

variable (h : e.book.Abs cfg V) (htk : TakerOk V side t)
  (hs : (V.bests side.opp).sweepable cfg side.opp (V.queues side.opp) = r :: L)

include h hs

/-- The first sweepable order is the head of the best level. -/
theorem head_maker : ∃ rest, V.queues side.opp (V.bests side.opp).best = r :: rest ∧ (V.data r).side = side.opp ∧
    (V.data r).price = (V.bests side.opp).best := by
  obtain ⟨-, rest, hrest⟩ := Bests.sweepable_cons (h.weak _) hs
  obtain ⟨h1, h2⟩ := h.mem.mem_queue (s := side.opp) (p := (V.bests side.opp).best) (i := r)
    (by rw [hrest]; exact List.mem_cons_self)
  exact ⟨rest, hrest, h1, h2⟩

include htk

/-- No maker is the taker. -/
theorem taker_ne {j : ℕ} (hj : j ∈ r :: L) : t.idx ≠ some j := by
  intro he
  rw [← hs] at hj
  obtain ⟨p, -, hm⟩ := sweepable_resting h.weak hj
  cases t with
  | fresh o => cases he
  | resting i =>
    cases he
    have h1 := (h.mem.mem_queue hm).1
    rw [htk.2] at h1
    exact Side.opp_ne side h1.symm

/-- **One round** trades with the first sweepable order. -/
theorem matchRound_spec (hk : e.book.held side.opp (cfg.partitionId (V.bests side.opp).best) = some k)
    (hq : (taker e.book t).qty = q) (x : ℤ) (hx : x = min q (V.data r).qty) :
    ∃ e1 t1, matchRound cfg side e t k (cfg.offset (V.bests side.opp).best) r = .ok (e1, t1) ∧
      e1.book.Abs cfg ((V.pay x t.idx).hit cfg x r) ∧
      e1.trades = e.trades ++ [⟨e.seqGen, (V.data r).id, (taker e.book t).id, (V.data r).price, x, side⟩] ∧
      e1.seqGen = e.seqGen + 1 ∧ t1.idx = t.idx ∧ (taker e1.book t1).data = OrderData.fill x (taker e.book t).data := by
  obtain ⟨rest, hrest, hside, hprice⟩ := head_maker h hs
  have hne : t.idx ≠ some r := taker_ne h htk hs List.mem_cons_self
  have hxr : x ≤ (V.data r).qty := by omega
  obtain ⟨h1, hidx⟩ := abs_fillTaker h htk (x := x) (by omega)
  have hr1 : r ∈ (V.pay x t.idx).queues side.opp (V.bests side.opp).best := by
    rw [View.queues_pay, hrest]
    exact List.mem_cons_self
  have hd1 : (V.pay x t.idx).data r = V.data r := by rw [View.data_pay, if_neg hne]
  have hk1 : (fillTaker e.book x t).1.held side.opp (cfg.partitionId (V.bests side.opp).best) = some k := by
    rw [← hk]
    cases t <;> cases side <;> rfl
  obtain ⟨b4, hb4, h4⟩ := OrderBook.abs_hit h1 hr1 hk1 (t := x) (by rw [hd1]; exact hxr)
  have hp : (((fillTaker e.book x t).1.modifyOrder r (fill x)).modifyLevel k (cfg.offset (V.bests side.opp).best)
      (fun l => l.subtractQuantity x)).level k (cfg.offset (V.bests side.opp).best) =
      ((fillTaker e.book x t).1.level k (cfg.offset (V.bests side.opp).best)).subtractQuantity x := by
    simp [OrderBook.modifyLevel, OrderBook.level, Partition.modifyLevel]
  have hlp : ((fillTaker e.book x t).1.level k (cfg.offset (V.bests side.opp).best)).price = (V.bests side.opp).best :=
    (h1.mem.shape.levelAt (h1.mem.shape.mem_plan hr1).1 hk1).price
  have hmin : min (taker e.book t).qty (e.book.order r).qty = x := by rw [hq, h.mem.qty_eq, hx]
  unfold matchRound
  dsimp only
  rw [hmin, hb4, hp]
  have htd : (taker b4 (fillTaker e.book x t).2).data = OrderData.fill x (taker e.book t).data := by
    refine taker_fillTaker h h4 (fun i hi => ?_)
    rw [View.data_hit, if_neg (fun e => hne (by rw [hi, e])), View.data_pay, if_pos hi]
  refine ⟨_, _, rfl, h4, ?_, rfl, hidx, htd⟩
  show e.trades ++ [_] = _
  have hmid : (b4.order r).id = (V.data r).id := by
    rw [h4.mem.id_eq, View.data_hit, if_pos rfl, hd1]
    rfl
  have htid : (taker b4 (fillTaker e.book x t).2).id = (taker e.book t).id := congrArg OrderData.id htd
  have hpr : (((fillTaker e.book x t).1.level k (cfg.offset (V.bests side.opp).best)).subtractQuantity x).price =
      (V.data r).price := hlp.trans hprice.symm
  rw [hmid, htid, hpr]

end Round

/-- What is left for the next rounds, when the maker is used up and when it is not. -/
theorem sweepable_hit (h : e.book.Abs cfg V) (htk : TakerOk V side t)
    (hs : (V.bests side.opp).sweepable cfg side.opp (V.queues side.opp) = r :: L) {x : ℤ} {W : View}
    (hW : W = (V.pay x t.idx).hit cfg x r) (hx : x = (V.data r).qty) :
    (W.bests side.opp).sweepable cfg side.opp (W.queues side.opp) = L := by
  obtain ⟨-, -, hside, hprice⟩ := head_maker h hs
  have hne : t.idx ≠ some r := taker_ne h htk hs List.mem_cons_self
  have hd : (V.met x t.idx r).data r = OrderData.fill x (V.data r) := by
    rw [View.data_met, if_pos rfl, View.data_pay, if_neg hne]
  have h0 : ((V.met x t.idx r).data r).qty = 0 := by
    rw [hd]
    unfold OrderData.fill
    dsimp only
    omega
  have hw : (V.met x t.idx r).Weak cfg := by
    intro s
    rw [View.bests_met, View.queues_met]
    exact h.weak s
  rw [hW, View.hit_eq, if_pos h0]
  refine View.sweepable_leave hw (by rw [View.bests_met, View.queues_met]; exact hs) (by rw [hd]; exact hside) ?_
  rw [hd, View.bests_met]
  exact hprice

/-- The taker still rests after a round. -/
theorem takerOk_hit (h : e.book.Abs cfg V) (htk : TakerOk V side t)
    (hs : (V.bests side.opp).sweepable cfg side.opp (V.queues side.opp) = r :: L) {x : ℤ} {t1 : Taker}
    (hidx : t1.idx = t.idx) : TakerOk ((V.pay x t.idx).hit cfg x r) side t1 := by
  have hne : t.idx ≠ some r := taker_ne h htk hs List.mem_cons_self
  obtain ⟨rest, hrest, hside, hprice⟩ := head_maker h hs
  cases t1 with
  | fresh o => trivial
  | resting i =>
    cases t with
    | fresh o => cases hidx
    | resting i' =>
      cases hidx
      have hir : i ≠ r := by
        rintro rfl
        exact hne rfl
      refine ⟨View.resting_hit h.mem.queued (by rw [hrest]; exact List.mem_cons_self) htk.1 hir, ?_⟩
      rw [View.data_hit, if_neg hir, View.data_pay]
      split_ifs
      · exact htk.2
      · exact htk.2

/-- **The matching loop** returns, with the fills of the sweepable orders. -/
theorem matchLoop_spec (h : e.book.Abs cfg V) (htk : TakerOk V side t)
    (hs : (V.bests side.opp).sweepable cfg side.opp (V.queues side.opp) = L) (hq : (taker e.book t).qty = q)
    (hfuel : L.length < fuel) {fs : List (ℕ × ℤ)} (hfs : fs = fills (fun j => (V.data j).qty) L q) :
    ∃ e' t', matchLoop cfg side fuel e t = .ok (e', t') ∧ e'.book.Abs cfg (V.sweep cfg t.idx L q).1 ∧
      e'.trades = e.trades ++ events V.data (taker e.book t).id side e.seqGen fs ∧
      e'.seqGen = e.seqGen + UInt64.ofNat fs.length ∧ t'.idx = t.idx ∧
      (taker e'.book t').data = fs.foldl (fun d f => d.fill f.2) (taker e.book t).data := by
  induction L generalizing e t V q fuel fs with
  | nil =>
    subst hfs
    exact ⟨e, t, matchLoop_nil h (by omega) hs, h, by simp [fills, events], by simp [fills], rfl, rfl⟩
  | cons r L ih =>
    by_cases hpos : 0 < q
    · obtain ⟨n, rfl⟩ : ∃ n, fuel = n + 1 := ⟨fuel - 1, by omega⟩
      obtain ⟨rest, hrest, -, -⟩ := head_maker h hs
      obtain ⟨hhas, -⟩ := Bests.sweepable_cons (h.weak _) hs
      obtain ⟨hno, -⟩ | ⟨-, k, hk, hb, hhead, -⟩ := bestLevel_spec h side.opp
      · rw [hhas] at hno
        cases hno
      rw [hrest, List.head?_cons] at hhead
      obtain ⟨x, hx⟩ : ∃ x, x = min q (V.data r).qty := ⟨_, rfl⟩
      obtain ⟨e1, t1, hround, h1, htr1, hseq1, hidx1, htd1⟩ := matchRound_spec h htk hs hk hq x hx
      have hloop : matchLoop cfg side (n + 1) e t = matchLoop cfg side n e1 t1 := by
        rw [matchLoop, hb]
        simp only [bind, Except.bind]
        rw [hhead]
        dsimp only
        rw [if_pos (by omega), hround]
      have hfs1 : fs = (r, x) :: fills (fun j => (V.data j).qty) L (q - x) := by
        rw [hfs, fills, if_pos hpos, ← hx]
      have hsw : V.sweep cfg t.idx (r :: L) q = ((V.pay x t.idx).hit cfg x r).sweep cfg t.idx L (q - x) := by
        rw [View.sweep, if_pos hpos, ← hx]
      have hq1 : (taker e1.book t1).qty = q - x := by
        rw [show (taker e1.book t1).qty = (taker e1.book t1).data.qty from rfl, htd1, ← hq]
        rfl
      have hid1 : (taker e1.book t1).id = (taker e.book t).id := congrArg OrderData.id htd1
      rw [hloop, hsw, hfs1]
      by_cases hdone : x = (V.data r).qty
      · -- the maker is used up: on with the next one
        have hnd := sweepable_nodup (s := side.opp) h.weak h.mem.queued
        rw [hs, List.nodup_cons] at hnd
        have hdata : ∀ j ∈ L, ((V.pay x t.idx).hit cfg x r).data j = V.data j := by
          intro j hj
          have hjr : j ≠ r := by
            rintro rfl
            exact hnd.1 hj
          rw [View.data_hit, if_neg hjr, View.data_pay, if_neg (taker_ne h htk hs (List.mem_cons_of_mem r hj))]
        obtain ⟨e', t', hl, hA, htr, hseq, hidx, htd⟩ := ih h1 (takerOk_hit h htk hs hidx1)
          (sweepable_hit h htk hs rfl hdone) hq1 (show L.length < n from Nat.lt_of_succ_lt_succ hfuel) rfl
        have hfills : fills (fun j => (((V.pay x t.idx).hit cfg x r).data j).qty) L (q - x) =
            fills (fun j => (V.data j).qty) L (q - x) := fills_congr (fun j hj => by rw [hdata j hj]) _
        rw [hfills] at htr hseq htd
        rw [hidx1] at hA hidx
        refine ⟨e', t', hl, hA, ?_, ?_, hidx, ?_⟩
        · rw [htr, htr1, hid1, hseq1, events_congr (fun f hf => by rw [hdata f.1 (fills_mem hf)]; exact ⟨rfl, rfl⟩),
            List.append_assoc]
          rfl
        · rw [hseq, hseq1, List.length_cons, UInt64.ofNat_add, show UInt64.ofNat 1 = 1 from rfl]
          ac_rfl
        · rw [htd, htd1, List.foldl_cons]
      · -- the taker is filled
        have hzero : q - x = 0 := by omega
        rw [hzero, fills_of_nonpos (le_refl 0), View.sweep_of_nonpos (le_refl 0)]
        refine ⟨e1, t1, matchLoop_done h1 (by simp only [List.length_cons] at hfuel; omega) (by omega), h1, htr1, ?_, hidx1,
          htd1⟩
        rw [hseq1]
        rfl
    · rw [hfs, fills_of_nonpos (by omega), View.sweep_of_nonpos (by omega)]
      exact ⟨e, t, matchLoop_done h (by omega) (by omega), h, by simp [events], by simp, rfl, rfl⟩

end Engine

/-! ## Matching an order -/

namespace View

variable (cfg : Config)

/-- The best price of the other side does not cross a limit order. -/
def Blocked (V : View) (side : Side) (d : OrderData) : Prop :=
  d.type = .limit ∧ (V.bests side.opp).has = true ∧ side.crosses d.price (V.bests side.opp).best = false

instance (V : View) (side : Side) (d : OrderData) : Decidable (V.Blocked side d) := inferInstanceAs (Decidable (_ ∧ _))

/-- The orders a taker can take from. -/
def makers (V : View) (side : Side) (d : OrderData) : List ℕ :=
  if V.Blocked side d then [] else (V.bests side.opp).sweepable cfg side.opp (V.queues side.opp)

end View

namespace Engine

variable {cfg : Config} {e e' : Engine} {V : View} {side : Side} {t : Taker} {q : ℤ}

/-- **`match_order_`** returns, with the fills of the makers. -/
theorem matchOrder_spec (h : e.book.Abs cfg V) (htk : TakerOk V side t) {L : List ℕ} {fs : List (ℕ × ℤ)}
    (hL : L = V.makers cfg side (taker e.book t).data)
    (hfs : fs = fills (fun j => (V.data j).qty) L (taker e.book t).qty) :
    ∃ e' t', matchOrder cfg side e t = .ok (if V.Blocked side (taker e.book t).data then .noMatch
        else fillStatus (taker e'.book t'), e', t') ∧
      e'.book.Abs cfg (V.sweep cfg t.idx L (taker e.book t).qty).1 ∧
      e'.trades = e.trades ++ events V.data (taker e.book t).id side e.seqGen fs ∧
      e'.seqGen = e.seqGen + UInt64.ofNat fs.length ∧ t'.idx = t.idx ∧
      (taker e'.book t').data = fs.foldl (fun d f => d.fill f.2) (taker e.book t).data := by
  have hlimit : (taker e.book t).data.type = (taker e.book t).type := rfl
  have hprice : (taker e.book t).data.price = (taker e.book t).price := rfl
  unfold View.makers at hL
  by_cases hbl : V.Blocked side (taker e.book t).data
  · rw [if_pos hbl] at hL
    subst hL hfs
    refine ⟨e, t, ?_, h, by simp [fills, events], by simp [fills], rfl, rfl⟩
    rw [if_pos hbl]
    obtain ⟨h1, h2, h3⟩ := hbl
    unfold matchOrder
    obtain ⟨hno, -⟩ | ⟨-, k, -, hb, -, hp⟩ := bestLevel_spec h side.opp
    · rw [h2] at hno
      cases hno
    · rw [hb]
      simp only [bind, Except.bind]
      have hblk : blocked side e.book (taker e.book t) (some (k, cfg.offset (V.bests side.opp).best)) = true := by
        unfold blocked
        dsimp only
        rw [hp, ← hprice, h3, ← hlimit, h1]
        rfl
      rw [if_pos hblk]
      rfl
  · rw [if_neg hbl] at hL
    have hfuel : L.length < cfg.maxOrders + 2 := by
      have hlen := sweepable_length (s := side.opp) h
      rw [hL]
      omega
    obtain ⟨e', t', hl, hrest⟩ := matchLoop_spec h htk hL.symm rfl hfuel hfs
    refine ⟨e', t', ?_, hrest⟩
    rw [if_neg hbl]
    unfold matchOrder
    obtain ⟨hno, hb⟩ | ⟨hhas, k, -, hb, -, hp⟩ := bestLevel_spec h side.opp
    · rw [hb, hl]
      rfl
    · have hblk : blocked side e.book (taker e.book t) (some (k, cfg.offset (V.bests side.opp).best)) = false := by
        unfold blocked
        dsimp only
        rw [hp, ← hprice, ← hlimit]
        by_contra hc
        rw [Bool.not_eq_false, Bool.and_eq_true, decide_eq_true_eq, Bool.not_eq_true'] at hc
        exact hbl ⟨hc.1, hhas, hc.2⟩
      rw [hb]
      simp only [bind, Except.bind]
      rw [if_neg (by rw [hblk]; decide)]
      rw [hl]
      rfl

end Engine

end Wirekrak.Flashstrike

import Wirekrak.Flashstrike.System

/-!
# Wirekrak.Flashstrike.LimitPrice — the prices a limit order trades at

`match_order_` compares a limit order with the best price once, before its loop; the loop goes on to the levels behind.

* `takes_cross_iff`: all the makers of an order cross it if, and only if, none of those it reaches fails to, or the
  crossing ones have its quantity.
* `limit_respected_iff`: the same for the trade events of `process_order`, in every reachable state.
-/

namespace Wirekrak.Flashstrike

open Wirekrak.Lib

/-! ## Orders by price -/

section Sorted

variable {cfg : Config} {V : View} {s side : Side} {price : ℤ}

/-- The resting orders of a side are in the order of their prices. -/
theorem orders_sorted (h : V.Queued) (s : Side) :
    (V.orders cfg s).Pairwise (fun i j => s.key (V.data i).price ≤ s.key (V.data j).price) := by
  unfold View.orders ladder
  rw [List.pairwise_flatMap]
  refine ⟨fun p _ => ?_, (planPrices_sorted cfg s).imp (fun {a c} hac i hi j hj => ?_)⟩
  · refine List.pairwise_of_forall_mem_list (fun i hi j hj => ?_)
    rw [(h.member s p i hi).2, (h.member s p j hj).2]
  · rw [(h.member s a i hi).2, (h.member s c j hj).2]
    exact hac.le

theorem reach_sorted (hw : V.Weak cfg) (h : V.Queued) (s : Side) :
    (V.reach cfg s).Pairwise (fun i j => s.key (V.data i).price ≤ s.key (V.data j).price) :=
  (orders_sorted h s).sublist (Bests.sweepable_isPrefix (hw s)).sublist

/-- The orders in reach that cross a price are the first ones. -/
theorem reach_split (hw : V.Weak cfg) (h : V.Queued) (side : Side) (price : ℤ) : ∃ N,
    V.reach cfg side.opp =
      (V.reach cfg side.opp).filter (fun i => side.crosses price (V.data i).price) ++ N ∧
    ∀ i ∈ N, side.crosses price (V.data i).price = false := by
  have hpre := Bests.filter_isPrefix (f := fun i => side.crosses price (V.data i).price)
    ((reach_sorted hw h side.opp).imp (fun {i j} hij hj => by
      rw [Side.crosses_iff] at hj ⊢
      exact hij.trans hj))
  obtain ⟨N, hN⟩ := hpre
  refine ⟨N, hN.symm, fun i hi => ?_⟩
  have hf := congrArg (List.filter (fun i => side.crosses price (V.data i).price)) hN
  rw [List.filter_append, List.filter_filter] at hf
  simp only [Bool.and_self, List.append_right_eq_self, List.filter_eq_nil_iff, Bool.not_eq_true] at hf
  exact hf i hi

end Sorted

/-! ## The makers of a limit order -/

section Takes

variable {cfg : Config} {V : View} {d : OrderData}

/-- **The makers of an order cross it** exactly if the crossing orders in reach have its quantity, or there are no
others in reach (or nothing is taken, because the best price does not cross). -/
theorem takes_cross_iff {b : OrderBook} (h : b.Abs cfg V) (hq : 0 < d.qty) :
    (∀ f ∈ V.takes cfg d, d.side.crosses d.price (V.data f.1).price = true) ↔
      V.Blocked d.side d ∨
      d.qty ≤ V.quantity ((V.reach cfg d.side.opp).filter (fun i => d.side.crosses d.price (V.data i).price)) ∨
      ∀ i ∈ V.reach cfg d.side.opp, d.side.crosses d.price (V.data i).price = true := by
  by_cases hbl : V.Blocked d.side d
  · have hnil : V.takes cfg d = [] := by
      unfold View.takes View.makers
      rw [if_pos hbl]
      rfl
    rw [hnil]
    exact ⟨fun _ => Or.inl hbl, fun _ f hf => absurd hf List.not_mem_nil⟩
  obtain ⟨N, hN, hno⟩ := reach_split h.weak h.mem.queued d.side d.price
  obtain ⟨C, hC⟩ : ∃ C, C = (V.reach cfg d.side.opp).filter (fun i => d.side.crosses d.price (V.data i).price) :=
    ⟨_, rfl⟩
  have hmem : ∀ i ∈ C, d.side.crosses d.price (V.data i).price = true := by
    intro i hi
    rw [hC] at hi
    exact (List.mem_filter.mp hi).2
  have hnn : ∀ i ∈ C, 0 ≤ (V.data i).qty := by
    intro i hi
    rw [hC] at hi
    exact (h.orders i (h.mem_reach (List.mem_of_mem_filter hi)).1).2
  rw [← hC] at hN ⊢
  have htakes : V.takes cfg d = fills (fun j => (V.data j).qty) (C ++ N) d.qty := by
    unfold View.takes View.makers
    rw [if_neg hbl, ← hN]
    rfl
  have hsum : traded (fills (fun j => (V.data j).qty) C d.qty) = min d.qty (V.quantity C) := traded_eq hnn hq.le
  -- the crossing orders come first; what is left of the order goes to the others
  rw [htakes, fills_append, hsum]
  constructor
  · intro hall
    right
    cases hf : fills (fun j => (V.data j).qty) N (d.qty - min d.qty (V.quantity C)) with
    | nil =>
      rcases fills_eq_nil.mp hf with rfl | hle
      · right
        intro i hi
        rw [hN, List.append_nil] at hi
        exact hmem i hi
      · left
        omega
    | cons f fs =>
      have hfm : f ∈ fills (fun j => (V.data j).qty) N (d.qty - min d.qty (V.quantity C)) := by
        rw [hf]
        exact List.mem_cons_self
      have h1 := hall f (List.mem_append_right _ hfm)
      rw [hno f.1 (fills_mem hfm)] at h1
      cases h1
  · rintro (hc | hle | hall) f hf
    · exact absurd hc hbl
    · rw [fills_of_nonpos (q := d.qty - min d.qty (V.quantity C)) (by omega), List.append_nil] at hf
      exact hmem f.1 (fills_mem hf)
    · refine hall f.1 ?_
      rw [hN]
      rcases List.mem_append.mp hf with hf | hf
      · exact List.mem_append_left _ (fills_mem hf)
      · exact List.mem_append_right _ (fills_mem hf)

end Takes

namespace Engine

variable {cfg : Config} {e e' : Engine} {reqs : List Request} {id : OrderId} {type : OrderType} {side : Side}
  {price qty : ℤ}

/-- The trade events of a new order. -/
theorem newOrder_trades {V : View} (h : e.book.Abs cfg V) (hadm : e.Admissible cfg (.newOrder id type side price qty))
    (hstep : Steps cfg e (.newOrder id type side price qty) e') :
    (validateOrder cfg (incoming id type side price qty) = false ∧ e'.trades = e.trades) ∨
    (validateOrder cfg (incoming id type side price qty) = true ∧ e'.trades = e.trades ++
      events V.data id side e.seqGen (V.takes cfg (requested id type side price qty))) := by
  obtain ⟨evs, V', hS, -, htr, -⟩ := step_refines h hadm hstep
  generalize e.arrival cfg (.newOrder id type side price qty) = idx at hS
  cases hS with
  | idle href => exact Or.inl ⟨href, by rw [htr, List.append_nil]⟩
  | done hd hval _ => rw [← hd]; exact Or.inr ⟨hval, htr⟩
  | rest hd hval _ _ _ _ => rw [← hd]; exact Or.inr ⟨hval, htr⟩
  | lost hd hval _ _ => rw [← hd]; exact Or.inr ⟨hval, htr⟩

/-- **The limit price is respected** by the trades of a limit order if, and only if, the order is rejected, or does not
cross the best price, or the crossing orders in reach have its quantity, or no other orders are in reach. -/
theorem limit_respected_iff (hrun : Run (Steps cfg) (Admissible cfg) (.new cfg) reqs e)
    (hadm : e.Admissible cfg (.newOrder id .limit side price qty))
    (hstep : Steps cfg e (.newOrder id .limit side price qty) e') {V : View} (hV : V = e.book.view cfg) :
    (∀ t ∈ e'.trades.drop e.trades.length, side.crosses price t.price = true) ↔
      validateOrder cfg (incoming id .limit side price qty) = false ∨
      ((V.bests side.opp).has = true ∧ side.crosses price (V.bests side.opp).best = false) ∨
      qty ≤ V.quantity ((V.reach cfg side.opp).filter (fun i => side.crosses price (V.data i).price)) ∨
      ∀ i ∈ V.reach cfg side.opp, side.crosses price (V.data i).price = true := by
  have hA := reachable_abs (fun _ _ h => h) hrun
  rw [← hV] at hA
  obtain ⟨hval, htr⟩ | ⟨hval, htr⟩ := newOrder_trades hA hadm hstep
  · rw [htr, List.drop_length]
    exact ⟨fun _ => Or.inl hval, fun _ t ht => absurd ht List.not_mem_nil⟩
  rw [htr, List.drop_left]
  have hevents := map_events (fun _ p _ => p) V.data id side e.seqGen (V.takes cfg (requested id .limit side price qty))
  have hprices : (∀ t ∈ events V.data id side e.seqGen (V.takes cfg (requested id .limit side price qty)),
        side.crosses price t.price = true) ↔
      ∀ f ∈ V.takes cfg (requested id .limit side price qty), side.crosses price (V.data f.1).price = true := by
    rw [← List.forall_mem_map (f := fun t : TradeEvent => t.price) (P := fun p => side.crosses price p = true), hevents,
      List.forall_mem_map]
  have hiff := takes_cross_iff (d := requested id .limit side price qty) hA (qty_of_valid hval).1
  have hbl : V.Blocked side (requested id .limit side price qty) ↔
      (V.bests side.opp).has = true ∧ side.crosses price (V.bests side.opp).best = false :=
    ⟨fun hb => hb.2, fun hb => ⟨rfl, hb⟩⟩
  rw [hprices, ← hbl]
  refine hiff.trans ⟨Or.inr, fun hc => hc.resolve_left ?_⟩
  rw [hval]
  decide

/-- Two asks in one partition. -/
def asks : List Request := [.newOrder 1 .limit .ask 1 5, .newOrder 2 .limit .ask 3 5]

theorem limit_respected_small :
    Admissible small (afterAll asks) (.newOrder 3 .limit .bid 2 4) ∧
    ∀ t ∈ ((afterAll asks).after small (.newOrder 3 .limit .bid 2 4)).trades.drop (afterAll asks).trades.length,
      Side.crosses .bid 2 t.price = true :=
  have hadm : Admissible small (afterAll asks) (.newOrder 3 .limit .bid 2 4) := by decide +kernel
  ⟨hadm, (limit_respected_iff (run_after (by decide +kernel)) hadm (steps_after (by decide +kernel)) rfl).mpr
    (by decide +kernel)⟩

/-- A bid at 2 for more than the ask at 1 has goes on to the ask at 3. -/
theorem limit_price_exceeded :
    Run (Steps small) (Admissible small) (.new small) asks (afterAll asks) ∧
    Admissible small (afterAll asks) (.newOrder 3 .limit .bid 2 7) ∧
    Steps small (afterAll asks) (.newOrder 3 .limit .bid 2 7)
      ((afterAll asks).after small (.newOrder 3 .limit .bid 2 7)) ∧
    ∃ t ∈ ((afterAll asks).after small (.newOrder 3 .limit .bid 2 7)).trades.drop (afterAll asks).trades.length,
      Side.crosses .bid 2 t.price = false :=
  ⟨run_after (by decide +kernel), by decide +kernel, steps_after (by decide +kernel), by decide +kernel⟩

end Engine

end Wirekrak.Flashstrike

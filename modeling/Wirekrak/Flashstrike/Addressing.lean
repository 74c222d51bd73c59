import Wirekrak.Flashstrike.Effects

/-!
# Wirekrak.Flashstrike.Addressing — orders are reached by their ids

The id map has two reserved keys, and `insert` does not look for a key it already holds: an order under a reserved id,
or under the id of a resting order, may rest and not be found.

* `Addressable`: the id of a resting order finds it, the requests that name the id act on it and on no other order, and
  it rests until it is cancelled or filled.
* `resting_addressable`: with admissible ids, every resting order of every reachable state is addressable.
-/

namespace Wirekrak.Flashstrike

open Wirekrak.Lib

namespace OrderBook

variable (cfg : Config)

/-- All orders but the one at `i` are as before. -/
def OnlyTouches (b b' : OrderBook) (i : ℕ) : Prop :=
  ∀ j, j ≠ i → (b'.order j).data = (b.order j).data ∧ ∀ s, b'.Rests cfg s j ↔ b.Rests cfg s j

variable {cfg} {b b' : OrderBook} {V V' : View} {i : ℕ}

theorem onlyTouches_of_abs (h : b.Abs cfg V) (h' : b'.Abs cfg V') (hdata : ∀ j, j ≠ i → V'.data j = V.data j)
    (hrest : ∀ j, j ≠ i → (V'.queues.Resting j ↔ V.queues.Resting j)) : b.OnlyTouches cfg b' i := by
  intro j hj
  refine ⟨by rw [h'.mem.data, h.mem.data, hdata j hj], fun s => ?_⟩
  rw [h'.rests_iff, h.rests_iff, hdata j hj, hrest j hj]

end OrderBook

namespace Engine

variable (cfg : Config)

/-- The order at `i`, which rests on the side `s`, is reached by its id. -/
structure Addressable (e : Engine) (s : Side) (i : ℕ) (id : OrderId) : Prop where
  find : e.book.idMap.find id = some i
  cancel : ∃ e', cancelOrder cfg e id = .ok (.success, e') ∧ e.book.OnlyTouches cfg e'.book i ∧
    ∀ s', ¬ e'.book.Rests cfg s' i
  resize : ∀ newQty, 0 < newQty → ∃ st e', modifyOrderQuantity cfg e id newQty = .ok (st, e') ∧
    e.book.OnlyTouches cfg e'.book i ∧ e'.book.Rests cfg s i ∧ (e'.book.order i).qty = newQty
  reprice : ∀ newPrice st idx b', newPrice ≠ 0 → cfg.Fits newPrice →
    e.book.repriceOrder cfg id newPrice = .ok (st, idx, b') →
    idx = some i ∧ e.book.OnlyTouches cfg b' i ∧ b'.Rests cfg s i ∧ (b'.order i).price = newPrice
  stays : ∀ req e', e.Admissible cfg req → Steps cfg e req e' →
    (e'.book.Rests cfg s i ∧ (e'.book.order i).id = id) ∨ req = .cancel id ∨
    (∃ t ∈ e'.trades.drop e.trades.length, t.makerOrderId = id ∧ t.qty = (e.book.order i).qty) ∨
    ∃ newPrice, req = .modifyPrice id newPrice ∧
      ((e'.trades.drop e.trades.length).map (fun t => t.qty)).sum = (e.book.order i).qty

variable {cfg} {e : Engine} {V : View} {s : Side} {i : ℕ} {id : OrderId} {reqs : List Request}

section Parts

variable (h : e.book.Abs cfg V) (hi : V.queues.Resting i)

include h hi

theorem cancel_resting : ∃ e', cancelOrder cfg e (V.data i).id = .ok (.success, e') ∧
    e.book.OnlyTouches cfg e'.book i ∧ ∀ s', ¬ e'.book.Rests cfg s' i := by
  obtain ⟨st, e', hok, -, -, ⟨-, -, hno⟩ | ⟨rfl, j, hj, hid, hA⟩⟩ := cancelOrder_spec h (V.data i).id
  · exact absurd rfl (hno i hi)
  obtain rfl := h.id_inj hj hi hid
  have hrest : ∀ k, (V.leave cfg j).queues.Resting k ↔ V.queues.Resting k ∧ k ≠ j :=
    fun k => View.resting_leave h.mem.queued (h.mem_queues hj)
  refine ⟨e', hok, OrderBook.onlyTouches_of_abs h hA (fun _ _ => rfl) (fun k hk => ?_), fun s' hc => ?_⟩
  · rw [hrest]
    exact ⟨And.left, fun hr => ⟨hr, hk⟩⟩
  · rw [hA.rests_iff, hrest] at hc
    exact hc.1.2 rfl

theorem resize_resting {newQty : ℤ} (hq : 0 < newQty) : ∃ st e',
    modifyOrderQuantity cfg e (V.data i).id newQty = .ok (st, e') ∧ e.book.OnlyTouches cfg e'.book i ∧
      e'.book.Rests cfg (V.data i).side i ∧ (e'.book.order i).qty = newQty := by
  obtain ⟨st, e', hok, -, -, hsp⟩ := modifyOrderQuantity_spec h (V.data i).id hq.le
  refine ⟨st, e', hok, ?_⟩
  obtain ⟨-, rfl, hun⟩ | ⟨-, j, hj, hid, -, -, hA⟩ := hsp
  · refine ⟨OrderBook.onlyTouches_of_abs h h (fun _ _ => rfl) (fun _ _ => Iff.rfl), h.rests_iff.mpr ⟨hi, rfl⟩, ?_⟩
    rw [h.mem.qty_eq]
    exact hun.resolve_left (by omega) i hi rfl
  obtain rfl := h.id_inj hj hi hid
  refine ⟨OrderBook.onlyTouches_of_abs h hA (fun k hk => ?_) (fun _ _ => Iff.rfl), hA.rests_iff.mpr ?_, ?_⟩
  · rw [View.data_setData, if_neg hk]
  · rw [View.data_setData_self]
    exact ⟨hi, rfl⟩
  · rw [hA.mem.qty_eq, View.data_setData_self]

theorem reprice_resting {newPrice : ℤ} {st : OperationStatus} {idx : OrderIdx} {b' : OrderBook} (h0 : newPrice ≠ 0)
    (hfits : cfg.Fits newPrice) (hok : e.book.repriceOrder cfg (V.data i).id newPrice = .ok (st, idx, b')) :
    idx = some i ∧ e.book.OnlyTouches cfg b' i ∧ b'.Rests cfg (V.data i).side i ∧ (b'.order i).price = newPrice := by
  obtain ⟨-, rfl, hun⟩ | ⟨-, j, rfl, hj, hid, -, -, hA⟩ := OrderBook.repriceOrder_spec h hfits hok
  · obtain ⟨hp, hidx⟩ := hun.resolve_left h0 i hi rfl
    refine ⟨hidx, OrderBook.onlyTouches_of_abs h h (fun _ _ => rfl) (fun _ _ => Iff.rfl), h.rests_iff.mpr ⟨hi, rfl⟩, ?_⟩
    rw [h.mem.price_eq]
    exact hp
  obtain rfl := h.id_inj hj hi hid
  have hdata := View.data_reprice cfg V j newPrice
  have hrest : ∀ k, (V.reprice cfg j newPrice).queues.Resting k ↔ V.queues.Resting k := by
    intro k
    rw [View.queues_reprice]
    exact View.resting_move h.mem.queued (h.mem_queues hj)
  refine ⟨rfl, OrderBook.onlyTouches_of_abs h hA (fun k hk => ?_) (fun k _ => hrest k), hA.rests_iff.mpr ?_, ?_⟩
  · rw [hdata, if_neg hk]
  · rw [hrest, hdata, if_pos rfl]
    exact ⟨hi, rfl⟩
  · rw [hA.mem.price_eq, hdata, if_pos rfl]

theorem stays_resting {req : Request} {e' : Engine} (hadm : e.Admissible cfg req) (hstep : Steps cfg e req e') :
    (e'.book.Rests cfg (V.data i).side i ∧ (e'.book.order i).id = (V.data i).id) ∨ req = .cancel (V.data i).id ∨
    (∃ t ∈ e'.trades.drop e.trades.length, t.makerOrderId = (V.data i).id ∧ t.qty = (V.data i).qty) ∨
    ∃ newPrice, req = .modifyPrice (V.data i).id newPrice ∧
      ((e'.trades.drop e.trades.length).map (fun t => t.qty)).sum = (V.data i).qty := by
  obtain ⟨evs, V', hS, hA, htr, -⟩ := step_refines h hadm hstep
  rw [htr, List.drop_left]
  obtain ⟨h1, h2, h3⟩ | hend := hS.stays h hi
  · refine Or.inl ⟨hA.rests_iff.mpr ⟨h1, h3⟩, ?_⟩
    rw [hA.mem.id_eq]
    exact h2
  · exact Or.inr hend

end Parts

/-- **Every resting order stays addressable**, if no accepted limit order has a reserved id or that of a resting
order. -/
theorem resting_addressable (hrun : Run (Steps cfg) (Admissible cfg) (.new cfg) reqs e) (hi : e.book.Rests cfg s i) :
    e.Addressable cfg s i (e.book.order i).id := by
  have h := reachable_abs (fun _ _ hreq => hreq) hrun
  obtain ⟨hr, rfl⟩ := h.rests_iff.mp hi
  rw [h.mem.id_eq]
  refine ⟨h.find_resting hr, cancel_resting h hr, fun newQty hq => resize_resting h hr hq,
    fun newPrice st idx b' h0 hfits hok => reprice_resting h hr h0 hfits hok, fun req e' hadm hstep => ?_⟩
  rw [h.mem.qty_eq]
  exact stays_resting h hr hadm hstep

/-- Three orders rest after a cancel, and are addressable. -/
def quotes : List Request :=
  [.newOrder 7 .limit .bid 2 5, .newOrder 8 .limit .bid 2 5, .cancel 7, .newOrder 9 .limit .ask 6 4,
   .newOrder 7 .limit .bid 3 1]

theorem resting_addressable_quotes :
    Addressable small (afterAll quotes) .bid 2 ((afterAll quotes).book.order 2).id :=
  resting_addressable (run_after (by decide +kernel)) (by decide +kernel)

/-- An order under the id 0 rests and is not found. -/
theorem reserved_id_not_found :
    Run (Steps small) (fun _ _ => True) (.new small) [.newOrder 0 .limit .bid 2 5]
      (afterAll [.newOrder 0 .limit .bid 2 5]) ∧
    (afterAll [.newOrder 0 .limit .bid 2 5]).book.Rests small .bid 0 ∧
    ((afterAll [.newOrder 0 .limit .bid 2 5]).book.order 0).id = 0 ∧
    (afterAll [.newOrder 0 .limit .bid 2 5]).book.idMap.find 0 = none :=
  ⟨run_after (by decide +kernel), by decide +kernel, by decide +kernel, by decide +kernel⟩

end Engine

end Wirekrak.Flashstrike

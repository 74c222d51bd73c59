import Wirekrak.Flashstrike.Requests
import Wirekrak.Lib.Run

/-!
# Wirekrak.Flashstrike.System — runs of the engine

* `OrderBook.view`: the view a book stands for, read off its memory; `Abs.view_eq`.
* `View.Step`: what a request does to the view, and `step_refines`: a step of the engine is one of the view.
* `reachable_abs`: in every state of a run with admissible requests the book stands for its view.

Admissible requests: an accepted limit order has an id that is neither reserved nor that of a resting order, and prices
are below `2 ^ 32` partitions, so that `partition_id_` does not drop bits.
-/

namespace Wirekrak.Flashstrike

open Wirekrak.Lib

/-! ## The view of a book -/

namespace View

variable (cfg : Config)

/-- The resting orders of a side, best price first. -/
def orders (V : View) (s : Side) : List ℕ := ladder cfg s (V.queues s)

/-- The orders of a side that the matching loop reaches: the levels of the partition of the best price. -/
def reach (V : View) (s : Side) : List ℕ := (V.bests s).sweepable cfg s (V.queues s)

/-- The quantity of the orders of a list. -/
def quantity (V : View) (L : List ℕ) : ℤ := (L.map (fun i => (V.data i).qty)).sum

end View

namespace OrderBook

variable (cfg : Config)

/-- The orders linked at a price. -/
def queueAt (b : OrderBook) (s : Side) (p : ℤ) : List ℕ :=
  if cfg.InPlan p then
    match b.held s (cfg.partitionId p) with
    | some k => walk b.nexts cfg.maxOrders (b.level k (cfg.offset p)).headIdx
    | none => []
  else []

/-- The indices in the pool's free list. -/
def freeIndices (b : OrderBook) : List ℕ := walk (fun j => (b.order j).nextFree) cfg.maxOrders b.orderPool.freeHead

/-- What the book stands for. -/
def view (b : OrderBook) : View where
  queues := b.queueAt cfg
  data := fun i => (b.order i).data
  bests := b.bests
  free := b.freeIndices cfg
  slack := fun s p => b.totalAt cfg s p - ((b.queueAt cfg s p).map (fun i => (b.order i).qty)).sum

/-- The order at `i` rests in the book, on a side. -/
def Rests (b : OrderBook) (s : Side) (i : ℕ) : Prop := i ∈ (b.view cfg).orders cfg s

instance (b : OrderBook) (s : Side) (i : ℕ) : Decidable (b.Rests cfg s i) := inferInstanceAs (Decidable (_ ∈ _))

/-- The resting orders of both sides. -/
def live (b : OrderBook) : List ℕ := (b.view cfg).orders cfg .bid ++ (b.view cfg).orders cfg .ask

/-- The ids of the resting orders. -/
def liveIds (b : OrderBook) : List OrderId := (b.live cfg).map (fun i => (b.order i).id)

variable {cfg} {b b' : OrderBook} {V : View} {s : Side} {p : ℤ} {i : ℕ} {id : OrderId}

/-- A book that stands for a view shows it. -/
theorem Mem.queueAt_eq (h : b.Mem cfg V) (hpool : ∀ i, V.queues.Resting i → i < cfg.maxOrders) (s : Side) (p : ℤ) :
    b.queueAt cfg s p = V.queues s p := by
  unfold queueAt
  by_cases hp : cfg.InPlan p
  · rw [if_pos hp]
    cases hk : b.held s (cfg.partitionId p) with
    | none =>
      by_contra hne
      obtain ⟨-, k, hk'⟩ := h.shape.home s p (fun hc => hne hc.symm)
      rw [hk] at hk'
      cases hk'
    | some k =>
      refine (h.shape.levelAt hp hk).dll.walk_eq ?_
      have hsub : V.queues s p ⊆ List.range cfg.maxOrders := fun i hi => List.mem_range.mpr (hpool i ⟨s, p, hi⟩)
      have hle := (List.subperm_of_subset (h.queued.nodup s p) hsub).length_le
      rwa [List.length_range] at hle
  · rw [if_neg hp]
    by_contra hne
    exact hp (h.shape.home s p (fun hc => hne hc.symm)).1

namespace Abs

/-- Lists of pool indices without repetition are not longer than the pool. -/
theorem length_le (h : b.Abs cfg V) {L : List ℕ} (hnd : L.Nodup) (hL : ∀ i ∈ L, i ∈ V.free ∨ V.queues.Resting i) :
    L.length ≤ cfg.maxOrders := by
  have hsub : L ⊆ List.range cfg.maxOrders := fun i hi => List.mem_range.mpr ((h.index i).mpr (hL i hi))
  have hle := (List.subperm_of_subset hnd hsub).length_le
  rwa [List.length_range] at hle

theorem queueAt_eq (h : b.Abs cfg V) (s : Side) (p : ℤ) : b.queueAt cfg s p = V.queues s p :=
  h.mem.queueAt_eq (fun i hi => (h.index i).mpr (Or.inr hi)) s p

theorem freeIndices_eq (h : b.Abs cfg V) : b.freeIndices cfg = V.free :=
  h.chain.walk_eq (h.length_le h.freeNodup (fun _ hi => Or.inl hi))

/-- **The view of the book** is the one it stands for; the slack is made up for. -/
theorem view_eq (h : b.Abs cfg V) :
    b.view cfg = { V with slack := fun s p => b.totalAt cfg s p - V.resting s p } := by
  have hq : b.queueAt cfg = V.queues := by
    funext s p
    exact h.queueAt_eq s p
  have hd : (fun i => (b.order i).data) = V.data := funext h.mem.data
  unfold view View.resting
  rw [hq, hd, funext h.mem.bests, h.freeIndices_eq]
  congr 1
  funext s p
  congr 3
  funext i
  exact h.mem.qty_eq i

theorem view (h : b.Abs cfg V) : b.Abs cfg (b.view cfg) := by
  have hmem : b.Mem cfg (b.view cfg) := by
    rw [h.view_eq]
    refine ⟨h.mem.shape, h.mem.data, h.mem.bests, fun s p hp => ?_⟩
    show b.totalAt cfg s p = wrap64 (V.resting s p + (b.totalAt cfg s p - V.resting s p))
    rw [h.mem.totals s p hp, show V.resting s p + (wrap64 (V.resting s p + V.slack s p) - V.resting s p) =
      wrap64 (V.resting s p + V.slack s p) by omega]
    unfold wrap64
    rw [Int.bmod_bmod]
  refine h.step hmem (SamePool.refl b) ?_ ?_ (fun j => ?_) (fun j => ?_) (fun j hj => ?_)
  all_goals rw [h.view_eq] at *
  · exact h.weak
  · exact h.orders j hj

theorem mem_orders (h : b.Abs cfg V) : i ∈ V.orders cfg s ↔ V.queues.Resting i ∧ (V.data i).side = s := by
  unfold View.orders
  rw [mem_ladder]
  constructor
  · rintro ⟨p, -, hi⟩
    exact ⟨⟨s, p, hi⟩, (h.mem.mem_queue hi).1⟩
  · rintro ⟨hi, rfl⟩
    have hm := h.mem_queues hi
    exact ⟨_, (h.mem.shape.mem_plan hm).1, hm⟩

theorem mem_reach (h : b.Abs cfg V) (hi : i ∈ V.reach cfg s) : V.queues.Resting i ∧ (V.data i).side = s := by
  obtain ⟨p, -, hm⟩ := sweepable_resting h.weak hi
  exact ⟨⟨s, p, hm⟩, (h.mem.mem_queue hm).1⟩

theorem orders_view (h : b.Abs cfg V) (s : Side) : (b.view cfg).orders cfg s = V.orders cfg s := by
  rw [h.view_eq]
  rfl

theorem rests_iff (h : b.Abs cfg V) : b.Rests cfg s i ↔ V.queues.Resting i ∧ (V.data i).side = s := by
  unfold Rests
  rw [h.orders_view, h.mem_orders]

theorem mem_live (h : b.Abs cfg V) : i ∈ b.live cfg ↔ V.queues.Resting i := by
  unfold live
  rw [h.orders_view, h.orders_view, List.mem_append, h.mem_orders, h.mem_orders]
  refine ⟨fun hi => hi.elim And.left And.left, fun hi => ?_⟩
  cases hs : (V.data i).side with
  | bid => exact Or.inl ⟨hi, rfl⟩
  | ask => exact Or.inr ⟨hi, rfl⟩

theorem mem_liveIds (h : b.Abs cfg V) : id ∈ b.liveIds cfg ↔ ∃ i, V.queues.Resting i ∧ (V.data i).id = id := by
  unfold liveIds
  rw [List.mem_map]
  constructor
  · rintro ⟨i, hi, rfl⟩
    exact ⟨i, h.mem_live.mp hi, (h.mem.id_eq i).symm⟩
  · rintro ⟨i, hi, rfl⟩
    exact ⟨i, h.mem_live.mpr hi, h.mem.id_eq i⟩

theorem find_none (h : b.Abs cfg V) (hid : id ∉ b.liveIds cfg) : b.idMap.find id = none := by
  cases hf : b.idMap.find id with
  | none => rfl
  | some i => exact absurd (h.mem_liveIds.mpr ⟨i, h.find_iff.mp hf⟩) hid

end Abs

/-! ## The empty book -/

/-- The view of an empty book. -/
def emptyView (cfg : Config) : View where
  queues := fun _ _ => []
  data := fun _ => OrderPool.blank.data
  bests := fun _ => ⟨false, invalidPrice, fun _ => none⟩
  free := List.range cfg.maxOrders
  slack := fun _ _ => 0

theorem not_resting_empty (i : ℕ) : ¬ (emptyView cfg).queues.Resting i := by
  rintro ⟨s, p, hm⟩
  exact absurd hm List.not_mem_nil

theorem abs_new (cfg : Config) : (OrderBook.new cfg).Abs cfg (emptyView cfg) := by
  have hheld : ∀ s pid, (OrderBook.new cfg).held s pid = none := by
    intro s pid
    cases s <;> rfl
  have hnone : ∀ {s pid k} {P : Prop}, (OrderBook.new cfg).held s pid = some k → P := by
    intro s pid k P hk
    rw [hheld] at hk
    cases hk
  have hparts : (OrderBook.new cfg).PartsOk cfg := by
    refine ⟨fun _ _ _ hk => hnone hk, fun _ _ _ _ _ hk => hnone hk, fun _ _ _ hk => hnone hk, ?_, fun s pid => ?_⟩
    · exact List.nodup_reverse.mpr List.nodup_range
    · rw [hheld]
      cases s <;> exact Bitmap.test_empty pid
  have hshape : (OrderBook.new cfg).Shape cfg (emptyView cfg).queues :=
    ⟨hparts, fun _ _ _ _ hk => hnone hk, fun _ _ _ _ hk => hnone hk, fun _ _ hne => absurd rfl hne,
      fun _ _ _ hm => absurd hm List.not_mem_nil, fun _ _ => List.nodup_nil⟩
  refine ⟨⟨hshape, fun j => rfl, fun s => ?_, fun s p _ => ?_⟩, fun s => Bests.Weak.new, ?_, List.nodup_range,
    fun i => ?_, fun i _ => not_resting_empty i, ⟨fun _ => none, OrderIdMap.rep_new _, fun id i => ?_⟩,
    fun i hi => absurd hi (not_resting_empty i)⟩
  · cases s <;> rfl
  · unfold totalAt
    rw [hheld]
    rfl
  · have hc := chain_range (fun j => ((OrderBook.new cfg).order j).nextFree) (fun _ _ => rfl) cfg.maxOrders 0
      (Nat.zero_add _)
    rw [if_pos cfg.maxOrders_pos, ← List.range_eq_range'] at hc
    exact hc
  · exact ⟨fun hi => Or.inl (List.mem_range.mpr hi),
      fun hi => hi.elim List.mem_range.mp (fun hr => absurd hr (not_resting_empty i))⟩
  · exact ⟨fun hc => (by cases hc), fun hr => absurd hr.1 (not_resting_empty i)⟩

end OrderBook

/-! ## What a request does to the view -/

namespace View

open Engine

variable (cfg : Config)

/-- `modify_order_price`: the order is moved to its new price, and takes from there. -/
def requote (V : View) (i : ℕ) (newPrice : ℤ) : View := (V.reprice cfg i newPrice).settled cfg i

/-- When a request changes nothing. -/
def Refusable (V : View) : Request → Prop
  | .newOrder id type side price qty => validateOrder cfg (incoming id type side price qty) = false
  | .modifyPrice _ _ => True
  | .modifyQuantity id newQty => newQty = 0 ∨ ∀ i, V.queues.Resting i → (V.data i).id = id → (V.data i).qty = newQty
  | .cancel id => ∀ i, V.queues.Resting i → (V.data i).id ≠ id

/-- A request: the trade events it causes (numbered from `n` on), the order that has arrived at a price, the new view. -/
inductive Step (V : View) (n : UInt64) : Request → List TradeEvent → OrderIdx → View → Prop
  | idle {req : Request} (href : V.Refusable cfg req) : Step V n req [] none V
  | done {id : OrderId} {type : OrderType} {side : Side} {price qty : ℤ} {d : OrderData}
      (hd : d = requested id type side price qty) (hval : validateOrder cfg (incoming id type side price qty) = true)
      (hend : type = .market ∨ traded (V.takes cfg d) = qty) :
      Step V n (.newOrder id type side price qty) (events V.data id side n (V.takes cfg d)) none (V.swept cfg none d)
  | rest {id : OrderId} {side : Side} {price qty : ℤ} {d : OrderData} {i : ℕ} {rest : List ℕ}
      (hd : d = requested id .limit side price qty) (hval : validateOrder cfg (incoming id .limit side price qty) = true)
      (hnew : ∀ j, V.queues.Resting j → (V.data j).id ≠ id) (hlt : traded (V.takes cfg d) < qty)
      (hfree : (V.swept cfg none d).free = i :: rest) (hi : ¬ (V.swept cfg none d).queues.Resting i) :
      Step V n (.newOrder id .limit side price qty) (events V.data id side n (V.takes cfg d)) (some i)
        ((V.swept cfg none d).enter cfg i rest
          { d with qty := qty - traded (V.takes cfg d), filled := traded (V.takes cfg d) })
  | lost {id : OrderId} {side : Side} {price qty : ℤ} {d : OrderData} {i : ℕ} {f : OrderData → OrderData}
      (hd : d = requested id .limit side price qty) (hval : validateOrder cfg (incoming id .limit side price qty) = true)
      (hlt : traded (V.takes cfg d) < qty) (hi : ¬ (V.swept cfg none d).queues.Resting i) :
      Step V n (.newOrder id .limit side price qty) (events V.data id side n (V.takes cfg d)) none
        ((V.swept cfg none d).setData i f)
  | reprice {id : OrderId} {newPrice : ℤ} {i : ℕ} {d : OrderData} (hi : V.queues.Resting i) (hid : (V.data i).id = id)
      (hne : (V.data i).price ≠ newPrice) (hplan : cfg.InPlan newPrice) (hd : d = { V.data i with price := newPrice }) :
      Step V n (.modifyPrice id newPrice) (events V.data id d.side n (V.takes cfg d)) (some i)
        (V.requote cfg i newPrice)
  | resize {id : OrderId} {newQty : ℤ} {i : ℕ} (hi : V.queues.Resting i) (hid : (V.data i).id = id)
      (hne : (V.data i).qty ≠ newQty) (hq : 0 < newQty) :
      Step V n (.modifyQuantity id newQty) [] none (V.setData i (fun d => { d with qty := newQty }))
  | cancel {id : OrderId} {i : ℕ} (hi : V.queues.Resting i) (hid : (V.data i).id = id) :
      Step V n (.cancel id) [] none (V.leave cfg i)

end View

namespace Engine

variable (cfg : Config)

/-- What the engine relies on: the ids of accepted limit orders are neither reserved nor in use, and prices fit. -/
def Admissible (e : Engine) : Request → Prop
  | .newOrder id type side price qty =>
    type = .limit → validateOrder cfg (incoming id type side price qty) = true →
      OrderIdMap.Usable id ∧ id ∉ e.book.liveIds cfg ∧ cfg.Fits price
  | .modifyPrice _ newPrice => cfg.Fits newPrice
  | .modifyQuantity _ newQty => 0 ≤ newQty
  | .cancel _ => True

instance (e : Engine) : ∀ req : Request, Decidable (e.Admissible cfg req)
  | .newOrder _ _ _ _ _ => inferInstanceAs (Decidable (_ → _ → _ ∧ _ ∧ _))
  | .modifyPrice _ newPrice => inferInstanceAs (Decidable (cfg.Fits newPrice))
  | .modifyQuantity _ newQty => inferInstanceAs (Decidable (0 ≤ newQty))
  | .cancel _ => inferInstanceAs (Decidable True)

/-- The order that has arrived at a price, by a request. -/
def arrival (e : Engine) : Request → OrderIdx
  | .newOrder id type side price qty =>
    match processOrder cfg e id type side price qty with
    | .ok (_, idx, _, _) => idx
    | .error _ => none
  | .modifyPrice id newPrice =>
    match e.book.repriceOrder cfg id newPrice with
    | .ok (.success, idx, _) => idx
    | _ => none
  | _ => none

/-- One request, whatever its status. -/
def Steps (e : Engine) (req : Request) (e' : Engine) : Prop := ∃ st, step cfg e req = .ok (st, e')

variable {cfg} {e e' : Engine} {V : View} {req : Request}

/-- **A step of the engine is a step of the view.** -/
theorem step_refines (h : e.book.Abs cfg V) (hadm : e.Admissible cfg req) (hstep : Steps cfg e req e') :
    ∃ evs V', V.Step cfg e.seqGen req evs (e.arrival cfg req) V' ∧ e'.book.Abs cfg V' ∧
      e'.trades = e.trades ++ evs ∧ e'.seqGen = e.seqGen + UInt64.ofNat evs.length := by
  obtain ⟨st, hstep⟩ := hstep
  have hidle : e' = e → V.Refusable cfg req → e.arrival cfg req = none →
      ∃ evs V', V.Step cfg e.seqGen req evs (e.arrival cfg req) V' ∧ e'.book.Abs cfg V' ∧
        e'.trades = e.trades ++ evs ∧ e'.seqGen = e.seqGen + UInt64.ofNat evs.length := by
    rintro rfl href harr
    rw [harr]
    exact ⟨[], V, .idle href, h, (List.append_nil _).symm, (by simp)⟩
  cases req with
  | newOrder id type side price qty =>
    unfold step at hstep
    dsimp only at hstep
    cases hp : processOrder cfg e id type side price qty with
    | error f => rw [hp] at hstep; cases hstep
    | ok r =>
      obtain ⟨st', idx, o, e1⟩ := r
      rw [hp] at hstep
      cases hstep
      have harr : e.arrival cfg (.newOrder id type side price qty) = idx := by
        unfold arrival
        dsimp only
        rw [hp]
      have hadm' : type = .limit → validateOrder cfg (incoming id type side price qty) = true →
          OrderIdMap.Usable id ∧ e.book.idMap.find id = none ∧ cfg.Fits price := by
        intro h1 h2
        obtain ⟨h3, h4, h5⟩ := hadm h1 h2
        exact ⟨h3, h.find_none h4, h5⟩
      obtain ⟨hval, he, hidx, -⟩ | ⟨hval, -, -, -, htr, hseq, hcases⟩ := processOrder_spec h hadm' rfl hp
      · exact hidle he hval (harr.trans hidx)
      rw [harr]
      rw [← length_events V.data id side e.seqGen] at hseq
      obtain ⟨hend, rfl, hA⟩ | ⟨rfl, hlt, ⟨i, rest, hfree, hi, rfl, hA⟩ | ⟨rfl, i, f, hi, hA⟩⟩ := hcases
      · exact ⟨_, _, .done rfl hval hend, hA, htr, hseq⟩
      · refine ⟨_, _, .rest rfl hval (fun j hj hid => ?_) hlt hfree hi, hA, htr, hseq⟩
        have hnone := (hadm' rfl hval).2.1
        rw [h.find_iff.mpr ⟨hj, hid⟩] at hnone
        cases hnone
      · exact ⟨_, _, .lost rfl hval hlt hi, hA, htr, hseq⟩
  | modifyPrice id newPrice =>
    obtain ⟨hno, he⟩ | ⟨i, d, hi, hid, hne, hplan, ⟨b, hb⟩, hd, hA, htr, hseq⟩ := modifyOrderPrice_spec h hadm hstep
    · refine hidle he trivial ?_
      unfold arrival
      dsimp only
      cases hr : e.book.repriceOrder cfg id newPrice with
      | error f => rfl
      | ok r =>
        obtain ⟨rst, idx, b⟩ := r
        cases rst with
        | success => exact absurd hr (hno idx b)
        | _ => rfl
    · have harr : e.arrival cfg (.modifyPrice id newPrice) = some i := by
        unfold arrival
        dsimp only
        rw [hb]
      rw [harr]
      rw [← length_events V.data id d.side e.seqGen] at hseq
      exact ⟨_, _, .reprice hi hid hne hplan hd, hA, htr, hseq⟩
  | modifyQuantity id newQty =>
    obtain ⟨st', e1, hm, htr, hseq, ⟨-, rfl, hun⟩ | ⟨-, i, hi, hid, hne, h0, hA⟩⟩ := modifyOrderQuantity_spec h id hadm
    all_goals
      unfold step at hstep
      dsimp only at hstep
      rw [hm] at hstep
      cases hstep
    · exact hidle rfl hun rfl
    · have hadm' : 0 ≤ newQty := hadm
      exact ⟨[], _, .resize hi hid hne (by omega), hA, (by simp [htr]), (by simp [hseq])⟩
  | cancel id =>
    obtain ⟨st', e1, hm, htr, hseq, ⟨-, rfl, hno⟩ | ⟨-, i, hi, hid, hA⟩⟩ := cancelOrder_spec h id
    all_goals
      unfold step at hstep
      dsimp only at hstep
      rw [hm] at hstep
      cases hstep
    · exact hidle rfl hno rfl
    · exact ⟨[], _, .cancel hi hid, hA, (by simp [htr]), (by simp [hseq])⟩

/-- **Invariant rule**: what the steps of the view keep holds in every state of a run, of the view of its book. -/
theorem run_invariant {ok : Engine → Request → Prop} {I : View → Prop} (hok : ∀ e req, ok e req → e.Admissible cfg req)
    (hnew : I (OrderBook.emptyView cfg)) (hview : ∀ b V, OrderBook.Abs cfg b V → I V → I (b.view cfg))
    (hstep : ∀ e req V evs idx V', e.book.Abs cfg V → V = e.book.view cfg → ok e req → I V →
      V.Step cfg e.seqGen req evs idx V' → I V')
    {reqs : List Request} (hrun : Run (Steps cfg) ok (.new cfg) reqs e) :
    e.book.Abs cfg (e.book.view cfg) ∧ I (e.book.view cfg) := by
  have h0 := OrderBook.abs_new cfg
  refine hrun.invariant (I := fun e => e.book.Abs cfg (e.book.view cfg) ∧ I (e.book.view cfg))
    ⟨h0.view, hview _ _ h0 hnew⟩ ?_
  rintro e req e' ⟨h, hI⟩ hreq hs
  obtain ⟨evs, V', hS, hA, -⟩ := step_refines h (hok e req hreq) hs
  exact ⟨hA.view, hview _ _ hA (hstep e req _ evs _ V' h rfl hreq hI hS)⟩

/-- **In every state of a run** the book stands for its view. -/
theorem reachable_abs {ok : Engine → Request → Prop} (hok : ∀ e req, ok e req → e.Admissible cfg req)
    {reqs : List Request} (hrun : Run (Steps cfg) ok (.new cfg) reqs e) : e.book.Abs cfg (e.book.view cfg) :=
  (run_invariant (I := fun _ => True) hok trivial (fun _ _ _ _ => trivial) (fun _ _ _ _ _ _ _ _ _ _ _ => trivial)
    hrun).1

/-! ## Runs that are evaluated -/

variable (cfg)

/-- The state after a request. -/
def after (e : Engine) (req : Request) : Engine :=
  match step cfg e req with
  | .ok (_, e') => e'
  | .error _ => e

/-- The request is answered. -/
def Answers (e : Engine) (req : Request) : Prop := (step cfg e req).isOk = true

instance (e : Engine) (req : Request) : Decidable (e.Answers cfg req) := inferInstanceAs (Decidable (_ = true))

variable {cfg}

theorem steps_after (h : e.Answers cfg req) : Steps cfg e req (e.after cfg req) := by
  unfold Answers at h
  unfold Steps after
  cases hs : step cfg e req with
  | error f => rw [hs] at h; cases h
  | ok r => exact ⟨r.1, rfl⟩

theorem run_after {ok : Engine → Request → Prop} {reqs : List Request}
    (h : Admitted (after cfg) (fun e req => ok e req ∧ e.Answers cfg req) e reqs) :
    Run (Steps cfg) ok e reqs (reqs.foldl (after cfg) e) :=
  (Run.of_admitted (fun _ _ hreq => steps_after hreq.2) h).mono (fun _ _ hreq => hreq.1)

/-- A small engine: four orders, four partitions of four ticks. -/
def small : Config where
  maxOrders := 4
  maxOrders_pos := by decide
  maxOrders_le := by decide
  bits := 2
  bits_pos := by decide
  bits_le := by decide
  logPartitions := 2
  logPartitions_le := by decide
  priceMin := 1
  priceMax := 16
  qtyMin := 1
  qtyMax := 2 ^ 62
  minNotional := 1
  priceMin_pos := by decide
  qtyMin_nonneg := by decide
  qtyMax_lt := by decide
  minNotional_pos := by decide

/-- The small engine after the requests. -/
def afterAll (reqs : List Request) : Engine := reqs.foldl (after small) (.new small)

end Engine

end Wirekrak.Flashstrike

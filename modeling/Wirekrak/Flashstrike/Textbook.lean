import Wirekrak.Flashstrike.LimitPrice
import Wirekrak.Flashstrike.Priority
import Wirekrak.Flashstrike.Status

/-!
# Wirekrak.Flashstrike.Textbook — the engine and the textbook order book

`TextBook` says what the matching engine is for, without partitions, levels, bitmaps, pools and id map: for each side
the offers by price and time, with place for so many of them.  An order takes from the first offers of the other side as
long as they cross it, and what is left of a limit order is queued behind the offers of its price.

* `cross`: what an order takes; `cross_map` is the engine's list of fills.
* `View.InReach`: the orders that the matching loop reaches decide alike.
* `shown_newOrder`, `shown_modifyPrice`, ...: the offers after a request.
* `refines_textbook`: in a run in which every order that is matched meets `View.InReach` in the state before it, the engine
  shows the textbook book and the textbook trades.
-/

namespace Wirekrak.Flashstrike

open Wirekrak.Lib Engine

/-! ## The textbook book -/

/-- What rests in the book of an order. -/
structure Offer where
  id : OrderId
  price : ℤ
  qty : ℤ
  deriving DecidableEq

/-- The offer has the better price. -/
def Offer.Better (s : Side) (x y : Offer) : Prop := s.key x.price < s.key y.price

instance (s : Side) : DecidableRel (Offer.Better s) := fun _ _ => inferInstanceAs (Decidable (_ < _))

/-- A trade of an order with an offer. -/
structure Bargain where
  maker : OrderId
  price : ℤ
  qty : ℤ
  deriving DecidableEq

structure TextBook where
  offers : Side → List Offer
  trades : List TradeEvent

/-- What an order takes from the offers whose prices are all right with it, the offers then, and what is left of it. -/
def cross (ok : ℤ → Bool) : List Offer → ℤ → List Bargain × List Offer × ℤ
  | [], q => ([], [], q)
  | x :: L, q =>
    if 0 < q ∧ ok x.price = true then
      if q < x.qty then ([⟨x.id, x.price, q⟩], { x with qty := x.qty - q } :: L, 0)
      else
        let r := cross ok L (q - x.qty)
        (⟨x.id, x.price, x.qty⟩ :: r.1, r.2.1, r.2.2)
    else ([], x :: L, q)

/-- The trade events of an order's bargains, numbered from `n` on. -/
def tape (taker : OrderId) (side : Side) : UInt64 → List Bargain → List TradeEvent
  | _, [] => []
  | n, t :: ts => ⟨n, t.maker, taker, t.price, t.qty, side⟩ :: tape taker side (n + 1) ts

/-- The prices an order trades at. -/
def accepts (type : OrderType) (side : Side) (price p : ℤ) : Bool := decide (type = .market) || side.crosses price p

namespace TextBook

def empty : TextBook := ⟨fun _ => [], []⟩

def size (t : TextBook) : ℕ := (t.offers .bid).length + (t.offers .ask).length

def setOffers (t : TextBook) (s : Side) (L : List Offer) : TextBook := { t with offers := Function.update t.offers s L }

/-- Behind the offers that are not worse. -/
def place (t : TextBook) (s : Side) (x : Offer) : TextBook :=
  t.setOffers s ((t.offers s).orderedInsert (Offer.Better s) x)

def find (t : TextBook) (s : Side) (id : OrderId) : Option Offer := (t.offers s).find? (fun x => decide (x.id = id))

def remove (t : TextBook) (id : OrderId) : TextBook :=
  { t with offers := fun s => (t.offers s).filter (fun x => decide (x.id ≠ id)) }

def resize (t : TextBook) (id : OrderId) (qty : ℤ) : TextBook :=
  { t with offers := fun s => (t.offers s).map (fun x => if x.id = id then { x with qty := qty } else x) }

/-- An order takes what crosses it; the rest of a limit order finds its place, if there is one. -/
def arrive (places : ℕ) (t : TextBook) (id : OrderId) (type : OrderType) (side : Side) (price qty : ℤ) : TextBook :=
  let r := cross (accepts type side price) (t.offers side.opp) qty
  let t1 : TextBook :=
    { t.setOffers side.opp r.2.1 with trades := t.trades ++ tape id side (UInt64.ofNat (t.trades.length + 1)) r.1 }
  if type = .limit ∧ 0 < r.2.2 ∧ t1.size < places then t1.place side ⟨id, price, r.2.2⟩ else t1

/-- A new price: the order leaves, and arrives anew with what is left of it. -/
def reprice (places : ℕ) (t : TextBook) (id : OrderId) (newPrice : ℤ) (s : Side) : Option Offer → TextBook
  | some x => if x.price = newPrice then t else (t.remove id).arrive places id .limit s newPrice x.qty
  | none => t

variable (cfg : Config)

def step (t : TextBook) : Request → TextBook
  | .newOrder id type side price qty =>
    if validateOrder cfg (incoming id type side price qty) = true then t.arrive cfg.maxOrders id type side price qty
    else t
  | .modifyPrice id newPrice =>
    if newPrice = 0 then t
    else if (t.find .bid id).isSome then t.reprice cfg.maxOrders id newPrice .bid (t.find .bid id)
    else t.reprice cfg.maxOrders id newPrice .ask (t.find .ask id)
  | .modifyQuantity id newQty => if newQty = 0 then t else t.resize id newQty
  | .cancel id => t.remove id

end TextBook

/-! ## What an order takes -/

section Cross

variable {ok : ℤ → Bool} {E E' : ℕ → Offer} {L : List ℕ} {q : ℤ} {fs : List (ℕ × ℤ)}

/-- The fills of the orders in a list, as bargains. -/
def bargains (E : ℕ → Offer) (fs : List (ℕ × ℤ)) : List Bargain := fs.map (fun f => ⟨(E f.1).id, (E f.1).price, f.2⟩)

/-- **What an order takes** from a list of offers: the fills of those before the first one that does not cross. -/
theorem cross_map (hnd : L.Nodup) (hfs : fs = fills (fun j => (E j).qty) (L.takeWhile (fun j => ok (E j).price)) q)
    (hmaker : ∀ j x, (j, x) ∈ fs → E' j = { E j with qty := (E j).qty - x })
    (hother : ∀ j ∈ L, (∀ x, (j, x) ∉ fs) → E' j = E j) :
    cross ok (L.map E) q =
      (bargains E fs, (L.filter (fun j => (j, (E j).qty) ∉ fs)).map E', q - traded fs) := by
  induction L generalizing q fs with
  | nil =>
    rw [hfs]
    simp [cross, fills, bargains]
  | cons r L ih =>
    have hnone : fs = [] → cross ok ((r :: L).map E) q = ([], (r :: L).map E, q) →
        cross ok ((r :: L).map E) q =
          (bargains E fs, ((r :: L).filter (fun j => (j, (E j).qty) ∉ fs)).map E', q - traded fs) := by
      rintro h0 hc
      have hmap : (r :: L).map E' = (r :: L).map E :=
        List.map_congr_left (fun j hj => hother j hj (fun x hx => by rw [h0] at hx; cases hx))
      rw [hc, h0]
      simp only [bargains, List.map_nil, List.not_mem_nil, not_false_eq_true, decide_true, List.filter_true, hmap,
        traded_nil, Int.sub_zero]
    by_cases hok : 0 < q ∧ ok (E r).price = true
    swap
    · refine hnone ?_ ?_
      · rw [hfs]
        by_cases hq : 0 < q
        · rw [List.takeWhile_cons_of_neg (by simpa using fun hc => hok ⟨hq, hc⟩)]
          rfl
        · exact fills_of_nonpos (by omega) _
      · rw [List.map_cons, cross, if_neg hok]
    obtain ⟨hr, hnd'⟩ := List.nodup_cons.mp hnd
    have htake : (r :: L).takeWhile (fun j => ok (E j).price) = r :: L.takeWhile (fun j => ok (E j).price) :=
      List.takeWhile_cons_of_pos hok.2
    rw [htake, fills, if_pos hok.1] at hfs
    rw [List.map_cons, cross, if_pos hok]
    by_cases hlt : q < (E r).qty
    · -- the order is filled by a part of the first offer
      rw [min_eq_left hlt.le, Int.sub_self, fills_of_nonpos (le_refl 0)] at hfs
      have hstay : (r :: L).filter (fun j => (j, (E j).qty) ∉ fs) = r :: L := by
        refine List.filter_eq_self.mpr (fun j _ => ?_)
        rw [hfs, decide_eq_true_eq, List.mem_singleton, Prod.mk.injEq]
        rintro ⟨rfl, he⟩
        omega
      have hL : L.map E' = L.map E := by
        refine List.map_congr_left (fun j hj => hother j (List.mem_cons_of_mem r hj) (fun x hx => ?_))
        rw [hfs, List.mem_singleton, Prod.mk.injEq] at hx
        exact hr (hx.1 ▸ hj)
      rw [if_pos hlt, hstay, List.map_cons, hL, hmaker r q (by rw [hfs]; exact List.mem_cons_self), hfs]
      simp [bargains]
    · rw [min_eq_right (not_lt.mp hlt)] at hfs
      obtain ⟨gs, hgs⟩ : ∃ gs, gs = fills (fun j => (E j).qty) (L.takeWhile (fun j => ok (E j).price))
          (q - (E r).qty) := ⟨_, rfl⟩
      rw [← hgs] at hfs
      have hne : ∀ j ∈ L, j ≠ r := fun j hj he => hr (he ▸ hj)
      have hmem : ∀ j ∈ L, ∀ x, (j, x) ∈ fs ↔ (j, x) ∈ gs := by
        intro j hj x
        rw [hfs, List.mem_cons, Prod.mk.injEq]
        exact ⟨fun h => h.resolve_left (fun hc => hne j hj hc.1), Or.inr⟩
      have hih := ih hnd' hgs (fun j x hx => hmaker j x (by rw [hfs]; exact List.mem_cons_of_mem _ hx))
        (fun j hj hno => hother j (List.mem_cons_of_mem r hj) (fun x hx => hno x ((hmem j hj x).mp hx)))
      have hfilter : (r :: L).filter (fun j => (j, (E j).qty) ∉ fs) = L.filter (fun j => (j, (E j).qty) ∉ gs) := by
        rw [List.filter_cons_of_neg (by rw [hfs]; simp)]
        exact List.filter_congr (fun j hj => by simp only [hmem j hj])
      rw [if_neg hlt, hih, hfilter, hfs]
      simp only [bargains, List.map_cons, traded_cons, Prod.mk.injEq, true_and]
      omega

theorem tape_bargains {data : ℕ → OrderData}
    (hE : ∀ f ∈ fs, (E f.1).id = (data f.1).id ∧ (E f.1).price = (data f.1).price) (taker : OrderId) (side : Side)
    (n : UInt64) : tape taker side n (bargains E fs) = events data taker side n fs := by
  induction fs generalizing n with
  | nil => rfl
  | cons f fs ih =>
    obtain ⟨h1, h2⟩ := hE f List.mem_cons_self
    have hih := ih (fun g hg => hE g (List.mem_cons_of_mem f hg)) (n + 1)
    show ⟨n, (E f.1).id, taker, (E f.1).price, f.2, side⟩ :: tape taker side (n + 1) (bargains E fs) = _
    rw [h1, h2, hih]
    rfl

end Cross

theorem orderedInsert_append {α : Type*} {r : α → α → Prop} [DecidableRel r] {a : α} {A B : List α}
    (hA : ∀ x ∈ A, ¬ r a x) (hB : ∀ x ∈ B, r a x) : (A ++ B).orderedInsert r a = A ++ a :: B := by
  induction A with
  | nil =>
    cases B with
    | nil => rfl
    | cons y B => exact List.orderedInsert_cons_of_le r B (hB y List.mem_cons_self)
  | cons x A ih =>
    rw [List.cons_append, List.orderedInsert_of_not_le r _ (hA x List.mem_cons_self),
      ih (fun y hy => hA y (List.mem_cons_of_mem x hy)), List.cons_append]

/-! ## The orders in reach -/

namespace View

variable (cfg : Config)

def offer (V : View) (i : ℕ) : Offer := ⟨(V.data i).id, (V.data i).price, (V.data i).qty⟩

def offers (V : View) (s : Side) : List Offer := (V.orders cfg s).map V.offer

/-- The order trades at the price of the one at `i`. -/
def Accepts (V : View) (d : OrderData) (i : ℕ) : Bool := accepts d.type d.side d.price (V.data i).price

/-- The matching loop reaches enough: the orders in reach that cross have the quantity, or all the orders that cross are
in reach and no others. -/
def InReach (V : View) (d : OrderData) : Prop :=
  V.Blocked d.side d ∨ d.qty ≤ V.quantity ((V.reach cfg d.side.opp).filter (V.Accepts d)) ∨
    ∀ i ∈ V.orders cfg d.side.opp, V.Accepts d i = true ↔ i ∈ V.reach cfg d.side.opp

instance (V : View) (d : OrderData) : Decidable (V.InReach cfg d) := inferInstanceAs (Decidable (_ ∨ _ ∨ _))

variable {cfg} {V : View} {b : OrderBook} {d : OrderData}

theorem takeWhile_of_none {L : List ℕ} {f : ℕ → Bool} (h : ∀ i ∈ L, f i = false) : L.takeWhile f = [] := by
  cases L with
  | nil => rfl
  | cons r L => exact List.takeWhile_cons_of_neg (by simp [h r List.mem_cons_self])

theorem accepts_split (h : b.Abs cfg V) (d : OrderData) :
    ∃ N, V.reach cfg d.side.opp = (V.reach cfg d.side.opp).filter (V.Accepts d) ++ N := by
  cases hd : d.type with
  | market =>
    have hall : V.Accepts d = fun _ => true := by
      funext i
      simp [Accepts, accepts, hd]
    exact ⟨[], by simp [hall]⟩
  | limit =>
    have hcross : V.Accepts d = fun i => d.side.crosses d.price (V.data i).price := by
      funext i
      simp [Accepts, accepts, hd]
    obtain ⟨N, hN, -⟩ := reach_split h.weak h.mem.queued d.side d.price
    rw [hcross]
    exact ⟨N, hN⟩

/-- A blocked order crosses nothing. -/
theorem not_accepts_of_blocked (h : b.Abs cfg V) (hbl : V.Blocked d.side d) {i : ℕ}
    (hi : i ∈ V.orders cfg d.side.opp) : V.Accepts d i = false := by
  obtain ⟨hres, hside⟩ := h.mem_orders.mp hi
  have hmem : i ∈ V.queues d.side.opp (V.data i).price := by
    rw [← hside]
    exact h.mem_queues hres
  have hle := ((h.weak d.side.opp).level _ (List.ne_nil_of_mem hmem)).2.2
  obtain ⟨htype, -, hbest⟩ := hbl
  unfold Accepts accepts
  rw [htype, ← Bool.not_eq_true]
  rw [← Bool.not_eq_true, Side.crosses_iff] at hbest
  intro hc
  rw [decide_eq_false (by rintro ⟨⟩), Bool.false_or, Side.crosses_iff] at hc
  omega

/-- **The fills of an order in reach** are those of the first orders of the other side that cross it. -/
theorem takes_eq_fills (h : b.Abs cfg V) (hq : 0 ≤ d.qty) (hin : V.InReach cfg d) : V.takes cfg d =
    fills (fun j => (V.data j).qty) ((V.orders cfg d.side.opp).takeWhile (V.Accepts d)) d.qty := by
  by_cases hbl : V.Blocked d.side d
  · have hnil : (V.orders cfg d.side.opp).takeWhile (V.Accepts d) = [] :=
      takeWhile_of_none (fun i hi => not_accepts_of_blocked h hbl hi)
    rw [takes_blocked hbl, hnil]
    rfl
  have htakes : V.takes cfg d = fills (fun j => (V.data j).qty) (V.reach cfg d.side.opp) d.qty := by
    unfold takes makers
    rw [if_neg hbl]
    rfl
  obtain ⟨M, hM⟩ : V.reach cfg d.side.opp <+: V.orders cfg d.side.opp := Bests.sweepable_isPrefix (h.weak d.side.opp)
  rw [htakes, ← hM]
  rcases hin.resolve_left hbl with henough | hall
  · -- what crosses in reach is a first part of both lists, and is enough
    obtain ⟨N, hN⟩ := accepts_split h d
    obtain ⟨F, hF⟩ : ∃ F, F = (V.reach cfg d.side.opp).filter (V.Accepts d) := ⟨_, rfl⟩
    rw [← hF] at hN henough
    have hacc : ∀ i ∈ F, V.Accepts d i = true := by
      intro i hi
      rw [hF] at hi
      exact (List.mem_filter.mp hi).2
    have hnn : ∀ r ∈ F, 0 ≤ (V.data r).qty := by
      intro r hr
      rw [hF] at hr
      exact (h.orders r (h.mem_reach (List.mem_filter.mp hr).1).1).2
    have htr : traded (fills (fun j => (V.data j).qty) F d.qty) = d.qty := by
      rw [traded_eq hnn hq]
      exact min_eq_left henough
    have hext : ∀ X, fills (fun j => (V.data j).qty) (F ++ X) d.qty = fills (fun j => (V.data j).qty) F d.qty := by
      intro X
      rw [fills_append, htr, Int.sub_self, fills_of_nonpos (le_refl 0), List.append_nil]
    rw [hN, List.append_assoc, List.takeWhile_append_of_pos hacc, hext, hext]
  · have hnd : (V.reach cfg d.side.opp ++ M).Nodup := by
      rw [hM]
      exact nodup_ladder h.mem.queued
    have hreach : ∀ i ∈ V.reach cfg d.side.opp, V.Accepts d i = true := fun i hi =>
      (hall i (by rw [← hM]; exact List.mem_append_left M hi)).mpr hi
    have hM0 : M.takeWhile (V.Accepts d) = [] := by
      refine takeWhile_of_none (fun i hi => ?_)
      rw [← Bool.not_eq_true]
      intro hc
      have hin := (hall i (by rw [← hM]; exact List.mem_append_right _ hi)).mp hc
      exact List.disjoint_of_nodup_append hnd hin hi
    rw [List.takeWhile_append_of_pos hreach, hM0, List.append_nil]

/-! ## The offers of a view -/

theorem orders_filter {W : View} {s : Side} {f : ℕ → Bool} (hq : ∀ p, W.queues s p = (V.queues s p).filter f) :
    W.orders cfg s = (V.orders cfg s).filter f := by
  unfold orders ladder
  rw [List.filter_flatMap]
  exact List.flatMap_congr (fun p _ => hq p)

theorem offers_congr {W : View} {s : Side} (hq : W.queues s = V.queues s)
    (hd : ∀ j ∈ V.orders cfg s, W.offer j = V.offer j) : W.offers cfg s = V.offers cfg s := by
  have ho : W.orders cfg s = V.orders cfg s := by
    unfold orders
    rw [hq]
  unfold offers
  rw [ho]
  exact List.map_congr_left hd

/-- An order at the end of the queue of its price stands behind the offers that are not worse. -/
theorem offers_insert {W : View} {s : Side} {q : ℤ → List ℕ} {p0 : ℤ} {i : ℕ} (hplan : cfg.InPlan p0)
    (hq : ∀ p, W.queues s p = q p ++ if p = p0 then [i] else []) (hprice : ∀ p, ∀ j ∈ q p, (W.data j).price = p)
    (hi : (W.data i).price = p0) : W.offers cfg s =
      ((ladder cfg s q).map W.offer).orderedInsert (Offer.Better s) (W.offer i) := by
  obtain ⟨A, B, hAB, hA, hB⟩ := Bests.planPrices_split s hplan
  have hne : ∀ p ∈ A ++ B, p ≠ p0 := by
    rintro p hp rfl
    rcases List.mem_append.mp hp with h | h
    · exact (hA p h).ne rfl
    · exact (hB p h).ne rfl
  have hflat : ∀ L : List ℤ, (∀ p ∈ L, p ≠ p0) → L.flatMap (W.queues s) = L.flatMap q :=
    fun L hL => List.flatMap_congr (fun p hp => by rw [hq, if_neg (hL p hp), List.append_nil])
  have horders : W.orders cfg s = (A.flatMap q ++ q p0) ++ i :: B.flatMap q := by
    unfold orders ladder
    rw [hAB, List.flatMap_append, List.flatMap_cons, hflat A (fun p hp => hne p (List.mem_append_left B hp)),
      hflat B (fun p hp => hne p (List.mem_append_right A hp)), hq, if_pos rfl]
    simp
  have hladder : ladder cfg s q = (A.flatMap q ++ q p0) ++ B.flatMap q := by
    unfold ladder
    rw [hAB, List.flatMap_append, List.flatMap_cons, List.append_assoc]
  have hfront : ∀ x ∈ (A.flatMap q ++ q p0).map W.offer, ¬ Offer.Better s (W.offer i) x := by
    intro x hx
    obtain ⟨j, hj, rfl⟩ := List.mem_map.mp hx
    show ¬ s.key (W.data i).price < s.key (W.data j).price
    rcases List.mem_append.mp hj with hj | hj
    · obtain ⟨p, hp, hjp⟩ := List.mem_flatMap.mp hj
      have := hA p hp
      rw [hi, hprice p j hjp]
      omega
    · rw [hi, hprice p0 j hj]
      omega
  have hback : ∀ x ∈ (B.flatMap q).map W.offer, Offer.Better s (W.offer i) x := by
    intro x hx
    obtain ⟨j, hj, rfl⟩ := List.mem_map.mp hx
    obtain ⟨p, hp, hjp⟩ := List.mem_flatMap.mp hj
    show s.key (W.data i).price < s.key (W.data j).price
    rw [hi, hprice p j hjp]
    exact hB p hp
  have hins := orderedInsert_append hfront hback
  rw [← List.map_append] at hins
  unfold offers
  rw [horders, hladder, hins, List.map_append, List.map_cons]

/-- **What an order in reach takes** from the offers of the other side, and what it leaves of them. -/
theorem cross_offers (h : b.Abs cfg V) (hq : 0 ≤ d.qty) (hin : V.InReach cfg d) {W : View}
    (hqueues : ∀ p, W.queues d.side.opp p =
      (V.queues d.side.opp p).filter (fun j => (j, (V.data j).qty) ∉ V.takes cfg d))
    (hmaker : ∀ j x, (j, x) ∈ V.takes cfg d → W.data j = OrderData.fill x (V.data j))
    (hother : ∀ j ∈ V.orders cfg d.side.opp, (∀ x, (j, x) ∉ V.takes cfg d) → W.data j = V.data j) :
    cross (accepts d.type d.side d.price) (V.offers cfg d.side.opp) d.qty =
      (bargains V.offer (V.takes cfg d), W.offers cfg d.side.opp, d.qty - traded (V.takes cfg d)) := by
  have hfs : V.takes cfg d = fills (fun j => (V.offer j).qty)
      ((V.orders cfg d.side.opp).takeWhile (fun j => accepts d.type d.side d.price (V.offer j).price)) d.qty :=
    takes_eq_fills h hq hin
  unfold offers
  rw [orders_filter hqueues]
  refine cross_map (nodup_ladder h.mem.queued) hfs (fun j x hx => ?_) (fun j hj hno => ?_)
  · unfold offer
    rw [hmaker j x hx]
    rfl
  · unfold offer
    rw [hother j hj hno]

/-- A pool index is free, or shows in one offer. -/
theorem size_add_free (h : b.Abs cfg V) (s : Side) :
    (V.offers cfg s).length + (V.offers cfg s.opp).length + V.free.length = cfg.maxOrders := by
  have hnd : (V.orders cfg .bid ++ V.orders cfg .ask ++ V.free).Nodup := by
    refine List.Nodup.append
      (List.Nodup.append (nodup_ladder h.mem.queued) (nodup_ladder h.mem.queued) ?_) h.freeNodup ?_
    · intro i hi hi'
      have h1 := (h.mem_orders.mp hi).2
      rw [(h.mem_orders.mp hi').2] at h1
      cases h1
    · intro i hi hf
      refine h.disjoint i hf ?_
      rcases List.mem_append.mp hi with hi | hi
      · exact (h.mem_orders.mp hi).1
      · exact (h.mem_orders.mp hi).1
  have hperm : (V.orders cfg .bid ++ V.orders cfg .ask ++ V.free).Perm (List.range cfg.maxOrders) := by
    rw [List.perm_ext_iff_of_nodup hnd List.nodup_range]
    intro i
    rw [List.mem_range, h.index i, List.mem_append, List.mem_append, h.mem_orders, h.mem_orders]
    constructor
    · rintro ((hi | hi) | hi)
      · exact Or.inr hi.1
      · exact Or.inr hi.1
      · exact Or.inl hi
    · rintro (hi | hi)
      · exact Or.inr hi
      · cases hs : (V.data i).side with
        | bid => exact Or.inl (Or.inl ⟨hi, rfl⟩)
        | ask => exact Or.inl (Or.inr ⟨hi, rfl⟩)
  have hlen := hperm.length_eq
  rw [List.length_append, List.length_append, List.length_range] at hlen
  unfold offers
  rw [List.length_map, List.length_map]
  cases s with
  | bid => exact hlen
  | ask => rwa [Nat.add_comm (V.orders cfg .ask).length]

theorem offers_view (h : b.Abs cfg V) : (b.view cfg).offers cfg = V.offers cfg := by
  rw [h.view_eq]
  rfl

/-- Nothing is taken on an order's own side. -/
theorem not_taken (h : b.Abs cfg V) {j : ℕ} (hj : j ∈ V.orders cfg d.side) (x : ℤ) : (j, x) ∉ V.takes cfg d := by
  intro hx
  have h1 := (resting_of_takes (lined_fresh h.weak h.mem.queued d) hx).2.1
  rw [(h.mem_orders.mp hj).2] at h1
  exact Side.opp_ne d.side h1.symm

theorem offers_swept_side (h : b.Abs cfg V) (d : OrderData) :
    (V.swept cfg none d).offers cfg d.side = V.offers cfg d.side := by
  have hl := lined_fresh h.weak h.mem.queued d
  refine offers_congr (funext (fun p => queues_sweep_side hl p)) (fun j hj => ?_)
  unfold offer
  rw [data_swept_other hl (not_taken h hj) (by rintro ⟨⟩)]

/-- Without the order at `i`: without the offers of its id. -/
theorem map_offer_filter (h : b.Abs cfg V) {i : ℕ} (hi : V.queues.Resting i) (s : Side) :
    ((V.orders cfg s).filter (fun j => j ≠ i)).map V.offer =
      (V.offers cfg s).filter (fun x => decide (x.id ≠ (V.data i).id)) := by
  unfold offers
  rw [List.filter_map]
  congr 1
  refine List.filter_congr (fun j hj => ?_)
  rw [Function.comp_apply, Bool.eq_iff_iff, decide_eq_true_eq, decide_eq_true_eq]
  exact not_congr ⟨fun he => by rw [he]; rfl, fun he => h.id_inj (h.mem_orders.mp hj).1 hi he⟩

theorem filter_offers_of_none {id : OrderId} (h : b.Abs cfg V)
    (hno : ∀ i, V.queues.Resting i → (V.data i).id ≠ id) (s : Side) :
    (V.offers cfg s).filter (fun x => decide (x.id ≠ id)) = V.offers cfg s := by
  refine List.filter_eq_self.mpr (fun x hx => ?_)
  obtain ⟨j, hj, rfl⟩ := List.mem_map.mp hx
  exact decide_eq_true (hno j (h.mem_orders.mp hj).1)

theorem find_offers (h : b.Abs cfg V) {i : ℕ} (hi : V.queues.Resting i) (ts : List TradeEvent) :
    (⟨V.offers cfg, ts⟩ : TextBook).find (V.data i).side (V.data i).id = some (V.offer i) := by
  unfold TextBook.find offers
  dsimp only
  rw [List.find?_map]
  have hmem : i ∈ V.orders cfg (V.data i).side := h.mem_orders.mpr ⟨hi, rfl⟩
  cases hf : (V.orders cfg (V.data i).side).find? ((fun x => decide (x.id = (V.data i).id)) ∘ V.offer) with
  | none =>
    have hno := List.find?_eq_none.mp hf i hmem
    exact absurd (decide_eq_true rfl) hno
  | some j =>
    have hid := List.find?_some hf
    rw [Function.comp_apply, decide_eq_true_eq] at hid
    rw [h.id_inj (h.mem_orders.mp (List.mem_of_find?_eq_some hf)).1 hi hid]
    rfl

theorem find_offers_none (h : b.Abs cfg V) {id : OrderId} {s : Side}
    (hno : ∀ i, V.queues.Resting i → (V.data i).id = id → (V.data i).side ≠ s) (ts : List TradeEvent) :
    (⟨V.offers cfg, ts⟩ : TextBook).find s id = none := by
  refine List.find?_eq_none.mpr (fun x hx hc => ?_)
  obtain ⟨j, hj, rfl⟩ := List.mem_map.mp hx
  obtain ⟨hr, hs⟩ := h.mem_orders.mp hj
  exact hno j hr (of_decide_eq_true hc) hs

theorem offers_leave (h : b.Abs cfg V) {i : ℕ} (hi : V.queues.Resting i) (s : Side) :
    (V.leave cfg i).offers cfg s = (V.offers cfg s).filter (fun x => decide (x.id ≠ (V.data i).id)) := by
  rw [← map_offer_filter h hi]
  unfold offers
  rw [orders_filter (fun p => queues_leave h.mem.queued (h.mem_queues hi) s p)]
  rfl

theorem offers_resize (h : b.Abs cfg V) {i : ℕ} (hi : V.queues.Resting i) (newQty : ℤ) (s : Side) :
    (V.setData i (fun d => { d with qty := newQty })).offers cfg s =
      (V.offers cfg s).map (fun x => if x.id = (V.data i).id then { x with qty := newQty } else x) := by
  unfold offers
  rw [List.map_map]
  refine List.map_congr_left (fun j hj => ?_)
  unfold offer
  rw [data_setData, Function.comp_apply]
  dsimp only
  by_cases hj' : j = i
  · rw [if_pos hj', if_pos (by rw [hj']), hj']
  · rw [if_neg hj', if_neg (fun he => hj' (h.id_inj (h.mem_orders.mp hj).1 hi he))]

theorem swept_of_takes_nil {taker : Option ℕ} (hq : 0 < d.qty) (hnil : V.takes cfg d = []) :
    V.swept cfg taker d = V := by
  unfold takes at hnil
  unfold swept
  rw [(fills_eq_nil.mp hnil).resolve_right (by omega)]
  rfl

theorem cross_swept (h : b.Abs cfg V) (hq : 0 ≤ d.qty) (hin : V.InReach cfg d) :
    cross (accepts d.type d.side d.price) (V.offers cfg d.side.opp) d.qty =
      (bargains V.offer (V.takes cfg d), (V.swept cfg none d).offers cfg d.side.opp,
        d.qty - traded (V.takes cfg d)) := by
  have hl := lined_fresh h.weak h.mem.queued d
  exact cross_offers h hq hin (fun p => queues_swept hl _ p) (fun j x hx => data_swept_maker hl hx)
    (fun j _ hno => data_swept_other hl hno (by rintro ⟨⟩))

end View

/-! ## Arrivals -/

namespace TextBook

variable {T : TextBook} {places : ℕ} {id : OrderId} {type : OrderType} {side : Side} {price qty left : ℤ}
  {bs : List Bargain} {L : List Offer} {F : Side → List Offer}

theorem ext_side {F G : Side → List Offer} (side : Side) (h : F side = G side) (h' : F side.opp = G side.opp) :
    F = G := by
  funext s
  rcases Side.eq_or_eq_opp side s with rfl | rfl
  · exact h
  · exact h'

theorem size_eq (T : TextBook) (s : Side) : T.size = (T.offers s).length + (T.offers s.opp).length := by
  cases s
  · rfl
  · exact Nat.add_comm _ _

theorem size_setOffers (hopp : F side.opp = L) :
    (T.setOffers side.opp L).size = (T.offers side).length + (F side.opp).length := by
  rw [size_eq _ side]
  unfold setOffers
  dsimp only
  rw [Function.update_self, Function.update_of_ne (Side.opp_ne side).symm, hopp]

section

variable (hcross : cross (accepts type side price) (T.offers side.opp) qty = (bs, L, left)) (hopp : F side.opp = L)

include hcross hopp

theorem arrive_stay (hstay : ¬ (type = .limit ∧ 0 < left ∧ (T.offers side).length + (F side.opp).length < places))
    (hown : F side = T.offers side) : T.arrive places id type side price qty =
      ⟨F, T.trades ++ tape id side (UInt64.ofNat (T.trades.length + 1)) bs⟩ := by
  rw [← size_setOffers hopp] at hstay
  unfold arrive
  rw [hcross]
  dsimp only
  refine (if_neg hstay).trans ?_
  have hF : Function.update T.offers side.opp L = F := by
    refine ext_side side ?_ ?_
    · rw [Function.update_of_ne (Side.opp_ne side).symm, hown]
    · rw [Function.update_self, hopp]
  rw [← hF]
  rfl

theorem arrive_rest (hlimit : type = .limit) (hleft : 0 < left)
    (hsize : (T.offers side).length + (F side.opp).length < places)
    (hown : F side = (T.offers side).orderedInsert (Offer.Better side) ⟨id, price, left⟩) :
    T.arrive places id type side price qty =
      ⟨F, T.trades ++ tape id side (UInt64.ofNat (T.trades.length + 1)) bs⟩ := by
  rw [← size_setOffers hopp] at hsize
  unfold arrive
  rw [hcross]
  dsimp only
  refine (if_pos ⟨hlimit, hleft, hsize⟩).trans ?_
  have hF : Function.update (Function.update T.offers side.opp L) side
      ((Function.update T.offers side.opp L side).orderedInsert (Offer.Better side) ⟨id, price, left⟩) = F := by
    refine ext_side side ?_ ?_
    · rw [Function.update_self, Function.update_of_ne (Side.opp_ne side).symm, hown]
    · rw [Function.update_of_ne (Side.opp_ne side), Function.update_self, hopp]
  rw [← hF]
  rfl

end

end TextBook

/-! ## Requests -/

namespace Engine

variable {cfg : Config} {e e' : Engine} {V : View} {id : OrderId} {type : OrderType} {side : Side} {price qty : ℤ}
  {d : OrderData} {st : OperationStatus}

/-- What the engine shows. -/
def shown (cfg : Config) (e : Engine) : TextBook := ⟨(e.book.view cfg).offers cfg, e.trades⟩

theorem shown_eq (h : e.book.Abs cfg V) : e.shown cfg = ⟨V.offers cfg, e.trades⟩ := by
  unfold shown
  rw [View.offers_view h]

/-- An order that finds no slot meets a full book, and takes nothing. -/
theorem processOrder_full (h : e.book.Abs cfg V)
    (hcap : e.book.idMap.capacity = OrderIdMap.tableSize cfg.maxOrders) (hd : d = requested id type side price qty)
    (hval : validateOrder cfg (incoming id type side price qty) = true) {o : Order}
    (hok : processOrder cfg e id type side price qty = .ok (st, none, o, e'))
    (hend : ¬ (type = .market ∨ traded (V.takes cfg d) = qty)) :
    V.takes cfg d = [] ∧ (V.swept cfg none d).free = [] ∧ e' = e := by
  obtain ⟨hq0, hq1⟩ := qty_of_valid hval
  obtain ⟨st1, e1, t1, hm, hfull, hA, htr, -, -⟩ := matchFresh_spec h hq0 hq1 hd
  have hlt : traded (V.takes cfg d) < qty :=
    lt_of_le_of_ne (traded_takes_le h hd hq0.le) (fun hc => hend (Or.inr hc))
  have hqty : d.qty = qty := by rw [hd]; rfl
  unfold processOrder at hok
  dsimp only at hok
  rw [if_neg (by rw [hval]; decide), hm] at hok
  simp only [bind, Except.bind] at hok
  rw [if_neg (fun hc => hend (hc.imp_right hfull.mp))] at hok
  cases hins : e1.book.insertOrder cfg (taker e1.book t1).id side (taker e1.book t1).price (taker e1.book t1).qty
      (taker e1.book t1).filled with
  | error f => rw [hins] at hok; cases hok
  | ok r =>
    obtain ⟨ist, iidx, b⟩ := r
    rw [hins] at hok
    dsimp only at hok
    by_cases hi : ist = .success
    · -- an order that has its slot has its index
      exfalso
      rw [if_pos hi] at hok
      cases hok
      rw [hi] at hins
      unfold OrderBook.insertOrder at hins
      split at hins
      · cases hins
      split at hins
      · cases hins
      · simp only [bind, Except.bind] at hins
        split at hins <;> cases hins
    · rw [if_neg hi] at hok
      cases hok
      obtain ⟨hfree, -, rfl⟩ := OrderBook.insertOrder_refused hA (slotted_matchOrder hcap _ hm) hins hi
      have hnil : V.takes cfg d = [] := by
        by_contra hne
        exact free_swept h hA (by rw [hqty]; exact hlt) hne hfree
      refine ⟨hnil, hfree, ?_⟩
      rw [hnil] at htr
      exact matchOrder_idle hm (by rw [htr]; exact List.append_nil _)

theorem tape_shown (V : View) (hseq : e.Sequenced) (fs : List (ℕ × ℤ)) (id : OrderId) (side : Side) :
    tape id side (UInt64.ofNat (e.trades.length + 1)) (bargains V.offer fs) = events V.data id side e.seqGen fs := by
  rw [hseq.2]
  exact tape_bargains (fun f _ => ⟨rfl, rfl⟩) id side _

/-- **A new order** arrives in the textbook book. -/
theorem shown_newOrder (h : e.book.Abs cfg V) (hseq : e.Sequenced)
    (hcap : e.book.idMap.capacity = OrderIdMap.tableSize cfg.maxOrders)
    (hadm : type = .limit → validateOrder cfg (incoming id type side price qty) = true →
      OrderIdMap.Usable id ∧ e.book.idMap.find id = none ∧ cfg.Fits price)
    (hd : d = requested id type side price qty)
    (hin : validateOrder cfg (incoming id type side price qty) = true → V.InReach cfg d)
    {idx : OrderIdx} {o : Order} (hok : processOrder cfg e id type side price qty = .ok (st, idx, o, e')) :
    e'.shown cfg = (e.shown cfg).step cfg (.newOrder id type side price qty) := by
  unfold TextBook.step
  dsimp only
  obtain ⟨hbad, rfl, -⟩ | ⟨hval, hq0, -, -, htr, -, hcases⟩ := processOrder_spec h hadm hd hok
  · rw [if_neg (by rw [hbad]; decide)]
  rw [if_pos hval, shown_eq h]
  have hside : d.side = side := by rw [hd]; rfl
  have hqty : d.qty = qty := by rw [hd]; rfl
  have htype : d.type = type := by rw [hd]; rfl
  have hprice : d.price = price := by rw [hd]; rfl
  have hcross := View.cross_swept (d := d) h (by rw [hqty]; exact hq0.le) (hin hval)
  have hown := View.offers_swept_side h d
  rw [hside, hqty, htype, hprice] at hcross
  rw [hside] at hown
  have hevents := tape_shown V hseq (V.takes cfg d) id side
  obtain ⟨hend, -, hA⟩ | ⟨hlimit, hlt, ⟨i, rest, hfree, hi, -, hA⟩ | ⟨rfl, i, f, hi, hA⟩⟩ := hcases
  · rw [shown_eq hA, TextBook.arrive_stay (F := (V.swept cfg none d).offers cfg) hcross rfl ?_ hown, htr, hevents]
    rintro ⟨hlimit, hleft, -⟩
    rcases hend with h1 | h1
    · rw [hlimit] at h1
      cases h1
    · omega
  · obtain ⟨x, hx⟩ : ∃ x : OrderData,
        x = { d with qty := qty - traded (V.takes cfg d), filled := traded (V.takes cfg d) } := ⟨_, rfl⟩
    rw [← hx] at hA
    obtain ⟨W, hW⟩ : ∃ W, W = (V.swept cfg none d).enter cfg i rest x := ⟨_, rfl⟩
    rw [← hW] at hA
    have hxside : x.side = side := by rw [hx]; exact hside
    have hxprice : x.price = price := by rw [hx]; exact hprice
    have hdata : ∀ j, W.data j = if j = i then x else (V.swept cfg none d).data j := by
      intro j
      rw [hW, View.data_enter]
    have hqueues : ∀ s p, W.queues s p =
        (V.swept cfg none d).queues s p ++ if s = side ∧ p = price then [i] else [] := by
      intro s p
      rw [hW, View.queues_enter, hxside, hxprice]
    have hold : ∀ s, ∀ j ∈ (V.swept cfg none d).orders cfg s, W.offer j = (V.swept cfg none d).offer j := by
      intro s j hj
      obtain ⟨p, -, hm⟩ := mem_ladder.mp hj
      unfold View.offer
      rw [hdata, if_neg (fun he : j = i => hi (he ▸ ⟨s, p, hm⟩))]
    have hopp : W.offers cfg side.opp = (V.swept cfg none d).offers cfg side.opp := by
      refine View.offers_congr (funext (fun p => ?_)) (hold _)
      rw [hqueues, if_neg (fun hc => Side.opp_ne side hc.1), List.append_nil]
    have hplace : W.offers cfg side = (V.offers cfg side).orderedInsert (Offer.Better side)
        ⟨id, price, qty - traded (V.takes cfg d)⟩ := by
      have hmem : i ∈ W.queues side price := by
        rw [hqueues, if_pos ⟨rfl, rfl⟩]
        exact List.mem_append_right _ List.mem_cons_self
      have hself : W.offer i = ⟨id, price, qty - traded (V.takes cfg d)⟩ := by
        unfold View.offer
        rw [hdata, if_pos rfl, hx, hd]
        rfl
      rw [View.offers_insert (q := (V.swept cfg none d).queues side) (hA.mem.shape.mem_plan hmem).1
        (fun p => by simpa using hqueues side p) (fun p j hj => ?_) (hA.mem.mem_queue hmem).2, hself, ← hown]
      · congr 1
        exact List.map_congr_left (hold side)
      · refine (hA.mem.mem_queue (s := side) ?_).2
        rw [hqueues]
        exact List.mem_append_left _ hj
    have hsize := View.size_add_free hA side
    rw [hplace, List.orderedInsert_length] at hsize
    rw [shown_eq hA,
      TextBook.arrive_rest (F := W.offers cfg) hcross hopp hlimit (by omega) (by dsimp only; omega) hplace, htr, hevents]
  · have hend : ¬ (type = .market ∨ traded (V.takes cfg d) = qty) := by
      rintro (h1 | h1)
      · rw [hlimit] at h1
        cases h1
      · omega
    obtain ⟨hnil, hfree, rfl⟩ := processOrder_full h hcap hd hval hok hend
    have hsw : V.swept cfg none d = V := View.swept_of_takes_nil (by rw [hqty]; exact hq0) hnil
    rw [hsw] at hcross hfree
    have hsize := View.size_add_free h side
    rw [hfree, List.length_nil] at hsize
    rw [shown_eq h, TextBook.arrive_stay (F := V.offers cfg) hcross rfl (by dsimp only; omega) rfl, hevents, ← htr]

/-- The textbook's search for an order that rests. -/
theorem step_modifyPrice (h : e.book.Abs cfg V) {i : ℕ} (hi : V.queues.Resting i) {newPrice : ℤ} (h0 : newPrice ≠ 0)
    (ts : List TradeEvent) : (⟨V.offers cfg, ts⟩ : TextBook).step cfg (.modifyPrice (V.data i).id newPrice) =
      (⟨V.offers cfg, ts⟩ : TextBook).reprice cfg.maxOrders (V.data i).id newPrice (V.data i).side
        (some (V.offer i)) := by
  have hfind := View.find_offers h hi ts
  have hother : ∀ s, s ≠ (V.data i).side → (⟨V.offers cfg, ts⟩ : TextBook).find s (V.data i).id = none := by
    intro s hs
    refine View.find_offers_none h (fun j hj hid hside => ?_) ts
    rw [h.id_inj hj hi hid] at hside
    exact hs hside.symm
  unfold TextBook.step
  dsimp only
  rw [if_neg h0]
  cases hs : (V.data i).side with
  | bid =>
    rw [hs] at hfind
    rw [hfind, Option.isSome_some, if_pos rfl]
  | ask =>
    rw [hs] at hfind
    rw [hother .bid (by rw [hs]; decide), hfind, Option.isSome_none, if_neg (by decide)]

theorem step_modifyPrice_idle (h : e.book.Abs cfg V) {newPrice : ℤ} (hidle : newPrice = 0 ∨
    ∀ i, V.queues.Resting i → (V.data i).id = id → (V.data i).price = newPrice) (ts : List TradeEvent) :
    (⟨V.offers cfg, ts⟩ : TextBook).step cfg (.modifyPrice id newPrice) = ⟨V.offers cfg, ts⟩ := by
  by_cases h0 : newPrice = 0
  · exact if_pos h0
  by_cases hlive : ∃ i, V.queues.Resting i ∧ (V.data i).id = id
  · obtain ⟨i, hi, rfl⟩ := hlive
    rw [step_modifyPrice h hi h0]
    unfold TextBook.reprice
    dsimp only
    exact if_pos (hidle.resolve_left h0 i hi rfl)
  · have hnone : ∀ s, (⟨V.offers cfg, ts⟩ : TextBook).find s id = none :=
      fun s => View.find_offers_none h (fun i hi hid _ => hlive ⟨i, hi, hid⟩) ts
    unfold TextBook.step
    dsimp only
    rw [if_neg h0, hnone, hnone, Option.isSome_none, if_neg (by decide)]
    rfl

/-- **A new price**: the order leaves the textbook book and arrives in it anew. -/
theorem shown_requote (h : e.book.Abs cfg V) (hs : V.Sound) (hseq : e.Sequenced) {i : ℕ} {newPrice : ℤ}
    (hmv : V.Movable cfg i newPrice d) (hres : V.queues.Resting i) (hin : V.InReach cfg d)
    (hA : e'.book.Abs cfg (V.requote cfg i newPrice))
    (htr : e'.trades = e.trades ++ events V.data (V.data i).id d.side e.seqGen (V.takes cfg d)) :
    e'.shown cfg = ((e.shown cfg).remove (V.data i).id).arrive cfg.maxOrders (V.data i).id .limit (V.data i).side
      newPrice (V.data i).qty := by
  obtain ⟨W, hW⟩ : ∃ W, W = V.requote cfg i newPrice := ⟨_, rfl⟩
  obtain ⟨T, hT⟩ : ∃ T, T = (e.shown cfg).remove (V.data i).id := ⟨_, rfl⟩
  have hside : d.side = (V.data i).side := hmv.side_eq
  have hqty : d.qty = (V.data i).qty := by rw [hmv.data]
  have hprice : d.price = newPrice := by rw [hmv.data]
  have htype : d.type = .limit := by
    rw [hmv.data]
    exact (h.orders i hres).1
  have hsd : d.Sound := by
    rw [hmv.data]
    exact hs i hres
  have htrades : T.trades = e.trades := by rw [hT]; rfl
  have hoffers : ∀ s, T.offers s = ((V.orders cfg s).filter (fun j => j ≠ i)).map V.offer := by
    intro s
    rw [hT, shown_eq h, View.map_offer_filter h hres]
    rfl
  rw [← hside, ← hqty, ← hT]
  -- the other side
  have hnot : ∀ j ∈ V.orders cfg d.side.opp, j ≠ i := by
    rintro j hj rfl
    exact Side.opp_ne d.side ((h.mem_orders.mp hj).2.symm.trans hside.symm)
  have hopp : T.offers d.side.opp = V.offers cfg d.side.opp := by
    rw [hoffers, List.filter_eq_self.mpr (fun j hj => decide_eq_true (hnot j hj))]
    rfl
  have hcross : cross (accepts .limit d.side newPrice) (T.offers d.side.opp) d.qty =
      (bargains V.offer (V.takes cfg d), W.offers cfg d.side.opp, d.qty - traded (V.takes cfg d)) := by
    rw [hopp, ← htype, ← hprice]
    refine View.cross_offers h hsd.1.le hin (fun p => ?_) (fun j x hx => ?_) (fun j hj hno => ?_)
    · rw [hW, hmv.queues_requote, if_neg (fun hc => Side.opp_ne d.side hc.1), List.append_nil]
      refine List.filter_congr (fun j hj => ?_)
      have hji := hnot j (h.mem_orders.mpr ⟨⟨_, p, hj⟩, (h.mem.mem_queue hj).1⟩)
      simp [hji]
    · rw [hW]
      exact hmv.data_maker hx
    · rw [hW]
      exact hmv.data_other hno (hnot j hj)
  -- its own side
  have hqueues : ∀ p, W.queues d.side p = (V.queues d.side p).filter (fun j => j ≠ i) ++
      if p = newPrice ∧ ¬ V.Spent cfg d then [i] else [] := by
    intro p
    rw [hW, hmv.queues_requote]
    congr 1
    · refine List.filter_congr (fun j hj => ?_)
      have hno := View.not_taken (d := d) h (h.mem_orders.mpr ⟨⟨_, p, hj⟩, (h.mem.mem_queue hj).1⟩)
      simp [hno]
    · simp
  have hold : ∀ j ∈ (V.orders cfg d.side).filter (fun j => j ≠ i), W.offer j = V.offer j := by
    intro j hj
    obtain ⟨hj, hne⟩ := List.mem_filter.mp hj
    unfold View.offer
    rw [hW, hmv.data_other (View.not_taken h hj) (of_decide_eq_true hne)]
  have hfiltered : T.offers d.side = ((V.orders cfg d.side).filter (fun j => j ≠ i)).map W.offer := by
    rw [hoffers]
    exact (List.map_congr_left hold).symm
  have hevents := tape_shown V hseq (V.takes cfg d) (V.data i).id d.side
  rw [← hW] at hA
  have hle := (View.traded_takes (d := d) h hsd.1.le).2
  rw [shown_eq hA]
  by_cases hspent : V.Spent cfg d
  · have hall := (View.spent_iff h hsd).mp hspent
    rw [TextBook.arrive_stay (F := W.offers cfg) hcross rfl (fun hc => by have := hc.2.1; omega) ?_, htrades, hevents,
      htr]
    rw [hfiltered, View.offers, View.orders_filter (f := fun j => decide (j ≠ i)) (V := V) (fun p => ?_)]
    rw [hqueues, if_neg (fun hc => hc.2 hspent), List.append_nil]
  · have hleft : 0 < d.qty - traded (V.takes cfg d) := by
      have := mt (View.spent_iff h hsd).mpr hspent
      omega
    have hself : W.offer i = ⟨(V.data i).id, newPrice, d.qty - traded (V.takes cfg d)⟩ := by
      unfold View.offer
      rw [hW, hmv.data_self, View.taken_eq h hsd, hprice, hmv.data]
    have hplace : W.offers cfg d.side = (T.offers d.side).orderedInsert (Offer.Better d.side)
        ⟨(V.data i).id, newPrice, d.qty - traded (V.takes cfg d)⟩ := by
      rw [View.offers_insert (q := fun p => (V.queues d.side p).filter (fun j => j ≠ i)) hmv.plan
        (fun p => by simpa [hspent] using hqueues p) (fun p j hj => ?_) ?_, hself, hfiltered]
      · congr 2
        unfold ladder View.orders ladder
        rw [List.filter_flatMap]
      · exact congrArg Offer.price hself
      · refine (hA.mem.mem_queue (s := d.side) ?_).2
        rw [hqueues]
        exact List.mem_append_left _ hj
    have hsize := View.size_add_free hA d.side
    rw [hplace, List.orderedInsert_length] at hsize
    rw [TextBook.arrive_rest (F := W.offers cfg) hcross rfl rfl hleft (by omega) hplace, htrades, hevents, htr]

theorem shown_modifyPrice (h : e.book.Abs cfg V) (hs : V.Sound) (hseq : e.Sequenced) {newPrice : ℤ}
    (hfits : cfg.Fits newPrice) (hin : ∀ i, V.queues.Resting i → (V.data i).id = id → (V.data i).price ≠ newPrice →
      V.InReach cfg { V.data i with price := newPrice })
    (hok : modifyOrderPrice cfg e id newPrice = .ok (st, e')) :
    e'.shown cfg = (e.shown cfg).step cfg (.modifyPrice id newPrice) := by
  obtain ⟨rfl, -, hidle⟩ | ⟨i, d, hi, rfl, hne, h0, ⟨b, hb⟩, hplan, hd, -⟩ := modifyOrderPrice_status h hs hfits hok
  · rw [shown_eq h, step_modifyPrice_idle h hidle]
  obtain ⟨hno, -⟩ | ⟨j, d', hj, hid, -, -, -, rfl, hA, htr, -⟩ := modifyOrderPrice_spec h hfits hok
  · exact absurd hb (hno _ _)
  obtain rfl := h.id_inj hj hi hid
  rw [← hd] at htr
  have hmv := h.movable hi hplan hd
  rw [shown_requote h hs hseq hmv hi (by rw [hd]; exact hin j hi rfl hne) hA htr, shown_eq h, step_modifyPrice h hi h0]
  unfold TextBook.reprice
  dsimp only
  exact (if_neg hne).symm

/-- **A cancel.** -/
theorem shown_cancel (h : e.book.Abs cfg V) (hok : cancelOrder cfg e id = .ok (st, e')) :
    e'.shown cfg = (e.shown cfg).step cfg (.cancel id) := by
  unfold TextBook.step
  obtain ⟨st', e1, hm, htr, -, ⟨-, rfl, hno⟩ | ⟨-, i, hi, rfl, hA⟩⟩ := cancelOrder_spec h id
  all_goals
    rw [hm] at hok
    cases hok
  · rw [shown_eq h]
    unfold TextBook.remove
    dsimp only
    simp only [View.filter_offers_of_none h hno]
  · rw [shown_eq hA, shown_eq h, htr]
    unfold TextBook.remove
    congr 1
    funext s
    exact View.offers_leave h hi s

/-- **A new quantity.** -/
theorem shown_modifyQuantity (h : e.book.Abs cfg V) {newQty : ℤ} (hqty : 0 ≤ newQty)
    (hok : modifyOrderQuantity cfg e id newQty = .ok (st, e')) :
    e'.shown cfg = (e.shown cfg).step cfg (.modifyQuantity id newQty) := by
  unfold TextBook.step
  obtain ⟨st', e1, hm, htr, -, ⟨-, rfl, hun⟩ | ⟨-, i, hi, rfl, -, h0, hA⟩⟩ := modifyOrderQuantity_spec h id hqty
  all_goals
    rw [hm] at hok
    cases hok
  · rcases hun with rfl | hun
    · exact (if_pos rfl).symm
    · dsimp only
      split_ifs
      · rfl
      rw [shown_eq h]
      unfold TextBook.resize
      congr 1
      funext s
      refine (List.map_id _).symm.trans (List.map_congr_left (fun x hx => ?_))
      obtain ⟨j, hj, rfl⟩ := List.mem_map.mp hx
      split_ifs with hid
      · have hq := hun j (h.mem_orders.mp hj).1 hid
        unfold View.offer
        rw [← hq]
        rfl
      · rfl
  · dsimp only
    rw [shown_eq hA, shown_eq h, htr, if_neg h0]
    unfold TextBook.resize
    congr 1
    funext s
    exact View.offers_resize h hi newQty s

/-! ## Runs -/

/-- The order of the request is in reach of its makers. -/
def Reached (cfg : Config) (e : Engine) : Request → Prop
  | .newOrder id type side price qty => validateOrder cfg (incoming id type side price qty) = true →
    (e.book.view cfg).InReach cfg (requested id type side price qty)
  | .modifyPrice id newPrice => ∀ i ∈ e.book.live cfg, (e.book.order i).id = id → (e.book.order i).price ≠ newPrice →
    (e.book.view cfg).InReach cfg { (e.book.order i).data with price := newPrice }
  | _ => True

instance (e : Engine) : ∀ req : Request, Decidable (e.Reached cfg req)
  | .newOrder _ _ _ _ _ => inferInstanceAs (Decidable (_ → _))
  | .modifyPrice _ _ => inferInstanceAs (Decidable (∀ i ∈ e.book.live cfg, _))
  | .modifyQuantity _ _ => inferInstanceAs (Decidable True)
  | .cancel _ => inferInstanceAs (Decidable True)

/-- The condition on a request and the state that it finds: an unreserved id that is not in use, a new quantity in range,
and recorded bests that let the matching loop reach enough (`View.InReach`). -/
def Fair (cfg : Config) (e : Engine) (req : Request) : Prop :=
  e.Admissible cfg req ∧ e.Distinct cfg req ∧ e.Sized cfg req ∧ e.Reached cfg req

instance (e : Engine) (req : Request) : Decidable (e.Fair cfg req) := inferInstanceAs (Decidable (_ ∧ _ ∧ _ ∧ _))

/-- What a run keeps. -/
structure Legible (cfg : Config) (e : Engine) : Prop where
  abs : e.book.Abs cfg (e.book.view cfg)
  sound : (e.book.view cfg).Sound
  sequenced : e.Sequenced
  capacity : e.book.idMap.capacity = OrderIdMap.tableSize cfg.maxOrders

theorem legible_new (cfg : Config) : (Engine.new cfg).Legible cfg := by
  have h0 := OrderBook.abs_new cfg
  exact ⟨h0.view, View.Sound.view h0 (fun i hi => absurd hi (OrderBook.not_resting_empty i)),
    ⟨fun k t hk => (by cases hk), rfl⟩, rfl⟩

variable {req : Request}

theorem Legible.step (hl : e.Legible cfg) (hreq : e.Fair cfg req) (hstep : Steps cfg e req e') : e'.Legible cfg := by
  obtain ⟨hadm, hdis, hsz, -⟩ := hreq
  obtain ⟨evs, V', hS, hA, htr, hseq⟩ := step_refines hl.abs hadm hstep
  obtain ⟨st, hs⟩ := hstep
  exact ⟨hA.view, View.Sound.view hA (View.sound_step hl.abs hl.sound hS (hsz.view hl.abs)),
    sequenced_step hl.sequenced hl.abs (hdis.view hl.abs) hS htr hseq, slotted_step hl.capacity _ hs⟩

/-- **A request** does to the book what it does to the textbook book. -/
theorem shown_step (hl : e.Legible cfg) (hreq : e.Fair cfg req) (hstep : Steps cfg e req e') :
    e'.shown cfg = (e.shown cfg).step cfg req := by
  obtain ⟨hadm, -, -, hin⟩ := hreq
  obtain ⟨st, hs⟩ := hstep
  have h := hl.abs
  cases req with
  | newOrder id type side price qty =>
    change processOrder cfg e id type side price qty >>= _ = _ at hs
    cases hp : processOrder cfg e id type side price qty with
    | error f => rw [hp] at hs; cases hs
    | ok r =>
      obtain ⟨st', idx, o, e1⟩ := r
      rw [hp] at hs
      cases hs
      refine shown_newOrder h hl.sequenced hl.capacity (fun h1 h2 => ?_) rfl hin hp
      obtain ⟨h3, h4, h5⟩ := hadm h1 h2
      exact ⟨h3, h.find_none h4, h5⟩
  | modifyPrice id newPrice =>
    refine shown_modifyPrice h hl.sound hl.sequenced hadm (fun i hi hid hne => ?_) hs
    rw [← h.mem.data i]
    refine hin i (h.mem_live.mpr hi) ((h.mem.id_eq i).trans hid) ?_
    rw [h.mem.price_eq]
    exact hne
  | modifyQuantity id newQty => exact shown_modifyQuantity h hadm hs
  | cancel id => exact shown_cancel h hs

/-- **The engine is a textbook order book**: in every run with fair requests its resting orders, by price and time, and
its trades, with their numbers, are those of the textbook book after the same requests. -/
theorem refines_textbook {reqs : List Request} (hrun : Run (Steps cfg) (Fair cfg) (.new cfg) reqs e) :
    e.shown cfg = reqs.foldl (TextBook.step cfg) .empty := by
  have h0 : (Engine.new cfg).shown cfg = .empty := by
    rw [shown_eq (OrderBook.abs_new cfg)]
    unfold TextBook.empty View.offers View.orders
    congr 1
    funext s
    rw [List.map_eq_nil_iff]
    exact Bests.flatMap_eq_nil (fun _ _ => rfl)
  rw [← h0]
  exact (hrun.simulates (legible_new cfg) (fun e req e' hl hreq hs => ⟨hl.step hreq hs, shown_step hl hreq hs⟩)).2

/-- Two asks and a bid that takes the first and part of the second; a bid that is queued and moved up to trade. -/
def dealt : List Request :=
  [.newOrder 1 .limit .ask 5 5, .newOrder 2 .limit .ask 6 4, .newOrder 3 .limit .bid 6 7, .newOrder 4 .limit .bid 3 2,
   .modifyPrice 4 6, .newOrder 5 .market .bid 1 9]

theorem refines_textbook_dealt : (afterAll dealt).shown small = dealt.foldl (TextBook.step small) .empty :=
  refines_textbook (run_after (by decide +kernel))

end Engine

end Wirekrak.Flashstrike

import Wirekrak.Flashstrike.Quantities

/-!
# Wirekrak.Flashstrike.Levels — what a price level records

A level records its orders three times: as a linked list, as a bit of its partition, and as their total quantity.

* `LevelsOk`: the three agree, and every allocated order is in the level of its side and price.
* `totals_step`: the total is an `int64`; it is exact after a step that leaves the quantity of a level in range.
* `levels_ok`: `LevelsOk` in every state of a run with such steps.
-/

namespace Wirekrak.Flashstrike

open Wirekrak.Lib Engine

/-! ## Sums -/

theorem sum_filter_le {L : List ℕ} {P : ℕ → Bool} {f g : ℕ → ℤ} (h0 : ∀ j ∈ L, 0 ≤ g j)
    (hle : ∀ j ∈ L, P j = true → f j ≤ g j) : ((L.filter P).map f).sum ≤ (L.map g).sum := by
  induction L with
  | nil => exact le_refl _
  | cons a L ih =>
    have ih' := ih (fun j hj => h0 j (List.mem_cons_of_mem a hj)) (fun j hj => hle j (List.mem_cons_of_mem a hj))
    have ha0 := h0 a List.mem_cons_self
    rw [List.map_cons, List.sum_cons, List.filter_cons]
    split_ifs with ha
    · have ha1 := hle a List.mem_cons_self ha
      rw [List.map_cons, List.sum_cons]
      omega
    · omega

namespace View

variable {cfg : Config} {V V' : View} {d : OrderData} {s : Side} {p newPrice : ℤ} {i : ℕ}

/-- What is left of an order when it has taken. -/
def leftover (cfg : Config) (V : View) (d : OrderData) : ℤ :=
  d.qty - if V.Blocked d.side d then 0 else min d.qty (V.quantity (V.reach cfg d.side.opp))

/-- The totals of the plan are exact, and in range. -/
def Totals (cfg : Config) (V : View) : Prop := ∀ s p, cfg.InPlan p → V.slack s p = 0 ∧ V.resting s p < 2 ^ 63

/-- The level an order comes to rest in has room for its quantity. -/
def Fitting (cfg : Config) (V : View) : Request → Prop
  | .newOrder id type side price qty => type = .limit → validateOrder cfg (incoming id type side price qty) = true →
    V.resting side price + V.leftover cfg (requested id type side price qty) < 2 ^ 63
  | .modifyPrice id newPrice => ∀ i, V.queues.Resting i → (V.data i).id = id → (V.data i).price ≠ newPrice →
    V.resting (V.data i).side newPrice + V.leftover cfg { V.data i with price := newPrice } < 2 ^ 63
  | .modifyQuantity id newQty => ∀ i, V.queues.Resting i → (V.data i).id = id →
    V.resting (V.data i).side (V.data i).price - (V.data i).qty + newQty < 2 ^ 63
  | .cancel _ => True

theorem resting_nonneg (hs : V.Sound) (s : Side) (p : ℤ) : 0 ≤ V.resting s p := by
  refine List.sum_nonneg (fun x hx => ?_)
  obtain ⟨i, hi, rfl⟩ := List.mem_map.mp hx
  exact (hs i ⟨s, p, hi⟩).1.le

section Step

variable {b : OrderBook} (h : b.Abs cfg V)

include h

theorem leftover_eq (hq : 0 ≤ d.qty) : V.leftover cfg d = d.qty - traded (V.takes cfg d) := by
  have hnn : ∀ r ∈ V.reach cfg d.side.opp, 0 ≤ (V.data r).qty := fun r hr => (h.orders r (h.mem_reach hr).1).2
  unfold leftover takes makers
  split_ifs with hbl
  · rfl
  · rw [show traded (fills (fun j => (V.data j).qty) ((V.bests d.side.opp).sweepable cfg d.side.opp
      (V.queues d.side.opp)) d.qty) = min d.qty (V.quantity (V.reach cfg d.side.opp)) from traded_eq hnn hq]

/-! ## The quantity of a level -/

/-- Fills do not add to a level. -/
theorem resting_swept_le (hs : V.Sound) (d : OrderData) (s : Side) (p : ℤ) :
    (V.swept cfg none d).resting s p ≤ V.resting s p := by
  have hl := lined_fresh h.weak h.mem.queued d
  unfold resting
  rw [queues_swept hl]
  refine sum_filter_le (fun j hj => (hs j ⟨s, p, hj⟩).1.le) (fun j _ _ => ?_)
  by_cases hm : ∃ x, (j, x) ∈ V.takes cfg d
  · obtain ⟨x, hx⟩ := hm
    have h0 := (takes_nonneg h hx).1
    rw [data_swept_maker hl hx]
    show (V.data j).qty - x ≤ (V.data j).qty
    omega
  · rw [data_swept_other hl (fun x hx => hm ⟨x, hx⟩) (fun hc => by cases hc)]

theorem resting_requote_le (hs : V.Sound) (hmv : V.Movable cfg i newPrice d) (s : Side) (p : ℤ) :
    (V.requote cfg i newPrice).resting s p ≤
      V.resting s p + if s = d.side ∧ p = newPrice then V.leftover cfg d else 0 := by
  have hd : d.Sound := by
    rw [hmv.data]
    exact hs i ⟨_, _, hmv.mem⟩
  have htr := (traded_takes h hd.1.le).2
  unfold resting
  rw [hmv.queues_requote, List.map_append, List.sum_append]
  refine Int.add_le_add (sum_filter_le (fun j hj => (hs j ⟨s, p, hj⟩).1.le) (fun j _ hP => ?_)) ?_
  · rw [decide_eq_true_eq] at hP
    by_cases hm : ∃ x, (j, x) ∈ V.takes cfg d
    · obtain ⟨x, hx⟩ := hm
      have h0 := (takes_nonneg h hx).1
      rw [hmv.data_maker hx]
      show (V.data j).qty - x ≤ (V.data j).qty
      omega
    · rw [hmv.data_other (fun x hx => hm ⟨x, hx⟩) hP.1]
  · rw [leftover_eq h hd.1.le]
    by_cases hsp : s = d.side ∧ p = newPrice
    · rw [if_pos hsp]
      split_ifs
      · rw [List.map_singleton, List.sum_singleton, hmv.data_self, qty_taken]
      · rw [List.map_nil, List.sum_nil]
        omega
    · rw [if_neg hsp, if_neg (fun hc => hsp ⟨hc.1, hc.2.1⟩)]
      exact le_refl _

end Step

/-- A new order adds to its level. -/
theorem resting_enter_eq (hi : ¬ V.queues.Resting i) (rest : List ℕ) (s : Side) (p : ℤ) :
    (V.enter cfg i rest d).resting s p = V.resting s p + if s = d.side ∧ p = d.price then d.qty else 0 := by
  have hold : (V.queues s p).map (fun j => ((V.enter cfg i rest d).data j).qty) =
      (V.queues s p).map (fun j => (V.data j).qty) := by
    refine List.map_congr_left (fun j hj => ?_)
    rw [data_enter, if_neg (fun he : j = i => hi (he ▸ ⟨s, p, hj⟩))]
  unfold resting
  rw [queues_enter, List.map_append, List.sum_append, hold]
  split_ifs
  · rw [List.map_singleton, List.sum_singleton, data_enter, if_pos rfl]
  · rfl

/-- The totals stay exact when an order is moved and has taken: its level is settled. -/
theorem slack_requote {b : OrderBook} (h : b.Abs cfg V) (hs : V.Sound) (hmv : V.Movable cfg i newPrice d) (s : Side)
    (p : ℤ) : (V.requote cfg i newPrice).slack s p = V.slack s p := by
  obtain ⟨W, hW⟩ : ∃ W, W = (V.reprice cfg i newPrice).swept cfg (some i) d := ⟨_, rfl⟩
  have hd : d.Sound := by
    rw [hmv.data]
    exact hs i ⟨_, _, hmv.mem⟩
  have hprice : d.price = newPrice := by rw [hmv.data]
  have hU : (V.reprice cfg i newPrice).slack = V.slack := by
    obtain ⟨g, hg⟩ := reprice_eq cfg V i newPrice
    rw [hg]
    rfl
  have hslack : ∀ s p, W.slack s p = V.slack s p +
      if s = d.side ∧ p = newPrice then traded (V.takes cfg d) else 0 := by
    intro s p
    rw [hW, slack_swept hmv.lined]
    dsimp only
    rw [hmv.data_reprice_self, hprice, hU, hmv.takes_eq]
  have hsettled : (W.addSlack d.side newPrice (-traded (V.takes cfg d))).slack s p = V.slack s p := by
    unfold addSlack
    dsimp only
    split_ifs with hsp
    · rw [hslack, if_pos ⟨rfl, rfl⟩, hsp.1, hsp.2]
      omega
    · rw [hslack, if_neg hsp, Int.add_zero]
  rw [hmv.requote_eq hW rfl]
  split_ifs with hnone hzero
  · -- nothing was traded
    have hz : traded (V.takes cfg d) = 0 := by
      rcases hnone with hbl | hf
      · unfold takes makers
        rw [if_pos hbl]
        rfl
      · have h0 := (traded_takes h hd.1.le).1
        have hf0 := hd.2.1
        rw [taken_eq h hd] at hf
        dsimp only at hf
        omega
    rw [hslack, hz, ite_self, Int.add_zero]
  · exact hsettled
  · exact hsettled

/-- **Totals stay exact**, if the level an order comes to rest in has room for it. -/
theorem totals_step {b : OrderBook} (h : b.Abs cfg V) {n : UInt64} {req : Request} {evs : List TradeEvent}
    {idx : OrderIdx} (hs : V.Sound) (ht : V.Totals cfg) (hS : V.Step cfg n req evs idx V')
    (hfit : V.Fitting cfg req) : V'.Totals cfg := by
  have hswept : ∀ d : OrderData, (V.swept cfg none d).Totals cfg := by
    intro d s p hp
    have hle := resting_swept_le h hs d s p
    obtain ⟨h1, h2⟩ := ht s p hp
    refine ⟨?_, by omega⟩
    rw [slack_swept (lined_fresh h.weak h.mem.queued d), h1]
    rfl
  cases hS with
  | idle _ => exact ht
  | done hd hval hend => exact hswept _
  | rest hd hval hnew hlt hfree hi =>
    rename_i id side price qty d i rest
    intro s p hp
    refine ⟨(hswept d s p hp).1, ?_⟩
    rw [resting_enter_eq hi]
    have hle := resting_swept_le h hs d s p
    split_ifs with hsp
    · have hq0 := (qty_of_valid hval).1
      have hroom := hfit rfl hval
      rw [← hd, leftover_eq h (by rw [hd]; exact hq0.le)] at hroom
      have hq : d.qty = qty := by rw [hd]; rfl
      have hside : s = side := hsp.1.trans (by rw [hd]; rfl)
      have hprice : p = price := hsp.2.trans (by rw [hd]; rfl)
      subst hside hprice
      show (V.swept cfg none d).resting s p + (qty - traded (V.takes cfg d)) < 2 ^ 63
      omega
    · have := (ht s p hp).2
      omega
  | lost hd hval hlt hi =>
    rename_i d i f
    intro s p hp
    have hsame : ((V.swept cfg none d).setData i f).resting s p = (V.swept cfg none d).resting s p := by
      unfold resting
      congr 1
      refine List.map_congr_left (fun j hj => ?_)
      rw [data_setData, if_neg (fun he : j = i => hi (he ▸ ⟨s, p, hj⟩))]
    rw [hsame]
    exact hswept d s p hp
  | reprice hi hid hne hplan hd =>
    rename_i id newPrice i d
    have hmv := h.movable hi hplan hd
    intro s p hp
    refine ⟨(slack_requote h hs hmv s p).trans (ht s p hp).1, ?_⟩
    have hle := resting_requote_le h hs hmv s p
    have hlt := (ht s p hp).2
    split_ifs at hle with hsp
    · have hroom := hfit i hi hid hne
      rw [← hd, ← hmv.side_eq, ← hsp.1, ← hsp.2] at hroom
      omega
    · omega
  | resize hi hid hne hq =>
    rename_i id newQty i
    intro s p hp
    refine ⟨(ht s p hp).1, ?_⟩
    by_cases hm : i ∈ V.queues s p
    · obtain ⟨hside, hprice⟩ := h.mem.mem_queue hm
      have hsum := sum_map_update (h.mem.queued.nodup s p) hm (fun j => (V.data j).qty)
        (fun j => ((V.setData i (fun d => { d with qty := newQty })).data j).qty)
        (fun j hj => by rw [data_setData, if_neg hj])
      rw [data_setData_self] at hsum
      have hroom := hfit i hi hid
      rw [hside, hprice] at hroom
      unfold resting at hroom ⊢
      dsimp only at hsum
      show ((V.queues s p).map _).sum < 2 ^ 63
      omega
    · have hsame : (V.setData i (fun d => { d with qty := newQty })).resting s p = V.resting s p := by
        unfold resting
        congr 1
        refine List.map_congr_left (fun j hj => ?_)
        rw [data_setData, if_neg (fun he : j = i => hm (he ▸ hj))]
      rw [hsame]
      exact (ht s p hp).2
  | cancel hi hid =>
    rename_i i
    intro s p hp
    refine ⟨(ht s p hp).1, ?_⟩
    have hle : (V.leave cfg i).resting s p ≤ V.resting s p := by
      unfold resting
      rw [queues_leave h.mem.queued (h.mem_queues hi)]
      exact sum_filter_le (fun j hj => (hs j ⟨s, p, hj⟩).1.le) (fun j _ _ => le_refl _)
    have := (ht s p hp).2
    omega

theorem Totals.view {b : OrderBook} (h : b.Abs cfg V) (hs : V.Sound) (ht : V.Totals cfg) :
    (b.view cfg).Totals cfg := by
  intro s p hp
  obtain ⟨h1, h2⟩ := ht s p hp
  rw [h.view_eq]
  refine ⟨?_, h2⟩
  show b.totalAt cfg s p - V.resting s p = 0
  rw [h.mem.totals s p hp, h1, Int.add_zero, wrap64_of_lt (resting_nonneg hs s p) h2, Int.sub_self]

end View

/-! ## The levels of a book -/

namespace OrderBook

variable (cfg : Config)

/-- The levels of the held partitions record their orders, and every allocated order is in its level. -/
structure LevelsOk (b : OrderBook) : Prop where
  list : ∀ s pid k off, b.held s pid = some k → off < cfg.partitionSize →
    Dll b.nexts b.prevs (b.level k off).headIdx (b.level k off).tailIdx (b.queueAt cfg s (cfg.priceOf pid off)) ∧
      (b.queueAt cfg s (cfg.priceOf pid off)).Nodup
  total : ∀ s pid k off, b.held s pid = some k → off < cfg.partitionSize → (b.level k off).totalQty =
      ((b.queueAt cfg s (cfg.priceOf pid off)).map (fun i => (b.order i).qty)).sum ∧ 0 ≤ (b.level k off).totalQty
  bit : ∀ s pid k off, b.held s pid = some k → off < cfg.partitionSize →
    ((b.partition k).bitmap.test off = true ↔ b.queueAt cfg s (cfg.priceOf pid off) ≠ [])
  home : ∀ i, i < cfg.maxOrders → i ∉ b.freeIndices cfg →
    ∀ s p, i ∈ b.queueAt cfg s p ↔ s = (b.order i).side ∧ p = (b.order i).price

variable {cfg} {b : OrderBook}

theorem levelsOk_of_totals (h : b.Abs cfg (b.view cfg)) (hs : (b.view cfg).Sound) (ht : (b.view cfg).Totals cfg) :
    b.LevelsOk cfg := by
  refine ⟨fun s pid k off hk ho => ?_, fun s pid k off hk ho => ?_, fun s pid k off hk ho => ?_,
    fun i hi hfree s p => ?_⟩
  · exact ⟨(h.mem.shape.level s pid k off hk ho).dll, h.mem.queued.nodup _ _⟩
  · have hpid := h.mem.shape.parts.pid_lt s pid k hk
    have hplan := Config.inPlan_priceOf hpid ho
    obtain ⟨h1, h2⟩ := ht s _ hplan
    have htotal := h.mem.totals s _ hplan
    have hk' : b.held s (cfg.partitionId (cfg.priceOf pid off)) = some k := by
      rw [Config.partitionId_priceOf hpid ho]
      exact hk
    rw [totalAt_eq hk', Config.offset_priceOf ho, h1, Int.add_zero, wrap64_of_lt (View.resting_nonneg hs s _) h2]
      at htotal
    rw [htotal]
    exact ⟨rfl, View.resting_nonneg hs s _⟩
  · exact (h.mem.shape.level s pid k off hk ho).bit
  · have hr : (b.view cfg).queues.Resting i := ((h.index i).mp hi).resolve_left hfree
    constructor
    · intro hm
      obtain ⟨h1, h2⟩ := h.mem.mem_queue hm
      exact ⟨h1.symm, h2.symm⟩
    · rintro ⟨rfl, rfl⟩
      exact h.mem_queues hr

end OrderBook

namespace Engine

variable (cfg : Config)

/-- The level an order comes to rest in has room for what is left of it, and a resized order's level for the change. -/
def Fitting (e : Engine) : Request → Prop
  | .newOrder id type side price qty => type = .limit → validateOrder cfg (incoming id type side price qty) = true →
    (e.book.view cfg).resting side price +
      (e.book.view cfg).leftover cfg (requested id type side price qty) < 2 ^ 63
  | .modifyPrice id newPrice => ∀ i ∈ e.book.live cfg, (e.book.order i).id = id → (e.book.order i).price ≠ newPrice →
    (e.book.view cfg).resting (e.book.order i).side newPrice +
      (e.book.view cfg).leftover cfg { (e.book.order i).data with price := newPrice } < 2 ^ 63
  | .modifyQuantity id newQty => ∀ i ∈ e.book.live cfg, (e.book.order i).id = id →
    (e.book.view cfg).resting (e.book.order i).side (e.book.order i).price - (e.book.order i).qty + newQty < 2 ^ 63
  | .cancel _ => True

instance (e : Engine) : ∀ req : Request, Decidable (e.Fitting cfg req)
  | .newOrder _ _ _ _ _ => inferInstanceAs (Decidable (_ → _ → _))
  | .modifyPrice _ _ => inferInstanceAs (Decidable (∀ i ∈ e.book.live cfg, _))
  | .modifyQuantity _ _ => inferInstanceAs (Decidable (∀ i ∈ e.book.live cfg, _))
  | .cancel _ => inferInstanceAs (Decidable True)

variable {cfg} {e : Engine} {reqs : List Request}

theorem Fitting.view {req : Request} (h : e.book.Abs cfg (e.book.view cfg)) (hfit : e.Fitting cfg req) :
    (e.book.view cfg).Fitting cfg req := by
  cases req with
  | newOrder id type side price qty => exact hfit
  | modifyPrice id newPrice => exact fun i hi hid hne => hfit i (h.mem_live.mpr hi) hid hne
  | modifyQuantity id newQty => exact fun i hi hid => hfit i (h.mem_live.mpr hi) hid
  | cancel id => trivial

/-- **The levels of the book are well formed**, in a run whose quantities stay in range. -/
theorem levels_ok (hrun : Run (Steps cfg)
      (fun e req => e.Admissible cfg req ∧ e.Sized cfg req ∧ e.Fitting cfg req) (.new cfg) reqs e) :
    e.book.LevelsOk cfg := by
  obtain ⟨h, hs, ht⟩ := run_invariant (I := fun V => V.Sound ∧ V.Totals cfg) (fun _ _ hreq => hreq.1)
    ⟨fun i hi => absurd hi (OrderBook.not_resting_empty i), fun _ _ _ => ⟨rfl, show (0 : ℤ) < 2 ^ 63 by decide⟩⟩
    (fun b V h hI => ⟨hI.1.view h, hI.2.view h hI.1⟩)
    (fun e req V evs idx V' h hV hreq hI hS => by
      obtain ⟨-, hsz, hfit⟩ := hreq
      subst hV
      exact ⟨View.sound_step h hI.1 hS (hsz.view h), View.totals_step h hI.1 hI.2 hS (hfit.view h)⟩) hrun
  exact OrderBook.levelsOk_of_totals h hs ht

/-- Orders at one price, resized, moved and matched. -/
def reworked : List Request :=
  [.newOrder 1 .limit .bid 2 5, .newOrder 2 .limit .bid 2 6, .modifyQuantity 1 9, .newOrder 3 .limit .ask 5 4,
   .modifyPrice 2 5, .cancel 1]

theorem levels_ok_reworked : (afterAll reworked).book.LevelsOk small := levels_ok (run_after (by decide +kernel))

/-- Two bids at one price; one is resized to the largest quantity. -/
def oversized : List Request :=
  [.newOrder 1 .limit .bid 2 5, .newOrder 2 .limit .bid 2 5, .modifyQuantity 1 (2 ^ 63 - 1)]

/-- The total of the level becomes negative. -/
theorem level_total_overflows :
    Run (Steps small) (Admissible small) (.new small) oversized (afterAll oversized) ∧
    (afterAll oversized).book.held .bid 0 = some 3 ∧
    ((afterAll oversized).book.level 3 2).totalQty < 0 ∧
    ((afterAll oversized).book.level 3 2).totalQty ≠ (((afterAll oversized).book.queueAt small .bid 2).map
      (fun i => ((afterAll oversized).book.order i).qty)).sum :=
  ⟨run_after (by decide +kernel), by decide +kernel, by decide +kernel, by decide +kernel⟩

end Engine

end Wirekrak.Flashstrike

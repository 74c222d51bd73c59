import Wirekrak.Flashstrike.System

/-!
# Wirekrak.Flashstrike.Effects — queues and orders after a step of the view

Closed forms of the queues and of the order data after the parts of a step.

* `queues_swept`, `data_swept_maker`, `data_swept_other`: an order has taken from its makers.
* `queues_enter`, `data_enter`: a new order rests.
* `queues_requote`, `data_requote`, `data_requote_self`: an order has a new price and has taken from its makers.
* `Step.stays`: an order rests until it is cancelled or filled.
-/

namespace Wirekrak.Flashstrike

open Wirekrak.Lib Engine

namespace View

variable {cfg : Config} {V : View} {s : Side} {p newPrice : ℤ} {i j : ℕ} {d : OrderData} {taker : Option ℕ}

/-! ## An order takes -/

section Swept

variable (hl : Lined V d.side taker (V.makers cfg d.side d))

include hl

theorem queues_swept (s : Side) (p : ℤ) : (V.swept cfg taker d).queues s p =
    (V.queues s p).filter (fun j => ¬ (j, (V.data j).qty) ∈ V.takes cfg d) := queues_sweep hl s p

theorem resting_swept_iff : (V.swept cfg taker d).queues.Resting j ↔
    V.queues.Resting j ∧ (j, (V.data j).qty) ∉ V.takes cfg d := by
  constructor
  · rintro ⟨s, p, hm⟩
    rw [queues_swept hl, List.mem_filter, decide_eq_true_eq] at hm
    exact ⟨⟨s, p, hm.1⟩, hm.2⟩
  · rintro ⟨⟨s, p, hm⟩, hno⟩
    refine ⟨s, p, ?_⟩
    rw [queues_swept hl, List.mem_filter, decide_eq_true_eq]
    exact ⟨hm, hno⟩

theorem data_swept_maker {x : ℤ} (hj : (j, x) ∈ V.takes cfg d) :
    (V.swept cfg taker d).data j = OrderData.fill x (V.data j) := data_sweep_maker hl hj

theorem data_swept_other (hj : ∀ x, (j, x) ∉ V.takes cfg d) (ht : taker ≠ some j) :
    (V.swept cfg taker d).data j = V.data j := by
  refine data_sweep_other hl (fun hm => ?_) ht
  obtain ⟨f, hf, rfl⟩ := List.mem_map.mp hm
  exact hj f.2 hf

/-- The level of an order that takes does not know yet what it has paid. -/
theorem slack_swept (s : Side) (p : ℤ) : (V.swept cfg taker d).slack s p = V.slack s p + match taker with
    | none => 0
    | some i => if s = (V.data i).side ∧ p = (V.data i).price then traded (V.takes cfg d) else 0 := by
  cases taker with
  | none => exact slack_sweep hl s p
  | some i => exact slack_sweep hl s p

theorem queued_swept : (V.swept cfg taker d).Queued := by
  refine sweep_invariant (P := Queued) (fun W r t hr hq hW _ => ?_) hl hl.queued
  obtain ⟨p, hp⟩ := hW
  exact hq.round hp (hl.ne r hr)

/-- The makers rest on the other side. -/
theorem resting_of_takes {x : ℤ} (hj : (j, x) ∈ V.takes cfg d) :
    V.queues.Resting j ∧ (V.data j).side = d.side.opp ∧ taker ≠ some j := by
  have hm : j ∈ V.makers cfg d.side d := fills_mem hj
  obtain ⟨p, hp⟩ := hl.rest j hm
  exact ⟨⟨_, p, hp⟩, (hl.queued.member _ _ _ hp).1, hl.ne j hm⟩

/-- A maker is taken from once. -/
theorem takes_unique {x y : ℤ} (hx : (j, x) ∈ V.takes cfg d) (hy : (j, y) ∈ V.takes cfg d) : x = y := by
  have hnd : ((V.takes cfg d).map Prod.fst).Nodup := hl.nodup.sublist (fills_makers _ _ _).sublist
  have := List.inj_on_of_nodup_map hnd hx hy rfl
  exact (Prod.mk.inj this).2

end Swept

/-! ## A new order rests -/

theorem queues_enter (rest : List ℕ) (s : Side) (p : ℤ) : (V.enter cfg i rest d).queues s p =
    V.queues s p ++ if s = d.side ∧ p = d.price then [i] else [] := by
  have hd : (({ V with free := rest } : View).setData i (fun _ => d)).data i = d := data_setData_self _ _ _
  show ((({ V with free := rest } : View).setData i (fun _ => d)).link i).queues s p = _
  rw [queues_link (by rw [hd]) (by rw [hd])]
  split_ifs with hsp
  · rw [hsp.1, hsp.2, Queues.set_self]
    rfl
  · rw [Queues.set_of_ne hsp, List.append_nil]
    rfl

theorem resting_enter (rest : List ℕ) : (V.enter cfg i rest d).queues.Resting j ↔ V.queues.Resting j ∨ j = i := by
  constructor
  · rintro ⟨s, p, hm⟩
    rw [queues_enter, List.mem_append] at hm
    rcases hm with hm | hm
    · exact Or.inl ⟨s, p, hm⟩
    · split_ifs at hm
      · exact Or.inr (List.mem_singleton.mp hm)
      · exact absurd hm List.not_mem_nil
  · rintro (⟨s, p, hm⟩ | rfl)
    · refine ⟨s, p, ?_⟩
      rw [queues_enter]
      exact List.mem_append_left _ hm
    · refine ⟨d.side, d.price, ?_⟩
      rw [queues_enter, if_pos ⟨rfl, rfl⟩]
      exact List.mem_append_right _ (List.mem_singleton.mpr rfl)

theorem data_enter (rest : List ℕ) : (V.enter cfg i rest d).data j = if j = i then d else V.data j :=
  data_setData _ i j (fun _ => d)

theorem resting_leave (h : V.Queued) (hi : i ∈ V.queues s p) :
    (V.leave cfg i).queues.Resting j ↔ V.queues.Resting j ∧ j ≠ i := resting_unlink h hi

/-! ## An order is moved and takes -/

/-- A moved order leaves its queue and is the last at the new price. -/
theorem queues_move (h : V.Queued) (hi : i ∈ V.queues (V.data i).side (V.data i).price) (s : Side) (p : ℤ) :
    (V.move i newPrice).queues s p = (V.queues s p).filter (fun j => j ≠ i) ++
      if s = (V.data i).side ∧ p = newPrice then [i] else [] := by
  have hd : ((V.unlink i).setPrice i newPrice).data i = { V.data i with price := newPrice } := data_setData_self _ _ _
  have hgone := queues_unlink_eq h hi
  unfold move
  rw [queues_link (by rw [hd]) (by rw [hd])]
  dsimp only
  split_ifs with hsp
  · rw [hsp.1, hsp.2, Queues.set_self, ← hgone]
    rfl
  · rw [Queues.set_of_ne hsp, List.append_nil, ← hgone]
    rfl

theorem queued_reprice (h : V.Queued) (hi : i ∈ V.queues (V.data i).side (V.data i).price) :
    (V.reprice cfg i newPrice).Queued := by
  refine ⟨fun s p j hj => ?_, fun s p => ?_⟩
  · rw [queues_reprice, queues_move h hi, List.mem_append] at hj
    rw [data_reprice]
    rcases hj with hj | hj
    · obtain ⟨hj, hne⟩ := List.mem_filter.mp hj
      rw [decide_eq_true_eq] at hne
      rw [if_neg hne]
      exact h.member s p j hj
    · split_ifs at hj with hsp
      · rw [if_pos (List.mem_singleton.mp hj)]
        exact ⟨hsp.1.symm, hsp.2.symm⟩
      · exact absurd hj List.not_mem_nil
  · rw [queues_reprice, queues_move h hi, List.nodup_append]
    refine ⟨(h.nodup s p).filter _, by split_ifs <;> simp, fun a ha b hb => ?_⟩
    obtain ⟨-, hne⟩ := List.mem_filter.mp ha
    rw [decide_eq_true_eq] at hne
    split_ifs at hb
    · rw [List.mem_singleton.mp hb]
      exact hne
    · exact absurd hb List.not_mem_nil

/-- The data of an order when it has taken. -/
def taken (cfg : Config) (V : View) (d : OrderData) : OrderData := (V.takes cfg d).foldl (fun d f => d.fill f.2) d

/-- An order that is removed when it has taken. -/
def Spent (cfg : Config) (V : View) (d : OrderData) : Prop :=
  ¬ V.Blocked d.side d ∧ 0 < (V.taken cfg d).filled ∧ (V.taken cfg d).qty = 0

instance (cfg : Config) (V : View) (d : OrderData) : Decidable (V.Spent cfg d) := inferInstanceAs (Decidable (_ ∧ _))

theorem qty_taken (V : View) (d : OrderData) : (V.taken cfg d).qty = d.qty - traded (V.takes cfg d) :=
  qty_foldl_fill d _

/-- The order at `i` can be moved to a new price, and is then `d`. -/
structure Movable (cfg : Config) (V : View) (i : ℕ) (newPrice : ℤ) (d : OrderData) : Prop where
  weak : V.Weak cfg
  queued : V.Queued
  mem : i ∈ V.queues (V.data i).side (V.data i).price
  plan : cfg.InPlan newPrice
  data : d = { V.data i with price := newPrice }

namespace Movable

variable (h : V.Movable cfg i newPrice d)

include h

theorem side_eq : d.side = (V.data i).side := by rw [h.data]

theorem data_reprice_self : (V.reprice cfg i newPrice).data i = d := by rw [data_reprice, if_pos rfl, h.data]

/-- The makers of a moved order. -/
theorem lined : Lined (V.reprice cfg i newPrice) d.side (some i) ((V.reprice cfg i newPrice).makers cfg d.side d) := by
  have hres : (V.reprice cfg i newPrice).queues.Resting i := by
    rw [queues_reprice]
    exact (resting_move h.queued h.mem).mpr ⟨_, _, h.mem⟩
  have hl := lined_resting (weak_reprice h.weak rfl rfl h.mem h.plan) (queued_reprice h.queued h.mem) hres
  rw [h.data_reprice_self] at hl
  exact hl

theorem takes_eq : (V.reprice cfg i newPrice).takes cfg d = V.takes cfg d := takes_reprice h.side_eq newPrice

/-- What has been taken is not taken from the order itself. -/
theorem takes_ne {x : ℤ} (hj : (j, x) ∈ V.takes cfg d) : j ≠ i := by
  rw [← h.takes_eq] at hj
  exact fun he => (resting_of_takes h.lined hj).2.2 (by rw [he])

/-- The order as the sweep leaves it. -/
theorem data_swept_self : ((V.reprice cfg i newPrice).swept cfg (some i) d).data i = V.taken cfg d := by
  have hs : ((V.reprice cfg i newPrice).swept cfg (some i) d).data i =
      ((V.reprice cfg i newPrice).takes cfg d).foldl (fun d f => d.fill f.2) ((V.reprice cfg i newPrice).data i) :=
    data_sweep_taker h.lined
  rw [hs, h.takes_eq, h.data_reprice_self]
  rfl

theorem requote_eq {W W1 : View} (hW : W = (V.reprice cfg i newPrice).swept cfg (some i) d)
    (hW1 : W1 = W.addSlack d.side newPrice (-traded (V.takes cfg d))) : V.requote cfg i newPrice =
      if V.Blocked d.side d ∨ (V.taken cfg d).filled ≤ 0 then W
      else if (V.taken cfg d).qty = 0 then W1.leave cfg i else W1 := by
  have hprice : d.price = newPrice := by rw [h.data]
  unfold requote settled
  dsimp only
  rw [h.data_reprice_self, h.data_swept_self, h.takes_eq, hprice, ← hW, ← hW1]
  simp only [blocked_reprice h.side_eq]

theorem data_requote : (V.requote cfg i newPrice).data =
    ((V.reprice cfg i newPrice).swept cfg (some i) d).data := by
  rw [h.requote_eq rfl rfl]
  split_ifs <;> rfl

theorem data_self : (V.requote cfg i newPrice).data i = V.taken cfg d := by
  rw [h.data_requote, h.data_swept_self]

theorem data_maker {x : ℤ} (hj : (j, x) ∈ V.takes cfg d) :
    (V.requote cfg i newPrice).data j = OrderData.fill x (V.data j) := by
  have hne := h.takes_ne hj
  rw [← h.takes_eq] at hj
  rw [h.data_requote, data_swept_maker h.lined hj, data_reprice, if_neg hne]

theorem data_other (hj : ∀ x, (j, x) ∉ V.takes cfg d) (hne : j ≠ i) :
    (V.requote cfg i newPrice).data j = V.data j := by
  rw [← h.takes_eq] at hj
  rw [h.data_requote, data_swept_other h.lined hj (fun he => hne (Option.some.inj he).symm), data_reprice, if_neg hne]

theorem queues_swept_eq (s : Side) (p : ℤ) : ((V.reprice cfg i newPrice).swept cfg (some i) d).queues s p =
    (V.queues s p).filter (fun j => j ≠ i ∧ (j, (V.data j).qty) ∉ V.takes cfg d) ++
      if s = d.side ∧ p = newPrice then [i] else [] := by
  have hqty : ∀ j, ((V.reprice cfg i newPrice).data j).qty = (V.data j).qty := by
    intro j
    rw [data_reprice]
    split_ifs with hj
    · rw [hj]
    · rfl
  have hself : ¬ (i, (V.data i).qty) ∈ V.takes cfg d := fun hm => h.takes_ne hm rfl
  rw [queues_swept h.lined, h.takes_eq, queues_reprice, queues_move h.queued h.mem, List.filter_append,
    List.filter_filter, h.side_eq]
  simp only [hqty]
  congr 1
  · refine List.filter_congr (fun j _ => ?_)
    rw [Bool.and_comm]
    exact (Bool.decide_and _ _).symm
  · split_ifs
    · simp [hself]
    · rfl

/-- The order stands at the end of its new queue, unless it is spent; the makers that are used up have left. -/
theorem queues_requote (s : Side) (p : ℤ) : (V.requote cfg i newPrice).queues s p =
    (V.queues s p).filter (fun j => j ≠ i ∧ (j, (V.data j).qty) ∉ V.takes cfg d) ++
      if s = d.side ∧ p = newPrice ∧ ¬ V.Spent cfg d then [i] else [] := by
  obtain ⟨W, hW⟩ : ∃ W, W = (V.reprice cfg i newPrice).swept cfg (some i) d := ⟨_, rfl⟩
  obtain ⟨W1, hW1⟩ : ∃ W1, W1 = W.addSlack d.side newPrice (-traded (V.takes cfg d)) := ⟨_, rfl⟩
  have hq : ∀ s p, W1.queues s p = (V.queues s p).filter (fun j => j ≠ i ∧ (j, (V.data j).qty) ∉ V.takes cfg d) ++
      if s = d.side ∧ p = newPrice then [i] else [] := by
    intro s p
    rw [hW1, ← h.queues_swept_eq, ← hW]
    rfl
  have hWq : W.Queued := by
    rw [hW]
    exact queued_swept h.lined
  rw [h.requote_eq hW hW1]
  by_cases hspent : V.Spent cfg d
  · obtain ⟨h1, h2, h3⟩ := id hspent
    rw [if_neg (fun hc => hc.elim h1 (by omega)), if_pos h3, if_neg (fun hc => hc.2.2 hspent), List.append_nil]
    have hmem : i ∈ W1.queues d.side newPrice := by
      rw [hq, if_pos ⟨rfl, rfl⟩]
      exact List.mem_append_right _ (List.mem_singleton.mpr rfl)
    have hW1q : W1.Queued := by
      rw [hW1]
      exact ⟨hWq.member, hWq.nodup⟩
    have hnil : (if s = d.side ∧ p = newPrice then [i] else []).filter (fun j => decide (j ≠ i)) = [] := by
      split_ifs <;> simp
    rw [queues_leave hW1q hmem, hq, List.filter_append, List.filter_filter, hnil, List.append_nil]
    refine List.filter_congr (fun j _ => ?_)
    by_cases hj : j = i <;> simp [hj]
  · have hif : (if V.Blocked d.side d ∨ (V.taken cfg d).filled ≤ 0 then W
        else if (V.taken cfg d).qty = 0 then W1.leave cfg i else W1).queues = W1.queues := by
      split_ifs with h1 h2
      · rw [hW1]
        rfl
      · rw [not_or, not_le] at h1
        exact absurd ⟨h1.1, h1.2, h2⟩ hspent
      · rfl
    rw [hif, hq]
    simp only [hspent, not_false_eq_true, and_true]

theorem resting_requote : (V.requote cfg i newPrice).queues.Resting j ↔
    (V.queues.Resting j ∧ j ≠ i ∧ (j, (V.data j).qty) ∉ V.takes cfg d) ∨ (j = i ∧ ¬ V.Spent cfg d) := by
  constructor
  · rintro ⟨s, p, hm⟩
    rw [h.queues_requote, List.mem_append] at hm
    rcases hm with hm | hm
    · rw [List.mem_filter, decide_eq_true_eq] at hm
      exact Or.inl ⟨⟨s, p, hm.1⟩, hm.2⟩
    · split_ifs at hm with hc
      · exact Or.inr ⟨List.mem_singleton.mp hm, hc.2.2⟩
      · exact absurd hm List.not_mem_nil
  · rintro (⟨⟨s, p, hm⟩, hno⟩ | ⟨rfl, hns⟩)
    · refine ⟨s, p, ?_⟩
      rw [h.queues_requote]
      refine List.mem_append_left _ (List.mem_filter.mpr ⟨hm, ?_⟩)
      rw [decide_eq_true_eq]
      exact hno
    · refine ⟨d.side, newPrice, ?_⟩
      rw [h.queues_requote, if_pos ⟨rfl, rfl, hns⟩]
      exact List.mem_append_right _ (List.mem_singleton.mpr rfl)

end Movable

end View

theorem OrderBook.Abs.movable {cfg : Config} {b : OrderBook} {V : View} {i : ℕ} {newPrice : ℤ} {d : OrderData}
    (h : b.Abs cfg V) (hi : V.queues.Resting i) (hplan : cfg.InPlan newPrice)
    (hd : d = { V.data i with price := newPrice }) : V.Movable cfg i newPrice d :=
  ⟨h.weak, h.mem.queued, h.mem_queues hi, hplan, hd⟩

/-! ## What the trade events say -/

section Events

variable {data : ℕ → OrderData} {id : OrderId} {s : Side} {n : UInt64} {fs : List (ℕ × ℤ)}

theorem sum_events : ((events data id s n fs).map (fun t => t.qty)).sum = traded fs :=
  congrArg List.sum (map_events (fun _ _ q => q) data id s n fs)

theorem mem_events {j : ℕ} {x : ℤ} (hj : (j, x) ∈ fs) :
    ∃ t ∈ events data id s n fs, t.makerOrderId = (data j).id ∧ t.qty = x := by
  have hm : ((data j).id, x) ∈ fs.map (fun f => ((data f.1).id, f.2)) := List.mem_map.mpr ⟨(j, x), hj, rfl⟩
  rw [← map_events (fun id _ q => (id, q)) data id s n fs] at hm
  obtain ⟨t, ht, he⟩ := List.mem_map.mp hm
  exact ⟨t, ht, (Prod.mk.inj he).1, (Prod.mk.inj he).2⟩

theorem taker_events {t : TradeEvent} (ht : t ∈ events data id s n fs) : t.takerOrderId = id ∧ t.takerSide = s := by
  induction fs generalizing n with
  | nil => exact absurd ht List.not_mem_nil
  | cons f fs ih =>
    rcases List.mem_cons.mp ht with rfl | ht
    · exact ⟨rfl, rfl⟩
    · exact ih ht

end Events

/-! ## How long an order rests -/

namespace View

variable {cfg : Config} {V V' : View} {b : OrderBook} {n : UInt64} {req : Request} {evs : List TradeEvent}
  {idx : OrderIdx} {j : ℕ}

/-- The order at `j` still rests, under its id. -/
def Keeps (V V' : View) (j : ℕ) : Prop :=
  V'.queues.Resting j ∧ (V'.data j).id = (V.data j).id ∧ (V'.data j).side = (V.data j).side

/-- An order that is not used up rests on. -/
theorem keeps_swept (h : b.Abs cfg V) (d : OrderData) (hj : V.queues.Resting j)
    (hno : (j, (V.data j).qty) ∉ V.takes cfg d) : V.Keeps (V.swept cfg none d) j := by
  have hl := lined_fresh h.weak h.mem.queued d
  obtain ⟨h1, -, -, h2⟩ := same_swept hl j
  exact ⟨(resting_swept_iff hl).mpr ⟨hj, hno⟩, h1, h2⟩

/-- **An order rests** until it is cancelled or filled, as a maker or as the taker of its own request. -/
theorem Step.stays (hS : V.Step cfg n req evs idx V') (h : b.Abs cfg V) (hj : V.queues.Resting j) :
    V.Keeps V' j ∨ req = .cancel (V.data j).id ∨
      (∃ t ∈ evs, t.makerOrderId = (V.data j).id ∧ t.qty = (V.data j).qty) ∨
      ∃ newPrice, req = .modifyPrice (V.data j).id newPrice ∧ (evs.map (fun t => t.qty)).sum = (V.data j).qty := by
  have hused : ∀ {d : OrderData} {id s}, (j, (V.data j).qty) ∈ V.takes cfg d →
      ∃ t ∈ events V.data id s n (V.takes cfg d), t.makerOrderId = (V.data j).id ∧ t.qty = (V.data j).qty :=
    fun hm => mem_events hm
  cases hS with
  | idle _ => exact Or.inl ⟨hj, rfl, rfl⟩
  | done hd hval hend =>
    rename_i d
    by_cases hm : (j, (V.data j).qty) ∈ V.takes cfg d
    · exact Or.inr (Or.inr (Or.inl (hused hm)))
    · exact Or.inl (keeps_swept h d hj hm)
  | rest hd hval hnew hlt hfree hi =>
    rename_i d i rest
    by_cases hm : (j, (V.data j).qty) ∈ V.takes cfg d
    · exact Or.inr (Or.inr (Or.inl (hused hm)))
    · obtain ⟨h1, h2, h3⟩ := keeps_swept h d hj hm
      have hne : j ≠ i := fun he => hi (he ▸ h1)
      refine Or.inl ⟨(resting_enter rest).mpr (Or.inl h1), ?_, ?_⟩
      · rw [data_enter, if_neg hne]
        exact h2
      · rw [data_enter, if_neg hne]
        exact h3
  | lost hd hval hlt hi =>
    rename_i d i f
    by_cases hm : (j, (V.data j).qty) ∈ V.takes cfg d
    · exact Or.inr (Or.inr (Or.inl (hused hm)))
    · obtain ⟨h1, h2, h3⟩ := keeps_swept h d hj hm
      have hne : j ≠ i := fun he => hi (he ▸ h1)
      refine Or.inl ⟨h1, ?_, ?_⟩
      · rw [data_setData, if_neg hne]
        exact h2
      · rw [data_setData, if_neg hne]
        exact h3
  | reprice hi hid hne hplan hd =>
    rename_i newPrice i d
    have hmv := h.movable hi hplan hd
    by_cases hji : j = i
    · subst hji
      by_cases hspent : V.Spent cfg d
      · refine Or.inr (Or.inr (Or.inr ⟨newPrice, by rw [hid], ?_⟩))
        have hq := hspent.2.2
        rw [qty_taken, show d.qty = (V.data j).qty by rw [hd]] at hq
        rw [sum_events]
        omega
      · have hsame := same_swept hmv.lined j
        rw [hmv.data_reprice_self, ← hmv.data_requote] at hsame
        refine Or.inl ⟨hmv.resting_requote.mpr (Or.inr ⟨rfl, hspent⟩), ?_, ?_⟩
        · rw [hsame.1, hd]
        · rw [hsame.2.2.2, hd]
    · by_cases hm : (j, (V.data j).qty) ∈ V.takes cfg d
      · exact Or.inr (Or.inr (Or.inl (hused hm)))
      · have hsame := same_swept hmv.lined j
        rw [data_reprice, if_neg hji, ← hmv.data_requote] at hsame
        exact Or.inl ⟨hmv.resting_requote.mpr (Or.inl ⟨hj, hji, hm⟩), hsame.1, hsame.2.2.2⟩
  | resize hi hid hne hq =>
    rename_i i
    refine Or.inl ⟨hj, ?_, ?_⟩
    all_goals
      rw [data_setData]
      split_ifs with hji
      · rw [hji]
      · rfl
  | cancel hi hid =>
    rename_i i
    by_cases hji : j = i
    · exact Or.inr (Or.inl (by rw [hji, hid]))
    · exact Or.inl ⟨(resting_leave h.mem.queued (h.mem_queues hi)).mpr ⟨hj, hji⟩, rfl, rfl⟩

end View

end Wirekrak.Flashstrike

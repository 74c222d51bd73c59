import Mathlib.Data.List.Sort
import Wirekrak.Flashstrike.Effects

/-!
# Wirekrak.Flashstrike.Priority — price-time priority

`Arrivals` watches the engine and notes when an order arrived at its price: when it came to rest, and again when it got a
new price.  `priority` sorts the resting orders of a side by price and, inside one price, by that time.

* `Timed`, `timed_step`: every queue is in the order of arrival.
* `priority_eq`: so the queues of a side, best price first, are the sorted list.
* `price_time_priority`: the makers of a request are the first ones of that list, and all but the last are used up.
-/

namespace Wirekrak.Flashstrike

open Wirekrak.Lib Engine

/-- The time of each order's arrival at its price, by pool index. -/
structure Arrivals where
  now : ℕ
  time : ℕ → ℕ

namespace Arrivals

def start : Arrivals := ⟨0, fun _ => 0⟩

/-- The order at the index has arrived. -/
def note (a : Arrivals) : OrderIdx → Arrivals
  | some i => ⟨a.now + 1, Function.update a.time i a.now⟩
  | none => a

variable {a : Arrivals} {i j : ℕ}

theorem time_note_self : (a.note (some i)).time i = a.now := Function.update_self _ _ _

theorem time_note_of_ne (h : j ≠ i) : (a.note (some i)).time j = a.time j := Function.update_of_ne h _ _

end Arrivals

/-! ## Queues in the order of arrival -/

namespace View

variable {cfg : Config} {V V' : View} {a : Arrivals}

structure Timed (V : View) (a : Arrivals) : Prop where
  sorted : ∀ s p, (V.queues s p).Pairwise (fun i j => a.time i < a.time j)
  past : ∀ i, V.queues.Resting i → a.time i < a.now

/-- Queues that only lose orders stay in order. -/
theorem Timed.sublist (h : V.Timed a) (hq : ∀ s p, (V'.queues s p).Sublist (V.queues s p)) : V'.Timed a := by
  refine ⟨fun s p => (h.sorted s p).sublist (hq s p), ?_⟩
  rintro i ⟨s, p, hi⟩
  exact h.past i ⟨s, p, (hq s p).subset hi⟩

/-- One order arrives at the end of a queue. -/
theorem Timed.append (h : V.Timed a) {i : ℕ} {c : Side → ℤ → Prop} [∀ s p, Decidable (c s p)]
    {L : Side → ℤ → List ℕ} (hL : ∀ s p, (L s p).Sublist (V.queues s p)) (hi : ∀ s p, i ∉ L s p)
    (hq : ∀ s p, V'.queues s p = L s p ++ if c s p then [i] else []) : V'.Timed (a.note (some i)) := by
  have hold : ∀ s p, ∀ j ∈ L s p, (a.note (some i)).time j = a.time j ∧ a.time j < a.now := by
    intro s p j hj
    have hne : j ≠ i := fun he => hi s p (he ▸ hj)
    exact ⟨Arrivals.time_note_of_ne hne, h.past j ⟨s, p, (hL s p).subset hj⟩⟩
  refine ⟨fun s p => ?_, ?_⟩
  · rw [hq, List.pairwise_append]
    refine ⟨((h.sorted s p).sublist (hL s p)).imp_of_mem (fun {j k} hj hk hjk => ?_), by split_ifs <;> simp,
      fun j hj k hk => ?_⟩
    · rw [(hold s p j hj).1, (hold s p k hk).1]
      exact hjk
    · split_ifs at hk
      · rw [List.mem_singleton.mp hk, Arrivals.time_note_self, (hold s p j hj).1]
        exact (hold s p j hj).2
      · exact absurd hk List.not_mem_nil
  · rintro j ⟨s, p, hj⟩
    show (a.note (some i)).time j < a.now + 1
    rw [hq] at hj
    rcases List.mem_append.mp hj with hj | hj
    · have := hold s p j hj
      omega
    · split_ifs at hj
      · rw [List.mem_singleton.mp hj, Arrivals.time_note_self]
        omega
      · exact absurd hj List.not_mem_nil

/-- **Queues stay in the order of arrival.** -/
theorem timed_step {b : OrderBook} (h : b.Abs cfg V) {n : UInt64} {req : Request} {evs : List TradeEvent}
    {idx : OrderIdx} (ht : V.Timed a) (hS : V.Step cfg n req evs idx V') : V'.Timed (a.note idx) := by
  have hswept : ∀ (d : OrderData) s p, ((V.swept cfg none d).queues s p).Sublist (V.queues s p) := by
    intro d s p
    rw [queues_swept (lined_fresh h.weak h.mem.queued d)]
    exact List.filter_sublist
  cases hS with
  | idle _ => exact ht
  | done hd hval hend => exact ht.sublist (hswept _)
  | rest hd hval hnew hlt hfree hi =>
    exact ht.append (hswept _) (fun s p hm => hi ⟨s, p, hm⟩) (fun s p => queues_enter _ s p)
  | lost hd hval hlt hi => exact ht.sublist (hswept _)
  | reprice hi hid hne hplan hd =>
    have hmv := h.movable hi hplan hd
    refine ht.append (fun s p => List.filter_sublist) (fun s p hm => ?_) hmv.queues_requote
    have hne := of_decide_eq_true (List.mem_filter.mp hm).2
    exact hne.1 rfl
  | resize hi hid hne hq => exact ht.sublist (fun _ _ => List.Sublist.refl _)
  | cancel hi hid =>
    refine ht.sublist (fun s p => ?_)
    rw [queues_leave h.mem.queued (h.mem_queues hi)]
    exact List.filter_sublist

end View

/-! ## The sorted list -/

namespace OrderBook

variable (cfg : Config)

/-- The order at `i` is not behind the one at `j`. -/
def Ahead (b : OrderBook) (a : Arrivals) (s : Side) (i j : ℕ) : Prop :=
  s.key (b.order i).price < s.key (b.order j).price ∨
    (s.key (b.order i).price = s.key (b.order j).price ∧ a.time i ≤ a.time j)

instance (b : OrderBook) (a : Arrivals) (s : Side) : DecidableRel (b.Ahead a s) :=
  fun _ _ => inferInstanceAs (Decidable (_ ∨ _))

instance (b : OrderBook) (a : Arrivals) (s : Side) : Std.Total (b.Ahead a s) :=
  ⟨fun i j => by unfold Ahead; omega⟩

instance (b : OrderBook) (a : Arrivals) (s : Side) : IsTrans ℕ (b.Ahead a s) :=
  ⟨fun i j k => by unfold Ahead; omega⟩

/-- The resting orders of a side by price and time of arrival. -/
def priority (b : OrderBook) (a : Arrivals) (s : Side) : List ℕ :=
  ((List.range cfg.maxOrders).filter (fun i => b.Rests cfg s i)).insertionSort (b.Ahead a s)

variable {cfg} {b : OrderBook} {a : Arrivals} {V : View}

/-- The queues, best price first, are sorted by price and time. -/
theorem orders_ahead (h : b.Abs cfg V) (ht : V.Timed a) (s : Side) : (V.orders cfg s).Pairwise (b.Ahead a s) := by
  have hq := h.mem.queued
  unfold View.orders ladder
  rw [List.pairwise_flatMap]
  refine ⟨fun p _ => ?_, (planPrices_sorted cfg s).imp (fun {p p'} hpp i hi j hj => ?_)⟩
  · refine (ht.sorted s p).imp_of_mem (fun {i j} hi hj hij => Or.inr ⟨?_, hij.le⟩)
    rw [h.mem.price_eq, h.mem.price_eq, (hq.member s p i hi).2, (hq.member s p j hj).2]
  · left
    rw [h.mem.price_eq, h.mem.price_eq, (hq.member s p i hi).2, (hq.member s p' j hj).2]
    exact hpp

/-- Orders at one price arrived at different times. -/
theorem ahead_antisymm (h : b.Abs cfg V) (ht : V.Timed a) {s : Side} {i j : ℕ} (hi : i ∈ V.orders cfg s)
    (hj : j ∈ V.orders cfg s) (hij : b.Ahead a s i j) (hji : b.Ahead a s j i) : i = j := by
  obtain ⟨hri, hsi⟩ := h.mem_orders.mp hi
  obtain ⟨hrj, hsj⟩ := h.mem_orders.mp hj
  unfold Ahead at hij hji
  rw [h.mem.price_eq, h.mem.price_eq] at hij hji
  have hkey : s.key (V.data i).price = s.key (V.data j).price := by omega
  have hmi := h.mem_queues hri
  have hmj := h.mem_queues hrj
  rw [hsi, Side.key_inj hkey] at hmi
  rw [hsj] at hmj
  have hnd : ((V.queues s (V.data j).price).map a.time).Nodup :=
    (List.pairwise_map.mpr (ht.sorted s (V.data j).price)).imp (fun {k l} hkl => hkl.ne)
  exact List.inj_on_of_nodup_map hnd hmi hmj (by omega)

/-- **The queues of a side, best price first, are the sorted list.** -/
theorem priority_eq (h : b.Abs cfg V) (ht : V.Timed a) (s : Side) : b.priority cfg a s = V.orders cfg s := by
  have hperm : (b.priority cfg a s).Perm (V.orders cfg s) := by
    have hnd : (V.orders cfg s).Nodup := nodup_ladder h.mem.queued
    refine (List.perm_insertionSort _ _).trans ?_
    rw [List.perm_ext_iff_of_nodup (List.nodup_range.filter _) hnd]
    intro i
    rw [List.mem_filter, List.mem_range, decide_eq_true_eq, h.rests_iff, h.mem_orders]
    exact ⟨And.right, fun hi => ⟨(h.index i).mpr (Or.inr hi.1), hi⟩⟩
  exact hperm.eq_of_pairwise (fun i j hi hj hij hji => ahead_antisymm h ht (hperm.subset hi) hj hij hji)
    (List.pairwise_insertionSort _ _) (orders_ahead h ht s)

end OrderBook

/-! ## The makers of a request -/

namespace View

variable {cfg : Config} {V V' : View} {b : OrderBook}

/-- The makers of an order are the first orders of the other side. -/
theorem takes_isPrefix (h : b.Abs cfg V) (d : OrderData) :
    (V.takes cfg d).map Prod.fst <+: V.orders cfg d.side.opp := by
  refine (fills_makers _ _ _).trans ?_
  unfold makers
  split_ifs
  · exact List.nil_prefix
  · exact Bests.sweepable_isPrefix (h.weak d.side.opp)

theorem takes_dropLast (h : b.Abs cfg V) (d : OrderData) : ((V.takes cfg d).map Prod.snd).dropLast <+:
    (V.orders cfg d.side.opp).map (fun i => (V.data i).qty) := by
  refine (fills_dropLast _ _ _).trans ?_
  unfold makers
  split_ifs
  · exact List.nil_prefix
  · exact (Bests.sweepable_isPrefix (h.weak d.side.opp)).map _

/-- Trades with the first orders of the side opposite the taker, that use up all of them but the last. -/
def InPriority (cfg : Config) (V : View) (ts : List TradeEvent) : Prop :=
  ∃ side : Side, (∀ t ∈ ts, t.takerSide = side) ∧
    ts.map (fun t => (t.price, t.makerOrderId)) <+:
      (V.orders cfg side.opp).map (fun i => ((V.data i).price, (V.data i).id)) ∧
    (ts.map (fun t => t.qty)).dropLast <+: (V.orders cfg side.opp).map (fun i => (V.data i).qty)

theorem inPriority_takes (h : b.Abs cfg V) (d : OrderData) (id : OrderId) (n : UInt64) :
    V.InPriority cfg (events V.data id d.side n (V.takes cfg d)) := by
  refine ⟨d.side, fun t ht => (taker_events ht).2, ?_, ?_⟩
  · rw [map_events (fun m p _ => (p, m))]
    have hp := (takes_isPrefix h d).map (fun i => ((V.data i).price, (V.data i).id))
    rwa [List.map_map] at hp
  · rw [map_events (fun _ _ q => q)]
    exact takes_dropLast h d

theorem step_inPriority (h : b.Abs cfg V) {n : UInt64} {req : Request} {evs : List TradeEvent} {idx : OrderIdx}
    (hS : V.Step cfg n req evs idx V') : V.InPriority cfg evs := by
  have hnone : V.InPriority cfg [] := ⟨.bid, fun t ht => absurd ht List.not_mem_nil, List.nil_prefix, List.nil_prefix⟩
  cases hS with
  | idle _ => exact hnone
  | done hd _ _ => subst hd; exact inPriority_takes h (requested _ _ _ _ _) _ n
  | rest hd _ _ _ _ _ => subst hd; exact inPriority_takes h (requested _ _ _ _ _) _ n
  | lost hd _ _ _ => subst hd; exact inPriority_takes h (requested _ _ _ _ _) _ n
  | reprice _ _ _ _ _ => exact inPriority_takes h _ _ n
  | resize _ _ _ _ => exact hnone
  | cancel _ _ => exact hnone

end View

namespace Engine

variable {cfg : Config} {e e' : Engine} {a : Arrivals} {reqs : List Request} {req : Request}

/-- A step, with the arrivals it causes. -/
def TimedSteps (cfg : Config) (t : Engine × Arrivals) (req : Request) (u : Engine × Arrivals) : Prop :=
  Steps cfg t.1 req u.1 ∧ u.2 = t.2.note (t.1.arrival cfg req)

theorem reachable_timed (hrun : Run (TimedSteps cfg) (fun t req => t.1.Admissible cfg req) (.new cfg, .start) reqs
    (e, a)) : e.book.Abs cfg (e.book.view cfg) ∧ (e.book.view cfg).Timed a := by
  have hview : ∀ {b : OrderBook} {V : View} {a : Arrivals}, b.Abs cfg V → V.Timed a →
      b.Abs cfg (b.view cfg) ∧ (b.view cfg).Timed a := by
    intro b V a h ht
    refine ⟨h.view, ?_⟩
    rw [h.view_eq]
    exact ⟨ht.sorted, ht.past⟩
  refine hrun.invariant (I := fun t => t.1.book.Abs cfg (t.1.book.view cfg) ∧ (t.1.book.view cfg).Timed t.2)
    (hview (OrderBook.abs_new cfg) ⟨fun _ _ => List.Pairwise.nil,
      fun i hi => absurd hi (OrderBook.not_resting_empty i)⟩) ?_
  rintro ⟨e, a⟩ req ⟨e', a'⟩ ⟨h, ht⟩ hadm ⟨hs, ha⟩
  obtain ⟨evs, V', hS, hA, -⟩ := step_refines h hadm hs
  rw [ha]
  exact hview hA (View.timed_step h ht hS)

/-- **Price-time priority**: the trades of a request are with the first orders of the other side, by price and time of
arrival, and use up all of them but the last. -/
theorem price_time_priority (hrun : Run (TimedSteps cfg) (fun t req => t.1.Admissible cfg req) (.new cfg, .start) reqs
      (e, a)) (hadm : e.Admissible cfg req) (hstep : Steps cfg e req e') {ts : List TradeEvent}
    (hts : ts = e'.trades.drop e.trades.length) : ∃ side : Side, (∀ t ∈ ts, t.takerSide = side) ∧
      ts.map (fun t => (t.price, t.makerOrderId)) <+:
        (e.book.priority cfg a side.opp).map (fun i => ((e.book.order i).price, (e.book.order i).id)) ∧
      (ts.map (fun t => t.qty)).dropLast <+:
        (e.book.priority cfg a side.opp).map (fun i => (e.book.order i).qty) := by
  obtain ⟨h, ht⟩ := reachable_timed hrun
  obtain ⟨evs, V', hS, -, htr, -⟩ := step_refines h hadm hstep
  rw [htr, List.drop_left] at hts
  subst hts
  obtain ⟨side, hside, hp, hd⟩ := View.step_inPriority h hS
  refine ⟨side, hside, ?_⟩
  rw [OrderBook.priority_eq h ht]
  exact ⟨hp, hd⟩

/-- The state after a request, with the arrivals. -/
def timedAfter (t : Engine × Arrivals) (req : Request) : Engine × Arrivals :=
  (t.1.after small req, t.2.note (t.1.arrival small req))

theorem run_timedAfter {ok : Engine × Arrivals → Request → Prop} {t : Engine × Arrivals}
    (h : Admitted timedAfter (fun t req => ok t req ∧ t.1.Answers small req) t reqs) :
    Run (TimedSteps small) ok t reqs (reqs.foldl timedAfter t) :=
  (Run.of_admitted (fun _ _ hreq => ⟨steps_after hreq.2, rfl⟩) h).mono (fun _ _ hreq => hreq.1)

/-- The small engine and the arrivals after the requests. -/
def timedAll (reqs : List Request) : Engine × Arrivals := reqs.foldl timedAfter (.new small, .start)

/-- Three asks; the first one is moved behind the second. -/
def queued : List Request :=
  [.newOrder 1 .limit .ask 5 5, .newOrder 2 .limit .ask 6 5, .newOrder 3 .limit .ask 5 4, .modifyPrice 1 6]

theorem price_time_priority_queued : ∃ side : Side,
    (∀ t ∈ ((timedAll queued).1.after small (.newOrder 4 .limit .bid 7 8)).trades.drop
      (timedAll queued).1.trades.length, t.takerSide = side) ∧
    (((timedAll queued).1.after small (.newOrder 4 .limit .bid 7 8)).trades.drop
        (timedAll queued).1.trades.length).map (fun t => (t.price, t.makerOrderId)) <+:
      ((timedAll queued).1.book.priority small (timedAll queued).2 side.opp).map
        (fun i => (((timedAll queued).1.book.order i).price, ((timedAll queued).1.book.order i).id)) ∧
    ((((timedAll queued).1.after small (.newOrder 4 .limit .bid 7 8)).trades.drop
        (timedAll queued).1.trades.length).map (fun t => t.qty)).dropLast <+:
      ((timedAll queued).1.book.priority small (timedAll queued).2 side.opp).map
        (fun i => ((timedAll queued).1.book.order i).qty) :=
  price_time_priority (run_timedAfter (t := (.new small, .start)) (by decide +kernel)) (by decide +kernel)
    (steps_after (by decide +kernel)) rfl

/-- The id 7 is in use twice: the second order has taken the slot of one that was cancelled. -/
def duplicated : List Request :=
  [.newOrder 23 .limit .ask 7 1, .newOrder 7 .limit .ask 4 5, .cancel 23, .newOrder 7 .limit .ask 6 5,
   .newOrder 8 .limit .ask 5 5]

/-- The order at 4 is used up, but the one at 6 is removed in its place; then the order at 4 is taken from again. -/
theorem priority_broken_by_duplicate_id :
    Run (TimedSteps small) (fun _ _ => True) (.new small, .start) duplicated (timedAll duplicated) ∧
    Steps small (timedAll duplicated).1 (.newOrder 9 .limit .bid 7 12)
      ((timedAll duplicated).1.after small (.newOrder 9 .limit .bid 7 12)) ∧
    ¬ (((timedAll duplicated).1.after small (.newOrder 9 .limit .bid 7 12)).trades.drop
        (timedAll duplicated).1.trades.length).map (fun t => (t.price, t.makerOrderId)) <+:
      ((timedAll duplicated).1.book.priority small (timedAll duplicated).2 .ask).map
        (fun i => (((timedAll duplicated).1.book.order i).price, ((timedAll duplicated).1.book.order i).id)) :=
  ⟨run_timedAfter (by decide +kernel), steps_after (by decide +kernel), by decide +kernel⟩

end Engine

end Wirekrak.Flashstrike

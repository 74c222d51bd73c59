import Mathlib.Data.Int.ConditionallyCompleteOrder
import Mathlib.Logic.Relation
import Wirekrak.Flashstrike.Effects

/-!
# Wirekrak.Flashstrike.Termination — the matching loop ends

`Round`: one round of the loop of `match_order_`, as a relation, so that runs of any length can be spoken of.

* `round_progress`: with the book standing for a view, a round takes from the taker, or from the orders it can match.
* `loop_terminates`: from every state reached with admissible ids the loop ends, after no more rounds than there are
  orders on the other side.
* `diverges_of_stuck`: a maker with nothing left that the id map does not find keeps the loop going for ever.
-/

namespace Wirekrak.Flashstrike

open Wirekrak.Lib

namespace Engine

variable (cfg : Config)

/-- What is left of the taker. -/
def remaining (s : Engine × Taker) : ℤ := (taker s.1.book s.2).qty

/-- The number of resting orders the taker can meet. -/
def opposing (side : Side) (s : Engine × Taker) : ℕ := ((s.1.book.view cfg).orders cfg side.opp).length

/-- One round: the condition of the loop holds, and its body is run. -/
def Round (side : Side) (s s' : Engine × Taker) : Prop :=
  ∃ k off r, s.1.book.getBestPriceLevel cfg side.opp = .ok (some (k, off)) ∧ (s.1.book.level k off).headIdx = some r ∧
    0 < remaining s ∧ matchRound cfg side s.1 s.2 k off r = .ok s'

/-- What `match_order_` is called with: a new order, or one that rests. -/
def Incoming (e : Engine) (side : Side) : Taker → Prop
  | .fresh _ => True
  | .resting i => e.book.Rests cfg side i

/-- The loop ends, whoever takes the trades: every round takes something away, and there are not more rounds than orders
on the other side. -/
structure Terminates (side : Side) (s : Engine × Taker) : Prop where
  progress : ∀ s1 s2, Relation.ReflTransGen (Round cfg side) s s1 → Round cfg side s1 s2 →
    (opposing cfg side s2, remaining s2) < (opposing cfg side s1, remaining s1)
  returns : ∀ fuel, opposing cfg side s < fuel → ∃ s', matchLoop cfg side fuel s.1 s.2 = .ok s' ∧
    Relation.ReflTransGen (Round cfg side) s s' ∧ ∀ s'', ¬ Round cfg side s' s''

variable {cfg} {e : Engine} {V : View} {side : Side} {t : Taker} {s s' : Engine × Taker}

/-! ## One round -/

theorem opposing_eq (h : s.1.book.Abs cfg V) : opposing cfg side s = (V.orders cfg side.opp).length := by
  unfold opposing
  rw [h.orders_view]

/-- A round is with the first sweepable order. -/
theorem round_spec (h : s.1.book.Abs cfg V) (htk : TakerOk V side s.2) (hr : Round cfg side s s') :
    ∃ r L x, (V.bests side.opp).sweepable cfg side.opp (V.queues side.opp) = r :: L ∧
      x = min (remaining s) (V.data r).qty ∧ s'.1.book.Abs cfg ((V.pay x s.2.idx).hit cfg x r) ∧
      TakerOk ((V.pay x s.2.idx).hit cfg x r) side s'.2 ∧ remaining s' = remaining s - x := by
  obtain ⟨k, off, r, hbest, hhead, -, hround⟩ := hr
  obtain ⟨-, hb⟩ | ⟨hhas, k', hk, hb, hhead', -⟩ := bestLevel_spec h side.opp
  · rw [hb] at hbest
    cases hbest
  · rw [hb, Except.ok.injEq, Option.some.injEq, Prod.mk.injEq] at hbest
    obtain ⟨rfl, rfl⟩ := hbest
    rw [hhead'] at hhead
    cases hs : (V.bests side.opp).sweepable cfg side.opp (V.queues side.opp) with
    | nil =>
      rcases Bests.sweepable_nil (h.weak _) hs with h1 | h1
      · rw [hhas] at h1
        cases h1
      · rw [h1] at hhead
        cases hhead
    | cons r' L =>
      obtain ⟨-, rest, hrest⟩ := Bests.sweepable_cons (h.weak _) hs
      rw [hrest, List.head?_cons, Option.some.injEq] at hhead
      obtain rfl := hhead
      obtain ⟨e1, t1, hok, hA, -, -, hidx, htd⟩ := matchRound_spec h htk hs hk rfl _ rfl
      rw [hround, Except.ok.injEq] at hok
      obtain rfl := hok
      exact ⟨r', L, _, rfl, rfl, hA, takerOk_hit h htk hs hidx, congrArg OrderData.qty htd⟩

/-- A round changes no side. -/
theorem side_hit {x : ℤ} {r j : ℕ} {i : Option ℕ} : (((V.pay x i).hit cfg x r).data j).side = (V.data j).side := by
  have hpay : ∀ j, ((V.pay x i).data j).side = (V.data j).side := by
    intro j
    rw [View.data_pay]
    split_ifs <;> rfl
  rw [View.data_hit]
  split_ifs with hj
  · rw [hj]
    exact hpay r
  · exact hpay j

/-- A maker that is used up is one order less on its side. -/
theorem length_orders_hit {b b' : OrderBook} {x p : ℤ} {r : ℕ} {i : Option ℕ} (h : b.Abs cfg V)
    (h' : b'.Abs cfg ((V.pay x i).hit cfg x r)) (hr : r ∈ V.queues side.opp p)
    (h0 : ((V.met x i r).data r).qty = 0) :
    (((V.pay x i).hit cfg x r).orders cfg side.opp).length + 1 = (V.orders cfg side.opp).length := by
  have hrest : ∀ j, ((V.pay x i).hit cfg x r).queues.Resting j ↔ V.queues.Resting j ∧ j ≠ r := by
    intro j
    rw [View.hit_eq, if_pos h0, View.resting_leave (View.queued_met h.mem.queued) (s := side.opp) (p := p)
      (by rw [View.queues_met]; exact hr), View.queues_met]
  have hmem : ∀ j, j ∈ ((V.pay x i).hit cfg x r).orders cfg side.opp ↔ j ∈ V.orders cfg side.opp ∧ j ≠ r := by
    intro j
    rw [h'.mem_orders, h.mem_orders, hrest, side_hit]
    tauto
  have hnd : (V.orders cfg side.opp).Nodup := nodup_ladder h.mem.queued
  have hnd' : (((V.pay x i).hit cfg x r).orders cfg side.opp).Nodup := nodup_ladder h'.mem.queued
  have hperm : (r :: ((V.pay x i).hit cfg x r).orders cfg side.opp).Perm (V.orders cfg side.opp) := by
    rw [List.perm_ext_iff_of_nodup (List.nodup_cons.mpr ⟨fun hc => ((hmem r).mp hc).2 rfl, hnd'⟩) hnd]
    intro j
    rw [List.mem_cons, hmem]
    constructor
    · rintro (rfl | hj)
      · exact h.mem_orders.mpr ⟨⟨_, _, hr⟩, (h.mem.mem_queue hr).1⟩
      · exact hj.1
    · intro hj
      by_cases hjr : j = r
      · exact .inl hjr
      · exact .inr ⟨hj, hjr⟩
  exact hperm.length_eq

/-- **Progress of a round**: the maker is used up and leaves, or the taker is filled. -/
theorem round_progress (h : s.1.book.Abs cfg V) (htk : TakerOk V side s.2) (hr : Round cfg side s s') :
    ∃ V', s'.1.book.Abs cfg V' ∧ TakerOk V' side s'.2 ∧
      ((opposing cfg side s' + 1 = opposing cfg side s ∧ remaining s' ≤ remaining s) ∨
        (opposing cfg side s' = opposing cfg side s ∧ remaining s' < remaining s ∧ remaining s' = 0)) := by
  have hpos : 0 < remaining s := by
    obtain ⟨-, -, -, -, -, hpos, -⟩ := hr
    exact hpos
  obtain ⟨r, L, x, hs, hx, hA, htk', hrem⟩ := round_spec h htk hr
  obtain ⟨rest, hrest, hside, -⟩ := head_maker h hs
  have hm : r ∈ V.queues side.opp (V.bests side.opp).best := by
    rw [hrest]
    exact List.mem_cons_self
  have hqty : 0 ≤ (V.data r).qty := (h.orders r ⟨_, _, hm⟩).2
  have hne : s.2.idx ≠ some r := taker_ne h htk hs List.mem_cons_self
  have hmet : ((V.met x s.2.idx r).data r).qty = (V.data r).qty - x := by
    rw [View.data_met, if_pos rfl, View.data_pay, if_neg hne]
    rfl
  refine ⟨_, hA, htk', ?_⟩
  rw [opposing_eq hA, opposing_eq h]
  by_cases h0 : ((V.met x s.2.idx r).data r).qty = 0
  · exact .inl ⟨length_orders_hit h hA hm h0, by omega⟩
  · refine .inr ⟨?_, by omega, by omega⟩
    rw [View.hit_eq, if_neg h0]
    unfold View.orders
    rw [View.queues_met]

/-! ## The loop -/

section Loop

variable (h : s.1.book.Abs cfg V) (htk : TakerOk V side s.2)

include h htk

/-- **Invariant of the loop**: after any number of rounds the book stands for a view. -/
theorem rounds_abs (hrs : Relation.ReflTransGen (Round cfg side) s s') :
    ∃ V', s'.1.book.Abs cfg V' ∧ TakerOk V' side s'.2 := by
  induction hrs with
  | refl => exact ⟨V, h, htk⟩
  | tail _ hr ih =>
    obtain ⟨V1, h1, htk1⟩ := ih
    obtain ⟨V2, h2, htk2, -⟩ := round_progress h1 htk1 hr
    exact ⟨V2, h2, htk2⟩

/-- A round of the loop is a step of `matchLoop`; without one it returns. -/
theorem matchLoop_round (fuel : ℕ) :
    (∃ s', Round cfg side s s' ∧ matchLoop cfg side (fuel + 1) s.1 s.2 = matchLoop cfg side fuel s'.1 s'.2) ∨
      ((∀ s', ¬ Round cfg side s s') ∧ matchLoop cfg side (fuel + 1) s.1 s.2 = .ok s) := by
  by_cases hpos : 0 < remaining s
  · cases hs : (V.bests side.opp).sweepable cfg side.opp (V.queues side.opp) with
    | nil =>
      refine .inr ⟨fun s' hr => ?_, matchLoop_nil h (by omega) hs⟩
      obtain ⟨r, L, x, hc, -⟩ := round_spec h htk hr
      rw [hs] at hc
      cases hc
    | cons r L =>
      obtain ⟨rest, hrest, -, -⟩ := head_maker h hs
      obtain ⟨hhas, -⟩ := Bests.sweepable_cons (h.weak _) hs
      obtain ⟨hno, -⟩ | ⟨-, k, hk, hb, hhead, -⟩ := bestLevel_spec h side.opp
      · rw [hhas] at hno
        cases hno
      · rw [hrest, List.head?_cons] at hhead
        obtain ⟨e1, t1, hround, -⟩ := matchRound_spec h htk hs hk rfl _ rfl
        refine .inl ⟨(e1, t1), ⟨k, _, r, hb, hhead, hpos, hround⟩, ?_⟩
        rw [matchLoop, hb]
        simp only [bind, Except.bind]
        rw [hhead]
        dsimp only
        rw [if_pos (show 0 < (taker s.1.book s.2).qty from hpos), hround]
  · refine .inr ⟨?_, matchLoop_done h (by omega) (by unfold remaining at hpos; omega)⟩
    rintro s' ⟨-, -, -, -, -, hp, -⟩
    exact hpos hp

/-- A round needs an order to trade with. -/
theorem opposing_pos (hr : Round cfg side s s') : 0 < opposing cfg side s := by
  obtain ⟨r, L, x, hs, -⟩ := round_spec h htk hr
  obtain ⟨rest, hrest, hside, -⟩ := head_maker h hs
  have hm : r ∈ V.orders cfg side.opp := h.mem_orders.mpr ⟨⟨_, _, hrest ▸ List.mem_cons_self⟩, hside⟩
  rw [opposing_eq h]
  exact List.length_pos_of_mem hm

/-- Each round takes something away. -/
theorem round_lt (hr : Round cfg side s s') :
    (opposing cfg side s', remaining s') < (opposing cfg side s, remaining s) := by
  obtain ⟨-, -, -, ⟨h1, h2⟩ | ⟨h1, h2, -⟩⟩ := round_progress h htk hr
  · exact Prod.lt_iff.mpr (.inl ⟨by dsimp only; omega, h2⟩)
  · exact Prod.lt_iff.mpr (.inr ⟨h1.le, h2⟩)

end Loop

/-- **The loop returns** after no more rounds than there are orders on the other side. -/
theorem matchLoop_returns {fuel : ℕ} (h : s.1.book.Abs cfg V) (htk : TakerOk V side s.2)
    (hfuel : opposing cfg side s < fuel) : ∃ s', matchLoop cfg side fuel s.1 s.2 = .ok s' ∧
      Relation.ReflTransGen (Round cfg side) s s' ∧ ∀ s'', ¬ Round cfg side s' s'' := by
  induction fuel generalizing s V with
  | zero => omega
  | succ fuel ih =>
    rcases matchLoop_round h htk fuel with ⟨s1, hr, heq⟩ | ⟨hno, heq⟩
    · rw [heq]
      obtain ⟨V1, h1, htk1, ⟨hopp, -⟩ | ⟨hopp, -, hrem⟩⟩ := round_progress h htk hr
      · obtain ⟨s', hok, hrs, hend⟩ := ih h1 htk1 (by omega)
        exact ⟨s', hok, .head hr hrs, hend⟩
      · -- the taker is filled, and the maker it met is still there
        have hpos := opposing_pos h htk hr
        refine ⟨s1, matchLoop_done h1 (by omega) (by unfold remaining at hrem; omega), .single hr, ?_⟩
        rintro s'' ⟨-, -, -, -, -, hp, -⟩
        omega
    · exact ⟨s, heq, .refl, hno⟩

/-- **The matching loop ends** in every state that is reached with admissible ids, whatever order comes in. -/
theorem loop_terminates {reqs : List Request} (hrun : Run (Steps cfg) (Admissible cfg) (.new cfg) reqs e)
    (ht : Incoming cfg e side t) : Terminates cfg side (e, t) := by
  have h := reachable_abs (fun _ _ hreq => hreq) hrun
  have htk : TakerOk (e.book.view cfg) side t := by
    cases t with
    | fresh o => trivial
    | resting i => exact h.rests_iff.mp ht
  refine ⟨fun s1 s2 hrs hr => ?_, fun fuel hfuel => matchLoop_returns h htk hfuel⟩
  obtain ⟨V1, h1, htk1⟩ := rounds_abs h htk hrs
  exact round_lt h1 htk1 hr

/-! ## A maker that is not found -/

/-- The maker at the head of the best level is smaller than the taker, and the id map does not find it. -/
structure Stuck (cfg : Config) (side : Side) (s : Engine × Taker) (k off r : ℕ) : Prop where
  best : s.1.book.getBestPriceLevel cfg side.opp = .ok (some (k, off))
  head : (s.1.book.level k off).headIdx = some r
  fresh : ∃ o, s.2 = .fresh o
  small : 0 ≤ (s.1.book.order r).qty ∧ (s.1.book.order r).qty < remaining s
  lost : s.1.book.idMap.find (s.1.book.order r).id = none

/-- The maker has nothing left, and stays where it is. -/
theorem stuck_round {k off r : ℕ} (h : Stuck cfg side s k off r) : ∃ s', Round cfg side s s' ∧ Stuck cfg side s' k off r := by
  obtain ⟨hbest, hhead, ⟨o, ho⟩, ⟨h0, hlt⟩, hlost⟩ := h
  obtain ⟨e, t⟩ := s
  dsimp only at hbest hhead ho h0 hlt hlost
  subst ho
  unfold remaining taker at hlt
  dsimp only at hlt
  have hx : min (taker e.book (.fresh o)).qty (e.book.order r).qty = (e.book.order r).qty := min_eq_right hlt.le
  obtain ⟨b3, hb3⟩ : ∃ b3, b3 = (e.book.modifyOrder r (fill (e.book.order r).qty)).modifyLevel k off
      (fun l => l.subtractQuantity (e.book.order r).qty) := ⟨_, rfl⟩
  have horder : b3.order r = fill (e.book.order r).qty (e.book.order r) := by
    rw [hb3]
    exact OrderBook.order_modifyOrder_self _ _ _
  have hqty : (b3.order r).qty = 0 := by
    rw [horder]
    exact Int.sub_self _
  have hid : (b3.order r).id = (e.book.order r).id := by
    rw [horder]
    rfl
  have hmap : b3.idMap = e.book.idMap := by
    rw [hb3]
    rfl
  have hstore : ∀ s, b3.getStore s = e.book.getStore s := by
    intro s
    rw [hb3]
    cases s <;> rfl
  have hremove : removeIfFilled cfg b3 r = .ok b3 := by
    unfold removeIfFilled OrderBook.removeOrder
    rw [if_pos hqty, hmap, hid, hlost]
    rfl
  have hround : matchRound cfg side e (.fresh o) k off r = .ok
      (({ e with book := b3 } : Engine).emitTradeEvent (b3.order r).id o.id (b3.level k off).price (e.book.order r).qty side,
        .fresh (fill (e.book.order r).qty o)) := by
    unfold matchRound
    rw [hx]
    dsimp only [fillTaker]
    rw [← hb3, hremove]
    rfl
  refine ⟨_, ⟨k, off, r, hbest, hhead, show 0 < o.qty by omega, hround⟩, ?_, ?_, ⟨_, rfl⟩, ⟨hqty.ge, ?_⟩, ?_⟩
  · show b3.getBestPriceLevel cfg side.opp = _
    rw [← hbest]
    unfold OrderBook.getBestPriceLevel OrderBook.getPartition OrderBook.held
    simp only [hstore]
  · show (b3.level k off).headIdx = some r
    rw [← hhead, hb3]
    simp [OrderBook.modifyLevel, OrderBook.level, Partition.modifyLevel, PriceLevel.subtractQuantity]
  · show (b3.order r).qty < o.qty - (e.book.order r).qty
    omega
  · show b3.idMap.find (b3.order r).id = none
    rw [hmap, hid, hlost]

/-- The loop never ends. -/
theorem diverges_of_stuck {k off r : ℕ} (h : Stuck cfg side s k off r) (fuel : ℕ) :
    matchLoop cfg side fuel s.1 s.2 = .error .diverges := by
  induction fuel generalizing s with
  | zero => rfl
  | succ fuel ih =>
    obtain ⟨s', ⟨k', off', r', hbest, hhead, hpos, hround⟩, h'⟩ := stuck_round h
    have hloop : matchLoop cfg side (fuel + 1) s.1 s.2 = matchLoop cfg side fuel s'.1 s'.2 := by
      rw [matchLoop, hbest]
      simp only [bind, Except.bind]
      rw [hhead]
      dsimp only
      rw [if_pos (show 0 < (taker s.1.book s.2).qty from hpos), hround]
    rw [hloop]
    exact ih h'

/-- An ask under the id 0 is accepted; the first bid that takes more than it never comes to rest. -/
def zeroId : List Request := [.newOrder 0 .limit .ask 1 1]

theorem zero_id_stuck : Stuck small .bid (afterAll zeroId, .fresh (incoming 2 .limit .bid 1 2)) 3 1 0 where
  best := by decide +kernel
  head := by decide +kernel
  fresh := ⟨_, rfl⟩
  small := by decide +kernel
  lost := by decide +kernel

theorem zero_id_diverges : Run (Steps small) (fun _ _ => True) (.new small) zeroId (afterAll zeroId) ∧
    (∀ fuel, matchLoop small .bid fuel (afterAll zeroId) (.fresh (incoming 2 .limit .bid 1 2)) = .error .diverges) ∧
    ¬ Terminates small .bid (afterAll zeroId, .fresh (incoming 2 .limit .bid 1 2)) := by
  refine ⟨run_after (by decide +kernel), diverges_of_stuck zero_id_stuck, fun h => ?_⟩
  obtain ⟨s', hok, -⟩ := h.returns _ (Nat.lt_succ_self _)
  rw [diverges_of_stuck zero_id_stuck] at hok
  cases hok

end Engine

end Wirekrak.Flashstrike

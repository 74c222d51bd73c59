import Wirekrak.Flashstrike.Quantities

/-!
# Wirekrak.Flashstrike.Crossing — bids and asks that rest together

The matching loop does not leave the partition of the best price, so that what is left of an order can come to rest
although orders of another partition cross it.

* `Clears`: an order for which this does not happen.
* `uncrossed_step`, `book_uncrossed`: if every order clears, the book is not crossed after any request.
-/

namespace Wirekrak.Flashstrike

open Wirekrak.Lib Engine

theorem Side.crosses_symm (side : Side) (a b : ℤ) : side.crosses a b = side.opp.crosses b a := by cases side <;> rfl

namespace View

variable {cfg : Config} {V V' : View} {d : OrderData} {i j : ℕ}

/-- No order crosses another one. -/
def Uncrossed (V : View) : Prop := ∀ i j, V.queues.Resting i → V.queues.Resting j →
  (V.data j).side = (V.data i).side.opp → (V.data i).side.crosses (V.data i).price (V.data j).price = false

/-- The orders in reach have the quantity, or all the orders that cross the price are in reach. -/
def Clears (cfg : Config) (V : View) (side : Side) (price qty : ℤ) : Prop :=
  qty ≤ V.quantity (V.reach cfg side.opp) ∨
    ∀ j ∈ V.orders cfg side.opp, side.crosses price (V.data j).price = true → j ∈ V.reach cfg side.opp

instance (cfg : Config) (V : View) (side : Side) (price qty : ℤ) : Decidable (V.Clears cfg side price qty) :=
  inferInstanceAs (Decidable (_ ∨ _))

/-- What crosses an order of which something is left has been taken. -/
theorem not_crosses_of_left {b : OrderBook} (h : b.Abs cfg V) (hq : 0 < d.qty)
    (hcl : V.Clears cfg d.side d.price d.qty) (hleft : traded (V.takes cfg d) < d.qty) (hj : V.queues.Resting j)
    (hside : (V.data j).side = d.side.opp) (hno : (j, (V.data j).qty) ∉ V.takes cfg d) :
    d.side.crosses d.price (V.data j).price = false := by
  by_contra hc
  rw [Bool.not_eq_false] at hc
  have hmem : j ∈ V.queues d.side.opp (V.data j).price := by
    rw [← hside]
    exact h.mem_queues hj
  by_cases hbl : V.Blocked d.side d
  · -- the best price is not worse than that of the order
    have hle := ((h.weak d.side.opp).level _ (List.ne_nil_of_mem hmem)).2.2
    have hbest := hbl.2.2
    rw [Side.crosses_iff] at hc
    rw [← Bool.not_eq_true, Side.crosses_iff] at hbest
    omega
  have htakes : V.takes cfg d = fills (fun j => (V.data j).qty) (V.reach cfg d.side.opp) d.qty := by
    unfold takes makers
    rw [if_neg hbl]
    rfl
  rw [htakes] at hno hleft
  have hnn : ∀ r ∈ V.reach cfg d.side.opp, 0 ≤ (V.data r).qty := fun r hr => (h.orders r (h.mem_reach hr).1).2
  have hsum : traded (fills (fun j => (V.data j).qty) (V.reach cfg d.side.opp) d.qty) =
      min d.qty (V.quantity (V.reach cfg d.side.opp)) := traded_eq hnn hq.le
  rw [fills_all hleft] at hno
  refine hno (List.mem_map.mpr ⟨j, hcl.resolve_left (by omega) j (h.mem_orders.mpr ⟨hj, hside⟩) hc, rfl⟩)

/-- Orders that keep their prices, and one more. -/
theorem uncrossed_of_old (hu : V.Uncrossed) {P : ℕ → Prop} (hold : ∀ j, V'.queues.Resting j → P j ∨
      V.queues.Resting j ∧ (V'.data j).side = (V.data j).side ∧ (V'.data j).price = (V.data j).price)
    (hone : ∀ i j, P i → P j → i = j)
    (hnew : ∀ i j, P i → ¬ P j → V'.queues.Resting i → V'.queues.Resting j → (V'.data j).side = (V'.data i).side.opp →
      (V'.data i).side.crosses (V'.data i).price (V'.data j).price = false) : V'.Uncrossed := by
  intro i j hi hj hside
  rcases hold i hi with h1 | ⟨h1, h2, h3⟩
  · by_cases hPj : P j
    · obtain rfl := hone i j h1 hPj
      exact absurd hside.symm (Side.opp_ne _)
    · exact hnew i j h1 hPj hi hj hside
  · rcases hold j hj with h4 | ⟨h4, h5, h6⟩
    · by_cases hPi : P i
      · obtain rfl := hone i j hPi h4
        exact absurd hside.symm (Side.opp_ne _)
      · have hopp : (V'.data i).side = (V'.data j).side.opp := by rw [hside, Side.opp_opp]
        have hc := hnew j i h4 hPi hj hi hopp
        rw [Side.crosses_symm, ← hopp] at hc
        exact hc
    · rw [h2, h3, h6]
      refine hu i j h1 h4 ?_
      rw [← h5, ← h2]
      exact hside

/-- The orders of a request clear. -/
def ClearsFor (cfg : Config) (V : View) : Request → Prop
  | .newOrder id type side price qty => type = .limit → validateOrder cfg (incoming id type side price qty) = true →
    V.Clears cfg side price qty
  | .modifyPrice id newPrice => ∀ i, V.queues.Resting i → (V.data i).id = id → (V.data i).price ≠ newPrice →
    V.Clears cfg (V.data i).side newPrice (V.data i).qty
  | _ => True

/-- **The book stays uncrossed**, if the order of the request clears. -/
theorem uncrossed_step {b : OrderBook} (h : b.Abs cfg V) {n : UInt64} {req : Request} {evs : List TradeEvent}
    {idx : OrderIdx} (hs : V.Sound) (hu : V.Uncrossed) (hS : V.Step cfg n req evs idx V')
    (hcl : V.ClearsFor cfg req) : V'.Uncrossed := by
  have hsame : ∀ (d : OrderData) j, ((V.swept cfg none d).data j).side = (V.data j).side ∧
      ((V.swept cfg none d).data j).price = (V.data j).price := by
    intro d j
    obtain ⟨-, -, h3, h4⟩ := same_swept (lined_fresh h.weak h.mem.queued d) j
    exact ⟨h4, h3⟩
  have hold : ∀ (d : OrderData) j, (V.swept cfg none d).queues.Resting j → V.queues.Resting j ∧
      (j, (V.data j).qty) ∉ V.takes cfg d :=
    fun d j hj => (resting_swept_iff (lined_fresh h.weak h.mem.queued d)).mp hj
  cases hS with
  | idle _ => exact hu
  | done hd hval hend =>
    rename_i d
    exact uncrossed_of_old (P := fun _ => False) hu (fun j hj => Or.inr ⟨(hold d j hj).1, hsame d j⟩)
      (fun _ _ hc => hc.elim) (fun _ _ hc => hc.elim)
  | rest hd hval hnew hlt hfree hi =>
    rename_i id side price qty d i rest
    have hne : ∀ j, (V.swept cfg none d).queues.Resting j → j ≠ i := fun j hj he => hi (he ▸ hj)
    refine uncrossed_of_old (P := fun j => j = i) hu (fun j hj => ?_) (fun j k hj hk => hj.trans hk.symm)
      (fun k j hk hj hself hr hopp => ?_)
    · rcases (resting_enter rest).mp hj with hr | rfl
      · rw [data_enter, if_neg (hne j hr)]
        exact Or.inr ⟨(hold d j hr).1, hsame d j⟩
      · exact Or.inl rfl
    · subst hk
      have hr' := ((resting_enter rest).mp hr).resolve_right hj
      obtain ⟨h1, h2⟩ := hold d j hr'
      rw [data_enter, data_enter, if_pos rfl, if_neg hj, (hsame d j).1] at hopp
      rw [data_enter, data_enter, if_pos rfl, if_neg hj, (hsame d j).2]
      have hq : d.qty = qty := by rw [hd]; rfl
      have hc : V.Clears cfg d.side d.price d.qty := by
        rw [hd]
        exact hcl rfl hval
      exact not_crosses_of_left (d := d) h (by rw [hq]; exact (qty_of_valid hval).1) hc (by rw [hq]; exact hlt) h1 hopp h2
  | lost hd hval hlt hi =>
    rename_i d i f
    refine uncrossed_of_old (P := fun _ => False) hu (fun j hj => Or.inr ⟨(hold d j hj).1, ?_⟩)
      (fun _ _ hc => hc.elim) (fun _ _ hc => hc.elim)
    rw [data_setData, if_neg (fun he : j = i => hi (he ▸ hj))]
    exact hsame d j
  | reprice hi hid hne hplan hd =>
    rename_i id newPrice i d
    have hmv := h.movable hi hplan hd
    have hsm : ∀ j, j ≠ i → ((V.requote cfg i newPrice).data j).side = (V.data j).side ∧
        ((V.requote cfg i newPrice).data j).price = (V.data j).price := by
      intro j hj
      obtain ⟨-, -, h3, h4⟩ := same_swept hmv.lined j
      rw [data_reprice, if_neg hj, ← hmv.data_requote] at h3 h4
      exact ⟨h4, h3⟩
    refine uncrossed_of_old (P := fun j => j = i) hu (fun j hj => ?_) (fun j k hj hk => hj.trans hk.symm)
      (fun k j hk hj hself hr hopp => ?_)
    · rcases hmv.resting_requote.mp hj with ⟨hr, hji, -⟩ | ⟨rfl, -⟩
      · exact Or.inr ⟨hr, hsm j hji⟩
      · exact Or.inl rfl
    · subst hk
      obtain ⟨hr', -, hno⟩ := (hmv.resting_requote.mp hr).resolve_right (fun hc => hj hc.1)
      obtain ⟨-, -, h3, h4⟩ := same_swept hmv.lined k
      rw [hmv.data_reprice_self, ← hmv.data_requote] at h3 h4
      rw [(hsm j hj).1, h4] at hopp
      rw [(hsm j hj).2, h3, h4]
      have hsd : d.Sound := by
        rw [hd]
        exact hs k hi
      have hns : ¬ V.Spent cfg d := by
        rcases hmv.resting_requote.mp hself with ⟨-, hc, -⟩ | ⟨-, hns⟩
        · exact absurd rfl hc
        · exact hns
      rw [spent_iff h hsd] at hns
      have hle := (traded_takes h hsd.1.le).2
      have hc : V.Clears cfg d.side d.price d.qty := by
        rw [hd]
        exact hcl k hi hid hne
      exact not_crosses_of_left (d := d) h hsd.1 hc (by omega) hr' hopp hno
  | resize hi hid hne hq =>
    rename_i i
    refine uncrossed_of_old (P := fun _ => False) hu (fun j hj => Or.inr ⟨hj, ?_⟩)
      (fun _ _ hc => hc.elim) (fun _ _ hc => hc.elim)
    rw [data_setData]
    split_ifs with hji
    · rw [hji]
      exact ⟨rfl, rfl⟩
    · exact ⟨rfl, rfl⟩
  | cancel hi hid =>
    rename_i i
    exact uncrossed_of_old (P := fun _ => False) hu
      (fun j hj => Or.inr ⟨((resting_leave h.mem.queued (h.mem_queues hi)).mp hj).1, rfl, rfl⟩)
      (fun _ _ hc => hc.elim) (fun _ _ hc => hc.elim)

end View

namespace Engine

variable (cfg : Config)

/-- The order that is to come to rest clears: the new limit order, or the one that gets a new price. -/
def Clearing (e : Engine) : Request → Prop
  | .newOrder id type side price qty => type = .limit → validateOrder cfg (incoming id type side price qty) = true →
    (e.book.view cfg).Clears cfg side price qty
  | .modifyPrice id newPrice => ∀ i ∈ e.book.live cfg, (e.book.order i).id = id → (e.book.order i).price ≠ newPrice →
    (e.book.view cfg).Clears cfg (e.book.order i).side newPrice (e.book.order i).qty
  | _ => True

instance (e : Engine) : ∀ req : Request, Decidable (e.Clearing cfg req)
  | .newOrder _ _ _ _ _ => inferInstanceAs (Decidable (_ → _ → _))
  | .modifyPrice _ _ => inferInstanceAs (Decidable (∀ i ∈ e.book.live cfg, _))
  | .modifyQuantity _ _ => inferInstanceAs (Decidable True)
  | .cancel _ => inferInstanceAs (Decidable True)

variable {cfg} {e : Engine} {reqs : List Request} {i j : ℕ}

theorem Clearing.view {req : Request} (h : e.book.Abs cfg (e.book.view cfg)) (hcl : e.Clearing cfg req) :
    (e.book.view cfg).ClearsFor cfg req := by
  cases req with
  | newOrder id type side price qty => exact hcl
  | modifyPrice id newPrice => exact fun i hi hid hne => hcl i (h.mem_live.mpr hi) hid hne
  | _ => trivial

/-- **The book is never crossed at rest**, in a run whose resting orders all clear and whose new quantities are in
range. -/
theorem book_uncrossed (hrun : Run (Steps cfg)
      (fun e req => e.Admissible cfg req ∧ e.Clearing cfg req ∧ e.Sized cfg req) (.new cfg) reqs e)
    (hi : e.book.Rests cfg .bid i) (hj : e.book.Rests cfg .ask j) : (e.book.order i).price < (e.book.order j).price := by
  obtain ⟨h, -, hu⟩ := run_invariant (I := fun V => V.Sound ∧ V.Uncrossed) (fun _ _ hreq => hreq.1)
    ⟨fun i hi => absurd hi (OrderBook.not_resting_empty i), fun i j hi => absurd hi (OrderBook.not_resting_empty i)⟩
    (fun b V h hI => by
      refine ⟨hI.1.view h, ?_⟩
      rw [h.view_eq]
      exact hI.2)
    (fun e req V evs idx V' h hV hreq hI hS => by
      obtain ⟨-, hcl, hsz⟩ := hreq
      subst hV
      exact ⟨View.sound_step h hI.1 hS (hsz.view h), View.uncrossed_step h hI.1 hI.2 hS (hcl.view h)⟩) hrun
  obtain ⟨hri, hsi⟩ := h.rests_iff.mp hi
  obtain ⟨hrj, hsj⟩ := h.rests_iff.mp hj
  have hc := hu i j hri hrj (by rw [hsi, hsj]; rfl)
  rw [hsi] at hc
  exact not_le.mp (of_decide_eq_false hc)

/-- Two bids below an ask; then one of them is moved up to the ask and trades. -/
def cleared : List Request :=
  [.newOrder 1 .limit .ask 6 5, .newOrder 2 .limit .bid 2 4, .newOrder 3 .limit .bid 3 4, .modifyQuantity 3 2,
   .modifyPrice 3 7]

theorem book_uncrossed_cleared :
    ((afterAll cleared).book.order 1).price < ((afterAll cleared).book.order 0).price :=
  book_uncrossed (run_after (by decide +kernel)) (by decide +kernel) (by decide +kernel)

/-- Asks in two partitions, and a bid above both for more than the first one has. -/
def twoPartitions : List Request :=
  [.newOrder 1 .limit .ask 2 5, .newOrder 2 .limit .ask 6 5, .newOrder 3 .limit .bid 8 7]

/-- The rest of the bid comes to rest at 8, above the ask at 6. -/
theorem crossed_at_rest :
    Run (Steps small) (Admissible small) (.new small) twoPartitions (afterAll twoPartitions) ∧
    (afterAll twoPartitions).book.Rests small .bid 0 ∧ (afterAll twoPartitions).book.Rests small .ask 1 ∧
    ((afterAll twoPartitions).book.order 1).price < ((afterAll twoPartitions).book.order 0).price :=
  ⟨run_after (by decide +kernel), by decide +kernel, by decide +kernel, by decide +kernel⟩

end Engine

end Wirekrak.Flashstrike

import Wirekrak.Flashstrike.Effects

/-!
# Wirekrak.Flashstrike.Quantities — quantities that stay in range

`filled` is an `int64` that grows with every fill.  `OrderData.Sound`: something is left of the order, and filled and
remaining quantity together are in range, so that a fill does not wrap (`fill_eq`, `taken_eq`) and `match_order_` reports
a filled order as filled (`spent_iff`).  Only `modify_order_quantity` can break it: `sound_step`.
-/

namespace Wirekrak.Flashstrike

open Wirekrak.Lib Engine

/-- Something is left, and fills cannot wrap. -/
def OrderData.Sound (d : OrderData) : Prop := 0 < d.qty ∧ 0 ≤ d.filled ∧ d.filled + d.qty < 2 ^ 63

instance (d : OrderData) : Decidable d.Sound := inferInstanceAs (Decidable (_ ∧ _))

theorem OrderData.Sound.fill_eq {d : OrderData} (h : d.Sound) {x : ℤ} (h0 : 0 ≤ x) (h1 : x ≤ d.qty) :
    d.fill x = { d with qty := d.qty - x, filled := d.filled + x } := by
  obtain ⟨-, hf, hlt⟩ := h
  unfold OrderData.fill
  rw [wrap64_of_lt (by omega) (by omega)]

namespace View

variable {cfg : Config} {V V' : View} {d : OrderData} {i j : ℕ}

/-- All resting orders are sound. -/
def Sound (V : View) : Prop := ∀ i, V.queues.Resting i → (V.data i).Sound

/-- A new quantity is positive and leaves the order sound. -/
def Sized (V : View) : Request → Prop
  | .modifyQuantity id newQty => ∀ i, V.queues.Resting i → (V.data i).id = id → (V.data i).filled + newQty < 2 ^ 63
  | _ => True

/-! ## What an order takes -/

section Takes

variable {b : OrderBook} (h : b.Abs cfg V)

include h

theorem takes_nonneg {x : ℤ} (hj : (j, x) ∈ V.takes cfg d) : 0 ≤ x ∧ x ≤ (V.data j).qty := by
  refine ⟨fills_nonneg (fun r hr => ?_) hj, fills_le hj⟩
  obtain ⟨p, hp⟩ := (lined_fresh h.weak h.mem.queued d).rest r hr
  exact (h.orders r ⟨_, p, hp⟩).2

theorem traded_takes (hq : 0 ≤ d.qty) : 0 ≤ traded (V.takes cfg d) ∧ traded (V.takes cfg d) ≤ d.qty := by
  refine traded_le (fun r hr => ?_) hq
  obtain ⟨p, hp⟩ := (lined_fresh h.weak h.mem.queued d).rest r hr
  exact (h.orders r ⟨_, p, hp⟩).2

theorem taken_eq (hd : d.Sound) : V.taken cfg d =
    { d with qty := d.qty - traded (V.takes cfg d), filled := d.filled + traded (V.takes cfg d) } := by
  obtain ⟨hq, hf, hlt⟩ := hd
  obtain ⟨h0, h1⟩ := traded_takes h hq.le
  unfold taken
  rw [foldl_fill _ _ (wrap64_of_lt hf (by omega)), wrap64_of_lt (by omega) (by omega)]

/-- `match_order_` reports a sound order as filled exactly if all of it was taken. -/
theorem spent_iff (hd : d.Sound) : V.Spent cfg d ↔ traded (V.takes cfg d) = d.qty := by
  have htaken := taken_eq h hd
  obtain ⟨hq, hf, hlt⟩ := hd
  obtain ⟨h0, h1⟩ := traded_takes h hq.le
  unfold Spent
  rw [htaken]
  dsimp only
  refine ⟨fun hs => by omega, fun ht => ⟨fun hbl => ?_, by omega, by omega⟩⟩
  have hnil : V.takes cfg d = [] := by
    unfold takes makers
    rw [if_pos hbl]
    rfl
  rw [hnil, traded_nil] at ht
  omega

end Takes

/-! ## One step -/

section Step

variable {b : OrderBook} (h : b.Abs cfg V)

include h

/-- A maker that is not used up stays sound. -/
theorem sound_maker (hs : V.Sound) (hj : V.queues.Resting j) {x : ℤ} (hx : (j, x) ∈ V.takes cfg d)
    (hno : (j, (V.data j).qty) ∉ V.takes cfg d) : (OrderData.fill x (V.data j)).Sound := by
  obtain ⟨h0, h1⟩ := takes_nonneg h hx
  have hne : x ≠ (V.data j).qty := fun he => hno (he ▸ hx)
  have hd := hs j hj
  rw [hd.fill_eq h0 h1]
  obtain ⟨hq, hf, hlt⟩ := hd
  refine ⟨?_, ?_, ?_⟩
  · show 0 < (V.data j).qty - x
    omega
  · show 0 ≤ (V.data j).filled + x
    omega
  · show (V.data j).filled + x + ((V.data j).qty - x) < 2 ^ 63
    omega

theorem sound_swept (hs : V.Sound) (d : OrderData) : (V.swept cfg none d).Sound := by
  have hl := lined_fresh h.weak h.mem.queued d
  intro j hj
  obtain ⟨hr, hno⟩ := (resting_swept_iff hl).mp hj
  by_cases hm : ∃ x, (j, x) ∈ V.takes cfg d
  · obtain ⟨x, hx⟩ := hm
    rw [data_swept_maker hl hx]
    exact sound_maker h hs hr hx hno
  · rw [data_swept_other hl (fun x hx => hm ⟨x, hx⟩) (fun hc => by cases hc)]
    exact hs j hr

theorem sound_requote (hs : V.Sound) {newPrice : ℤ} (hmv : V.Movable cfg i newPrice d) :
    (V.requote cfg i newPrice).Sound := by
  intro j hj
  rcases hmv.resting_requote.mp hj with ⟨hr, hne, hno⟩ | ⟨rfl, hns⟩
  · by_cases hm : ∃ x, (j, x) ∈ V.takes cfg d
    · obtain ⟨x, hx⟩ := hm
      rw [hmv.data_maker hx]
      exact sound_maker h hs hr hx hno
    · rw [hmv.data_other (fun x hx => hm ⟨x, hx⟩) hne]
      exact hs j hr
  · have hd : d.Sound := by
      rw [hmv.data]
      exact hs j ⟨_, _, hmv.mem⟩
    rw [spent_iff h hd] at hns
    rw [hmv.data_self, taken_eq h hd]
    obtain ⟨hq, hf, hlt⟩ := hd
    obtain ⟨h0, h1⟩ := traded_takes (d := d) h hq.le
    refine ⟨?_, ?_, ?_⟩
    · show 0 < d.qty - traded (V.takes cfg d)
      omega
    · show 0 ≤ d.filled + traded (V.takes cfg d)
      omega
    · show d.filled + traded (V.takes cfg d) + (d.qty - traded (V.takes cfg d)) < 2 ^ 63
      omega

/-- **Orders stay sound**, if new quantities are in range. -/
theorem sound_step {n : UInt64} {req : Request} {evs : List TradeEvent} {idx : OrderIdx} (hs : V.Sound)
    (hS : V.Step cfg n req evs idx V') (hsz : V.Sized req) : V'.Sound := by
  cases hS with
  | idle _ => exact hs
  | done hd hval hend => exact sound_swept h hs _
  | rest hd hval hnew hlt hfree hi =>
    rename_i qty d i rest
    intro j hj
    rw [data_enter]
    rcases (resting_enter rest).mp hj with hr | rfl
    · rw [if_neg (fun he : j = i => hi (he ▸ hr))]
      exact sound_swept h hs d j hr
    · rw [if_pos rfl]
      obtain ⟨h0, h1⟩ := qty_of_valid hval
      have htr := traded_takes h (show 0 ≤ d.qty by rw [hd]; exact h0.le)
      refine ⟨?_, htr.1, ?_⟩
      · show 0 < qty - traded (V.takes cfg d)
        omega
      · show traded (V.takes cfg d) + (qty - traded (V.takes cfg d)) < 2 ^ 63
        omega
  | lost hd hval hlt hi =>
    rename_i d i f
    intro j hj
    rw [data_setData, if_neg (fun he : j = i => hi (he ▸ hj))]
    exact sound_swept h hs d j hj
  | reprice hi hid hne hplan hd => exact sound_requote h hs (h.movable hi hplan hd)
  | resize hi hid hne hq =>
    rename_i newQty i
    intro j hj
    rw [data_setData]
    split_ifs with hji
    · obtain ⟨-, hf, -⟩ := hs i hi
      exact ⟨hq, hf, hsz i hi hid⟩
    · exact hs j hj
  | cancel hi hid =>
    rename_i i
    intro j hj
    exact hs j ((resting_leave h.mem.queued (h.mem_queues hi)).mp hj).1

end Step

theorem Sound.view {b : OrderBook} (h : b.Abs cfg V) (hs : V.Sound) : (b.view cfg).Sound := by
  rw [h.view_eq]
  exact hs

end View

namespace Engine

variable (cfg : Config)

/-- A new quantity leaves filled and remaining quantity in range. -/
def Sized (e : Engine) : Request → Prop
  | .modifyQuantity id newQty =>
    ∀ i ∈ e.book.live cfg, (e.book.order i).id = id → (e.book.order i).filled + newQty < 2 ^ 63
  | _ => True

instance (e : Engine) : ∀ req : Request, Decidable (e.Sized cfg req)
  | .modifyQuantity _ _ => inferInstanceAs (Decidable (∀ i ∈ e.book.live cfg, _))
  | .newOrder _ _ _ _ _ => inferInstanceAs (Decidable True)
  | .modifyPrice _ _ => inferInstanceAs (Decidable True)
  | .cancel _ => inferInstanceAs (Decidable True)

variable {cfg} {e : Engine} {V : View} {req : Request}

theorem Sized.view (h : e.book.Abs cfg V) (hs : e.Sized cfg req) : V.Sized req := by
  cases req with
  | modifyQuantity id newQty =>
    intro i hi hid
    have hlt := hs i (h.mem_live.mpr hi) (by rw [h.mem.id_eq]; exact hid)
    rwa [show (e.book.order i).filled = (V.data i).filled from congrArg OrderData.filled (h.mem.data i)] at hlt
  | _ => trivial

end Engine

end Wirekrak.Flashstrike

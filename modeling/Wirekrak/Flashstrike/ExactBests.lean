import Wirekrak.Flashstrike.Levels
import Wirekrak.Flashstrike.Partitions

/-!
# Wirekrak.Flashstrike.ExactBests — when the recorded best prices are exact

* `Bests.Sharp`: the recorded best prices, of the store and of its partitions, are prices at which orders rest.
  Together with `Weak` this makes them exact; a partition without orders has no such price.
* `Sharp.insert`, `Sharp.remove`, `Sharp.relocate`: what keeps it.
* `Careful`: the requests that neither empty a partition nor take a fast path that leaves a price behind.
* `bests_exact`: the best prices are exact in every state of a run of such requests.
-/

namespace Wirekrak.Flashstrike

open Wirekrak.Lib Engine

namespace Bests

variable (cfg : Config) (side : Side)

/-- Orders rest at every price that is recorded as best. -/
structure Sharp (g : Bests) (q : ℤ → List ℕ) : Prop extends Weak cfg side g q where
  resting : g.has = true → q g.best ≠ []
  least : ∀ pid h v, g.part pid = some (h, v) →
    q v ≠ [] ∧ ∀ p, q p ≠ [] → cfg.partitionId p = pid → side.key v ≤ side.key p

variable {cfg side} {g : Bests} {q q' q'' : ℤ → List ℕ} {p newPrice : ℤ}

namespace Sharp

theorem new : Sharp cfg side ⟨false, invalidPrice, fun _ => none⟩ (fun _ => []) where
  toWeak := .new
  resting := nofun
  least := nofun

/-- The recorded prices keep their orders, and no better one gets any. -/
theorem keep (h : Sharp cfg side g q) (hw : Weak cfg side g q') (hbest : g.has = true → q' g.best ≠ [])
    (hpart : ∀ pid f v, g.part pid = some (f, v) → q' v ≠ [] ∧
      ∀ p', q' p' ≠ [] → cfg.partitionId p' = pid → q p' ≠ [] ∨ side.key v ≤ side.key p') : Sharp cfg side g q' := by
  refine ⟨hw, hbest, fun pid f v hk => ⟨(hpart pid f v hk).1, fun p' hp' hpid => ?_⟩⟩
  rcases (hpart pid f v hk).2 p' hp' hpid with h1 | h1
  · exact (h.least pid f v hk).2 p' h1 hpid
  · exact h1

section Removal

variable (h : Sharp cfg side g q) (hq : ∀ p', q' p' ≠ [] → q p' ≠ []) (hkeep : ∀ p', p' ≠ p → q p' ≠ [] → q' p' ≠ [])

include h hq hkeep

/-- The level `p` loses its orders, but is recorded nowhere. -/
theorem drop (hne : ∀ pid f v, g.part pid = some (f, v) → v ≠ p) : Sharp cfg side g q' := by
  refine h.keep (h.toWeak.mono hq) (fun hhas => ?_) (fun pid f v hk => ?_)
  · refine hkeep _ ?_ (h.resting hhas)
    rintro rfl
    obtain ⟨-, ⟨f, v⟩, hk⟩ := h.home hhas
    have h1 := (h.part _ f v hk).2.2.2
    have h2 := (h.least _ f v hk).2 g.best (h.resting hhas) rfl
    have he : side.key v = side.key g.best := by omega
    exact hne _ f v hk (Side.key_inj he)
  · exact ⟨hkeep v (hne pid f v hk) (h.least pid f v hk).1, fun p' hp' _ => Or.inl (hq p' hp')⟩

/-- **A removal** from a partition that keeps an order. -/
theorem remove (hp : q p ≠ []) (hsome : bestOf cfg side q' (cfg.partitionId p) ≠ none) :
    Sharp cfg side (g.remove cfg side q' p) q' := by
  have hweak := h.toWeak.remove hp hq
  obtain ⟨w, hw⟩ := Option.ne_none_iff_exists'.mp hsome
  obtain ⟨hw1, hw2, hw3, hw4⟩ := bestOf_eq_some.mp hw
  obtain ⟨-, ⟨⟨f, v⟩, hk⟩, -⟩ := h.level p hp
  -- the partitions record different prices
  have hother : ∀ pid' f' v', g.part pid' = some (f', v') → pid' ≠ cfg.partitionId p → v' ≠ p := by
    rintro pid' f' v' hk' hne rfl
    exact hne (h.part pid' f' v' hk').2.2.1.symm
  unfold Bests.remove at hweak ⊢
  by_cases hstay : q' p ≠ []
  · rw [if_pos hstay] at hweak ⊢
    have hkeep' : ∀ p', q p' ≠ [] → q' p' ≠ [] := by
      intro p' hp'
      by_cases he : p' = p
      · rw [he]
        exact hstay
      · exact hkeep p' he hp'
    exact h.keep hweak (fun hhas => hkeep' _ (h.resting hhas))
      (fun pid' f' v' hk' => ⟨hkeep' v' (h.least pid' f' v' hk').1, fun p' hp' _ => Or.inl (hq p' hp')⟩)
  rw [if_neg hstay, hk, hw] at hweak ⊢
  dsimp only at hweak ⊢
  by_cases hv : v = p
  · rw [if_pos hv] at hweak ⊢
    refine ⟨hweak, fun hhas => ?_, fun pid' f' v' hk' => ?_⟩
    · dsimp only
      split_ifs with hb
      · exact hw3
      · exact hkeep _ hb (h.resting hhas)
    · change (g.setPart (cfg.partitionId p) (true, w)).part pid' = some (f', v') at hk'
      rw [part_setPart] at hk'
      split_ifs at hk' with hpid
      · rw [Option.some.injEq, Prod.mk.injEq] at hk'
        obtain ⟨-, rfl⟩ := hk'
        exact ⟨hw3, fun p' hp' hpid' => hw4 p' (h.level p' (hq p' hp')).1 (hpid'.trans hpid) hp'⟩
      · exact ⟨hkeep v' (hother pid' f' v' hk' hpid) (h.least pid' f' v' hk').1,
          fun p' hp' hpid' => (h.least pid' f' v' hk').2 p' (hq p' hp') hpid'⟩
  · rw [if_neg hv] at hweak ⊢
    refine h.drop hq hkeep (fun pid' f' v' hk' => ?_)
    by_cases hpid : pid' = cfg.partitionId p
    · rw [hpid, hk, Option.some.injEq, Prod.mk.injEq] at hk'
      rw [← hk'.2]
      exact hv
    · exact hother pid' f' v' hk' hpid

end Removal

/-- **An insertion.**  A price that no order rests at may be recorded before, if the new one is better. -/
theorem insert_of (hw : Weak cfg side g q) (hp : cfg.InPlan p) (hq : ∀ p', q' p' ≠ [] ↔ p' = p ∨ q p' ≠ [])
    (hbest : g.has = true → q g.best ≠ [] ∨ side.key p < side.key g.best)
    (hpart : ∀ pid f v, g.part pid = some (f, v) →
      (q v ≠ [] ∨ pid = cfg.partitionId p ∧ side.key p < side.key v) ∧
        ∀ p', q p' ≠ [] → cfg.partitionId p' = pid → side.key v ≤ side.key p') :
    Sharp cfg side (g.insert cfg side p) q' := by
  have hnew : q' p ≠ [] := (hq p).mpr (Or.inl rfl)
  refine ⟨hw.insert hp (fun p' hp' => (hq p').mp hp'), fun _ => ?_, fun pid f v hk => ?_⟩
  · show q' (tryBest side (g.has, g.best) p).2 ≠ []
    rcases tryBest_snd side (g.has, g.best) p with ⟨h1, -⟩ | ⟨h1, h2, h3⟩
    · rw [h1]
      exact hnew
    · rw [h1]
      refine (hq _).mpr (Or.inr ((hbest h2).resolve_right ?_))
      dsimp only at h3
      omega
  · rw [part_insert] at hk
    split_ifs at hk with hpid
    · rw [Option.some.injEq] at hk
      have hv : v = (tryBest side (g.partAt pid) p).2 := by rw [hk]
      cases hold : g.part pid with
      | none =>
        have hv' : v = p := by
          rw [hv]
          unfold partAt
          rw [hold]
          rfl
        subst hv'
        refine ⟨hnew, fun p' hp' hpid' => ?_⟩
        rcases (hq p').mp hp' with rfl | h1
        · exact le_refl _
        · obtain ⟨-, ⟨hv', h2⟩, -⟩ := hw.level p' h1
          rw [hpid', hold] at h2
          cases h2
      | some fu =>
        obtain ⟨f', u⟩ := fu
        obtain ⟨hu1, hu2⟩ := hpart pid f' u hold
        have hat : g.partAt pid = (f', u) := by
          unfold partAt
          rw [hold]
          rfl
        have hle := tryBest_le side (f', u) p
        rw [hat] at hv
        have hf : f' = true := (hw.part pid f' u hold).1
        refine ⟨?_, fun p' hp' hpid' => ?_⟩
        · rcases tryBest_snd side (f', u) p with ⟨h1, -⟩ | ⟨h1, -, h3⟩
          · rw [hv, h1]
            exact hnew
          · rw [hv, h1]
            refine (hq _).mpr (Or.inr (hu1.resolve_right (fun hc => ?_)))
            dsimp only at h3
            omega
        · rw [hv]
          rcases (hq p').mp hp' with rfl | h1
          · exact hle.1
          · exact (hle.2 hf).trans (hu2 p' h1 hpid')
    · obtain ⟨h1, h2⟩ := hpart pid f v hk
      refine ⟨(hq v).mpr (Or.inr (h1.resolve_right (fun hc => hpid hc.1))), fun p' hp' hpid' => ?_⟩
      rcases (hq p').mp hp' with rfl | h3
      · exact absurd hpid'.symm hpid
      · exact h2 p' h3 hpid'

theorem insert (h : Sharp cfg side g q) (hp : cfg.InPlan p) (hq : ∀ p', q' p' ≠ [] ↔ p' = p ∨ q p' ≠ []) :
    Sharp cfg side (g.insert cfg side p) q' :=
  insert_of h.toWeak hp hq (fun hhas => Or.inl (h.resting hhas))
    (fun pid f v hk => ⟨Or.inl (h.least pid f v hk).1, (h.least pid f v hk).2⟩)

/-- **The slow path of a new price**: the order is removed, then inserted.  The partition may be empty in between if the
order is the best of it, not of the store, and its new price is better. -/
theorem relocate (h : Sharp cfg side g q) (hq : ∀ p', q' p' ≠ [] → q p' ≠ [])
    (hkeep : ∀ p', p' ≠ p → q p' ≠ [] → q' p' ≠ []) (hp : q p ≠ []) (hnew : cfg.InPlan newPrice)
    (hq' : ∀ p', q'' p' ≠ [] ↔ p' = newPrice ∨ q' p' ≠ [])
    (hc : bestOf cfg side q' (cfg.partitionId p) ≠ none ∨ g.best ≠ p ∧ cfg.partitionId newPrice = cfg.partitionId p ∧
      ∀ f v, g.part (cfg.partitionId p) = some (f, v) → side.key newPrice < side.key v) :
    Sharp cfg side ((g.remove cfg side q' p).insert cfg side newPrice) q'' := by
  by_cases hsome : bestOf cfg side q' (cfg.partitionId p) ≠ none
  · exact (h.remove hq hkeep hp hsome).insert hnew hq'
  obtain ⟨hbest, hpid, hbetter⟩ := hc.resolve_left hsome
  rw [not_not] at hsome
  have hempty := bestOf_eq_none.mp hsome
  have hplan : ∀ p', q' p' ≠ [] → cfg.InPlan p' := fun p' hp' => (h.level p' (hq p' hp')).1
  obtain ⟨hplan0, ⟨⟨f, v⟩, hk⟩, -⟩ := h.level p hp
  -- the removal changes nothing
  have hsame : g.remove cfg side q' p = g := by
    unfold Bests.remove
    rw [if_neg (fun hne => hne (hempty p hplan0 rfl)), hk, hsome]
    dsimp only
    rw [if_neg hbest]
  rw [hsame]
  refine insert_of (h.toWeak.mono hq) hnew hq' (fun hhas => Or.inl (hkeep _ hbest (h.resting hhas)))
    (fun pid' f' v' hk' => ?_)
  by_cases hp' : pid' = cfg.partitionId p
  · subst hp'
    exact ⟨Or.inr ⟨hpid.symm, hbetter f' v' hk'⟩, fun p' hp' hpid' => absurd (hempty p' (hplan p' hp') hpid') hp'⟩
  · refine ⟨Or.inl (hkeep v' ?_ (h.least pid' f' v' hk').1),
      fun p' hp'' hpid' => (h.least pid' f' v' hk').2 p' (hq p' hp'') hpid'⟩
    rintro rfl
    exact hp' (h.part pid' f' v' hk').2.2.1.symm

end Sharp

end Bests

namespace View

variable (cfg : Config)

/-- Orders rest at every price that is recorded as best, on both sides. -/
def Sharp (V : View) : Prop := ∀ s, (V.bests s).Sharp cfg s (V.queues s)

/-- Another order of the order's side rests in the partition of the price. -/
def Shared (V : View) (i : ℕ) (p : ℤ) : Prop :=
  ∃ j ∈ V.orders cfg (V.data i).side, j ≠ i ∧ cfg.partitionId (V.data j).price = cfg.partitionId p

instance (V : View) (i : ℕ) (p : ℤ) : Decidable (V.Shared cfg i p) := inferInstanceAs (Decidable (∃ j ∈ _, _))

/-- The recorded best prices follow the order to its new price.  In its own partition, the best order of the store may
only get a worse price, and not if the partition has no other order; the best order of the partition, alone at its
price, may not get a worse one.  Leaving its partition, it leaves another order behind. -/
def Traceable (V : View) (i : ℕ) (newPrice : ℤ) : Prop :=
  (cfg.partitionId (V.data i).price = cfg.partitionId newPrice → (V.data i).price = (V.bests (V.data i).side).best →
    (V.data i).side.isWorse newPrice (V.data i).price = true ∧ V.Shared cfg i (V.data i).price) ∧
  (cfg.partitionId (V.data i).price = cfg.partitionId newPrice → (V.data i).price ≠ (V.bests (V.data i).side).best →
    (V.data i).price = ((V.bests (V.data i).side).partAt (cfg.partitionId (V.data i).price)).2 →
    (V.data i).side.isWorse newPrice (V.data i).price = true → ∃ j ∈ V.queues (V.data i).side (V.data i).price, j ≠ i) ∧
  (cfg.partitionId (V.data i).price ≠ cfg.partitionId newPrice → V.Shared cfg i (V.data i).price)

instance (V : View) (i : ℕ) (newPrice : ℤ) : Decidable (V.Traceable cfg i newPrice) :=
  inferInstanceAs (Decidable ((_ → _ → _ ∧ _) ∧ (_ → _ → _ → _ → ∃ j ∈ _, _) ∧ (_ → _)))

/-- The order takes all that rests in the best partition of the other side. -/
def Drains (V : View) (d : OrderData) : Prop :=
  ¬ V.Blocked d.side d ∧ V.reach cfg d.side.opp ≠ [] ∧ V.quantity (V.reach cfg d.side.opp) ≤ d.qty

instance (V : View) (d : OrderData) : Decidable (V.Drains cfg d) := inferInstanceAs (Decidable (_ ∧ _))

/-- Requests that keep the recorded best prices exact. -/
def Careful (V : View) : Request → Prop
  | .newOrder id type side price qty => validateOrder cfg (incoming id type side price qty) = true →
    ¬ V.Drains cfg (requested id type side price qty)
  | .modifyPrice id newPrice => ∀ i ∈ V.orders cfg .bid ++ V.orders cfg .ask, (V.data i).id = id → (V.data i).price ≠ newPrice →
    V.Traceable cfg i newPrice ∧ ¬ V.Drains cfg { V.data i with price := newPrice } ∧
      (V.leftover cfg { V.data i with price := newPrice } = 0 → V.Shared cfg i newPrice)
  | .modifyQuantity _ _ => True
  | .cancel id => ∀ i ∈ V.orders cfg .bid ++ V.orders cfg .ask, (V.data i).id = id → V.Shared cfg i (V.data i).price

instance (V : View) : ∀ req : Request, Decidable (V.Careful cfg req)
  | .newOrder _ _ _ _ _ => inferInstanceAs (Decidable (_ → ¬ _))
  | .modifyPrice _ _ => inferInstanceAs (Decidable (∀ i ∈ V.orders cfg .bid ++ V.orders cfg .ask, _))
  | .modifyQuantity _ _ => inferInstanceAs (Decidable True)
  | .cancel _ => inferInstanceAs (Decidable (∀ i ∈ V.orders cfg .bid ++ V.orders cfg .ask, _))

variable {cfg} {V : View} {d : OrderData} {s : Side} {p newPrice : ℤ} {i : ℕ}

/-! ## One order -/

theorem sharp_setBests {V' : View} {g : Bests} (hV : V.Sharp cfg) (hopp : V'.queues s.opp = V.queues s.opp)
    (hbests : V'.bests = V.bests) (hg : g.Sharp cfg s (V'.queues s)) : (V'.setBests s g).Sharp cfg := by
  intro t
  rcases Side.eq_or_eq_opp s t with rfl | rfl
  · rw [bests_setBests_self]
    exact hg
  · rw [bests_setBests_opp, hbests, show (V'.setBests s g).queues = V'.queues from rfl, hopp]
    exact hV s.opp

section Order

variable (hs : (V.data i).side = s) (hp : (V.data i).price = p)

include hs hp

theorem queues_link_iff (p' : ℤ) : (V.link i).queues s p' ≠ [] ↔ p' = p ∨ V.queues s p' ≠ [] := by
  refine ⟨queues_link_ne_nil hs hp, fun h => ?_⟩
  rw [queues_link hs hp]
  by_cases he : p' = p
  · rw [he, Queues.set_self]
    exact List.append_ne_nil_of_right_ne_nil _ (List.cons_ne_nil i [])
  · rw [Queues.set_of_ne (fun hc => he hc.2)]
    exact h.resolve_left he

theorem queues_unlink_of_ne {p' : ℤ} (hne : p' ≠ p) (h : V.queues s p' ≠ []) : (V.unlink i).queues s p' ≠ [] := by
  rw [queues_unlink hs hp, Queues.set_of_ne (fun hc => hne hc.2)]
  exact h

omit hp in
theorem queues_move_iff (newPrice p' : ℤ) :
    (V.move i newPrice).queues s p' ≠ [] ↔ p' = newPrice ∨ (V.unlink i).queues s p' ≠ [] := by
  have hd : ((V.unlink i).setPrice i newPrice).data i = { V.data i with price := newPrice } := data_setData_self _ _ _
  exact queues_link_iff (V := (V.unlink i).setPrice i newPrice) (by rw [hd]; exact hs) (by rw [hd]) p'

theorem sharp_attach (hV : V.Sharp cfg) (hplan : cfg.InPlan p) : (V.attach cfg i).Sharp cfg := by
  rw [attach_eq hs hp]
  exact sharp_setBests hV (queues_link_opp hs) rfl ((hV s).insert hplan (queues_link_iff hs hp))

end Order

/-- An order that shares its partition leaves another one in it. -/
theorem Shared.bestOf (h : V.Shared cfg i p) (hq : V.Queued) (hi : i ∈ V.queues s newPrice) :
    bestOf cfg s ((V.unlink i).queues s) (cfg.partitionId p) ≠ none := by
  obtain ⟨j, hj, hne, hpid⟩ := h
  rw [(hq.member s newPrice i hi).1] at hj
  obtain ⟨pj, hplan, hm⟩ := mem_ladder.mp hj
  rw [(hq.member s pj j hm).2] at hpid
  intro hnone
  have hnil := bestOf_eq_none.mp hnone pj hplan hpid
  rw [queues_unlink_eq hq hi] at hnil
  have hmem : j ∈ (V.queues s pj).filter (fun j => j ≠ i) := List.mem_filter.mpr ⟨hm, decide_eq_true hne⟩
  rw [hnil] at hmem
  exact absurd hmem List.not_mem_nil

theorem sharp_detach (hV : V.Sharp cfg) (hq : V.Queued) (hi : i ∈ V.queues s p) (hsh : V.Shared cfg i p) :
    (V.detach cfg i).Sharp cfg := by
  obtain ⟨hs, hp⟩ := hq.member s p i hi
  rw [detach_eq hs hp]
  exact sharp_setBests hV (queues_unlink_opp hs) rfl ((hV s).remove (fun _ => queues_unlink_ne_nil hs hp)
    (fun _ => queues_unlink_of_ne hs hp) (List.ne_nil_of_mem hi) (hsh.bestOf hq hi))

/-- **A new price** that the recorded best prices follow. -/
theorem sharp_reprice (hV : V.Sharp cfg) (hq : V.Queued) (hi : i ∈ V.queues (V.data i).side (V.data i).price)
    (hnew : cfg.InPlan newPrice) (hne : (V.data i).price ≠ newPrice) (htr : V.Traceable cfg i newPrice) :
    (V.reprice cfg i newPrice).Sharp cfg := by
  obtain ⟨s, hs⟩ : ∃ s, (V.data i).side = s := ⟨_, rfl⟩
  obtain ⟨p, hp⟩ : ∃ p, (V.data i).price = p := ⟨_, rfl⟩
  obtain ⟨htrBest, htrPart, htrLeave⟩ := htr
  rw [hs, hp] at hi htrBest htrPart
  rw [hp] at htrLeave
  rw [hp] at hne
  have hg := hV s
  have hqp : V.queues s p ≠ [] := List.ne_nil_of_mem hi
  obtain ⟨hplan, ⟨⟨f, v⟩, hk⟩, -⟩ := hg.level p hqp
  obtain ⟨hv, hleast⟩ := hg.least _ f v hk
  obtain ⟨-, -, hvpid, -⟩ := hg.part _ f v hk
  have hpb : ((V.bests s).partAt (cfg.partitionId p)).2 = v := by
    unfold Bests.partAt
    rw [hk, Option.getD_some]
  have hless : ∀ p', (V.unlink i).queues s p' ≠ [] → V.queues s p' ≠ [] := fun _ => queues_unlink_ne_nil hs hp
  have hkeep : ∀ p', p' ≠ p → V.queues s p' ≠ [] → (V.unlink i).queues s p' ≠ [] :=
    fun _ => queues_unlink_of_ne hs hp
  have hmove := queues_move_iff (V := V) (i := i) hs newPrice
  -- the slow path
  have hslow : (bestOf cfg s ((V.unlink i).queues s) (cfg.partitionId p) ≠ none ∨ (V.bests s).best ≠ p ∧
      cfg.partitionId newPrice = cfg.partitionId p ∧ s.key newPrice < s.key v) →
      (((V.detach cfg i).setPrice i newPrice).attach cfg i).Sharp cfg := by
    intro hc
    rw [slow_eq, hs, hp]
    refine sharp_setBests hV (queues_move_opp hs) rfl (hg.relocate hless hkeep hqp hnew hmove (hc.imp_right ?_))
    rintro ⟨h1, h2, h3⟩
    refine ⟨h1, h2, fun f' v' hk' => ?_⟩
    rw [hk, Option.some.injEq, Prod.mk.injEq] at hk'
    rw [← hk'.2]
    exact h3
  -- a recorded price is that of another level than the order's, or the best of the order's partition
  have hrec : ∀ pid' f' v', (V.bests s).part pid' = some (f', v') → v' = p → v = p := by
    rintro pid' f' v' hk' rfl
    have hpid := (hg.part pid' f' v' hk').2.2.1
    rw [← hpid, hk, Option.some.injEq, Prod.mk.injEq] at hk'
    exact hk'.2
  unfold reprice
  dsimp only
  rw [hs, hp, hpb]
  by_cases hpid : cfg.partitionId p = cfg.partitionId newPrice
  · rw [if_pos hpid]
    by_cases hbest : p = (V.bests s).best
    · obtain ⟨hworse, hshared⟩ := htrBest hpid hbest
      rw [Side.isWorse_iff] at hworse
      rw [if_neg (not_not.mpr hbest), if_neg]
      · exact hslow (Or.inl (hshared.bestOf hq hi))
      · rw [Side.isBetter_iff]
        omega
    · rw [if_pos hbest]
      by_cases hworse : s.isWorse newPrice v = true
      · rw [if_pos hworse]
        rw [Side.isWorse_iff] at hworse
        -- the order leaves a level that is recorded only if others stay there
        have hstay : v = p → (V.unlink i).queues s p ≠ [] := by
          intro he
          obtain ⟨j, hj, hji⟩ := htrPart hpid hbest (hpb.trans he).symm (Side.isWorse_iff.mpr (by rw [← he]; exact hworse))
          rw [queues_unlink_eq hq hi]
          exact List.ne_nil_of_mem (List.mem_filter.mpr ⟨hj, decide_eq_true hji⟩)
        have hgb := (hg.part _ f v hk).2.2.2
        have hweak : (V.bests s).Weak cfg s ((V.move i newPrice).queues s) := hg.toWeak.add
          (fun p' hp' => queues_move_ne_nil hs hp hp') hnew ⟨_, by rw [← hpid]; exact hk⟩ (by omega)
        have hown : (V.bests s).Sharp cfg s ((V.move i newPrice).queues s) := by
          refine hg.keep hweak (fun hhas => (hmove _).mpr (Or.inr (hkeep _ (Ne.symm hbest) (hg.resting hhas))))
            (fun pid' f' v' hk' => ⟨(hmove v').mpr (Or.inr ?_), fun p' hp' hpid' => ?_⟩)
          · by_cases hv' : v' = p
            · rw [hv']
              exact hstay (hrec pid' f' v' hk' hv')
            · exact hkeep v' hv' (hg.least pid' f' v' hk').1
          · rcases queues_move_ne_nil hs hp hp' with rfl | h1
            · rw [← hpid', ← hpid, hk, Option.some.injEq, Prod.mk.injEq] at hk'
              rw [← hk'.2]
              exact Or.inr hworse.le
            · exact Or.inl h1
        intro t
        rcases Side.eq_or_eq_opp s t with rfl | rfl
        · exact hown
        · rw [queues_move_opp hs]
          exact hV s.opp
      · rw [if_neg hworse]
        rw [Side.isWorse_iff, not_lt] at hworse
        by_cases hsome : bestOf cfg s ((V.unlink i).queues s) (cfg.partitionId p) ≠ none
        · exact hslow (Or.inl hsome)
        · rw [not_not] at hsome
          have hvp : v = p := by
            by_contra hc
            exact hkeep v hc hv (bestOf_eq_none.mp hsome v (hg.level v hv).1 hvpid)
          refine hslow (Or.inr ⟨fun hc => hbest hc.symm, hpid.symm, lt_of_le_of_ne hworse (fun hc => ?_)⟩)
          exact hne (hvp ▸ (Side.key_inj hc).symm)
  · rw [if_neg hpid]
    by_cases hpv : p ≠ v
    · rw [if_pos hpv]
      refine sharp_setBests hV (queues_move_opp hs) rfl (Bests.Sharp.insert ?_ hnew hmove)
      exact hg.drop hless hkeep (fun pid' f' v' hk' he => hpv (hrec pid' f' v' hk' he).symm)
    · rw [if_neg hpv]
      exact hslow (Or.inl ((htrLeave hpid).bestOf hq hi))

/-! ## Matching -/

/-- A taker with less than the makers have leaves one of them. -/
theorem sharp_sweep {side : Side} {taker : Option ℕ} {L : List ℕ} {q : ℤ} {k : ℕ} (hl : Lined V side taker L)
    (hV : V.Sharp cfg) (hk : ∀ r ∈ L, cfg.partitionId (V.data r).price = k)
    (hlt : q < (L.map (fun r => (V.data r).qty)).sum) : (V.sweep cfg taker L q).1.Sharp cfg := by
  induction L generalizing V q with
  | nil => exact hV
  | cons r L ih =>
    unfold sweep
    split_ifs with hq
    · obtain ⟨t, ht⟩ : ∃ t, t = min q (V.data r).qty := ⟨_, rfl⟩
      dsimp only
      rw [← ht]
      rw [List.map_cons, List.sum_cons] at hlt
      have hne := hl.ne r List.mem_cons_self
      have hmet : (V.met t taker r).Sharp cfg := by
        intro s
        rw [queues_met, bests_met]
        exact hV s
      have hqty : ((V.met t taker r).data r).qty = (V.data r).qty - t := by
        rw [data_met, if_pos rfl, data_pay, if_neg hne]
        rfl
      by_cases hzero : ((V.met t taker r).data r).qty = 0
      · -- the maker is used up: the next one stays in the partition
        have hLne : L ≠ [] := by
          rintro rfl
          rw [List.map_nil, List.sum_nil] at hlt
          omega
        obtain ⟨j, L', rfl⟩ := List.exists_cons_of_ne_nil hLne
        obtain ⟨p, hp⟩ := hl.rest r List.mem_cons_self
        obtain ⟨pj, hpj⟩ := hl.rest j (List.mem_cons_of_mem r List.mem_cons_self)
        have hmq : (V.met t taker r).Queued := queued_met hl.queued
        have hrm : r ∈ (V.met t taker r).queues side.opp p := by rw [queues_met]; exact hp
        have hjm : j ∈ (V.met t taker r).queues side.opp pj := by rw [queues_met]; exact hpj
        have hshared : (V.met t taker r).Shared cfg r p := by
          refine ⟨j, ?_, ?_, ?_⟩
          · rw [(hmq.member _ _ _ hrm).1]
            exact mem_ladder.mpr ⟨pj, ((hmet side.opp).level pj (List.ne_nil_of_mem hjm)).1, hjm⟩
          · rintro rfl
            exact (List.nodup_cons.mp hl.nodup).1 List.mem_cons_self
          · have h1 := hk r List.mem_cons_self
            have h2 := hk j (List.mem_cons_of_mem r List.mem_cons_self)
            rw [(hl.queued.member _ _ _ hp).2] at h1
            rw [(hl.queued.member _ _ _ hpj).2] at h2
            rw [(hmq.member _ _ _ hjm).2, h1, h2]
        have hnext : ((V.pay t taker).hit cfg t r).Sharp cfg := by
          rw [hit_eq, if_pos hzero]
          exact sharp_detach hmet hmq hrm hshared
        refine ih (lined_tail hl) hnext (fun j' hj' => ?_) ?_
        · rw [data_tail hl hj']
          exact hk j' (List.mem_cons_of_mem r hj')
        · rw [List.map_congr_left (fun j' hj' => by rw [data_tail hl hj'])]
          omega
      · rw [sweep_of_nonpos (by omega), hit_eq, if_neg hzero]
        exact hmet
    · exact hV

/-- The orders in reach are in one partition. -/
theorem reach_partition (hq : V.Queued) {r : ℕ} (hr : r ∈ V.reach cfg s) :
    cfg.partitionId (V.data r).price = cfg.partitionId (V.bests s).best := by
  unfold reach Bests.sweepable at hr
  split_ifs at hr
  · obtain ⟨p, hp, hm⟩ := List.mem_flatMap.mp hr
    have hreach : (V.bests s).Reach cfg p := of_decide_eq_true (List.mem_filter.mp hp).2
    rw [(hq.member s p r hm).2]
    exact hreach.1
  · exact absurd hr List.not_mem_nil

theorem sharp_swept {taker : Option ℕ} (hl : Lined V d.side taker (V.makers cfg d.side d)) (hV : V.Sharp cfg)
    (hd : ¬ V.Drains cfg d) : (V.swept cfg taker d).Sharp cfg := by
  unfold swept
  by_cases hnil : V.makers cfg d.side d = []
  · rw [hnil]
    exact hV
  have hmakers : ¬ V.Blocked d.side d ∧ V.makers cfg d.side d = V.reach cfg d.side.opp := by
    unfold makers at hnil ⊢
    split_ifs at hnil ⊢ with hbl
    · exact absurd rfl hnil
    · exact ⟨hbl, rfl⟩
  rw [hmakers.2] at hnil hl ⊢
  refine sharp_sweep hl hV (fun r hr => reach_partition hl.queued hr) ?_
  by_contra hle
  exact hd ⟨hmakers.1, hnil, not_lt.mp hle⟩

/-- What an order drains does not depend on a new price of its own side. -/
theorem drains_reprice (hs : d.side = (V.data i).side) (newPrice : ℤ) :
    (V.reprice cfg i newPrice).Drains cfg d ↔ V.Drains cfg d := by
  have hreach : (V.reprice cfg i newPrice).reach cfg d.side.opp = V.reach cfg d.side.opp := by
    unfold reach
    rw [hs, bests_reprice_opp, queues_reprice, queues_move_opp rfl]
  have hqty : ∀ L : List ℕ, (V.reprice cfg i newPrice).quantity L = V.quantity L := by
    intro L
    unfold quantity
    congr 1
    refine List.map_congr_left (fun j _ => ?_)
    rw [data_reprice]
    split_ifs with hj
    · rw [hj]
    · rfl
  unfold Drains
  rw [blocked_reprice hs, hreach, hqty]

/-- **A new price, and what the order then takes.** -/
theorem sharp_requote {b : OrderBook} (h : b.Abs cfg V) (hV : V.Sharp cfg) (hmv : V.Movable cfg i newPrice d)
    (hne : (V.data i).price ≠ newPrice) (htr : V.Traceable cfg i newPrice) (hd : ¬ V.Drains cfg d)
    (hleft : V.leftover cfg d = 0 → V.Shared cfg i newPrice) : (V.requote cfg i newPrice).Sharp cfg := by
  obtain ⟨W, hW⟩ : ∃ W, W = (V.reprice cfg i newPrice).swept cfg (some i) d := ⟨_, rfl⟩
  have hWs : W.Sharp cfg := by
    rw [hW]
    refine sharp_swept hmv.lined (sharp_reprice hV hmv.queued hmv.mem hmv.plan hne htr) ?_
    rw [drains_reprice hmv.side_eq]
    exact hd
  have hWq : W.Queued := by
    rw [hW]
    exact queued_swept hmv.lined
  rw [hmv.requote_eq hW rfl]
  split_ifs with hnone hzero
  · exact hWs
  · -- the order is filled, and leaves another one in its new partition
    have hq0 : 0 ≤ d.qty := by
      rw [hmv.data]
      exact (h.orders i ⟨_, _, hmv.mem⟩).2
    have hleft0 : V.leftover cfg d = 0 := by
      rw [leftover_eq h hq0, ← qty_taken]
      exact hzero
    obtain ⟨j, hj, hji, hpid⟩ := hleft hleft0
    obtain ⟨pj, hplanj, hmj⟩ := mem_ladder.mp hj
    have hside : ∀ p, W.queues d.side p = (V.move i newPrice).queues d.side p := by
      intro p
      rw [hW, ← queues_reprice cfg]
      exact queues_sweep_side hmv.lined p
    have hi' : i ∈ W.queues d.side newPrice := by
      rw [hside, queues_move hmv.queued hmv.mem, if_pos ⟨hmv.side_eq, rfl⟩]
      exact List.mem_append_right _ (List.mem_singleton.mpr rfl)
    have hj' : j ∈ W.queues d.side pj := by
      rw [hside, queues_move hmv.queued hmv.mem]
      refine List.mem_append_left _ (List.mem_filter.mpr ⟨?_, decide_eq_true hji⟩)
      rw [hmv.side_eq]
      exact hmj
    have hshared : W.Shared cfg i newPrice := by
      refine ⟨j, ?_, hji, ?_⟩
      · rw [(hWq.member _ _ _ hi').1]
        exact mem_ladder.mpr ⟨pj, hplanj, hj'⟩
      · rw [(hWq.member _ _ _ hj').2, ← (hmv.queued.member _ _ _ hmj).2]
        exact hpid
    have hleave : (W.leave cfg i).Sharp cfg := sharp_detach hWs hWq hi' hshared
    exact hleave
  · exact hWs

/-- **A careful request keeps the recorded best prices exact.** -/
theorem sharp_step {b : OrderBook} (h : b.Abs cfg V) {n : UInt64} {req : Request} {evs : List TradeEvent}
    {idx : OrderIdx} {V' : View} (hV : V.Sharp cfg) (hS : V.Step cfg n req evs idx V') (hc : V.Careful cfg req)
    (hplan : Planned cfg req) : V'.Sharp cfg := by
  have hlive : ∀ {i}, V.queues.Resting i → i ∈ V.orders cfg .bid ++ V.orders cfg .ask := by
    intro i hi
    have hm := h.mem_orders (s := (V.data i).side).mpr ⟨hi, rfl⟩
    rw [List.mem_append]
    cases hside : (V.data i).side with
    | bid => exact Or.inl (hside ▸ hm)
    | ask => exact Or.inr (hside ▸ hm)
  have hswept : ∀ d, ¬ V.Drains cfg d → (V.swept cfg none d).Sharp cfg := fun d hd =>
    sharp_swept (lined_fresh h.weak h.mem.queued d) hV hd
  cases hS with
  | idle _ => exact hV
  | done hd hval hend =>
    rw [hd]
    exact hswept _ (hc hval)
  | rest hd hval hnew hlt hfree hi =>
    rename_i id side price qty d i rest
    have hs : (V.swept cfg none d).Sharp cfg := by
      rw [hd]
      exact hswept _ (hc hval)
    have hprice : d.price = price := by rw [hd]; rfl
    refine sharp_attach (p := price) rfl ?_ (fun s => hs s) hplan
    rw [data_setData_self]
    exact hprice
  | lost hd hval hlt hi =>
    rw [hd]
    exact hswept _ (hc hval)
  | reprice hi hid hne hplan hd =>
    obtain ⟨h1, h2, h3⟩ := hc _ (hlive hi) hid hne
    exact sharp_requote h hV (h.movable hi hplan hd) hne h1 (hd ▸ h2) (hd ▸ h3)
  | resize hi hid hne hq => exact hV
  | cancel hi hid => exact sharp_detach hV h.mem.queued (h.mem_queues hi) (hc _ (hlive hi) hid)

end View

/-! ## The recorded best prices of a book -/

namespace OrderBook

variable (cfg : Config)

/-- The stores and the partitions they hold record the best prices of the resting orders and of the active levels. -/
structure BestsExact (b : OrderBook) : Prop where
  has_iff : ∀ s, (b.getStore s).hasBest = true ↔ ∃ i, b.Rests cfg s i
  best : ∀ s, (b.getStore s).hasBest = true →
    (∃ i, b.Rests cfg s i ∧ (b.order i).price = (b.getStore s).bestPrice) ∧
      ∀ i, b.Rests cfg s i → s.key (b.getStore s).bestPrice ≤ s.key (b.order i).price
  part : ∀ s pid k, b.held s pid = some k →
    (∃ off, off < cfg.partitionSize ∧ (b.level k off).active = true ∧ (b.partition k).bestPrice = (b.level k off).price ∧
      ∀ off', off' < cfg.partitionSize → (b.level k off').active = true →
        s.key (b.partition k).bestPrice ≤ s.key (b.level k off').price) ∨
    ((∀ off, off < cfg.partitionSize → (b.level k off).active = false) ∧ (b.partition k).bestPrice = invalidPrice)

variable {cfg} {b : OrderBook}

theorem bestsExact_of_sharp (h : b.Abs cfg (b.view cfg)) (hV : (b.view cfg).Sharp cfg) : b.BestsExact cfg := by
  have hrests : ∀ s i, b.Rests cfg s i → i ∈ (b.view cfg).queues s (b.order i).price := by
    intro s i hi
    obtain ⟨hr, rfl⟩ := h.rests_iff.mp hi
    exact h.mem_queues hr
  have hqueue : ∀ s p i, i ∈ (b.view cfg).queues s p → b.Rests cfg s i ∧ (b.order i).price = p := by
    intro s p i hi
    obtain ⟨h1, h2⟩ := h.mem.mem_queue hi
    exact ⟨h.rests_iff.mpr ⟨⟨s, p, hi⟩, h1⟩, h2⟩
  refine ⟨fun s => ⟨fun hhas => ?_, fun ⟨i, hi⟩ => ?_⟩, fun s hhas => ⟨?_, fun i hi => ?_⟩, fun s pid k hk => ?_⟩
  · obtain ⟨i, hi⟩ := List.exists_mem_of_ne_nil _ ((hV s).resting hhas)
    exact ⟨i, (hqueue s _ i hi).1⟩
  · obtain ⟨-, ⟨hv, hk⟩, -⟩ := (hV s).level _ (List.ne_nil_of_mem (hrests s i hi))
    exact (hV s).has_iff.mpr ⟨_, hv, hk⟩
  · obtain ⟨i, hi⟩ := List.exists_mem_of_ne_nil _ ((hV s).resting hhas)
    exact ⟨i, hqueue s _ i hi⟩
  · exact ((hV s).level _ (List.ne_nil_of_mem (hrests s i hi))).2.2
  · -- the partition's best price is that of its best level
    have hpart : ((b.view cfg).bests s).part pid = some ((b.partition k).hasBest, (b.partition k).bestPrice) := by
      show (b.held s pid).map _ = _
      rw [hk]
      rfl
    obtain ⟨hne, hleast⟩ := (hV s).least _ _ _ hpart
    obtain ⟨-, hplan, hpid, -⟩ := (hV s).part _ _ _ hpart
    have hlevel : ∀ off, off < cfg.partitionSize →
        b.LevelOk k off (cfg.priceOf pid off) ((b.view cfg).queues s (cfg.priceOf pid off)) :=
      fun off ho => h.mem.shape.level s pid k off hk ho
    have hl := hlevel (cfg.offset (b.partition k).bestPrice) Config.offset_lt
    rw [← hpid, hplan.priceOf_eq] at hl
    refine Or.inl ⟨cfg.offset (b.partition k).bestPrice, Config.offset_lt, hl.active.mpr hne, hl.price.symm,
      fun off' ho' ha' => ?_⟩
    have hl' := hlevel off' ho'
    rw [hl'.price]
    exact hleast _ (hl'.active.mp ha') (Config.partitionId_priceOf (h.mem.shape.parts.pid_lt s pid k hk) ho')

end OrderBook

namespace Engine

variable {cfg : Config} {e : Engine} {reqs : List Request}

/-- **The recorded best prices are exact** in every state of a run of careful requests. -/
theorem bests_exact (hrun : Run (Steps cfg)
      (fun e req => e.Admissible cfg req ∧ Planned cfg req ∧ (e.book.view cfg).Careful cfg req) (.new cfg) reqs e) :
    e.book.BestsExact cfg := by
  obtain ⟨h, hV⟩ := run_invariant (I := fun V => V.Sharp cfg) (fun _ _ hreq => hreq.1)
    (fun _ => Bests.Sharp.new)
    (fun b V h hV => by
      rw [h.view_eq]
      exact hV)
    (fun e req V evs idx V' h hV hreq hI hS => by
      obtain ⟨-, hplan, hc⟩ := hreq
      rw [← hV] at hc
      exact View.sharp_step h hI hS hc hplan) hrun
  exact OrderBook.bestsExact_of_sharp h hV

/-- Orders that are moved, matched and cancelled, none of them the last of its partition. -/
def tended : List Request :=
  [.newOrder 1 .limit .bid 1 5, .newOrder 2 .limit .bid 2 5, .newOrder 3 .limit .bid 3 4, .modifyPrice 1 2,
    .newOrder 4 .limit .ask 3 2, .modifyPrice 3 1, .cancel 2]

theorem bests_exact_tended : (afterAll tended).book.BestsExact small := bests_exact (run_after (by decide +kernel))

/-- The only bid is cancelled: the store still records its price. -/
def lonely : List Request := [.newOrder 1 .limit .bid 1 5, .cancel 1]

theorem best_outlives_order :
    Run (Steps small) (fun e req => e.Admissible small req ∧ Planned small req) (.new small) lonely (afterAll lonely) ∧
    ¬ (afterAll lonely).book.BestsExact small := by
  refine ⟨run_after (by decide +kernel), fun h => ?_⟩
  have hhas : ((afterAll lonely).book.getStore .bid).hasBest = true := by decide +kernel
  obtain ⟨i, hi⟩ := (h.has_iff .bid).mp hhas
  have hnone : ((afterAll lonely).book.view small).orders small .bid = [] := by decide +kernel
  unfold OrderBook.Rests at hi
  rw [hnone] at hi
  exact absurd hi List.not_mem_nil

end Engine

end Wirekrak.Flashstrike

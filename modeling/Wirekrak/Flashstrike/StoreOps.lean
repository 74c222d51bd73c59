import Wirekrak.Flashstrike.Stores

/-!
# Wirekrak.Flashstrike.StoreOps — insert, remove, reprice and resize on the view

What the store operations do to the view: `insert_order_` is `View.attach`, `remove_order_` is `View.detach`,
`reprice_order` is `View.reprice`.  `remove_order_` and `resize_order` always return; the others return unless they
need a partition the pool does not have.
-/

namespace Wirekrak.Flashstrike

open Wirekrak.Lib

namespace View

variable {V : View} {s : Side} {g g' : Bests} {i : ℕ}

@[simp] theorem setBests_setBests : (V.setBests s g).setBests s g' = V.setBests s g' := by
  unfold setBests
  rw [Function.update_idem]

@[simp] theorem setBests_self : V.setBests s (V.bests s) = V := by
  unfold setBests
  rw [Function.update_eq_self]

@[simp] theorem bests_setBests_self : (V.setBests s g).bests s = g := Function.update_self _ _ _

theorem bests_setBests_opp : (V.setBests s g).bests s.opp = V.bests s.opp :=
  Function.update_of_ne (Side.opp_ne s) _ _

/-- All stores record a best price that is not worse than any other. -/
def Weak (cfg : Config) (V : View) : Prop := ∀ s, (V.bests s).Weak cfg s (V.queues s)

end View

namespace OrderBook

variable {cfg : Config} {b b' : OrderBook} {V : View} {s : Side} {p : ℤ} {i k pid : ℕ}

theorem getPartition_eq (h : b.PartsOk cfg) (hk : b.held s pid = some k) : b.getPartition cfg s pid = .ok k := by
  unfold getPartition
  rw [if_neg (by have := h.pid_lt s pid k hk; omega), hk]

/-- A held partition has recorded prices. -/
theorem Mem.part_eq (h : b.Mem cfg V) (hk : b.held s pid = some k) :
    (V.bests s).part pid = some ((b.partition k).hasBest, (b.partition k).bestPrice) := by
  rw [← h.bests s]
  show (b.held s pid).map _ = _
  rw [hk, Option.map_some]

theorem Mem.part_none (h : b.Mem cfg V) (hk : b.held s pid = none) : (V.bests s).part pid = none := by
  rw [← h.bests s]
  show (b.held s pid).map _ = _
  rw [hk, Option.map_none]

theorem samePool_setStore {st : PriceLevelStore} : SamePool b (b.setStore s st) :=
  ⟨by simp, by simp, by simp⟩

theorem samePool_modifyPartition {f : Partition → Partition} : SamePool b (b.modifyPartition k f) :=
  ⟨by simp, by simp, by simp⟩

/-! ## Insertion -/

theorem tryUpdateGlobalBest_eq (st : PriceLevelStore) : st.tryUpdateGlobalBest s p =
    { st with
      bestPrice := (Bests.tryBest s (st.hasBest, st.bestPrice) p).2
      hasBest := (Bests.tryBest s (st.hasBest, st.bestPrice) p).1 } := by
  unfold PriceLevelStore.tryUpdateGlobalBest Bests.tryBest
  split_ifs <;> rfl

theorem tryUpdateBest_eq (part : Partition) : part.tryUpdateBest s p =
    { part with
      hasBest := (Bests.tryBest s (part.hasBest, part.bestPrice) p).1
      bestPrice := (Bests.tryBest s (part.hasBest, part.bestPrice) p).2 } := by
  unfold Partition.tryUpdateBest Bests.tryBest
  split_ifs <;> rfl

theorem mem_tryUpdateGlobal (h : b.Mem cfg V) (s : Side) (p : ℤ) :
    (b.setStore s ((b.getStore s).tryUpdateGlobalBest s p)).Mem cfg
      (V.setBests s ((V.bests s).setGlobal (Bests.tryBest s ((V.bests s).has, (V.bests s).best) p))) := by
  rw [tryUpdateGlobalBest_eq, ← h.bests s]
  have hg := mem_setGlobal (s := s) h (Bests.tryBest s ((b.bests s).has, (b.bests s).best) p).1
    (Bests.tryBest s ((b.bests s).has, (b.bests s).best) p).2
  rw [← h.bests s] at hg
  exact hg

theorem mem_tryUpdatePart (h : b.Mem cfg V) (hk : b.held s pid = some k) (p : ℤ) :
    (b.modifyPartition k (fun part => part.tryUpdateBest s p)).Mem cfg
      (V.setBests s ((V.bests s).setPart pid (Bests.tryBest s ((V.bests s).partAt pid) p))) := by
  unfold Bests.partAt
  rw [h.part_eq hk, Option.getD_some]
  have hb : b.modifyPartition k (fun part => part.tryUpdateBest s p) = b.modifyPartition k (fun part => { part with
      hasBest := (Bests.tryBest s ((b.partition k).hasBest, (b.partition k).bestPrice) p).1
      bestPrice := (Bests.tryBest s ((b.partition k).hasBest, (b.partition k).bestPrice) p).2 }) := by
    unfold modifyPartition
    dsimp only
    rw [tryUpdateBest_eq]
    rfl
  rw [hb]
  exact mem_setPart h hk _ _

/-- Both best prices after an order is linked. -/
theorem mem_tryUpdateBests (h : b.Mem cfg V) (hk : b.held s (cfg.partitionId p) = some k) :
    (b.tryUpdateBests s k p).Mem cfg (V.setBests s ((V.bests s).insert cfg s p)) := by
  have hk1 : (b.setStore s ((b.getStore s).tryUpdateGlobalBest s p)).held s (cfg.partitionId p) = some k := by
    unfold held at hk ⊢
    rw [getStore_setStore_self, tryUpdateGlobalBest_eq]
    exact hk
  have h2 := mem_tryUpdatePart (mem_tryUpdateGlobal h s p) hk1 p
  rw [View.bests_setBests_self, View.setBests_setBests] at h2
  exact h2

theorem samePool_tryUpdateBests : SamePool b (b.tryUpdateBests s k p) := by
  unfold tryUpdateBests
  exact samePool_setStore.trans samePool_modifyPartition

/-- `get_or_create_partition_`: a new partition has no best price yet. -/
theorem getOrCreatePartition_spec (h : b.Mem cfg V) (hok : b.getOrCreatePartition cfg s pid = .ok (k, b')) :
    b'.held s pid = some k ∧ (∀ pid' k', b.held s pid' = some k' → b'.held s pid' = some k') ∧ SamePool b b' ∧
      b'.Mem cfg (V.setBests s ((V.bests s).setPart pid ((V.bests s).partAt pid))) := by
  obtain ⟨hpid, ⟨hk, rfl⟩ | ⟨hnone, rest, hfree, rfl⟩⟩ := getOrCreatePartition_cases hok
  · refine ⟨hk, fun _ _ hk' => hk', SamePool.refl _, ?_⟩
    have he : (V.bests s).setPart pid ((V.bests s).partAt pid) = V.bests s := by
      unfold Bests.setPart Bests.partAt
      rw [h.part_eq hk, Option.getD_some, ← h.part_eq hk, Function.update_eq_self]
    rw [he, View.setBests_self]
    exact h
  · refine ⟨by rw [held_create, if_pos ⟨rfl, rfl⟩], fun pid' k' hk' => ?_, ⟨?_, ?_, by simp⟩, ?_⟩
    · rw [held_create, if_neg]
      · exact hk'
      · rintro ⟨-, rfl⟩
        rw [hnone] at hk'
        cases hk'
    · unfold createPartition
      rw [idMap_setStore]
    · unfold createPartition
      rw [orderPool_setStore]
    · have he : (V.bests s).partAt pid = (false, invalidPrice) := by
        unfold Bests.partAt
        rw [h.part_none hnone, Option.getD_none]
      rw [he]
      exact mem_create h hpid hnone hfree

/-- A recorded price of a partition that is recorded again counts once. -/
theorem insert_setPart (g : Bests) :
    (g.setPart (cfg.partitionId p) (g.partAt (cfg.partitionId p))).insert cfg s p = g.insert cfg s p := by
  unfold Bests.insert Bests.setPart Bests.setGlobal Bests.partAt
  dsimp only
  rw [Function.update_idem, Function.update_self, Option.getD_some]

/-- **`insert_order_`** attaches the order. -/
theorem storeInsert_spec (h : b.Mem cfg V) (hi : ¬ V.queues.Resting i) (hs : (V.data i).side = s)
    (hplan : cfg.InPlan (V.data i).price) (hok : b.storeInsert cfg s i = .ok b') :
    b'.Mem cfg (V.attach cfg i) ∧ SamePool b b' := by
  unfold storeInsert at hok
  dsimp only at hok
  rw [h.price_eq i] at hok
  cases hc : b.getOrCreatePartition cfg s (cfg.partitionId (V.data i).price) with
  | error e => rw [hc] at hok; cases hok
  | ok r =>
    obtain ⟨k, b1⟩ := r
    rw [hc] at hok
    cases hok
    obtain ⟨hk, -, hpool, h1⟩ := getOrCreatePartition_spec h hc
    have h2 := mem_link h1 hi hs rfl hplan hk
    have hk2 : (b1.linkOrder cfg i k).held s (cfg.partitionId (V.data i).price) = some k := by
      rw [sameHeld_linkOrder.held]
      exact hk
    have h3 := mem_tryUpdateBests h2 hk2
    refine ⟨?_, (hpool.trans (samePool_link h1 hi hs rfl hplan hk)).trans samePool_tryUpdateBests⟩
    have he : ∀ g : Bests, (V.setBests s g).link i = (V.link i).setBests s g := fun _ => rfl
    rw [he, View.setBests_setBests, View.bests_setBests_self, insert_setPart] at h3
    rw [View.attach_eq hs rfl]
    exact h3

/-- An insertion that returns has found a partition of the plan. -/
theorem storeInsert_lt (hok : b.storeInsert cfg s i = .ok b') :
    cfg.partitionId (b.order i).price < cfg.numPartitions := by
  unfold storeInsert at hok
  dsimp only at hok
  cases hc : b.getOrCreatePartition cfg s (cfg.partitionId (b.order i).price) with
  | error e => rw [hc] at hok; cases hok
  | ok r => exact (getOrCreatePartition_cases hc).1

/-! ## Removal -/

theorem samePool_recomputeGlobalBest : SamePool b (b.recomputeGlobalBest cfg s) := samePool_setStore

section Remove

variable (h : b.Mem cfg V) (hw : (V.bests s).Weak cfg s (V.queues s)) (hi : i ∈ V.queues s p)

include h hw hi

/-- The store's best price is recomputed: the partition of the removed order records the best of all. -/
theorem mem_recompute {b1 : OrderBook} {V1 : View} (h1 : b1.Mem cfg V1) (hbest : (V.bests s).best = p) {v : ℤ}
    (hv : cfg.InPlan v) (hpid : cfg.partitionId v = cfg.partitionId p)
    (hself : (V1.bests s).part (cfg.partitionId p) = some (true, v)) (hhas : (V1.bests s).has = true)
    (hother : ∀ pid, pid ≠ cfg.partitionId p → (V1.bests s).part pid = (V.bests s).part pid) :
    (b1.recomputeGlobalBest cfg s).Mem cfg (V1.setBests s { V1.bests s with best := v }) := by
  have hplan := (h.shape.mem_plan hi).1
  rw [← h1.bests s] at hself hother
  rw [recomputeGlobalBest_eq h1.shape.parts hself]
  · have he : ({ V1.bests s with best := v } : Bests) = (V1.bests s).setGlobal (true, v) := Bests.ext hhas rfl rfl
    rw [he]
    exact mem_setGlobal h1 true v
  · intro pid' f u hu
    by_cases he : pid' = cfg.partitionId p
    · rw [he, hself, Option.some.injEq, Prod.mk.injEq] at hu
      obtain ⟨-, rfl⟩ := hu
      exact ⟨hv.1, le_refl _⟩
    · rw [hother pid' he] at hu
      obtain ⟨-, h2, h3, h4⟩ := hw.part pid' f u hu
      rw [hbest] at h4
      exact ⟨h2.1, (key_lt_of_partition hplan hv h2 hpid (by rw [h3]; exact he) h4).le⟩

/-- `unlink_order_and_update_partition_`: the recorded price of the partition changes if its best level is emptied
and another one is left. -/
theorem unlinkUpdate_spec (hk : b.held s (cfg.partitionId p) = some k) :
    ∃ changed b1, b.unlinkOrderAndUpdatePartition cfg s i k = (changed, b1) ∧ SamePool b b1 ∧
      b1.getStore s = b.getStore s ∧
      ((changed = false ∧ b1.Mem cfg (V.unlink i) ∧
          (V.bests s).remove cfg s ((V.unlink i).queues s) p = V.bests s) ∨
        (changed = true ∧ ∃ v, cfg.InPlan v ∧ cfg.partitionId v = cfg.partitionId p ∧ 
          b1.Mem cfg ((V.unlink i).setBests s ((V.bests s).setPart (cfg.partitionId p) (true, v))) ∧
          (V.bests s).remove cfg s ((V.unlink i).queues s) p =
            { (V.bests s).setPart (cfg.partitionId p) (true, v) with
              best := if (V.bests s).best = p then v else (V.bests s).best })) := by
  obtain ⟨hs, hp⟩ := h.mem_queue hi
  have hplan := (h.shape.mem_plan hi).1
  have h1 := mem_unlink h hi hk
  have hpool := samePool_unlink h hi hk
  have hk1 : (b.unlinkOrder cfg i k).held s (cfg.partitionId p) = some k := by
    rw [sameHeld_unlinkOrder.held]
    exact hk
  have hlev := h1.shape.levelAt hplan hk1
  have hpart := h.part_eq hk
  obtain ⟨hf, hv1, hv2, -⟩ := hw.part _ _ _ hpart
  rw [hf] at hpart
  have hpt : ((b.unlinkOrder cfg i k).partition k).bestPrice = (b.partition k).bestPrice := by
    rw [partition_unlink h.shape hi hk, if_pos rfl, Partition.unlinkLevel_eq]
  have hst : (b.unlinkOrder cfg i k).getStore s = b.getStore s := getStore_unlinkOrder _ _ _ _ _
  have hempty := isEmpty_bitmap h1.shape hk1
  unfold unlinkOrderAndUpdatePartition Bests.remove
  dsimp only
  rw [h.price_eq i, hp, hpart]
  by_cases hact : ((b.unlinkOrder cfg i k).level k (cfg.offset p)).active = false
  · have hq : (V.unlink i).queues s p = [] := by
      by_contra hne
      rw [hlev.active.mpr hne] at hact
      cases hact
    rw [if_pos hact, if_neg (not_not.mpr hq)]
    cases hb : bestOf cfg s ((V.unlink i).queues s) (cfg.partitionId p) with
    | none =>
      -- the partition is empty: its recorded price stays
      rw [if_pos (hempty.mpr hb)]
      refine ⟨true, _, rfl, hpool, hst, Or.inr ⟨rfl, (b.partition k).bestPrice, hv1, hv2, ?_, ?_⟩⟩
      · have he : (V.bests s).setPart (cfg.partitionId p) (true, (b.partition k).bestPrice) = (V.unlink i).bests s := by
          unfold Bests.setPart
          rw [← hpart, Function.update_eq_self]
          rfl
        rw [he, View.setBests_self]
        exact h1
      · unfold Bests.setPart
        dsimp only
        rw [← hpart, Function.update_eq_self]
    | some w =>
      obtain ⟨hw1, hw2, -, -⟩ := bestOf_eq_some.mp hb
      rw [if_neg (by rw [hempty, hb]; simp), hpt]
      dsimp only
      by_cases hvp : (b.partition k).bestPrice = p
      · rw [if_pos hvp, if_pos hvp]
        refine ⟨true, _, rfl, hpool.trans samePool_modifyPartition, ?_, Or.inr ⟨rfl, w, hw1, hw2, ?_, rfl⟩⟩
        · rw [getStore_modifyPartition, hst]
        · have hm : (b.unlinkOrder cfg i k).modifyPartition k (Partition.recomputeBest cfg s) =
              (b.unlinkOrder cfg i k).modifyPartition k (fun part => { part with hasBest := true, bestPrice := w }) := by
            have hr := recomputeBest_eq h1.shape hk1 hb
            unfold modifyPartition
            unfold partition at hr
            rw [hr]
          rw [hm]
          exact mem_setPart h1 hk1 true w
      · rw [if_neg hvp, if_neg hvp]
        exact ⟨false, _, rfl, hpool, hst, Or.inl ⟨rfl, h1, rfl⟩⟩
  · have hq : (V.unlink i).queues s p ≠ [] := by
      rw [Bool.not_eq_false] at hact
      exact hlev.active.mp hact
    rw [if_neg hact, if_pos hq]
    exact ⟨false, _, rfl, hpool, hst, Or.inl ⟨rfl, h1, rfl⟩⟩

/-- **`remove_order_`** detaches the order. -/
theorem storeRemove_spec : ∃ b', b.storeRemove cfg s i = .ok b' ∧ b'.Mem cfg (V.detach cfg i) ∧ SamePool b b' := by
  obtain ⟨hs, hp⟩ := h.mem_queue hi
  obtain ⟨hplan, k, hk⟩ := h.shape.mem_plan hi
  have hhas : (V.bests s).has = true := hw.has_iff.mpr ⟨_, _, h.part_eq hk⟩
  have hglob : (b.getStore s).hasBest = true ∧ (b.getStore s).bestPrice = (V.bests s).best := by
    rw [← h.bests s] at hhas ⊢
    exact ⟨hhas, rfl⟩
  obtain ⟨changed, b1, he, hpool, hst, hcases⟩ := unlinkUpdate_spec h hw hi hk
  unfold storeRemove
  dsimp only
  rw [h.price_eq i, hp, getPartition_eq h.shape.parts hk, View.detach_eq hs hp]
  dsimp only [bind, Except.bind]
  rw [he]
  dsimp only [pure, Except.pure]
  rw [hst, hglob.1, hglob.2]
  obtain ⟨rfl, h1, hrem⟩ | ⟨rfl, v, hv1, hv2, h1, hrem⟩ := hcases
  · rw [hrem, show V.bests s = (V.unlink i).bests s from rfl, View.setBests_self]
    exact ⟨b1, by simp, h1, hpool⟩
  · rw [hrem]
    by_cases hbest : (V.bests s).best = p
    · refine ⟨b1.recomputeGlobalBest cfg s, by simp [hbest], ?_, hpool.trans samePool_recomputeGlobalBest⟩
      have hm := mem_recompute h hw hi h1 hbest hv1 hv2 (by rw [View.bests_setBests_self, Bests.part_setPart, if_pos rfl])
        (by rw [View.bests_setBests_self]; exact hhas)
        (fun pid hpid => by rw [View.bests_setBests_self, Bests.part_setPart, if_neg hpid])
      rw [View.setBests_setBests, View.bests_setBests_self] at hm
      rw [if_pos hbest]
      exact hm
    · refine ⟨b1, by simp [hbest], ?_, hpool⟩
      rw [if_neg hbest]
      exact h1

end Remove

/-! ## Repricing -/

theorem not_resting_unlink (h : b.Mem cfg V) (hi : i ∈ V.queues s p) : ¬ (V.unlink i).queues.Resting i := by
  obtain ⟨hs, hp⟩ := h.mem_queue hi
  rintro ⟨s', p', hm⟩
  rw [View.queues_unlink hs hp] at hm
  by_cases hsp : s' = s ∧ p' = p
  · rw [hsp.1, hsp.2, Queues.set_self] at hm
    exact (h.shape.nodup s p).not_mem_erase hm
  · rw [Queues.set_of_ne hsp] at hm
    exact hsp (h.shape.queue_unique hi hm)

/-- The price of an order that does not rest. -/
theorem mem_setPrice (h : b.Mem cfg V) (hi : ¬ V.queues.Resting i) (newPrice : ℤ) :
    (b.modifyOrder i (fun o => { o with price := newPrice })).Mem cfg (V.setPrice i newPrice) :=
  mem_setData h rfl (fun hr => absurd hr hi)

theorem samePool_modifyOrder (b : OrderBook) (i : ℕ) (f : Order → Order) (hf : ∀ o, (f o).nextFree = o.nextFree) :
    SamePool b (b.modifyOrder i f) := by
  refine ⟨by simp, by simp, fun j => ?_⟩
  rw [order_modifyOrder]
  split_ifs with hj
  · rw [hj, hf]
  · rfl

/-- The prices of a partition lie between its first and its last one. -/
theorem between_levels (h : b.Shape cfg V.queues) {newPrice : ℤ} (hnew : cfg.InPlan newPrice)
    (hk : b.held s (cfg.partitionId newPrice) = some k) :
    (b.partition k).minPrice ≤ newPrice ∧ newPrice ≤ (b.partition k).maxPrice cfg := by
  have hsz : 0 < cfg.partitionSize := Config.partitionSize_pos
  have h0 := (h.level s _ k 0 hk hsz).price
  have h1 := (h.level s _ k (cfg.partitionSize - 1) hk (by omega)).price
  have hoff : cfg.offset newPrice < cfg.partitionSize := Config.offset_lt
  have he := hnew.priceOf_eq
  unfold level at h0 h1
  unfold Partition.minPrice Partition.maxPrice
  rw [h0, h1]
  unfold Config.priceOf at he ⊢
  omega

section Reprice

variable (h : b.Mem cfg V) (hi : i ∈ V.queues s p) {newPrice : ℤ} (hnew : cfg.InPlan newPrice)

include h hi hnew

theorem mem_relink {k' : ℕ} (hk : b.held s (cfg.partitionId p) = some k)
    (hk' : b.held s (cfg.partitionId newPrice) = some k') :
    (b.relinkOrder cfg i k k' newPrice).Mem cfg (V.move i newPrice) ∧ SamePool b (b.relinkOrder cfg i k k' newPrice) := by
  obtain ⟨hs, hp⟩ := h.mem_queue hi
  have hn := not_resting_unlink h hi
  have h1 := mem_unlink h hi hk
  have h2 := mem_setPrice h1 hn newPrice
  have hk2 : ((b.unlinkOrder cfg i k).modifyOrder i (fun o => { o with price := newPrice })).held s
      (cfg.partitionId newPrice) = some k' := by
    unfold held
    rw [getStore_modifyOrder, getStore_unlinkOrder]
    exact hk'
  have hd : ((V.unlink i).setPrice i newPrice).data i = { V.data i with price := newPrice } :=
    View.data_setData_self _ _ _
  have hs2 : (((V.unlink i).setPrice i newPrice).data i).side = s := by
    rw [hd]
    exact hs
  have hp2 : (((V.unlink i).setPrice i newPrice).data i).price = newPrice := by rw [hd]
  have hp1 := samePool_modifyOrder (b.unlinkOrder cfg i k) i (fun o => { o with price := newPrice }) (fun _ => rfl)
  exact ⟨mem_link h2 hn hs2 hp2 hnew hk2,
    ((samePool_unlink h hi hk).trans hp1).trans (samePool_link h2 hn hs2 hp2 hnew hk2)⟩

/-- The slow path: out of the store, and into it again. -/
theorem storeReprice_slow (hw : (V.bests s).Weak cfg s (V.queues s)) (hok : (do
      let b1 ← b.storeRemove cfg s i
      (b1.modifyOrder i (fun o => { o with price := newPrice })).storeInsert cfg s i) = .ok b') :
    b'.Mem cfg (((V.detach cfg i).setPrice i newPrice).attach cfg i) ∧ SamePool b b' := by
  obtain ⟨hs, hp⟩ := h.mem_queue hi
  obtain ⟨b1, hrem, h1, hpool⟩ := storeRemove_spec h hw hi
  rw [hrem] at hok
  have hn : ¬ (V.detach cfg i).queues.Resting i := not_resting_unlink h hi
  have h2 := mem_setPrice h1 hn newPrice
  have hd : ((V.detach cfg i).setPrice i newPrice).data i = { V.data i with price := newPrice } :=
    View.data_setData_self _ _ _
  have hp1 := samePool_modifyOrder b1 i (fun o => { o with price := newPrice }) (fun _ => rfl)
  obtain ⟨h3, hp3⟩ := storeInsert_spec h2 hn (by rw [hd]; exact hs) (by rw [hd]; exact hnew) hok
  exact ⟨h3, (hpool.trans hp1).trans hp3⟩

/-- The fast paths reprice the order, or leave it to the slow path. -/
theorem flashstrike_spec {r : Option OrderBook} (hok : b.tryToRepriceOrderByFlashstrike cfg s i newPrice = .ok r) :
    (∃ b', r = some b' ∧ b'.Mem cfg (V.reprice cfg i newPrice) ∧ SamePool b b') ∨
      (r = none ∧ V.reprice cfg i newPrice = ((V.detach cfg i).setPrice i newPrice).attach cfg i) := by
  obtain ⟨hs, hp⟩ := h.mem_queue hi
  obtain ⟨hplan, k, hk⟩ := h.shape.mem_plan hi
  have hpb : ((V.bests s).partAt (cfg.partitionId p)).2 = (b.partition k).bestPrice := by
    unfold Bests.partAt
    rw [h.part_eq hk, Option.getD_some]
  have hgb : (b.getStore s).bestPrice = (V.bests s).best := by
    rw [← h.bests s]
    rfl
  unfold tryToRepriceOrderByFlashstrike at hok
  dsimp only at hok
  rw [h.price_eq i, hp, getPartition_eq h.shape.parts hk, hgb] at hok
  simp only [bind, Except.bind] at hok
  unfold View.reprice
  dsimp only
  rw [hs, hp, hpb]
  by_cases hpid : cfg.partitionId p = cfg.partitionId newPrice
  · have hk' : b.held s (cfg.partitionId newPrice) = some k := hpid ▸ hk
    obtain ⟨hm1, hm2⟩ := mem_relink h hi hnew hk hk'
    rw [if_pos hpid] at hok ⊢
    by_cases hgbest : p ≠ (V.bests s).best
    · rw [if_pos hgbest] at hok ⊢
      by_cases hworse : s.isWorse newPrice (b.partition k).bestPrice = true
      · rw [if_pos hworse] at hok ⊢
        cases hok
        exact Or.inl ⟨_, rfl, hm1, hm2⟩
      · rw [if_neg hworse] at hok ⊢
        cases hok
        exact Or.inr ⟨rfl, rfl⟩
    · rw [if_neg hgbest] at hok ⊢
      obtain ⟨hmin, hmax⟩ := between_levels h.shape hnew hk'
      by_cases hbetter : s.isBetter newPrice p = true
      · rw [if_pos (by simp [hbetter, hmin, hmax])] at hok
        rw [if_pos hbetter]
        cases hok
        refine Or.inl ⟨_, rfl, ?_, hm2.trans samePool_setStore⟩
        have hm := mem_setGlobal (s := s) hm1 ((V.bests s).has) newPrice
        have hst : ((b.relinkOrder cfg i k k newPrice).getStore s).hasBest = (V.bests s).has := by
          rw [← show (b.relinkOrder cfg i k k newPrice).bests s = V.bests s from hm1.bests s]
          rfl
        rw [← hst] at hm
        rw [show ({ V.bests s with best := newPrice } : Bests) = ((V.move i newPrice).bests s).setGlobal
          (((b.relinkOrder cfg i k k newPrice).getStore s).hasBest, newPrice) from Bests.ext hst.symm rfl rfl]
        exact hm
      · rw [if_neg (by simp [hbetter])] at hok
        rw [if_neg hbetter]
        cases hok
        exact Or.inr ⟨rfl, rfl⟩
  · rw [if_neg hpid] at hok ⊢
    by_cases hpbest : p ≠ (b.partition k).bestPrice
    · rw [if_pos hpbest] at hok ⊢
      cases hc : b.getOrCreatePartition cfg s (cfg.partitionId newPrice) with
      | error e => rw [hc] at hok; cases hok
      | ok r1 =>
        obtain ⟨k', b1⟩ := r1
        rw [hc] at hok
        cases hok
        obtain ⟨hk', hkeep, hpool, h1⟩ := getOrCreatePartition_spec h hc
        obtain ⟨hm1, hm2⟩ := mem_relink h1 hi hnew (hkeep _ _ hk) hk'
        have hheld : (b1.relinkOrder cfg i k k' newPrice).held s (cfg.partitionId newPrice) = some k' := by
          unfold held relinkOrder
          rw [getStore_linkOrder, getStore_modifyOrder, getStore_unlinkOrder]
          exact hk'
        have hm3 := mem_tryUpdateGlobal (mem_tryUpdatePart hm1 hheld newPrice) s newPrice
        refine Or.inl ⟨_, rfl, ?_, (hpool.trans hm2).trans (samePool_modifyPartition.trans samePool_setStore)⟩
        have he : ∀ g : Bests, (V.setBests s g).move i newPrice = (V.move i newPrice).setBests s g := fun _ => rfl
        rw [he, View.bests_setBests_self, View.setBests_setBests, View.bests_setBests_self,
          View.setBests_setBests] at hm3
        rw [← insert_setPart]
        exact hm3
    · rw [if_neg hpbest] at hok ⊢
      cases hok
      exact Or.inr ⟨rfl, rfl⟩

/-- **`reprice_order`** reprices the order, by one of the fast paths or by the slow one. -/
theorem storeReprice_spec (hw : (V.bests s).Weak cfg s (V.queues s))
    (hok : b.storeReprice cfg s i newPrice = .ok b') : b'.Mem cfg (V.reprice cfg i newPrice) ∧ SamePool b b' := by
  unfold storeReprice at hok
  cases hf : b.tryToRepriceOrderByFlashstrike cfg s i newPrice with
  | error e => rw [hf] at hok; cases hok
  | ok r =>
    rw [hf] at hok
    obtain ⟨b1, rfl, h1, h2⟩ | ⟨rfl, hslow⟩ := flashstrike_spec h hi hnew hf
    · cases hok
      exact ⟨h1, h2⟩
    · rw [hslow]
      exact storeReprice_slow h hi hnew hw hok

end Reprice

/-- A new price that is stored has a partition of the plan. -/
theorem storeReprice_lt {newPrice : ℤ} (hok : b.storeReprice cfg s i newPrice = .ok b')
    (hp : cfg.partitionId (b.order i).price < cfg.numPartitions) : cfg.partitionId newPrice < cfg.numPartitions := by
  by_cases hpid : cfg.partitionId (b.order i).price = cfg.partitionId newPrice
  · rw [← hpid]
    exact hp
  unfold storeReprice at hok
  cases hf : b.tryToRepriceOrderByFlashstrike cfg s i newPrice with
  | error e => rw [hf] at hok; cases hok
  | ok r =>
    rw [hf] at hok
    cases r with
    | none =>
      simp only [bind, Except.bind] at hok
      cases hrem : b.storeRemove cfg s i with
      | error e => rw [hrem] at hok; cases hok
      | ok b1 =>
        rw [hrem] at hok
        have hlt := storeInsert_lt hok
        rw [order_modifyOrder_self] at hlt
        exact hlt
    | some b1 =>
      unfold tryToRepriceOrderByFlashstrike at hf
      dsimp only at hf
      cases hk : b.getPartition cfg s (cfg.partitionId (b.order i).price) with
      | error e => rw [hk] at hf; cases hf
      | ok k =>
        rw [hk] at hf
        simp only [bind, Except.bind] at hf
        rw [if_neg hpid] at hf
        by_cases hpb : (b.order i).price ≠ (b.partition k).bestPrice
        · rw [if_pos hpb] at hf
          cases hc : b.getOrCreatePartition cfg s (cfg.partitionId newPrice) with
          | error e => rw [hc] at hf; cases hf
          | ok r => exact (getOrCreatePartition_cases hc).1
        · rw [if_neg hpb] at hf
          cases hf

/-! ## Resizing -/

/-- The quantity of an order and the total of its level change by the same amount. -/
theorem mem_setQtyTotal (h : b.Mem cfg V) (hi : i ∈ V.queues s p) (hk : b.held s (cfg.partitionId p) = some k)
    {f : Order → Order} {f' : OrderData → OrderData} (hf : (f (b.order i)).data = f' (b.order i).data)
    (hlinks : (f (b.order i)).nextIdx = (b.order i).nextIdx ∧ (f (b.order i)).prevIdx = (b.order i).prevIdx ∧
      (f (b.order i)).side = (b.order i).side ∧ (f (b.order i)).price = (b.order i).price)
    {g : PriceLevel → PriceLevel} {x : ℤ} (hg : ∀ l, g l = l.addQuantity x)
    (hx : (f' (V.data i)).qty = (V.data i).qty + x) :
    ((b.modifyLevel k (cfg.offset p) g).modifyOrder i f).Mem cfg (V.setData i f') := by
  have h1 := mem_addTotal h (h.shape.mem_plan hi).1 hk x hg
  have h2 := mem_setQty h1 hi hf hlinks
  have hcomm : (V.addSlack s p x).setData i f' = (V.setData i f').addSlack s p x := rfl
  have hzero : x + ((V.data i).qty - (f' (V.data i)).qty) = 0 := by omega
  rw [hcomm, View.addSlack_addSlack] at h2
  rw [← View.addSlack_zero (V.setData i f') s p, ← hzero]
  exact h2

/-- **`resize_order`** changes the quantity of the order. -/
theorem storeResize_spec (h : b.Mem cfg V) (hi : i ∈ V.queues s p) (newQty : ℤ) : ∃ b',
    b.storeResize cfg s i newQty = .ok b' ∧ b'.Mem cfg (V.setData i (fun d => { d with qty := newQty })) ∧
      SamePool b b' := by
  obtain ⟨hs, hp⟩ := h.mem_queue hi
  obtain ⟨hplan, k, hk⟩ := h.shape.mem_plan hi
  unfold storeResize
  dsimp only
  rw [h.price_eq i, hp, h.qty_eq i, getPartition_eq h.shape.parts hk]
  refine ⟨_, rfl, mem_setQtyTotal h hi hk rfl ⟨rfl, rfl, rfl, rfl⟩ (fun _ => rfl) (by dsimp only; omega), ?_⟩
  exact samePool_modifyPartition.trans (samePool_modifyOrder _ i _ (fun _ => rfl))

end OrderBook

end Wirekrak.Flashstrike

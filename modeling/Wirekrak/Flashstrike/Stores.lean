import Wirekrak.Flashstrike.View

/-!
# Wirekrak.Flashstrike.Stores — the store operations on the view

Each step of a store operation changes the memory as it changes the view (`mem_link`, `mem_unlink`, `mem_create`,
`mem_setGlobal`, `mem_setPart`, `mem_modifyOrder`, `mem_addTotal`).  The operations are made of these:

* `storeInsert_spec`, `storeRemove_spec`, `storeReprice_spec`, `storeResize_spec`.
-/

namespace Wirekrak.Flashstrike

open Wirekrak.Lib

namespace OrderBook

variable {cfg : Config} {b b' : OrderBook} {V : View} {s : Side} {p : ℤ} {i k pid : ℕ}

namespace Mem

theorem side_eq (h : b.Mem cfg V) (i : ℕ) : (b.order i).side = (V.data i).side := congrArg OrderData.side (h.data i)

theorem price_eq (h : b.Mem cfg V) (i : ℕ) : (b.order i).price = (V.data i).price := congrArg OrderData.price (h.data i)

theorem qty_eq (h : b.Mem cfg V) (i : ℕ) : (b.order i).qty = (V.data i).qty := congrArg OrderData.qty (h.data i)

theorem id_eq (h : b.Mem cfg V) (i : ℕ) : (b.order i).id = (V.data i).id := congrArg OrderData.id (h.data i)

/-- A queued order has the side and the price of its queue. -/
theorem mem_queue (h : b.Mem cfg V) (hi : i ∈ V.queues s p) : (V.data i).side = s ∧ (V.data i).price = p := by
  have hm := h.shape.member s p i hi
  rwa [h.side_eq, h.price_eq] at hm

end Mem

/-! ## Linking and unlinking -/

section Link

variable (h : b.Mem cfg V) (hi : ¬ V.queues.Resting i) (hs : (V.data i).side = s) (hp : (V.data i).price = p)
  (hplan : cfg.InPlan p) (hk : b.held s (cfg.partitionId p) = some k)

include h hi hs hp hplan hk

theorem mem_link : (b.linkOrder cfg i k).Mem cfg (V.link i) := by
  have hs' : (b.order i).side = s := (h.side_eq i).trans hs
  have hp' : (b.order i).price = p := (h.price_eq i).trans hp
  have hV : (V.link i).queues = V.queues.set s p (V.queues s p ++ [i]) := View.queues_link hs hp
  have hpart := partition_link h.shape hi hp' hplan hk
  refine ⟨?_, ?_, ?_, ?_⟩
  · rw [hV]
    exact shape_link h.shape hi hs' hp' hplan hk
  · intro j
    have hd : ((b.linkOrder cfg i k).order j).data = (b.order j).data := by
      rw [order_link h.shape hi hp' hplan hk]
      split_ifs with hj
      · subst hj; rfl
      · rfl
      · rfl
    rw [hd]
    exact h.data j
  · intro s'
    rw [← show b.bests s' = (V.link i).bests s' from h.bests s']
    refine bests_congr (by simp) (fun pid' k' _ => ?_)
    rw [hpart]
    split_ifs with hkk
    · subst hkk
      rw [Partition.linkLevel_eq]
      exact ⟨rfl, rfl⟩
    · exact ⟨rfl, rfl⟩
  · intro s' p' hplan'
    by_cases hsp : s' = s ∧ p' = p
    · obtain ⟨rfl, rfl⟩ := hsp
      have ht := h.totals s' p' hplan'
      rw [totalAt_eq hk] at ht
      have hk' : (b.linkOrder cfg i k).held s' (cfg.partitionId p') = some k := by
        rw [sameHeld_linkOrder.held]
        exact hk
      rw [totalAt_eq hk', level_link h.shape hi hp' hplan hk]
      show wrap64 ((b.level k (cfg.offset p')).totalQty + (b.order i).qty) = _
      rw [ht, wrap64_add, h.qty_eq]
      unfold View.resting
      rw [hV, Queues.set_self, List.map_append, List.sum_append]
      show _ = wrap64 (((V.queues s' p').map (fun j => (V.data j).qty)).sum + ([i].map (fun j => (V.data j).qty)).sum +
        V.slack s' p')
      congr 1
      simp only [List.map_cons, List.map_nil, List.sum_cons, List.sum_nil]
      omega
    · rw [totalAt_of_ne h.shape.parts sameHeld_linkOrder hplan hk (fun k' hkk => by rw [hpart, if_neg hkk])
        (fun off hoff => level_link_ne h.shape hi hp' hplan hk hoff) hplan' hsp, h.totals s' p' hplan']
      unfold View.resting
      rw [hV, Queues.set_of_ne hsp]
      rfl

theorem samePool_link : SamePool b (b.linkOrder cfg i k) := by
  refine ⟨by simp, by simp, fun j => ?_⟩
  rw [order_link h.shape hi ((h.price_eq i).trans hp) hplan hk]
  split_ifs with hj
  · subst hj; rfl
  · rfl
  · rfl

end Link

section Unlink

variable (h : b.Mem cfg V) (hi : i ∈ V.queues s p) (hk : b.held s (cfg.partitionId p) = some k)

include h hi hk

theorem mem_unlink : (b.unlinkOrder cfg i k).Mem cfg (V.unlink i) := by
  obtain ⟨hs, hp⟩ := h.mem_queue hi
  have hplan := (h.shape.mem_plan hi).1
  have hV : (V.unlink i).queues = V.queues.set s p ((V.queues s p).erase i) := View.queues_unlink hs hp
  have hpart := partition_unlink h.shape hi hk
  refine ⟨?_, ?_, ?_, ?_⟩
  · rw [hV]
    exact shape_unlink h.shape hi hk
  · intro j
    rw [show ((b.unlinkOrder cfg i k).order j).data = (b.order j).data by rw [order_unlink h.shape hi hk]; rfl]
    exact h.data j
  · intro s'
    rw [← show b.bests s' = (V.unlink i).bests s' from h.bests s']
    refine bests_congr (by simp) (fun pid' k' _ => ?_)
    rw [hpart]
    split_ifs with hkk
    · subst hkk
      rw [Partition.unlinkLevel_eq]
      exact ⟨rfl, rfl⟩
    · exact ⟨rfl, rfl⟩
  · intro s' p' hplan'
    by_cases hsp : s' = s ∧ p' = p
    · obtain ⟨rfl, rfl⟩ := hsp
      have ht := h.totals s' p' hplan'
      rw [totalAt_eq hk] at ht
      have hk' : (b.unlinkOrder cfg i k).held s' (cfg.partitionId p') = some k := by
        rw [sameHeld_unlinkOrder.held]
        exact hk
      rw [totalAt_eq hk', level_unlink h.shape hi hk]
      show wrap64 ((b.level k (cfg.offset p')).totalQty + -(b.order i).qty) = _
      rw [ht, wrap64_add, h.qty_eq]
      unfold View.resting
      rw [hV, Queues.set_self]
      show _ = wrap64 ((((V.queues s' p').erase i).map (fun j => (V.data j).qty)).sum + V.slack s' p')
      rw [sum_map_erase hi]
      congr 1
      omega
    · rw [totalAt_of_ne h.shape.parts sameHeld_unlinkOrder hplan hk (fun k' hkk => by rw [hpart, if_neg hkk])
        (fun off hoff => level_unlink_ne h.shape hi hk hoff) hplan' hsp, h.totals s' p' hplan']
      unfold View.resting
      rw [hV, Queues.set_of_ne hsp]
      rfl

theorem samePool_unlink : SamePool b (b.unlinkOrder cfg i k) := by
  refine ⟨by simp, by simp, fun j => ?_⟩
  rw [order_unlink h.shape hi hk]

end Unlink

/-! ## Partitions and best prices -/

section Bests

variable (h : b.Mem cfg V)

include h

/-- The stores record other best prices. -/
theorem mem_setBests {g : Bests} (hord : ∀ j, b'.order j = b.order j) (hh : SameHeld b b')
    (hlevels : ∀ k, (b'.partition k).levels = (b.partition k).levels)
    (hbits : ∀ k, (b'.partition k).bitmap = (b.partition k).bitmap)
    (hself : b'.bests s = g) (hother : b'.bests s.opp = b.bests s.opp) : b'.Mem cfg (V.setBests s g) := by
  have hlevel : ∀ k off, b'.level k off = b.level k off := fun k off => congrFun (hlevels k) off
  refine ⟨?_, ?_, ?_, ?_⟩
  · refine h.shape.congr hh (fun _ _ j _ => ?_) (fun k off => ?_) hbits
    · rw [hord]
      exact ⟨rfl, rfl, rfl, rfl⟩
    · rw [hlevel]
      exact ⟨rfl, rfl, rfl, rfl⟩
  · intro j
    rw [hord]
    exact h.data j
  · intro s'
    show b'.bests s' = Function.update V.bests s g s'
    rcases Side.eq_or_eq_opp s s' with rfl | rfl
    · rw [hself, Function.update_self]
    · rw [hother, Function.update_of_ne (Side.opp_ne s), h.bests]
  · intro s' p' hplan'
    rw [show b'.totalAt cfg s' p' = b.totalAt cfg s' p' by unfold totalAt; simp only [hh.held, hlevel]]
    exact h.totals s' p' hplan'

/-- The store's own best price. -/
theorem mem_setGlobal (f : Bool) (v : ℤ) : (b.setStore s { b.getStore s with bestPrice := v, hasBest := f }).Mem cfg
    (V.setBests s ((V.bests s).setGlobal (f, v))) := by
  have hg : ∀ s', ((b.setStore s { b.getStore s with bestPrice := v, hasBest := f }).getStore s').activePartitions =
      (b.getStore s').activePartitions := by
    intro s'
    rw [getStore_setStore]
    split_ifs with he
    · rw [he]
    · rfl
  refine mem_setBests h (by simp) ⟨hg, fun s' => ?_, by simp⟩ (by simp) (by simp) ?_ ?_
  · rw [getStore_setStore]
    split_ifs with he
    · rw [he]
    · rfl
  · rw [← h.bests s]
    unfold bests held Bests.setGlobal
    simp only [getStore_setStore_self, partition_setStore]
  · refine bests_congr ?_ (by simp)
    rw [getStore_setStore, if_neg (Side.opp_ne s)]

/-- The best price of a partition. -/
theorem mem_setPart (hk : b.held s pid = some k) (f : Bool) (v : ℤ) :
    (b.modifyPartition k (fun part => { part with hasBest := f, bestPrice := v })).Mem cfg
      (V.setBests s ((V.bests s).setPart pid (f, v))) := by
  have hp : ∀ k', (b.modifyPartition k (fun part => { part with hasBest := f, bestPrice := v })).partition k' =
      if k' = k then { b.partition k with hasBest := f, bestPrice := v } else b.partition k' :=
    fun k' => partition_modifyPartition _ _ _ _
  refine mem_setBests h (by simp) ⟨by simp, by simp, by simp⟩ (fun k' => ?_) (fun k' => ?_) ?_ ?_
  · rw [hp]
    split_ifs with he
    · rw [he]
    · rfl
  · rw [hp]
    split_ifs with he
    · rw [he]
    · rfl
  · rw [← h.bests s]
    refine Bests.ext (by simp [bests, Bests.setPart]) (by simp [bests, Bests.setPart]) ?_
    funext pid'
    rw [Bests.part_setPart]
    show ((b.modifyPartition k _).held s pid').map _ = if pid' = pid then some (f, v) else (b.held s pid').map _
    rw [show (b.modifyPartition k (fun part => { part with hasBest := f, bestPrice := v })).held s pid' = b.held s pid' by
      unfold held; rw [getStore_modifyPartition]]
    by_cases he : pid' = pid
    · subst he
      rw [if_pos rfl, hk, Option.map_some, hp, if_pos rfl]
    · rw [if_neg he]
      cases hk' : b.held s pid' with
      | none => rfl
      | some k' =>
        have hne : k' ≠ k := by
          rintro rfl
          exact he (h.shape.parts.inj _ _ _ _ _ hk' hk).2
        rw [Option.map_some, Option.map_some, hp, if_neg hne]
  · refine bests_congr (by simp) (fun pid' k' hk' => ?_)
    have hne : k' ≠ k := by
      rintro rfl
      exact Side.opp_ne s (h.shape.parts.inj _ _ _ _ _ hk' hk).1
    rw [hp, if_neg hne]
    exact ⟨rfl, rfl⟩

/-- A partition is taken from the pool. -/
theorem mem_create {rest : List ℕ} (hpid : pid < cfg.numPartitions) (hnone : b.held s pid = none)
    (hfree : b.partPool.freeList = k :: rest) : (b.createPartition cfg s pid k rest).Mem cfg
      (V.setBests s ((V.bests s).setPart pid (false, invalidPrice))) := by
  have hold : ∀ s' pid' k', b.held s' pid' = some k' →
      (b.createPartition cfg s pid k rest).partition k' = b.partition k' := by
    intro s' pid' k' hk'
    rw [partition_create, if_neg]
    rintro rfl
    exact h.shape.parts.not_free s' pid' k' hk' (hfree ▸ List.mem_cons_self)
  have hnew : (b.createPartition cfg s pid k rest).partition k = .initializeForPartid cfg pid := by
    rw [partition_create, if_pos rfl]
  refine ⟨shape_create h.shape hpid hnone hfree, fun j => ?_, fun s' => ?_, fun s' p' hplan' => ?_⟩
  · rw [order_create]
    exact h.data j
  · show _ = Function.update V.bests s _ s'
    rcases Side.eq_or_eq_opp s s' with rfl | rfl
    · rw [Function.update_self, ← h.bests s']
      have hst : (b.createPartition cfg s' pid k rest).getStore s' = { b.getStore s' with
          activePartitions := Function.update (b.getStore s').activePartitions pid (some k)
          activeBitmap := (b.getStore s').activeBitmap.set pid } := getStore_setStore_self _ _ _
      refine Bests.ext (by simp only [bests, Bests.setPart, hst]) (by simp only [bests, Bests.setPart, hst]) ?_
      funext pid'
      rw [Bests.part_setPart]
      show ((b.createPartition cfg s' pid k rest).held s' pid').map _ =
        if pid' = pid then some (false, invalidPrice) else (b.held s' pid').map _
      rw [held_create]
      by_cases hpp : pid' = pid
      · subst hpp
        rw [if_pos ⟨rfl, rfl⟩, Option.map_some, hnew, if_pos rfl]
        rfl
      · rw [if_neg (fun e => hpp e.2), if_neg hpp]
        cases hk' : b.held s' pid' with
        | none => rfl
        | some k' => rw [Option.map_some, Option.map_some, hold _ _ _ hk']
    · rw [Function.update_of_ne (Side.opp_ne s), ← h.bests s.opp]
      refine bests_congr ?_ (fun pid' k' hk' => by rw [hold _ _ _ hk']; exact ⟨rfl, rfl⟩)
      unfold createPartition
      rw [getStore_setStore, if_neg (Side.opp_ne s)]
      cases s <;> rfl
  · have ht := h.totals s' p' hplan'
    unfold totalAt at ht ⊢
    rw [held_create]
    by_cases hpp : s' = s ∧ cfg.partitionId p' = pid
    · obtain ⟨rfl, rfl⟩ := hpp
      rw [hnone] at ht
      rw [if_pos ⟨rfl, rfl⟩]
      dsimp only at ht ⊢
      unfold level
      rw [hnew]
      exact ht
    · rw [if_neg hpp]
      cases hk' : b.held s' (cfg.partitionId p') with
      | none => rw [hk'] at ht; exact ht
      | some k' =>
        rw [hk'] at ht
        dsimp only at ht ⊢
        unfold level
        rw [hold _ _ _ hk']
        exact ht

end Bests

/-! ## Orders and totals -/

section Orders

variable (h : b.Mem cfg V)

include h

theorem data_modifyOrder {f : Order → Order} {f' : OrderData → OrderData}
    (hf : (f (b.order i)).data = f' (b.order i).data) (j : ℕ) :
    ((b.modifyOrder i f).order j).data = (V.setData i f').data j := by
  rw [order_modifyOrder, View.data_setData]
  split_ifs with hj
  · rw [hf, h.data]
  · exact h.data j

/-- An order changes its data, but not the side, the price or the quantity if it rests. -/
theorem mem_setData {f : Order → Order} {f' : OrderData → OrderData} (hf : (f (b.order i)).data = f' (b.order i).data)
    (hq : V.queues.Resting i → (f (b.order i)).nextIdx = (b.order i).nextIdx ∧
      (f (b.order i)).prevIdx = (b.order i).prevIdx ∧ (f (b.order i)).side = (b.order i).side ∧
      (f (b.order i)).price = (b.order i).price ∧ (f (b.order i)).qty = (b.order i).qty) :
    (b.modifyOrder i f).Mem cfg (V.setData i f') := by
  have hdata := data_modifyOrder h hf
  refine ⟨?_, hdata, fun s => ?_, fun s p hp => ?_⟩
  · refine h.shape.congr ⟨by simp, by simp, by simp⟩ (fun s p j hj => ?_) (fun k off => ⟨rfl, rfl, rfl, rfl⟩)
      (fun k => rfl)
    rw [order_modifyOrder]
    split_ifs with hji
    · subst hji
      obtain ⟨h1, h2, h3, h4, -⟩ := hq ⟨s, p, hj⟩
      exact ⟨h1, h2, h3, h4⟩
    · exact ⟨rfl, rfl, rfl, rfl⟩
  · rw [show (b.modifyOrder i f).bests s = b.bests s by cases s <;> rfl]
    exact h.bests s
  · rw [show (b.modifyOrder i f).totalAt cfg s p = b.totalAt cfg s p by cases s <;> rfl, h.totals s p hp]
    unfold View.resting
    congr 2
    show _ = ((V.queues s p).map (fun j => ((V.setData i f').data j).qty)).sum
    congr 1
    refine List.map_congr_left (fun j hj => ?_)
    rw [← h.qty_eq, ← show ((b.modifyOrder i f).order j).qty = ((V.setData i f').data j).qty from
      congrArg OrderData.qty (hdata j), order_modifyOrder]
    split_ifs with hji
    · subst hji
      exact (hq ⟨s, p, hj⟩).2.2.2.2.symm
    · rfl

/-- A resting order changes its quantity; the total of its level does not. -/
theorem mem_setQty (hi : i ∈ V.queues s p) {f : Order → Order} {f' : OrderData → OrderData}
    (hf : (f (b.order i)).data = f' (b.order i).data)
    (hlinks : (f (b.order i)).nextIdx = (b.order i).nextIdx ∧ (f (b.order i)).prevIdx = (b.order i).prevIdx ∧
      (f (b.order i)).side = (b.order i).side ∧ (f (b.order i)).price = (b.order i).price) :
    (b.modifyOrder i f).Mem cfg
      ((V.setData i f').addSlack s p ((V.data i).qty - (f' (V.data i)).qty)) := by
  have hdata := data_modifyOrder h hf
  refine ⟨?_, hdata, fun s => ?_, fun s' p' hp => ?_⟩
  · refine h.shape.congr ⟨by simp, by simp, by simp⟩ (fun s p j hj => ?_) (fun k off => ⟨rfl, rfl, rfl, rfl⟩)
      (fun k => rfl)
    rw [order_modifyOrder]
    split_ifs with hji
    · subst hji
      exact hlinks
    · exact ⟨rfl, rfl, rfl, rfl⟩
  · rw [show (b.modifyOrder i f).bests s = b.bests s by cases s <;> rfl]
    exact h.bests s
  · rw [show (b.modifyOrder i f).totalAt cfg s' p' = b.totalAt cfg s' p' by cases s' <;> rfl, h.totals s' p' hp]
    have hother : ∀ j, j ≠ i → ((V.setData i f').data j).qty = (V.data j).qty := by
      intro j hj
      rw [View.data_setData, if_neg hj]
    show _ = wrap64 (((V.queues s' p').map (fun j => ((V.setData i f').data j).qty)).sum +
      if s' = s ∧ p' = p then V.slack s p + ((V.data i).qty - (f' (V.data i)).qty) else V.slack s' p')
    by_cases hsp : s' = s ∧ p' = p
    · obtain ⟨rfl, rfl⟩ := hsp
      rw [if_pos ⟨rfl, rfl⟩, sum_map_update (h.shape.nodup s' p') hi (fun j => (V.data j).qty) _ hother]
      rw [View.data_setData_self]
      unfold View.resting
      congr 1
      omega
    · rw [if_neg hsp]
      unfold View.resting
      congr 3
      refine List.map_congr_left (fun j hj => (hother j ?_).symm)
      rintro rfl
      exact hsp (h.shape.queue_unique hi hj)

/-- The total of a level changes. -/
theorem mem_addTotal (hplan : cfg.InPlan p) (hk : b.held s (cfg.partitionId p) = some k) (x : ℤ)
    {f : PriceLevel → PriceLevel} (hf : ∀ l, f l = l.addQuantity x) :
    (b.modifyLevel k (cfg.offset p) f).Mem cfg (V.addSlack s p x) := by
  have hpart : ∀ k', (b.modifyLevel k (cfg.offset p) f).partition k' =
      if k' = k then (b.partition k).modifyLevel (cfg.offset p) f else b.partition k' :=
    fun k' => partition_modifyPartition _ _ _ _
  have hlevel : ∀ k' off, (b.modifyLevel k (cfg.offset p) f).level k' off =
      if k' = k ∧ off = cfg.offset p then (b.level k (cfg.offset p)).addQuantity x else b.level k' off := by
    intro k' off
    unfold level
    rw [hpart]
    by_cases hkk : k' = k
    · subst hkk
      rw [if_pos rfl]
      unfold Partition.modifyLevel
      by_cases hoff : off = cfg.offset p
      · subst hoff
        simp [hf]
      · simp [hoff]
    · rw [if_neg hkk, if_neg (fun e => hkk e.1)]
  have hh : SameHeld b (b.modifyLevel k (cfg.offset p) f) :=
    ⟨fun _ => by simp [modifyLevel], fun _ => by simp [modifyLevel], by simp [modifyLevel]⟩
  refine ⟨?_, h.data, fun s' => ?_, fun s' p' hp' => ?_⟩
  · refine h.shape.congr hh (fun s p j hj => ⟨rfl, rfl, rfl, rfl⟩) (fun k' off => ?_) (fun k' => ?_)
    · rw [hlevel]
      split_ifs with he
      · rw [he.1, he.2]
        exact ⟨rfl, rfl, rfl, rfl⟩
      · exact ⟨rfl, rfl, rfl, rfl⟩
    · rw [hpart]
      split_ifs with he
      · rw [he]
        rfl
      · rfl
  · rw [show (b.modifyLevel k (cfg.offset p) f).bests s' = b.bests s' from ?_]
    · exact h.bests s'
    · refine bests_congr (by simp [modifyLevel]) (fun pid' k' _ => ?_)
      rw [hpart]
      split_ifs with he
      · rw [he]
        exact ⟨rfl, rfl⟩
      · exact ⟨rfl, rfl⟩
  · show _ = wrap64 (V.resting s' p' + if s' = s ∧ p' = p then V.slack s p + x else V.slack s' p')
    by_cases hsp : s' = s ∧ p' = p
    · obtain ⟨rfl, rfl⟩ := hsp
      have hk' : (b.modifyLevel k (cfg.offset p') f).held s' (cfg.partitionId p') = some k := by
        rw [hh.held]
        exact hk
      have ht := h.totals s' p' hp'
      rw [totalAt_eq hk] at ht
      rw [if_pos ⟨rfl, rfl⟩, totalAt_eq hk', hlevel, if_pos ⟨rfl, rfl⟩]
      unfold PriceLevel.addQuantity
      dsimp only
      rw [ht, wrap64_add]
      congr 1
      omega
    · rw [if_neg hsp, ← h.totals s' p' hp']
      refine totalAt_of_ne h.shape.parts hh hplan hk (fun k' hkk => ?_) (fun off hoff => ?_) hp' hsp
      · rw [hpart, if_neg hkk]
      · rw [hlevel, if_neg (fun e => hoff e.2)]

end Orders

/-! ## The best of a partition -/

section PartitionBest

variable {Q : Queues} (h : b.Shape cfg Q) (hk : b.held s pid = some k)

include h hk

/-- A set bit is a level with orders. -/
theorem test_bitmap (off : ℕ) : (b.partition k).bitmap.test off = true ↔
    off < cfg.partitionSize ∧ Q s (cfg.priceOf pid off) ≠ [] := by
  by_cases hoff : off < cfg.partitionSize
  · rw [(h.level s pid k off hk hoff).bit]
    exact ⟨fun h1 => ⟨hoff, h1⟩, fun h1 => h1.2⟩
  · rw [h.bits s pid k off hk (by omega)]
    simp [hoff]

theorem isEmpty_bitmap : (b.partition k).bitmap.isEmpty cfg.levelWords = true ↔
    bestOf cfg s (Q s) pid = none := by
  rw [Bitmap.isEmpty_iff, bestOf_eq_none]
  constructor
  · intro hb p hplan hpid
    by_contra hne
    subst hpid
    have ht : (b.partition k).bitmap.test (cfg.offset p) = true := by
      rw [test_bitmap h hk, hplan.priceOf_eq]
      exact ⟨Config.offset_lt, hne⟩
    have hlt : cfg.offset p < cfg.partitionSize := Config.offset_lt
    rw [hb _ (by unfold Config.levelWords; omega)] at ht
    cases ht
  · intro hb off _
    rw [← Bool.not_eq_true, test_bitmap h hk]
    rintro ⟨hoff, hne⟩
    have hlt := h.parts.pid_lt s pid k hk
    exact hne (hb _ (Config.inPlan_priceOf hlt hoff) (Config.partitionId_priceOf hlt hoff))

/-- The set bit the scan stops at: the highest one for bids, the lowest one for asks. -/
theorem bestOffset_eq_some {off : ℕ} (hs : (b.partition k).bestOffset cfg s = some off) :
    off < cfg.partitionSize ∧ bestOf cfg s (Q s) pid = some (cfg.priceOf pid off) := by
  have hlt := h.parts.pid_lt s pid k hk
  have hset : (b.partition k).bitmap.test off = true ∧ ∀ off', off' < cfg.partitionSize →
      (b.partition k).bitmap.test off' = true → s.key (cfg.priceOf pid off) ≤ s.key (cfg.priceOf pid off') := by
    cases s with
    | bid =>
      obtain ⟨-, h2, h3⟩ := Bitmap.highest?_eq_some hs
      refine ⟨h2, fun off' hoff' ht => ?_⟩
      have hle : off' ≤ off := by
        by_contra hgt
        rw [h3 off' (by omega) (by unfold Config.levelWords; omega)] at ht
        cases ht
      simp only [Side.key, Config.priceOf]
      omega
    | ask =>
      obtain ⟨-, h2, h3⟩ := Bitmap.lowest?_eq_some hs
      refine ⟨h2, fun off' hoff' ht => ?_⟩
      have hle : off ≤ off' := by
        by_contra hgt
        rw [h3 off' (by omega)] at ht
        cases ht
      simp only [Side.key, Config.priceOf]
      omega
  obtain ⟨h1, h2⟩ := hset
  obtain ⟨hoff, hne⟩ := (test_bitmap h hk off).mp h1
  refine ⟨hoff, bestOf_eq_some.mpr ⟨Config.inPlan_priceOf hlt hoff, Config.partitionId_priceOf hlt hoff, hne, ?_⟩⟩
  intro p hplan hpid hp
  subst hpid
  have hp' : Q s (cfg.priceOf (cfg.partitionId p) (cfg.offset p)) ≠ [] := by
    rw [hplan.priceOf_eq]
    exact hp
  have hle := h2 _ Config.offset_lt ((test_bitmap h hk _).mpr ⟨Config.offset_lt, hp'⟩)
  rwa [hplan.priceOf_eq] at hle

theorem recomputeBest_eq {w : ℤ} (hw : bestOf cfg s (Q s) pid = some w) :
    (b.partition k).recomputeBest cfg s = { b.partition k with hasBest := true, bestPrice := w } := by
  unfold Partition.recomputeBest
  split
  · rename_i off hs
    obtain ⟨hoff, hb⟩ := bestOffset_eq_some h hk hs
    rw [hw, Option.some.injEq] at hb
    have hp := (h.level s pid k off hk hoff).price
    unfold level at hp
    rw [hp, hb]
  · rename_i hs
    -- no bit is set, but the partition has a best level
    have he : (b.partition k).bitmap.isEmpty cfg.levelWords = true := by
      rw [Bitmap.isEmpty_iff]
      cases s with
      | bid => exact Bitmap.highest?_eq_none hs
      | ask => exact Bitmap.lowest?_eq_none hs
    rw [isEmpty_bitmap h hk, hw] at he
    cases he

end PartitionBest

/-! ## The best of a store -/

/-- The scan keeps the best price it has seen. -/
theorem foldl_best {vs : List ℤ} (hvs : ∀ v ∈ vs, 0 ≤ v) {v0 : ℤ} (hv0 : ∀ v ∈ vs, s.key v0 ≤ s.key v) {acc : ℤ}
    (hacc : acc = invalidPrice ∨ (0 ≤ acc ∧ s.key v0 ≤ s.key acc)) (hin : v0 ∈ vs ∨ acc = v0) (h0 : 0 ≤ v0) :
    vs.foldl (fun a v => if a = invalidPrice || s.isBetter v a then v else a) acc = v0 := by
  induction vs generalizing acc with
  | nil => exact hin.resolve_left (List.not_mem_nil)
  | cons v vs ih =>
    have hv := hvs v List.mem_cons_self
    have hkv := hv0 v List.mem_cons_self
    rw [List.foldl_cons]
    refine ih (fun u hu => hvs u (List.mem_cons_of_mem v hu)) (fun u hu => hv0 u (List.mem_cons_of_mem v hu)) ?_ ?_
    · split_ifs
      · exact Or.inr ⟨hv, hkv⟩
      · exact hacc
    · rcases hin with hin | rfl
      · rcases List.mem_cons.mp hin with rfl | hin
        · right
          split_ifs with hc
          · rfl
          · -- not taken: the price seen before is as good
            simp only [Bool.or_eq_true, decide_eq_true_eq, Side.isBetter_iff, not_or] at hc
            rcases hacc with h1 | h1
            · exact absurd h1 hc.1
            · have he : s.key acc = s.key v0 := by omega
              exact Side.key_inj he
        · exact Or.inl hin
      · right
        have hne : ¬ acc = invalidPrice := by
          unfold invalidPrice
          omega
        have hnb : ¬ s.isBetter v acc = true := by
          rw [Side.isBetter_iff]
          omega
        simp [hne, hnb]

/-- `recompute_global_best_` finds the best of the partitions' best prices. -/
theorem recomputeGlobalBest_eq (hparts : b.PartsOk cfg) {f0 : Bool} {v0 : ℤ} (h0 : (b.bests s).part pid = some (f0, v0))
    (hpart : ∀ pid' f v, (b.bests s).part pid' = some (f, v) → 0 ≤ v ∧ s.key v0 ≤ s.key v) :
    b.recomputeGlobalBest cfg s = b.setStore s { b.getStore s with bestPrice := v0, hasBest := true } := by
  have hheld : ∀ pid', (b.getStore s).activeBitmap.test pid' = true ↔ ∃ k, b.held s pid' = some k := by
    intro pid'
    rw [hparts.bitmap, Option.isSome_iff_exists]
  -- the scanned prices
  have hfold : ∀ (l : List ℕ) (acc : ℤ), (∀ pid' ∈ l, ∃ k, b.held s pid' = some k) →
      l.foldl (b.scanPartition s) acc = ((l.filterMap (b.bests s).part).map Prod.snd).foldl
        (fun a v => if a = invalidPrice || s.isBetter v a then v else a) acc := by
    intro l
    induction l with
    | nil => intro acc _; rfl
    | cons pid' l ih =>
      intro acc hl
      obtain ⟨k, hk⟩ := hl pid' List.mem_cons_self
      have hp : (b.bests s).part pid' = some ((b.partition k).hasBest, (b.partition k).bestPrice) := by
        unfold bests
        dsimp only
        rw [hk, Option.map_some]
      rw [List.foldl_cons, ih _ (fun u hu => hl u (List.mem_cons_of_mem pid' hu)), List.filterMap_cons_some hp,
        List.map_cons, List.foldl_cons]
      congr 1
      unfold scanPartition
      rw [hk]
  have hnew : (b.getStore s).activeBitmap.foldSet (b.scanPartition s) cfg.partitionWords invalidPrice = v0 := by
    rw [Bitmap.foldSet_eq, hfold]
    · refine foldl_best ?_ ?_ (Or.inl rfl) (Or.inl ?_) (hpart pid f0 v0 h0).1
      · intro v hv
        obtain ⟨⟨f, v'⟩, hm, rfl⟩ := List.mem_map.mp hv
        obtain ⟨pid', -, hp⟩ := List.mem_filterMap.mp hm
        exact (hpart pid' f v' hp).1
      · intro v hv
        obtain ⟨⟨f, v'⟩, hm, rfl⟩ := List.mem_map.mp hv
        obtain ⟨pid', -, hp⟩ := List.mem_filterMap.mp hm
        exact (hpart pid' f v' hp).2
      · refine List.mem_map.mpr ⟨(f0, v0), List.mem_filterMap.mpr ⟨pid, ?_, h0⟩, rfl⟩
        have hk : ∃ k, b.held s pid = some k := by
          cases hk : b.held s pid with
          | none =>
            unfold bests at h0
            dsimp only at h0
            rw [hk] at h0
            cases h0
          | some k => exact ⟨k, rfl⟩
        obtain ⟨k, hk⟩ := hk
        have hlt := hparts.pid_lt s pid k hk
        refine List.mem_filter.mpr ⟨List.mem_range.mpr ?_, (hheld pid).mpr ⟨k, hk⟩⟩
        unfold Config.partitionWords
        omega
    · intro pid' hm
      exact (hheld pid').mp (List.mem_filter.mp hm).2
  have hne : v0 ≠ invalidPrice := by
    have := (hpart pid f0 v0 h0).1
    unfold invalidPrice
    omega
  unfold recomputeGlobalBest
  dsimp only
  rw [hnew, decide_eq_true hne]

end OrderBook

end Wirekrak.Flashstrike

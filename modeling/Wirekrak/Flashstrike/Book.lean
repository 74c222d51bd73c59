import Wirekrak.Flashstrike.StoreOps

/-!
# Wirekrak.Flashstrike.Book — the book operations on the view

`Abs cfg b V`: the book stands for the view, its free list for the free indices, its id map for the ids of the resting
orders.  The book operations keep it, for ids that are neither reserved nor in use.

* `insertOrder_spec`, `removeOrder_spec`, `repriceOrder_spec`, `resizeOrder_spec`.
* `weak_attach`, `weak_detach`, `weak_reprice`: the recorded best prices are never worse than another price.
-/

namespace Wirekrak.Flashstrike

open Wirekrak.Lib

/-- The pool after `allocate` returned the index. -/
def OrderPool.taken (p : OrderPool) (i : ℕ) : OrderPool where
  pool := Function.update p.pool i { p.pool i with nextFree := none, prevIdx := none, nextIdx := none, qty := 0 }
  freeHead := (p.pool i).nextFree

theorem Queues.set_opp {Q : Queues} {s : Side} {p : ℤ} {L : List ℕ} : Q.set s p L s.opp = Q s.opp := by
  funext p'
  exact Queues.set_of_ne (fun h => Side.opp_ne s h.1)

namespace View

variable (cfg : Config)

/-- A new order takes a free index. -/
def enter (V : View) (i : ℕ) (rest : List ℕ) (d : OrderData) : View :=
  (({ V with free := rest } : View).setData i (fun _ => d)).attach cfg i

/-- A resting order leaves, and its index is free. -/
def leave (V : View) (i : ℕ) : View := { V.detach cfg i with free := i :: V.free }

variable {cfg} {V : View} {s : Side} {p newPrice : ℤ} {i j : ℕ}

/-! ## Who rests where -/

theorem resting_link : (V.link i).queues.Resting j ↔ V.queues.Resting j ∨ j = i := by
  rw [queues_link rfl rfl]
  constructor
  · rintro ⟨s', p', hm⟩
    by_cases hsp : s' = (V.data i).side ∧ p' = (V.data i).price
    · rw [hsp.1, hsp.2, Queues.set_self] at hm
      rcases List.mem_append.mp hm with hm | hm
      · exact Or.inl ⟨_, _, hm⟩
      · exact Or.inr (List.mem_singleton.mp hm)
    · rw [Queues.set_of_ne hsp] at hm
      exact Or.inl ⟨_, _, hm⟩
  · rintro (⟨s', p', hm⟩ | rfl)
    · refine ⟨s', p', ?_⟩
      by_cases hsp : s' = (V.data i).side ∧ p' = (V.data i).price
      · rw [hsp.1, hsp.2] at hm ⊢
        rw [Queues.set_self]
        exact List.mem_append_left _ hm
      · rw [Queues.set_of_ne hsp]
        exact hm
    · refine ⟨(V.data j).side, (V.data j).price, ?_⟩
      rw [Queues.set_self]
      simp

/-- The queues are those of their orders, without repetition. -/
structure Queued (V : View) : Prop where
  member : ∀ s p i, i ∈ V.queues s p → (V.data i).side = s ∧ (V.data i).price = p
  nodup : ∀ s p, (V.queues s p).Nodup

theorem resting_unlink (h : V.Queued) (hi : i ∈ V.queues s p) :
    (V.unlink i).queues.Resting j ↔ V.queues.Resting j ∧ j ≠ i := by
  obtain ⟨hs, hp⟩ := h.member s p i hi
  rw [queues_unlink hs hp]
  constructor
  · rintro ⟨s', p', hm⟩
    by_cases hsp : s' = s ∧ p' = p
    · rw [hsp.1, hsp.2, Queues.set_self] at hm
      refine ⟨⟨s, p, List.mem_of_mem_erase hm⟩, ?_⟩
      rintro rfl
      exact (h.nodup s p).not_mem_erase hm
    · rw [Queues.set_of_ne hsp] at hm
      refine ⟨⟨s', p', hm⟩, ?_⟩
      rintro rfl
      obtain ⟨hs', hp'⟩ := h.member s' p' j hm
      exact hsp ⟨hs'.symm.trans hs, hp'.symm.trans hp⟩
  · rintro ⟨⟨s', p', hm⟩, hne⟩
    refine ⟨s', p', ?_⟩
    by_cases hsp : s' = s ∧ p' = p
    · rw [hsp.1, hsp.2] at hm ⊢
      rw [Queues.set_self]
      exact (List.mem_erase_of_ne hne).mpr hm
    · rw [Queues.set_of_ne hsp]
      exact hm

theorem resting_move (h : V.Queued) (hi : i ∈ V.queues s p) :
    (V.move i newPrice).queues.Resting j ↔ V.queues.Resting j := by
  unfold move
  rw [resting_link, show ((V.unlink i).setPrice i newPrice).queues = (V.unlink i).queues from rfl, resting_unlink h hi]
  constructor
  · rintro (⟨h1, -⟩ | rfl)
    · exact h1
    · exact ⟨s, p, hi⟩
  · intro h1
    by_cases hj : j = i
    · exact Or.inr hj
    · exact Or.inl ⟨h1, hj⟩

theorem attach_setBests {g : Bests} (hs : (V.data i).side = s) :
    (V.setBests s g).attach cfg i = (V.link i).setBests s (g.insert cfg s (V.data i).price) := by
  have hs' : ((V.setBests s g).data i).side = s := hs
  rw [attach_eq hs' rfl, bests_setBests_self, show (V.setBests s g).link i = (V.link i).setBests s g from rfl,
    setBests_setBests]
  rfl

/-- The slow path records the best prices of a removal and an insertion. -/
theorem slow_eq (V : View) (i : ℕ) (newPrice : ℤ) : ((V.detach cfg i).setPrice i newPrice).attach cfg i =
    (V.move i newPrice).setBests (V.data i).side (((V.bests (V.data i).side).remove cfg (V.data i).side
      ((V.unlink i).queues (V.data i).side) (V.data i).price).insert cfg (V.data i).side newPrice) := by
  have hd : ((V.unlink i).setPrice i newPrice).data i = { V.data i with price := newPrice } := data_setData_self _ _ _
  have hs : (((V.unlink i).setPrice i newPrice).data i).side = (V.data i).side := by rw [hd]
  have hp : (((V.unlink i).setPrice i newPrice).data i).price = newPrice := by rw [hd]
  have he : ∀ g : Bests, ((V.unlink i).setBests (V.data i).side g).setPrice i newPrice =
      ((V.unlink i).setPrice i newPrice).setBests (V.data i).side g := fun _ => rfl
  rw [detach_eq rfl rfl, he, attach_setBests hs, hp]
  rfl

/-- All four paths move the order in the same way; they differ in the recorded best prices. -/
theorem reprice_eq (cfg : Config) (V : View) (i : ℕ) (newPrice : ℤ) :
    ∃ g, V.reprice cfg i newPrice = (V.move i newPrice).setBests (V.data i).side g := by
  unfold reprice
  dsimp only
  rw [slow_eq]
  split_ifs
  · refine ⟨V.bests (V.data i).side, ?_⟩
    rw [show V.bests (V.data i).side = (V.move i newPrice).bests (V.data i).side from rfl, setBests_self]
  · exact ⟨_, rfl⟩
  · exact ⟨_, rfl⟩
  · exact ⟨_, rfl⟩
  · exact ⟨_, rfl⟩
  · exact ⟨_, rfl⟩

theorem data_reprice (cfg : Config) (V : View) (i : ℕ) (newPrice : ℤ) (j : ℕ) :
    (V.reprice cfg i newPrice).data j = if j = i then { V.data i with price := newPrice } else V.data j := by
  obtain ⟨g, hg⟩ := reprice_eq cfg V i newPrice
  rw [hg]
  exact data_setData (V.unlink i) i j (fun d => { d with price := newPrice })

theorem queues_reprice (cfg : Config) (V : View) (i : ℕ) (newPrice : ℤ) :
    (V.reprice cfg i newPrice).queues = (V.move i newPrice).queues := by
  obtain ⟨g, hg⟩ := reprice_eq cfg V i newPrice
  rw [hg]
  rfl

/-! ## The recorded best prices -/

theorem weak_of_side (hs : (V.bests s).Weak cfg s (V.queues s)) (ho : (V.bests s.opp).Weak cfg s.opp (V.queues s.opp)) :
    V.Weak cfg := by
  intro s'
  rcases Side.eq_or_eq_opp s s' with rfl | rfl
  · exact hs
  · exact ho

theorem queues_link_ne_nil (hs : (V.data i).side = s) (hp : (V.data i).price = p) {p' : ℤ}
    (hne : (V.link i).queues s p' ≠ []) : p' = p ∨ V.queues s p' ≠ [] := by
  rw [queues_link hs hp] at hne
  by_cases he : p' = p
  · exact Or.inl he
  · rw [Queues.set_of_ne (fun h => he h.2)] at hne
    exact Or.inr hne

theorem queues_unlink_ne_nil (hs : (V.data i).side = s) (hp : (V.data i).price = p) {p' : ℤ}
    (hne : (V.unlink i).queues s p' ≠ []) : V.queues s p' ≠ [] := by
  rw [queues_unlink hs hp] at hne
  by_cases he : p' = p
  · rw [he, Queues.set_self] at hne
    rw [he]
    intro h0
    rw [h0] at hne
    exact hne rfl
  · rwa [Queues.set_of_ne (fun h => he h.2)] at hne

theorem queues_move_ne_nil (hs : (V.data i).side = s) (hp : (V.data i).price = p) {p' : ℤ}
    (hne : (V.move i newPrice).queues s p' ≠ []) : p' = newPrice ∨ V.queues s p' ≠ [] := by
  have hd : ((V.unlink i).setPrice i newPrice).data i = { V.data i with price := newPrice } := data_setData_self _ _ _
  rcases queues_link_ne_nil (by rw [hd]; exact hs) (by rw [hd]) hne with h1 | h1
  · exact Or.inl h1
  · exact Or.inr (queues_unlink_ne_nil hs hp h1)

theorem queues_link_opp (hs : (V.data i).side = s) : (V.link i).queues s.opp = V.queues s.opp := by
  rw [queues_link hs rfl, Queues.set_opp]

theorem queues_unlink_opp (hs : (V.data i).side = s) : (V.unlink i).queues s.opp = V.queues s.opp := by
  rw [queues_unlink hs rfl, Queues.set_opp]

theorem queues_move_opp (hs : (V.data i).side = s) : (V.move i newPrice).queues s.opp = V.queues s.opp := by
  have hd : ((V.unlink i).setPrice i newPrice).data i = { V.data i with price := newPrice } := data_setData_self _ _ _
  unfold move
  rw [queues_link_opp (by rw [hd]; exact hs)]
  exact queues_unlink_opp hs

theorem weak_setBests {V' : View} {g : Bests} (hw : V.Weak cfg) (hopp : V'.queues s.opp = V.queues s.opp)
    (hbests : V'.bests = V.bests) (hg : g.Weak cfg s (V'.queues s)) : (V'.setBests s g).Weak cfg := by
  refine weak_of_side (s := s) ?_ ?_
  · rw [bests_setBests_self]
    exact hg
  · rw [bests_setBests_opp, hbests, show (V'.setBests s g).queues = V'.queues from rfl, hopp]
    exact hw s.opp

theorem weak_attach (hw : V.Weak cfg) (hs : (V.data i).side = s) (hp : (V.data i).price = p) (hplan : cfg.InPlan p) :
    (V.attach cfg i).Weak cfg := by
  rw [attach_eq hs hp]
  exact weak_setBests hw (queues_link_opp hs) rfl
    ((hw s).insert hplan (fun _ hne => queues_link_ne_nil hs hp hne))

theorem weak_detach (hw : V.Weak cfg) (hs : (V.data i).side = s) (hp : (V.data i).price = p)
    (hi : i ∈ V.queues s p) : (V.detach cfg i).Weak cfg := by
  rw [detach_eq hs hp]
  exact weak_setBests hw (queues_unlink_opp hs) rfl
    ((hw s).remove (List.ne_nil_of_mem hi) (fun _ hne => queues_unlink_ne_nil hs hp hne))

/-- A new price keeps the recorded best prices from being worse than another price, whichever path is taken. -/
theorem weak_reprice (hw : V.Weak cfg) (hs : (V.data i).side = s) (hp : (V.data i).price = p) (hi : i ∈ V.queues s p)
    (hnew : cfg.InPlan newPrice) : (V.reprice cfg i newPrice).Weak cfg := by
  obtain ⟨hplan, ⟨⟨f, v⟩, hpart⟩, hle⟩ := (hw s).level p (List.ne_nil_of_mem hi)
  have hhas : (V.bests s).has = true := (hw s).has_iff.mpr ⟨_, _, hpart⟩
  obtain ⟨rfl, hv1, hv2, hv3⟩ := (hw s).part _ f v hpart
  have hq : ∀ p', (V.move i newPrice).queues s p' ≠ [] → p' = newPrice ∨ V.queues s p' ≠ [] :=
    fun p' hne => queues_move_ne_nil hs hp hne
  have hslow : (((V.detach cfg i).setPrice i newPrice).attach cfg i).Weak cfg := by
    have hd : ((V.detach cfg i).setPrice i newPrice).data i = { V.data i with price := newPrice } :=
      data_setData_self _ _ _
    have hs1 : (((V.detach cfg i).setPrice i newPrice).data i).side = s := by
      rw [hd]
      exact hs
    exact weak_attach (weak_detach hw hs hp hi) hs1 (by rw [hd]) hnew
  have hpb : ((V.bests s).partAt (cfg.partitionId p)).2 = v := by
    unfold Bests.partAt
    rw [hpart, Option.getD_some]
  unfold reprice
  dsimp only
  rw [hs, hp, hpb]
  by_cases hpid : cfg.partitionId p = cfg.partitionId newPrice
  · rw [if_pos hpid]
    by_cases hgb : p ≠ (V.bests s).best
    · rw [if_pos hgb]
      by_cases hworse : s.isWorse newPrice v = true
      · rw [if_pos hworse]
        rw [Side.isWorse_iff] at hworse
        refine weak_of_side (s := s) ((hw s).add hq hnew ⟨_, by rw [← hpid]; exact hpart⟩ (by omega)) ?_
        rw [queues_move_opp hs]
        exact hw s.opp
      · rw [if_neg hworse]
        exact hslow
    · rw [if_neg hgb]
      rw [not_not] at hgb
      by_cases hbetter : s.isBetter newPrice p = true
      · rw [if_pos hbetter]
        rw [Side.isBetter_iff] at hbetter
        refine weak_setBests hw (queues_move_opp hs) rfl ((hw s).moveBest hhas hnew (by rw [← hpid, hgb])
          (V.bests s).part (fun _ _ => rfl) ⟨v, by rw [← hgb]; exact hpart, hv1, by rw [hv2, hgb], ?_⟩ ?_)
        · rw [← hgb] at hv3
          omega
        · intro p' hne
          refine ⟨(hq p' hne).symm, fun _ => ?_⟩
          rcases hq p' hne with rfl | h1
          · exact le_refl _
          · have := ((hw s).level p' h1).2.2
            rw [← hgb] at this
            omega
      · rw [if_neg hbetter]
        exact hslow
  · rw [if_neg hpid]
    by_cases hpv : p ≠ v
    · rw [if_pos hpv]
      exact weak_setBests hw (queues_move_opp hs) rfl ((hw s).insert hnew hq)
    · rw [if_neg hpv]
      exact hslow

end View

namespace OrderBook

variable (cfg : Config)

/-- **The book stands for the view.** -/
structure Abs (b : OrderBook) (V : View) : Prop where
  mem : b.Mem cfg V
  weak : V.Weak cfg
  chain : Chain (fun j => (b.order j).nextFree) b.orderPool.freeHead V.free
  freeNodup : V.free.Nodup
  index : ∀ i, i < cfg.maxOrders ↔ i ∈ V.free ∨ V.queues.Resting i
  disjoint : ∀ i ∈ V.free, ¬ V.queues.Resting i
  ids : ∃ f, OrderIdMap.Rep b.idMap f ∧ ∀ id i, f id = some i ↔ V.queues.Resting i ∧ (V.data i).id = id
  orders : ∀ i, V.queues.Resting i → (V.data i).type = .limit ∧ 0 ≤ (V.data i).qty

variable {cfg} {b b' : OrderBook} {V V' : View} {s : Side} {p : ℤ} {i : ℕ} {id : OrderId}

theorem Mem.queued (h : b.Mem cfg V) : V.Queued := ⟨fun _ _ _ hi => h.mem_queue hi, h.shape.nodup⟩

/-- `Mem` does not depend on the free list and the id map. -/
theorem Mem.congr (h : b.Mem cfg V)
    (horder : ∀ j, b'.order j = { b.order j with nextFree := (b'.order j).nextFree })
    (hstore : ∀ s, b'.getStore s = b.getStore s) (hpart : b'.partPool = b.partPool) : b'.Mem cfg V := by
  have hheld : ∀ s pid, b'.held s pid = b.held s pid := by
    intro s pid
    unfold held
    rw [hstore]
  have hp : ∀ k, b'.partition k = b.partition k := by
    intro k
    unfold partition
    rw [hpart]
  refine ⟨?_, fun j => ?_, fun s => ?_, fun s p hplan => ?_⟩
  · refine h.shape.congr ⟨fun s => by rw [hstore], fun s => by rw [hstore], by rw [hpart]⟩ (fun s p j _ => ?_)
      (fun k off => ?_) (fun k => by rw [hp])
    · rw [horder j]
      exact ⟨rfl, rfl, rfl, rfl⟩
    · unfold level
      rw [hp]
      exact ⟨rfl, rfl, rfl, rfl⟩
  · rw [horder j]
    exact h.data j
  · rw [← h.bests s]
    exact bests_congr (hstore s) (fun pid k _ => by rw [hp]; exact ⟨rfl, rfl⟩)
  · rw [← h.totals s p hplan]
    unfold totalAt level
    simp only [hheld, hp]

namespace Abs

theorem find_iff (h : b.Abs cfg V) : b.idMap.find id = some i ↔ V.queues.Resting i ∧ (V.data i).id = id := by
  obtain ⟨f, hf, hids⟩ := h.ids
  rw [OrderIdMap.find_eq hf, hids]

/-- A resting order is found by its id. -/
theorem find_resting (h : b.Abs cfg V) (hi : V.queues.Resting i) : b.idMap.find (V.data i).id = some i :=
  h.find_iff.mpr ⟨hi, rfl⟩

theorem id_inj (h : b.Abs cfg V) {j : ℕ} (hi : V.queues.Resting i) (hj : V.queues.Resting j)
    (he : (V.data i).id = (V.data j).id) : i = j := by
  have h1 := h.find_resting hi
  rw [he, h.find_resting hj] at h1
  exact (Option.some.inj h1).symm

theorem usable (h : b.Abs cfg V) (hi : V.queues.Resting i) : OrderIdMap.Usable (V.data i).id := by
  obtain ⟨f, hf, hids⟩ := h.ids
  exact hf.usable _ i ((hids _ i).mpr ⟨hi, rfl⟩)

/-- The queue of a resting order. -/
theorem mem_queues (h : b.Abs cfg V) (hi : V.queues.Resting i) : i ∈ V.queues (V.data i).side (V.data i).price := by
  obtain ⟨s, p, hm⟩ := hi
  obtain ⟨hs, hp⟩ := h.mem.mem_queue hm
  rw [hs, hp]
  exact hm

/-- The store operations do not touch the free list and the id map. -/
theorem step (h : b.Abs cfg V) (hmem : b'.Mem cfg V') (hpool : SamePool b b') (hweak : V'.Weak cfg)
    (hfree : V'.free = V.free) (hrest : ∀ j, V'.queues.Resting j ↔ V.queues.Resting j)
    (hid : ∀ j, (V'.data j).id = (V.data j).id)
    (horders : ∀ j, V'.queues.Resting j → (V'.data j).type = .limit ∧ 0 ≤ (V'.data j).qty) : b'.Abs cfg V' := by
  refine ⟨hmem, hweak, ?_, by rw [hfree]; exact h.freeNodup, fun j => ?_, fun j hj => ?_, ?_, horders⟩
  · rw [hpool.freeHead, hfree]
    exact h.chain.congr (fun j _ => hpool.nextFree j)
  · rw [hfree, hrest]
    exact h.index j
  · rw [hrest]
    exact h.disjoint j (hfree ▸ hj)
  · obtain ⟨f, hf, hids⟩ := h.ids
    refine ⟨f, by rw [hpool.idMap]; exact hf, fun id j => ?_⟩
    rw [hids, hrest, hid]

end Abs

/-! ## Removal -/

theorem removeOrder_notFound (hf : b.idMap.find id = none) : b.removeOrder cfg id = .ok (.notFound, b) := by
  unfold removeOrder
  rw [hf]

theorem removeOrder_spec (h : b.Abs cfg V) (hi : V.queues.Resting i) :
    ∃ b', b.removeOrder cfg (V.data i).id = .ok (.success, b') ∧ b'.Abs cfg (V.leave cfg i) := by
  have hm := h.mem_queues hi
  obtain ⟨b1, hb1, h1, hpool⟩ := storeRemove_spec h.mem (h.weak _) hm
  have hq := h.mem.queued
  have hrest : ∀ j, (V.leave cfg i).queues.Resting j ↔ V.queues.Resting j ∧ j ≠ i :=
    fun j => View.resting_unlink hq hm
  unfold removeOrder
  rw [h.find_resting hi]
  dsimp only
  rw [h.mem.side_eq i, hb1]
  refine ⟨_, rfl, ?_⟩
  have horder : ∀ j, ({ b1 with idMap := b1.idMap.remove (V.data i).id, orderPool := b1.orderPool.release i } :
      OrderBook).order j = { b1.order j with nextFree := if j = i then b1.orderPool.freeHead else (b1.order j).nextFree } := by
    intro j
    unfold order OrderPool.release
    by_cases hj : j = i
    · subst hj
      simp
    · simp [hj]
  refine ⟨?_, ?_, ?_, ?_, fun j => ?_, fun j hj => ?_, ?_, fun j hj => ?_⟩
  · -- the memory
    have h2 : b1.Mem cfg (V.leave cfg i) := ⟨h1.shape, h1.data, h1.bests, h1.totals⟩
    exact h2.congr (fun j => by rw [horder]) (fun s => by cases s <;> rfl) rfl
  · exact View.weak_detach h.weak rfl rfl hm
  · -- the free list
    have hni : i ∉ V.free := fun hf => h.disjoint i hf hi
    refine ⟨rfl, ?_⟩
    dsimp only
    rw [horder, if_pos rfl, hpool.freeHead]
    refine h.chain.congr (fun j hj => ?_)
    have hji : j ≠ i := by
      rintro rfl
      exact hni hj
    rw [horder, if_neg hji, hpool.nextFree]
  · exact List.nodup_cons.mpr ⟨fun hf => h.disjoint i hf hi, h.freeNodup⟩
  · rw [hrest, h.index, show (V.leave cfg i).free = i :: V.free from rfl, List.mem_cons]
    by_cases hj : j = i
    · subst hj
      simp [hi]
    · simp [hj]
  · rw [hrest]
    rintro ⟨hr, hne⟩
    rcases List.mem_cons.mp hj with rfl | hj
    · exact hne rfl
    · exact h.disjoint j hj hr
  · -- the id map
    obtain ⟨f, hf, hids⟩ := h.ids
    refine ⟨Function.update f (V.data i).id none, ?_, fun id j => ?_⟩
    · show OrderIdMap.Rep (b1.idMap.remove (V.data i).id) _
      rw [hpool.idMap]
      exact OrderIdMap.rep_remove hf ((hids _ i).mpr ⟨hi, rfl⟩)
    · rw [hrest, show ((V.leave cfg i).data j).id = (V.data j).id from rfl]
      by_cases hid : id = (V.data i).id
      · subst hid
        rw [Function.update_self]
        refine ⟨fun he => (by cases he), ?_⟩
        rintro ⟨⟨hr, hne⟩, he⟩
        exact absurd (h.id_inj hr hi he) hne
      · rw [Function.update_of_ne hid, hids]
        refine ⟨fun ⟨hr, he⟩ => ⟨⟨hr, ?_⟩, he⟩, fun ⟨⟨hr, _⟩, he⟩ => ⟨hr, he⟩⟩
        rintro rfl
        exact hid he.symm
  · exact h.orders j ((hrest j).mp hj).1

/-! ## Insertion -/

section Insert

variable {side : Side} {price qty filled : ℤ}

/-- The free list after an index is taken from it, whatever is written to the order. -/
theorem chain_take (h : b.Abs cfg V) {rest : List ℕ} (hfree : V.free = i :: rest) {nf : ℕ → Option ℕ}
    (hnf : ∀ j, j ≠ i → nf j = (b.order j).nextFree) : Chain nf (b.order i).nextFree rest := by
  have hchain := h.chain
  rw [hfree] at hchain
  refine hchain.2.congr (fun j hj => hnf j ?_)
  rintro rfl
  have hnd := h.freeNodup
  rw [hfree, List.nodup_cons] at hnd
  exact hnd.1 hj

/-- The order is written to the index it was given. -/
def take (b : OrderBook) (i : ℕ) (m : OrderIdMap) (d : OrderData) : OrderBook :=
  ({ b with orderPool := b.orderPool.taken i, idMap := m } : OrderBook).modifyOrder i (fun o =>
    { o with id := d.id, type := d.type, side := d.side, price := d.price, qty := d.qty, filled := d.filled })

theorem order_take (b : OrderBook) (i : ℕ) (m : OrderIdMap) (d : OrderData) (j : ℕ) : (b.take i m d).order j =
    if j = i then ⟨none, none, none, d.id, d.type, d.price, d.qty, d.filled, d.side⟩ else b.order j := by
  unfold take
  rw [order_modifyOrder]
  unfold order OrderPool.taken
  by_cases hj : j = i
  · subst hj
    simp
  · simp [hj]

section Take

variable (h : b.Abs cfg V) {rest : List ℕ} (hfree : V.free = i :: rest)

include h hfree

theorem abs_enter {m : OrderIdMap} {d : OrderData} (hu : OrderIdMap.Usable d.id) (hfind : b.idMap.find d.id = none)
    (hfits : cfg.Fits d.price) (hqty : 0 ≤ d.qty) (htype : d.type = .limit) (hins : b.idMap.insert d.id i = some m)
    (hs : (b.take i m d).storeInsert cfg d.side i = .ok b') : b'.Abs cfg (V.enter cfg i rest d) := by
  have hplan : cfg.InPlan d.price := by
    have hlt := storeInsert_lt hs
    rw [order_take, if_pos rfl] at hlt
    exact hfits.inPlan hlt
  have hni : ¬ V.queues.Resting i := h.disjoint i (hfree ▸ List.mem_cons_self)
  have hnd := h.freeNodup
  rw [hfree, List.nodup_cons] at hnd
  have h1 : (b.take i m d).Mem cfg (V.setData i (fun _ => d)) := by
    have h0 : (b.modifyOrder i (fun _ => ⟨none, none, none, d.id, d.type, d.price, d.qty, d.filled, d.side⟩)).Mem cfg
        (V.setData i (fun _ => d)) := mem_setData h.mem rfl (fun hr => absurd hr hni)
    refine h0.congr (fun j => ?_) (fun s => by cases s <;> rfl) rfl
    rw [order_take, order_modifyOrder]
  have hd : (V.setData i (fun _ => d)).data i = d := View.data_setData_self _ _ _
  obtain ⟨h2, hpool⟩ := storeInsert_spec h1 hni (by rw [hd]) (by rw [hd]; exact hplan) hs
  have hrest : ∀ j, (V.enter cfg i rest d).queues.Resting j ↔ V.queues.Resting j ∨ j = i := fun j => View.resting_link
  have hdata : ∀ j, (V.enter cfg i rest d).data j = if j = i then d else V.data j :=
    fun j => View.data_setData V i j (fun _ => d)
  refine ⟨⟨h2.shape, h2.data, h2.bests, h2.totals⟩, ?_, ?_, hnd.2, fun j => ?_, fun j hj => ?_, ?_, fun j hj => ?_⟩
  · refine View.weak_attach (V := ({ V with free := rest } : View).setData i (fun _ => d)) h.weak rfl rfl ?_
    rw [View.data_setData_self]
    exact hplan
  · rw [hpool.freeHead]
    refine chain_take h hfree (fun j hj => ?_)
    rw [hpool.nextFree, order_take, if_neg hj]
  · rw [hrest, h.index, hfree, List.mem_cons, show (V.enter cfg i rest d).free = rest from rfl]
    tauto
  · rw [hrest]
    rintro (hr | rfl)
    · exact h.disjoint j (hfree ▸ List.mem_cons_of_mem i hj) hr
    · exact hnd.1 hj
  · obtain ⟨f, hf, hids⟩ := h.ids
    rw [OrderIdMap.find_eq hf] at hfind
    refine ⟨Function.update f d.id (some i), ?_, fun id j => ?_⟩
    · rw [hpool.idMap]
      exact OrderIdMap.rep_insert hf hu hfind hins
    · rw [hrest, hdata]
      by_cases hid : id = d.id
      · subst hid
        rw [Function.update_self]
        have hnone : ∀ j', V.queues.Resting j' → (V.data j').id ≠ d.id := by
          intro j' hr he
          rw [(hids d.id j').mpr ⟨hr, he⟩] at hfind
          cases hfind
        by_cases hj : j = i
        · simp [hj]
        · rw [if_neg hj]
          refine ⟨fun he => absurd (Option.some.inj he).symm hj, ?_⟩
          rintro ⟨hr | he, he'⟩
          · exact absurd he' (hnone j hr)
          · exact absurd he hj
      · rw [Function.update_of_ne hid, hids]
        by_cases hj : j = i
        · subst hj
          simp only [if_true, or_true, true_and]
          exact ⟨fun hr => absurd hr.1 hni, fun he => absurd he.symm hid⟩
        · simp [hj]
  · rw [hdata]
    split_ifs with hji
    · exact ⟨htype, hqty⟩
    · exact h.orders j (((hrest j).mp hj).resolve_right hji)

/-- The index is given back when the id map is full. -/
theorem abs_giveBack : ({ b with orderPool := (b.orderPool.taken i).release i } : OrderBook).Abs cfg
    (V.setData i (fun d => { d with qty := 0 })) := by
  have hni : ¬ V.queues.Resting i := h.disjoint i (hfree ▸ List.mem_cons_self)
  have hc := h.chain
  rw [hfree] at hc
  have horder : ∀ j, ({ b with orderPool := (b.orderPool.taken i).release i } : OrderBook).order j =
      if j = i then { b.order i with prevIdx := none, nextIdx := none, qty := 0 } else b.order j := by
    intro j
    unfold order OrderPool.release OrderPool.taken
    by_cases hj : j = i
    · subst hj
      simp
    · simp [hj]
  have hdata : ∀ j, ((V.setData i (fun d => { d with qty := 0 })).data j).id = (V.data j).id := by
    intro j
    rw [View.data_setData]
    split_ifs with hj
    · rw [hj]
    · rfl
  have h1 : (b.modifyOrder i (fun o => { o with prevIdx := none, nextIdx := none, qty := 0 })).Mem cfg
      (V.setData i (fun d => { d with qty := 0 })) := mem_setData h.mem rfl (fun hr => absurd hr hni)
  refine h.step (h1.congr (fun j => ?_) (fun s => by cases s <;> rfl) rfl) ⟨rfl, ?_, fun j => ?_⟩ h.weak rfl
    (fun j => Iff.rfl) hdata (fun j hj => ?_)
  · rw [horder, order_modifyOrder]
  · rw [hc.1]
    rfl
  · rw [horder]
    split_ifs with hj
    · rw [hj]
    · rfl
  · rw [View.data_setData, if_neg]
    · exact h.orders j hj
    · rintro rfl
      exact hni hj

end Take

/-- **A new order**: the first free index is taken and the order is attached, or the book is full. -/
theorem insertOrder_spec (h : b.Abs cfg V) (hu : OrderIdMap.Usable id) (hfind : b.idMap.find id = none)
    (hfits : cfg.Fits price) (hqty : 0 ≤ qty) {st : OperationStatus} {idx : OrderIdx}
    (hok : b.insertOrder cfg id side price qty filled = .ok (st, idx, b')) :
    (st = .success ∧ ∃ i rest, V.free = i :: rest ∧ idx = some i ∧
      b'.Abs cfg (V.enter cfg i rest ⟨id, .limit, price, qty, filled, side⟩)) ∨
    ((st = .badAlloc ∨ st = .idmapFull) ∧ idx = none ∧
      ∃ i f, ¬ V.queues.Resting i ∧ b'.Abs cfg (V.setData i f)) := by
  unfold insertOrder at hok
  have hc := h.chain
  cases hfree : V.free with
  | nil =>
    rw [hfree] at hc
    have hc' : b.orderPool.freeHead = none := hc
    unfold OrderPool.allocate at hok
    rw [hc'] at hok
    cases hok
    refine Or.inr ⟨Or.inl rfl, rfl, cfg.maxOrders, fun d => d, fun hr => ?_, ?_⟩
    · have := (h.index cfg.maxOrders).mpr (Or.inr hr)
      omega
    · unfold View.setData
      rw [Function.update_eq_self]
      exact h
  | cons i rest =>
    rw [hfree] at hc
    have hni : ¬ V.queues.Resting i := h.disjoint i (hfree ▸ List.mem_cons_self)
    have halloc : b.orderPool.allocate = some (i, b.orderPool.taken i) := by
      unfold OrderPool.allocate
      rw [hc.1]
      rfl
    rw [halloc] at hok
    dsimp only at hok
    cases hins : b.idMap.insert id i with
    | none =>
      rw [hins] at hok
      cases hok
      exact Or.inr ⟨Or.inr rfl, rfl, i, fun d => { d with qty := 0 }, hni, abs_giveBack h hfree⟩
    | some m =>
      rw [hins] at hok
      have htake : ({ b with orderPool := b.orderPool.taken i, idMap := m } : OrderBook).modifyOrder i (fun o =>
          { o with id := id, type := .limit, side := side, price := price, qty := qty, filled := filled }) =
          b.take i m ⟨id, .limit, price, qty, filled, side⟩ := rfl
      dsimp only at hok
      rw [htake] at hok
      cases hs : OrderBook.storeInsert cfg (b.take i m ⟨id, .limit, price, qty, filled, side⟩) side i with
      | error e =>
        rw [hs] at hok
        cases hok
      | ok b3 =>
        rw [hs] at hok
        cases hok
        exact Or.inl ⟨rfl, i, rest, rfl, rfl, abs_enter h hfree hu hfind hfits hqty rfl hins hs⟩

end Insert

/-! ## Repricing and resizing -/

/-- **A new price**: nothing happens, or the order found by its id is repriced. -/
theorem repriceOrder_spec (h : b.Abs cfg V) {newPrice : ℤ} (hfits : cfg.Fits newPrice) {st : OperationStatus}
    {idx : OrderIdx} (hok : b.repriceOrder cfg id newPrice = .ok (st, idx, b')) :
    (st ≠ .success ∧ b' = b ∧ (newPrice = 0 ∨
      ∀ i, V.queues.Resting i → (V.data i).id = id → (V.data i).price = newPrice ∧ idx = some i)) ∨
    (st = .success ∧ ∃ i, idx = some i ∧ V.queues.Resting i ∧ (V.data i).id = id ∧
      (V.data i).price ≠ newPrice ∧ cfg.InPlan newPrice ∧ b'.Abs cfg (V.reprice cfg i newPrice)) := by
  unfold repriceOrder at hok
  by_cases h0 : newPrice = 0
  · rw [if_pos h0] at hok
    cases hok
    exact Or.inl ⟨by decide, rfl, Or.inl h0⟩
  rw [if_neg h0] at hok
  cases hfind : b.idMap.find id with
  | none =>
    rw [hfind] at hok
    cases hok
    refine Or.inl ⟨by decide, rfl, Or.inr (fun i hi hid => ?_)⟩
    rw [h.find_iff.mpr ⟨hi, hid⟩] at hfind
    cases hfind
  | some i =>
    obtain ⟨hi, hid⟩ := h.find_iff.mp hfind
    rw [hfind] at hok
    dsimp only at hok
    by_cases hsame : (b.order i).price = newPrice
    · rw [if_pos hsame] at hok
      cases hok
      refine Or.inl ⟨by decide, rfl, Or.inr (fun j hj hid' => ?_)⟩
      rw [h.id_inj hj hi (hid'.trans hid.symm), ← h.mem.price_eq]
      exact ⟨hsame, rfl⟩
    rw [if_neg hsame, h.mem.side_eq] at hok
    cases hs : b.storeReprice cfg (V.data i).side i newPrice with
    | error e => rw [hs] at hok; cases hok
    | ok b1 =>
      rw [hs] at hok
      cases hok
      have hm := h.mem_queues hi
      have hnew : cfg.InPlan newPrice := by
        refine hfits.inPlan ?_
        have hlt := storeReprice_lt hs
        rw [h.mem.price_eq] at hlt
        exact hlt ((h.mem.shape.mem_plan hm).1).partitionId_lt
      obtain ⟨h1, hpool⟩ := storeReprice_spec h.mem hm hnew (h.weak _) hs
      refine Or.inr ⟨rfl, i, rfl, hi, hid, by rw [← h.mem.price_eq]; exact hsame, hnew, ?_⟩
      obtain ⟨g, hg⟩ := View.reprice_eq cfg V i newPrice
      have hdata := View.data_reprice cfg V i newPrice
      have hrest : ∀ j, (V.reprice cfg i newPrice).queues.Resting j ↔ V.queues.Resting j := by
        intro j
        rw [View.queues_reprice]
        exact View.resting_move h.mem.queued hm
      refine h.step h1 hpool (View.weak_reprice h.weak rfl rfl hm hnew) (by rw [hg]; rfl) hrest (fun j => ?_)
        (fun j hj => ?_)
      · rw [hdata]
        split_ifs with hj
        · rw [hj]
        · rfl
      · have ho := h.orders j ((hrest j).mp hj)
        rw [hdata]
        split_ifs with hj
        · rw [hj] at ho
          exact ho
        · exact ho

/-- **A new quantity**: nothing happens, or the order found by its id is resized. -/
theorem resizeOrder_spec (h : b.Abs cfg V) (id : OrderId) {newQty : ℤ} (hqty : 0 ≤ newQty) :
    ∃ st b', b.resizeOrder cfg id newQty = .ok (st, b') ∧ ((st ≠ .success ∧ b' = b ∧
        (newQty = 0 ∨ ∀ i, V.queues.Resting i → (V.data i).id = id → (V.data i).qty = newQty)) ∨
      (st = .success ∧ ∃ i, V.queues.Resting i ∧ (V.data i).id = id ∧ (V.data i).qty ≠ newQty ∧
        b'.Abs cfg (V.setData i (fun d => { d with qty := newQty })))) := by
  unfold resizeOrder
  by_cases h0 : newQty = 0
  · rw [if_pos h0]
    exact ⟨_, _, rfl, Or.inl ⟨by decide, rfl, Or.inl h0⟩⟩
  rw [if_neg h0]
  cases hfind : b.idMap.find id with
  | none =>
    refine ⟨_, _, rfl, Or.inl ⟨by decide, rfl, Or.inr (fun i hi hid => ?_)⟩⟩
    rw [h.find_iff.mpr ⟨hi, hid⟩] at hfind
    cases hfind
  | some i =>
    obtain ⟨hi, hid⟩ := h.find_iff.mp hfind
    dsimp only
    by_cases hsame : (b.order i).qty = newQty
    · rw [if_pos hsame]
      refine ⟨_, _, rfl, Or.inl ⟨by decide, rfl, Or.inr (fun j hj hid' => ?_)⟩⟩
      rw [h.id_inj hj hi (hid'.trans hid.symm), ← h.mem.qty_eq]
      exact hsame
    rw [if_neg hsame, h.mem.side_eq]
    obtain ⟨b1, hb1, h1, hpool⟩ := storeResize_spec h.mem (h.mem_queues hi) newQty
    rw [hb1]
    refine ⟨_, _, rfl, Or.inr ⟨rfl, i, hi, hid, by rw [← h.mem.qty_eq]; exact hsame, ?_⟩⟩
    refine h.step h1 hpool h.weak rfl (fun j => Iff.rfl) (fun j => ?_) (fun j hj => ?_)
    · rw [View.data_setData]
      split_ifs with hj
      · rw [hj]
      · rfl
    · have ho := h.orders j hj
      rw [View.data_setData]
      split_ifs with hji
      · rw [hji] at ho
        exact ⟨ho.1, hqty⟩
      · exact ho

end OrderBook

end Wirekrak.Flashstrike

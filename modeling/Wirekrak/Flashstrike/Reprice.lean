import Wirekrak.Flashstrike.Partitions

/-!
# Wirekrak.Flashstrike.Reprice — the fast paths of a new price against the slow one

`reprice_order` moves an order without recomputing best prices where it thinks it can.  All paths move the order in the
same way, so that they differ in the recorded best prices only; these are compared path by path.

* `Bests.worse_iff`, `better_ne`, `elsewhere_iff`: the three fast paths, on the recorded best prices.
* `SameStore`: what can be observed of a store.
* `fast_path_iff`: when a fast path leaves the same store as a removal and an insertion.
-/

namespace Wirekrak.Flashstrike

open Wirekrak.Lib

/-! ## On the recorded best prices -/

namespace Bests

variable {cfg : Config} {side : Side} {g : Bests} {q q' : ℤ → List ℕ} {p v newPrice : ℤ}

/-- A price that is recorded already, or beaten by what is recorded. -/
theorem tryBest_worse {hv : Bool × ℤ} (h : hv.1 = true) (hle : side.key hv.2 ≤ side.key p) : tryBest side hv p = hv := by
  unfold tryBest
  rw [if_neg (by simp [h]), if_neg]
  rw [Side.isBetter_iff]
  omega

theorem tryBest_better {hv : Bool × ℤ} (h : hv.1 = true) (hlt : side.key p < side.key hv.2) :
    tryBest side hv p = (true, p) := by
  unfold tryBest
  rw [if_neg (by simp [h]), if_pos (Side.isBetter_iff.mpr hlt), h]

theorem partAt_eq {pid : ℕ} {hv : Bool × ℤ} (hk : g.part pid = some hv) : g.partAt pid = hv := by
  unfold partAt
  rw [hk, Option.getD_some]

/-- An order at a price worse than the recorded ones changes nothing. -/
theorem insert_worse (hhas : g.has = true) (hk : g.part (cfg.partitionId p) = some (true, v))
    (hv : side.key v ≤ side.key p) (hb : side.key g.best ≤ side.key p) : g.insert cfg side p = g := by
  refine Bests.ext ?_ ?_ ?_
  · show (tryBest side (g.has, g.best) p).1 = g.has
    rw [tryBest_worse hhas hb]
  · show (tryBest side (g.has, g.best) p).2 = g.best
    rw [tryBest_worse hhas hb]
  · funext pid
    rw [part_insert]
    split_ifs with hpid
    · rw [hpid, partAt_eq hk, tryBest_worse rfl hv, hk]
    · rfl

section Removal

variable (hw : Weak cfg side g q) (hk : g.part (cfg.partitionId p) = some (true, v))

theorem remove_of_left (hleft : q' p ≠ []) : g.remove cfg side q' p = g := if_pos hleft

include hk

theorem remove_of_none (hgone : q' p = []) (hnone : bestOf cfg side q' (cfg.partitionId p) = none) :
    g.remove cfg side q' p = { g with best := if g.best = p then v else g.best } := by
  unfold remove
  rw [if_neg (not_not.mpr hgone), hk, hnone]

theorem remove_of_some {w : ℤ} (hgone : q' p = []) (hsome : bestOf cfg side q' (cfg.partitionId p) = some w) :
    g.remove cfg side q' p =
      if v = p then { g.setPart (cfg.partitionId p) (true, w) with best := if g.best = p then w else g.best } else g := by
  unfold remove
  rw [if_neg (not_not.mpr hgone), hk, hsome]

include hw

/-- Flashstrike #2 records nothing.  That is right, unless the order was the last one at the best price of its partition
and others are left there. -/
theorem worse_iff (hpid : cfg.partitionId p = cfg.partitionId newPrice) (hbest : p ≠ g.best) (hne : p ≠ newPrice)
    (hworse : side.key v < side.key newPrice) :
    (g.remove cfg side q' p).insert cfg side newPrice = g ↔
      (p = v → q' p ≠ [] ∨ bestOf cfg side q' (cfg.partitionId p) = none) := by
  have hhas : g.has = true := hw.has_iff.mpr ⟨_, _, hk⟩
  have hself : g.insert cfg side newPrice = g := by
    have hle := (hw.part _ _ _ hk).2.2.2
    exact insert_worse hhas (hpid ▸ hk) hworse.le (by omega)
  by_cases hleft : q' p ≠ []
  · rw [remove_of_left hleft]
    exact iff_of_true hself fun _ => .inl hleft
  · have hgone : q' p = [] := not_not.mp hleft
    cases hb : bestOf cfg side q' (cfg.partitionId p) with
    | none =>
      rw [remove_of_none hk hgone hb, if_neg hbest.symm]
      exact iff_of_true hself fun _ => .inr rfl
    | some w =>
      rw [remove_of_some hk hgone hb]
      by_cases hv : v = p
      · rw [if_pos hv]
        refine iff_of_false (fun he => ?_) fun h => (h hv.symm).elim (fun h => h hgone) nofun
        -- the partition would record a price at which nothing rests any more
        have hpart := congrArg (fun g => g.part (cfg.partitionId newPrice)) he
        dsimp only at hpart
        rw [part_insert, if_pos rfl, ← hpid, hk, Option.some.injEq] at hpart
        have hw3 := (bestOf_eq_some.mp hb).2.2.1
        have hat : ({ g.setPart (cfg.partitionId p) (true, w) with best := if g.best = p then w else g.best } :
            Bests).partAt (cfg.partitionId p) = (true, w) := partAt_eq (by
          show (g.setPart (cfg.partitionId p) (true, w)).part (cfg.partitionId p) = some (true, w)
          rw [part_setPart, if_pos rfl])
        rw [hat] at hpart
        have hsnd := congrArg Prod.snd hpart
        rcases tryBest_snd side (true, w) newPrice with ⟨h1, -⟩ | ⟨h1, -⟩
        · rw [h1] at hsnd
          exact hne (hv.symm.trans hsnd.symm)
        · rw [h1] at hsnd
          have hwp : w = p := hsnd.trans hv
          rw [hwp] at hw3
          exact hw3 hgone
      · rw [if_neg hv]
        exact iff_of_true hself fun h => absurd h.symm hv

/-- What the partition records after the removal is a price of the side. -/
theorem partAt_remove (hq : ∀ p', q' p' ≠ [] → q p' ≠ []) :
    ∃ u, (g.remove cfg side q' p).part (cfg.partitionId p) = some (true, u) ∧ side.key g.best ≤ side.key u := by
  have hle := (hw.part _ _ _ hk).2.2.2
  by_cases hleft : q' p ≠ []
  · rw [remove_of_left hleft]
    exact ⟨v, hk, hle⟩
  · have hgone : q' p = [] := not_not.mp hleft
    cases hb : bestOf cfg side q' (cfg.partitionId p) with
    | none =>
      rw [remove_of_none hk hgone hb]
      exact ⟨v, hk, hle⟩
    | some w =>
      rw [remove_of_some hk hgone hb]
      by_cases hv : v = p
      · rw [if_pos hv]
        refine ⟨w, ?_, (hw.level w (hq w (bestOf_eq_some.mp hb).2.2.1)).2.2⟩
        show (g.setPart (cfg.partitionId p) (true, w)).part (cfg.partitionId p) = some (true, w)
        rw [part_setPart, if_pos rfl]
      · rw [if_neg hv]
        exact ⟨v, hk, hle⟩

/-- Flashstrike #1 records the better price in the store, but not in the partition. -/
theorem better_ne (hq : ∀ p', q' p' ≠ [] → q p' ≠ []) (hpid : cfg.partitionId p = cfg.partitionId newPrice)
    (hbest : p = g.best) (hbetter : side.key newPrice < side.key p) :
    (g.remove cfg side q' p).insert cfg side newPrice ≠ { g with best := newPrice } := by
  intro he
  obtain ⟨u, hu, hle⟩ := partAt_remove hw hk hq
  have hpart := congrArg (fun g => g.part (cfg.partitionId newPrice)) he
  dsimp only at hpart
  rw [part_insert, if_pos rfl, ← hpid, partAt_eq hu, hk, Option.some.injEq,
    tryBest_better rfl (by dsimp only; rw [← hbest] at hle; omega)] at hpart
  have hv : newPrice = v := congrArg Prod.snd hpart
  have hvle := (hw.part _ _ _ hk).2.2.2
  rw [← hbest, ← hv] at hvle
  omega

/-- Flashstrike #3 leaves the old partition alone, and the best price of the store is not looked for. -/
theorem elsewhere_iff (hp : q p ≠ []) (hpid : cfg.partitionId p ≠ cfg.partitionId newPrice) (hv : p ≠ v) :
    (g.remove cfg side q' p).insert cfg side newPrice = g.insert cfg side newPrice ↔
      (p = g.best → bestOf cfg side q' (cfg.partitionId p) = none → side.isBetter newPrice p = true) := by
  have hhas : g.has = true := hw.has_iff.mpr ⟨_, _, hk⟩
  have hplan := (hw.level p hp).1
  by_cases hleft : q' p ≠ []
  · rw [remove_of_left hleft]
    exact iff_of_true rfl fun _ hnone => absurd (bestOf_eq_none.mp hnone p hplan rfl) hleft
  · have hgone : q' p = [] := not_not.mp hleft
    cases hb : bestOf cfg side q' (cfg.partitionId p) with
    | some w =>
      rw [remove_of_some hk hgone hb, if_neg hv.symm]
      exact iff_of_true rfl fun _ hnone => by cases hnone
    | none =>
      rw [remove_of_none hk hgone hb]
      by_cases hbest : p = g.best
      · rw [if_pos hbest.symm]
        have hvle := (hw.part _ _ _ hk).2.2.2
        constructor
        · intro he _ _
          rw [Side.isBetter_iff]
          by_contra hge
          have hsnd : (tryBest side (g.has, v) newPrice).2 = (tryBest side (g.has, g.best) newPrice).2 :=
            congrArg Bests.best he
          have hkeep : tryBest side (g.has, g.best) newPrice = (g.has, g.best) :=
            tryBest_worse hhas (by dsimp only; rw [← hbest]; omega)
          rw [hkeep] at hsnd
          rcases tryBest_snd side (g.has, v) newPrice with ⟨h1, -⟩ | ⟨h1, -⟩
          · rw [h1, ← hbest] at hsnd
            exact hpid (congrArg cfg.partitionId hsnd.symm)
          · rw [h1, ← hbest] at hsnd
            exact hv hsnd.symm
        · intro h
          have hlt := Side.isBetter_iff.mp (h hbest rfl)
          have hsame : tryBest side (g.has, v) newPrice = tryBest side (g.has, g.best) newPrice := by
            rw [← hbest] at hvle
            rw [tryBest_better hhas (by dsimp only; omega), tryBest_better hhas (by dsimp only; rw [← hbest]; omega)]
          refine Bests.ext ?_ ?_ ?_
          · exact congrArg Prod.fst hsame
          · exact congrArg Prod.snd hsame
          · funext pid
            rw [part_insert, part_insert]
            rfl
      · rw [if_neg fun h => hbest h.symm]
        exact iff_of_true rfl fun h => absurd h hbest

end Removal

end Bests

/-! ## What can be observed of a store -/

namespace OrderBook

variable (cfg : Config)

/-- The bit of a price in the bitmap of its partition. -/
def activeAt (b : OrderBook) (s : Side) (p : ℤ) : Bool :=
  match b.held s (cfg.partitionId p) with
  | some k => (b.partition k).bitmap.test (cfg.offset p)
  | none => false

/-- The queues, totals and bits of all levels, and the recorded best prices of the stores and of their partitions. -/
structure SameStore (b b' : OrderBook) : Prop where
  queue : ∀ s p, cfg.InPlan p → b.queueAt cfg s p = b'.queueAt cfg s p
  total : ∀ s p, cfg.InPlan p → b.totalAt cfg s p = b'.totalAt cfg s p
  active : ∀ s p, cfg.InPlan p → b.activeAt cfg s p = b'.activeAt cfg s p
  bests : ∀ s, b.bests s = b'.bests s

/-- The levels store their queues, and no recorded best price is worse than another price. -/
structure WellFormed (b : OrderBook) : Prop where
  mem : b.Mem cfg (b.view cfg)
  weak : (b.view cfg).Weak cfg
  pool : ∀ i, (b.view cfg).queues.Resting i → i < cfg.maxOrders

/-- The slow path: the order is removed, and inserted at its new price. -/
def repriceSlow (b : OrderBook) (s : Side) (i : ℕ) (newPrice : ℤ) : Except Fault OrderBook := do
  let b1 ← b.storeRemove cfg s i
  (b1.modifyOrder i (fun o => { o with price := newPrice })).storeInsert cfg s i

/-- No other order rests in the partition. -/
def Alone (b : OrderBook) (s : Side) (i : ℕ) : Prop :=
  ∀ p ∈ partPrices cfg s (cfg.partitionId (b.order i).price), (b.queueAt cfg s p).erase i = []

/-- Within its partition the order may move if it is not at the best price of the store, nor the last one at the best
price of the partition with others left behind; to another partition, unless it is alone at the best price of the store
and gets a worse price. -/
def MovesFreely (b : OrderBook) (s : Side) (i : ℕ) (newPrice : ℤ) : Prop :=
  let price := (b.order i).price
  if cfg.partitionId price = cfg.partitionId newPrice then
    price ≠ (b.getStore s).bestPrice ∧
      (price = ((b.bests s).partAt (cfg.partitionId price)).2 → (b.queueAt cfg s price).erase i ≠ [] ∨ b.Alone cfg s i)
  else price = (b.getStore s).bestPrice → b.Alone cfg s i → s.isBetter newPrice price = true

instance (b : OrderBook) (s : Side) (i : ℕ) : Decidable (b.Alone cfg s i) :=
  inferInstanceAs (Decidable (∀ p ∈ partPrices cfg s (cfg.partitionId (b.order i).price), (b.queueAt cfg s p).erase i = []))

instance (b : OrderBook) (s : Side) (i : ℕ) (newPrice : ℤ) : Decidable (b.MovesFreely cfg s i newPrice) :=
  inferInstanceAs (Decidable (ite _ _ _))

variable {cfg} {b b' : OrderBook} {V V' : View} {s : Side} {p newPrice : ℤ} {i : ℕ}

theorem Mem.activeAt_iff (h : b.Mem cfg V) (hp : cfg.InPlan p) : b.activeAt cfg s p = true ↔ V.queues s p ≠ [] := by
  unfold activeAt
  cases hk : b.held s (cfg.partitionId p) with
  | none =>
    refine iff_of_false nofun fun hne => ?_
    obtain ⟨-, k, hk'⟩ := h.shape.home s p hne
    rw [hk] at hk'
    cases hk'
  | some k => exact (h.shape.levelAt hp hk).bit

/-- Books that stand for the same view, but for the best prices, differ in the best prices only. -/
theorem Mem.sameStore_iff (h : b.Mem cfg V) (h' : b'.Mem cfg V') (hq : V.queues = V'.queues) (hd : V.data = V'.data)
    (hs : V.slack = V'.slack) (hpool : ∀ i, V.queues.Resting i → i < cfg.maxOrders) :
    SameStore cfg b b' ↔ V.bests = V'.bests := by
  constructor
  · intro hsame
    funext s
    rw [← h.bests s, ← h'.bests s]
    exact hsame.bests s
  · intro hb
    refine ⟨fun s p _ => ?_, fun s p hp => ?_, fun s p hp => ?_, fun s => ?_⟩
    · rw [h.queueAt_eq hpool, h'.queueAt_eq (hq ▸ hpool), hq]
    · rw [h.totals s p hp, h'.totals s p hp]
      unfold View.resting
      rw [hq, hd, hs]
    · rw [Bool.eq_iff_iff, h.activeAt_iff hp, h'.activeAt_iff hp, hq]
    · rw [h.bests s, h'.bests s, hb]

section Reprice

variable (h : b.Mem cfg V) (hi : i ∈ V.queues s p)

include h hi

/-- Which fast path was taken; the new price has its partition. -/
theorem fast_cases {b1 : OrderBook} (hfast : b.tryToRepriceOrderByFlashstrike cfg s i newPrice = .ok (some b1)) :
    (∃ r, b.getOrCreatePartition cfg s (cfg.partitionId newPrice) = .ok r) ∧
    (if cfg.partitionId p = cfg.partitionId newPrice then
      if p ≠ (V.bests s).best then s.isWorse newPrice ((V.bests s).partAt (cfg.partitionId p)).2 = true
      else s.isBetter newPrice p = true
    else p ≠ ((V.bests s).partAt (cfg.partitionId p)).2) := by
  obtain ⟨hs, hp⟩ := h.mem_queue hi
  obtain ⟨-, k, hk⟩ := h.shape.mem_plan hi
  have hpb : ((V.bests s).partAt (cfg.partitionId p)).2 = (b.partition k).bestPrice := by
    rw [Bests.partAt_eq (h.part_eq hk)]
  have hgb : (b.getStore s).bestPrice = (V.bests s).best := by
    rw [← h.bests s]
    rfl
  have hlt := h.shape.parts.pid_lt s _ k hk
  unfold tryToRepriceOrderByFlashstrike at hfast
  dsimp only at hfast
  rw [h.price_eq i, hp, getPartition_eq h.shape.parts hk, hgb] at hfast
  simp only [bind, Except.bind] at hfast
  rw [hpb]
  by_cases hpid : cfg.partitionId p = cfg.partitionId newPrice
  · have hget : ∃ r, b.getOrCreatePartition cfg s (cfg.partitionId newPrice) = .ok r := by
      unfold getOrCreatePartition
      rw [← hpid, if_neg (by omega), hk]
      exact ⟨_, rfl⟩
    refine ⟨hget, ?_⟩
    rw [if_pos hpid] at hfast ⊢
    by_cases hbest : p ≠ (V.bests s).best
    · rw [if_pos hbest] at hfast ⊢
      by_contra hworse
      rw [if_neg hworse] at hfast
      cases hfast
    · rw [if_neg hbest] at hfast ⊢
      by_contra hbetter
      rw [if_neg (by simp [hbetter])] at hfast
      cases hfast
  · rw [if_neg hpid] at hfast ⊢
    by_cases hpv : p ≠ (b.partition k).bestPrice
    · rw [if_pos hpv] at hfast
      refine ⟨?_, hpv⟩
      cases hc : b.getOrCreatePartition cfg s (cfg.partitionId newPrice) with
      | error e => rw [hc] at hfast; cases hfast
      | ok r => exact ⟨r, rfl⟩
    · rw [if_neg hpv] at hfast
      cases hfast

/-- The slow path obtains the partition that the fast one has obtained. -/
theorem exists_repriceSlow (hw : (V.bests s).Weak cfg s (V.queues s)) (hnew : cfg.InPlan newPrice)
    (hget : ∃ r, b.getOrCreatePartition cfg s (cfg.partitionId newPrice) = .ok r) :
    ∃ b2, b.repriceSlow cfg s i newPrice = .ok b2 ∧
      b2.Mem cfg (((V.detach cfg i).setPrice i newPrice).attach cfg i) := by
  obtain ⟨b1, hrem, -, -⟩ := storeRemove_spec h hw hi
  have hstill : Still b b1 := keeps_storeRemove.still hrem
  have hsame : SameHeld b (b1.modifyOrder i (fun o => { o with price := newPrice })) :=
    hstill.toSameHeld.trans (sameHeld_setPrice b1 i newPrice)
  have hins : ∃ b2, (b1.modifyOrder i (fun o => { o with price := newPrice })).storeInsert cfg s i = .ok b2 := by
    obtain ⟨⟨k, b'⟩, hr⟩ := hget
    obtain ⟨hlt, hcase⟩ := getOrCreatePartition_cases hr
    unfold storeInsert getOrCreatePartition
    dsimp only
    rw [order_modifyOrder_self]
    dsimp only
    rw [if_neg (by omega), hsame.held, hsame.free]
    rcases hcase with ⟨hk, -⟩ | ⟨hk, rest, hfree, -⟩
    · rw [hk]
      exact ⟨_, rfl⟩
    · rw [hk, hfree]
      exact ⟨_, rfl⟩
  obtain ⟨b2, hb2⟩ := hins
  have hslow : b.repriceSlow cfg s i newPrice = .ok b2 := by
    unfold repriceSlow
    rw [hrem]
    exact hb2
  exact ⟨b2, hslow, (storeReprice_slow h hi hnew hw hslow).1⟩

end Reprice

/-- The queues once the order has left, partition by partition. -/
theorem alone_iff (hq : V.Queued) (hqueue : ∀ s p, b.queueAt cfg s p = V.queues s p) (hi : i ∈ V.queues s p)
    (hprice : (b.order i).price = p) :
    b.Alone cfg s i ↔ bestOf cfg s ((V.unlink i).queues s) (cfg.partitionId p) = none := by
  obtain ⟨hside, hp⟩ := hq.member s p i hi
  have hun : ∀ p', (V.unlink i).queues s p' = (V.queues s p').erase i := by
    intro p'
    rw [View.queues_unlink hside hp]
    by_cases he : p' = p
    · rw [he, Queues.set_self]
    · rw [Queues.set_of_ne fun hc => he hc.2, List.erase_of_not_mem]
      intro hm
      exact he ((hq.member s p' i hm).2.symm.trans hp)
  rw [bestOf_eq_none]
  unfold Alone
  rw [hprice]
  constructor
  · intro ha p' hplan hpid
    rw [hun, ← hqueue]
    exact ha p' (mem_partPrices.mpr ⟨hplan, hpid⟩)
  · intro ha p' hm
    obtain ⟨hplan, hpid⟩ := mem_partPrices.mp hm
    rw [hqueue, ← hun]
    exact ha p' hplan hpid

/-! ## The fast paths against the slow one -/

/-- What a move leaves but the best prices does not depend on the path. -/
theorem moved_iff {g g' : Bests} {b1 b2 : OrderBook} (h1 : b1.Mem cfg ((V.move i newPrice).setBests s g))
    (h2 : b2.Mem cfg ((V.move i newPrice).setBests s g'))
    (hpool : ∀ j, (V.move i newPrice).queues.Resting j → j < cfg.maxOrders) : SameStore cfg b1 b2 ↔ g' = g := by
  rw [h1.sameStore_iff h2 rfl rfl rfl hpool]
  constructor
  · intro he
    have hs := congrFun he s
    dsimp only [View.setBests] at hs
    rw [Function.update_self, Function.update_self] at hs
    exact hs.symm
  · rintro rfl
    rfl

/-- **A fast path leaves the store of the slow one** exactly if the order moves freely. -/
theorem fast_path_iff (h : b.WellFormed cfg) (hi : i ∈ b.queueAt cfg s p) (hnew : cfg.InPlan newPrice) (hne : p ≠ newPrice)
    {b1 : OrderBook} (hfast : b.tryToRepriceOrderByFlashstrike cfg s i newPrice = .ok (some b1)) :
    b.storeReprice cfg s i newPrice = .ok b1 ∧
    ∃ b2, b.repriceSlow cfg s i newPrice = .ok b2 ∧ (SameStore cfg b1 b2 ↔ b.MovesFreely cfg s i newPrice) := by
  have hreprice : b.storeReprice cfg s i newPrice = .ok b1 := by
    unfold storeReprice
    rw [hfast]
    rfl
  refine ⟨hreprice, ?_⟩
  obtain ⟨V, hV⟩ : ∃ V, V = b.view cfg := ⟨_, rfl⟩
  obtain ⟨hmem, hweak, hpool⟩ := h
  have hqueue : ∀ s p, b.queueAt cfg s p = V.queues s p := by
    rw [hV]
    exact fun _ _ => rfl
  rw [← hV] at hmem hweak hpool
  rw [hqueue] at hi
  obtain ⟨hs, hp⟩ := hmem.mem_queue hi
  have hprice : (b.order i).price = p := (hmem.price_eq i).trans hp
  obtain ⟨hget, hcase⟩ := fast_cases hmem hi hfast
  obtain ⟨b2, hslow, hmem2⟩ := exists_repriceSlow hmem hi (hweak s) hnew hget
  refine ⟨b2, hslow, ?_⟩
  have hmem1 : b1.Mem cfg (V.reprice cfg i newPrice) := by
    rcases flashstrike_spec hmem hi hnew hfast with ⟨b', hb', hm, -⟩ | ⟨hb', -⟩
    · rw [Option.some.inj hb']
      exact hm
    · cases hb'
  rw [View.slow_eq, hs, hp] at hmem2
  have hmoved : ∀ j, (V.move i newPrice).queues.Resting j → j < cfg.maxOrders :=
    fun j hj => hpool j ((View.resting_move hmem.queued hi).mp hj)
  -- what is recorded for the partition of the order
  have hqp : V.queues s p ≠ [] := List.ne_nil_of_mem hi
  obtain ⟨-, ⟨⟨f, v⟩, hk⟩, -⟩ := (hweak s).level p hqp
  obtain ⟨rfl, -, -, -⟩ := (hweak s).part _ f v hk
  have hpart : ((V.bests s).partAt (cfg.partitionId p)).2 = v := by
    rw [Bests.partAt_eq hk]
  have hless : ∀ p', (V.unlink i).queues s p' ≠ [] → V.queues s p' ≠ [] :=
    fun _ => View.queues_unlink_ne_nil hs hp
  have hgone : (V.unlink i).queues s p = (b.queueAt cfg s p).erase i := by
    rw [View.queues_unlink hs hp, Queues.set_self, hqueue]
  have hbest : (b.getStore s).bestPrice = (V.bests s).best := by
    rw [← hmem.bests s]
    rfl
  have hbests : b.bests s = V.bests s := hmem.bests s
  unfold MovesFreely
  dsimp only
  rw [hprice, hbest, hbests, hpart, alone_iff hmem.queued hqueue hi hprice, ← hgone]
  rw [hpart] at hcase
  unfold View.reprice at hmem1
  dsimp only at hmem1
  rw [hs, hp, hpart] at hmem1
  by_cases hpid : cfg.partitionId p = cfg.partitionId newPrice
  · rw [if_pos hpid] at hcase hmem1 ⊢
    by_cases hpb : p ≠ (V.bests s).best
    · rw [if_pos hpb] at hcase hmem1
      rw [if_pos hcase] at hmem1
      have hself : (V.move i newPrice).setBests s (V.bests s) = V.move i newPrice := by
        unfold View.setBests
        rw [show (V.move i newPrice).bests = V.bests from rfl, Function.update_eq_self]
        rfl
      rw [← hself] at hmem1
      rw [moved_iff hmem1 hmem2 hmoved, Bests.worse_iff (hweak s) hk hpid hpb hne (Side.isWorse_iff.mp hcase)]
      exact (and_iff_right hpb).symm
    · rw [if_neg hpb] at hcase hmem1
      rw [if_pos hcase] at hmem1
      rw [moved_iff hmem1 hmem2 hmoved]
      exact iff_of_false (Bests.better_ne (hweak s) hk hless hpid (not_not.mp hpb) (Side.isBetter_iff.mp hcase))
        fun hc => hpb hc.1
  · rw [if_neg hpid] at hcase hmem1 ⊢
    rw [if_pos hcase] at hmem1
    rw [moved_iff hmem1 hmem2 hmoved, Bests.elsewhere_iff (hweak s) hk hqp hpid hcase]

end OrderBook

namespace Engine

variable {cfg : Config} {e : Engine}

/-- The stores of an engine that has run are well-formed. -/
theorem wellFormed_reachable {reqs : List Request} (hrun : Run (Steps cfg) (Admissible cfg) (.new cfg) reqs e) :
    e.book.WellFormed cfg := by
  have h := reachable_abs (fun _ _ hreq => hreq) hrun
  exact ⟨h.mem, h.weak, fun i hi => (h.index i).mpr (.inr hi)⟩

/-- What a call has returned. -/
theorem toOption_eq_some {α : Type} {r : Except Fault α} {a : α} : r.toOption = some a ↔ r = .ok a := by
  cases r with
  | error f => exact iff_of_false nofun nofun
  | ok r => exact (Except.ok.injEq r a).symm ▸ Option.some_inj

/-- Three bids in two partitions. -/
def bids : List Request := [.newOrder 1 .limit .bid 10 1, .newOrder 2 .limit .bid 6 1, .newOrder 3 .limit .bid 5 1]

theorem bids_run : Run (Steps small) (Admissible small) (.new small) bids (afterAll bids) := run_after (by decide +kernel)

/-- The second bid in its partition is lowered. -/
theorem fast_path_lowered : ∃ b1 b2, (afterAll bids).book.storeReprice small .bid 2 4 = .ok b1 ∧
    (afterAll bids).book.repriceSlow small .bid 2 4 = .ok b2 ∧ OrderBook.SameStore small b1 b2 := by
  have hfast : ((afterAll bids).book.tryToRepriceOrderByFlashstrike small .bid 2 4).toOption.map (fun r => r.isSome) =
      some true := by
    decide +kernel
  obtain ⟨r, hr, hsome⟩ := Option.map_eq_some_iff.mp hfast
  obtain ⟨b1, rfl⟩ := Option.isSome_iff_exists.mp hsome
  obtain ⟨hb1, b2, hb2, hiff⟩ := OrderBook.fast_path_iff (p := 5) (wellFormed_reachable bids_run) (by decide +kernel)
    (by decide) (by decide) (toOption_eq_some.mp hr)
  exact ⟨b1, b2, hb1, hb2, hiff.mpr (by decide +kernel)⟩

/-- The best bid is raised: its partition still records the old price. -/
theorem fast_path_raised : (afterAll bids).book.WellFormed small ∧ 0 ∈ (afterAll bids).book.queueAt small .bid 10 ∧
    small.InPlan 11 ∧
    ∃ b1 b2, (afterAll bids).book.tryToRepriceOrderByFlashstrike small .bid 0 11 = .ok (some b1) ∧
      (afterAll bids).book.repriceSlow small .bid 0 11 = .ok b2 ∧ ¬ OrderBook.SameStore small b1 b2 := by
  refine ⟨wellFormed_reachable bids_run, by decide +kernel, by decide, ?_⟩
  have hfast : ((afterAll bids).book.tryToRepriceOrderByFlashstrike small .bid 0 11).toOption.map
      (fun r => r.map (fun b => (b.bests .bid).part 2)) = some (some (some (true, 10))) := by
    decide +kernel
  have hslow : ((afterAll bids).book.repriceSlow small .bid 0 11).toOption.map (fun b => (b.bests .bid).part 2) =
      some (some (true, 11)) := by
    decide +kernel
  obtain ⟨r, hr, hb1⟩ := Option.map_eq_some_iff.mp hfast
  obtain ⟨b1, rfl, hpart1⟩ := Option.map_eq_some_iff.mp hb1
  obtain ⟨b2, hb2, hpart2⟩ := Option.map_eq_some_iff.mp hslow
  refine ⟨b1, b2, toOption_eq_some.mp hr, toOption_eq_some.mp hb2, fun hsame => ?_⟩
  rw [hsame.bests .bid, hpart2] at hpart1
  cases hpart1

end Engine

end Wirekrak.Flashstrike

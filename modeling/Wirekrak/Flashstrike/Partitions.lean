import Mathlib.Data.Finset.Card
import Wirekrak.Flashstrike.System

/-!
# Wirekrak.Flashstrike.Partitions — the pool of partitions

The two stores share one pool, with one partition for each partition of the plan; a partition is not given back.

* `Counted`: the free partitions and the held ones are those of the pool.
* `Keeps`: what an operation does that takes no partition; `Takes`: what one does that may take one.
* `step_exhausted_iff`: when a request finds the pool empty.
* `partitions_suffice_iff`: the same for whole runs, of any ids.
-/

namespace Wirekrak.Flashstrike

open Wirekrak.Lib

namespace OrderBook

variable (cfg : Config)

/-- The partitions a store holds. -/
def heldBy (b : OrderBook) (s : Side) : Finset ℕ :=
  (Finset.range cfg.numPartitions).filter (fun pid => (b.held s pid).isSome = true)

/-- The number of partitions the two stores hold together. -/
def partitionsHeld (b : OrderBook) : ℕ := (b.heldBy cfg .bid).card + (b.heldBy cfg .ask).card

/-- Every partition of the pool is free or held. -/
def Counted (b : OrderBook) : Prop := b.partPool.freeList.length + b.partitionsHeld cfg = cfg.numPartitions

/-- The store does not hold the partition, and the pool has none left. -/
def Lacks (b : OrderBook) (s : Side) (pid : ℕ) : Prop :=
  pid < cfg.numPartitions ∧ b.held s pid = none ∧ b.partPool.freeList = []

/-- The store has got the partition, from the pool if it did not hold it. -/
def Got (b : OrderBook) (s : Side) (pid : ℕ) (b' : OrderBook) : Prop :=
  ((b.held s pid).isSome = true ∧ SameHeld b b') ∨
    (pid < cfg.numPartitions ∧ b.held s pid = none ∧
      ∃ k rest, b.partPool.freeList = k :: rest ∧ SameHeld (b.createPartition cfg s pid k rest) b')

/-- The side and the price of an order. -/
def quote (b : OrderBook) (i : ℕ) : Side × ℤ := ((b.order i).side, (b.order i).price)

/-- The stores hold the same partitions, and every order has its side and price. -/
structure Still (b b' : OrderBook) : Prop extends SameHeld b b' where
  quote : ∀ j, b'.quote j = b.quote j

/-- A result that is not a want of partitions, and whose book is still. -/
def Keeps {α : Type} (b : OrderBook) (r : Except Fault α) (f : α → OrderBook) : Prop :=
  match r with
  | .error e => e ≠ .partitionPoolExhausted
  | .ok x => Still b (f x)

/-- A result that wants the partition: it fails for it just when there is none to be had. -/
structure Takes {α : Type} (b : OrderBook) (s : Side) (pid : ℕ) (r : Except Fault α) (P : α → Prop) : Prop where
  exhausted : r = .error .partitionPoolExhausted ↔ b.Lacks cfg s pid
  got : ∀ x, r = .ok x → P x

variable {cfg} {b b' b'' : OrderBook} {s : Side} {pid i j k : ℕ}

/-! ## Counting -/

theorem SameHeld.refl (b : OrderBook) : SameHeld b b := ⟨fun _ => rfl, fun _ => rfl, rfl⟩

theorem SameHeld.trans (h : SameHeld b b') (h' : SameHeld b' b'') : SameHeld b b'' where
  active := fun s => (h'.active s).trans (h.active s)
  bitmap := fun s => (h'.bitmap s).trans (h.bitmap s)
  free := h'.free.trans h.free

theorem SameHeld.heldBy (h : SameHeld b b') (s : Side) : b'.heldBy cfg s = b.heldBy cfg s := by
  unfold OrderBook.heldBy
  simp only [h.held]

theorem SameHeld.counted (h : SameHeld b b') (hc : b.Counted cfg) : b'.Counted cfg := by
  unfold Counted partitionsHeld at hc ⊢
  rw [h.free, h.heldBy, h.heldBy]
  exact hc

theorem heldBy_create {rest : List ℕ} (hpid : pid < cfg.numPartitions) :
    (b.createPartition cfg s pid k rest).heldBy cfg s = insert pid (b.heldBy cfg s) := by
  ext p
  simp only [heldBy, Finset.mem_filter, Finset.mem_range, Finset.mem_insert, held_create, true_and]
  by_cases hp : p = pid
  · subst hp
    simp [hpid]
  · simp [hp]

theorem heldBy_create_opp {rest : List ℕ} :
    (b.createPartition cfg s pid k rest).heldBy cfg s.opp = b.heldBy cfg s.opp := by
  ext p
  simp only [heldBy, Finset.mem_filter, held_create, if_neg (fun h : s.opp = s ∧ p = pid => Side.opp_ne s h.1)]

theorem partitionsHeld_eq (b : OrderBook) (s : Side) :
    b.partitionsHeld cfg = (b.heldBy cfg s).card + (b.heldBy cfg s.opp).card := by
  cases s with
  | bid => rfl
  | ask => exact Nat.add_comm _ _

/-- A partition that is taken from the pool is held. -/
theorem counted_create {rest : List ℕ} (hpid : pid < cfg.numPartitions) (hnone : b.held s pid = none)
    (hfree : b.partPool.freeList = k :: rest) (hc : b.Counted cfg) :
    (b.createPartition cfg s pid k rest).Counted cfg := by
  have hnot : pid ∉ b.heldBy cfg s := by
    intro hm
    have hsome := (Finset.mem_filter.mp hm).2
    rw [hnone] at hsome
    cases hsome
  unfold Counted at hc ⊢
  rw [partitionsHeld_eq _ s] at hc ⊢
  rw [freeList_create, heldBy_create hpid, heldBy_create_opp, Finset.card_insert_of_notMem hnot]
  rw [hfree, List.length_cons] at hc
  omega

theorem Got.counted (h : Got cfg b s pid b') (hc : b.Counted cfg) : b'.Counted cfg := by
  rcases h with ⟨-, h⟩ | ⟨hpid, hnone, k, rest, hfree, h⟩
  · exact h.counted hc
  · exact h.counted (counted_create hpid hnone hfree hc)

theorem Got.held (h : Got cfg b s pid b') : (b'.held s pid).isSome = true := by
  rcases h with ⟨hsome, h⟩ | ⟨-, -, k, rest, -, h⟩
  · rw [h.held]
    exact hsome
  · rw [h.held, held_create, if_pos ⟨rfl, rfl⟩]
    rfl

theorem SameHeld.create (h : SameHeld b b') (s : Side) (pid k : ℕ) (rest : List ℕ) :
    SameHeld (b.createPartition cfg s pid k rest) (b'.createPartition cfg s pid k rest) := by
  refine ⟨fun t => ?_, fun t => ?_, by rw [freeList_create, freeList_create]⟩
  · unfold createPartition
    rw [getStore_setStore, getStore_setStore]
    split_ifs with ht
    · dsimp only
      rw [h.active]
    · cases t with
      | bid => exact h.active .bid
      | ask => exact h.active .ask
  · unfold createPartition
    rw [getStore_setStore, getStore_setStore]
    split_ifs with ht
    · dsimp only
      rw [h.bitmap]
    · cases t with
      | bid => exact h.bitmap .bid
      | ask => exact h.bitmap .ask

theorem Got.after (h : SameHeld b b') (h' : Got cfg b' s pid b'') : Got cfg b s pid b'' := by
  unfold Got at h' ⊢
  rw [h.held, h.free] at h'
  rcases h' with ⟨hsome, h'⟩ | ⟨hpid, hnone, k, rest, hfree, h'⟩
  · exact Or.inl ⟨hsome, h.trans h'⟩
  · exact Or.inr ⟨hpid, hnone, k, rest, hfree, (h.create s pid k rest).trans h'⟩

theorem Got.then (h : Got cfg b s pid b') (h' : SameHeld b' b'') : Got cfg b s pid b'' := by
  rcases h with ⟨hsome, h⟩ | ⟨hpid, hnone, k, rest, hfree, h⟩
  · exact Or.inl ⟨hsome, h.trans h'⟩
  · exact Or.inr ⟨hpid, hnone, k, rest, hfree, h.trans h'⟩

theorem SameHeld.lacks (h : SameHeld b b') : Lacks cfg b' s pid ↔ Lacks cfg b s pid := by
  unfold Lacks
  rw [h.held, h.free]

/-- Nothing is left in the pool when all its partitions are held. -/
theorem Counted.lacks_iff (hc : b.Counted cfg) (hpid : pid < cfg.numPartitions) :
    Lacks cfg b s pid ↔ b.held s pid = none ∧ cfg.numPartitions ≤ b.partitionsHeld cfg := by
  unfold Counted at hc
  unfold Lacks
  rw [← List.length_eq_zero_iff]
  constructor
  · rintro ⟨-, hnone, hfree⟩
    exact ⟨hnone, by omega⟩
  · rintro ⟨hnone, hfull⟩
    exact ⟨hpid, hnone, by omega⟩

theorem counted_new (cfg : Config) : (OrderBook.new cfg).Counted cfg := by
  have hempty : ∀ s, (OrderBook.new cfg).heldBy cfg s = ∅ := by
    intro s
    apply Finset.filter_eq_empty_iff.mpr
    intro pid _
    cases s <;> exact Bool.false_ne_true
  unfold Counted partitionsHeld
  rw [hempty, hempty]
  show (List.range cfg.numPartitions).reverse.length + 0 = _
  rw [List.length_reverse, List.length_range]
  rfl

/-! ## Operations that take no partition -/

theorem Still.refl (b : OrderBook) : Still b b := ⟨.refl b, fun _ => rfl⟩

theorem Still.trans (h : Still b b') (h' : Still b' b'') : Still b b'' :=
  ⟨h.toSameHeld.trans h'.toSameHeld, fun j => (h'.quote j).trans (h.quote j)⟩

namespace Still

variable (h : Still b b')

include h

theorem modifyOrder {f : Order → Order} (hf : ∀ o, ((f o).side, (f o).price) = (o.side, o.price)) :
    Still b (b'.modifyOrder i f) := by
  refine h.trans ⟨⟨by simp, by simp, by simp⟩, fun j => ?_⟩
  unfold OrderBook.quote
  rw [order_modifyOrder]
  split_ifs with hj
  · rw [hf, hj]
  · rfl

theorem modifyPartition {f : Partition → Partition} : Still b (b'.modifyPartition k f) :=
  h.trans ⟨⟨by simp, by simp, by simp⟩, fun _ => by simp [OrderBook.quote]⟩

theorem setStore {st : PriceLevelStore} (ha : st.activePartitions = (b'.getStore s).activePartitions)
    (hm : st.activeBitmap = (b'.getStore s).activeBitmap) : Still b (b'.setStore s st) := by
  refine h.trans ⟨⟨fun t => ?_, fun t => ?_, by simp⟩, fun _ => by simp [OrderBook.quote]⟩
  · rw [getStore_setStore]
    split_ifs with ht
    · rw [ha, ht]
    · rfl
  · rw [getStore_setStore]
    split_ifs with ht
    · rw [hm, ht]
    · rfl

theorem linkCells {tail : OrderIdx} : Still b (b'.linkCells i tail) := by
  unfold OrderBook.linkCells
  cases tail with
  | none => exact h.modifyOrder (fun _ => rfl)
  | some t =>
    refine .modifyOrder ?_ (fun _ => rfl)
    exact .modifyOrder h (fun _ => rfl)

theorem unlinkCells : Still b (b'.unlinkCells i) := by
  unfold OrderBook.unlinkCells
  dsimp only
  split <;> split
  · refine .modifyOrder ?_ (fun _ => rfl)
    exact .modifyOrder h (fun _ => rfl)
  · exact h.modifyOrder (fun _ => rfl)
  · exact h.modifyOrder (fun _ => rfl)
  · exact h

theorem linkOrder : Still b (b'.linkOrder cfg i k) := by
  unfold OrderBook.linkOrder
  exact h.linkCells.modifyPartition

theorem unlinkOrder : Still b (b'.unlinkOrder cfg i k) := by
  unfold OrderBook.unlinkOrder
  exact h.unlinkCells.modifyPartition

theorem recomputeGlobalBest : Still b (b'.recomputeGlobalBest cfg s) := by
  unfold OrderBook.recomputeGlobalBest
  exact h.setStore rfl rfl

theorem unlinkOrderAndUpdatePartition : Still b (b'.unlinkOrderAndUpdatePartition cfg s i k).2 := by
  unfold OrderBook.unlinkOrderAndUpdatePartition
  dsimp only
  split_ifs
  · exact h.unlinkOrder
  · exact h.unlinkOrder.modifyPartition
  · exact h.unlinkOrder
  · exact h.unlinkOrder

theorem tryUpdateGlobalBest {p : ℤ} : Still b (b'.setStore s ((b'.getStore s).tryUpdateGlobalBest s p)) := by
  unfold PriceLevelStore.tryUpdateGlobalBest
  split_ifs
  · exact h.setStore rfl rfl
  · exact h.setStore rfl rfl
  · exact h.setStore rfl rfl

theorem tryUpdateBests {p : ℤ} : Still b (b'.tryUpdateBests s k p) := by
  unfold OrderBook.tryUpdateBests
  exact h.tryUpdateGlobalBest.modifyPartition

end Still

section Keeps

variable {α β : Type} {r : Except Fault α} {f : α → OrderBook} {g : α → Except Fault β} {h : β → OrderBook}

theorem Keeps.bind (hr : Keeps b r f) (hg : ∀ x, Still b (f x) → Keeps b (g x) h) : Keeps b (r >>= g) h := by
  cases r with
  | error e => exact hr
  | ok x => exact hg x hr

theorem Keeps.after (hs : Still b b') (hr : Keeps b' r f) : Keeps b r f := by
  cases r with
  | error e => exact hr
  | ok x => exact hs.trans hr

theorem Keeps.ne_exhausted (hr : Keeps b r f) : r ≠ .error .partitionPoolExhausted := by
  rintro rfl
  exact hr rfl

theorem Keeps.still {x : α} (hr : Keeps b r f) (hx : r = .ok x) : Still b (f x) := by
  subst hx
  exact hr

theorem keeps_getPartition (cfg : Config) (b : OrderBook) (s : Side) (pid : ℕ) :
    Keeps b (b.getPartition cfg s pid) (fun _ => b) := by
  unfold getPartition
  split_ifs
  · exact nofun
  · cases b.held s pid with
    | none => exact nofun
    | some k => exact Still.refl b

theorem keeps_getBestPriceLevel : Keeps b (b.getBestPriceLevel cfg s) (fun _ => b) := by
  unfold getBestPriceLevel
  dsimp only
  split_ifs
  · exact Still.refl b
  · exact (keeps_getPartition cfg b s _).bind (fun _ hb => hb)

theorem keeps_storeRemove : Keeps b (b.storeRemove cfg s i) (fun b' => b') := by
  unfold storeRemove
  refine (keeps_getPartition cfg b s _).bind (fun k _ => ?_)
  dsimp only
  split_ifs
  · exact (Still.refl b).unlinkOrderAndUpdatePartition.recomputeGlobalBest
  · exact (Still.refl b).unlinkOrderAndUpdatePartition

theorem keeps_removeOrder {id : OrderId} : Keeps b (b.removeOrder cfg id) (fun x => x.2) := by
  unfold removeOrder
  split
  · exact Still.refl b
  · next i _ =>
    refine keeps_storeRemove.bind (fun b1 hb => hb.trans ⟨⟨fun t => ?_, fun t => ?_, rfl⟩, fun j => ?_⟩)
    · cases t <;> rfl
    · cases t <;> rfl
    · unfold quote order OrderPool.release
      by_cases hj : j = i
      · subst hj
        simp
      · simp [hj]

theorem keeps_resizeOrder {id : OrderId} {newQty : ℤ} : Keeps b (b.resizeOrder cfg id newQty) (fun x => x.2) := by
  unfold resizeOrder
  split_ifs
  · exact Still.refl b
  split
  · exact Still.refl b
  split_ifs
  · exact Still.refl b
  · unfold storeResize
    refine Keeps.bind (f := fun b' => b') ((keeps_getPartition cfg b _ _).bind (fun k _ => ?_)) (fun _ hb => hb)
    exact .modifyOrder (.modifyPartition (.refl b)) (fun _ => rfl)

end Keeps

/-! ## Operations that take a partition -/

section Takes

variable {α β : Type} {r : Except Fault α} {f : α → OrderBook} {g : α → Except Fault β} {P : α → Prop} {R : β → Prop}

theorem Takes.bind (hr : Takes cfg b s pid r P) (hg : ∀ x, P x → g x ≠ .error .partitionPoolExhausted)
    (hR : ∀ x y, P x → g x = .ok y → R y) : Takes cfg b s pid (r >>= g) R := by
  cases r with
  | error e =>
    refine ⟨?_, fun y hy => by cases hy⟩
    rw [← hr.exhausted]
    exact ⟨fun h => congrArg Except.error (Except.error.inj h), fun h => congrArg Except.error (Except.error.inj h)⟩
  | ok x =>
    have hx := hr.got x rfl
    refine ⟨?_, fun y hy => hR x y hx hy⟩
    rw [← hr.exhausted]
    exact iff_of_false (hg x hx) nofun

/-- The operation starts after another that takes none. -/
theorem Takes.after (h : SameHeld b b') (hr : Takes cfg b' s pid r P) {R : α → Prop} (hR : ∀ x, P x → R x) :
    Takes cfg b s pid r R :=
  ⟨hr.exhausted.trans h.lacks, fun x hx => hR x (hr.got x hx)⟩

/-- The partition is held already. -/
theorem Takes.of_held (hheld : (b.held s pid).isSome = true) (hr : r ≠ .error .partitionPoolExhausted)
    (hP : ∀ x, r = .ok x → P x) : Takes cfg b s pid r P := by
  refine ⟨iff_of_false hr ?_, hP⟩
  rintro ⟨-, hnone, -⟩
  rw [hnone] at hheld
  cases hheld

variable (cfg b s i)

theorem takes_getOrCreatePartition (pid : ℕ) : Takes cfg b s pid (b.getOrCreatePartition cfg s pid)
    (fun x => Got cfg b s pid x.2 ∧ ∀ j, x.2.order j = b.order j) := by
  refine ⟨?_, ?_⟩
  · unfold getOrCreatePartition Lacks
    by_cases hpid : cfg.numPartitions ≤ pid
    · rw [if_pos hpid]
      exact iff_of_false nofun (fun h => by omega)
    rw [if_neg hpid]
    cases hheld : b.held s pid with
    | some k => exact iff_of_false nofun nofun
    | none =>
      cases hfree : b.partPool.freeList with
      | nil => exact iff_of_true rfl ⟨by omega, rfl, rfl⟩
      | cons k rest => exact iff_of_false nofun nofun
  · rintro ⟨k, b'⟩ hok
    obtain ⟨hpid, ⟨hk, rfl⟩ | ⟨hnone, rest, hfree, rfl⟩⟩ := getOrCreatePartition_cases hok
    · exact ⟨Or.inl ⟨by rw [hk]; rfl, .refl b'⟩, fun _ => rfl⟩
    · exact ⟨Or.inr ⟨hpid, hnone, k, rest, hfree, .refl _⟩, fun j => order_create j⟩

theorem takes_storeInsert : Takes cfg b s (cfg.partitionId (b.order i).price) (b.storeInsert cfg s i)
    (fun b' => Got cfg b s (cfg.partitionId (b.order i).price) b' ∧ ∀ j, b'.quote j = b.quote j) := by
  unfold storeInsert
  refine (takes_getOrCreatePartition cfg b s _).bind (fun _ _ => nofun) ?_
  rintro ⟨k, b1⟩ b' ⟨hgot, hord⟩ hok
  cases hok
  have hstill : Still b1 ((b1.linkOrder cfg i k).tryUpdateBests s k (b.order i).price) :=
    .tryUpdateBests (.linkOrder (.refl b1))
  refine ⟨hgot.then hstill.toSameHeld, fun j => ?_⟩
  rw [hstill.quote]
  unfold quote
  rw [hord]

theorem sameHeld_setPrice (newPrice : ℤ) : SameHeld b (b.modifyOrder i (fun o => { o with price := newPrice })) :=
  ⟨by simp, by simp, by simp⟩

theorem quote_setPrice (newPrice : ℤ) :
    (b.modifyOrder i (fun o => { o with price := newPrice })).quote i = ((b.order i).side, newPrice) := by
  unfold quote
  rw [order_modifyOrder_self]

theorem relinkOrder_spec (k k' : ℕ) (newPrice : ℤ) : SameHeld b (b.relinkOrder cfg i k k' newPrice) ∧
    (b.relinkOrder cfg i k k' newPrice).quote i = ((b.order i).side, newPrice) := by
  unfold relinkOrder
  have h1 : Still b (b.unlinkOrder cfg i k) := .unlinkOrder (.refl b)
  obtain ⟨b1, hb1⟩ : ∃ b1, b1 = (b.unlinkOrder cfg i k).modifyOrder i (fun o => { o with price := newPrice }) := ⟨_, rfl⟩
  have h2 : Still b1 (b1.linkOrder cfg i k') := .linkOrder (.refl b1)
  rw [hb1] at h2
  refine ⟨(h1.toSameHeld.trans (sameHeld_setPrice _ i newPrice)).trans h2.toSameHeld, ?_⟩
  rw [h2.quote, quote_setPrice]
  exact congrArg (fun q : Side × ℤ => (q.1, newPrice)) (h1.quote i)

variable {cfg b s i}

section Reprice

variable (hk : b.getPartition cfg s (cfg.partitionId (b.order i).price) = .ok k)

include hk

theorem held_of_getPartition : b.held s (cfg.partitionId (b.order i).price) = some k := by
  unfold getPartition at hk
  split_ifs at hk
  cases hheld : b.held s (cfg.partitionId (b.order i).price) with
  | none => rw [hheld] at hk; cases hk
  | some k' => rw [hheld] at hk; cases hk; rfl

/-- The slow path: the order is removed, and inserted at its new price. -/
theorem takes_slowReprice (newPrice : ℤ) : Takes cfg b s (cfg.partitionId newPrice)
    (b.storeRemove cfg s i >>= fun b1 => (b1.modifyOrder i (fun o => { o with price := newPrice })).storeInsert cfg s i)
    (fun b' => Got cfg b s (cfg.partitionId newPrice) b' ∧ b'.quote i = ((b.order i).side, newPrice)) := by
  obtain ⟨b1, hb1⟩ : ∃ b1, b.storeRemove cfg s i = .ok b1 := by
    unfold storeRemove
    dsimp only
    rw [hk]
    simp only [bind, Except.bind]
    split_ifs
    · exact ⟨_, rfl⟩
    · exact ⟨_, rfl⟩
  have hstill : Still b b1 := keeps_storeRemove.still hb1
  have hsame := hstill.toSameHeld.trans (sameHeld_setPrice b1 i newPrice)
  have htakes := takes_storeInsert cfg (b1.modifyOrder i (fun o => { o with price := newPrice })) s i
  rw [order_modifyOrder_self] at htakes
  rw [hb1]
  refine htakes.after hsame ?_
  rintro b' ⟨hgot, hq⟩
  refine ⟨hgot.after hsame, ?_⟩
  rw [hq, quote_setPrice]
  exact congrArg (fun q : Side × ℤ => (q.1, newPrice)) (hstill.quote i)

/-- **A new price**: one partition is wanted, that of the new price. -/
theorem takes_storeReprice (newPrice : ℤ) : Takes cfg b s (cfg.partitionId newPrice) (b.storeReprice cfg s i newPrice)
    (fun b' => Got cfg b s (cfg.partitionId newPrice) b' ∧ b'.quote i = ((b.order i).side, newPrice)) := by
  have hheld := held_of_getPartition hk
  have hslow := takes_slowReprice hk newPrice
  unfold storeReprice tryToRepriceOrderByFlashstrike
  dsimp only
  rw [hk]
  simp only [bind, Except.bind, pure, Except.pure]
  by_cases hpid : cfg.partitionId (b.order i).price = cfg.partitionId newPrice
  · rw [if_pos hpid]
    rw [hpid] at hheld
    have hsome : (b.held s (cfg.partitionId newPrice)).isSome = true := by
      rw [hheld]
      rfl
    obtain ⟨hsame, hquote⟩ := relinkOrder_spec cfg b i k k newPrice
    split_ifs
    · refine .of_held hsome nofun (fun b' hb' => ?_)
      cases hb'
      exact ⟨Or.inl ⟨hsome, hsame⟩, hquote⟩
    · exact hslow
    · refine .of_held hsome nofun (fun b' hb' => ?_)
      cases hb'
      have hstill : Still (b.relinkOrder cfg i k k newPrice) ((b.relinkOrder cfg i k k newPrice).setStore s
          { (b.relinkOrder cfg i k k newPrice).getStore s with bestPrice := newPrice }) := .setStore (.refl _) rfl rfl
      exact ⟨Or.inl ⟨hsome, hsame.trans hstill.toSameHeld⟩, (hstill.quote i).trans hquote⟩
    · exact hslow
  · rw [if_neg hpid]
    split_ifs
    · have htakes := takes_getOrCreatePartition cfg b s (cfg.partitionId newPrice)
      cases hc : b.getOrCreatePartition cfg s (cfg.partitionId newPrice) with
      | error e =>
        rw [hc] at htakes
        refine ⟨?_, nofun⟩
        rw [← htakes.exhausted]
        exact ⟨fun h => congrArg Except.error (Except.error.inj h), fun h => congrArg Except.error (Except.error.inj h)⟩
      | ok x =>
        obtain ⟨k', b1⟩ := x
        obtain ⟨hgot, hord⟩ := htakes.got _ hc
        rw [hc] at htakes
        obtain ⟨hsame, hquote⟩ := relinkOrder_spec cfg b1 i k k' newPrice
        refine ⟨?_, fun b' hb' => ?_⟩
        · rw [← htakes.exhausted]
          exact iff_of_false nofun nofun
        · cases hb'
          have hstill := ((Still.refl (b1.relinkOrder cfg i k k' newPrice)).modifyPartition (k := k')
            (f := fun part => part.tryUpdateBest s newPrice)).tryUpdateGlobalBest (s := s) (p := newPrice)
          refine ⟨(hgot.then hsame).then hstill.toSameHeld, ?_⟩
          rw [hord] at hquote
          exact (hstill.quote i).trans hquote
    · exact hslow

end Reprice

end Takes

/-! ## A new order -/

/-- The order pool and the id map have room for an order. -/
def hasPlace (b : OrderBook) (id : OrderId) : Bool :=
  match b.orderPool.freeHead with
  | none => false
  | some i => (b.idMap.insert id i).isSome

section Insert

variable {id : OrderId} {price qty filled : ℤ}

theorem keeps_insertOrder (hplace : b.hasPlace id = false) :
    Keeps b (b.insertOrder cfg id s price qty filled) (fun x => x.2.2) := by
  unfold hasPlace at hplace
  unfold insertOrder OrderPool.allocate
  cases hfree : b.orderPool.freeHead with
  | none => exact Still.refl b
  | some i =>
    rw [hfree] at hplace
    dsimp only at hplace ⊢
    rw [Option.isSome_eq_false_iff, Option.isNone_iff_eq_none] at hplace
    rw [hplace]
    refine ⟨⟨fun t => ?_, fun t => ?_, rfl⟩, fun j => ?_⟩
    · cases t <;> rfl
    · cases t <;> rfl
    · unfold quote order OrderPool.release
      by_cases hj : j = i
      · subst hj
        simp
      · simp [hj]

theorem takes_insertOrder (hplace : b.hasPlace id = true) : Takes cfg b s (cfg.partitionId price)
    (b.insertOrder cfg id s price qty filled) (fun x => Got cfg b s (cfg.partitionId price) x.2.2) := by
  unfold hasPlace at hplace
  unfold insertOrder OrderPool.allocate
  cases hfree : b.orderPool.freeHead with
  | none => rw [hfree] at hplace; cases hplace
  | some i =>
    rw [hfree] at hplace
    obtain ⟨m, hm⟩ := Option.isSome_iff_exists.mp hplace
    dsimp only
    rw [hm]
    dsimp only
    obtain ⟨b1, hb1⟩ : ∃ b1, b1 = OrderBook.modifyOrder { b with
        orderPool := ⟨Function.update b.orderPool.pool i { b.orderPool.pool i with
          nextFree := none, prevIdx := none, nextIdx := none, qty := 0 }, (b.orderPool.pool i).nextFree⟩
        idMap := m } i (fun o => { o with
          id := id, type := .limit, side := s, price := price, qty := qty, filled := filled }) := ⟨_, rfl⟩
    have hsame : SameHeld b b1 := by
      rw [hb1]
      refine ⟨fun t => ?_, fun t => ?_, rfl⟩
      · cases t <;> rfl
      · cases t <;> rfl
    have hprice : (b1.order i).price = price := by rw [hb1, order_modifyOrder_self]
    have htakes := takes_storeInsert cfg b1 s i
    rw [hprice] at htakes
    rw [← hb1]
    refine (htakes.after hsame (fun b' hb' => hb'.1.after hsame)).bind (fun _ _ => nofun) ?_
    intro b' y hb' hy
    cases hy
    exact hb'

end Insert

end OrderBook

namespace Engine

open OrderBook

variable {cfg : Config} {e e1 : Engine} {side : Side} {i : ℕ}

/-! ## Matching -/

theorem still_fillTaker {b : OrderBook} (q : ℤ) (t : Taker) : Still b (fillTaker b q t).1 := by
  cases t with
  | fresh o => exact .refl b
  | resting i =>
    unfold fillTaker
    exact .modifyOrder (.refl b) (fun _ => rfl)

theorem keeps_removeIfFilled {b : OrderBook} {r : ℕ} : Keeps b (removeIfFilled cfg b r) (fun b' => b') := by
  unfold removeIfFilled
  split_ifs
  · exact keeps_removeOrder.bind (fun _ hb => hb)
  · exact Still.refl b

theorem keeps_matchRound {t : Taker} {k off r : ℕ} :
    Keeps e.book (matchRound cfg side e t k off r) (fun x => x.1.book) := by
  unfold matchRound
  dsimp only
  refine Keeps.bind (f := fun b => b) (.after ?_ keeps_removeIfFilled) (fun b4 hb => hb)
  refine .modifyPartition ?_
  refine .modifyOrder ?_ (fun _ => rfl)
  exact still_fillTaker _ t

theorem keeps_matchLoop (fuel : ℕ) : ∀ (e : Engine) (t : Taker),
    Keeps e.book (matchLoop cfg side fuel e t) (fun x => x.1.book) := by
  induction fuel with
  | zero => exact fun _ _ => nofun
  | succ fuel ih =>
    intro e t
    unfold matchLoop
    refine keeps_getBestPriceLevel.bind (fun best _ => ?_)
    cases best with
    | none => exact Still.refl e.book
    | some best =>
      dsimp only
      split
      · exact Still.refl e.book
      · split_ifs
        · exact keeps_matchRound.bind (fun x hx => .after hx (ih x.1 x.2))
        · exact Still.refl e.book

theorem keeps_matchOrder (cfg : Config) (e : Engine) (side : Side) (t : Taker) :
    Keeps e.book (matchOrder cfg side e t) (fun x => x.2.1.book) := by
  unfold matchOrder
  refine keeps_getBestPriceLevel.bind (fun best _ => ?_)
  split_ifs
  · exact Still.refl e.book
  · exact (keeps_matchLoop (cfg.maxOrders + 2) e t).bind (fun x hx => hx)

theorem keeps_settleLevel {b : OrderBook} {status : OperationStatus} {qty : ℤ}
    (hheld : (b.held side (cfg.partitionId (b.order i).price)).isSome = true) :
    Keeps b (settleLevel cfg side status b i qty) (fun b' => b') := by
  obtain ⟨k, hk⟩ := Option.isSome_iff_exists.mp hheld
  unfold settleLevel
  split_ifs
  · refine Keeps.bind (f := fun x => x.2) ?_ (fun x hx => ?_)
    · unfold getOrCreatePartition
      rw [hk]
      split_ifs
      · exact nofun
      · exact Still.refl b
    · show Still b (x.2.modifyPartition _ _)
      exact hx.modifyPartition
  · exact Still.refl b

/-- The partition of an order that rests is held, so that the settlement finds it. -/
theorem keeps_matchRestingOrder (hheld : (e.book.held side (cfg.partitionId (e.book.order i).price)).isSome = true) :
    Keeps e.book (matchRestingOrder cfg side e i) (fun x => x.2.book) := by
  unfold matchRestingOrder
  refine (keeps_matchOrder cfg e side _).bind (fun x hx => ?_)
  have hheld' : (x.2.1.book.held side (cfg.partitionId (x.2.1.book.order i).price)).isSome = true := by
    rw [hx.held, show (x.2.1.book.order i).price = (e.book.order i).price from congrArg Prod.snd (hx.quote i)]
    exact hheld
  refine .after hx ((keeps_settleLevel hheld').bind (fun b1 hb1 => ?_))
  split_ifs
  · exact .after hb1 (keeps_removeOrder.bind (fun y hy => hy))
  · exact hb1

/-- The order of a request keeps its id and price in a round. -/
theorem taker_matchRound {o : Order} {k off r : ℕ} {x : Engine × Taker}
    (hok : matchRound cfg side e (.fresh o) k off r = .ok x) :
    ∃ o', x.2 = .fresh o' ∧ o'.id = o.id ∧ o'.price = o.price := by
  unfold matchRound fillTaker at hok
  dsimp only at hok
  cases hr : removeIfFilled cfg _ r with
  | error f => rw [hr] at hok; cases hok
  | ok b4 =>
    rw [hr] at hok
    cases hok
    exact ⟨_, rfl, rfl, rfl⟩

theorem taker_matchLoop (fuel : ℕ) : ∀ (e : Engine) (o : Order) {x : Engine × Taker},
    matchLoop cfg side fuel e (.fresh o) = .ok x →
      ∃ o', x.2 = .fresh o' ∧ o'.id = o.id ∧ o'.price = o.price := by
  induction fuel with
  | zero => exact fun _ _ _ => nofun
  | succ fuel ih =>
    intro e o x hok
    unfold matchLoop at hok
    cases hbest : e.book.getBestPriceLevel cfg side.opp with
    | error f => rw [hbest] at hok; cases hok
    | ok best =>
      rw [hbest] at hok
      simp only [bind, Except.bind] at hok
      cases best with
      | none => cases hok; exact ⟨o, rfl, rfl, rfl⟩
      | some best =>
        dsimp only at hok
        split at hok
        · cases hok
          exact ⟨o, rfl, rfl, rfl⟩
        split_ifs at hok
        · split at hok
          · cases hok
          · next y hround =>
            obtain ⟨o1, ht1, hid1, hprice1⟩ := taker_matchRound hround
            rw [ht1] at hok
            obtain ⟨o', ht, hid, hprice⟩ := ih y.1 o1 hok
            exact ⟨o', ht, hid.trans hid1, hprice.trans hprice1⟩
        · cases hok
          exact ⟨o, rfl, rfl, rfl⟩

theorem taker_matchOrder {o : Order} {st : OperationStatus} {t : Taker}
    (hok : matchOrder cfg side e (.fresh o) = .ok (st, e1, t)) :
    (taker e1.book t).id = o.id ∧ (taker e1.book t).price = o.price := by
  unfold matchOrder at hok
  cases hbest : e.book.getBestPriceLevel cfg side.opp with
  | error f => rw [hbest] at hok; cases hok
  | ok best =>
    rw [hbest] at hok
    simp only [bind, Except.bind] at hok
    split_ifs at hok
    · cases hok
      exact ⟨rfl, rfl⟩
    · split at hok
      · cases hok
      · next x hloop =>
        obtain ⟨o', ht, hid, hprice⟩ := taker_matchLoop _ e o hloop
        cases hok
        rw [ht]
        exact ⟨hid, hprice⟩

/-! ## Requests -/

variable (cfg)

/-- Where a request brings an order to rest: a limit order that is accepted, is not filled and has a place, or a
resting order that gets another price. -/
def seeks (e : Engine) : Request → Option (Side × ℤ)
  | .newOrder id type side price qty =>
    if validateOrder cfg (incoming id type side price qty) = true ∧ type = .limit then
      match matchOrder cfg side e (.fresh (incoming id type side price qty)) with
      | .ok (st, e1, _) => if st ≠ .fullFill ∧ e1.book.hasPlace id = true then some (side, price) else none
      | .error _ => none
    else none
  | .modifyPrice id newPrice =>
    match e.book.idMap.find id with
    | none => none
    | some i =>
      if newPrice ≠ 0 ∧ (e.book.order i).price ≠ newPrice ∧
          (e.book.getPartition cfg (e.book.order i).side (cfg.partitionId (e.book.order i).price)).isOk = true then
        some ((e.book.order i).side, newPrice)
      else none
  | _ => none

/-- The prices of a request are in the plan. -/
def Planned : Request → Prop
  | .newOrder _ _ _ price _ => cfg.InPlan price
  | .modifyPrice _ newPrice => cfg.InPlan newPrice
  | _ => True

/-- The partition a request needs is held by the store of its side, or the stores do not hold the whole pool. -/
def Roomy (e : Engine) (req : Request) : Prop :=
  ∀ q ∈ e.seeks cfg req, (e.book.held q.1 (cfg.partitionId q.2)).isSome = true ∨
    e.book.partitionsHeld cfg < cfg.numPartitions

instance : ∀ req : Request, Decidable (Planned cfg req)
  | .newOrder _ _ _ price _ => inferInstanceAs (Decidable (cfg.InPlan price))
  | .modifyPrice _ newPrice => inferInstanceAs (Decidable (cfg.InPlan newPrice))
  | .modifyQuantity _ _ => inferInstanceAs (Decidable True)
  | .cancel _ => inferInstanceAs (Decidable True)

instance (e : Engine) (req : Request) : Decidable (e.Roomy cfg req) :=
  inferInstanceAs (Decidable (∀ q ∈ e.seeks cfg req, _))

variable {cfg}

theorem Planned.seeks {req : Request} (h : Planned cfg req) {q : Side × ℤ} (hq : e.seeks cfg req = some q) :
    cfg.InPlan q.2 := by
  cases req with
  | newOrder id type side price qty =>
    unfold Engine.seeks at hq
    dsimp only at hq
    split_ifs at hq
    split at hq
    · split_ifs at hq
      cases hq
      exact h
    · cases hq
  | modifyPrice id newPrice =>
    unfold Engine.seeks at hq
    dsimp only at hq
    split at hq
    · cases hq
    · split_ifs at hq
      cases hq
      exact h
  | modifyQuantity id newQty => cases hq
  | cancel id => cases hq

section Process

variable {id : OrderId} {type : OrderType} {price qty : ℤ}

theorem keeps_processOrder (h : e.seeks cfg (.newOrder id type side price qty) = none) :
    Keeps e.book (processOrder cfg e id type side price qty) (fun x => x.2.2.2.book) := by
  unfold seeks at h
  unfold processOrder
  dsimp only at h ⊢
  by_cases hval : validateOrder cfg (incoming id type side price qty) = false
  · rw [if_pos hval]
    exact Still.refl e.book
  rw [if_neg hval]
  rw [Bool.not_eq_false] at hval
  have hkeep := keeps_matchOrder cfg e side (.fresh (incoming id type side price qty))
  cases hm : matchOrder cfg side e (.fresh (incoming id type side price qty)) with
  | error f =>
    rw [hm] at hkeep
    exact hkeep
  | ok x =>
    obtain ⟨st, e1, t⟩ := x
    have hstill : Still e.book e1.book := hkeep.still hm
    obtain ⟨hid, -⟩ := taker_matchOrder hm
    show Keeps e.book (if type = .market ∨ st = .fullFill then _ else _) _
    by_cases hend : type = .market ∨ st = .fullFill
    · rw [if_pos hend]
      exact hstill
    rw [if_neg hend]
    rw [not_or] at hend
    have hlimit : type = .limit := by
      cases type with
      | limit => rfl
      | market => exact absurd rfl hend.1
    rw [if_pos ⟨hval, hlimit⟩, hm] at h
    dsimp only at h
    have hplace : e1.book.hasPlace (taker e1.book t).id = false := by
      by_contra hc
      rw [Bool.not_eq_false, hid] at hc
      rw [if_pos ⟨hend.2, hc⟩] at h
      cases h
    refine .after hstill ((keeps_insertOrder hplace).bind (fun y hy => ?_))
    by_cases hs : y.1 = .success
    · rw [if_pos hs]
      exact hy
    · rw [if_neg hs]
      exact hy

theorem takes_processOrder {q : Side × ℤ} (h : e.seeks cfg (.newOrder id type side price qty) = some q) :
    Takes cfg e.book q.1 (cfg.partitionId q.2) (processOrder cfg e id type side price qty)
      (fun x => Got cfg e.book q.1 (cfg.partitionId q.2) x.2.2.2.book) := by
  unfold seeks at h
  unfold processOrder
  dsimp only at h ⊢
  split_ifs at h with hval
  have hkeep := keeps_matchOrder cfg e side (.fresh (incoming id type side price qty))
  rw [if_neg (by rw [hval.1]; decide)]
  cases hm : matchOrder cfg side e (.fresh (incoming id type side price qty)) with
  | error f =>
    rw [hm] at h
    cases h
  | ok x =>
    obtain ⟨st, e1, t⟩ := x
    have hstill : Still e.book e1.book := hkeep.still hm
    obtain ⟨hid, hprice⟩ := taker_matchOrder hm
    rw [hm] at h
    dsimp only at h
    split_ifs at h with hplace
    cases h
    have hend : ¬ (type = .market ∨ st = .fullFill) := by
      rw [hval.2]
      exact fun hc => hc.elim nofun hplace.1
    show Takes cfg e.book side _ (if type = .market ∨ st = .fullFill then _ else _) _
    rw [if_neg hend, show cfg.partitionId price = cfg.partitionId (taker e1.book t).price by rw [hprice]; rfl]
    have hplace' : e1.book.hasPlace (taker e1.book t).id = true := by
      rw [hid]
      exact hplace.2
    refine ((takes_insertOrder hplace').after hstill.toSameHeld (fun y hy => hy.after hstill.toSameHeld)).bind
      (fun y hy => ?_) (fun y z hy hz => ?_)
    · split_ifs <;> exact nofun
    · by_cases hs : y.1 = .success
      · rw [if_pos hs] at hz
        cases hz
        exact hy
      · rw [if_neg hs] at hz
        cases hz
        exact hy

end Process

section Modify

variable {id : OrderId} {newPrice : ℤ}

theorem keeps_modifyOrderPrice (h : e.seeks cfg (.modifyPrice id newPrice) = none) :
    Keeps e.book (modifyOrderPrice cfg e id newPrice) (fun x => x.2.book) := by
  unfold seeks at h
  unfold modifyOrderPrice repriceOrder
  dsimp only at h
  by_cases h0 : newPrice = 0
  · rw [if_pos h0]
    exact Still.refl e.book
  rw [if_neg h0]
  cases hf : e.book.idMap.find id with
  | none => exact Still.refl e.book
  | some i =>
    rw [hf] at h
    dsimp only at h ⊢
    by_cases hsame : (e.book.order i).price = newPrice
    · rw [if_pos hsame]
      exact Still.refl e.book
    rw [if_neg hsame]
    -- the partition of the order is missing
    have hkeep := keeps_getPartition cfg e.book (e.book.order i).side (cfg.partitionId (e.book.order i).price)
    cases hk : e.book.getPartition cfg (e.book.order i).side (cfg.partitionId (e.book.order i).price) with
    | error f =>
      rw [hk] at hkeep
      unfold storeReprice tryToRepriceOrderByFlashstrike
      dsimp only
      rw [hk]
      exact hkeep
    | ok k =>
      rw [hk, if_pos ⟨h0, hsame, rfl⟩] at h
      cases h

theorem takes_modifyOrderPrice {q : Side × ℤ} (h : e.seeks cfg (.modifyPrice id newPrice) = some q) :
    Takes cfg e.book q.1 (cfg.partitionId q.2) (modifyOrderPrice cfg e id newPrice)
      (fun x => Got cfg e.book q.1 (cfg.partitionId q.2) x.2.book) := by
  unfold seeks at h
  dsimp only at h
  cases hf : e.book.idMap.find id with
  | none => rw [hf] at h; cases h
  | some i =>
    rw [hf] at h
    dsimp only at h
    split_ifs at h with hc
    cases h
    obtain ⟨h0, hne, hk⟩ := hc
    cases hp : e.book.getPartition cfg (e.book.order i).side (cfg.partitionId (e.book.order i).price) with
    | error f => rw [hp] at hk; cases hk
    | ok k =>
      have hreprice : e.book.repriceOrder cfg id newPrice =
          e.book.storeReprice cfg (e.book.order i).side i newPrice >>= fun b1 => .ok (.success, some i, b1) := by
        unfold repriceOrder
        rw [if_neg h0, hf]
        dsimp only
        rw [if_neg hne]
        rfl
      have htakes := (takes_storeReprice hp newPrice).bind (g := fun b1 => .ok (OperationStatus.success, some i, b1))
        (R := fun x => x = (.success, some i, x.2.2) ∧ Got cfg e.book (e.book.order i).side (cfg.partitionId newPrice)
          x.2.2 ∧ x.2.2.quote i = ((e.book.order i).side, newPrice)) (fun _ _ => nofun)
        (fun b1 y hb1 hy => by cases hy; exact ⟨rfl, hb1⟩)
      rw [← hreprice] at htakes
      -- the order rests where it has got a partition, so that matching it takes no other
      have hrest : ∀ b1 : OrderBook, Got cfg e.book (e.book.order i).side (cfg.partitionId newPrice) b1 ∧
          b1.quote i = ((e.book.order i).side, newPrice) →
          Keeps b1 (matchRestingOrder cfg (b1.order i).side { e with book := b1 } i >>= fun x =>
            .ok (if x.1 = .partialFill ∨ x.1 = .fullFill then x.1 else OperationStatus.success, x.2))
            (fun x => x.2.book) := by
        rintro b1 ⟨hgot, hquote⟩
        have hside : (b1.order i).side = (e.book.order i).side := congrArg Prod.fst hquote
        have hprice : (b1.order i).price = newPrice := congrArg Prod.snd hquote
        refine (keeps_matchRestingOrder (e := { e with book := b1 }) ?_).bind (fun _ hx => hx)
        rw [hside, show (({ e with book := b1 } : Engine).book.order i).price = newPrice from hprice]
        exact hgot.held
      unfold modifyOrderPrice
      refine htakes.bind ?_ ?_
      · rintro ⟨st, idx, b1⟩ ⟨hx, hgot, hquote⟩
        cases hx
        exact (hrest b1 ⟨hgot, hquote⟩).ne_exhausted
      · rintro ⟨st, idx, b1⟩ y ⟨hx, hgot, hquote⟩ hy
        cases hx
        exact hgot.then ((hrest b1 ⟨hgot, hquote⟩).still hy).toSameHeld

end Modify

/-- **A request that seeks no place** takes no partition. -/
theorem keeps_step {req : Request} (h : e.seeks cfg req = none) : Keeps e.book (step cfg e req) (fun x => x.2.book) := by
  cases req with
  | newOrder id type side price qty => exact (keeps_processOrder h).bind (fun _ hx => hx)
  | modifyPrice id newPrice => exact keeps_modifyOrderPrice h
  | modifyQuantity id newQty => exact keeps_resizeOrder.bind (fun _ hx => hx)
  | cancel id => exact keeps_removeOrder.bind (fun _ hx => hx)

/-- **A request that seeks a place** wants the partition of its price. -/
theorem takes_step {req : Request} {q : Side × ℤ} (h : e.seeks cfg req = some q) :
    Takes cfg e.book q.1 (cfg.partitionId q.2) (step cfg e req)
      (fun x => Got cfg e.book q.1 (cfg.partitionId q.2) x.2.book) := by
  cases req with
  | newOrder id type side price qty =>
    exact (takes_processOrder h).bind (fun _ _ => nofun) (fun _ _ hx hy => by cases hy; exact hx)
  | modifyPrice id newPrice => exact takes_modifyOrderPrice h
  | modifyQuantity id newQty => cases h
  | cancel id => cases h

/-! ## Runs -/

theorem counted_step {req : Request} {e' : Engine} (h : e.book.Counted cfg) (hstep : Steps cfg e req e') :
    e'.book.Counted cfg := by
  obtain ⟨st, hok⟩ := hstep
  cases hq : e.seeks cfg req with
  | none => exact ((keeps_step hq).still hok).toSameHeld.counted h
  | some q => exact ((takes_step hq).got _ hok).counted h

/-- **When a request finds the pool empty.** -/
theorem step_exhausted_iff {req : Request} (h : e.book.Counted cfg) (hplan : Planned cfg req) :
    step cfg e req = .error .partitionPoolExhausted ↔ ¬ e.Roomy cfg req := by
  unfold Roomy
  cases hq : e.seeks cfg req with
  | none => exact iff_of_false (keeps_step hq).ne_exhausted (fun hc => hc nofun)
  | some q =>
    simp only [Option.mem_def, Option.some.injEq, forall_eq']
    rw [(takes_step hq).exhausted, h.lacks_iff (hplan.seeks hq).partitionId_lt, not_or, Bool.not_eq_true,
      Option.isSome_eq_false_iff, Option.isNone_iff_eq_none, not_lt]

theorem counted_run {bs : List Request} (hrun : Run (Steps cfg) (fun _ _ => True) (.new cfg) bs e) :
    e.book.Counted cfg :=
  hrun.invariant (I := fun e => e.book.Counted cfg) (counted_new cfg) (fun _ _ _ h _ hs => counted_step h hs)

/-- **The partitions suffice just for the runs whose requests are roomy**: whatever the ids, at each request of the
run a partition is obtained, and the stores hold no more than the pool has. -/
theorem partitions_suffice_iff {reqs : List Request} (hplan : ∀ req ∈ reqs, Planned cfg req) :
    (∀ bs req e, bs ++ [req] <+: reqs → Run (Steps cfg) (fun _ _ => True) (.new cfg) bs e →
        e.book.partitionsHeld cfg ≤ cfg.numPartitions ∧ step cfg e req ≠ .error .partitionPoolExhausted) ↔
      ∀ bs req e, bs ++ [req] <+: reqs → Run (Steps cfg) (fun _ _ => True) (.new cfg) bs e → e.Roomy cfg req := by
  have hreq : ∀ bs req, bs ++ [req] <+: reqs → Planned cfg req := fun bs req hbs =>
    hplan req (hbs.subset (by simp))
  constructor
  · intro h bs req e hbs hrun
    by_contra hroom
    exact (h bs req e hbs hrun).2 ((step_exhausted_iff (counted_run hrun) (hreq bs req hbs)).mpr hroom)
  · intro h bs req e hbs hrun
    have hc := counted_run hrun
    refine ⟨?_, fun hex => (step_exhausted_iff hc (hreq bs req hbs)).mp hex (h bs req e hbs hrun)⟩
    unfold Counted at hc
    omega

/-- A run of the requests ends in the state that is evaluated. -/
theorem run_eq {ok : Engine → Request → Prop} {bs : List Request} (hrun : Run (Steps cfg) ok e bs e1) :
    e1 = bs.foldl (after cfg) e := by
  induction hrun with
  | nil => rfl
  | snoc _ _ hs ih =>
    obtain ⟨st, hst⟩ := hs
    rw [List.foldl_append, ← ih, List.foldl_cons, List.foldl_nil]
    unfold after
    rw [hst]

/-- Two orders on each side, in four partitions; one of them is cancelled. -/
def crowd : List Request :=
  [.newOrder 1 .limit .bid 1 1, .newOrder 2 .limit .bid 5 1, .newOrder 3 .limit .ask 10 1, .newOrder 4 .limit .ask 14 1,
    .cancel 1]

theorem partitions_suffice_crowd :
    (∀ req ∈ crowd, Planned small req) ∧
    ∀ bs req e, bs ++ [req] <+: crowd → Run (Steps small) (fun _ _ => True) (.new small) bs e →
      e.book.partitionsHeld small ≤ small.numPartitions ∧ step small e req ≠ .error .partitionPoolExhausted := by
  have hplan : ∀ req ∈ crowd, Planned small req := by decide +kernel
  refine ⟨hplan, (partitions_suffice_iff hplan).mpr (fun bs req e hbs hrun => ?_)⟩
  have hroomy : Admitted (after small) (Roomy small) (.new small) crowd := by decide +kernel
  rw [run_eq hrun]
  exact (admitted_concat.mp (hroomy.of_prefix _ hbs)).2

/-- The stores keep the four partitions, also the one that is empty again; a bid in another partition gets none. -/
theorem partition_pool_exhausted :
    (∀ req ∈ crowd ++ [.newOrder 5 .limit .bid 9 1], Planned small req) ∧
    Run (Steps small) (Admissible small) (.new small) crowd (afterAll crowd) ∧
    Admissible small (afterAll crowd) (.newOrder 5 .limit .bid 9 1) ∧
    step small (afterAll crowd) (.newOrder 5 .limit .bid 9 1) = .error .partitionPoolExhausted := by
  have hrun : Run (Steps small) (Admissible small) (.new small) crowd (afterAll crowd) := run_after (by decide +kernel)
  refine ⟨by decide +kernel, hrun, by decide +kernel, ?_⟩
  rw [step_exhausted_iff (counted_run (hrun.mono (fun _ _ _ => trivial))) (by decide +kernel)]
  decide +kernel

end Engine

end Wirekrak.Flashstrike

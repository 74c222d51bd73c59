import Wirekrak.Flashstrike.OrderBook
import Wirekrak.Lib.Linked

/-!
# Wirekrak.Flashstrike.Shape — the levels as queues of orders

`Queues` gives every side and price its queue of pool indices.  `Shape cfg b Q`: the book `b` stores the queues `Q`, that
is, every level of a held partition is the doubly linked list of its queue, its flag and its bit say whether the queue
is empty, every queued order has the side and the price of its queue, and the two stores hold different partitions.
Best prices and quantities are not part of it.

* `Shape.congr`: what `Shape` depends on.
* `shape_link`, `shape_unlink`, `shape_create`: what the operations do to the queues.
-/

namespace Wirekrak.Flashstrike

open Wirekrak.Lib

abbrev Queues := Side → ℤ → List ℕ

namespace Queues

def set (Q : Queues) (s : Side) (p : ℤ) (L : List ℕ) : Queues :=
  fun s' p' => if s' = s ∧ p' = p then L else Q s' p'

variable {Q : Queues} {s s' : Side} {p p' : ℤ} {L : List ℕ}

@[simp] theorem set_self : Q.set s p L s p = L := by simp [set]

theorem set_of_ne (h : ¬ (s' = s ∧ p' = p)) : Q.set s p L s' p' = Q s' p' := by
  unfold set
  rw [if_neg h]

@[simp] theorem set_set {L' : List ℕ} : (Q.set s p L).set s p L' = Q.set s p L' := by
  funext s' p'
  unfold set
  split_ifs <;> rfl

@[simp] theorem set_eq_self : Q.set s p (Q s p) = Q := by
  funext s' p'
  unfold set
  split_ifs with h
  · rw [h.1, h.2]
  · rfl

/-- The order rests in some queue. -/
def Resting (Q : Queues) (i : ℕ) : Prop := ∃ s p, i ∈ Q s p

end Queues

namespace OrderBook

variable (cfg : Config)

/-- The links of the orders. -/
def nexts (b : OrderBook) (j : ℕ) : Option ℕ := (b.order j).nextIdx

def prevs (b : OrderBook) (j : ℕ) : Option ℕ := (b.order j).prevIdx

/-- A level of a held partition stores its queue. -/
structure LevelOk (b : OrderBook) (k off : ℕ) (p : ℤ) (L : List ℕ) : Prop where
  price : (b.level k off).price = p
  dll : Dll b.nexts b.prevs (b.level k off).headIdx (b.level k off).tailIdx L
  active : (b.level k off).active = true ↔ L ≠ []
  bit : (b.partition k).bitmap.test off = true ↔ L ≠ []

/-- The two stores hold different partitions of the pool, none of them free. -/
structure PartsOk (b : OrderBook) : Prop where
  pid_lt : ∀ s pid k, b.held s pid = some k → pid < cfg.numPartitions
  inj : ∀ s pid s' pid' k, b.held s pid = some k → b.held s' pid' = some k → s = s' ∧ pid = pid'
  not_free : ∀ s pid k, b.held s pid = some k → k ∉ b.partPool.freeList
  nodup : b.partPool.freeList.Nodup
  bitmap : ∀ s pid, (b.getStore s).activeBitmap.test pid = (b.held s pid).isSome

structure Shape (b : OrderBook) (Q : Queues) : Prop where
  parts : b.PartsOk cfg
  level : ∀ s pid k off, b.held s pid = some k → off < cfg.partitionSize →
    b.LevelOk k off (cfg.priceOf pid off) (Q s (cfg.priceOf pid off))
  bits : ∀ s pid k off, b.held s pid = some k → cfg.partitionSize ≤ off → (b.partition k).bitmap.test off = false
  home : ∀ s p, Q s p ≠ [] → cfg.InPlan p ∧ ∃ k, b.held s (cfg.partitionId p) = some k
  member : ∀ s p i, i ∈ Q s p → (b.order i).side = s ∧ (b.order i).price = p
  nodup : ∀ s p, (Q s p).Nodup

variable {cfg} {b b' : OrderBook} {Q : Queues} {s : Side} {p : ℤ} {i k : ℕ}

namespace Shape

theorem queue_unique (h : b.Shape cfg Q) {s s' : Side} {p p' : ℤ} (hi : i ∈ Q s p) (hi' : i ∈ Q s' p') :
    s' = s ∧ p' = p := by
  have h1 := h.member s p i hi
  have h2 := h.member s' p' i hi'
  exact ⟨h2.1.symm.trans h1.1, h2.2.symm.trans h1.2⟩

/-- The level of a price in the plan. -/
theorem levelAt (h : b.Shape cfg Q) (hp : cfg.InPlan p) (hk : b.held s (cfg.partitionId p) = some k) :
    b.LevelOk k (cfg.offset p) p (Q s p) := by
  have hl := h.level s _ k (cfg.offset p) hk Config.offset_lt
  rwa [hp.priceOf_eq] at hl

theorem mem_plan (h : b.Shape cfg Q) (hi : i ∈ Q s p) : cfg.InPlan p ∧ ∃ k, b.held s (cfg.partitionId p) = some k :=
  h.home s p (List.ne_nil_of_mem hi)

end Shape

/-- The stores hold the same partitions. -/
structure SameHeld (b b' : OrderBook) : Prop where
  active : ∀ s, (b'.getStore s).activePartitions = (b.getStore s).activePartitions
  bitmap : ∀ s, (b'.getStore s).activeBitmap = (b.getStore s).activeBitmap
  free : b'.partPool.freeList = b.partPool.freeList

theorem SameHeld.held (hh : SameHeld b b') (s : Side) (pid : ℕ) : b'.held s pid = b.held s pid :=
  congrFun (hh.active s) pid

theorem PartsOk.congr (h : b.PartsOk cfg) (hh : SameHeld b b') : b'.PartsOk cfg where
  pid_lt := fun s pid k hk => h.pid_lt s pid k (hh.held s pid ▸ hk)
  inj := fun s pid s' pid' k hk hk' => h.inj s pid s' pid' k (hh.held s pid ▸ hk) (hh.held s' pid' ▸ hk')
  not_free := fun s pid k hk => by
    rw [hh.free]
    exact h.not_free s pid k (hh.held s pid ▸ hk)
  nodup := by
    rw [hh.free]
    exact h.nodup
  bitmap := fun s pid => by
    rw [hh.bitmap, hh.held]
    exact h.bitmap s pid

/-- `Shape` depends on the links, sides and prices of the queued orders, and on the levels up to their totals. -/
theorem Shape.congr (h : b.Shape cfg Q) (hh : SameHeld b b')
    (hord : ∀ s p, ∀ j ∈ Q s p, (b'.order j).nextIdx = (b.order j).nextIdx ∧ (b'.order j).prevIdx = (b.order j).prevIdx ∧
      (b'.order j).side = (b.order j).side ∧ (b'.order j).price = (b.order j).price)
    (hlevel : ∀ k off, (b'.level k off).price = (b.level k off).price ∧
      (b'.level k off).headIdx = (b.level k off).headIdx ∧ (b'.level k off).tailIdx = (b.level k off).tailIdx ∧
      (b'.level k off).active = (b.level k off).active)
    (hbits : ∀ k, (b'.partition k).bitmap = (b.partition k).bitmap) : b'.Shape cfg Q := by
  refine ⟨h.parts.congr hh, ?_, ?_, ?_, ?_, h.nodup⟩
  · intro s pid k off hk hoff
    have hl := h.level s pid k off (hh.held s pid ▸ hk) hoff
    obtain ⟨h1, h2, h3, h4⟩ := hlevel k off
    refine ⟨by rw [h1]; exact hl.price, ?_, by rw [h4]; exact hl.active, by rw [hbits]; exact hl.bit⟩
    rw [h2, h3]
    exact hl.dll.congr (fun j hj => (hord _ _ j hj).1) (fun j hj => (hord _ _ j hj).2.1)
  · intro s pid k off hk hoff
    rw [hbits]
    exact h.bits s pid k off (hh.held s pid ▸ hk) hoff
  · intro s p hne
    obtain ⟨h1, k, h2⟩ := h.home s p hne
    exact ⟨h1, k, by rw [hh.held]; exact h2⟩
  · intro s p j hj
    obtain ⟨-, -, h3, h4⟩ := hord s p j hj
    rw [h3, h4]
    exact h.member s p j hj

/-- One level changes: its queue becomes `L`; the rest of its partition, the other partitions and the orders of the
other queues stay. -/
theorem Shape.setLevel (h : b.Shape cfg Q) (hh : SameHeld b b') (hplan : cfg.InPlan p)
    (hk : b.held s (cfg.partitionId p) = some k) {L : List ℕ} (hL : b'.LevelOk k (cfg.offset p) p L)
    (hmem : ∀ j ∈ L, (b'.order j).side = s ∧ (b'.order j).price = p) (hnd : L.Nodup)
    (hord : ∀ s' p', ¬ (s' = s ∧ p' = p) → ∀ j ∈ Q s' p', b'.order j = b.order j)
    (hpart : ∀ k', k' ≠ k → b'.partition k' = b.partition k')
    (hlevel : ∀ off, off ≠ cfg.offset p → b'.level k off = b.level k off)
    (hbit : ∀ off, off ≠ cfg.offset p → (b'.partition k).bitmap.test off = (b.partition k).bitmap.test off) :
    b'.Shape cfg (Q.set s p L) := by
  refine ⟨h.parts.congr hh, ?_, ?_, ?_, ?_, ?_⟩
  · intro s' pid k' off hk' hoff
    rw [hh.held] at hk'
    by_cases hloc : k' = k ∧ off = cfg.offset p
    · obtain ⟨rfl, rfl⟩ := hloc
      obtain ⟨rfl, rfl⟩ := h.parts.inj _ _ _ _ _ hk' hk
      rw [hplan.priceOf_eq, Queues.set_self]
      exact hL
    · have hne : ¬ (s' = s ∧ cfg.priceOf pid off = p) := by
        rintro ⟨rfl, he⟩
        have hpid : pid = cfg.partitionId p := by
          rw [← he, Config.partitionId_priceOf (h.parts.pid_lt _ _ _ hk') hoff]
        subst hpid
        rw [hk, Option.some.injEq] at hk'
        exact hloc ⟨hk'.symm, by rw [← he, Config.offset_priceOf hoff]⟩
      have hl := h.level s' pid k' off hk' hoff
      have hlev : b'.level k' off = b.level k' off := by
        by_cases hkk : k' = k
        · subst hkk
          exact hlevel off (fun e => hloc ⟨rfl, e⟩)
        · unfold OrderBook.level
          rw [hpart k' hkk]
      have hbt : (b'.partition k').bitmap.test off = (b.partition k').bitmap.test off := by
        by_cases hkk : k' = k
        · subst hkk
          exact hbit off (fun e => hloc ⟨rfl, e⟩)
        · rw [hpart k' hkk]
      rw [Queues.set_of_ne hne]
      refine ⟨by rw [hlev]; exact hl.price, ?_, by rw [hlev]; exact hl.active, by rw [hbt]; exact hl.bit⟩
      rw [hlev]
      exact hl.dll.congr (fun j hj => congrArg Order.nextIdx (hord _ _ hne j hj))
        (fun j hj => congrArg Order.prevIdx (hord _ _ hne j hj))
  · intro s' pid k' off hk' hoff
    rw [hh.held] at hk'
    by_cases hkk : k' = k
    · subst hkk
      have hlt : cfg.offset p < cfg.partitionSize := Config.offset_lt
      rw [hbit off (by omega)]
      exact h.bits s' pid k' off hk' hoff
    · rw [hpart k' hkk]
      exact h.bits s' pid k' off hk' hoff
  · intro s' p' hne
    by_cases hsp : s' = s ∧ p' = p
    · obtain ⟨rfl, rfl⟩ := hsp
      exact ⟨hplan, k, by rw [hh.held]; exact hk⟩
    · rw [Queues.set_of_ne hsp] at hne
      obtain ⟨h1, k', h2⟩ := h.home s' p' hne
      exact ⟨h1, k', by rw [hh.held]; exact h2⟩
  · intro s' p' j hj
    by_cases hsp : s' = s ∧ p' = p
    · obtain ⟨rfl, rfl⟩ := hsp
      rw [Queues.set_self] at hj
      exact hmem j hj
    · rw [Queues.set_of_ne hsp] at hj
      rw [hord s' p' hsp j hj]
      exact h.member s' p' j hj
  · intro s' p'
    by_cases hsp : s' = s ∧ p' = p
    · obtain ⟨rfl, rfl⟩ := hsp
      rw [Queues.set_self]
      exact hnd
    · rw [Queues.set_of_ne hsp]
      exact h.nodup s' p'

/-! ## Linking and unlinking -/

theorem sameHeld_linkOrder : SameHeld b (b.linkOrder cfg i k) := ⟨by simp, by simp, by simp⟩

theorem sameHeld_unlinkOrder : SameHeld b (b.unlinkOrder cfg i k) := ⟨by simp, by simp, by simp⟩

section Link

variable (h : b.Shape cfg Q) (hi : ¬ Q.Resting i) (hs : (b.order i).side = s) (hp : (b.order i).price = p)
  (hplan : cfg.InPlan p) (hk : b.held s (cfg.partitionId p) = some k)

include h hi hp hplan hk

theorem tail_ne : (b.level k (cfg.offset (b.order i).price)).tailIdx ≠ some i := by
  intro he
  rw [hp] at he
  exact hi ⟨s, p, (h.levelAt hplan hk).dll.tail_mem he⟩

theorem order_link (j : ℕ) : (b.linkOrder cfg i k).order j =
    if j = i then { b.order i with prevIdx := (b.level k (cfg.offset p)).tailIdx, nextIdx := none }
    else if (b.level k (cfg.offset p)).tailIdx = some j then { b.order j with nextIdx := some i } else b.order j := by
  rw [order_linkOrder, order_linkCells _ _ _ _ (tail_ne h hi hp hplan hk), hp]

theorem partition_link (k' : ℕ) : (b.linkOrder cfg i k).partition k' =
    if k' = k then (b.partition k).linkLevel (cfg.offset p) i (b.order i).qty else b.partition k' := by
  rw [partition_linkOrder _ _ _ _ _ (tail_ne h hi hp hplan hk), hp]

theorem level_link : (b.linkOrder cfg i k).level k (cfg.offset p) =
    Partition.linkedLevel i (b.order i).qty (b.level k (cfg.offset p)) := by
  unfold level
  rw [partition_link h hi hp hplan hk, if_pos rfl, Partition.linkLevel_eq]
  simp

theorem level_link_ne {off : ℕ} (hoff : off ≠ cfg.offset p) : (b.linkOrder cfg i k).level k off = b.level k off := by
  unfold level
  rw [partition_link h hi hp hplan hk, if_pos rfl, Partition.linkLevel_eq]
  exact Function.update_of_ne hoff _ _

include hs

/-- **Linking** appends the order to the queue of its price. -/
theorem shape_link : (b.linkOrder cfg i k).Shape cfg (Q.set s p (Q s p ++ [i])) := by
  have hlev := h.levelAt hplan hk
  have hiQ : ∀ s' p', i ∉ Q s' p' := fun s' p' hm => hi ⟨s', p', hm⟩
  have hord := order_link h hi hp hplan hk
  have hpart := partition_link h hi hp hplan hk
  have hself : ∀ j ∈ Q s p, j ≠ i := fun j hj e => hiQ s p (e ▸ hj)
  refine h.setLevel sameHeld_linkOrder hplan hk ⟨?_, ?_, ?_, ?_⟩ ?_ ?_ ?_ (fun k' hne => ?_)
    (fun off hoff => level_link_ne h hi hp hplan hk hoff) (fun off hoff => ?_)
  · rw [level_link h hi hp hplan hk]
    exact hlev.price
  · rw [level_link h hi hp hplan hk]
    refine hlev.dll.pushBack (hiQ s p) (h.nodup s p) ?_ ?_ (fun j hj => ?_) (fun j hj => ?_)
    · unfold prevs
      rw [hord, if_pos rfl]
    · unfold nexts
      rw [hord, if_pos rfl]
    · unfold prevs
      rw [hord, if_neg (hself j hj)]
      split_ifs <;> rfl
    · unfold nexts
      rw [hord, if_neg (hself j hj)]
      split_ifs <;> rfl
  · rw [level_link h hi hp hplan hk]
    simp [Partition.linkedLevel]
  · rw [hpart, if_pos rfl, Partition.linkLevel_eq]
    dsimp only
    cases hact : ((b.partition k).levels (cfg.offset p)).active with
    | true => simp [hlev.bit, hlev.active.mp hact]
    | false => simp [Bitmap.test_set]
  · intro j hj
    have hdata : ((b.linkOrder cfg i k).order j).side = (b.order j).side ∧
        ((b.linkOrder cfg i k).order j).price = (b.order j).price := by
      rw [hord]
      split_ifs with h1
      · subst h1; exact ⟨rfl, rfl⟩
      · exact ⟨rfl, rfl⟩
      · exact ⟨rfl, rfl⟩
    rw [hdata.1, hdata.2]
    rcases List.mem_append.mp hj with hj | hj
    · exact h.member s p j hj
    · rw [List.mem_singleton.mp hj]
      exact ⟨hs, hp⟩
  · rw [List.nodup_append]
    refine ⟨h.nodup s p, List.nodup_singleton i, fun a ha c hc => ?_⟩
    rintro rfl
    exact hiQ s p (List.mem_singleton.mp hc ▸ ha)
  · intro s' p' hne j hj
    have htj : ¬ (b.level k (cfg.offset p)).tailIdx = some j :=
      fun he => hne (h.queue_unique (hlev.dll.tail_mem he) hj)
    have hji : ¬ j = i := by
      rintro rfl
      exact hiQ s' p' hj
    rw [hord, if_neg hji, if_neg htj]
  · rw [hpart, if_neg hne]
  · rw [hpart, if_pos rfl, Partition.linkLevel_eq]
    dsimp only
    split_ifs
    · rfl
    · simp [Bitmap.test_set, Ne.symm hoff]

end Link

section Unlink

variable (h : b.Shape cfg Q) (hi : i ∈ Q s p) (hk : b.held s (cfg.partitionId p) = some k)

include h hi hk

theorem neighbours_ne : (b.order i).prevIdx ≠ some i ∧ (b.order i).nextIdx ≠ some i :=
  (h.levelAt (h.mem_plan hi).1 hk).dll.ne_of_neighbour (h.nodup s p) hi

theorem order_unlink (j : ℕ) : (b.unlinkOrder cfg i k).order j =
    { b.order j with
      nextIdx := if (b.order i).prevIdx = some j then (b.order i).nextIdx else (b.order j).nextIdx
      prevIdx := if (b.order i).nextIdx = some j then (b.order i).prevIdx else (b.order j).prevIdx } := by
  rw [order_unlinkOrder, order_unlinkCells _ _ _ (neighbours_ne h hi hk).1]

theorem partition_unlink (k' : ℕ) : (b.unlinkOrder cfg i k).partition k' =
    if k' = k then (b.partition k).unlinkLevel (cfg.offset p) i (b.order i) else b.partition k' := by
  rw [partition_unlinkOrder _ _ _ _ _ (neighbours_ne h hi hk).1 (neighbours_ne h hi hk).2, (h.member s p i hi).2]

theorem level_unlink : (b.unlinkOrder cfg i k).level k (cfg.offset p) =
    Partition.unlinkedLevel i (b.order i) (b.level k (cfg.offset p)) := by
  unfold level
  rw [partition_unlink h hi hk, if_pos rfl, Partition.unlinkLevel_eq]
  simp

theorem level_unlink_ne {off : ℕ} (hoff : off ≠ cfg.offset p) :
    (b.unlinkOrder cfg i k).level k off = b.level k off := by
  unfold level
  rw [partition_unlink h hi hk, if_pos rfl, Partition.unlinkLevel_eq]
  exact Function.update_of_ne hoff _ _

/-- **Unlinking** takes the order out of its queue. -/
theorem shape_unlink : (b.unlinkOrder cfg i k).Shape cfg (Q.set s p ((Q s p).erase i)) := by
  have hplan := (h.mem_plan hi).1
  have hlev := h.levelAt hplan hk
  have hord := order_unlink h hi hk
  have hpart := partition_unlink h hi hk
  have hdll : Dll (b.unlinkOrder cfg i k).nexts (b.unlinkOrder cfg i k).prevs
      ((b.unlinkOrder cfg i k).level k (cfg.offset p)).headIdx
      ((b.unlinkOrder cfg i k).level k (cfg.offset p)).tailIdx ((Q s p).erase i) := by
    rw [level_unlink h hi hk]
    refine hlev.dll.erase (h.nodup s p) hi (fun j _ _ => ?_) (fun j _ _ => ?_)
    · unfold nexts
      rw [hord]
      rfl
    · unfold prevs
      rw [hord]
      rfl
  have hact : (b.level k (cfg.offset p)).active = true := hlev.active.mpr (List.ne_nil_of_mem hi)
  have hnone : (Partition.unlinkedLevel i (b.order i) (b.level k (cfg.offset p))).headIdx = none ↔
      (Q s p).erase i = [] := by
    rw [← hdll.head_eq_none, level_unlink h hi hk]
  refine h.setLevel sameHeld_unlinkOrder hplan hk ⟨?_, hdll, ?_, ?_⟩ ?_ ((h.nodup s p).erase i) ?_ (fun k' hne => ?_)
    (fun off hoff => level_unlink_ne h hi hk hoff) (fun off hoff => ?_)
  · rw [level_unlink h hi hk]
    exact hlev.price
  · rw [level_unlink h hi hk]
    show (if (Partition.unlinkedLevel i (b.order i) (b.level k (cfg.offset p))).headIdx = none then false
      else (b.level k (cfg.offset p)).active) = true ↔ _
    by_cases he : (Q s p).erase i = []
    · rw [if_pos (hnone.mpr he)]
      simp [he]
    · rw [if_neg (fun hh => he (hnone.mp hh)), hact]
      simp [he]
  · rw [hpart, if_pos rfl, Partition.unlinkLevel_eq]
    show (if (Partition.unlinkedLevel i (b.order i) (b.level k (cfg.offset p))).headIdx = none then
      (b.partition k).bitmap.clear (cfg.offset p) else (b.partition k).bitmap).test (cfg.offset p) = true ↔ _
    by_cases he : (Q s p).erase i = []
    · rw [if_pos (hnone.mpr he)]
      simp [he, Bitmap.test_clear]
    · rw [if_neg (fun hh => he (hnone.mp hh))]
      simp [he, hlev.bit.mpr (List.ne_nil_of_mem hi)]
  · intro j hj
    rw [hord]
    exact h.member s p j (List.mem_of_mem_erase hj)
  · intro s' p' hne j hj
    have hnb : ∀ q, q ∈ Q s p → q ≠ j := by
      rintro q hq rfl
      exact hne (h.queue_unique hq hj)
    have h1 : ¬ (b.order i).prevIdx = some j := fun he => hnb j (hlev.dll.neighbours_mem hi (Or.inl he)) rfl
    have h2 : ¬ (b.order i).nextIdx = some j := fun he => hnb j (hlev.dll.neighbours_mem hi (Or.inr he)) rfl
    rw [hord, if_neg h1, if_neg h2]
  · rw [hpart, if_neg hne]
  · rw [hpart, if_pos rfl, Partition.unlinkLevel_eq]
    dsimp only
    split_ifs
    · simp [Bitmap.test_clear, Ne.symm hoff]
    · rfl

end Unlink

/-! ## Creating a partition -/

section Create

variable {pid : ℕ} {rest : List ℕ}

/-- The book after a partition is taken from the pool. -/
def createPartition (cfg : Config) (b : OrderBook) (side : Side) (pid k : ℕ) (rest : List ℕ) : OrderBook :=
  { b with partPool := ⟨Function.update b.partPool.partitions k (.initializeForPartid cfg pid), rest⟩ }.setStore side
    { b.getStore side with
      activePartitions := Function.update (b.getStore side).activePartitions pid (some k)
      activeBitmap := (b.getStore side).activeBitmap.set pid }

/-- What `get_or_create_partition_` does when it returns. -/
theorem getOrCreatePartition_cases (hok : b.getOrCreatePartition cfg s pid = .ok (k, b')) :
    pid < cfg.numPartitions ∧ ((b.held s pid = some k ∧ b' = b) ∨
      (b.held s pid = none ∧ ∃ rest, b.partPool.freeList = k :: rest ∧ b' = b.createPartition cfg s pid k rest)) := by
  unfold getOrCreatePartition at hok
  by_cases hpid : cfg.numPartitions ≤ pid
  · rw [if_pos hpid] at hok
    cases hok
  rw [if_neg hpid] at hok
  refine ⟨by omega, ?_⟩
  cases hh : b.held s pid with
  | some k' =>
    rw [hh] at hok
    cases hok
    exact Or.inl ⟨rfl, rfl⟩
  | none =>
    rw [hh] at hok
    refine Or.inr ⟨rfl, ?_⟩
    cases hf : b.partPool.freeList with
    | nil => rw [hf] at hok; cases hok
    | cons k' rest =>
      rw [hf] at hok
      cases hok
      exact ⟨rest, rfl, rfl⟩

theorem held_create (s' : Side) (pid' : ℕ) : (b.createPartition cfg s pid k rest).held s' pid' =
    if s' = s ∧ pid' = pid then some k else b.held s' pid' := by
  unfold createPartition held
  rw [getStore_setStore]
  by_cases hs : s' = s
  · subst hs
    rw [if_pos rfl]
    by_cases hp : pid' = pid
    · subst hp
      simp
    · simp [hp]
  · rw [if_neg hs, if_neg (fun h => hs h.1)]
    cases s' <;> rfl

theorem partition_create (k' : ℕ) : (b.createPartition cfg s pid k rest).partition k' =
    if k' = k then .initializeForPartid cfg pid else b.partition k' := by
  unfold createPartition
  rw [partition_setStore]
  unfold partition
  by_cases h : k' = k
  · subst h
    simp
  · simp [h]

@[simp] theorem order_create (j : ℕ) : (b.createPartition cfg s pid k rest).order j = b.order j := by
  unfold createPartition
  rw [order_setStore]
  rfl

@[simp] theorem freeList_create : (b.createPartition cfg s pid k rest).partPool.freeList = rest := by
  unfold createPartition
  rw [partPool_setStore]

/-- A new partition has no orders. -/
theorem shape_create (h : b.Shape cfg Q) (hpid : pid < cfg.numPartitions) (hnone : b.held s pid = none)
    (hfree : b.partPool.freeList = k :: rest) : (b.createPartition cfg s pid k rest).Shape cfg Q := by
  have hnd := h.parts.nodup
  rw [hfree, List.nodup_cons] at hnd
  have hold : ∀ s' pid' k', b.held s' pid' = some k' → k' ≠ k := by
    rintro s' pid' k' hk' rfl
    exact h.parts.not_free s' pid' k' hk' (hfree ▸ List.mem_cons_self)
  have hempty : ∀ p, cfg.partitionId p = pid → Q s p = [] := by
    intro p hp
    by_contra hne
    obtain ⟨-, k', hk'⟩ := h.home s p hne
    rw [hp, hnone] at hk'
    cases hk'
  have hcases : ∀ s' pid' k', (b.createPartition cfg s pid k rest).held s' pid' = some k' →
      (s' = s ∧ pid' = pid ∧ k' = k) ∨ (¬ (s' = s ∧ pid' = pid) ∧ b.held s' pid' = some k') := by
    intro s' pid' k' hk'
    rw [held_create] at hk'
    split_ifs at hk' with he
    · exact Or.inl ⟨he.1, he.2, (Option.some.inj hk').symm⟩
    · exact Or.inr ⟨he, hk'⟩
  refine ⟨⟨?_, ?_, ?_, ?_, ?_⟩, ?_, ?_, ?_, ?_, h.nodup⟩
  · intro s' pid' k' hk'
    rcases hcases s' pid' k' hk' with ⟨-, rfl, -⟩ | ⟨-, hk'⟩
    · exact hpid
    · exact h.parts.pid_lt s' pid' k' hk'
  · intro s1 pid1 s2 pid2 k' h1 h2
    rcases hcases s1 pid1 k' h1 with ⟨e1, e2, e3⟩ | ⟨-, h3⟩ <;>
      rcases hcases s2 pid2 k' h2 with ⟨e4, e5, e6⟩ | ⟨-, h4⟩
    · exact ⟨e1.trans e4.symm, e2.trans e5.symm⟩
    · exact absurd e3 (hold _ _ _ h4)
    · exact absurd e6 (hold _ _ _ h3)
    · exact h.parts.inj s1 pid1 s2 pid2 k' h3 h4
  · intro s' pid' k' hk'
    rw [freeList_create]
    rcases hcases s' pid' k' hk' with ⟨-, -, rfl⟩ | ⟨-, hk'⟩
    · exact hnd.1
    · intro hm
      exact h.parts.not_free s' pid' k' hk' (hfree ▸ List.mem_cons_of_mem k hm)
  · rw [freeList_create]
    exact hnd.2
  · intro s' pid'
    rw [held_create]
    have hb := h.parts.bitmap s' pid'
    unfold createPartition
    rw [getStore_setStore]
    by_cases hs : s' = s
    · subst hs
      rw [if_pos rfl, Bitmap.test_set, hb]
      by_cases hp : pid = pid'
      · subst hp
        simp
      · simp [hp, Ne.symm hp]
    · rw [if_neg hs, if_neg (fun e => hs e.1), ← hb]
      cases s' <;> rfl
  · intro s' pid' k' off hk' hoff
    rcases hcases s' pid' k' hk' with ⟨rfl, rfl, rfl⟩ | ⟨-, hk'⟩
    · rw [hempty _ (Config.partitionId_priceOf hpid hoff)]
      have hp : (b.createPartition cfg s' pid' k' rest).partition k' = .initializeForPartid cfg pid' := by
        rw [partition_create, if_pos rfl]
      refine ⟨?_, ?_, ?_, ?_⟩ <;> simp only [level, hp]
      · rfl
      · exact Dll.nil_iff.mpr ⟨rfl, rfl⟩
      · simp [Partition.initializeForPartid]
      · simp [Partition.initializeForPartid]
    · have hp : (b.createPartition cfg s pid k rest).partition k' = b.partition k' := by
        rw [partition_create, if_neg (hold _ _ _ hk')]
      have hl := h.level s' pid' k' off hk' hoff
      refine ⟨?_, ?_, ?_, ?_⟩ <;> simp only [level, hp]
      · exact hl.price
      · exact hl.dll.congr (fun j _ => by simp [nexts]) (fun j _ => by simp [prevs])
      · exact hl.active
      · exact hl.bit
  · intro s' pid' k' off hk' hoff
    rcases hcases s' pid' k' hk' with ⟨rfl, rfl, rfl⟩ | ⟨-, hk'⟩
    · rw [partition_create, if_pos rfl]
      exact Bitmap.test_empty off
    · rw [partition_create, if_neg (hold _ _ _ hk')]
      exact h.bits s' pid' k' off hk' hoff
  · intro s' p hne
    obtain ⟨h1, k', h2⟩ := h.home s' p hne
    refine ⟨h1, k', ?_⟩
    rw [held_create, if_neg]
    · exact h2
    · rintro ⟨rfl, rfl⟩
      rw [hnone] at h2
      cases h2
  · intro s' p j hj
    rw [order_create]
    exact h.member s' p j hj

end Create

end OrderBook

end Wirekrak.Flashstrike

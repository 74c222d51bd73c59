import Wirekrak.Flashstrike.NativePartition
import Wirekrak.Lib.Linked
import Wirekrak.Lib.Slots

/-!
# Wirekrak.Flashstrike.NativePools — the pools in the integer types of the source

An index is an `int32`, a capacity is not.  The free orders are linked through the orders, the free partitions are a
stack of indices.  Users write to the slots they hold, and release only those.

* `pools_right_iff`: the free and the held slots are all slots, each of them once, for which capacities.
* `OrderPool.allocate_of`, `OrderPool.release_of`, `OrderPool.new_of`: the pool of the order book.
-/

namespace Wirekrak.Flashstrike

open Wirekrak.Lib

namespace Native

def invalidIndex : ℤ := -1

/-- The slot that an index stands for. -/
def slot? (i : ℤ) : Option ℕ := if i < 0 then none else some i.toNat

structure Order where
  prevIdx : ℤ
  nextIdx : ℤ
  nextFree : ℤ
  id : OrderId
  type : OrderType
  price : ℤ
  qty : ℤ
  filled : ℤ
  side : Side
  deriving DecidableEq

structure OrderPool where
  pool : ℕ → Order
  freeHead : ℤ
  usedCount : UInt64

structure PartitionPool where
  partitions : ℕ → Partition
  /-- `partitions_.size()`. -/
  size : ℕ
  freeList : ℕ → ℤ
  freeHead : ℤ

/-! ## Order pool -/

namespace OrderPool

/-- An order as value-initialised by `vector::resize`. -/
def blank : Order := ⟨0, 0, 0, 0, .limit, 0, 0, 0, .bid⟩

def new (maxOrders : ℕ) : OrderPool where
  pool := fun i => { blank with nextFree := if i + 1 < maxOrders then narrow32 (i + 1 : ℕ) else invalidIndex }
  freeHead := 0
  usedCount := 0

def allocate (p : OrderPool) : ℤ × OrderPool :=
  if p.freeHead < 0 then (invalidIndex, p)
  else
    let i := p.freeHead.toNat
    let o := p.pool i
    (p.freeHead, { p with
      pool := Function.update p.pool i
        { o with nextFree := invalidIndex, prevIdx := invalidIndex, nextIdx := invalidIndex, qty := 0 }
      freeHead := o.nextFree
      usedCount := p.usedCount + 1 })

def release (p : OrderPool) (orderIdx : ℤ) : OrderPool :=
  let i := orderIdx.toNat
  { p with
    pool := Function.update p.pool i { p.pool i with nextFree := p.freeHead }
    freeHead := orderIdx
    usedCount := p.usedCount - 1 }

/-- A user of slot `i` writes to it, through `get`. -/
def write (p : OrderPool) (i : ℕ) (o : Order) : OrderPool := { p with pool := Function.update p.pool i o }

def used (p : OrderPool) : UInt64 := p.usedCount

/-- What the pool offers; an index that is handed out is not negative. -/
def offers : Pool OrderPool Unit ℕ Order where
  allocate := fun _ p => (slot? p.allocate.1, p.allocate.2)
  release := fun i p => p.release i
  write := fun i o p => p.write i o

/-- The links from `freeHead` on run through `L` to an end. -/
def FreeList (p : OrderPool) (L : List ℕ) : Prop := Chain (fun i => slot? (p.pool i).nextFree) (slot? p.freeHead) L

/-- The pool is right after all uses. -/
def AlwaysRight (maxOrders : ℕ) : Prop :=
  ∀ s, offers.Reached (new maxOrders) s →
    offers.Right (List.range maxOrders) FreeList (fun p => some p.used.toNat) s

end OrderPool

/-! ## Partition pool -/

namespace PartitionPool

def new (numPartitions partitionSize : ℕ) : PartitionPool where
  partitions := fun _ => .new partitionSize
  size := numPartitions
  freeList := fun i => narrow32 i
  freeHead := narrow32 (numPartitions - 1)

/-- `free_slots()`; `none` is an overflow of `free_head_ + 1`. -/
def freeSlots (p : PartitionPool) : Option UInt64 :=
  if p.freeHead = 2 ^ 31 - 1 then none else some (UInt64.ofInt (p.freeHead + 1))

def used (p : PartitionPool) : Option UInt64 := p.freeSlots.map (UInt64.ofNat p.size - ·)

/-- The index of the partition that is pointed to. -/
def allocate (p : PartitionPool) (partid : ℕ) : Option ℕ × PartitionPool :=
  if p.freeHead < 0 then (none, p)
  else
    let partIdx := (p.freeList p.freeHead.toNat).toNat
    (some partIdx, { p with
      partitions := Function.update p.partitions partIdx ((p.partitions partIdx).initializeForPartid partid)
      freeHead := p.freeHead - 1 })

def release (p : PartitionPool) (partIdx : ℕ) : PartitionPool :=
  { p with
    freeList := Function.update p.freeList (p.freeHead + 1).toNat (narrow32 partIdx)
    freeHead := p.freeHead + 1 }

/-- A user of partition `k` writes to it; the number of its levels is fixed. -/
def write (p : PartitionPool) (k : ℕ) (part : Partition) : PartitionPool :=
  { p with partitions := Function.update p.partitions k { part with size := (p.partitions k).size } }

/-- What the pool offers. -/
def offers : Pool PartitionPool ℕ ℕ Partition where
  allocate := fun partid p => p.allocate partid
  release := fun k p => p.release k
  write := fun k part p => p.write k part

/-- The first `k` indices of the list, the last one first. -/
def indices (freeList : ℕ → ℤ) : ℕ → List ℕ
  | 0 => []
  | k + 1 => (freeList k).toNat :: indices freeList k

/-- The free indices, the top of the stack first. -/
def stack (p : PartitionPool) : List ℕ := indices p.freeList (p.freeHead + 1).toNat

/-- The partition is as initialised for `partid`. -/
structure FreshFor (partitionSize partid : ℕ) (part : Partition) : Prop where
  size_eq : part.size = partitionSize
  level_eq : ∀ i < partitionSize, part.levels i = ⟨wrap64 (partid * partitionSize + i), none, none, 0, false⟩
  empty : part.empty = true
  bestPrice_eq : part.bestPrice = invalidPrice
  hasBest_eq : part.hasBest = false

/-- The pool is right after all uses, and what it hands out is fresh. -/
def AlwaysRight (numPartitions partitionSize : ℕ) : Prop :=
  ∀ s, offers.Reached (new numPartitions partitionSize) s →
    offers.Right (List.range numPartitions) (fun p L => p.stack = L) (fun p => p.used.map UInt64.toNat) s ∧
    ∀ partid k, (s.pool.allocate partid).1 = some k →
      FreshFor partitionSize partid ((s.pool.allocate partid).2.partitions k)

end PartitionPool

/-! ## The orders -/

theorem slot?_natCast (i : ℕ) : slot? (i : ℤ) = some i := by
  unfold slot?
  rw [if_neg (by omega), Int.toNat_natCast]

theorem slot?_eq_some {i : ℤ} {j : ℕ} (h : slot? i = some j) : i = j := by
  unfold slot? at h
  split_ifs at h with hneg
  have hj := Option.some.inj h
  omega

theorem slot?_eq_none {i : ℤ} : slot? i = none ↔ i < 0 := by
  unfold slot?
  split_ifs with hneg <;> simp [hneg]

theorem narrow32_eq {x : ℤ} (hlo : -2 ^ 31 ≤ x) (hhi : x < 2 ^ 31) : narrow32 x = x := by
  unfold narrow32
  exact Int.bmod_eq_of_le (by omega) (by omega)

theorem narrow32_natCast {i : ℕ} (hi : i < 2 ^ 31) : narrow32 i = i := narrow32_eq (by omega) (by omega)

namespace OrderPool

variable {p : OrderPool} {L : List ℕ} {i n : ℕ}

/-- The free orders, and how many are counted as used. -/
structure Inv (n : ℕ) (p : OrderPool) (L : List ℕ) : Prop where
  free : p.FreeList L
  count : p.usedCount.toNat + L.length = n

/-- The links do not run through a slot that is written. -/
theorem chain_update {head : Option ℕ} (h : Chain (fun j => slot? (p.pool j).nextFree) head L) (hi : i ∉ L)
    (o : Order) : Chain (fun j => slot? (Function.update p.pool i o j).nextFree) head L := by
  refine Chain.congr h fun j hj => ?_
  have hne : j ≠ i := by
    rintro rfl
    exact hi hj
  rw [Function.update_of_ne hne]

theorem Inv.full (h : Inv n p []) : p.allocate = (invalidIndex, p) := by
  unfold allocate
  rw [if_pos (slot?_eq_none.mp h.free)]

theorem Inv.allocate (h : Inv n p (i :: L)) (hi : i ∉ L) (hn : n ≤ 2 ^ 31) :
    p.allocate.1 = i ∧ Inv n p.allocate.2 L := by
  obtain ⟨⟨hhead, hrest⟩, hcount⟩ := h
  have heq := slot?_eq_some hhead
  unfold OrderPool.allocate
  rw [heq, if_neg (by omega)]
  dsimp only
  rw [Int.toNat_natCast]
  refine ⟨rfl, ?_, ?_⟩
  · exact chain_update hrest hi _
  · rw [List.length_cons] at hcount
    rw [UInt64.toNat_add, UInt64.toNat_one]
    omega

theorem Inv.release (h : Inv n p L) (hi : i ∉ L) (hlen : L.length < n) :
    Inv n (p.release i) (i :: L) := by
  obtain ⟨hfree, hcount⟩ := h
  unfold OrderPool.release
  dsimp only
  rw [Int.toNat_natCast]
  refine ⟨⟨slot?_natCast i, ?_⟩, ?_⟩
  · dsimp only
    rw [Function.update_self]
    exact chain_update hfree hi _
  · have hle : (1 : UInt64) ≤ p.usedCount := UInt64.le_iff_toNat_le.mpr (by rw [UInt64.toNat_one]; omega)
    rw [List.length_cons, UInt64.toNat_sub_of_le _ _ hle, UInt64.toNat_one]
    omega

/-- The orders are kept like a stack. -/
theorem keeps (hn : n ≤ 2 ^ 31) : offers.Keeps (List.range n) (Inv n) where
  full := fun h _ => by
    show (slot? _, _) = _
    rw [h.full]
    rfl
  allocate := fun h hi _ => by
    obtain ⟨hout, hinv⟩ := h.allocate hi hn
    refine ⟨?_, hinv⟩
    show slot? _ = _
    rw [hout]
    exact slot?_natCast _
  release := fun h hi _ hlen => h.release hi (by rwa [List.length_range] at hlen)
  write := fun h hi o => ⟨chain_update h.free hi o, h.count⟩

theorem nextFree_new (hn : n ≤ 2 ^ 31) (j : ℕ) :
    slot? ((new n).pool j).nextFree = if j + 1 < n then some (j + 1) else none := by
  unfold new
  dsimp only
  split_ifs with hj
  · rw [narrow32_natCast (by omega)]
    exact slot?_natCast _
  · rfl

theorem inv_new (hn1 : 1 ≤ n) (hn : n ≤ 2 ^ 31) : Inv n (new n) (List.range n) := by
  refine ⟨?_, ?_⟩
  · have hc := chain_range _ (fun j _ => nextFree_new hn j) n 0 (Nat.zero_add n)
    rw [if_pos (by omega), ← List.range_eq_range'] at hc
    exact hc
  · rw [List.length_range]
    exact Nat.zero_add n

theorem alwaysRight_of_le (hn1 : 1 ≤ n) (hn : n ≤ 2 ^ 31) : AlwaysRight n := by
  intro s hs
  refine ((keeps hn).right List.nodup_range ⟨_, inv_new hn1 hn, Slots.of_new _⟩ Inv.free ?_ hs).2
  intro p L m hinv hlen
  have hcount := hinv.count
  rw [List.length_range] at hlen
  show some p.usedCount.toNat = some m
  congr 1
  omega

/-- The index of slot `2 ^ 31` is negative as an `int32`: the links end before it. -/
theorem freeList_new_of_lt {k : ℕ} (hk : k = 2 ^ 31) (hn : k < n) : (new n).FreeList (List.range k) := by
  have hnf : ∀ j < k, slot? ((new n).pool j).nextFree = if j + 1 < k then some (j + 1) else none := by
    intro j hj
    unfold new
    dsimp only
    rw [if_pos (by omega)]
    split_ifs with hlt
    · rw [narrow32_natCast (by omega)]
      exact slot?_natCast _
    · rw [show j + 1 = 2 ^ 31 by omega]
      exact slot?_eq_none.mpr (by decide)
  have hc := chain_range _ hnf k 0 (Nat.zero_add _)
  rw [if_pos (by omega), ← List.range_eq_range'] at hc
  exact hc

theorem le_of_right (h : offers.Right (List.range n) FreeList (fun p => some p.used.toNat) ⟨new n, []⟩) :
    n ≤ 2 ^ 31 := by
  obtain ⟨k, hk⟩ : ∃ k, k = 2 ^ 31 := ⟨_, rfl⟩
  by_contra hlt
  obtain ⟨free, hfree, hof⟩ := h.slots
  have hlen := hof.length
  rw [Chain.unique hfree (freeList_new_of_lt hk (by omega))] at hlen
  simp only [List.length_range, List.length_nil] at hlen
  omega

theorem alwaysRight_iff (hn1 : 1 ≤ n) : AlwaysRight n ↔ n ≤ 2 ^ 31 :=
  ⟨fun h => le_of_right (h _ ⟨[], .nil⟩), alwaysRight_of_le hn1⟩

end OrderPool

/-! ## The partitions -/

namespace PartitionPool

section Indices

variable {f : ℕ → ℤ}

theorem length_indices (k : ℕ) : (indices f k).length = k := by
  induction k with
  | zero => rfl
  | succ k ih => rw [indices, List.length_cons, ih]

theorem indices_update {j k : ℕ} (hk : k ≤ j) (v : ℤ) : indices (Function.update f j v) k = indices f k := by
  induction k with
  | zero => rfl
  | succ k ih => rw [indices, indices, ih (by omega), Function.update_of_ne (by omega)]

theorem indices_narrow32 {k : ℕ} (hk : k ≤ 2 ^ 31) :
    indices (fun i => narrow32 i) k = (List.range k).reverse := by
  induction k with
  | zero => rfl
  | succ k ih =>
    rw [indices, ih (by omega), narrow32_natCast (by omega), Int.toNat_natCast, List.range_succ, List.reverse_concat]

end Indices

variable {p : PartitionPool} {L : List ℕ} {m size k partid : ℕ}

/-- The free partitions are a stack of indices; all partitions have the same size. -/
structure Inv (m size : ℕ) (p : PartitionPool) (L : List ℕ) : Prop where
  freeHead_eq : p.freeHead + 1 = L.length
  stack_eq : p.stack = L
  size_eq : p.size = m
  size_part : ∀ k, (p.partitions k).size = size

theorem stack_of {n : ℕ} (h : p.freeHead + 1 = n) : p.stack = indices p.freeList n := by
  unfold stack
  rw [h, Int.toNat_natCast]

theorem Inv.full (h : Inv m size p []) (partid : ℕ) : p.allocate partid = (none, p) := by
  have hhead := h.freeHead_eq
  unfold allocate
  rw [if_pos (by simp at hhead; omega)]

/-- The partition that is handed out is the top of the stack. -/
theorem Inv.allocate (h : Inv m size p (k :: L)) (partid : ℕ) :
    (p.allocate partid).1 = some k ∧ Inv m size (p.allocate partid).2 L ∧
    (p.allocate partid).2.partitions k = (p.partitions k).initializeForPartid partid := by
  obtain ⟨hhead, hstack, hsize, hpart⟩ := h
  rw [stack_of hhead, List.length_cons, indices] at hstack
  rw [List.length_cons] at hhead
  obtain ⟨htop, hrest⟩ := List.cons.inj hstack
  have hlen : p.freeHead = L.length := by omega
  unfold PartitionPool.allocate
  rw [hlen, if_neg (by omega)]
  dsimp only
  rw [Int.toNat_natCast, htop]
  refine ⟨rfl, ⟨by simp, ?_, hsize, fun j => ?_⟩, Function.update_self _ _ _⟩
  · rw [stack_of (n := L.length) (by dsimp only; omega)]
    exact hrest
  · dsimp only
    by_cases hj : j = k
    · rw [hj, Function.update_self]
      exact hpart k
    · rw [Function.update_of_ne hj, hpart j]

theorem Inv.release (h : Inv m size p L) (hk : k < 2 ^ 31) : Inv m size (p.release k) (k :: L) := by
  obtain ⟨hhead, hstack, hsize, hpart⟩ := h
  refine ⟨?_, ?_, hsize, hpart⟩
  · show p.freeHead + 1 + 1 = _
    rw [hhead, List.length_cons, Nat.cast_add]
    rfl
  · rw [stack_of (n := L.length + 1) (by show p.freeHead + 1 + 1 = _; rw [hhead]; rfl)]
    unfold PartitionPool.release
    dsimp only
    rw [hhead, Int.toNat_natCast, indices, Function.update_self, indices_update le_rfl, narrow32_natCast hk,
      Int.toNat_natCast, ← stack_of hhead, hstack]

theorem Inv.write (h : Inv m size p L) (k : ℕ) (part : Partition) : Inv m size (p.write k part) L := by
  refine ⟨h.freeHead_eq, h.stack_eq, h.size_eq, fun j => ?_⟩
  show (Function.update p.partitions k _ j).size = size
  by_cases hj : j = k
  · rw [hj, Function.update_self]
    exact h.size_part k
  · rw [Function.update_of_ne hj, h.size_part j]

theorem keeps (hm : m ≤ 2 ^ 31) : offers.Keeps (List.range m) (Inv m size) where
  full := fun h partid => h.full partid
  allocate := fun h _ partid => ⟨(h.allocate partid).1, (h.allocate partid).2.1⟩
  release := fun h _ hk _ => h.release ((List.mem_range.mp hk).trans_le hm)
  write := fun h _ part => h.write _ part

theorem freeList_new : (new m size).freeList = fun i : ℕ => narrow32 i := by
  unfold new
  dsimp only

theorem holds_new (hm : m < 2 ^ 31) : Pool.Holds (List.range m) (Inv m size) ⟨new m size, []⟩ := by
  have hhead : (new m size).freeHead + 1 = m := by
    show narrow32 ((m : ℤ) - 1) + 1 = m
    rw [narrow32_eq (by omega) (by omega)]
    omega
  refine ⟨(List.range m).reverse, ⟨?_, ?_, rfl, fun _ => rfl⟩, ?_⟩
  · rw [hhead, List.length_reverse, List.length_range]
  · rw [stack_of hhead, freeList_new, indices_narrow32 hm.le]
  · show ((List.range m).reverse ++ []).Perm (List.range m)
    rw [List.append_nil]
    exact List.reverse_perm _

theorem ofInt_natCast (n : ℕ) : UInt64.ofInt n = UInt64.ofNat n := by
  unfold UInt64.ofInt
  have hmod : ((n : ℤ) % 2 ^ 64).toNat = n % 2 ^ 64 := by omega
  rw [hmod, UInt64.ofNat_mod_size]

/-- No partition is used that is not held. -/
theorem Inv.used (h : Inv m size p L) (hm : m < 2 ^ 31) {n : ℕ} (hlen : L.length + n = m) :
    p.used.map UInt64.toNat = some n := by
  have hhead := h.freeHead_eq
  unfold PartitionPool.used freeSlots
  rw [if_neg (by omega), hhead, h.size_eq, Option.map_some, Option.map_some, ofInt_natCast,
    ← UInt64.ofNat_sub (by omega), UInt64.toNat_ofNat_of_lt' (by unfold UInt64.size; omega)]
  congr 1
  omega

theorem freshFor_initialized {part : Partition} (hsize : part.size = size) (partid : ℕ) :
    FreshFor size partid (part.initializeForPartid partid) := by
  refine ⟨hsize, fun i hi => ?_, ?_, rfl, rfl⟩
  · unfold Partition.initializeForPartid
    dsimp only
    rw [hsize, if_pos hi, wrap64_add]
  · unfold Partition.empty Bitmap.isEmpty
    rw [List.all_eq_true]
    intro w hw
    exact decide_eq_true (if_pos (List.mem_range.mp hw))

theorem alwaysRight_of_lt (hm : m < 2 ^ 31) : AlwaysRight m size := by
  intro s hs
  have hused : ∀ {p : PartitionPool} {L : List ℕ} {n : ℕ}, Inv m size p L → L.length + n = (List.range m).length →
      p.used.map UInt64.toNat = some n := by
    intro p L n hinv hlen
    exact hinv.used hm (by rwa [List.length_range] at hlen)
  obtain ⟨⟨free, hinv, -⟩, hright⟩ := (keeps hm.le).right List.nodup_range (holds_new hm) Inv.stack_eq hused hs
  refine ⟨hright, fun partid k hk => ?_⟩
  cases free with
  | nil =>
    rw [hinv.full partid] at hk
    cases hk
  | cons j L =>
    obtain ⟨hout, -, hpart⟩ := hinv.allocate partid
    rw [hout] at hk
    cases hk
    rw [hpart]
    exact freshFor_initialized (hinv.size_part _) partid

theorem lt_of_right (h : offers.Right (List.range m) (fun p L => p.stack = L) (fun p => p.used.map UInt64.toNat)
    ⟨new m size, []⟩) : m < 2 ^ 31 := by
  obtain ⟨free, hstack, hof⟩ := h.slots
  have hused := h.used_eq
  have hlen : ((new m size).freeHead + 1).toNat = m := by
    have hlen := hof.length
    dsimp only at hlen hstack
    rw [← hstack, List.length_nil, List.length_range] at hlen
    unfold stack at hlen
    rwa [length_indices, Nat.add_zero] at hlen
  have hhi : (new m size).freeHead < 2 ^ 31 := by
    have hlt := Int.bmod_lt (x := (m - 1 : ℤ)) (m := 2 ^ 32) (by decide)
    unfold new narrow32
    dsimp only
    omega
  by_contra hm
  have hnone : (new m size).used = none := by
    unfold used freeSlots
    rw [if_pos (by omega)]
    rfl
  dsimp only at hused
  rw [hnone] at hused
  cases hused

theorem alwaysRight_iff : AlwaysRight m size ↔ m < 2 ^ 31 :=
  ⟨fun h => lt_of_right (h _ ⟨[], .nil⟩).1, alwaysRight_of_lt⟩

end PartitionPool

/-! ## For which capacities -/

theorem pools_right_iff {maxOrders : ℕ} (h : 1 ≤ maxOrders) (numPartitions partitionSize : ℕ) :
    (OrderPool.AlwaysRight maxOrders ↔ maxOrders ≤ 2 ^ 31) ∧
    (PartitionPool.AlwaysRight numPartitions partitionSize ↔ numPartitions < 2 ^ 31) :=
  ⟨OrderPool.alwaysRight_iff h, PartitionPool.alwaysRight_iff⟩

theorem small_pools_right : OrderPool.AlwaysRight 1000 ∧ PartitionPool.AlwaysRight 8 256 := by
  have h := pools_right_iff (show 1 ≤ 1000 by norm_num) 8 256
  exact ⟨h.1.mpr (by norm_num), h.2.mpr (by norm_num)⟩

/-- With `2 ^ 31 + 1` orders, the last one is in no free list; with `2 ^ 31` partitions, `used` overflows. -/
theorem large_pools_not_right :
    ¬ OrderPool.AlwaysRight (2 ^ 31 + 1) ∧ ¬ PartitionPool.AlwaysRight (2 ^ 31) 1 := by
  refine ⟨fun h => ?_, fun h => ?_⟩
  · have hle := OrderPool.le_of_right (h _ ⟨[], .nil⟩)
    omega
  · have hlt := PartitionPool.lt_of_right (h _ ⟨[], .nil⟩).1
    omega

/-! ## In the order book -/

/-- The order as the order book has it. -/
def Order.view (o : Order) : Flashstrike.Order :=
  ⟨slot? o.prevIdx, slot? o.nextIdx, slot? o.nextFree, o.id, o.type, o.price, o.qty, o.filled, o.side⟩

/-- The pool as the order book has it. -/
def OrderPool.view (p : OrderPool) : Flashstrike.OrderPool := ⟨fun i => (p.pool i).view, slot? p.freeHead⟩

namespace OrderPool

variable {p : OrderPool} {n : ℕ}

theorem view_update (i : ℕ) (o : Order) :
    (fun j => (Function.update p.pool i o j).view) = Function.update p.view.pool i o.view := by
  funext j
  by_cases hj : j = i
  · rw [hj, Function.update_self, Function.update_self]
  · rw [Function.update_of_ne hj, Function.update_of_ne hj]
    rfl

theorem new_of (hn : n ≤ 2 ^ 31) : (new n).view = .new n := by
  unfold view Flashstrike.OrderPool.new
  congr 1
  funext j
  have hnext := nextFree_new hn j
  unfold Order.view
  rw [hnext]
  rfl

theorem allocate_of : p.view.allocate = (slot? p.allocate.1).map (fun i => (i, p.allocate.2.view)) := by
  unfold allocate Flashstrike.OrderPool.allocate
  by_cases hneg : p.freeHead < 0
  · rw [if_pos hneg, show p.view.freeHead = none from slot?_eq_none.mpr hneg]
    rfl
  · have hhead : slot? p.freeHead = some p.freeHead.toNat := if_neg hneg
    rw [if_neg hneg, show p.view.freeHead = some p.freeHead.toNat from hhead]
    dsimp only
    rw [hhead, Option.map_some]
    unfold view
    rw [view_update]
    rfl

theorem release_of (i : ℕ) : (p.release i).view = p.view.release i := by
  unfold release Flashstrike.OrderPool.release
  dsimp only
  rw [Int.toNat_natCast]
  unfold view
  rw [view_update, slot?_natCast]
  rfl

end OrderPool

end Native

end Wirekrak.Flashstrike

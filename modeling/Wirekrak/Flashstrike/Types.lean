import Mathlib.Data.Int.ModEq
import Mathlib.Tactic.Linarith
import Mathlib.Tactic.Positivity
import Wirekrak.Lib.Bitmap

/-!
# Wirekrak.Flashstrike.Types — the data of the matching engine

Prices and quantities are `int64` ticks; quantities that can leave the range (a level's total, an order's filled
quantity) are wrapped where they are changed.  `OrderIdx` is an index of the order pool, `none` being `INVALID_INDEX`.
Memory (the pool, the levels of a partition, the partitions, the id map) is a function from indices.

`Config` holds what the constructor fixes: the size of the pool, the partition plan and the normalised instrument, within
the sizes that the types of indices and shifts allow.  The constructors assert that sizes are positive and that partitions
are a power of two; no code compares with the upper bounds of the pool and of the partition size.
-/

namespace Wirekrak.Flashstrike

open Wirekrak.Lib

inductive Side
  | bid
  | ask
  deriving DecidableEq

def Side.opp : Side → Side
  | .bid => .ask
  | .ask => .bid

inductive OrderType
  | limit
  | market
  deriving DecidableEq

inductive OperationStatus
  | success
  | fullFill
  | partialFill
  | noMatch
  | notFound
  | unchanged
  | badAlloc
  | idmapFull
  | rejected
  deriving DecidableEq

/-- What the release build runs into undefined behaviour on (the debug build asserts), and a loop without end. -/
inductive Fault
  | invalidPartitionId
  | partitionNotFound
  | partitionPoolExhausted
  | diverges
  deriving DecidableEq

abbrev OrderId := UInt32

abbrev OrderIdx := Option ℕ

def invalidPrice : ℤ := -1

/-- The value of an `int64` computation. -/
def wrap64 (x : ℤ) : ℤ := Int.bmod x (2 ^ 64)

theorem wrap64_add (x y : ℤ) : wrap64 (wrap64 x + y) = wrap64 (x + y) := Int.bmod_add_bmod

theorem wrap64_eq_iff {x : ℤ} : wrap64 x = x ↔ -2 ^ 63 ≤ x ∧ x < 2 ^ 63 := by
  unfold wrap64
  constructor
  · intro h
    have hlo := Int.le_bmod (x := x) (m := 2 ^ 64) (by decide)
    have hhi := Int.bmod_lt (x := x) (m := 2 ^ 64) (by decide)
    omega
  · rintro ⟨hlo, hhi⟩
    exact Int.bmod_eq_of_le (by omega) (by omega)

/-! ## Prices of a side -/

namespace Side

/-- `PriceComparator<SIDE>::is_better`. -/
def isBetter : Side → ℤ → ℤ → Bool
  | .bid, a, b => decide (b < a)
  | .ask, a, b => decide (a < b)

/-- `PriceComparator<SIDE>::is_worse`. -/
def isWorse : Side → ℤ → ℤ → Bool
  | .bid, a, b => decide (a < b)
  | .ask, a, b => decide (b < a)

/-- `PriceComparator<SIDE>::crosses`: an incoming order of this side against a resting price. -/
def crosses : Side → ℤ → ℤ → Bool
  | .bid, incoming, resting => decide (resting ≤ incoming)
  | .ask, incoming, resting => decide (incoming ≤ resting)

/-- Prices in the order of priority: the better price has the smaller key. -/
def key : Side → ℤ → ℤ
  | .bid, p => -p
  | .ask, p => p

variable {side : Side} {a b : ℤ}

@[simp] theorem opp_opp (side : Side) : side.opp.opp = side := by cases side <;> rfl

theorem opp_ne (side : Side) : side.opp ≠ side := by cases side <;> decide

theorem eq_or_eq_opp (side s : Side) : s = side ∨ s = side.opp := by cases side <;> cases s <;> decide

theorem isBetter_iff : side.isBetter a b = true ↔ side.key a < side.key b := by
  cases side <;> simp [isBetter, key]

theorem isWorse_iff : side.isWorse a b = true ↔ side.key b < side.key a := by
  cases side <;> simp [isWorse, key]

theorem crosses_iff : side.crosses a b = true ↔ side.opp.key b ≤ side.opp.key a := by
  cases side <;> simp [crosses, key, opp]

theorem key_inj (h : side.key a = side.key b) : a = b := by
  cases side <;> simp only [key] at h <;> omega

end Side

/-! ## Configuration -/

structure Config where
  maxOrders : ℕ
  maxOrders_pos : 0 < maxOrders
  maxOrders_le : maxOrders ≤ 2 ^ 30
  /-- `partition_bits`: the logarithm of the partition size. -/
  bits : ℕ
  bits_pos : 0 < bits
  bits_le : bits ≤ 31
  /-- The number of partitions is a power of two. -/
  logPartitions : ℕ
  logPartitions_le : logPartitions ≤ 31
  priceMin : ℤ
  priceMax : ℤ
  qtyMin : ℤ
  qtyMax : ℤ
  minNotional : ℤ
  priceMin_pos : 0 < priceMin
  qtyMin_nonneg : 0 ≤ qtyMin
  qtyMax_lt : qtyMax < 2 ^ 63
  minNotional_pos : 0 < minNotional

namespace Config

def numPartitions (cfg : Config) : ℕ := 2 ^ cfg.logPartitions

def partitionSize (cfg : Config) : ℕ := 2 ^ cfg.bits

def numTicks (cfg : Config) : ℤ := cfg.numPartitions * cfg.partitionSize

/-- `partition_id_`: `price >> partition_bits`, cast to 32 bits. -/
def partitionId (cfg : Config) (price : ℤ) : ℕ := (price / cfg.partitionSize % 2 ^ 32).toNat

/-- `offset_in_partition_`: `price & partition_mask`. -/
def offset (cfg : Config) (price : ℤ) : ℕ := (price % cfg.partitionSize).toNat

/-- The words of a partition's level bitmap. -/
def levelWords (cfg : Config) : ℕ := (cfg.partitionSize + 63) / 64

/-- The words of a store's bitmap of active partitions. -/
def partitionWords (cfg : Config) : ℕ := (cfg.numPartitions + 63) / 64

/-! Prices of the plan are the pairs of a partition and an offset. -/

def InPlan (cfg : Config) (p : ℤ) : Prop := 0 ≤ p ∧ p < cfg.numTicks

instance (cfg : Config) (p : ℤ) : Decidable (cfg.InPlan p) := inferInstanceAs (Decidable (_ ∧ _))

/-- The partition number of the price fits `PartitionId`, so that the cast keeps it. -/
def Fits (cfg : Config) (p : ℤ) : Prop := 0 ≤ p ∧ p < 2 ^ 32 * cfg.partitionSize

instance (cfg : Config) (p : ℤ) : Decidable (cfg.Fits p) := inferInstanceAs (Decidable (_ ∧ _))

def priceOf (cfg : Config) (pid off : ℕ) : ℤ := pid * cfg.partitionSize + off

section Plan

variable {cfg : Config} {p q : ℤ} {pid off : ℕ}

theorem partitionSize_pos : 0 < cfg.partitionSize := Nat.two_pow_pos _

theorem numPartitions_le : cfg.numPartitions ≤ 2 ^ 31 := Nat.pow_le_pow_right (by decide) cfg.logPartitions_le

theorem offset_lt : cfg.offset p < cfg.partitionSize := by
  have h : (0 : ℤ) < cfg.partitionSize := by exact_mod_cast partitionSize_pos
  have h1 := Int.emod_lt_of_pos p h
  have h2 := Int.emod_nonneg p (ne_of_gt h)
  unfold offset
  omega

theorem InPlan.div_lt (h : cfg.InPlan p) : 0 ≤ p / cfg.partitionSize ∧ p / cfg.partitionSize < cfg.numPartitions := by
  have hs : (0 : ℤ) < cfg.partitionSize := by exact_mod_cast partitionSize_pos
  exact ⟨Int.ediv_nonneg h.1 hs.le, Int.ediv_lt_of_lt_mul hs h.2⟩

theorem InPlan.partitionId_eq (h : cfg.InPlan p) : (cfg.partitionId p : ℤ) = p / cfg.partitionSize := by
  obtain ⟨h1, h2⟩ := h.div_lt
  have hN : (cfg.numPartitions : ℤ) ≤ 2 ^ 31 := by exact_mod_cast numPartitions_le
  unfold partitionId
  rw [Int.emod_eq_of_lt h1 (by omega), Int.toNat_of_nonneg h1]

theorem InPlan.partitionId_lt (h : cfg.InPlan p) : cfg.partitionId p < cfg.numPartitions := by
  have h1 := h.partitionId_eq
  have h2 := h.div_lt
  omega

theorem offset_eq (p : ℤ) : (cfg.offset p : ℤ) = p % cfg.partitionSize := by
  have hs : (cfg.partitionSize : ℤ) ≠ 0 := by exact_mod_cast (ne_of_gt partitionSize_pos)
  unfold offset
  rw [Int.toNat_of_nonneg (Int.emod_nonneg p hs)]

theorem InPlan.priceOf_eq (h : cfg.InPlan p) : cfg.priceOf (cfg.partitionId p) (cfg.offset p) = p := by
  unfold priceOf
  rw [h.partitionId_eq, offset_eq, mul_comm]
  exact Int.mul_ediv_add_emod p cfg.partitionSize

theorem inPlan_priceOf (hp : pid < cfg.numPartitions) (ho : off < cfg.partitionSize) :
    cfg.InPlan (cfg.priceOf pid off) := by
  unfold InPlan priceOf numTicks
  have h1 : (pid : ℤ) + 1 ≤ cfg.numPartitions := by exact_mod_cast hp
  have h2 : (off : ℤ) < cfg.partitionSize := by exact_mod_cast ho
  have hs : (0 : ℤ) < cfg.partitionSize := by exact_mod_cast partitionSize_pos
  have h3 := mul_le_mul_of_nonneg_right h1 hs.le
  refine ⟨by positivity, ?_⟩
  linarith

theorem partitionId_priceOf (hp : pid < cfg.numPartitions) (ho : off < cfg.partitionSize) :
    cfg.partitionId (cfg.priceOf pid off) = pid := by
  have hs : (0 : ℤ) < cfg.partitionSize := by exact_mod_cast partitionSize_pos
  have h := (inPlan_priceOf hp ho).partitionId_eq
  have hdiv : cfg.priceOf pid off / cfg.partitionSize = pid := by
    unfold priceOf
    rw [Int.add_comm, Int.add_mul_ediv_right _ _ (ne_of_gt hs), Int.ediv_eq_zero_of_lt (by omega) (by exact_mod_cast ho)]
    omega
  rw [hdiv] at h
  exact_mod_cast h

theorem offset_priceOf (ho : off < cfg.partitionSize) : cfg.offset (cfg.priceOf pid off) = off := by
  have hmod : cfg.priceOf pid off % cfg.partitionSize = off := by
    unfold priceOf
    rw [Int.add_comm, Int.add_mul_emod_self_right]
    exact Int.emod_eq_of_lt (by omega) (by exact_mod_cast ho)
  have h : (cfg.offset (cfg.priceOf pid off) : ℤ) = off := by rw [offset_eq, hmod]
  exact_mod_cast h

/-- Prices of a lower partition are lower. -/
theorem InPlan.lt_of_partitionId_lt (hp : cfg.InPlan p) (hq : cfg.InPlan q)
    (h : cfg.partitionId p < cfg.partitionId q) : p < q := by
  have h1 := hp.partitionId_eq
  have h2 := hq.partitionId_eq
  by_contra hle
  have hs : (0 : ℤ) < cfg.partitionSize := by exact_mod_cast partitionSize_pos
  have h3 : q / cfg.partitionSize ≤ p / cfg.partitionSize := Int.ediv_le_ediv hs (by omega)
  omega

theorem InPlan.fits (h : cfg.InPlan p) : cfg.Fits p := by
  refine ⟨h.1, h.2.trans_le ?_⟩
  have hs : (0 : ℤ) ≤ cfg.partitionSize := by positivity
  have hN : (cfg.numPartitions : ℤ) ≤ 2 ^ 32 := by
    have h1 : (cfg.numPartitions : ℤ) ≤ 2 ^ 31 := by exact_mod_cast numPartitions_le
    omega
  exact mul_le_mul_of_nonneg_right hN hs

/-- A price that fits and whose partition is in the plan is in the plan. -/
theorem Fits.inPlan (hp : cfg.Fits p) (h : cfg.partitionId p < cfg.numPartitions) : cfg.InPlan p := by
  obtain ⟨h0, h1⟩ := hp
  have hs : (0 : ℤ) < cfg.partitionSize := by exact_mod_cast partitionSize_pos
  have h2 : p / cfg.partitionSize < 2 ^ 32 := Int.ediv_lt_of_lt_mul hs h1
  have h3 : 0 ≤ p / cfg.partitionSize := Int.ediv_nonneg h0 hs.le
  have h4 : (cfg.partitionId p : ℤ) = p / cfg.partitionSize := by
    unfold partitionId
    rw [Int.emod_eq_of_lt h3 h2, Int.toNat_of_nonneg h3]
  have h5 : p / cfg.partitionSize < cfg.numPartitions := by
    rw [← h4]
    exact_mod_cast h
  exact ⟨h0, (Int.ediv_lt_iff_lt_mul hs).mp h5⟩

end Plan

end Config

/-! ## Orders, levels, partitions, stores -/

structure Order where
  prevIdx : OrderIdx
  nextIdx : OrderIdx
  nextFree : OrderIdx
  id : OrderId
  type : OrderType
  price : ℤ
  qty : ℤ
  filled : ℤ
  side : Side
  deriving DecidableEq

structure PriceLevel where
  price : ℤ
  headIdx : OrderIdx
  tailIdx : OrderIdx
  totalQty : ℤ
  active : Bool
  deriving DecidableEq

namespace PriceLevel

def addQuantity (pl : PriceLevel) (qty : ℤ) : PriceLevel := { pl with totalQty := wrap64 (pl.totalQty + qty) }

def subtractQuantity (pl : PriceLevel) (qty : ℤ) : PriceLevel :=
  { pl with totalQty := wrap64 (pl.totalQty - qty) }

/-- The order `o` at index `i` leaves the level: its head, tail and total, in `unlink_order_`. -/
def detach (pl : PriceLevel) (i : ℕ) (o : Order) : PriceLevel :=
  let l1 := if pl.headIdx = some i then { pl with headIdx := o.nextIdx } else pl
  let l2 := if l1.tailIdx = some i then { l1 with tailIdx := o.prevIdx } else l1
  l2.addQuantity (-o.qty)

end PriceLevel

structure Partition where
  levels : ℕ → PriceLevel
  bitmap : Bitmap
  bestPrice : ℤ
  hasBest : Bool

structure PriceLevelStore where
  activePartitions : ℕ → Option ℕ
  activeBitmap : Bitmap
  bestPrice : ℤ
  hasBest : Bool

structure TradeEvent where
  seqNum : UInt64
  makerOrderId : OrderId
  takerOrderId : OrderId
  price : ℤ
  qty : ℤ
  takerSide : Side
  deriving DecidableEq

end Wirekrak.Flashstrike

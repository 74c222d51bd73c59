import Wirekrak.Flashstrike.Plan

/-!
# Wirekrak.Flashstrike.Notional — the notional check of an order, and what a plan's numbers are

The product of price and quantity is taken in 64 bits, and the number of partitions is rounded up in 32 bits; nothing
checks that either fits.

* `PartitionPlan.compute_eq_some_iff`: `compute` returns if its assertions hold and it does not divide by zero.
* `notional_exact_iff`: for which orders and targets the check is exact and the plan consistent.
-/

namespace Wirekrak.Flashstrike

open Wirekrak.Lib

namespace PartitionPlan

/-- The numbers of a plan with this many ticks before they are rounded up. -/
def layout (ticks target : ℕ) : PartitionPlan :=
  let numTicks := roundUpToPowerOfTwo64 ticks
  let numPartitions := roundUpToPowerOfTwo32 target
  let partitionSize := numTicks / numPartitions
  ⟨firstBit 64 partitionSize, numPartitions, partitionSize, numTicks⟩

/-- What a plan's numbers are to be, for this many ticks. -/
structure Consistent (plan : PartitionPlan) (ticks : ℕ) : Prop where
  product : plan.numPartitions * plan.partitionSize = plan.numTicks
  size : plan.partitionSize = 2 ^ plan.partitionBits
  ticks_le : ticks ≤ plan.numTicks
  partitions_ne : plan.numPartitions ≠ 0
  ticks_ne : plan.numTicks ≠ 0

/-- The assertions of `compute` and of `normalize` hold, as far as they are reached.  That the number of partitions is
not zero is not one of them. -/
structure Asserted (fl : Floats) (ins : Conf.Instrument) (target ticks : ℕ) (norm : NormalizedInstrument) : Prop where
  tick_pos : 0 < ins.priceTickUnits
  tick_lt : ins.priceTickUnits < ins.priceMaxUnits
  target_pos : 0 < target
  scaled : ∃ scale tick priceMax, normalizeTickSize fl ins.priceTickUnits = some (scale, tick) ∧
    toPrice (fl.double (ins.priceMaxUnits * scale)) = some priceMax ∧ tick < priceMax ∧
    ticks = (priceMax / tick).toNat
  partitions_le : (layout ticks target).numPartitions ≤ (layout ticks target).numTicks
  bits_lt : (layout ticks target).numPartitions ≠ 0 → (layout ticks target).partitionBits < 63
  normalized : ins.normalize fl (layout ticks target).numTicks = some norm

section Asserted

variable {fl : Floats} {ins : Conf.Instrument} {target ticks : ℕ} {plan : PartitionPlan} {norm : NormalizedInstrument}

/-- `compute` returns the numbers of the layout, unless it divides by zero. -/
theorem compute_eq_some_iff : compute fl ins target = some (plan, norm) ↔
    ∃ ticks, Asserted fl ins target ticks norm ∧ roundUpToPowerOfTwo32 target ≠ 0 ∧ plan = layout ticks target := by
  constructor
  · intro h
    unfold compute at h
    split_ifs at h with hunits
    simp only [bind, Option.bind_eq_some_iff] at h
    obtain ⟨⟨scale, tick⟩, htick, priceMax, hmax, h⟩ := h
    dsimp only at hmax h
    split_ifs at h with hguard
    obtain ⟨norm', hnorm, h⟩ := Option.bind_eq_some_iff.mp h
    cases h
    obtain ⟨hlt, hpos, hle, hbits⟩ := hguard
    exact ⟨_, ⟨hunits.1, hunits.2.1, hunits.2.2, ⟨scale, tick, priceMax, htick, hmax, hlt, rfl⟩, hle,
      fun _ => hbits, hnorm⟩, hpos.ne', rfl⟩
  · rintro ⟨ticks, ha, hne, rfl⟩
    obtain ⟨scale, tick, priceMax, htick, hmax, hlt, rfl⟩ := ha.scaled
    unfold compute
    rw [if_pos ⟨ha.tick_pos, ha.tick_lt, ha.target_pos⟩]
    simp only [bind, Option.bind_eq_some_iff]
    refine ⟨(scale, tick), htick, priceMax, hmax, ?_⟩
    dsimp only
    rw [if_pos ⟨hlt, Nat.pos_of_ne_zero hne, ha.partitions_le, ha.bits_lt hne⟩]
    exact Option.bind_eq_some_iff.mpr ⟨norm, ha.normalized, rfl⟩

/-- Rounding wraps to zero for the targets above the largest power of two that fits. -/
theorem roundUp32_eq_zero_iff (ht : target < 2 ^ 32) : roundUpToPowerOfTwo32 target = 0 ↔ 2 ^ 31 < target := by
  by_cases h1 : target ≤ 1
  · unfold roundUpToPowerOfTwo32
    rw [if_pos h1]
    omega
  · rw [roundUp32_eq (by omega) ht]
    have hsize : (target - 1).size ≤ 32 := Nat.size_le.mpr (by omega)
    by_cases h32 : (target - 1).size = 32
    · have hge : 2 ^ 31 ≤ target - 1 := Nat.lt_size.mp (by omega)
      rw [h32, Nat.mod_self]
      omega
    · have hle : target - 1 < 2 ^ 31 := Nat.size_le.mp (by omega)
      rw [Nat.mod_eq_of_lt (Nat.pow_lt_pow_right (by decide) (by omega))]
      have hpos := Nat.two_pow_pos (target - 1).size
      omega

/-- The ticks before rounding are at least one, and fit 63 bits. -/
theorem Asserted.ticks_range (ha : Asserted fl ins target ticks norm) : 0 < ticks ∧ ticks < 2 ^ 63 := by
  obtain ⟨scale, tick, priceMax, htick, hmax, hlt, rfl⟩ := ha.scaled
  have htpos := normalizeTickSize_pos htick
  have hrange := toPrice_lt hmax
  have h1 : 1 ≤ priceMax / tick := (Int.le_ediv_iff_mul_le htpos).mpr (by omega)
  have hle : priceMax / tick ≤ priceMax := Int.ediv_le_self _ (by omega)
  omega

/-- **The plan is consistent** exactly if the rounding of the target does not wrap. -/
theorem plan_consistent_iff (ht : target < 2 ^ 32) (ha : Asserted fl ins target ticks norm) :
    (∃ plan, compute fl ins target = some (plan, norm) ∧ plan.Consistent ticks) ↔ target ≤ 2 ^ 31 := by
  have hzero := roundUp32_eq_zero_iff ht
  constructor
  · rintro ⟨plan, h, hc⟩
    obtain ⟨ticks', -, hne, rfl⟩ := compute_eq_some_iff.mp h
    by_contra hgt
    exact hne (hzero.mpr (by omega))
  · intro hle
    have h : compute fl ins target = some (layout ticks target, norm) :=
      compute_eq_some_iff.mpr ⟨ticks, ha, fun hc => by have := hzero.mp hc; omega, rfl⟩
    have hs := (compute_spec ht h).1
    obtain ⟨hpos, hlt⟩ := ha.ticks_range
    obtain ⟨e, -, he, hup, -⟩ := roundUp64_spec hpos hlt
    have hticks : (layout ticks target).numTicks = 2 ^ e := he
    refine ⟨_, h, hs.ticks.symm, hs.size, ?_, hs.partitions_pos.ne', ?_⟩
    · rw [hticks]
      exact hup
    · rw [hticks]
      exact (Nat.two_pow_pos e).ne'

end Asserted

end PartitionPlan

/-! ## Products -/

/-- The price and the quantity pass the bound checks of `validate_order_`. -/
structure NormalizedInstrument.InBounds (norm : NormalizedInstrument) (price qty : ℤ) : Prop where
  price_ge : norm.priceMinScaled ≤ price
  price_le : price ≤ norm.priceMaxScaled
  qty_ge : norm.qtyMinScaled ≤ qty
  qty_le : qty ≤ norm.qtyMaxScaled

/-- The product of price and quantity is the mathematical one, and it alone decides about the order. -/
def NormalizedInstrument.Exact (norm : NormalizedInstrument) (price qty : ℤ) : Prop :=
  wrap64 (price * qty) = price * qty ∧ (norm.validateOrder price qty = true ↔ norm.minNotional ≤ price * qty)

section InBounds

variable {norm : NormalizedInstrument} {price qty : ℤ}

/-- Within the bounds, the product as the code takes it decides. -/
theorem validateOrder_iff (hb : norm.InBounds price qty) :
    norm.validateOrder price qty = true ↔ norm.minNotional ≤ wrap64 (price * qty) := by
  unfold NormalizedInstrument.validateOrder
  simp [hb.price_ge, hb.price_le, hb.qty_ge, hb.qty_le]

theorem exact_iff (hb : norm.InBounds price qty) :
    norm.Exact price qty ↔ -2 ^ 63 ≤ price * qty ∧ price * qty < 2 ^ 63 := by
  unfold NormalizedInstrument.Exact
  rw [validateOrder_iff hb, ← wrap64_eq_iff]
  constructor
  · exact And.left
  · intro h
    exact ⟨h, by rw [h]⟩

end InBounds

/-- **The notional check is exact and the plan consistent** exactly if the target can be rounded up in 32 bits and the
product of price and quantity fits 64 bits with a sign. -/
theorem notional_exact_iff {fl : Floats} {ins : Conf.Instrument} {target ticks : ℕ} (ht : target < 2 ^ 32)
    {norm : NormalizedInstrument} (ha : PartitionPlan.Asserted fl ins target ticks norm) {price qty : ℤ}
    (hb : norm.InBounds price qty) :
    ((∃ plan, PartitionPlan.compute fl ins target = some (plan, norm) ∧ plan.Consistent ticks) ∧ norm.Exact price qty) ↔
      target ≤ 2 ^ 31 ∧ -2 ^ 63 ≤ price * qty ∧ price * qty < 2 ^ 63 := by
  rw [PartitionPlan.plan_consistent_iff ht ha, exact_iff hb]

/-- Ticks and quantities of size one, and numbers that a `double` has exactly. -/
def bulk : Conf.Instrument := ⟨1, 1, 13, 2 ^ 62, 1, 1⟩

def bulkNormalized : NormalizedInstrument := ⟨1, 1, 16, 1, 1, 2 ^ 62, 1⟩

theorem asserted_bulk : PartitionPlan.Asserted exactly bulk 4 13 bulkNormalized :=
  ⟨by decide, by decide, by decide, ⟨1, 1, 13, by decide +kernel, by decide +kernel, by decide, by decide⟩,
    by decide +kernel, by decide +kernel, by decide +kernel⟩

theorem asserted_bulk_wide : PartitionPlan.Asserted exactly bulk (2 ^ 31 + 1) 13 bulkNormalized :=
  ⟨by decide, by decide, by decide, ⟨1, 1, 13, by decide +kernel, by decide +kernel, by decide, by decide⟩,
    by decide +kernel, by decide +kernel, by decide +kernel⟩

theorem bulk_exact :
    (∃ plan, PartitionPlan.compute exactly bulk 4 = some (plan, bulkNormalized) ∧ plan.Consistent 13) ∧
      bulkNormalized.Exact 2 3 :=
  (notional_exact_iff (by decide) asserted_bulk ⟨by decide, by decide, by decide, by decide⟩).mpr (by decide)

/-- A product that does not fit is refused though it is larger than the least notional, and a target whose rounding
wraps to zero passes the assertions, and then divides. -/
theorem bulk_inexact :
    PartitionPlan.Asserted exactly bulk 4 13 bulkNormalized ∧ bulkNormalized.InBounds 2 (2 ^ 62) ∧
    bulkNormalized.minNotional ≤ 2 * 2 ^ 62 ∧ bulkNormalized.validateOrder 2 (2 ^ 62) = false ∧
    PartitionPlan.Asserted exactly bulk (2 ^ 31 + 1) 13 bulkNormalized ∧
    roundUpToPowerOfTwo32 (2 ^ 31 + 1) = 0 ∧ PartitionPlan.compute exactly bulk (2 ^ 31 + 1) = none :=
  ⟨asserted_bulk, ⟨by decide, by decide, by decide, by decide⟩, by decide, by decide, asserted_bulk_wide,
    by decide +kernel, by decide +kernel⟩

end Wirekrak.Flashstrike

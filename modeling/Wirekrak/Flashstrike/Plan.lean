import Mathlib.Data.Rat.Floor
import Wirekrak.Flashstrike.System
import Wirekrak.Lib.PowerOfTwo

/-!
# Wirekrak.Flashstrike.Plan — from an instrument to partitions and admitted prices

A `Conf.Instrument` speaks of prices in units; `PartitionPlan.compute` and `normalize` turn them into integers.
Numbers in units are rationals, and what a floating-point product is rounded to is a parameter (`Floats`): no result
depends on it.  A failing assertion, or a conversion that is not defined, is `none`.

* `compute_spec`: the sizes of a plan.
* `addressable_iff`: which prices have a partition and a level, and for which instruments all admitted prices do.
-/

namespace Wirekrak.Flashstrike

open Wirekrak.Lib

/-! ## Numbers -/

/-- What a product of two `double` or `long double` numbers is rounded to. -/
structure Floats where
  double : ℚ → ℚ
  long : ℚ → ℚ

/-- `std::llround`: halves are rounded away from zero; defined in the range of 64 bits. -/
def llround (x : ℚ) : Option ℤ :=
  let n := if 0 ≤ x then ⌊x + 1 / 2⌋ else -⌊-x + 1 / 2⌋
  if -2 ^ 63 ≤ n ∧ n < 2 ^ 63 then some n else none

/-- `static_cast<Price>`: towards zero; defined in the range of 64 bits. -/
def toPrice (x : ℚ) : Option ℤ :=
  let n := if 0 ≤ x then ⌊x⌋ else -⌊-x⌋
  if -2 ^ 63 ≤ n ∧ n < 2 ^ 63 then some n else none

/-- `round_up_to_power_of_two_64`. -/
def roundUpToPowerOfTwo64 (n : ℕ) : ℕ :=
  if n ≤ 1 then 1
  else
    let n := n - 1
    let n := n ||| n >>> 1
    let n := n ||| n >>> 2
    let n := n ||| n >>> 4
    let n := n ||| n >>> 8
    let n := n ||| n >>> 16
    let n := n ||| n >>> 32
    (n + 1) % 2 ^ 64

/-- `round_up_to_power_of_two_32`. -/
def roundUpToPowerOfTwo32 (n : ℕ) : ℕ :=
  if n ≤ 1 then 1
  else
    let n := n - 1
    let n := n ||| n >>> 1
    let n := n ||| n >>> 2
    let n := n ||| n >>> 4
    let n := n ||| n >>> 8
    let n := n ||| n >>> 16
    (n + 1) % 2 ^ 32

section Rounding

variable {n : ℕ}

theorem roundUp64_eq (h1 : 1 < n) (h : n < 2 ^ 64) : roundUpToPowerOfTwo64 n = 2 ^ (n - 1).size % 2 ^ 64 := by
  have hw := ((((((window_one (n - 1)).double).double).double).double).double).double.eq_size (by omega)
  unfold roundUpToPowerOfTwo64
  rw [if_neg (by omega)]
  dsimp only
  rw [hw, Nat.sub_add_cancel Nat.one_le_two_pow]

theorem roundUp32_eq (h1 : 1 < n) (h : n < 2 ^ 32) : roundUpToPowerOfTwo32 n = 2 ^ (n - 1).size % 2 ^ 32 := by
  have hw := (((((window_one (n - 1)).double).double).double).double).double.eq_size (by omega)
  unfold roundUpToPowerOfTwo32
  rw [if_neg (by omega)]
  dsimp only
  rw [hw, Nat.sub_add_cancel Nat.one_le_two_pow]

/-- The ticks are rounded up to a power of two, at most twice as many. -/
theorem roundUp64_spec (h1 : 0 < n) (h : n < 2 ^ 63) :
    ∃ e ≤ 63, roundUpToPowerOfTwo64 n = 2 ^ e ∧ n ≤ 2 ^ e ∧ 2 ^ e ≤ 2 * n := by
  by_cases hn : n ≤ 1
  · refine ⟨0, by omega, ?_, by omega, by omega⟩
    unfold roundUpToPowerOfTwo64
    rw [if_pos hn, pow_zero]
  · have hsize : (n - 1).size ≤ 63 := Nat.size_le.mpr (by omega)
    have hlt : 2 ^ (n - 1).size < 2 ^ 64 := Nat.pow_lt_pow_right (by decide) (by omega)
    have hle := two_pow_size_le (n := n - 1) (by omega)
    have hup := Nat.lt_size_self (n - 1)
    refine ⟨_, hsize, ?_, by omega, by omega⟩
    rw [roundUp64_eq (by omega) (by omega), Nat.mod_eq_of_lt hlt]

/-- The partitions are rounded up to a power of two; above `2 ^ 31` this wraps to none. -/
theorem roundUp32_spec (h : n < 2 ^ 32) : roundUpToPowerOfTwo32 n = 0 ∨ ∃ e ≤ 31, roundUpToPowerOfTwo32 n = 2 ^ e := by
  by_cases hn : n ≤ 1
  · refine .inr ⟨0, by omega, ?_⟩
    unfold roundUpToPowerOfTwo32
    rw [if_pos hn, pow_zero]
  · have hsize : (n - 1).size ≤ 32 := Nat.size_le.mpr (by omega)
    rw [roundUp32_eq (by omega) h]
    by_cases h32 : (n - 1).size = 32
    · rw [h32]
      exact .inl (Nat.mod_self _)
    · refine .inr ⟨_, by omega, Nat.mod_eq_of_lt (Nat.pow_lt_pow_right (by decide) (by omega))⟩

end Rounding

/-! ## Instruments -/

structure Conf.Instrument where
  priceTickUnits : ℚ
  qtyTickUnits : ℚ
  priceMaxUnits : ℚ
  qtyMaxUnits : ℚ
  minQtyUnits : ℚ
  minNotionalUnits : ℚ

structure NormalizedInstrument where
  priceTickSize : ℤ
  priceMinScaled : ℤ
  priceMaxScaled : ℤ
  qtyTickSize : ℤ
  qtyMinScaled : ℤ
  qtyMaxScaled : ℤ
  minNotional : ℤ
  deriving DecidableEq

structure PartitionPlan where
  partitionBits : ℕ
  numPartitions : ℕ
  partitionSize : ℕ
  numTicks : ℕ
  deriving DecidableEq

/-- The powers of ten that are left to be tried; after the last one `LCR_UNREACHABLE`. -/
def normalizeTickLoop (fl : Floats) (tickUnits : ℚ) : ℕ → ℕ → Option (ℕ × ℤ)
  | 0, _ => none
  | n + 1, mult => do
    let rounded ← llround (fl.long (tickUnits * mult))
    if 0 < rounded then return (mult, rounded) else normalizeTickLoop fl tickUnits n (mult * 10)

/-- `normalize_tick_size`: the first power of ten at which the tick is not rounded to zero, and the tick there. -/
def normalizeTickSize (fl : Floats) (tickUnits : ℚ) : Option (ℕ × ℤ) :=
  if 0 < tickUnits then normalizeTickLoop fl tickUnits 10 1 else none

def Conf.Instrument.normalize (fl : Floats) (ins : Conf.Instrument) (numTicks : ℕ) : Option NormalizedInstrument := do
  let (priceScale, priceTickSize) ← normalizeTickSize fl ins.priceTickUnits
  let _ ← llround (fl.double (ins.priceMaxUnits * priceScale))
  let (qtyScale, qtyTickSize) ← normalizeTickSize fl ins.qtyTickUnits
  let qtyMinScaled ← llround (fl.double (ins.minQtyUnits * qtyScale))
  let qtyMaxScaled ← llround (fl.double (ins.qtyMaxUnits * qtyScale))
  let minNotional ← llround (fl.long (fl.long (ins.minNotionalUnits * priceScale) * qtyScale))
  -- the maximal price of the instrument gives way to that of the plan
  let priceMaxScaled := wrap64 (numTicks * priceTickSize)
  if 0 < priceTickSize ∧ 0 < qtyTickSize ∧ qtyMinScaled ≤ qtyMaxScaled ∧ 0 < minNotional then
    return ⟨priceTickSize, priceTickSize, priceMaxScaled, qtyTickSize, qtyMinScaled, qtyMaxScaled, minNotional⟩
  else none

/-- `PartitionPlan::compute`. -/
def PartitionPlan.compute (fl : Floats) (ins : Conf.Instrument) (targetNumPartitions : ℕ) :
    Option (PartitionPlan × NormalizedInstrument) :=
  if 0 < ins.priceTickUnits ∧ ins.priceTickUnits < ins.priceMaxUnits ∧ 0 < targetNumPartitions then do
    let (scale, priceTickSize) ← normalizeTickSize fl ins.priceTickUnits
    let priceMaxScaled ← toPrice (fl.double (ins.priceMaxUnits * scale))
    let numTicks := roundUpToPowerOfTwo64 (priceMaxScaled / priceTickSize).toNat
    let numPartitions := roundUpToPowerOfTwo32 targetNumPartitions
    let partitionSize := numTicks / numPartitions
    let partitionBits := firstBit 64 partitionSize
    if priceTickSize < priceMaxScaled ∧ 0 < numPartitions ∧ numPartitions ≤ numTicks ∧ partitionBits < 63 then
      let norm ← ins.normalize fl numTicks
      return (⟨partitionBits, numPartitions, partitionSize, numTicks⟩, norm)
    else none
  else none

/-- The sizes of a plan are powers of two, and the ticks fit 64 bits with their size. -/
structure PartitionPlan.Sized (plan : PartitionPlan) (tick : ℤ) : Prop where
  tick_pos : 0 < tick
  size : plan.partitionSize = 2 ^ plan.partitionBits
  partitions : plan.numPartitions ≤ 2 ^ 31
  partitions_pos : 0 < plan.numPartitions
  ticks : plan.numTicks = plan.numPartitions * plan.partitionSize
  ticks_lt : plan.numTicks * tick < 2 ^ 64
  ticks_pow : ∃ e, plan.numTicks = 2 ^ e

section Compute

theorem toPrice_lt {x : ℚ} {n : ℤ} (h : toPrice x = some n) : n < 2 ^ 63 := by
  unfold toPrice at h
  dsimp only at h
  split_ifs at h with h0 hr hr
  · cases h
    exact hr.2
  · cases h
    exact hr.2

variable {fl : Floats} {ins : Conf.Instrument} {target : ℕ} {plan : PartitionPlan} {norm : NormalizedInstrument}

theorem normalizeTickLoop_pos {t : ℚ} {n mult scale : ℕ} {tick : ℤ}
    (h : normalizeTickLoop fl t n mult = some (scale, tick)) : 0 < tick := by
  induction n generalizing mult with
  | zero => cases h
  | succ n ih =>
    unfold normalizeTickLoop at h
    cases hr : llround (fl.long (t * mult)) with
    | none => rw [hr] at h; cases h
    | some r =>
      rw [hr] at h
      by_cases hpos : 0 < r
      · have he : some (mult, r) = some (scale, tick) := by
          rw [← h]
          exact (if_pos hpos).symm
        cases he
        exact hpos
      · exact ih (by rw [← h]; exact (if_neg hpos).symm)

theorem normalizeTickSize_pos {t : ℚ} {scale : ℕ} {tick : ℤ} (h : normalizeTickSize fl t = some (scale, tick)) :
    0 < tick := by
  unfold normalizeTickSize at h
  split_ifs at h
  exact normalizeTickLoop_pos h

theorem normalize_spec {n : ℕ} (h : ins.normalize fl n = some norm) :
    (∃ scale, normalizeTickSize fl ins.priceTickUnits = some (scale, norm.priceTickSize)) ∧
      norm.priceMinScaled = norm.priceTickSize ∧ norm.priceMaxScaled = wrap64 (n * norm.priceTickSize) ∧
      0 < norm.minNotional := by
  unfold Conf.Instrument.normalize at h
  simp only [bind, Option.bind_eq_some_iff] at h
  obtain ⟨⟨scale, tick⟩, htick, priceMax, -, ⟨qtyScale, qtyTick⟩, -, qtyMin, -, qtyMax, -, minNotional, -, h⟩ := h
  split_ifs at h with hguard
  cases h
  exact ⟨⟨scale, htick⟩, rfl, rfl, hguard.2.2.2⟩

theorem sized_pow {e f : ℕ} {tick : ℤ} (ht : 0 < tick) (hfe : f ≤ e) (hf : f ≤ 31) (he : e ≤ 63)
    (hlt : ((2 ^ e : ℕ) : ℤ) * tick < 2 ^ 64) :
    (⟨firstBit 64 (2 ^ e / 2 ^ f), 2 ^ f, 2 ^ e / 2 ^ f, 2 ^ e⟩ : PartitionPlan).Sized tick := by
  rw [Nat.pow_div hfe (by decide), firstBit_two_pow (by omega)]
  refine ⟨ht, rfl, Nat.pow_le_pow_right (by decide) hf, Nat.two_pow_pos f, ?_, hlt, e, rfl⟩
  show 2 ^ e = 2 ^ f * 2 ^ (e - f)
  rw [← pow_add, Nat.add_sub_cancel' hfe]

/-- **The sizes of a plan**, and the prices that go with it. -/
theorem compute_spec (ht : target < 2 ^ 32) (h : PartitionPlan.compute fl ins target = some (plan, norm)) :
    plan.Sized norm.priceTickSize ∧ norm.priceMinScaled = norm.priceTickSize ∧
      norm.priceMaxScaled = wrap64 (plan.numTicks * norm.priceTickSize) ∧ 0 < norm.minNotional := by
  unfold PartitionPlan.compute at h
  split_ifs at h
  simp only [bind, Option.bind_eq_some_iff] at h
  obtain ⟨⟨scale, tick⟩, htick, priceMax, hmax, h⟩ := h
  dsimp only at hmax h
  split_ifs at h with hguard
  obtain ⟨norm', hnorm, h⟩ := Option.bind_eq_some_iff.mp h
  cases h
  obtain ⟨⟨scale', htick'⟩, hmin, hmaxEq, hnot⟩ := normalize_spec hnorm
  rw [htick] at htick'
  cases htick'
  refine ⟨?_, hmin, hmaxEq, hnot⟩
  have htpos : 0 < norm.priceTickSize := normalizeTickSize_pos htick
  obtain ⟨hlt, hpos, hle, -⟩ := hguard
  have hrange := toPrice_lt hmax
  -- the ticks
  obtain ⟨n, hn⟩ : ∃ n : ℕ, (priceMax / norm.priceTickSize).toNat = n := ⟨_, rfl⟩
  have hnz : (n : ℤ) = priceMax / norm.priceTickSize := by
    rw [← hn]
    exact Int.toNat_of_nonneg (Int.ediv_nonneg (by omega) htpos.le)
  have hmul : n * norm.priceTickSize ≤ priceMax := by
    rw [hnz]
    exact Int.ediv_mul_le _ htpos.ne'
  have hn1 : 1 ≤ priceMax / norm.priceTickSize := (Int.le_ediv_iff_mul_le htpos).mpr (by omega)
  have hnle : (n : ℤ) ≤ priceMax := le_trans (le_mul_of_one_le_right (by omega) (by omega)) hmul
  rw [hn] at hle ⊢
  obtain ⟨e, he, hticks, -, htwice⟩ := roundUp64_spec (n := n) (by omega) (by omega)
  -- the partitions
  obtain hzero | ⟨f, hf, hparts⟩ := roundUp32_spec ht
  · omega
  rw [hticks, hparts] at hle
  rw [hticks, hparts]
  refine sized_pow htpos ((Nat.pow_le_pow_iff_right (by decide : 1 < 2)).mp hle) hf he ?_
  have h2 : ((2 ^ e : ℕ) : ℤ) ≤ 2 * n := by exact_mod_cast htwice
  have h3 : ((2 ^ e : ℕ) : ℤ) * norm.priceTickSize ≤ 2 * n * norm.priceTickSize :=
    mul_le_mul_of_nonneg_right h2 htpos.le
  rw [mul_assoc] at h3
  omega

end Compute

/-! ## Prices -/

/-- `validate_order_`, of the price and the quantity of an order. -/
def NormalizedInstrument.validateOrder (norm : NormalizedInstrument) (price qty : ℤ) : Bool :=
  decide (norm.priceMinScaled ≤ price) && decide (price ≤ norm.priceMaxScaled) &&
  decide (norm.qtyMinScaled ≤ qty) && decide (qty ≤ norm.qtyMaxScaled) &&
  decide (norm.minNotional ≤ wrap64 (price * qty))

/-- The price of an order that passes `validate_order_`, or one that passes the assertions of `modify_order_price`. -/
def NormalizedInstrument.Admits (norm : NormalizedInstrument) (price : ℤ) : Prop :=
  (∃ qty, norm.validateOrder price qty = true) ∨ (0 < price ∧ price < norm.priceMaxScaled)

namespace PartitionPlan

variable (plan : PartitionPlan)

/-- `partition_id_`: `price >> partition_bits`, cast to 32 bits. -/
def partitionId (price : ℤ) : ℕ := (price / 2 ^ plan.partitionBits % 2 ^ 32).toNat

/-- `offset_in_partition_`: `price & partition_mask`, cast to 32 bits with a sign. -/
def offset (price : ℤ) : ℤ := Int.bmod (price % 2 ^ plan.partitionBits) (2 ^ 32)

/-- The price has a partition and a level. -/
def Addressable (price : ℤ) : Prop :=
  plan.partitionId price < plan.numPartitions ∧ 0 ≤ plan.offset price ∧ plan.offset price < plan.partitionSize

instance (price : ℤ) : Decidable (plan.Addressable price) := inferInstanceAs (Decidable (_ ∧ _ ∧ _))

variable {plan} {tick price : ℤ} (h : plan.Sized tick)

include h

theorem partitionId_lt_iff :
    plan.partitionId price < plan.numPartitions ↔ price % (2 ^ 32 * plan.partitionSize) < plan.numTicks := by
  obtain ⟨S, hS⟩ : ∃ S : ℤ, S = 2 ^ plan.partitionBits := ⟨_, rfl⟩
  have hsize : (plan.partitionSize : ℤ) = S := by
    rw [h.size, hS]
    push_cast
    rfl
  have hSpos : 0 < S := by
    rw [hS]
    positivity
  obtain ⟨q, hq⟩ : ∃ q, q = price / S % 2 ^ 32 := ⟨_, rfl⟩
  have hq0 : 0 ≤ q := by
    rw [hq]
    exact Int.emod_nonneg _ (by decide)
  have hq1 : q < 2 ^ 32 := by
    rw [hq]
    exact Int.emod_lt_of_pos _ (by decide)
  have hr0 : 0 ≤ price % S := Int.emod_nonneg _ hSpos.ne'
  have hr1 : price % S < S := Int.emod_lt_of_pos _ hSpos
  -- the price without the partitions that the cast drops
  have hprice : price = S * q + price % S + 2 ^ 32 * S * (price / S / 2 ^ 32) := by
    have h1 := Int.mul_ediv_add_emod price S
    have h2 := Int.mul_ediv_add_emod (price / S) (2 ^ 32)
    rw [← hq] at h2
    calc price = S * (price / S) + price % S := h1.symm
      _ = S * (2 ^ 32 * (price / S / 2 ^ 32) + q) + price % S := by rw [h2]
      _ = _ := by ring
  have hlt : S * q + price % S < 2 ^ 32 * S := by nlinarith
  have hmod : price % (2 ^ 32 * S) = S * q + price % S := by
    conv_lhs => rw [hprice]
    rw [Int.add_mul_emod_self_left, Int.emod_eq_of_lt (by positivity) hlt]
  have hticks : (plan.numTicks : ℤ) = plan.numPartitions * S := by
    rw [h.ticks, ← hsize]
    push_cast
    rfl
  unfold partitionId
  rw [hsize, hmod, hticks, ← hS, ← hq]
  constructor
  · intro hlt'
    have h1 : q + 1 ≤ plan.numPartitions := by omega
    nlinarith
  · intro hlt'
    have h1 : q < plan.numPartitions := by
      by_contra hc
      nlinarith [not_lt.mp hc]
    omega

/-- A level has a place of its own, as long as its number fits 32 bits with a sign. -/
theorem offset_iff : (0 ≤ plan.offset price ∧ plan.offset price < plan.partitionSize) ↔
    plan.partitionBits ≤ 31 ∨ price % 2 ^ 32 < 2 ^ 31 := by
  have hsize : (plan.partitionSize : ℤ) = 2 ^ plan.partitionBits := by
    rw [h.size]
    push_cast
    rfl
  have hpos : (0 : ℤ) < 2 ^ plan.partitionBits := by positivity
  have hr0 : 0 ≤ price % 2 ^ plan.partitionBits := Int.emod_nonneg _ hpos.ne'
  have hr1 : price % 2 ^ plan.partitionBits < 2 ^ plan.partitionBits := Int.emod_lt_of_pos _ hpos
  unfold offset
  rw [hsize]
  by_cases hb : plan.partitionBits ≤ 31
  · have hle : (2 : ℤ) ^ plan.partitionBits ≤ 2 ^ 31 := pow_le_pow_right₀ (by decide) hb
    rw [Int.bmod_eq_of_le (by omega) (by omega)]
    exact iff_of_true ⟨hr0, hr1⟩ (.inl hb)
  · have hge : (2 : ℤ) ^ 32 ≤ 2 ^ plan.partitionBits := pow_le_pow_right₀ (by decide) (by omega)
    have hdvd : (2 : ℤ) ^ 32 ∣ 2 ^ plan.partitionBits := pow_dvd_pow 2 (by omega)
    have hmod : price % 2 ^ plan.partitionBits % 2 ^ 32 = price % 2 ^ 32 := Int.emod_emod_of_dvd price hdvd
    have hx0 : 0 ≤ price % 2 ^ 32 := Int.emod_nonneg _ (by decide)
    have hx1 : price % 2 ^ 32 < 2 ^ 32 := Int.emod_lt_of_pos _ (by decide)
    unfold Int.bmod
    dsimp only
    rw [show (((2 ^ 32 : ℕ) : ℤ)) = 2 ^ 32 by norm_num, hmod]
    constructor
    · intro hc
      split_ifs at hc with hlt
      · exact .inr (by omega)
      · omega
    · rintro (hc | hc)
      · omega
      · rw [if_pos (by omega)]
        omega

theorem addressable_iff_lt : plan.Addressable price ↔
    price % (2 ^ 32 * plan.partitionSize) < plan.numTicks ∧ (plan.partitionBits ≤ 31 ∨ price % 2 ^ 32 < 2 ^ 31) := by
  unfold Addressable
  rw [partitionId_lt_iff h, offset_iff h]

/-- In the plan, a price is its own remainder. -/
theorem emod_of_lt (h0 : 0 ≤ price) (hle : price ≤ plan.numTicks) : price % (2 ^ 32 * plan.partitionSize) = price := by
  have hp : (0 : ℤ) < plan.partitionSize := by
    rw [h.size]
    positivity
  have hn : (plan.numTicks : ℤ) = plan.numPartitions * plan.partitionSize := by exact_mod_cast h.ticks
  have hN : (plan.numPartitions : ℤ) ≤ 2 ^ 31 := by exact_mod_cast h.partitions
  exact Int.emod_eq_of_lt h0 (by nlinarith)

/-- The first price after the plan has no partition. -/
theorem not_addressable_numTicks : ¬ plan.Addressable plan.numTicks := by
  rw [addressable_iff_lt h, emod_of_lt h (by positivity) le_rfl]
  exact fun hc => lt_irrefl _ hc.1

end PartitionPlan

/-! ## Orders at the last price -/

/-- The first number from `a` on whose remainder modulo `p` is in `[low, high)`. -/
def firstWithin (p low high a : ℤ) : ℤ :=
  if a % p < low then a + (low - a % p) else if a % p < high then a else a + (p - a % p) + low

theorem exists_within_iff {p low high a b : ℤ} (hp : 0 < p) (h0 : 0 ≤ low) (hh : high ≤ p) :
    (∃ q, a ≤ q ∧ q ≤ b ∧ low ≤ q % p ∧ q % p < high) ↔ low < high ∧ firstWithin p low high a ≤ b := by
  have ha := Int.mul_ediv_add_emod a p
  have ha0 := Int.emod_nonneg a hp.ne'
  have ha1 := Int.emod_lt_of_pos a hp
  constructor
  · rintro ⟨q, haq, hqb, hlow, hhigh⟩
    refine ⟨by omega, ?_⟩
    have hq := Int.mul_ediv_add_emod q p
    have hle : a / p ≤ q / p := Int.ediv_le_ediv hp haq
    unfold firstWithin
    split_ifs with h1 h2
    · have hmul := mul_le_mul_of_nonneg_left hle hp.le
      omega
    · omega
    · -- the remainder of `q` is smaller, so that `q` is in a later period
      have hlt : a / p + 1 ≤ q / p := by
        by_contra hne
        have heq : q / p = a / p := by omega
        rw [heq] at hq
        omega
      have hmul := mul_le_mul_of_nonneg_left hlt hp.le
      rw [mul_add, mul_one] at hmul
      omega
  · rintro ⟨hlt, hb⟩
    unfold firstWithin at hb
    split_ifs at hb with h1 h2
    · have hmod : (a + (low - a % p)) % p = low := by
        rw [show a + (low - a % p) = low + p * (a / p) by omega, Int.add_mul_emod_self_left]
        exact Int.emod_eq_of_lt h0 (by omega)
      exact ⟨_, by omega, hb, hmod.ge, by omega⟩
    · exact ⟨a, le_rfl, hb, by omega, h2⟩
    · have hmod : (a + (p - a % p) + low) % p = low := by
        rw [show a + (p - a % p) + low = low + p * (a / p + 1) by rw [mul_add, mul_one]; omega,
          Int.add_mul_emod_self_left]
        exact Int.emod_eq_of_lt h0 (by omega)
      exact ⟨_, by omega, hb, hmod.ge, by omega⟩

/-- The number of units in which a price `n` reaches the minimal notional. -/
def NormalizedInstrument.leastUnits (norm : NormalizedInstrument) (n : ℤ) : ℤ := (norm.minNotional + n - 1) / n

/-- The quantities in range have one whose notional at the price `n` is at least the minimal one and below `2 ^ 63`,
modulo `2 ^ 64`. -/
def NormalizedInstrument.Sells (norm : NormalizedInstrument) (n : ℤ) : Prop :=
  norm.leastUnits n < 2 ^ 63 / n ∧
    firstWithin (2 ^ 64 / n) (norm.leastUnits n) (2 ^ 63 / n) norm.qtyMinScaled ≤ norm.qtyMaxScaled

instance (norm : NormalizedInstrument) (n : ℤ) : Decidable (norm.Sells n) := inferInstanceAs (Decidable (_ ∧ _))

theorem notional_ok_iff {norm : NormalizedInstrument} (hpos : 0 < norm.minNotional) {e : ℕ} (he : e ≤ 62) (qty : ℤ) :
    norm.minNotional ≤ wrap64 (2 ^ e * qty) ↔
      norm.leastUnits (2 ^ e) ≤ qty % (2 ^ 64 / 2 ^ e) ∧ qty % (2 ^ 64 / 2 ^ e) < 2 ^ 63 / 2 ^ e := by
  have hn : (0 : ℤ) < 2 ^ e := by positivity
  have h64 : (2 : ℤ) ^ e * 2 ^ (64 - e) = 2 ^ 64 := by rw [← pow_add, Nat.add_sub_cancel' (by omega)]
  have h63 : (2 : ℤ) ^ e * 2 ^ (63 - e) = 2 ^ 63 := by rw [← pow_add, Nat.add_sub_cancel' (by omega)]
  have hp : (2 : ℤ) ^ 64 / 2 ^ e = 2 ^ (64 - e) := by rw [← h64, Int.mul_ediv_cancel_left _ hn.ne']
  have hh : (2 : ℤ) ^ 63 / 2 ^ e = 2 ^ (63 - e) := by rw [← h63, Int.mul_ediv_cancel_left _ hn.ne']
  have hmod : (2 ^ e * qty) % 2 ^ 64 = 2 ^ e * (qty % 2 ^ (64 - e)) := by
    rw [← h64, Int.mul_emod_mul_of_pos _ _ hn]
  have hunits : norm.leastUnits (2 ^ e) ≤ qty % 2 ^ (64 - e) ↔ norm.minNotional ≤ 2 ^ e * (qty % 2 ^ (64 - e)) := by
    unfold NormalizedInstrument.leastUnits
    rw [← Int.lt_add_one_iff, Int.ediv_lt_iff_lt_mul hn, add_mul, one_mul, mul_comm]
    omega
  have hhalf : qty % 2 ^ (64 - e) < 2 ^ (63 - e) ↔ 2 ^ e * (qty % 2 ^ (64 - e)) < 2 ^ 63 := by
    rw [← h63, mul_lt_mul_iff_right₀ hn]
  have hlt : 2 ^ e * (qty % 2 ^ (64 - e)) < 2 ^ 64 := by
    rw [← h64, mul_lt_mul_iff_right₀ hn]
    exact Int.emod_lt_of_pos _ (by positivity)
  rw [hp, hh, hunits, hhalf]
  have hcast : ((2 ^ 64 : ℕ) : ℤ) = 2 ^ 64 := rfl
  unfold wrap64 Int.bmod
  dsimp only
  rw [hcast, hmod]
  constructor
  · intro h
    split_ifs at h with hs
    · exact ⟨h, by omega⟩
    · omega
  · rintro ⟨h1, h2⟩
    rw [if_pos (by omega)]
    exact h1

/-- **An order at the last price can pass** just when the quantities have one that sells. -/
theorem passes_iff_sells {norm : NormalizedInstrument} (hpos : 0 < norm.minNotional) {e : ℕ} (he : e ≤ 62)
    (hmin : norm.priceMinScaled ≤ 2 ^ e) (hmax : (2 : ℤ) ^ e ≤ norm.priceMaxScaled) :
    (∃ qty, norm.validateOrder (2 ^ e) qty = true) ↔ norm.Sells (2 ^ e) := by
  have hn : (0 : ℤ) < 2 ^ e := by positivity
  have hle : (2 : ℤ) ^ e ≤ 2 ^ 62 := pow_le_pow_right₀ (by decide) he
  have hperiod : (0 : ℤ) < 2 ^ 64 / 2 ^ e := Int.ediv_pos_of_pos_of_dvd (by decide) hn.le (pow_dvd_pow 2 (by omega))
  have hhalf : (2 : ℤ) ^ 63 / 2 ^ e ≤ 2 ^ 64 / 2 ^ e := Int.ediv_le_ediv hn (by decide)
  have hunits : 0 ≤ norm.leastUnits (2 ^ e) := Int.ediv_nonneg (by omega) hn.le
  unfold NormalizedInstrument.Sells
  rw [← exists_within_iff hperiod hunits hhalf]
  refine exists_congr fun qty => ?_
  rw [← notional_ok_iff hpos he]
  simp only [NormalizedInstrument.validateOrder, Bool.and_eq_true, decide_eq_true_eq]
  exact ⟨fun ⟨⟨⟨_, h1⟩, h2⟩, h3⟩ => ⟨h1, h2, h3⟩, fun ⟨h1, h2, h3⟩ => ⟨⟨⟨⟨hmin, hmax⟩, h1⟩, h2⟩, h3⟩⟩

section Admitted

variable {plan : PartitionPlan} {norm : NormalizedInstrument} (hs : plan.Sized norm.priceTickSize)

include hs

/-- The maximal price is negative. -/
theorem not_admits_of_wrap (hmin : norm.priceMinScaled = norm.priceTickSize)
    (hmax : norm.priceMaxScaled = wrap64 (plan.numTicks * norm.priceTickSize))
    (hwrap : 2 ^ 63 ≤ plan.numTicks * norm.priceTickSize) (price : ℤ) : ¬ norm.Admits price := by
  have htick := hs.tick_pos
  have hneg : norm.priceMaxScaled < 0 := by
    have hlt := hs.ticks_lt
    rw [hmax]
    unfold wrap64 Int.bmod
    dsimp only
    rw [Int.emod_eq_of_lt (by omega) (by omega), if_neg (by omega)]
    omega
  rintro (⟨qty, hv⟩ | ⟨h0, h1⟩)
  · simp only [NormalizedInstrument.validateOrder, Bool.and_eq_true, decide_eq_true_eq] at hv
    omega
  · omega

/-- Where all admitted prices are addressable, no price after the plan is admitted. -/
theorem only_last_of_addressable (hmax : norm.priceMaxScaled = plan.numTicks * norm.priceTickSize)
    (hall : ∀ price, norm.Admits price → plan.Addressable price) :
    norm.priceTickSize = 1 ∧ plan.partitionBits ≤ 31 ∧ ∀ qty, norm.validateOrder plan.numTicks qty = false := by
  have htick := hs.tick_pos
  have hsize : (plan.partitionSize : ℤ) = 2 ^ plan.partitionBits := by exact_mod_cast hs.size
  have hpos : (0 : ℤ) < 2 ^ plan.partitionBits := by positivity
  have hparts : (1 : ℤ) ≤ plan.numPartitions := by exact_mod_cast hs.partitions_pos
  have hticks : (plan.numTicks : ℤ) = plan.numPartitions * plan.partitionSize := by exact_mod_cast hs.ticks
  have hge : (2 : ℤ) ^ plan.partitionBits ≤ plan.numTicks := by
    rw [hticks, hsize]
    exact le_mul_of_one_le_left hpos.le hparts
  have hone : norm.priceTickSize = 1 := by
    by_contra hne
    refine PartitionPlan.not_addressable_numTicks hs (hall _ (.inr ⟨by omega, ?_⟩))
    rw [hmax]
    exact lt_mul_of_one_lt_right (by omega) (by omega)
  refine ⟨hone, ?_, fun qty => ?_⟩
  · by_contra hb
    have hbig : (2 : ℤ) ^ 32 ≤ 2 ^ plan.partitionBits := pow_le_pow_right₀ (by decide) (by omega)
    have hmid := hall (2 ^ 31) (.inr ⟨by decide, by rw [hmax, hone]; omega⟩)
    rw [PartitionPlan.addressable_iff_lt hs] at hmid
    rcases hmid.2 with hc | hc
    · exact hb hc
    · exact absurd hc (by decide)
  · rw [← Bool.not_eq_true]
    exact fun hv => PartitionPlan.not_addressable_numTicks hs (hall _ (.inl ⟨qty, hv⟩))

theorem addressable_of_only_last (hmin : norm.priceMinScaled = norm.priceTickSize)
    (hmax : norm.priceMaxScaled = plan.numTicks * norm.priceTickSize) (hone : norm.priceTickSize = 1)
    (hbits : plan.partitionBits ≤ 31) (hlast : ∀ qty, norm.validateOrder plan.numTicks qty = false) (price : ℤ)
    (hp : norm.Admits price) : plan.Addressable price := by
  have hplan : 0 ≤ price ∧ price < plan.numTicks := by
    rw [hone, mul_one] at hmax
    rcases hp with ⟨qty, hv⟩ | ⟨h0, h1⟩
    · have hne : price ≠ plan.numTicks := by
        rintro rfl
        rw [hlast] at hv
        cases hv
      simp only [NormalizedInstrument.validateOrder, Bool.and_eq_true, decide_eq_true_eq] at hv
      omega
    · omega
  rw [PartitionPlan.addressable_iff_lt hs, PartitionPlan.emod_of_lt hs hplan.1 hplan.2.le]
  exact ⟨hplan.2, .inl hbits⟩

end Admitted

/-! ## The engine of a plan -/

/-- The engine's sizes and bounds are those of the plan and of the instrument. -/
structure Config.Describes (cfg : Config) (plan : PartitionPlan) (norm : NormalizedInstrument) : Prop where
  bits : cfg.bits = plan.partitionBits
  partitions : cfg.numPartitions = plan.numPartitions
  size : cfg.partitionSize = plan.partitionSize
  priceMin : cfg.priceMin = norm.priceMinScaled
  priceMax : cfg.priceMax = norm.priceMaxScaled
  qtyMin : cfg.qtyMin = norm.qtyMinScaled
  qtyMax : cfg.qtyMax = norm.qtyMaxScaled
  minNotional : cfg.minNotional = norm.minNotional

section Describes

variable {cfg : Config} {plan : PartitionPlan} {norm : NormalizedInstrument} (h : cfg.Describes plan norm)

include h

theorem validateOrder_eq (o : Order) : Engine.validateOrder cfg o = norm.validateOrder o.price o.qty := by
  unfold Engine.validateOrder NormalizedInstrument.validateOrder
  rw [h.priceMin, h.priceMax, h.qtyMin, h.qtyMax, h.minNotional]

theorem addressable_iff_partitionId {price : ℤ} : plan.Addressable price ↔ cfg.partitionId price < cfg.numPartitions := by
  have hsize : (cfg.partitionSize : ℤ) = 2 ^ plan.partitionBits := by
    rw [← h.bits]
    unfold Config.partitionSize
    push_cast
    rfl
  have hid : cfg.partitionId price = plan.partitionId price := by
    unfold Config.partitionId PartitionPlan.partitionId
    rw [hsize]
  have hle : (2 : ℤ) ^ plan.partitionBits ≤ 2 ^ 31 := pow_le_pow_right₀ (by decide) (h.bits ▸ cfg.bits_le)
  have hpos : (0 : ℤ) < 2 ^ plan.partitionBits := by positivity
  have hr0 := Int.emod_nonneg price hpos.ne'
  have hr1 := Int.emod_lt_of_pos price hpos
  have hoff : plan.offset price = price % 2 ^ plan.partitionBits := Int.bmod_eq_of_le (by omega) (by omega)
  unfold PartitionPlan.Addressable
  rw [hid, h.partitions, hoff, ← h.size, hsize]
  exact ⟨And.left, fun hlt => ⟨hlt, hr0, hr1⟩⟩

/-- An order enters its store under an assertion that fails exactly for a price that is not addressable. -/
theorem storeInsert_faults_iff {b : OrderBook} {side : Side} {i : ℕ} :
    b.storeInsert cfg side i = .error .invalidPartitionId ↔ ¬ plan.Addressable (b.order i).price := by
  rw [addressable_iff_partitionId h, not_lt]
  unfold OrderBook.storeInsert OrderBook.getOrCreatePartition
  dsimp only
  by_cases hle : cfg.numPartitions ≤ cfg.partitionId (b.order i).price
  · rw [if_pos hle]
    exact iff_of_true rfl hle
  · rw [if_neg hle]
    refine iff_of_false ?_ hle
    split
    · nofun
    · split <;> nofun

end Describes

/-- **Which prices are addressable**: every one of the plan.  All admitted prices are addressable exactly if none is
admitted at all, the product of ticks and tick size being too large, or ticks have size one, levels have 32 bit numbers
and the quantities have none that sells at the last price.  An engine with these sizes and bounds admits the same orders,
and inserting one fails exactly at a price that is not addressable. -/
theorem addressable_iff {fl : Floats} {ins : Conf.Instrument} {target : ℕ} (ht : target < 2 ^ 32) {plan : PartitionPlan}
    {norm : NormalizedInstrument} (h : PartitionPlan.compute fl ins target = some (plan, norm)) :
    (∀ price, plan.Addressable price ↔
      price % (2 ^ 32 * plan.partitionSize) < plan.numTicks ∧ (plan.partitionBits ≤ 31 ∨ price % 2 ^ 32 < 2 ^ 31)) ∧
    ((∀ price, norm.Admits price → plan.Addressable price) ↔
      2 ^ 63 ≤ plan.numTicks * norm.priceTickSize ∨
        (norm.priceTickSize = 1 ∧ plan.partitionBits ≤ 31 ∧ ¬ norm.Sells plan.numTicks)) ∧
    ∀ cfg : Config, cfg.Describes plan norm →
      (∀ o, Engine.validateOrder cfg o = norm.validateOrder o.price o.qty) ∧
      ∀ (b : OrderBook) (side : Side) (i : ℕ),
        b.storeInsert cfg side i = .error .invalidPartitionId ↔ ¬ plan.Addressable (b.order i).price := by
  obtain ⟨hs, hmin, hmax, hnot⟩ := compute_spec ht h
  refine ⟨fun price => PartitionPlan.addressable_iff_lt hs, ?_,
    fun cfg hd => ⟨validateOrder_eq hd, fun b side i => storeInsert_faults_iff hd⟩⟩
  by_cases hwrap : 2 ^ 63 ≤ plan.numTicks * norm.priceTickSize
  · exact iff_of_true (fun price hp => absurd hp (not_admits_of_wrap hs hmin hmax hwrap price)) (.inl hwrap)
  · rw [wrap64_of_lt (by have := hs.tick_pos; positivity) (not_le.mp hwrap)] at hmax
    have hlast : norm.priceTickSize = 1 → (norm.Sells plan.numTicks ↔ ∃ qty, norm.validateOrder plan.numTicks qty = true) := by
      intro hone
      obtain ⟨e, he⟩ := hs.ticks_pow
      have hcast : (plan.numTicks : ℤ) = 2 ^ e := by exact_mod_cast he
      rw [hone, mul_one, hcast] at hwrap hmax
      have he62 : e ≤ 62 := by
        by_contra hlt
        exact hwrap (pow_le_pow_right₀ (by decide) (by omega))
      have hpos : (0 : ℤ) < 2 ^ e := by positivity
      rw [hcast]
      exact (passes_iff_sells hnot he62 (by omega) hmax.ge).symm
    constructor
    · intro hall
      obtain ⟨hone, hbits, hnone⟩ := only_last_of_addressable hs hmax hall
      refine .inr ⟨hone, hbits, fun hsell => ?_⟩
      obtain ⟨qty, hq⟩ := (hlast hone).mp hsell
      rw [hnone qty] at hq
      cases hq
    · rintro (hc | ⟨h1, hbits, hsell⟩)
      · exact absurd hc hwrap
      · refine addressable_of_only_last hs hmin hmax h1 hbits fun qty => ?_
        rw [← Bool.not_eq_true]
        exact fun hq => hsell ((hlast h1).mpr ⟨qty, hq⟩)

/-- Ticks of size one, sixteen of them, in four partitions. -/
def coin : Conf.Instrument := ⟨1, 1, 13, 2 ^ 62, 1, 1⟩

/-- Products that are exact. -/
def exactly : Floats := ⟨id, id⟩

theorem compute_coin : PartitionPlan.compute exactly coin 4 =
    some (⟨2, 4, 4, 16⟩, ⟨1, 1, 16, 1, 1, 2 ^ 62, 1⟩) := by
  decide +kernel

theorem small_describes : Engine.small.Describes ⟨2, 4, 4, 16⟩ ⟨1, 1, 16, 1, 1, 2 ^ 62, 1⟩ :=
  ⟨rfl, rfl, rfl, rfl, rfl, rfl, rfl, rfl⟩

theorem coin_addressable : (⟨2, 4, 4, 16⟩ : PartitionPlan).Addressable 15 ∧
    (OrderBook.new Engine.small).storeInsert Engine.small .bid 0 ≠ .error .invalidPartitionId := by
  obtain ⟨hprice, -, hcfg⟩ := addressable_iff (by decide) compute_coin
  refine ⟨(hprice 15).mpr (by decide), fun hf => ?_⟩
  exact ((hcfg _ small_describes).2 _ _ _).mp hf (by decide)

/-- The price 16 is admitted, and has no partition: the engine runs into its assertion. -/
theorem last_price_unaddressable :
    PartitionPlan.compute exactly coin 4 = some (⟨2, 4, 4, 16⟩, ⟨1, 1, 16, 1, 1, 2 ^ 62, 1⟩) ∧
    (⟨1, 1, 16, 1, 1, 2 ^ 62, 1⟩ : NormalizedInstrument).validateOrder 16 1 = true ∧
    ¬ (⟨2, 4, 4, 16⟩ : PartitionPlan).Addressable 16 ∧
    Engine.step Engine.small (.new Engine.small) (.newOrder 1 .limit .bid 16 1) = .error .invalidPartitionId :=
  ⟨compute_coin, by decide, by decide, rfl⟩

end Wirekrak.Flashstrike

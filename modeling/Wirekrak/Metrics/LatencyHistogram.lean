import Mathlib.Data.Nat.Log
import Mathlib.Algebra.Order.Floor.Div
import Mathlib.Tactic.Ring
import Wirekrak.Lib.Rank

/-!
# Wirekrak.Metrics.LatencyHistogram — durations by powers of two, and the percentiles read off them

A duration is counted in the bucket of its highest bit; percentiles are found by running sums over the buckets.  All
sums and products are taken in 64 bits.

* `buckets_recordAll`: what the buckets count.
* `computePercentiles_get`: which bucket is named for a percentile.
* `percentiles_right_iff`: for which samples all percentiles are right.
-/

namespace Wirekrak.Metrics

open Wirekrak.Lib

structure LatencyPercentiles where
  p50 : ℕ
  p90 : ℕ
  p99 : ℕ
  p999 : ℕ
  p9999 : ℕ
  p99999 : ℕ
  p999999 : ℕ
  deriving DecidableEq

/-- `latency_percentiles{}`. -/
def LatencyPercentiles.zero : LatencyPercentiles := ⟨0, 0, 0, 0, 0, 0, 0⟩

structure LatencyHistogram where
  buckets : ℕ → ℕ

namespace LatencyHistogram

/-- `reset`. -/
def reset : LatencyHistogram := ⟨fun _ => 0⟩

/-- `__builtin_clzll`, of a number that is not zero. -/
def clz (n : ℕ) : ℕ := 63 - Nat.log 2 n

def bucketOf (delta : ℕ) : ℕ := if delta = 0 then 0 else 63 - clz delta

/-- `record_duration`. -/
def recordDuration (h : LatencyHistogram) (delta : ℕ) : LatencyHistogram :=
  ⟨fun i => if i = bucketOf delta then (h.buckets i + 1) % 2 ^ 64 else h.buckets i⟩

/-- `total * num / den`, in 64 bits. -/
def scaled (total num den : ℕ) : ℕ := total * num % 2 ^ 64 / den

/-- The thresholds of `compute_percentiles`. -/
def thresholds (total : ℕ) : LatencyPercentiles where
  p50 := total / 2
  p90 := scaled total 90 100
  p99 := scaled total 99 100
  p999 := scaled total 999 1000
  p9999 := scaled total 9999 10000
  p99999 := scaled total 99999 100000
  p999999 := scaled total 999999 1000000

/-- `update`; a field that is zero is not set yet. -/
def update (cumulative field threshold i : ℕ) : ℕ :=
  if field = 0 ∧ threshold ≤ cumulative then 2 ^ i else field

/-- One round of the loop of `compute_percentiles`, for the running sum and the result. -/
def pass (h : LatencyHistogram) (t : LatencyPercentiles) (s : ℕ × LatencyPercentiles) (i : ℕ) :
    ℕ × LatencyPercentiles :=
  let cumulative := (s.1 + h.buckets i) % 2 ^ 64
  (cumulative,
    { p50 := update cumulative s.2.p50 t.p50 i
      p90 := update cumulative s.2.p90 t.p90 i
      p99 := update cumulative s.2.p99 t.p99 i
      p999 := update cumulative s.2.p999 t.p999 i
      p9999 := update cumulative s.2.p9999 t.p9999 i
      p99999 := update cumulative s.2.p99999 t.p99999 i
      p999999 := update cumulative s.2.p999999 t.p999999 i })

/-- `compute_percentiles`. -/
def computePercentiles (h : LatencyHistogram) : LatencyPercentiles :=
  let total := (List.range 64).foldl (fun sum i => (sum + h.buckets i) % 2 ^ 64) 0
  if total = 0 then .zero
  else ((List.range 64).foldl (h.pass (thresholds total)) (0, .zero)).2

/-- The histogram of these durations. -/
def recordAll (samples : List ℕ) : LatencyHistogram := samples.foldl recordDuration reset

end LatencyHistogram

/-! ## Percentiles -/

inductive Percentile
  | p50 | p90 | p99 | p999 | p9999 | p99999 | p999999
  deriving DecidableEq

namespace Percentile

def num : Percentile → ℕ
  | p50 => 1
  | p90 => 90
  | p99 => 99
  | p999 => 999
  | p9999 => 9999
  | p99999 => 99999
  | p999999 => 999999

def den : Percentile → ℕ
  | p50 => 2
  | p90 => 100
  | p99 => 100
  | p999 => 1000
  | p9999 => 10000
  | p99999 => 100000
  | p999999 => 1000000

/-- The rank of the sample that is at a percentile of `n` samples. -/
def rank (p : Percentile) (n : ℕ) : ℕ := max 1 (n * p.num ⌈/⌉ p.den)

theorem num_lt_den (p : Percentile) : p.num < p.den := by cases p <;> decide

theorem num_le (p : Percentile) : p.num ≤ 999999 := by cases p <;> decide

end Percentile

def LatencyPercentiles.get (r : LatencyPercentiles) : Percentile → ℕ
  | .p50 => r.p50
  | .p90 => r.p90
  | .p99 => r.p99
  | .p999 => r.p999
  | .p9999 => r.p9999
  | .p99999 => r.p99999
  | .p999999 => r.p999999

/-- The percentiles with these values. -/
def LatencyPercentiles.of (f : Percentile → ℕ) : LatencyPercentiles :=
  ⟨f .p50, f .p90, f .p99, f .p999, f .p9999, f .p99999, f .p999999⟩

@[simp] theorem LatencyPercentiles.of_get (f : Percentile → ℕ) (p : Percentile) : (of f).get p = f p := by
  cases p <;> rfl

@[simp] theorem LatencyPercentiles.zero_get (p : Percentile) : zero.get p = 0 := by cases p <;> rfl

namespace LatencyHistogram

variable {samples : List ℕ} {n t : ℕ} {p : Percentile}

theorem thresholds_eq (hn : n < 2 ^ 64) : thresholds n = .of fun p => scaled n p.num p.den := by
  have hhalf : n / 2 = scaled n 1 2 := by
    unfold scaled
    rw [mul_one, Nat.mod_eq_of_lt hn]
  unfold thresholds
  rw [hhalf]
  rfl

theorem thresholds_get (hn : n < 2 ^ 64) : (thresholds n).get p = scaled n p.num p.den := by
  rw [thresholds_eq hn, LatencyPercentiles.of_get]

@[simp] theorem pass_fst (h : LatencyHistogram) (t : LatencyPercentiles) (s : ℕ × LatencyPercentiles) (i : ℕ) :
    (h.pass t s i).1 = (s.1 + h.buckets i) % 2 ^ 64 := rfl

theorem pass_get (h : LatencyHistogram) (t : LatencyPercentiles) (s : ℕ × LatencyPercentiles) (i : ℕ) :
    (h.pass t s i).2.get p = update (h.pass t s i).1 (s.2.get p) (t.get p) i := by
  cases p <;> rfl

/-! ### Buckets -/

theorem bucketOf_eq (d : ℕ) : bucketOf d = min 63 (Nat.log 2 d) := by
  unfold bucketOf clz
  split_ifs with h
  · rw [h, Nat.log_zero_right]
    rfl
  · omega

theorem bucketOf_lt (d : ℕ) : bucketOf d < 64 := by
  rw [bucketOf_eq]
  omega

theorem bucketOf_mono : Monotone bucketOf := by
  intro d e hde
  rw [bucketOf_eq, bucketOf_eq]
  exact min_le_min_left _ (Nat.log_mono_right hde)

theorem buckets_foldl (h : LatencyHistogram) (samples : List ℕ) (hb : ∀ i, h.buckets i < 2 ^ 64) (i : ℕ) :
    (samples.foldl recordDuration h).buckets i =
      (h.buckets i + samples.countP (fun d => bucketOf d = i)) % 2 ^ 64 := by
  induction samples generalizing h with
  | nil => exact (Nat.mod_eq_of_lt (hb i)).symm
  | cons d samples ih =>
    have hlt : ∀ j, (h.recordDuration d).buckets j < 2 ^ 64 := by
      intro j
      unfold recordDuration
      dsimp only
      split_ifs
      · exact Nat.mod_lt _ (by decide)
      · exact hb j
    rw [List.foldl_cons, ih _ hlt, List.countP_cons]
    unfold recordDuration
    dsimp only
    by_cases he : i = bucketOf d
    · rw [if_pos he, if_pos (decide_eq_true he.symm), Nat.mod_add_mod]
      congr 1
      omega
    · rw [if_neg he, if_neg (by simpa using Ne.symm he)]
      rfl

/-- **What the buckets count.** -/
theorem buckets_recordAll (hlen : samples.length < 2 ^ 64) (i : ℕ) :
    (recordAll samples).buckets i = samples.countP (fun d => bucketOf d = i) := by
  unfold recordAll
  rw [buckets_foldl _ _ (fun _ => Nat.two_pow_pos 64)]
  show (0 + _) % _ = _
  rw [zero_add, Nat.mod_eq_of_lt (List.countP_le_length.trans_lt hlen)]

/-- The running sum. -/
theorem sum_recordAll (hlen : samples.length < 2 ^ 64) (k : ℕ) :
    (List.range k).foldl (fun sum i => (sum + (recordAll samples).buckets i) % 2 ^ 64) 0 =
      samples.countP (fun d => bucketOf d < k) := by
  induction k with
  | zero => exact (countP_lt_zero bucketOf samples).symm
  | succ k ih =>
    have hle := (List.countP_le_length (p := fun d => decide (bucketOf d < k + 1)) (l := samples))
    rw [List.range_succ, List.foldl_append, ih, List.foldl_cons, List.foldl_nil, buckets_recordAll hlen,
      ← countP_lt_succ, Nat.mod_eq_of_lt (by omega)]

theorem total_recordAll (hlen : samples.length < 2 ^ 64) :
    (List.range 64).foldl (fun sum i => (sum + (recordAll samples).buckets i) % 2 ^ 64) 0 = samples.length := by
  rw [sum_recordAll hlen]
  exact List.countP_eq_length.mpr fun d _ => decide_eq_true (bucketOf_lt d)

/-! ### The loop -/

/-- The first bucket up to which there are `t` samples. -/
def firstBucket (samples : List ℕ) (t k : ℕ) : Option ℕ :=
  (List.range k).find? (fun i => t ≤ samples.countP (fun d => bucketOf d < i + 1))

theorem firstBucket_succ (k : ℕ) : firstBucket samples t (k + 1) =
    (firstBucket samples t k).or (if t ≤ samples.countP (fun d => bucketOf d < k + 1) then some k else none) := by
  unfold firstBucket
  rw [List.range_succ, List.find?_append]
  congr 1
  rw [List.find?_singleton]
  simp only [decide_eq_true_eq]

/-- After `k` rounds: the running sum, and for each percentile the first bucket that reached its threshold. -/
theorem foldl_pass (hlen : samples.length < 2 ^ 64) (t : LatencyPercentiles) (k : ℕ) :
    ((List.range k).foldl ((recordAll samples).pass t) (0, .zero)).1 = samples.countP (fun d => bucketOf d < k) ∧
    ∀ p, ((List.range k).foldl ((recordAll samples).pass t) (0, .zero)).2.get p =
      (firstBucket samples (t.get p) k).elim 0 (2 ^ ·) := by
  induction k with
  | zero => exact ⟨(countP_lt_zero bucketOf samples).symm, fun p => LatencyPercentiles.zero_get p⟩
  | succ k ih =>
    obtain ⟨hsum, hget⟩ := ih
    have hle := (List.countP_le_length (p := fun d => decide (bucketOf d < k + 1)) (l := samples))
    rw [List.range_succ, List.foldl_append, List.foldl_cons, List.foldl_nil]
    have hsum' : ((recordAll samples).pass t
        ((List.range k).foldl ((recordAll samples).pass t) (0, .zero)) k).1 =
          samples.countP (fun d => bucketOf d < k + 1) := by
      rw [pass_fst, hsum, buckets_recordAll hlen, ← countP_lt_succ, Nat.mod_eq_of_lt (by omega)]
    refine ⟨hsum', fun p => ?_⟩
    rw [pass_get, hsum', hget, firstBucket_succ]
    unfold update
    cases firstBucket samples (t.get p) k with
    | none =>
      simp only [Option.elim_none, true_and, Option.none_or]
      split_ifs <;> rfl
    | some i => exact if_neg fun hc => (Nat.two_pow_pos i).ne' hc.1

/-- The bucket of the sample of a rank; before the first sample, the first bucket. -/
def bucketOfRank (samples : List ℕ) (k : ℕ) : ℕ := if k = 0 then 0 else (ofRank samples k).elim 0 bucketOf

@[simp] theorem bucketOfRank_nil (k : ℕ) : bucketOfRank [] k = 0 := by
  unfold bucketOfRank
  split_ifs <;> rfl

@[simp] theorem bucketOfRank_zero : bucketOfRank samples 0 = 0 := rfl

theorem bucketOfRank_of_some {k s : ℕ} (hk : 0 < k) (h : ofRank samples k = some s) :
    bucketOfRank samples k = bucketOf s := by
  unfold bucketOfRank
  rw [if_neg hk.ne', h]
  rfl

theorem firstBucket_eq (h : t ≤ samples.length) : firstBucket samples t 64 = some (bucketOfRank samples t) := by
  rcases Nat.eq_zero_or_pos t with rfl | hpos
  · unfold firstBucket
    rw [List.find?_range_eq_some]
    exact ⟨decide_eq_true (Nat.zero_le _), List.mem_range.mpr (Nat.two_pow_pos 6), fun j hj => absurd hj (Nat.not_lt_zero j)⟩
  · obtain ⟨s, hs⟩ := ofRank_isSome hpos h
    rw [bucketOfRank_of_some hpos hs]
    exact find?_class bucketOf_mono hpos hs (bucketOf_lt s)

theorem scaled_le (n : ℕ) (p : Percentile) : scaled n p.num p.den ≤ n := by
  unfold scaled
  calc n * p.num % 2 ^ 64 / p.den ≤ n * p.num / p.den := Nat.div_le_div_right (Nat.mod_le _ _)
    _ ≤ n * p.den / p.den := Nat.div_le_div_right (Nat.mul_le_mul_left _ p.num_lt_den.le)
    _ = n := Nat.mul_div_cancel _ (Nat.zero_lt_of_lt p.num_lt_den)

/-- **Which bucket is named** for a percentile: that of the sample whose rank is the threshold. -/
theorem computePercentiles_get (hne : samples ≠ []) (hlen : samples.length < 2 ^ 64) :
    (recordAll samples).computePercentiles.get p = 2 ^ bucketOfRank samples (scaled samples.length p.num p.den) := by
  have hpos : samples.length ≠ 0 := fun hc => hne (List.eq_nil_of_length_eq_zero hc)
  unfold computePercentiles
  dsimp only
  rw [total_recordAll hlen, if_neg hpos, (foldl_pass hlen _ 64).2, thresholds_get hlen,
    firstBucket_eq (scaled_le _ p)]
  rfl

/-! ### Percentiles that are right -/

/-- What the percentiles of these samples are to be. -/
structure Right (samples : List ℕ) (r : LatencyPercentiles) : Prop where
  named : ∀ (p : Percentile) (s : ℕ), ofRank samples (p.rank samples.length) = some s → r.get p = 2 ^ bucketOf s
  sorted : ∀ p q : Percentile, p.num * q.den ≤ q.num * p.den → r.get p ≤ r.get q
  least : ∀ p : Percentile, ∀ s ∈ samples, (∀ d ∈ samples, s ≤ d) → 2 ^ bucketOf s ≤ r.get p
  fits : ∀ p : Percentile, samples.length * p.num < 2 ^ 64

theorem scaled_of_lt (h : n * p.num < 2 ^ 64) : scaled n p.num p.den = n * p.num / p.den := by
  unfold scaled
  rw [Nat.mod_eq_of_lt h]

theorem rank_le (hn : 0 < n) : p.rank n ≤ n := by
  have hle : n * p.num ⌈/⌉ p.den ≤ n := by
    rw [ceilDiv_le_iff_le_mul (Nat.zero_lt_of_lt p.num_lt_den), mul_comm]
    exact Nat.mul_le_mul_right n p.num_lt_den.le
  unfold Percentile.rank
  omega

theorem rank_pos : 0 < p.rank n := by
  unfold Percentile.rank
  omega

theorem rank_mono {q : Percentile} (h : p.num * q.den ≤ q.num * p.den) : p.rank n ≤ q.rank n := by
  have hp : 0 < p.den := Nat.zero_lt_of_lt p.num_lt_den
  have hq : 0 < q.den := Nat.zero_lt_of_lt q.num_lt_den
  have hle : n * p.num ⌈/⌉ p.den ≤ n * q.num ⌈/⌉ q.den := by
    rw [ceilDiv_le_iff_le_mul hp]
    refine Nat.le_of_mul_le_mul_left ?_ hq
    have hup : n * q.num ≤ q.den * (n * q.num ⌈/⌉ q.den) := (ceilDiv_le_iff_le_mul hq).mp le_rfl
    calc q.den * (n * p.num) = n * (p.num * q.den) := by ring
      _ ≤ n * (q.num * p.den) := Nat.mul_le_mul_left n h
      _ = p.den * (n * q.num) := by ring
      _ ≤ p.den * (q.den * (n * q.num ⌈/⌉ q.den)) := Nat.mul_le_mul_left _ hup
      _ = q.den * (p.den * (n * q.num ⌈/⌉ q.den)) := by ring
  exact max_le_max le_rfl hle

/-- Percentiles that name the buckets of their samples go up, and none is below the smallest sample. -/
theorem right_of_named {r : LatencyPercentiles} (hne : samples ≠ [])
    (hnamed : ∀ p, r.get p = 2 ^ bucketOfRank samples (p.rank samples.length))
    (hfits : ∀ p : Percentile, samples.length * p.num < 2 ^ 64) : Right samples r := by
  have hpos : 0 < samples.length := List.length_pos_iff.mpr hne
  have hat : ∀ p : Percentile, ∃ s, ofRank samples (p.rank samples.length) = some s ∧ r.get p = 2 ^ bucketOf s := by
    intro p
    obtain ⟨s, hs⟩ := ofRank_isSome rank_pos (rank_le (p := p) hpos)
    exact ⟨s, hs, by rw [hnamed, bucketOfRank_of_some rank_pos hs]⟩
  refine ⟨fun p s hs => ?_, fun p q hpq => ?_, fun p s _ hleast => ?_, hfits⟩
  · rw [hnamed, bucketOfRank_of_some rank_pos hs]
  · obtain ⟨s, hs, hps⟩ := hat p
    obtain ⟨t, ht, hqt⟩ := hat q
    rw [hps, hqt]
    exact Nat.pow_le_pow_right (by decide) (bucketOf_mono (ofRank_mono rank_pos (rank_mono hpq) hs ht))
  · obtain ⟨t, ht, hpt⟩ := hat p
    rw [hpt]
    exact Nat.pow_le_pow_right (by decide) (bucketOf_mono (hleast t (ofRank_mem ht)))

/-- No samples have no percentiles. -/
theorem right_nil : Right [] (recordAll []).computePercentiles := by
  have hzero : (recordAll []).computePercentiles = .zero := by
    unfold computePercentiles
    dsimp only
    rw [total_recordAll (by decide), if_pos List.length_nil]
  rw [hzero]
  refine ⟨fun p s hs => ?_, fun p q _ => ?_, fun p s hs => ?_, fun p => ?_⟩
  · cases ofRank_mem hs
  · rw [LatencyPercentiles.zero_get, LatencyPercentiles.zero_get]
  · cases hs
  · rw [List.length_nil, zero_mul]
    exact Nat.two_pow_pos 64

/-- **All percentiles are right** exactly if no product overflows and, for each of them, rounding the rank down or up
makes no difference for the bucket; rounded down to zero, a rank has the first bucket. -/
theorem percentiles_right_iff (hlen : samples.length < 2 ^ 64) :
    Right samples (recordAll samples).computePercentiles ↔
      samples.length * 999999 < 2 ^ 64 ∧ ∀ p : Percentile,
        bucketOfRank samples (samples.length * p.num / p.den) = bucketOfRank samples (p.rank samples.length) := by
  rcases eq_or_ne samples [] with rfl | hne
  · refine iff_of_true right_nil ⟨Nat.two_pow_pos 64, fun p => ?_⟩
    rw [bucketOfRank_nil, bucketOfRank_nil]
  have hpos : 0 < samples.length := List.length_pos_iff.mpr hne
  constructor
  · intro h
    refine ⟨h.fits .p999999, fun p => ?_⟩
    obtain ⟨s, hs⟩ := ofRank_isSome rank_pos (rank_le (p := p) hpos)
    have hnamed := h.named p s hs
    rw [computePercentiles_get hne hlen, scaled_of_lt (h.fits p)] at hnamed
    rw [bucketOfRank_of_some rank_pos hs]
    exact Nat.pow_right_injective le_rfl hnamed
  · rintro ⟨hfits, hbucket⟩
    have hfit : ∀ p : Percentile, samples.length * p.num < 2 ^ 64 :=
      fun p => (Nat.mul_le_mul_left _ p.num_le).trans_lt hfits
    refine right_of_named hne (fun p => ?_) hfit
    rw [computePercentiles_get hne hlen, scaled_of_lt (hfit p), hbucket]

theorem right_pair : Right [5, 6] (recordAll [5, 6]).computePercentiles :=
  (percentiles_right_iff (by decide)).mpr ⟨by decide, fun p => by cases p <;> decide +kernel⟩

/-- A single duration has all thresholds zero: the first bucket is named, where nothing is. -/
theorem single_named_first :
    (recordAll [1000]).computePercentiles = ⟨1, 1, 1, 1, 1, 1, 1⟩ ∧ bucketOf 1000 = 9 ∧
      ¬ Right [1000] (recordAll [1000]).computePercentiles := by
  have hfirst : (recordAll [1000]).computePercentiles = ⟨1, 1, 1, 1, 1, 1, 1⟩ := by decide +kernel
  refine ⟨hfirst, by decide, fun h => ?_⟩
  have hnamed := h.named .p50 1000 (by decide +kernel)
  rw [hfirst] at hnamed
  exact absurd hnamed (by decide)

end LatencyHistogram

end Wirekrak.Metrics

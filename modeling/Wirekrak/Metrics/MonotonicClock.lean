import Wirekrak.Lib.FixedPoint
import Wirekrak.Lib.Run

/-!
# Wirekrak.Metrics.MonotonicClock — nanoseconds from the time stamp counter, as one thread reads them

A reading is converted with the calibrator that is current, and pushed above the last value the thread was given.
What the counter shows, and what a calibration measures, are inputs.

* `Valid.convert_right`: the conversion, for readings after the calibration.
* `tscToNs_before`: what becomes of a reading from before it.
* `clock_right`: what all values of a run are.
-/

namespace Wirekrak.Metrics

open Wirekrak.Lib

structure TscCalibrator where
  baseTsc : ℕ
  baseWallclockNs : ℕ
  tscFreq : ℕ
  mul : ℕ
  shift : ℕ
  deriving DecidableEq

def tscToNs (tsc : ℕ) (calib : TscCalibrator) : ℕ :=
  let delta := (tsc + 2 ^ 64 - calib.baseTsc) % 2 ^ 64
  let product := delta * calib.mul % 2 ^ 128
  let nsDelta := product / 2 ^ calib.shift % 2 ^ 64
  (calib.baseWallclockNs + nsDelta) % 2 ^ 64

/-- `calibrate_tsc`, for the frequency it measures and the clocks it reads. -/
def calibrateTsc (tscFreq wallclockNs baseTsc : ℕ) : TscCalibrator :=
  ⟨baseTsc, wallclockNs, tscFreq, 1000000000 * 2 ^ 32 / tscFreq % 2 ^ 64, 32⟩

/-- The clock as one thread sees it. -/
structure MonotonicClock where
  calib : TscCalibrator
  lastNs : ℕ
  deriving DecidableEq

namespace MonotonicClock

inductive Event
  | now (tsc : ℕ)
  | calibrateNow (tscFreq wallclockNs baseTsc : ℕ)
  deriving DecidableEq

/-- The clock before the thread's first reading. -/
def start (tscFreq wallclockNs baseTsc : ℕ) : MonotonicClock := ⟨calibrateTsc tscFreq wallclockNs baseTsc, 0⟩

/-- `now_ns`, for what `rdtsc` reads. -/
def nowNs (c : MonotonicClock) (tsc : ℕ) : ℕ :=
  let ns := tscToNs tsc c.calib
  if ns ≤ c.lastNs then (c.lastNs + 1) % 2 ^ 64 else ns

def step (c : MonotonicClock) : Event → MonotonicClock
  | .now tsc => { c with lastNs := c.nowNs tsc }
  | .calibrateNow f w b => { c with calib := calibrateTsc f w b }

/-- The values that `now_ns` returns. -/
def values : MonotonicClock → List Event → List ℕ
  | _, [] => []
  | c, .now tsc :: es => c.nowNs tsc :: values (c.step (.now tsc)) es
  | c, .calibrateNow f w b :: es => values (c.step (.calibrateNow f w b)) es

end MonotonicClock

/-! ## Conversions -/

namespace TscCalibrator

/-- The time that a reading after the calibration denotes. -/
def exactNs (calib : TscCalibrator) (tsc : ℕ) : ℚ :=
  calib.baseWallclockNs + ((tsc - calib.baseTsc : ℕ) * (1000000000 : ℕ) / calib.tscFreq : ℚ)

/-- What `calibrate_tsc` makes, at a frequency of at least one. -/
structure Valid (calib : TscCalibrator) : Prop where
  base_lt : calib.baseTsc < 2 ^ 64
  wallclock_lt : calib.baseWallclockNs < 2 ^ 63
  freq_pos : 0 < calib.tscFreq
  mul_eq : calib.mul = 1000000000 * 2 ^ 32 / calib.tscFreq
  shift_eq : calib.shift = 32

theorem valid_calibrateTsc {f w b : ℕ} (hf : 0 < f) (hw : w < 2 ^ 63) (hb : b < 2 ^ 64) : (calibrateTsc f w b).Valid := by
  refine ⟨hb, hw, hf, ?_, rfl⟩
  have hle : 1000000000 * 2 ^ 32 / f ≤ 1000000000 * 2 ^ 32 := Nat.div_le_self _ _
  exact Nat.mod_eq_of_lt (by omega)

/-- What a conversion is to be, for readings after the calibration whose times fit. -/
structure ConvertsRight (calib : TscCalibrator) : Prop where
  mono : ∀ t u, calib.baseTsc ≤ t → t ≤ u → u < 2 ^ 64 → calib.exactNs u < 2 ^ 63 → tscToNs t calib ≤ tscToNs u calib
  not_above : ∀ t, calib.baseTsc ≤ t → t < 2 ^ 64 → calib.exactNs t < 2 ^ 63 → (tscToNs t calib : ℚ) ≤ calib.exactNs t
  close : ∀ t, calib.baseTsc ≤ t → t < 2 ^ 64 → calib.exactNs t < 2 ^ 63 →
    calib.exactNs t - tscToNs t calib < 1 + ((t - calib.baseTsc : ℕ) : ℚ) / 2 ^ 32

variable {calib : TscCalibrator} {t u : ℕ}

theorem Valid.mul_lt (h : calib.Valid) : calib.mul < 2 ^ 63 := by
  have hle : 1000000000 * 2 ^ 32 / calib.tscFreq ≤ 1000000000 * 2 ^ 32 := Nat.div_le_self _ _
  rw [h.mul_eq]
  omega

theorem exactNs_mono (htu : t ≤ u) : calib.exactNs t ≤ calib.exactNs u := by
  unfold exactNs
  have hle : ((t - calib.baseTsc : ℕ) : ℚ) ≤ (u - calib.baseTsc : ℕ) := by exact_mod_cast Nat.sub_le_sub_right htu _
  gcongr

/-- Nothing is cut off. -/
theorem Valid.tscToNs_eq (h : calib.Valid) (hbase : calib.baseTsc ≤ t) (ht : t < 2 ^ 64)
    (hx : calib.exactNs t < 2 ^ 63) :
    tscToNs t calib = calib.baseWallclockNs + fixedPoint 32 1000000000 calib.tscFreq (t - calib.baseTsc) := by
  have hmul := h.mul_lt
  have hdelta : (t + 2 ^ 64 - calib.baseTsc) % 2 ^ 64 = t - calib.baseTsc := by omega
  have hproduct : (t - calib.baseTsc) * calib.mul < 2 ^ 128 := by
    calc (t - calib.baseTsc) * calib.mul ≤ 2 ^ 64 * 2 ^ 63 := Nat.mul_le_mul (by omega) hmul.le
      _ < 2 ^ 128 := by norm_num
  have hns : calib.baseWallclockNs + fixedPoint 32 1000000000 calib.tscFreq (t - calib.baseTsc) < 2 ^ 63 := by
    have hle := fixedPoint_le 32 1000000000 (t - calib.baseTsc) h.freq_pos
    unfold exactNs at hx
    have hlt : (calib.baseWallclockNs + fixedPoint 32 1000000000 calib.tscFreq (t - calib.baseTsc) : ℚ) < 2 ^ 63 := by
      linarith
    exact_mod_cast hlt
  unfold fixedPoint at hns ⊢
  unfold tscToNs
  dsimp only
  rw [hdelta, Nat.mod_eq_of_lt hproduct, h.shift_eq, h.mul_eq, Nat.mod_eq_of_lt (by omega), Nat.mod_eq_of_lt (by omega)]

/-- **Conversions after the calibration**: they go up with the reading, are never above the exact time, and close. -/
theorem Valid.convert_right (h : calib.Valid) : calib.ConvertsRight := by
  refine ⟨fun t u hbase htu hu hx => ?_, fun t hbase ht hx => ?_, fun t hbase ht hx => ?_⟩
  · have hxt := (exactNs_mono htu).trans_lt hx
    rw [h.tscToNs_eq hbase (by omega) hxt, h.tscToNs_eq (by omega) hu hx]
    exact Nat.add_le_add_left (fixedPoint_mono (by omega)) _
  · rw [h.tscToNs_eq hbase ht hx]
    have hle := fixedPoint_le 32 1000000000 (t - calib.baseTsc) h.freq_pos
    unfold exactNs
    push_cast at hle ⊢
    linarith
  · rw [h.tscToNs_eq hbase ht hx]
    have hlt := fixedPoint_close 32 1000000000 (t - calib.baseTsc) h.freq_pos
    unfold exactNs
    push_cast at hlt ⊢
    linarith

/-- A reading before the calibration counts almost `2 ^ 64` cycles: its time comes after that of the calibration. -/
theorem Valid.tscToNs_before (h : calib.Valid) (hlt : t < calib.baseTsc) :
    tscToNs t calib =
      (calib.baseWallclockNs + (2 ^ 64 - (calib.baseTsc - t)) * calib.mul / 2 ^ 32) % 2 ^ 64 := by
  have hmul := h.mul_lt
  have hbase := h.base_lt
  have hdelta : (t + 2 ^ 64 - calib.baseTsc) % 2 ^ 64 = 2 ^ 64 - (calib.baseTsc - t) := by omega
  have hproduct : (2 ^ 64 - (calib.baseTsc - t)) * calib.mul < 2 ^ 128 := by
    calc (2 ^ 64 - (calib.baseTsc - t)) * calib.mul ≤ 2 ^ 64 * 2 ^ 63 := Nat.mul_le_mul (by omega) hmul.le
      _ < 2 ^ 128 := by norm_num
  unfold tscToNs
  dsimp only
  rw [hdelta, Nat.mod_eq_of_lt hproduct, h.shift_eq, Nat.add_mod_mod]

/-- The nanoseconds of a cycle are a whole number, and the reading is not before time zero. -/
def Whole (calib : TscCalibrator) (t : ℕ) : Prop :=
  2 ^ 32 ∣ calib.mul ∧ (calib.baseTsc - t) * (calib.mul / 2 ^ 32) ≤ calib.baseWallclockNs

instance (calib : TscCalibrator) (t : ℕ) : Decidable (calib.Whole t) := inferInstanceAs (Decidable (_ ∧ _))

/-- Whole nanoseconds can be counted back modulo `2 ^ 64`. -/
theorem Valid.tscToNs_of_whole (h : calib.Valid) (hlt : t < calib.baseTsc) (hw : calib.Whole t) :
    tscToNs t calib = calib.baseWallclockNs - (calib.baseTsc - t) * (calib.mul / 2 ^ 32) := by
  obtain ⟨⟨k, hk⟩, hle⟩ := hw
  have hbase := h.base_lt
  have hwall := h.wallclock_lt
  rw [h.tscToNs_before hlt]
  rw [hk, Nat.mul_div_cancel_left k (Nat.two_pow_pos 32)] at hle ⊢
  have hshift : (2 ^ 64 - (calib.baseTsc - t)) * (2 ^ 32 * k) / 2 ^ 32 = 2 ^ 64 * k - (calib.baseTsc - t) * k := by
    rw [mul_left_comm, Nat.mul_div_cancel_left _ (Nat.two_pow_pos 32), Nat.sub_mul]
  have hcycles : (calib.baseTsc - t) * k ≤ 2 ^ 64 * k := Nat.mul_le_mul_right k (by omega)
  have hback : calib.baseWallclockNs + (2 ^ 64 * k - (calib.baseTsc - t) * k) =
      calib.baseWallclockNs - (calib.baseTsc - t) * k + 2 ^ 64 * k := by
    omega
  rw [hshift, hback, Nat.add_mul_mod_self_left, Nat.mod_eq_of_lt (by omega)]

/-- Where `2 ^ 64` cycles do not reach the end of time, the reading is displaced by what is left of them. -/
theorem Valid.tscToNs_displaced (h : calib.Valid) (hlt : t < calib.baseTsc) (hmul : 0 < calib.mul)
    (hend : calib.baseWallclockNs + 2 ^ 32 * calib.mul ≤ 2 ^ 64) :
    tscToNs t calib = calib.baseWallclockNs + (2 ^ 64 - (calib.baseTsc - t)) * calib.mul / 2 ^ 32 := by
  have hbase := h.base_lt
  have hless : (2 ^ 64 - (calib.baseTsc - t)) * calib.mul / 2 ^ 32 < 2 ^ 32 * calib.mul := by
    rw [Nat.div_lt_iff_lt_mul (Nat.two_pow_pos 32)]
    calc (2 ^ 64 - (calib.baseTsc - t)) * calib.mul < 2 ^ 64 * calib.mul := Nat.mul_lt_mul_of_pos_right (by omega) hmul
      _ = 2 ^ 32 * calib.mul * 2 ^ 32 := by ring
  rw [h.tscToNs_before hlt, Nat.mod_eq_of_lt (by omega)]

end TscCalibrator

/-! ## Runs -/

namespace MonotonicClock

variable {c : MonotonicClock} {es : List Event} {tsc : ℕ}

/-- What the clock is given: times that fit. -/
def Seen (c : MonotonicClock) : Event → Prop
  | .now tsc => tsc < 2 ^ 64 ∧ (c.calib.baseTsc ≤ tsc → c.calib.exactNs tsc < 2 ^ 63)
  | .calibrateNow f w b => 0 < f ∧ w < 2 ^ 63 ∧ b < 2 ^ 64

/-- A reading is not from before the calibration, or whole nanoseconds take it back. -/
def Harmless (c : MonotonicClock) : Event → Prop
  | .now tsc => tsc < c.calib.baseTsc → c.calib.Whole tsc
  | .calibrateNow _ _ _ => True

/-- There is a value after the last one. -/
def Room (c : MonotonicClock) : Event → Prop
  | .now _ => c.lastNs + 1 < 2 ^ 64
  | .calibrateNow _ _ _ => True

instance : ∀ (c : MonotonicClock) (e : Event), Decidable (c.Seen e)
  | _, .now _ => inferInstanceAs (Decidable (_ ∧ _))
  | _, .calibrateNow _ _ _ => inferInstanceAs (Decidable (_ ∧ _ ∧ _))

instance : ∀ (c : MonotonicClock) (e : Event), Decidable (c.Harmless e)
  | _, .now _ => inferInstanceAs (Decidable (_ → _))
  | _, .calibrateNow _ _ _ => inferInstanceAs (Decidable True)

instance : ∀ (c : MonotonicClock) (e : Event), Decidable (c.Room e)
  | _, .now _ => inferInstanceAs (Decidable (_ < _))
  | _, .calibrateNow _ _ _ => inferInstanceAs (Decidable True)

/-- What a reading is to be. -/
structure Right (c : MonotonicClock) (tsc : ℕ) : Prop where
  increasing : c.lastNs < c.nowNs tsc
  converts : c.calib.ConvertsRight
  before : tsc < c.calib.baseTsc → c.nowNs tsc ≤ max c.calib.baseWallclockNs (c.lastNs + 1)

theorem lt_nowNs (h : c.lastNs + 1 < 2 ^ 64) : c.lastNs < c.nowNs tsc := by
  unfold nowNs
  dsimp only
  split_ifs with hle
  · rw [Nat.mod_eq_of_lt h]
    exact Nat.lt_succ_self _
  · exact not_le.mp hle

theorem nowNs_le (tsc : ℕ) (h : c.lastNs + 1 < 2 ^ 64) : c.nowNs tsc ≤ max (tscToNs tsc c.calib) (c.lastNs + 1) := by
  unfold nowNs
  dsimp only
  split_ifs
  · rw [Nat.mod_eq_of_lt h]
    exact le_max_right _ _
  · exact le_max_left _ _

theorem right_of_harmless (hv : c.calib.Valid) (hwhole : c.Harmless (.now tsc)) (hlast : c.Room (.now tsc)) :
    c.Right tsc := by
  refine ⟨lt_nowNs hlast, hv.convert_right, fun hlt => (nowNs_le tsc hlast).trans (max_le_max ?_ le_rfl)⟩
  rw [hv.tscToNs_of_whole hlt (hwhole hlt)]
  exact Nat.sub_le _ _

@[simp] theorem calib_now : (c.step (.now tsc)).calib = c.calib := by
  rw [step]

@[simp] theorem calib_calibrateNow (f w b : ℕ) : (c.step (.calibrateNow f w b)).calib = calibrateTsc f w b := by
  rw [step]

theorem valid_step {e : Event} (hv : c.calib.Valid) (h : c.Seen e) : (c.step e).calib.Valid := by
  cases e with
  | now tsc =>
    rw [calib_now]
    exact hv
  | calibrateNow f w b =>
    obtain ⟨hf, hw, hb⟩ := h
    rw [calib_calibrateNow]
    exact TscCalibrator.valid_calibrateTsc hf hw hb

theorem valid_run (hv : c.calib.Valid) (h : Admitted step (fun c e => c.Seen e ∧ c.Harmless e ∧ c.Room e) c es) :
    (es.foldl step c).calib.Valid := by
  have hrun : Run (fun c e d => step c e = d) (fun c e => c.Seen e ∧ c.Harmless e ∧ c.Room e) c es (es.foldl step c) :=
    Run.of_admitted (fun _ _ _ => rfl) h
  exact hrun.invariant hv fun _ _ _ ht hok hs => hs ▸ valid_step ht hok.1

/-- All values come after the last one, one after the other. -/
theorem values_increasing (h : Admitted step (fun c e => c.Seen e ∧ c.Harmless e ∧ c.Room e) c es) :
    (∀ v ∈ c.values es, c.lastNs < v) ∧ (c.values es).Pairwise (· < ·) := by
  induction es generalizing c with
  | nil => exact ⟨fun v hv => absurd hv List.not_mem_nil, .nil⟩
  | cons e es ih =>
    obtain ⟨hok, h⟩ := h
    obtain ⟨hlater, hpair⟩ := ih h
    cases e with
    | now tsc =>
      have hnow : c.lastNs < c.nowNs tsc := lt_nowNs hok.2.2
      refine ⟨fun v hv => ?_, List.pairwise_cons.mpr ⟨hlater, hpair⟩⟩
      rcases List.mem_cons.mp hv with rfl | hv
      · exact hnow
      · exact hnow.trans (hlater v hv)
    | calibrateNow f w b => exact ⟨hlater, hpair⟩

/-- **The clock of one thread**: in a run whose readings are tame, the values go up, every reading is right, and so are
all conversions. -/
theorem clock_right {f w b : ℕ} (hf : 0 < f) (hw : w < 2 ^ 63) (hb : b < 2 ^ 64)
    (h : Admitted step (fun c e => c.Seen e ∧ c.Harmless e ∧ c.Room e) (start f w b) es) :
    ((start f w b).values es).Pairwise (· < ·) ∧
      ∀ pre tsc, pre ++ [.now tsc] <+: es → (pre.foldl step (start f w b)).Right tsc := by
  refine ⟨(values_increasing h).2, fun pre tsc hpre => ?_⟩
  obtain ⟨hrun, hok⟩ := admitted_concat.mp (h.of_prefix _ hpre)
  exact right_of_harmless (valid_run (TscCalibrator.valid_calibrateTsc hf hw hb) hrun) hok.2.1 hok.2.2

/-! ### Runs that end in time -/

/-- Readings after the calibration, a calibration at a thousand million cycles, and a reading from just before it. -/
theorem tame_right : ((start 3000000000 (10 ^ 18) 1000).values
    [.now 1000, .now 4000, .calibrateNow 1000000000 (2 * 10 ^ 18) 9000, .now 8999, .now 9000]).Pairwise (· < ·) :=
  (clock_right (by decide) (by decide) (by decide) (by decide +kernel)).1

/-- A reading one cycle before the calibration is given a time 195 years later, and all later ones come after it; or it
is given the last time there is, and the clock starts over. -/
theorem early_reading_displaces :
    Admitted step Seen (start 3000000000 (10 ^ 18) 1000) [.now 999, .now 4000] ∧
    (start 3000000000 (10 ^ 18) 1000).values [.now 999, .now 4000] = [7148914689804861439, 7148914689804861440] ∧
    (start 3000000000 (10 ^ 18) 1000).values [.now 4000] = [1000000000000000999] ∧
    Admitted step Seen (start 1500000000 6148914694099828736 1000) [.now 999, .now 4000] ∧
    (start 1500000000 6148914694099828736 1000).values [.now 999, .now 4000] = [2 ^ 64 - 1, 0] :=
  ⟨by decide +kernel, by decide +kernel, by decide +kernel, by decide +kernel, by decide +kernel⟩

end MonotonicClock

end Wirekrak.Metrics

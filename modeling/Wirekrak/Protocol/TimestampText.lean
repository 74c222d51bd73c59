import Mathlib.Tactic.Linarith
import Wirekrak.Protocol.Timestamp

/-!
# Wirekrak.Protocol.TimestampText — `to_string` of a time stamp, and reading it back

`to_string` takes a count of nanoseconds apart by flooring, and `parse_rfc3339` adds the parts up again.  Both compute
in signed 64-bit counts, where a sum that does not fit has no value.

* `yearMonthDay`: the date of a day; `yearMonthDay_spec`: `sys_days` takes it back.
* `Timestamp.toString`, `Parts.sum`: the two directions, `none` where a count overflows.
* `Timestamp.stamp`: the printed parts; they are a time stamp, and it denotes the instant (`stamp_wellFormed`,
  `stamp_instant`).
* `roundTrip_iff`: the instants that come back.
-/

namespace Wirekrak.Protocol

/-! ## The date of a day -/

structure YearMonthDay where
  year : ℤ
  month : ℕ
  day : ℕ
  deriving DecidableEq

/-- The year that begins in March and the day of that year, from the days since 0000-03-01. -/
def marchYear (z : ℤ) : ℤ × ℤ :=
  let doe := z % 146097
  let century := min 3 (doe / 36524)
  let doc := doe - 36524 * century
  let year := min 3 (doc % 1461 / 365)
  (400 * (z / 146097) + 100 * century + 4 * (doc / 1461) + year, doc % 1461 - 365 * year)

/-- `year_month_day{sys_days}`. -/
def yearMonthDay (days : ℤ) : YearMonthDay :=
  let (year, doy) := marchYear (days + 719468)
  let mp := (5 * doy + 2) / 153
  let month := if mp < 10 then mp + 3 else mp - 9
  ⟨if month ≤ 2 then year + 1 else year, month.toNat, (doy - (153 * mp + 2) / 5 + 1).toNat⟩

/-- The year is counted from its days, and only one that ends with a leap day has 366 of them. -/
theorem marchYear_spec {z year doy : ℤ} (h : marchYear z = (year, doy)) :
    z = 365 * year + year / 4 - year / 100 + year / 400 + doy ∧ 0 ≤ doy ∧ doy ≤ 365 ∧
      (doy = 365 → isLeap (year + 1) = true) := by
  obtain ⟨rfl, rfl⟩ := Prod.mk.inj h
  have hera := Int.emod_add_mul_ediv z 146097
  have hdoe0 := Int.emod_nonneg z (by decide : (146097 : ℤ) ≠ 0)
  have hdoe1 := Int.emod_lt_of_pos z (by decide : (0 : ℤ) < 146097)
  generalize z / 146097 = era at *
  generalize z % 146097 = doe at *
  -- the fourth century has a day more than the others
  have hcentury : 0 ≤ min 3 (doe / 36524) ∧ min 3 (doe / 36524) ≤ 3 ∧ 0 ≤ doe - 36524 * min 3 (doe / 36524) ∧
      doe - 36524 * min 3 (doe / 36524) ≤ 36524 ∧
      (doe - 36524 * min 3 (doe / 36524) = 36524 → min 3 (doe / 36524) = 3) := by omega
  generalize min 3 (doe / 36524) = century at *
  obtain ⟨doc, hdoc⟩ : ∃ doc, doc = doe - 36524 * century := ⟨_, rfl⟩
  rw [← hdoc] at hcentury ⊢
  have hfour : 0 ≤ doc / 1461 ∧ doc / 1461 ≤ 24 := by omega
  have hsplit := Int.emod_add_mul_ediv doc 1461
  -- and so has the fourth year
  have hyear : 0 ≤ min 3 (doc % 1461 / 365) ∧ min 3 (doc % 1461 / 365) ≤ 3 ∧
      0 ≤ doc % 1461 - 365 * min 3 (doc % 1461 / 365) ∧ doc % 1461 - 365 * min 3 (doc % 1461 / 365) ≤ 365 ∧
      (doc % 1461 - 365 * min 3 (doc % 1461 / 365) = 365 → min 3 (doc % 1461 / 365) = 3) := by omega
  generalize min 3 (doc % 1461 / 365) = year at *
  generalize doc / 1461 = four at *
  have h4 : (400 * era + 100 * century + 4 * four + year) / 4 = 100 * era + 25 * century + four := by omega
  have h100 : (400 * era + 100 * century + 4 * four + year) / 100 = 4 * era + century := by omega
  have h400 : (400 * era + 100 * century + 4 * four + year) / 400 = era := by omega
  refine ⟨by rw [h4, h100, h400]; omega, hyear.2.2.1, hyear.2.2.2.1, fun hlast => ?_⟩
  have hthird := hyear.2.2.2.2 hlast
  have hfour' : four = 24 → century = 3 := by omega
  unfold isLeap
  simp only [Bool.and_eq_true, decide_eq_true_eq, Bool.or_eq_true]
  omega

/-- **The date of a day is one, and `sys_days` takes it back to the day.** -/
theorem yearMonthDay_spec (days : ℤ) :
    sysDays (yearMonthDay days).year (yearMonthDay days).month (yearMonthDay days).day = days ∧
      dateOk (yearMonthDay days).year (yearMonthDay days).month (yearMonthDay days).day = true := by
  unfold yearMonthDay
  obtain ⟨⟨year, doy⟩, h⟩ : ∃ p, p = marchYear (days + 719468) := ⟨_, rfl⟩
  rw [← h]
  obtain ⟨hz, h0, h1, hleap⟩ := marchYear_spec h.symm
  dsimp only
  have hmp0 : 0 ≤ (5 * doy + 2) / 153 := by omega
  have hmp1 : (5 * doy + 2) / 153 ≤ 11 := by omega
  obtain ⟨mp, hmp⟩ : ∃ mp, mp = (5 * doy + 2) / 153 := ⟨_, rfl⟩
  rw [← hmp] at hmp0 hmp1 ⊢
  unfold sysDays dateOk
  -- the month is the number of the place `mp`, and February comes last
  interval_cases mp
  case «11» =>
    cases hl : isLeap (year + 1)
    · have hshort : doy ≠ 365 := fun h365 => absurd (hleap h365) (by simp [hl])
      norm_num [hl]
      omega
    · norm_num [hl]
      omega
  all_goals
    norm_num
    omega

/-- In 64 bits of nanoseconds, the years have four digits. -/
theorem yearMonthDay_year {days : ℤ} (h0 : -106752 ≤ days) (h1 : days ≤ 106751) :
    0 ≤ (yearMonthDay days).year ∧ (yearMonthDay days).year ≤ 9999 := by
  unfold yearMonthDay
  obtain ⟨⟨year, doy⟩, h⟩ : ∃ p, p = marchYear (days + 719468) := ⟨_, rfl⟩
  rw [← h]
  obtain ⟨hz, hdoy0, hdoy1, -⟩ := marchYear_spec h.symm
  dsimp only
  split_ifs <;> omega

/-! ## Padded numerals -/

/-- `%0*u`. -/
def zeroPadded (width n : ℕ) : Text := List.replicate (width - (Nat.toDigits 10 n).length) '0' ++ Nat.toDigits 10 n

/-- `%0*d`. -/
def zeroPaddedInt (width : ℕ) (n : ℤ) : Text :=
  if n < 0 then '-' :: zeroPadded (width - 1) n.natAbs else zeroPadded width n.natAbs

theorem zeroPaddedInt_natCast (width n : ℕ) : zeroPaddedInt width n = zeroPadded width n := by
  simp [zeroPaddedInt]

theorem length_zeroPadded {width n : ℕ} (hw : 0 < width) (hn : n < 10 ^ width) : (zeroPadded width n).length = width := by
  have hle := (Nat.length_toDigits_le_iff (by decide : 1 < 10) hw).mpr hn
  simp only [zeroPadded, List.length_append, List.length_replicate]
  omega

theorem isDigit_of_mem_zeroPadded {width n : ℕ} {c : Char} (hc : c ∈ zeroPadded width n) : c.isDigit = true := by
  rcases List.mem_append.mp hc with hc | hc
  · rw [List.eq_of_mem_replicate hc]
    decide
  · exact Nat.isDigit_of_mem_toDigits (by decide) (by decide) hc

@[simp]
theorem digitsValue_zeroPadded (width n : ℕ) : digitsValue (zeroPadded width n) = n := by
  have hzeros : ∀ k (l : Text), digitsValue (List.replicate k '0' ++ l) = digitsValue l := by
    intro k l
    induction k with
    | zero => rfl
    | succ k ih => exact ih
  rw [zeroPadded, hzeros]
  exact Nat.ofDigitChars_ten_toDigits

/-! ## The two directions -/

/-- A signed 64-bit count; one that does not fit has no value. -/
def count64 (x : ℤ) : Option ℤ := if -2 ^ 63 ≤ x ∧ x < 2 ^ 63 then some x else none

/-- `floor` to a multiple of a unit: the truncated quotient, one less where it is too late. -/
def floorTo (unit x : ℤ) : ℤ :=
  let t := x.tdiv unit
  if t * unit > x then t - 1 else t

theorem floorTo_eq {unit : ℤ} (hu : 0 < unit) (x : ℤ) : floorTo unit x = x / unit := by
  have hsplit := Int.tmod_add_tdiv_mul x unit
  have habs := Int.tmod_lt_of_pos x hu
  unfold floorTo
  dsimp only
  symm
  by_cases hlate : x.tdiv unit * unit > x
  · have hlow : 0 ≤ x.tmod unit + unit := by
      have := Int.lt_tmod_of_pos x hu
      omega
    rw [if_pos hlate]
    exact (Int.ediv_eq_iff_of_pos hu).mpr ⟨by linarith, by linarith⟩
  · rw [if_neg hlate]
    exact (Int.ediv_eq_iff_of_pos hu).mpr ⟨by linarith, by linarith⟩

/-- `to_string`: the text, or none where `ts - d` overflows. -/
def Timestamp.toString (ts : Timestamp) : Option Text := do
  let d := floorTo 86400000000000 ts
  let ymd := yearMonthDay d
  let tod ← count64 (ts - (← count64 (d * 86400000000000)))
  let h := floorTo 3600000000000 tod
  let m := floorTo 60000000000 (tod - h * 3600000000000)
  let s := floorTo 1000000000 (tod - h * 3600000000000 - m * 60000000000)
  let ns := tod - h * 3600000000000 - m * 60000000000 - s * 1000000000
  return (zeroPaddedInt 4 ymd.year ++ '-' :: (zeroPadded 2 ymd.month ++ '-' :: (zeroPadded 2 ymd.day ++ 'T' ::
    (zeroPaddedInt 2 h ++ ':' :: (zeroPaddedInt 2 m ++ ':' :: (zeroPaddedInt 2 s ++ '.' ::
      (zeroPaddedInt 9 ns ++ ['Z']))))))).take 63

/-- The sum of a count and one in a smaller unit is made in the smaller unit. -/
def addIn (unit coarse fine : ℤ) : Option ℤ := do count64 ((← count64 (coarse * unit)) + fine)

/-- `d + hours + minutes + seconds + extra_ns`. -/
def Parts.sum (p : Parts) : Option Timestamp := do
  let h ← addIn 24 p.days p.hour
  let m ← addIn 60 h p.minute
  let s ← addIn 60 m p.second
  addIn 1000000000 s p.nanoseconds

/-- `parse_rfc3339(to_string(ts))`; the characters of the string are followed by a zero. -/
def roundTrip (ts : Timestamp) : Option Timestamp := do
  let s ← Timestamp.toString ts
  let p ← readParts (s ++ ['\x00']) s.length
  p.sum

/-! ## What is printed -/

/-- The nanoseconds since midnight. -/
def timeOfDay (ts : ℤ) : ℕ := (ts % 86400000000000).toNat

theorem timeOfDay_lt (ts : ℤ) : timeOfDay ts < 86400000000000 := by
  unfold timeOfDay
  omega

theorem day_add_timeOfDay (ts : ℤ) : ts / 86400000000000 * 86400000000000 + timeOfDay ts = ts := by
  unfold timeOfDay
  omega

/-- The parts of the text of an instant. -/
def Timestamp.stamp (ts : ℤ) : Stamp where
  year := zeroPadded 4 (yearMonthDay (ts / 86400000000000)).year.toNat
  month := zeroPadded 2 (yearMonthDay (ts / 86400000000000)).month
  day := zeroPadded 2 (yearMonthDay (ts / 86400000000000)).day
  sep := 'T'
  hour := zeroPadded 2 (timeOfDay ts / 3600000000000)
  minute := zeroPadded 2 (timeOfDay ts / 60000000000 % 60)
  second := zeroPadded 2 (timeOfDay ts / 1000000000 % 60)
  frac := some (zeroPadded 9 (timeOfDay ts % 1000000000))

section Instant

variable {ts : ℤ}

theorem day_bounds (h0 : -2 ^ 63 ≤ ts) (h1 : ts < 2 ^ 63) :
    -106752 ≤ ts / 86400000000000 ∧ ts / 86400000000000 ≤ 106751 := by
  omega

theorem date_ranges (days : ℤ) :
    (1 ≤ (yearMonthDay days).month ∧ (yearMonthDay days).month ≤ 12) ∧ 1 ≤ (yearMonthDay days).day ∧
      (yearMonthDay days).day ≤ monthLength (yearMonthDay days).year (yearMonthDay days).month :=
  (dateOk_iff _ _ _).mp (yearMonthDay_spec days).2

theorem monthLength_le (year : ℤ) (month : ℕ) : monthLength year month ≤ 31 := by
  unfold monthLength
  split_ifs <;> decide

theorem length_fraction : (zeroPadded 9 (timeOfDay ts % 1000000000)).length = 9 :=
  length_zeroPadded (by decide) (Nat.mod_lt _ (by decide))

theorem stamp_shaped (h0 : -2 ^ 63 ≤ ts) (h1 : ts < 2 ^ 63) : (Timestamp.stamp ts).Shaped := by
  obtain ⟨hd0, hd1⟩ := day_bounds h0 h1
  have hyear := yearMonthDay_year hd0 hd1
  obtain ⟨hmonth, hday⟩ := date_ranges (ts / 86400000000000)
  have hlast := monthLength_le (yearMonthDay (ts / 86400000000000)).year (yearMonthDay (ts / 86400000000000)).month
  have htime := timeOfDay_lt ts
  refine ⟨length_zeroPadded (by decide) (by omega), length_zeroPadded (by decide) (by omega),
    length_zeroPadded (by decide) (by omega), Or.inl rfl, length_zeroPadded (by decide) (by omega),
    length_zeroPadded (by decide) (by omega), length_zeroPadded (by decide) (by omega), ?_⟩
  intro ds hds c hc
  obtain rfl := Option.some.inj hds
  exact isDigit_of_mem_zeroPadded hc

theorem stamp_wellFormed (h0 : -2 ^ 63 ≤ ts) (h1 : ts < 2 ^ 63) : (Timestamp.stamp ts).WellFormed := by
  obtain ⟨hd0, hd1⟩ := day_bounds h0 h1
  have hyear := yearMonthDay_year hd0 hd1
  have htime := timeOfDay_lt ts
  have hdate := date_ranges (ts / 86400000000000)
  refine ⟨stamp_shaped h0 h1, ?_, ?_, ?_, ?_, ?_⟩
  · intro f hf c hc
    simp only [Stamp.fields, Timestamp.stamp, List.mem_cons, List.not_mem_nil, or_false] at hf
    rcases hf with rfl | rfl | rfl | rfl | rfl | rfl <;> exact isDigit_of_mem_zeroPadded hc
  · intro hnil
    have hlen := @length_fraction ts
    rw [Option.some.inj hnil] at hlen
    cases hlen
  · simpa [Timestamp.stamp] using hdate.1
  · simpa [Timestamp.stamp, Int.toNat_of_nonneg hyear.1] using hdate.2
  · simp only [Timestamp.stamp, digitsValue_zeroPadded]
    omega

theorem stamp_nanoseconds : (Timestamp.stamp ts).nanoseconds = timeOfDay ts % 1000000000 := by
  simp only [Stamp.nanoseconds, Timestamp.stamp, Option.elim_some, digitsValue_zeroPadded]
  rw [length_fraction]
  exact Nat.mul_div_cancel _ (by decide)

/-- **The text of an instant denotes it.** -/
theorem stamp_instant (h0 : -2 ^ 63 ≤ ts) (h1 : ts < 2 ^ 63) : (Timestamp.stamp ts).instant = ts := by
  obtain ⟨hd0, hd1⟩ := day_bounds h0 h1
  have hyear := yearMonthDay_year hd0 hd1
  have hmonth := (date_ranges (ts / 86400000000000)).1
  have hsplit := day_add_timeOfDay ts
  have hnumber := sysDays_eq_dayNumber (yearMonthDay (ts / 86400000000000)).year
    (yearMonthDay (ts / 86400000000000)).day hmonth.1 hmonth.2
  rw [(yearMonthDay_spec _).1] at hnumber
  rw [Stamp.instant, stamp_nanoseconds]
  simp only [Timestamp.stamp, digitsValue_zeroPadded, Int.toNat_of_nonneg hyear.1]
  rw [← hnumber]
  have hminutes := Nat.div_div_eq_div_mul (timeOfDay ts) 60000000000 60
  have hseconds := Nat.div_div_eq_div_mul (timeOfDay ts) 1000000000 60
  push_cast
  omega

theorem stamp_not_saturates : ¬ (Timestamp.stamp ts).Saturates := by
  rintro ⟨ds, hds, hlong, -⟩
  rw [← Option.some.inj hds, length_fraction] at hlong
  omega

theorem length_text {st : Stamp} (hst : st.Shaped) : st.text.length = 20 + st.fracText.length := by
  simp only [Stamp.text, List.length_append, List.length_cons, hst.year, hst.month, hst.day, hst.hour, hst.minute,
    hst.second, List.length_nil]
  omega

/-! ## Coming back -/

theorem count64_of_mem {x : ℤ} (h0 : -2 ^ 63 ≤ x) (h1 : x < 2 ^ 63) : count64 x = some x := if_pos ⟨h0, h1⟩

theorem count64_of_lt {x : ℤ} (h : x < -2 ^ 63) : count64 x = none := if_neg fun hx => absurd hx.1 (not_le.mpr h)

theorem floorTo_hours (t : ℕ) : floorTo 3600000000000 t = (t / 3600000000000 : ℕ) := by
  rw [floorTo_eq (by decide)]
  norm_cast

theorem floorTo_minutes (t : ℕ) :
    floorTo 60000000000 (t - (t / 3600000000000 : ℕ) * 3600000000000) = (t / 60000000000 % 60 : ℕ) := by
  have hhour := Nat.div_div_eq_div_mul t 60000000000 60
  rw [floorTo_eq (by decide)]
  push_cast
  omega

theorem floorTo_seconds (t : ℕ) :
    floorTo 1000000000 (t - (t / 3600000000000 : ℕ) * 3600000000000 - (t / 60000000000 % 60 : ℕ) * 60000000000) =
      (t / 1000000000 % 60 : ℕ) := by
  have hhour := Nat.div_div_eq_div_mul t 60000000000 60
  have hminute := Nat.div_div_eq_div_mul t 1000000000 60
  rw [floorTo_eq (by decide)]
  push_cast
  omega

theorem nanoseconds_left (t : ℕ) :
    ((t : ℤ) - (t / 3600000000000 : ℕ) * 3600000000000 - (t / 60000000000 % 60 : ℕ) * 60000000000 -
      (t / 1000000000 % 60 : ℕ) * 1000000000) = (t % 1000000000 : ℕ) := by
  have hhour := Nat.div_div_eq_div_mul t 60000000000 60
  have hminute := Nat.div_div_eq_div_mul t 1000000000 60
  push_cast
  omega

/-- The first day of the range begins before the range does. -/
theorem toString_of_lt (h0 : -2 ^ 63 ≤ ts) (h : ts < -106751 * 86400000000000) : Timestamp.toString ts = none := by
  have hday : count64 (floorTo 86400000000000 ts * 86400000000000) = none := by
    rw [floorTo_eq (by decide)]
    exact count64_of_lt (by omega)
  simp [Timestamp.toString, hday]

theorem toString_of_le (h : -106751 * 86400000000000 ≤ ts) (h1 : ts < 2 ^ 63) :
    Timestamp.toString ts = some (Timestamp.stamp ts).text := by
  have h0 : -2 ^ 63 ≤ ts := by omega
  obtain ⟨hd0, hd1⟩ := day_bounds h0 h1
  have hsplit := day_add_timeOfDay ts
  have htime := timeOfDay_lt ts
  have hyear := (yearMonthDay_year hd0 hd1).1
  have hday : count64 (floorTo 86400000000000 ts * 86400000000000) = some (ts / 86400000000000 * 86400000000000) := by
    rw [floorTo_eq (by decide)]
    exact count64_of_mem (by omega) (by omega)
  have htod : count64 (ts - ts / 86400000000000 * 86400000000000) = some (timeOfDay ts : ℤ) := by
    rw [show ts - ts / 86400000000000 * 86400000000000 = (timeOfDay ts : ℤ) by omega]
    exact count64_of_mem (by omega) (by omega)
  have hshort : (Timestamp.stamp ts).text.length ≤ 63 := by
    have hfrac : (Timestamp.stamp ts).fracText.length = 10 := by
      simp [Stamp.fracText, Timestamp.stamp, length_fraction]
    rw [length_text (stamp_shaped h0 h1), hfrac]
    decide
  unfold Timestamp.toString
  simp only [Option.bind_eq_bind, hday, Option.bind_some, htod, floorTo_hours, floorTo_minutes, floorTo_seconds,
    nanoseconds_left, zeroPaddedInt_natCast]
  rw [floorTo_eq (by decide), ← Int.toNat_of_nonneg hyear, zeroPaddedInt_natCast]
  exact congrArg some (List.take_of_length_le hshort)

theorem parts_stamp (h0 : -2 ^ 63 ≤ ts) (h1 : ts < 2 ^ 63) :
    (Timestamp.stamp ts).parts = ⟨ts / 86400000000000, (timeOfDay ts / 3600000000000 : ℕ),
      (timeOfDay ts / 60000000000 % 60 : ℕ), (timeOfDay ts / 1000000000 % 60 : ℕ), (timeOfDay ts % 1000000000 : ℕ)⟩ := by
  obtain ⟨hd0, hd1⟩ := day_bounds h0 h1
  have hyear := (yearMonthDay_year hd0 hd1).1
  have hst := stamp_shaped h0 h1
  have hread : ∀ (f : Text) (w n : ℕ), f = zeroPadded w n → f.length = w → 1 ≤ w → w ≤ 4 → (strtol f).1 = n := by
    rintro f w n rfl hlen hw1 hw4
    rw [strtol_field hlen hw1 hw4 fun c hc => isDigit_of_mem_zeroPadded hc, digitsValue_zeroPadded]
  have hdate := (yearMonthDay_spec (ts / 86400000000000)).1
  rw [← Int.toNat_of_nonneg hyear] at hdate
  unfold Stamp.parts
  rw [hread (Timestamp.stamp ts).year _ _ rfl hst.year (by decide) (by decide),
    hread (Timestamp.stamp ts).month _ _ rfl hst.month (by decide) (by decide),
    hread (Timestamp.stamp ts).day _ _ rfl hst.day (by decide) (by decide),
    hread (Timestamp.stamp ts).hour _ _ rfl hst.hour (by decide) (by decide),
    hread (Timestamp.stamp ts).minute _ _ rfl hst.minute (by decide) (by decide),
    hread (Timestamp.stamp ts).second _ _ rfl hst.second (by decide) (by decide),
    (Stamp.nanosecondsRead_eq_iff hst).mpr stamp_not_saturates, stamp_nanoseconds, hdate]

theorem addIn_eq {unit coarse fine : ℤ} (h0 : -2 ^ 63 ≤ coarse * unit) (hf : 0 ≤ fine)
    (h1 : coarse * unit + fine < 2 ^ 63) : addIn unit coarse fine = some (coarse * unit + fine) := by
  unfold addIn
  rw [count64_of_mem h0 (by omega), Option.bind_eq_bind, Option.bind_some, count64_of_mem (by omega) h1]

/-- The sums fit from midnight of the second day of the range on. -/
theorem Parts.sum_eq_total {p : Parts} (h0 : -106751 ≤ p.days) (h1 : p.days ≤ 106751)
    (hh : 0 ≤ p.hour ∧ p.hour < 24) (hm : 0 ≤ p.minute ∧ p.minute < 60) (hs : 0 ≤ p.second ∧ p.second < 60)
    (hn : 0 ≤ p.nanoseconds) (hfit : p.total < 2 ^ 63) : p.sum = some p.total := by
  have hhours : addIn 24 p.days p.hour = some (p.days * 24 + p.hour) :=
    addIn_eq (by omega) hh.1 (by omega)
  have hminutes : addIn 60 (p.days * 24 + p.hour) p.minute = some ((p.days * 24 + p.hour) * 60 + p.minute) :=
    addIn_eq (by omega) hm.1 (by omega)
  have hseconds : addIn 60 ((p.days * 24 + p.hour) * 60 + p.minute) p.second =
      some (((p.days * 24 + p.hour) * 60 + p.minute) * 60 + p.second) :=
    addIn_eq (by omega) hs.1 (by omega)
  have htotal : p.total =
      (((p.days * 24 + p.hour) * 60 + p.minute) * 60 + p.second) * 1000000000 + p.nanoseconds := by
    unfold Parts.total
    omega
  rw [htotal] at hfit ⊢
  rw [Parts.sum, hhours, Option.bind_eq_bind, Option.bind_some, hminutes, Option.bind_some, hseconds, Option.bind_some,
    addIn_eq (by omega) hn hfit]

theorem sum_parts (h : -106751 * 86400000000000 ≤ ts) (h1 : ts < 2 ^ 63) :
    (Timestamp.stamp ts).parts.sum = some ts := by
  have h0 : -2 ^ 63 ≤ ts := by omega
  have hsplit := day_add_timeOfDay ts
  have htime := timeOfDay_lt ts
  have htotal : (Timestamp.stamp ts).parts.total = ts := by
    have hhour := Nat.div_div_eq_div_mul (timeOfDay ts) 60000000000 60
    have hminute := Nat.div_div_eq_div_mul (timeOfDay ts) 1000000000 60
    rw [parts_stamp h0 h1, Parts.total]
    push_cast
    omega
  have hsum : (Timestamp.stamp ts).parts.sum = some (Timestamp.stamp ts).parts.total := by
    apply Parts.sum_eq_total
    case hfit => rwa [htotal]
    all_goals
      rw [parts_stamp h0 h1]
      dsimp only
      omega
  rw [hsum, htotal]

/-- **A time stamp is printed and read back unless it lies in the first day of the range**, which began before the
range did. -/
theorem roundTrip_iff (h0 : -2 ^ 63 ≤ ts) (h1 : ts < 2 ^ 63) :
    roundTrip ts = some ts ↔ -106751 * 86400000000000 ≤ ts := by
  constructor
  · intro hback
    by_contra hlate
    rw [roundTrip, toString_of_lt h0 (not_le.mp hlate)] at hback
    cases hback
  · intro h
    have hread := readParts_of_admitted (stamp_wellFormed h0 h1).admitted [] ['\x00']
    rw [List.append_nil] at hread
    simp only [roundTrip, toString_of_le h h1, Option.bind_eq_bind, Option.bind_some, hread, sum_parts h h1]

theorem roundTrip_before_1970 : roundTrip (-1) = some (-1) :=
  (roundTrip_iff (by decide) (by decide)).mpr (by decide)

/-- The smallest instant has no text: its midnight does not fit 64 bits. -/
theorem roundTrip_min : Timestamp.toString (-2 ^ 63) = none ∧ roundTrip (-2 ^ 63) ≠ some (-2 ^ 63) := by
  refine ⟨toString_of_lt (by decide) (by decide), fun hback => ?_⟩
  rw [roundTrip, toString_of_lt (by decide) (by decide)] at hback
  cases hback

/-- Where the sum wraps, the text of any instant is read as it. -/
theorem parse_stamp_text (h0 : -2 ^ 63 ≤ ts) (h1 : ts < 2 ^ 63) (rest : Text) :
    parseRfc3339In ((Timestamp.stamp ts).text ++ rest) (Timestamp.stamp ts).text.length = some ts := by
  have hwf := stamp_wellFormed h0 h1
  have hread := parse_of_admitted hwf.admitted [] rest
  rwa [List.append_nil, bmod_computed_eq hwf (by rw [stamp_instant h0 h1]; exact ⟨h0, h1⟩) stamp_not_saturates,
    stamp_instant h0 h1] at hread

end Instant

end Wirekrak.Protocol

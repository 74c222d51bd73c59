import Mathlib.Tactic.IntervalCases
import Wirekrak.Lib.Span
import Wirekrak.Protocol.Json

/-!
# Wirekrak.Protocol.Timestamp — `parse_rfc3339` against the grammar of time stamps

The parser reads its numbers with `strtol`, which skips blanks, takes a sign and does not know where the view ends; the
result is a count of 64 bits.  `parseRfc3339In` is given the memory from the start of the view on, and the length of the
view; `parseRfc3339In_self` ties it to `parseRfc3339`.

* `Stamp`: the parts of a time stamp; `WellFormed`, `instant`, `Denotes`: what a text means.
* `Stamp.Admitted`: what the parser lets through (`parse_of_admitted`, `admitted_of_parse`).
* `Slip`: where an admitted text is no time stamp, or its instant is not the one computed.
* `parse_exact_iff`: the parser is exact on a text unless it slips there.
-/

namespace Wirekrak.Protocol

open Wirekrak.Lib

/-! ## `strtol` -/

/-- Blanks, a sign or none, and digits. -/
structure IsNumber (blanks sign digits : Text) : Prop where
  blanks : ∀ c ∈ blanks, isSpace c = true
  sign : sign = [] ∨ sign = ['-'] ∨ sign = ['+']
  ne_nil : digits ≠ []
  digits : ∀ c ∈ digits, c.isDigit = true

/-- What comes after a number. -/
def NoDigit (rest : Text) : Prop := ∀ c ∈ rest.head?, c.isDigit = false

/-- The value that `strtol` makes of a number. -/
def numberValue (sign digits : Text) : ℤ :=
  let v : ℤ := min (digitsValue digits : ℤ) (2 ^ 63 - 1)
  if sign = ['-'] then -v else v

theorem isSpace_of_isDigit {c : Char} (h : c.isDigit = true) : isSpace c = false := by
  by_contra hs
  rw [Bool.not_eq_false] at hs
  simp only [isSpace, Bool.or_eq_true, decide_eq_true_eq] at hs
  rcases hs with ((((rfl | rfl) | rfl) | rfl) | rfl) | rfl <;> exact absurd h (by decide)

theorem strtol_number {blanks sign digits rest : Text} (h : IsNumber blanks sign digits) (hr : NoDigit rest) :
    strtol (blanks ++ sign ++ digits ++ rest) =
      (numberValue sign digits, blanks.length + sign.length + digits.length) := by
  obtain ⟨d, ds, hd⟩ := List.exists_cons_of_ne_nil h.ne_nil
  have hdig : d.isDigit = true := h.digits d (by simp [hd])
  have hspace : (blanks ++ sign ++ digits ++ rest).takeWhile isSpace = blanks := by
    rw [List.append_assoc, List.append_assoc]
    refine takeWhile_append_stop h.blanks fun c hc => ?_
    rcases h.sign with rfl | rfl | rfl
    · rw [hd] at hc
      cases hc
      exact isSpace_of_isDigit hdig
    · cases hc; decide
    · cases hc; decide
  have hdrop : (blanks ++ sign ++ digits ++ rest).drop blanks.length = sign ++ digits ++ rest := by
    rw [List.append_assoc, List.append_assoc, List.drop_left, List.append_assoc]
  have hdigits : (digits ++ rest).takeWhile Char.isDigit = digits := takeWhile_append_stop h.digits hr
  have hminus : d ≠ '-' := by rintro rfl; exact absurd hdig (by decide)
  have hplus : d ≠ '+' := by rintro rfl; exact absurd hdig (by decide)
  unfold strtol
  dsimp only
  rw [hspace, hdrop]
  rcases h.sign with rfl | rfl | rfl
  · have hhead : (digits ++ rest).head? = some d := by rw [hd]; rfl
    rw [List.nil_append, hhead]
    simp [hminus, hplus, hdigits, h.ne_nil, numberValue]
  · simp [hdigits, h.ne_nil, numberValue]
  · simp [hdigits, h.ne_nil, numberValue]

theorem drop_length_takeWhile (p : Char → Bool) (l : Text) : l.drop (l.takeWhile p).length = l.dropWhile p := by
  induction l with
  | nil => rfl
  | cons c l ih =>
    by_cases h : p c = true
    · rw [List.takeWhile_cons_of_pos h, List.dropWhile_cons_of_pos h, List.length_cons, List.drop_succ_cons, ih]
    · rw [List.takeWhile_cons_of_neg h, List.dropWhile_cons_of_neg h]
      rfl

/-- Whatever `strtol` reads is a number. -/
theorem exists_number {l : Text} (h : (strtol l).2 ≠ 0) : ∃ blanks sign digits rest : Text,
    IsNumber blanks sign digits ∧ NoDigit rest ∧ l = blanks ++ sign ++ digits ++ rest := by
  obtain ⟨sign, body, hbody, hsign, htake⟩ : ∃ sign body : Text,
      l.drop (l.takeWhile isSpace).length = sign ++ body ∧ (sign = [] ∨ sign = ['-'] ∨ sign = ['+']) ∧
      body.takeWhile Char.isDigit ≠ [] := by
    unfold strtol at h
    dsimp only at h
    generalize l.drop (l.takeWhile isSpace).length = r at h ⊢
    by_cases hs : r.head? = some '-' ∨ r.head? = some '+'
    · rw [if_pos (decide_eq_true hs)] at h
      have hne : (r.drop 1).takeWhile Char.isDigit ≠ [] := by
        intro hnil
        rw [if_pos hnil] at h
        exact h rfl
      cases r with
      | nil => simp at hs
      | cons c r =>
        refine ⟨[c], r, rfl, ?_, hne⟩
        rcases hs with hs | hs
        · cases hs; exact Or.inr (Or.inl rfl)
        · cases hs; exact Or.inr (Or.inr rfl)
    · simp only [hs, decide_false, Bool.false_eq_true, if_false] at h
      refine ⟨[], r, rfl, Or.inl rfl, fun hnil => ?_⟩
      rw [List.drop_zero, if_pos hnil] at h
      exact h rfl
  refine ⟨l.takeWhile isSpace, sign, body.takeWhile Char.isDigit, body.dropWhile Char.isDigit,
    ⟨fun c hc => List.mem_takeWhile_imp hc, hsign, htake, fun c hc => List.mem_takeWhile_imp hc⟩, ?_, ?_⟩
  · intro c hc
    have := List.head?_dropWhile_not Char.isDigit body
    rw [hc] at this
    simpa using this
  · rw [List.append_assoc, List.takeWhile_append_dropWhile, List.append_assoc, ← hbody, drop_length_takeWhile,
      List.takeWhile_append_dropWhile]

theorem strtol_number_self {blanks sign digits : Text} (h : IsNumber blanks sign digits) :
    strtol (blanks ++ sign ++ digits) =
      (numberValue sign digits, blanks.length + sign.length + digits.length) := by
  have hself : strtol (blanks ++ sign ++ digits ++ []) = _ := strtol_number h fun c hc => by cases hc
  rw [List.append_nil] at hself
  exact hself

/-- A number that `strtol` reads in `n` bytes is read from these bytes alone. -/
theorem strtol_take {l : Text} {n : ℕ} (hn : n ≠ 0) (h : (strtol l).2 = n) : strtol (l.take n) = ((strtol l).1, n) := by
  obtain ⟨b, sg, ds, rest, hnum, hrest, rfl⟩ := exists_number (l := l) (by omega)
  have hread := strtol_number hnum hrest
  rw [hread] at h ⊢
  have htake : (b ++ sg ++ ds ++ rest).take n = b ++ sg ++ ds := by
    rw [← h]
    exact List.take_left' (by simp [Nat.add_assoc])
  rw [htake, strtol_number_self hnum, ← h]

/-- A text that is a number to its end stays one before a byte that is no digit. -/
theorem strtol_append {f rest : Text} (hne : f ≠ []) (h : (strtol f).2 = f.length) (hr : NoDigit rest) :
    strtol (f ++ rest) = strtol f := by
  have hpos : f.length ≠ 0 := fun h0 => hne (List.length_eq_zero_iff.mp h0)
  obtain ⟨b, sg, ds, rest', hnum, hrest', hf⟩ := exists_number (l := f) (by omega)
  have hread := strtol_number hnum hrest'
  rw [← hf] at hread
  have hnil : rest' = [] := by
    have hlen := congrArg List.length hf
    have hsnd := congrArg Prod.snd hread
    simp only [List.length_append] at hlen
    rw [h] at hsnd
    exact List.length_eq_zero_iff.mp (by dsimp only at hsnd; omega)
  subst hnil
  rw [List.append_nil] at hf
  rw [hf, strtol_number hnum hr, strtol_number_self hnum]

/-! ## The parser -/

/-- The fraction from position 19 on of a view of `len` bytes; `strtoll` is not told where the view ends. -/
def parseFractionIn (mem : Text) (len : ℕ) : Option (ℤ × ℕ) :=
  if mem[19]? = some '.' then
    let digits := (((mem.take len).drop 20).takeWhile Char.isDigit).length
    if digits = 0 then some (0, 20)
    else
      match parseInt mem 20 digits with
      | none => none
      | some frac =>
        some (if digits ≤ 9 then frac * 10 ^ (9 - digits) else frac / 10 ^ (digits - 9), 20 + digits)
  else some (0, 19)

/-- The numbers that `parse_rfc3339` adds up. -/
structure Parts where
  days : ℤ
  hour : ℤ
  minute : ℤ
  second : ℤ
  nanoseconds : ℤ
  deriving DecidableEq

def Parts.total (p : Parts) : ℤ :=
  ((p.days * 24 + p.hour) * 60 + p.minute) * 60000000000 + p.second * 1000000000 + p.nanoseconds

/-- `parse_rfc3339` on the first `len` bytes of the memory, up to where it adds them up. -/
def readParts (mem : Text) (len : ℕ) : Option Parts := do
  guard (20 ≤ len)
  let year ← parseInt mem 0 4
  guard (mem[4]? = some '-')
  let month ← parseInt mem 5 2
  guard (mem[7]? = some '-')
  let day ← parseInt mem 8 2
  guard (mem[10]? = some 'T' ∨ mem[10]? = some 't')
  let hour ← parseInt mem 11 2
  guard (mem[13]? = some ':')
  let minute ← parseInt mem 14 2
  guard (mem[16]? = some ':')
  let sec ← parseInt mem 17 2
  let (ns, pos) ← parseFractionIn mem len
  guard (pos < len ∧ mem[pos]? = some 'Z')
  guard (dateOk year month day)
  return ⟨sysDays year month day, hour, minute, sec, ns⟩

/-- `parse_rfc3339`.  A count that does not fit 64 bits wraps. -/
def parseRfc3339In (mem : Text) (len : ℕ) : Option Timestamp :=
  (readParts mem len).map fun p => Int.bmod p.total (2 ^ 64)

/-- Where the view is all there is, this is `parseRfc3339`, up to the wrap. -/
theorem parseRfc3339In_self (s : Text) :
    parseRfc3339In s s.length = (parseRfc3339 s).map fun t => Int.bmod t (2 ^ 64) := by
  have hfrac : parseFractionIn s s.length = parseFraction s := by
    unfold parseFractionIn
    rw [List.take_length]
    rfl
  have hend : ∀ pos, (pos < s.length ∧ s[pos]? = some 'Z') ↔ s[pos]? = some 'Z' := by
    intro pos
    refine and_iff_right_of_imp fun h => ?_
    exact (List.getElem?_eq_some_iff.mp h).1
  unfold parseRfc3339In readParts parseRfc3339
  simp only [hfrac, hend, Option.map_bind, Option.bind_eq_bind, Function.comp_def]
  rfl

/-! ## The calendar -/

def monthLength (year : ℤ) (month : ℕ) : ℕ :=
  if month = 2 then (if isLeap year then 29 else 28)
  else if month = 4 ∨ month = 6 ∨ month = 9 ∨ month = 11 then 30 else 31

/-- The days of all years from year 1 to the one before. -/
def daysBeforeYear (year : ℤ) : ℤ := 365 * (year - 1) + (year - 1) / 4 - (year - 1) / 100 + (year - 1) / 400

theorem daysBeforeYear_succ (year : ℤ) :
    daysBeforeYear (year + 1) = daysBeforeYear year + (if isLeap year then 366 else 365) := by
  unfold daysBeforeYear isLeap
  by_cases h4 : year % 4 = 0
  · by_cases h100 : year % 100 = 0
    · by_cases h400 : year % 400 = 0
      · simp only [h4, h100, h400, decide_true, ne_eq, not_true_eq_false, decide_false, Bool.or_true, Bool.and_true,
          if_true]
        omega
      · simp only [h4, h100, h400, decide_true, ne_eq, not_true_eq_false, decide_false, Bool.or_false, Bool.and_false,
          Bool.false_eq_true, if_false]
        omega
    · simp only [h4, h100, decide_true, ne_eq, not_false_eq_true, Bool.true_or, Bool.and_true, if_true]
      omega
  · simp only [h4, decide_false, Bool.false_and, Bool.false_eq_true, if_false]
    omega

/-- The days of the year before the month. -/
def daysBeforeMonth (year : ℤ) (month : ℕ) : ℕ := ((List.range (month - 1)).map fun k => monthLength year (k + 1)).sum

/-- The number of a day, with 0 for 1970-01-01. -/
def dayNumber (year : ℤ) (month day : ℕ) : ℤ :=
  daysBeforeYear year - daysBeforeYear 1970 + daysBeforeMonth year month + day - 1

/-- The count in years that begin in March is the count of days. -/
theorem sysDays_eq_dayNumber (year : ℤ) {month : ℕ} (day : ℕ) (h1 : 1 ≤ month) (h12 : month ≤ 12) :
    sysDays year month day = dayNumber year month day := by
  have hmarch : ∀ y : ℤ, 365 * y + y / 4 - y / 100 + y / 400 = daysBeforeYear (y + 1) := fun y => by
    rw [daysBeforeYear, add_sub_cancel_right]
  have hsucc := daysBeforeYear_succ year
  have h1970 : daysBeforeYear 1970 = 719162 := rfl
  unfold sysDays dayNumber
  dsimp only
  rw [hmarch, h1970]
  interval_cases month
  all_goals
    simp only [daysBeforeMonth, List.range_succ, monthLength]
    by_cases hl : isLeap year = true
    · simp [hl] at hsucc ⊢
      omega
    · simp [hl] at hsucc ⊢
      omega

/-! ## Time stamps -/

/-- The parts of a time stamp, as they stand in the text. -/
structure Stamp where
  year : Text
  month : Text
  day : Text
  sep : Char
  hour : Text
  minute : Text
  second : Text
  frac : Option Text

namespace Stamp

def fracText (st : Stamp) : Text := st.frac.elim [] fun ds => '.' :: ds

def text (st : Stamp) : Text :=
  st.year ++ '-' :: (st.month ++ '-' :: (st.day ++ st.sep :: (st.hour ++ ':' :: (st.minute ++ ':' ::
    (st.second ++ (st.fracText ++ ['Z']))))))

def fields (st : Stamp) : List Text := [st.year, st.month, st.day, st.hour, st.minute, st.second]

/-- The widths of the fields, the separator, and digits in the fraction. -/
structure Shaped (st : Stamp) : Prop where
  year : st.year.length = 4
  month : st.month.length = 2
  day : st.day.length = 2
  sep : st.sep = 'T' ∨ st.sep = 't'
  hour : st.hour.length = 2
  minute : st.minute.length = 2
  second : st.second.length = 2
  frac : ∀ ds, st.frac = some ds → ∀ c ∈ ds, c.isDigit = true

/-- A time stamp of RFC 3339 in UTC. -/
structure WellFormed (st : Stamp) : Prop extends Shaped st where
  digits : ∀ f ∈ st.fields, ∀ c ∈ f, c.isDigit = true
  frac_ne_nil : st.frac ≠ some []
  month_range : 1 ≤ digitsValue st.month ∧ digitsValue st.month ≤ 12
  day_range : 1 ≤ digitsValue st.day ∧
    digitsValue st.day ≤ monthLength (digitsValue st.year) (digitsValue st.month)
  clock : digitsValue st.hour ≤ 23 ∧ digitsValue st.minute ≤ 59 ∧ digitsValue st.second ≤ 60

/-- The fraction, truncated to nanoseconds. -/
def nanoseconds (st : Stamp) : ℕ := st.frac.elim 0 fun ds => digitsValue ds * 10 ^ 9 / 10 ^ ds.length

/-- The instant denoted, in nanoseconds since 1970. -/
def instant (st : Stamp) : ℤ :=
  ((dayNumber (digitsValue st.year) (digitsValue st.month) (digitsValue st.day) * 24 + digitsValue st.hour) * 60 +
    digitsValue st.minute) * 60000000000 + digitsValue st.second * 1000000000 + st.nanoseconds

/-- What the parser lets through: `strtol` reads each field to its end, and the date is one. -/
structure Admitted (st : Stamp) : Prop extends Shaped st where
  numbers : ∀ f ∈ st.fields, (strtol f).2 = f.length
  date : dateOk (strtol st.year).1 (strtol st.month).1 (strtol st.day).1 = true

def nanosecondsRead (st : Stamp) : ℤ :=
  st.frac.elim 0 fun ds =>
    if ds = [] then 0
    else if ds.length ≤ 9 then (strtol ds).1 * 10 ^ (9 - ds.length) else (strtol ds).1 / 10 ^ (ds.length - 9)

/-- The numbers the parser reads. -/
def parts (st : Stamp) : Parts :=
  ⟨sysDays (strtol st.year).1 (strtol st.month).1 (strtol st.day).1, (strtol st.hour).1, (strtol st.minute).1,
    (strtol st.second).1, st.nanosecondsRead⟩

/-- What the parser computes, before the wrap. -/
def computed (st : Stamp) : ℤ :=
  ((sysDays (strtol st.year).1 (strtol st.month).1 (strtol st.day).1 * 24 + (strtol st.hour).1) * 60 +
    (strtol st.minute).1) * 60000000000 + (strtol st.second).1 * 1000000000 + st.nanosecondsRead

end Stamp

/-- The text is a time stamp whose instant is `t`, and `t` fits 64 bits. -/
def Denotes (s : Text) (t : ℤ) : Prop :=
  ∃ st : Stamp, st.WellFormed ∧ st.text = s ∧ st.instant = t ∧ -2 ^ 63 ≤ t ∧ t < 2 ^ 63

/-! ## What the parser accepts -/

section Read

variable {mem f R : Text} {k n : ℕ} {c : Char}

theorem parseInt_of_drop (h : mem.drop k = f ++ R) (hlen : f.length = n) (hn : n ≠ 0) (hf : (strtol f).2 = f.length)
    (hR : NoDigit R) : parseInt mem k n = some (strtol f).1 := by
  have hne : f ≠ [] := by rintro rfl; exact hn hlen.symm
  unfold parseInt
  rw [h, strtol_append hne hf hR, if_pos ⟨hn, hf.trans hlen⟩]

theorem getElem?_of_drop (h : mem.drop k = f ++ c :: R) (hlen : f.length = n) :
    mem[k + n]? = some c ∧ mem.drop (k + n + 1) = R := by
  have hdrop : mem.drop (k + n) = c :: R := by
    rw [← List.drop_drop, h, List.drop_left' hlen]
  refine ⟨?_, ?_⟩
  · rw [← List.head?_drop, hdrop]
    rfl
  · rw [← List.drop_drop, hdrop]
    rfl

theorem field_of_parseInt {v : ℤ} (h : parseInt mem k n = some v) :
    strtol ((mem.drop k).take n) = (v, n) ∧ ((mem.drop k).take n).length = n := by
  unfold parseInt at h
  split_ifs at h with hn
  obtain rfl := Option.some.inj h
  have hread := strtol_take hn.1 hn.2
  refine ⟨hread, ?_⟩
  -- the number has as many bytes as were read
  obtain ⟨b, sg, ds, rest, hnum, hrest, heq⟩ := exists_number (l := mem.drop k) (by omega)
  have hsnd := congrArg Prod.snd (strtol_number hnum hrest)
  rw [← heq, hn.2] at hsnd
  rw [List.length_take, heq]
  simp only [List.length_append]
  omega

theorem drop_eq_cons (h : mem[k]? = some c) : mem.drop k = c :: mem.drop (k + 1) := by
  obtain ⟨hk, rfl⟩ := List.getElem?_eq_some_iff.mp h
  exact List.drop_eq_getElem_cons hk

end Read

theorem noDigit_cons {c : Char} (h : c.isDigit = false) (R : Text) : NoDigit (c :: R) := by
  intro c' hc
  cases hc
  exact h

/-- The fraction of an admitted time stamp is read up to the `Z`. -/
theorem parseFractionIn_of_drop {st : Stamp} (hst : st.Shaped) {mem R : Text} {len : ℕ}
    (h : mem.drop 19 = st.fracText ++ 'Z' :: R) (hlen : 19 + st.fracText.length < len) :
    parseFractionIn mem len = some (st.nanosecondsRead, 19 + st.fracText.length) := by
  unfold parseFractionIn Stamp.nanosecondsRead
  unfold Stamp.fracText at h hlen ⊢
  cases hf : st.frac with
  | none =>
    rw [hf] at h
    have hz := (getElem?_of_drop (f := []) (n := 0) h rfl).1
    rw [if_neg (by rw [hz]; decide)]
    rfl
  | some ds =>
    rw [hf] at h hlen
    simp only [Option.elim_some] at h hlen ⊢
    obtain ⟨hdot, hdrop⟩ : mem[19]? = some '.' ∧ mem.drop 20 = ds ++ 'Z' :: R :=
      getElem?_of_drop (f := []) (n := 0) h rfl
    have hdig := hst.frac ds hf
    have htake : ((mem.take len).drop 20).takeWhile Char.isDigit = ds := by
      rw [List.length_cons] at hlen
      rw [List.drop_take, hdrop, List.take_append, List.take_of_length_le (by omega)]
      refine takeWhile_append_stop hdig fun c hc => ?_
      obtain ⟨j, hj⟩ : ∃ j, len - 20 - ds.length = j + 1 := ⟨len - 21 - ds.length, by omega⟩
      rw [hj, List.take_succ_cons] at hc
      cases hc
      decide
    rw [if_pos hdot, htake]
    by_cases hnil : ds = []
    · subst hnil
      rfl
    · have hpos : ds.length ≠ 0 := fun h0 => hnil (List.length_eq_zero_iff.mp h0)
      have hself : strtol ([] ++ [] ++ ds) = _ := strtol_number_self ⟨by simp, Or.inl rfl, hnil, hdig⟩
      simp only [List.nil_append, List.length_nil, Nat.zero_add] at hself
      have hread : parseInt mem 20 ds.length = some (strtol ds).1 :=
        parseInt_of_drop hdrop rfl hpos (by rw [hself]) (noDigit_cons (by decide) R)
      rw [if_neg hpos, if_neg hnil, hread]
      simp only [List.length_cons]
      rw [Nat.add_comm ds.length 1, ← Nat.add_assoc]

theorem readParts_of_admitted {st : Stamp} (hst : st.Admitted) (tail rest : Text) :
    readParts (st.text ++ tail ++ rest) (st.text ++ tail).length = some st.parts := by
  have hnum : ∀ f ∈ st.fields, (strtol f).2 = f.length := hst.numbers
  simp only [Stamp.fields, List.mem_cons, List.not_mem_nil, or_false, forall_eq_or_imp, forall_eq] at hnum
  obtain ⟨ny, nmo, nd, nh, nmi, ns⟩ := hnum
  have h0 : (st.text ++ tail ++ rest).drop 0 = st.year ++ '-' :: (st.month ++ '-' :: (st.day ++ st.sep ::
      (st.hour ++ ':' :: (st.minute ++ ':' :: (st.second ++ (st.fracText ++ 'Z' :: (tail ++ rest))))))) := by
    simp [Stamp.text]
  have hlen : (st.text ++ tail).length = 20 + st.fracText.length + tail.length := by
    simp only [Stamp.text, List.length_append, List.length_cons, hst.year, hst.month, hst.day, hst.hour, hst.minute,
      hst.second, List.length_nil]
    omega
  generalize st.text ++ tail ++ rest = mem at h0
  generalize (st.text ++ tail).length = len at hlen
  obtain ⟨c4, h5⟩ := getElem?_of_drop h0 hst.year
  obtain ⟨c7, h8⟩ := getElem?_of_drop h5 hst.month
  obtain ⟨c10, h11⟩ := getElem?_of_drop h8 hst.day
  obtain ⟨c13, h14⟩ := getElem?_of_drop h11 hst.hour
  obtain ⟨c16, h17⟩ := getElem?_of_drop h14 hst.minute
  have h19 : mem.drop 19 = st.fracText ++ 'Z' :: (tail ++ rest) := by
    have := congrArg (List.drop 2) h17
    rwa [List.drop_drop, List.drop_left' hst.second] at this
  have hsep : NoDigit (st.sep :: (st.hour ++ ':' :: (st.minute ++ ':' ::
      (st.second ++ (st.fracText ++ 'Z' :: (tail ++ rest)))))) := by
    rcases hst.sep with h | h <;> exact noDigit_cons (by rw [h]; decide) _
  have hfrac : NoDigit (st.fracText ++ 'Z' :: (tail ++ rest)) := by
    unfold Stamp.fracText
    cases st.frac with
    | none => exact noDigit_cons (by decide) _
    | some ds => exact noDigit_cons (by decide) _
  have hz := (getElem?_of_drop h19 rfl).1
  have py := parseInt_of_drop h0 hst.year (by decide) ny (noDigit_cons (by decide) _)
  have pmo := parseInt_of_drop h5 hst.month (by decide) nmo (noDigit_cons (by decide) _)
  have pd := parseInt_of_drop h8 hst.day (by decide) nd hsep
  have ph := parseInt_of_drop h11 hst.hour (by decide) nh (noDigit_cons (by decide) _)
  have pmi := parseInt_of_drop h14 hst.minute (by decide) nmi (noDigit_cons (by decide) _)
  have ps := parseInt_of_drop h17 hst.second (by decide) ns hfrac
  have pf : parseFractionIn mem len = _ := parseFractionIn_of_drop hst.toShaped h19 (by omega)
  have htee : mem[10]? = some 'T' ∨ mem[10]? = some 't' := by
    rcases hst.sep with h | h
    · exact Or.inl (h ▸ c10)
    · exact Or.inr (h ▸ c10)
  have g1 : 20 ≤ len := by omega
  have g2 : 19 + st.fracText.length < len := by omega
  unfold readParts
  simp only [Nat.zero_add, Nat.reduceAdd] at py pmo pd ph pmi ps c4 c7 c13 c16
  simp only [guard, g1, if_true, py, c4, pmo, c7, pd, htee, ph, c13, pmi, c16, ps, pf, g2, hz, and_self, hst.date,
    Option.bind_eq_bind, Option.bind_some, Option.pure_def]
  rfl

theorem parse_of_admitted {st : Stamp} (hst : st.Admitted) (tail rest : Text) :
    parseRfc3339In (st.text ++ tail ++ rest) (st.text ++ tail).length = some (Int.bmod st.computed (2 ^ 64)) := by
  unfold parseRfc3339In
  rw [readParts_of_admitted hst]
  rfl

/-- The fraction the parser read, and what is left of the view behind it. -/
theorem frac_of_parseFractionIn {s rest : Text} (hlen : 20 ≤ s.length) {v : ℤ} {pos : ℕ}
    (h : parseFractionIn (s ++ rest) s.length = some (v, pos)) : ∃ frac : Option Text,
      (∀ ds, frac = some ds → ∀ c ∈ ds, c.isDigit = true) ∧
      s.drop 19 = (frac.elim [] fun ds => '.' :: ds) ++ s.drop pos := by
  have h19 : (s ++ rest)[19]? = s[19]? := List.getElem?_append_left (by omega)
  have htake : ((s ++ rest).take s.length).drop 20 = s.drop 20 := by rw [List.take_left]
  unfold parseFractionIn at h
  rw [h19, htake] at h
  by_cases hdot : s[19]? = some '.'
  · rw [if_pos hdot] at h
    have hpos : pos = 20 + ((s.drop 20).takeWhile Char.isDigit).length := by
      dsimp only at h
      by_cases h0 : ((s.drop 20).takeWhile Char.isDigit).length = 0
      · rw [if_pos h0] at h
        rw [h0]
        exact (congrArg Prod.snd (Option.some.inj h)).symm
      · rw [if_neg h0] at h
        split at h
        · cases h
        · exact (congrArg Prod.snd (Option.some.inj h)).symm
    refine ⟨some ((s.drop 20).takeWhile Char.isDigit), ?_, ?_⟩
    · rintro ds hds c hc
      cases hds
      exact List.mem_takeWhile_imp hc
    · have hrest : s.drop pos = (s.drop 20).dropWhile Char.isDigit := by
        rw [hpos, ← drop_length_takeWhile, List.drop_drop]
      rw [drop_eq_cons hdot, hrest, Option.elim_some, List.cons_append, List.takeWhile_append_dropWhile]
  · rw [if_neg hdot] at h
    cases h
    exact ⟨none, by simp, rfl⟩

theorem guard_eq_some {p : Prop} [Decidable p] {u : Unit} : (guard p : Option Unit) = some u ↔ p := by
  unfold guard
  split_ifs with hp <;> simp [hp]

theorem admitted_of_parse {s rest : Text} {t : ℤ} (h : parseRfc3339In (s ++ rest) s.length = some t) :
    ∃ (st : Stamp) (tail : Text), st.Admitted ∧ st.text ++ tail = s := by
  obtain ⟨p, h, -⟩ := Option.map_eq_some_iff.mp h
  unfold readParts at h
  simp only [Option.bind_eq_bind, Option.bind_eq_some_iff, guard_eq_some, exists_const] at h
  obtain ⟨hlen, year, hy, c4, month, hmo, c7, day, hd, c10, hour, hh, c13, minute, hmi, c16, sec, hs, ⟨v, pos⟩, hf,
    ⟨hpos, hz⟩, hdate, -⟩ := h
  -- every position read lies in the view
  have hget : ∀ k, k < s.length → (s ++ rest)[k]? = s[k]? := fun k hk => List.getElem?_append_left hk
  have hslice : ∀ k n, k + n ≤ s.length → ((s ++ rest).drop k).take n = (s.drop k).take n := fun k n hk => by
    rw [List.drop_append_of_le_length (by omega), List.take_append_of_le_length (by rw [List.length_drop]; omega)]
  rw [hget _ (by omega)] at c4 c7 c10 c13 c16 hz
  obtain ⟨frac, hdig, h19⟩ := frac_of_parseFractionIn hlen hf
  obtain ⟨ry, ly⟩ := field_of_parseInt hy
  obtain ⟨rmo, lmo⟩ := field_of_parseInt hmo
  obtain ⟨rd, ld⟩ := field_of_parseInt hd
  obtain ⟨rh, lh⟩ := field_of_parseInt hh
  obtain ⟨rmi, lmi⟩ := field_of_parseInt hmi
  obtain ⟨rs, ls⟩ := field_of_parseInt hs
  rw [hslice _ _ (by omega)] at ry ly rmo lmo rd ld rh lh rmi lmi rs ls
  obtain ⟨sep, hsep, hten⟩ : ∃ sep, (sep = 'T' ∨ sep = 't') ∧ s[10]? = some sep := by
    rcases c10 with h | h
    · exact ⟨_, Or.inl rfl, h⟩
    · exact ⟨_, Or.inr rfl, h⟩
  let st : Stamp := ⟨(s.drop 0).take 4, (s.drop 5).take 2, (s.drop 8).take 2, sep, (s.drop 11).take 2,
    (s.drop 14).take 2, (s.drop 17).take 2, frac⟩
  have hsplit : ∀ k n, s.drop k = (s.drop k).take n ++ s.drop (k + n) := fun k n => by
    rw [← List.drop_drop, List.take_append_drop]
  refine ⟨st, s.drop (pos + 1), ⟨⟨ly, lmo, ld, hsep, lh, lmi, ls, hdig⟩, ?_, ?_⟩, ?_⟩
  · simp only [Stamp.fields, List.mem_cons, List.not_mem_nil, or_false, forall_eq_or_imp, forall_eq]
    exact ⟨by rw [ry, ly], by rw [rmo, lmo], by rw [rd, ld], by rw [rh, lh], by rw [rmi, lmi], by rw [rs, ls]⟩
  · rw [ry, rmo, rd]
    exact hdate
  · have step : ∀ {k c}, s[k]? = some c → ∀ n, s.drop k = c :: ((s.drop (k + 1)).take n ++ s.drop (k + 1 + n)) :=
      fun hc n => (drop_eq_cons hc).trans (congrArg _ (hsplit _ n))
    symm
    calc s = st.year ++ s.drop 4 := hsplit 0 4
      _ = st.year ++ '-' :: (st.month ++ '-' :: (st.day ++ s.drop 10)) := by rw [step c4 2, step c7 2]
      _ = st.year ++ '-' :: (st.month ++ '-' :: (st.day ++ sep :: (st.hour ++ ':' :: (st.minute ++ ':' ::
          (st.second ++ s.drop 19))))) := by rw [step hten 2, step c13 2, step c16 2]
      _ = st.text ++ s.drop (pos + 1) := by
        rw [h19, drop_eq_cons hz]
        simp [Stamp.text, Stamp.fracText, st]

/-! ## Exactness -/

/-- A text is cut into a time stamp and what follows it in one way. -/
theorem text_inj {st st' : Stamp} (h : st.Shaped) (h' : st'.Shaped) {tail tail' : Text}
    (heq : st.text ++ tail = st'.text ++ tail') : st = st' ∧ tail = tail' := by
  simp only [Stamp.text, List.append_assoc, List.cons_append] at heq
  obtain ⟨h1, heq⟩ := List.append_inj heq (by rw [h.year, h'.year])
  obtain ⟨h2, heq⟩ := List.append_inj (List.cons.inj heq).2 (by rw [h.month, h'.month])
  obtain ⟨h3, heq⟩ := List.append_inj (List.cons.inj heq).2 (by rw [h.day, h'.day])
  obtain ⟨h4, heq⟩ := List.cons.inj heq
  obtain ⟨h5, heq⟩ := List.append_inj heq (by rw [h.hour, h'.hour])
  obtain ⟨h6, heq⟩ := List.append_inj (List.cons.inj heq).2 (by rw [h.minute, h'.minute])
  obtain ⟨h7, heq⟩ := List.append_inj (List.cons.inj heq).2 (by rw [h.second, h'.second])
  have hz : ∀ {R : Text} (c : Char), c ∈ ('Z' :: R).head? → c.isDigit = false := by
    rintro R c hc
    cases hc
    decide
  obtain ⟨h8, h9⟩ : st.frac = st'.frac ∧ tail = tail' := by
    unfold Stamp.fracText at heq
    cases hf : st.frac with
    | none =>
      cases hf' : st'.frac with
      | none =>
        rw [hf, hf'] at heq
        exact ⟨rfl, (List.cons.inj heq).2⟩
      | some ds =>
        rw [hf, hf'] at heq
        exact absurd (List.cons.inj heq).1 (by decide)
    | some ds =>
      cases hf' : st'.frac with
      | none =>
        rw [hf, hf'] at heq
        exact absurd (List.cons.inj heq).1 (by decide)
      | some ds' =>
        rw [hf, hf'] at heq
        have hds : ds ++ 'Z' :: tail = ds' ++ 'Z' :: tail' := (List.cons.inj heq).2
        have hcut := congrArg (List.takeWhile Char.isDigit) hds
        rw [takeWhile_append_stop (h.frac ds hf) hz, takeWhile_append_stop (h'.frac ds' hf') hz] at hcut
        subst hcut
        exact ⟨rfl, (List.cons.inj (List.append_cancel_left hds)).2⟩
  refine ⟨?_, h9⟩
  cases st
  cases st'
  simp_all

theorem digitsValue_lt (f : Text) (h : ∀ c ∈ f, c.isDigit = true) : digitsValue f < 10 ^ f.length := by
  induction f using List.reverseRecOn with
  | nil => decide
  | append_singleton f c ih =>
    have hf := ih fun c' hc' => h c' (List.mem_append_left _ hc')
    have hc : c.isDigit = true := h c (by simp)
    have h9 : c.toNat - '0'.toNat ≤ 9 := by
      have := (Char.isDigit_iff_toNat.mp hc).2
      simp only [Char.reduceToNat] at this ⊢
      omega
    have hval : digitsValue (f ++ [c]) = 10 * digitsValue f + (c.toNat - '0'.toNat) := by
      unfold digitsValue
      rw [List.foldl_append, List.foldl_cons, List.foldl_nil]
    rw [hval, List.length_append, List.length_singleton, pow_succ]
    omega

theorem strtol_digits {f : Text} (hne : f ≠ []) (h : ∀ c ∈ f, c.isDigit = true) :
    strtol f = (min (digitsValue f : ℤ) (2 ^ 63 - 1), f.length) := by
  have hself : strtol ([] ++ [] ++ f) = _ := strtol_number_self ⟨by simp, Or.inl rfl, hne, h⟩
  simpa [numberValue] using hself

/-- A short field of digits is read as its number. -/
theorem strtol_field {f : Text} {n : ℕ} (hn : f.length = n) (h1 : 1 ≤ n) (h4 : n ≤ 4)
    (h : ∀ c ∈ f, c.isDigit = true) : strtol f = ((digitsValue f : ℤ), f.length) := by
  have hne : f ≠ [] := by
    rintro rfl
    simp only [List.length_nil] at hn
    omega
  have hlt := digitsValue_lt f h
  have hle : 10 ^ f.length ≤ 10 ^ 4 := Nat.pow_le_pow_right (by decide) (hn ▸ h4)
  rw [strtol_digits hne h, min_eq_left]
  omega

theorem dateOk_iff (year : ℤ) (month day : ℕ) : dateOk year month day = true ↔
    (1 ≤ month ∧ month ≤ 12) ∧ (1 ≤ day ∧ day ≤ monthLength year month) := by
  have hlast : (monthLength year month : ℤ) = (if (month : ℤ) = 2 then (if isLeap year then 29 else 28)
      else if (month : ℤ) = 4 ∨ (month : ℤ) = 6 ∨ (month : ℤ) = 9 ∨ (month : ℤ) = 11 then 30 else 31) := by
    unfold monthLength
    norm_cast
  unfold dateOk
  dsimp only
  rw [← hlast]
  simp only [Bool.and_eq_true, decide_eq_true_eq]
  norm_cast
  tauto

namespace Stamp

variable {st : Stamp}

/-- The numeral of the fraction is cut off at the largest 64-bit value, and it shows in the nanoseconds. -/
def Saturates (st : Stamp) : Prop := ∃ ds, st.frac = some ds ∧ 9 < ds.length ∧
  min (digitsValue ds) (2 ^ 63 - 1) / 10 ^ (ds.length - 9) ≠ digitsValue ds / 10 ^ (ds.length - 9)

theorem nanoseconds_lt (h : st.Shaped) : st.nanoseconds < 10 ^ 9 := by
  unfold nanoseconds
  cases hf : st.frac with
  | none => decide
  | some ds =>
    have hlt := digitsValue_lt ds (h.frac ds hf)
    rw [Option.elim_some, Nat.div_lt_iff_lt_mul (by positivity), Nat.mul_comm]
    exact Nat.mul_lt_mul_of_pos_left hlt (by decide)

/-- Both readings of the fraction, by the number of its digits. -/
theorem nanosecondsRead_cases (h : st.Shaped) :
    ((∀ ds, st.frac = some ds → ds.length ≤ 9) ∧ st.nanosecondsRead = st.nanoseconds) ∨
    ∃ ds, st.frac = some ds ∧ 9 < ds.length ∧
      st.nanosecondsRead = ((min (digitsValue ds) (2 ^ 63 - 1) / 10 ^ (ds.length - 9) : ℕ) : ℤ) ∧
      st.nanoseconds = digitsValue ds / 10 ^ (ds.length - 9) := by
  unfold nanosecondsRead nanoseconds
  cases hf : st.frac with
  | none => exact Or.inl ⟨by simp, rfl⟩
  | some ds =>
    simp only [Option.elim_some, Option.some.injEq, forall_eq']
    have hdig := h.frac ds hf
    by_cases hnil : ds = []
    · subst hnil
      exact Or.inl ⟨Nat.zero_le _, rfl⟩
    · have hread := strtol_digits hnil hdig
      rw [if_neg hnil, hread]
      by_cases hlen : ds.length ≤ 9
      · left
        have hlt := digitsValue_lt ds hdig
        have hle : 10 ^ ds.length ≤ 10 ^ 9 := Nat.pow_le_pow_right (by decide) hlen
        have hscale : digitsValue ds * 10 ^ 9 / 10 ^ ds.length = digitsValue ds * 10 ^ (9 - ds.length) := by
          have hpow : 10 ^ 9 = 10 ^ (9 - ds.length) * 10 ^ ds.length := by rw [← pow_add, Nat.sub_add_cancel hlen]
          rw [hpow, ← Nat.mul_assoc, Nat.mul_div_cancel _ (by positivity)]
        refine ⟨hlen, ?_⟩
        rw [if_pos hlen, hscale, min_eq_left (by omega)]
        push_cast
        rfl
      · right
        refine ⟨ds, rfl, by omega, ?_, ?_⟩
        · rw [if_neg hlen]
          push_cast
          rfl
        · obtain ⟨k, hk⟩ : ∃ k, ds.length = k + 9 := ⟨ds.length - 9, by omega⟩
          rw [hk, Nat.add_sub_cancel, pow_add, Nat.mul_div_mul_right _ _ (by decide)]

theorem nanosecondsRead_eq_iff (h : st.Shaped) : st.nanosecondsRead = st.nanoseconds ↔ ¬ st.Saturates := by
  rcases nanosecondsRead_cases h with ⟨hshort, heq⟩ | ⟨ds, hf, hlen, hread, htrue⟩
  · refine iff_of_true heq ?_
    rintro ⟨ds, hf, hlen, -⟩
    exact absurd (hshort ds hf) (by omega)
  · rw [hread, htrue, Nat.cast_inj]
    constructor
    · rintro heq ⟨ds', hf', -, hne⟩
      rw [hf, Option.some.injEq] at hf'
      exact hne (hf' ▸ heq)
    · intro hno
      by_contra hne
      exact hno ⟨ds, hf, hlen, hne⟩

theorem nanosecondsRead_bounds (h : st.Shaped) : 0 ≤ st.nanosecondsRead ∧ st.nanosecondsRead < 10 ^ 9 := by
  have hlt := nanoseconds_lt h
  rcases nanosecondsRead_cases h with ⟨-, heq⟩ | ⟨ds, -, -, hread, htrue⟩
  · rw [heq]
    omega
  · have hle : min (digitsValue ds) (2 ^ 63 - 1) / 10 ^ (ds.length - 9) ≤ digitsValue ds / 10 ^ (ds.length - 9) :=
      Nat.div_le_div_right (min_le_left _ _)
    rw [htrue] at hlt
    rw [hread]
    exact ⟨Int.natCast_nonneg _, by exact_mod_cast hle.trans_lt hlt⟩

/-- Where all fields are digits, the parser and the grammar differ in the fraction only. -/
theorem computed_eq (h : st.Shaped) (hdig : ∀ f ∈ st.fields, ∀ c ∈ f, c.isDigit = true)
    (hmonth : 1 ≤ digitsValue st.month ∧ digitsValue st.month ≤ 12) :
    st.computed = st.instant - st.nanoseconds + st.nanosecondsRead := by
  simp only [fields, List.mem_cons, List.not_mem_nil, or_false, forall_eq_or_imp, forall_eq] at hdig
  obtain ⟨dy, dmo, dd, dh, dmi, ds⟩ := hdig
  unfold computed instant
  rw [strtol_field h.year (by decide) (by decide) dy, strtol_field h.month (by decide) (by decide) dmo,
    strtol_field h.day (by decide) (by decide) dd, strtol_field h.hour (by decide) (by decide) dh,
    strtol_field h.minute (by decide) (by decide) dmi, strtol_field h.second (by decide) (by decide) ds,
    sysDays_eq_dayNumber _ _ hmonth.1 hmonth.2]
  dsimp only
  omega

theorem date_iff (h : st.Shaped) (hdig : ∀ f ∈ st.fields, ∀ c ∈ f, c.isDigit = true) :
    dateOk (strtol st.year).1 (strtol st.month).1 (strtol st.day).1 = true ↔
      (1 ≤ digitsValue st.month ∧ digitsValue st.month ≤ 12) ∧ (1 ≤ digitsValue st.day ∧
        digitsValue st.day ≤ monthLength (digitsValue st.year) (digitsValue st.month)) := by
  simp only [fields, List.mem_cons, List.not_mem_nil, or_false, forall_eq_or_imp, forall_eq] at hdig
  obtain ⟨dy, dmo, dd, -⟩ := hdig
  rw [strtol_field h.year (by decide) (by decide) dy, strtol_field h.month (by decide) (by decide) dmo,
    strtol_field h.day (by decide) (by decide) dd, dateOk_iff]

theorem WellFormed.admitted (h : st.WellFormed) : st.Admitted := by
  refine ⟨h.toShaped, fun f hf => ?_, (date_iff h.toShaped h.digits).mpr ⟨h.month_range, h.day_range⟩⟩
  have hdig := h.digits f hf
  have hne : f ≠ [] := by
    simp only [fields, List.mem_cons, List.not_mem_nil, or_false] at hf
    rintro rfl
    rcases hf with hf | hf | hf | hf | hf | hf
    · exact absurd h.year (by rw [← hf]; decide)
    · exact absurd h.month (by rw [← hf]; decide)
    · exact absurd h.day (by rw [← hf]; decide)
    · exact absurd h.hour (by rw [← hf]; decide)
    · exact absurd h.minute (by rw [← hf]; decide)
    · exact absurd h.second (by rw [← hf]; decide)
  rw [strtol_digits hne hdig]

end Stamp

/-- Where an admitted text, cut into a time stamp and a tail, is none, or is not read as what it means. -/
inductive Slip (st : Stamp) (tail : Text) : Prop
  /-- Something follows the `Z`. -/
  | trailing (h : tail ≠ [])
  /-- A blank or a sign stands in a field. -/
  | field (f : Text) (hf : f ∈ st.fields) (c : Char) (hc : c ∈ f) (h : c.isDigit = false)
  /-- No digit follows the point. -/
  | emptyFraction (h : st.frac = some [])
  | clock (h : 23 < digitsValue st.hour ∨ 59 < digitsValue st.minute ∨ 60 < digitsValue st.second)
  /-- The instant does not fit 64 bits. -/
  | range (h : st.instant < -2 ^ 63 ∨ 2 ^ 63 ≤ st.instant)
  | saturated (h : st.Saturates)

theorem wellFormed_of_no_slip {st : Stamp} (h : st.Admitted) {tail : Text} (hno : ¬ Slip st tail) :
    st.WellFormed ∧ tail = [] := by
  have hdig : ∀ f ∈ st.fields, ∀ c ∈ f, c.isDigit = true := fun f hf c hc => by
    by_contra hc'
    exact hno (.field f hf c hc (Bool.eq_false_iff.mpr hc'))
  obtain ⟨hmonth, hday⟩ := (Stamp.date_iff h.toShaped hdig).mp h.date
  refine ⟨⟨h.toShaped, hdig, fun hf => hno (.emptyFraction hf), hmonth, hday, ?_⟩, ?_⟩
  · by_contra hc
    exact hno (.clock (by omega))
  · by_contra ht
    exact hno (.trailing ht)

/-- The parser yields the instant of a time stamp that it does not slip on. -/
theorem bmod_computed_eq {st : Stamp} (h : st.WellFormed)
    (hrange : -2 ^ 63 ≤ st.instant ∧ st.instant < 2 ^ 63) (hsat : ¬ st.Saturates) :
    Int.bmod st.computed (2 ^ 64) = st.instant := by
  have heq : st.computed = st.instant := by
    rw [Stamp.computed_eq h.toShaped h.digits h.month_range, (Stamp.nanosecondsRead_eq_iff h.toShaped).mpr hsat]
    omega
  rw [heq]
  exact Int.bmod_eq_of_le_mul_two (by omega) (by omega)

/-- A saturated fraction gives another instant. -/
theorem bmod_computed_ne {st : Stamp} (h : st.WellFormed) (hsat : st.Saturates) :
    Int.bmod st.computed (2 ^ 64) ≠ st.instant := by
  intro heq
  have hne : st.nanosecondsRead ≠ st.nanoseconds := fun hn => (Stamp.nanosecondsRead_eq_iff h.toShaped).mp hn hsat
  have hdvd := Int.dvd_bmod_sub_self (x := st.computed) (m := 2 ^ 64)
  have hbounds := Stamp.nanosecondsRead_bounds h.toShaped
  have hlt := Stamp.nanoseconds_lt h.toShaped
  rw [heq, Stamp.computed_eq h.toShaped h.digits h.month_range] at hdvd
  push_cast at hdvd
  omega

/-- A text that is read as the instant it denotes is no slip. -/
theorem not_slip_of_denotes {st : Stamp} {tail : Text} {t : ℤ} (hst : st.Shaped) (hd : Denotes (st.text ++ tail) t)
    (ht : Int.bmod st.computed (2 ^ 64) = t) : ¬ Slip st tail := by
  obtain ⟨st', hwf, htext, hinst, hlo, hhi⟩ := hd
  obtain ⟨rfl, rfl⟩ : st' = st ∧ [] = tail := text_inj hwf.toShaped hst (by rw [List.append_nil, htext])
  intro hslip
  cases hslip with
  | trailing h => exact h rfl
  | field f hf c hc h => exact absurd (hwf.digits f hf c hc) (by rw [h]; decide)
  | emptyFraction h => exact hwf.frac_ne_nil h
  | clock h =>
    have := hwf.clock
    omega
  | range h => omega
  | saturated h => exact bmod_computed_ne hwf h (ht.trans hinst.symm)

/-- **The parser is exact on a text**, in whatever memory it stands, unless the text is admitted with a slip. -/
theorem parse_exact_iff (s rest : Text) :
    (∀ t, parseRfc3339In (s ++ rest) s.length = some t ↔ Denotes s t) ↔
      ¬ ∃ (st : Stamp) (tail : Text), st.Admitted ∧ st.text ++ tail = s ∧ Slip st tail := by
  constructor
  · rintro hexact ⟨st, tail, hst, rfl, hslip⟩
    exact not_slip_of_denotes hst.toShaped ((hexact _).mp (parse_of_admitted hst tail rest)) rfl hslip
  · intro hno t
    have hrange : ∀ {st : Stamp} {tail : Text}, st.Admitted → st.text ++ tail = s →
        (-2 ^ 63 ≤ st.instant ∧ st.instant < 2 ^ 63) ∧ ¬ st.Saturates := by
      intro st tail hst htext
      refine ⟨?_, fun hsat => hno ⟨st, tail, hst, htext, .saturated hsat⟩⟩
      by_contra hr
      exact hno ⟨st, tail, hst, htext, .range (by omega)⟩
    constructor
    · intro hparse
      obtain ⟨st, tail, hst, htext⟩ := admitted_of_parse hparse
      obtain ⟨hwf, rfl⟩ := wellFormed_of_no_slip hst fun hslip => hno ⟨st, tail, hst, htext, hslip⟩
      obtain ⟨hr, hsat⟩ := hrange hst htext
      rw [← htext, parse_of_admitted hst, Option.some.injEq, bmod_computed_eq hwf hr hsat] at hparse
      exact ⟨st, hwf, by rw [← htext, List.append_nil], hparse, hparse ▸ hr.1, hparse ▸ hr.2⟩
    · rintro ⟨st, hwf, htext, rfl, -⟩
      have htext' : st.text ++ [] = s := by rw [List.append_nil, htext]
      obtain ⟨hr, hsat⟩ := hrange hwf.admitted htext'
      rw [← htext', parse_of_admitted hwf.admitted, bmod_computed_eq hwf hr hsat]

/-- `2023-01-01T99:00:00Z` -/
def hour99 : Text :=
  ['2', '0', '2', '3', '-', '0', '1', '-', '0', '1', 'T', '9', '9', ':', '0', '0', ':', '0', '0', 'Z']

/-- It is read as 03:00 four days later. -/
theorem hour99_accepted : parseRfc3339In (hour99 ++ ['\x00']) hour99.length = some 1672887600000000000 ∧
    ¬ Denotes hour99 1672887600000000000 := by
  refine ⟨by decide, ?_⟩
  rintro ⟨st, hwf, htext, -⟩
  let parts : Stamp := ⟨['2', '0', '2', '3'], ['0', '1'], ['0', '1'], 'T', ['9', '9'], ['0', '0'], ['0', '0'], none⟩
  have hparts : parts.Shaped := ⟨rfl, rfl, rfl, Or.inl rfl, rfl, rfl, rfl, fun ds h => by cases h⟩
  obtain ⟨rfl, -⟩ : st = parts ∧ [] = [] := text_inj hwf.toShaped hparts (by rw [htext]; rfl)
  exact absurd hwf.clock.1 (by decide)

end Wirekrak.Protocol

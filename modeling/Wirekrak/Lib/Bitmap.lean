import Mathlib.Data.List.Basic
import Mathlib.Data.Nat.Bitwise
import Mathlib.Order.Basic

/-!
# Wirekrak.Lib.Bitmap — bit sets stored in 64-bit words

The bits `0 .. 64 * words - 1`, sixty-four to a word.

* `set`, `clear`, `test`, `isEmpty`: one bit, and whether any is set.
* `lowest?`, `highest?`: the first set bit from below (`ctz` of the first non-zero word) and from above (`clz`).
* `foldSet`: a loop over the set bits in ascending order, each word by `ctz` and `mask &= mask - 1`.
-/

namespace Wirekrak.Lib

/-- The words of a bit set. -/
abbrev Bitmap := ℕ → BitVec 64

namespace Bitmap

/-- `__builtin_ctzll`. -/
def ctz (w : BitVec 64) : ℕ := w.ctz.toNat

/-- `63 - __builtin_clzll`: the highest set bit. -/
def msb (w : BitVec 64) : ℕ := 63 - w.clz.toNat

def empty : Bitmap := fun _ => 0#64

def test (m : Bitmap) (i : ℕ) : Bool := (m (i / 64)).getLsbD (i % 64)

def set (m : Bitmap) (i : ℕ) : Bitmap :=
  Function.update m (i / 64) (m (i / 64) ||| (1#64 <<< (i % 64)))

def clear (m : Bitmap) (i : ℕ) : Bitmap :=
  Function.update m (i / 64) (m (i / 64) &&& ~~~ (1#64 <<< (i % 64)))

/-- No bit of the first `words` words is set. -/
def isEmpty (m : Bitmap) (words : ℕ) : Bool := (List.range words).all (fun w => decide (m w = 0#64))

def lowest? (m : Bitmap) (words : ℕ) : Option ℕ :=
  ((List.range words).find? (fun w => decide (m w ≠ 0#64))).map (fun w => w * 64 + ctz (m w))

def highest? (m : Bitmap) (words : ℕ) : Option ℕ :=
  ((List.range words).reverse.find? (fun w => decide (m w ≠ 0#64))).map (fun w => w * 64 + msb (m w))

/-- `while (mask) { f(base | ctz(mask)); mask &= mask - 1; }`, at most `fuel` rounds. -/
def foldWord {β : Type*} (f : β → ℕ → β) (base : ℕ) : ℕ → BitVec 64 → β → β
  | 0, _, acc => acc
  | fuel + 1, mask, acc =>
    if mask = 0#64 then acc else foldWord f base fuel (mask &&& (mask - 1#64)) (f acc (base + ctz mask))

def foldSet {β : Type*} (f : β → ℕ → β) (m : Bitmap) (words : ℕ) (init : β) : β :=
  (List.range words).foldl (fun acc w => foldWord f (w * 64) 64 (m w) acc) init

/-! ## One word -/

section Word

variable {w : BitVec 64}

theorem ctz_lt (hw : w ≠ 0#64) : ctz w < 64 := by
  have h : w.ctz < 64#64 := BitVec.ctz_lt_iff_ne_zero.mpr hw
  exact BitVec.lt_def.mp h

theorem getLsbD_ctz (hw : w ≠ 0#64) : w.getLsbD (ctz w) = true := BitVec.getLsbD_true_ctz_of_ne_zero hw

theorem getLsbD_of_lt_ctz {i : ℕ} (hi : i < ctz w) : w.getLsbD i = false := BitVec.getLsbD_false_of_lt_ctz hi

theorem msb_lt : msb w < 64 := by
  unfold msb
  omega

theorem getLsbD_msb (hw : w ≠ 0#64) : w.getLsbD (msb w) = true := by
  have h := BitVec.getLsbD_true_clz_of_ne_zero (by decide) hw
  exact h

theorem getLsbD_of_msb_lt {i : ℕ} (hi : msb w < i) : w.getLsbD i = false := by
  have hlt : w.toNat < 2 ^ (64 - w.clz.toNat) := BitVec.toNat_lt_two_pow_sub_clz
  have hle : 64 - w.clz.toNat ≤ i := by
    unfold msb at hi
    omega
  rw [← BitVec.testBit_toNat]
  exact Nat.testBit_lt_two_pow (lt_of_lt_of_le hlt (Nat.pow_le_pow_right (by decide) hle))

theorem eq_zero_iff_getLsbD : w = 0#64 ↔ ∀ i < 64, w.getLsbD i = false := by
  constructor
  · rintro rfl i -
    simp
  · intro h
    apply BitVec.eq_of_getLsbD_eq
    intro i hi
    simpa using h i hi

/-- `n & (n - 1)` for `n = 2^c * (2 * m + 1)`. -/
theorem testBit_and_pred (c m i : ℕ) : (2 ^ c * (2 * m + 1) &&& (2 ^ c * (2 * m + 1) - 1)).testBit i =
    ((2 ^ c * (2 * m + 1)).testBit i && decide (i ≠ c)) := by
  have hpos : 0 < 2 ^ c := Nat.two_pow_pos c
  have hpred : 2 ^ c * (2 * m + 1) - 1 = 2 ^ c * (2 * m) + (2 ^ c - 1) := by
    rw [Nat.mul_add, Nat.mul_one]
    omega
  have hself : 2 ^ c * (2 * m + 1) = 2 ^ c * (2 * m + 1) + 0 := rfl
  rw [Nat.testBit_and, hpred, hself, Nat.testBit_two_pow_mul_add _ hpos,
    Nat.testBit_two_pow_mul_add _ (by omega : 2 ^ c - 1 < 2 ^ c)]
  by_cases hi : i < c
  · simp [hi]
  · rw [if_neg hi, if_neg hi]
    obtain ⟨d, rfl⟩ := Nat.exists_eq_add_of_le (Nat.le_of_not_lt hi)
    rw [Nat.add_sub_cancel_left]
    cases d with
    | zero => simp
    | succ d =>
      have h1 : (2 * m + 1).testBit (d + 1) = m.testBit d := by
        rw [Nat.testBit_succ]
        congr 1
        omega
      have h2 : (2 * m).testBit (d + 1) = m.testBit d := by
        rw [Nat.testBit_succ]
        congr 1
        omega
      simp [h1, h2]

theorem exists_toNat_eq (hw : w ≠ 0#64) : ∃ m, w.toNat = 2 ^ ctz w * (2 * m + 1) := by
  have hmod : w.toNat % 2 ^ ctz w = 0 := by
    apply Nat.eq_of_testBit_eq
    intro i
    rw [Nat.testBit_mod_two_pow, Nat.zero_testBit]
    by_cases hi : i < ctz w
    · rw [BitVec.testBit_toNat, getLsbD_of_lt_ctz hi, Bool.and_false]
    · simp [hi]
  have hodd : w.toNat / 2 ^ ctz w % 2 = 1 := by
    have h := getLsbD_ctz hw
    rw [← BitVec.testBit_toNat, Nat.testBit_eq_decide_div_mod_eq] at h
    simpa using h
  refine ⟨w.toNat / 2 ^ ctz w / 2, ?_⟩
  have h1 : 2 * (w.toNat / 2 ^ ctz w / 2) + 1 = w.toNat / 2 ^ ctz w := by omega
  rw [h1, Nat.mul_div_cancel' (Nat.dvd_of_mod_eq_zero hmod)]

/-- `mask & (mask - 1)` clears the lowest set bit. -/
theorem getLsbD_and_sub_one (hw : w ≠ 0#64) (i : ℕ) :
    (w &&& (w - 1#64)).getLsbD i = (w.getLsbD i && decide (i ≠ ctz w)) := by
  obtain ⟨m, hm⟩ := exists_toNat_eq hw
  have hpos : 1 ≤ w.toNat := by
    rw [hm]
    exact Nat.mul_pos (Nat.two_pow_pos _) (by omega)
  have hsub : (w - 1#64).toNat = w.toNat - 1 := by
    rw [BitVec.toNat_sub_of_le]
    · rfl
    · exact BitVec.le_def.mpr hpos
  rw [← BitVec.testBit_toNat, ← BitVec.testBit_toNat, BitVec.toNat_and, hsub, hm]
  exact testBit_and_pred _ _ _

end Word

/-! ## The bit set -/

variable {m : Bitmap} {words : ℕ}

@[simp] theorem test_empty (i : ℕ) : test empty i = false := by simp [test, empty]

/-- The mask of a bit. -/
theorem getLsbD_mask (i : ℕ) {b : ℕ} (hb : b < 64) : (1#64 <<< i).getLsbD b = decide (b = i) := by
  rw [BitVec.getLsbD_shiftLeft]
  have h1 : (1#64).getLsbD (b - i) = decide (b - i = 0) := by simp
  rw [h1, decide_eq_true hb, Bool.true_and]
  by_cases hlt : b < i
  · simp [hlt, Nat.ne_of_lt hlt]
  · simp only [hlt, decide_false, Bool.not_false, Bool.true_and, decide_eq_decide]
    omega

/-- Two bits of one word. -/
theorem mod_eq_iff {i j : ℕ} (hw : j / 64 = i / 64) : j % 64 = i % 64 ↔ i = j := by
  omega

theorem test_set (m : Bitmap) (i j : ℕ) : test (set m i) j = (decide (i = j) || test m j) := by
  unfold test set
  by_cases hw : j / 64 = i / 64
  · rw [hw, Function.update_self, BitVec.getLsbD_or, getLsbD_mask _ (Nat.mod_lt _ (by decide)), Bool.or_comm,
      decide_eq_decide.mpr (mod_eq_iff hw)]
  · rw [Function.update_of_ne hw]
    have hij : i ≠ j := by
      rintro rfl
      exact hw rfl
    simp [hij]

theorem test_clear (m : Bitmap) (i j : ℕ) : test (clear m i) j = (decide (i ≠ j) && test m j) := by
  unfold test clear
  by_cases hw : j / 64 = i / 64
  · have hlt : j % 64 < 64 := Nat.mod_lt _ (by decide)
    rw [hw, Function.update_self, BitVec.getLsbD_and, BitVec.getLsbD_not, getLsbD_mask _ hlt, decide_eq_true hlt,
      Bool.true_and, Bool.and_comm, decide_eq_decide.mpr (mod_eq_iff hw), decide_not]
  · rw [Function.update_of_ne hw]
    have hij : i ≠ j := by
      rintro rfl
      exact hw rfl
    simp [hij]

theorem test_mul_add {w b : ℕ} (hb : b < 64) : test m (w * 64 + b) = (m w).getLsbD b := by
  unfold test
  have h1 : (w * 64 + b) / 64 = w := by omega
  have h2 : (w * 64 + b) % 64 = b := by omega
  rw [h1, h2]

theorem isEmpty_iff : isEmpty m words = true ↔ ∀ i, i < words * 64 → test m i = false := by
  unfold isEmpty
  rw [List.all_eq_true]
  simp only [List.mem_range, decide_eq_true_eq]
  constructor
  · intro h i hi
    unfold test
    rw [h (i / 64) (by omega)]
    simp
  · intro h w hw
    rw [eq_zero_iff_getLsbD]
    intro b hb
    rw [← test_mul_add hb]
    exact h _ (by omega)

theorem lowest?_eq_some {i : ℕ} (h : lowest? m words = some i) :
    i < words * 64 ∧ test m i = true ∧ ∀ j, j < i → test m j = false := by
  unfold lowest? at h
  obtain ⟨w, hw, rfl⟩ := Option.map_eq_some_iff.mp h
  obtain ⟨hw0, hlt, hbelow⟩ := List.find?_range_eq_some.mp hw
  have hne : m w ≠ 0#64 := by simpa using hw0
  have hc := ctz_lt hne
  have hlt' : w < words := List.mem_range.mp hlt
  refine ⟨by omega, by rw [test_mul_add hc]; exact getLsbD_ctz hne, fun j hj => ?_⟩
  unfold test
  by_cases hjw : j / 64 = w
  · rw [hjw]
    exact getLsbD_of_lt_ctz (by omega)
  · have h0 : m (j / 64) = 0#64 := by simpa using hbelow (j / 64) (by omega)
    rw [h0]
    simp

theorem lowest?_eq_none (h : lowest? m words = none) : ∀ i, i < words * 64 → test m i = false := by
  unfold lowest? at h
  rw [Option.map_eq_none_iff, List.find?_eq_none] at h
  intro i hi
  have h0 : m (i / 64) = 0#64 := by simpa using h (i / 64) (List.mem_range.mpr (by omega))
  unfold test
  rw [h0]
  simp

/-- The last element that a predicate holds of, found from the end. -/
theorem find?_reverse_range {p : ℕ → Bool} {n w : ℕ} (h : (List.range n).reverse.find? p = some w) :
    p w = true ∧ w < n ∧ ∀ j, w < j → j < n → p j = false := by
  induction n with
  | zero => simp at h
  | succ n ih =>
    rw [List.range_succ, List.reverse_append, List.reverse_singleton, List.singleton_append, List.find?_cons] at h
    cases hp : p n with
    | true =>
      rw [hp] at h
      cases h
      exact ⟨hp, by omega, fun j h1 h2 => by omega⟩
    | false =>
      rw [hp] at h
      obtain ⟨h1, h2, h3⟩ := ih h
      refine ⟨h1, by omega, fun j hj hjn => ?_⟩
      by_cases hjn' : j = n
      · rw [hjn', hp]
      · exact h3 j hj (by omega)

theorem highest?_eq_some {i : ℕ} (h : highest? m words = some i) :
    i < words * 64 ∧ test m i = true ∧ ∀ j, i < j → j < words * 64 → test m j = false := by
  unfold highest? at h
  obtain ⟨w, hw, rfl⟩ := Option.map_eq_some_iff.mp h
  obtain ⟨hw0, hlt, habove⟩ := find?_reverse_range hw
  have hne : m w ≠ 0#64 := by simpa using hw0
  have hb : msb (m w) < 64 := msb_lt
  refine ⟨by omega, by rw [test_mul_add hb]; exact getLsbD_msb hne, fun j hj hjn => ?_⟩
  unfold test
  by_cases hjw : j / 64 = w
  · rw [hjw]
    exact getLsbD_of_msb_lt (by omega)
  · have h0 : m (j / 64) = 0#64 := by simpa using habove (j / 64) (by omega) (by omega)
    rw [h0]
    simp

theorem highest?_eq_none (h : highest? m words = none) : ∀ i, i < words * 64 → test m i = false := by
  unfold highest? at h
  rw [Option.map_eq_none_iff, List.find?_eq_none] at h
  intro i hi
  have h0 : m (i / 64) = 0#64 := by
    simpa using h (i / 64) (List.mem_reverse.mpr (List.mem_range.mpr (by omega)))
  unfold test
  rw [h0]
  simp

/-! ## The loop over the set bits -/

/-- The set bits of a word, ascending. -/
def bits (w : BitVec 64) : List ℕ := (List.range 64).filter (fun i => w.getLsbD i)

theorem bits_zero : bits 0#64 = [] := by
  unfold bits
  rw [List.filter_eq_nil_iff]
  simp

theorem bits_eq_cons {w : BitVec 64} (hw : w ≠ 0#64) : bits w = ctz w :: bits (w &&& (w - 1#64)) := by
  have hc := ctz_lt hw
  have hsplit : List.range 64 = List.range' 0 (ctz w) ++ (ctz w :: List.range' (ctz w + 1) (63 - ctz w)) := by
    rw [← List.range'_succ, List.range_eq_range']
    have hlen : 64 = ctz w + (63 - ctz w + 1) := by omega
    conv_lhs => rw [hlen]
    rw [← List.range'_append_1, Nat.zero_add]
  unfold bits
  have hlow : ∀ v : BitVec 64, (∀ i, i < ctz w → v.getLsbD i = false) →
      (List.range' 0 (ctz w)).filter (fun i => v.getLsbD i) = [] := by
    intro v hv
    rw [List.filter_eq_nil_iff]
    intro i hi
    have : i < ctz w := by
      have := (List.mem_range'_1.mp hi).2
      omega
    simp [hv i this]
  rw [hsplit, List.filter_append, List.filter_append, hlow w (fun i hi => getLsbD_of_lt_ctz hi),
    hlow (w &&& (w - 1#64)) (fun i hi => by rw [getLsbD_and_sub_one hw, getLsbD_of_lt_ctz hi, Bool.false_and]),
    List.nil_append, List.nil_append, List.filter_cons, List.filter_cons, if_pos (getLsbD_ctz hw),
    getLsbD_and_sub_one hw]
  simp only [ne_eq, not_true_eq_false, decide_false, Bool.and_false, Bool.false_eq_true, if_false, List.cons.injEq,
    true_and]
  apply List.filter_congr
  intro i hi
  have hne : i ≠ ctz w := by
    have := (List.mem_range'_1.mp hi).1
    omega
  rw [getLsbD_and_sub_one hw]
  simp [hne]

theorem foldWord_eq {β : Type*} (f : β → ℕ → β) (base : ℕ) : ∀ (fuel : ℕ) (w : BitVec 64) (acc : β),
    (bits w).length ≤ fuel → foldWord f base fuel w acc = ((bits w).map (fun b => base + b)).foldl f acc := by
  intro fuel
  induction fuel with
  | zero =>
    intro w acc h
    rw [List.length_eq_zero_iff.mp (Nat.le_zero.mp h)]
    rfl
  | succ fuel ih =>
    intro w acc h
    unfold foldWord
    by_cases hw : w = 0#64
    · rw [if_pos hw, hw, bits_zero]
      rfl
    · rw [if_neg hw, bits_eq_cons hw, ih]
      · rfl
      · rw [bits_eq_cons hw, List.length_cons] at h
        omega

theorem length_bits_le (w : BitVec 64) : (bits w).length ≤ 64 := by
  have h := List.length_filter_le (fun i => w.getLsbD i) (List.range 64)
  rwa [List.length_range] at h

/-- The loop runs over the set bits in ascending order. -/
theorem foldSet_eq {β : Type*} (f : β → ℕ → β) (m : Bitmap) (words : ℕ) (init : β) :
    foldSet f m words init = ((List.range (words * 64)).filter (fun i => test m i)).foldl f init := by
  unfold foldSet
  induction words with
  | zero => rfl
  | succ n ih =>
    have hsplit : List.range ((n + 1) * 64) = List.range (n * 64) ++ (List.range 64).map (fun b => n * 64 + b) := by
      rw [Nat.add_mul, Nat.one_mul, List.range_add]
    have hword : ((List.range 64).map (fun b => n * 64 + b)).filter (fun i => test m i) =
        (bits (m n)).map (fun b => n * 64 + b) := by
      rw [List.filter_map]
      unfold bits
      congr 1
      apply List.filter_congr
      intro b hb
      exact test_mul_add (List.mem_range.mp hb)
    rw [List.range_succ, List.foldl_append, ih, hsplit, List.filter_append, List.foldl_append, hword]
    exact foldWord_eq f (n * 64) 64 (m n) _ (length_bits_le _)

end Bitmap

end Wirekrak.Lib

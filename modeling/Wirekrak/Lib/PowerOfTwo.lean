import Mathlib.Data.Nat.Size
import Mathlib.Data.Nat.Bitwise

/-!
# Wirekrak.Lib.PowerOfTwo — rounding up to a power of two by smearing bits

`m ||| m >>> w` with `w = 1, 2, 4, …` copies the highest bit of a number into all lower places.

* `Window w n m`: bit `i` of `m` tells whether `n` has a bit at one of the `w` places from `i` on.
* `Window.double`: one step of the smearing, and `Window.eq_size`: the number it ends with.
* `firstBit_two_pow`: the lowest bit of a power of two.
-/

namespace Wirekrak.Lib

/-- Bit `i` of `m` tells whether `n` has a bit at one of the `w` places from `i` on. -/
def Window (w n m : ℕ) : Prop := ∀ i, m.testBit i = true ↔ ∃ j < w, n.testBit (i + j) = true

variable {w n m : ℕ}

theorem window_one (n : ℕ) : Window 1 n n := by
  intro i
  constructor
  · exact fun h => ⟨0, Nat.zero_lt_one, h⟩
  · rintro ⟨j, hj, h⟩
    obtain rfl : j = 0 := by omega
    exact h

theorem Window.double (h : Window w n m) : Window (w + w) n (m ||| m >>> w) := by
  intro i
  rw [Nat.testBit_or, Bool.or_eq_true, Nat.testBit_shiftRight, h, h]
  constructor
  · rintro (⟨j, hj, hb⟩ | ⟨j, hj, hb⟩)
    · exact ⟨j, by omega, hb⟩
    · refine ⟨w + j, by omega, ?_⟩
      rwa [show i + (w + j) = w + i + j by omega]
  · rintro ⟨j, hj, hb⟩
    by_cases hlt : j < w
    · exact .inl ⟨j, hlt, hb⟩
    · refine .inr ⟨j - w, by omega, ?_⟩
      rwa [show w + i + (j - w) = i + j by omega]

/-- A window that covers the number has all bits up to its highest one. -/
theorem Window.eq_size (h : Window w n m) (hn : n < 2 ^ w) : m = 2 ^ n.size - 1 := by
  apply Nat.eq_of_testBit_eq
  intro i
  rw [Nat.testBit_two_pow_sub_one, Bool.eq_iff_iff, h i, decide_eq_true_iff, Nat.lt_size]
  constructor
  · rintro ⟨j, -, hb⟩
    exact (Nat.pow_le_pow_right (by decide) (Nat.le_add_right i j)).trans (Nat.ge_two_pow_of_testBit hb)
  · intro hle
    obtain ⟨k, hk, hb⟩ := Nat.exists_ge_and_testBit_of_ge_two_pow hle
    have hkw : k < w := by
      by_contra hc
      rw [Nat.testBit_lt_two_pow (hn.trans_le (Nat.pow_le_pow_right (by decide) (by omega)))] at hb
      cases hb
    refine ⟨k - i, by omega, ?_⟩
    rwa [show i + (k - i) = k by omega]

/-- The power of two above a number is at most twice the number. -/
theorem two_pow_size_le (hn : 0 < n) : 2 ^ n.size ≤ 2 * n := by
  have hs : 0 < n.size := Nat.size_pos.mpr hn
  have h : 2 ^ (n.size - 1) ≤ n := Nat.lt_size.mp (by omega)
  calc 2 ^ n.size = 2 * 2 ^ (n.size - 1) := by rw [← pow_succ', Nat.sub_add_cancel hs]
    _ ≤ 2 * n := by omega

/-- The lowest of the first `k` places with a bit, `k` if there is none. -/
def firstBit (k n : ℕ) : ℕ := ((List.range k).find? (fun i => n.testBit i)).getD k

theorem firstBit_two_pow {k e : ℕ} (he : e < k) : firstBit k (2 ^ e) = e := by
  unfold firstBit
  have hfind : (List.range k).find? (fun i => (2 ^ e).testBit i) = some e := by
    rw [List.find?_range_eq_some]
    refine ⟨Nat.testBit_two_pow_self, List.mem_range.mpr he, fun j hj => ?_⟩
    rw [Nat.testBit_two_pow_of_ne (by omega)]
    rfl
  rw [hfind, Option.getD_some]

end Wirekrak.Lib

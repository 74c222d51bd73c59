import Mathlib.Data.Rat.Floor
import Mathlib.Tactic.FieldSimp
import Mathlib.Tactic.Linarith

/-!
# Wirekrak.Lib.FixedPoint — dividing by multiplying with a rounded reciprocal

`fixedPoint s num den n` is `n * num / den` as a product with `num * 2 ^ s / den`, shifted back by `s`.  Both the
reciprocal and the product are rounded down.

* `fixedPoint_mono`, `fixedPoint_le`, `fixedPoint_close`: it goes up with `n`, is never above, and how far it is below.
-/

namespace Wirekrak.Lib

def fixedPoint (s num den n : ℕ) : ℕ := n * (num * 2 ^ s / den) / 2 ^ s

variable {s num den n m : ℕ}

theorem fixedPoint_mono (h : n ≤ m) : fixedPoint s num den n ≤ fixedPoint s num den m :=
  Nat.div_le_div_right (Nat.mul_le_mul_right _ h)

theorem fixedPoint_mul_le : fixedPoint s num den n * den ≤ n * num := by
  have hdown : fixedPoint s num den n * 2 ^ s ≤ n * (num * 2 ^ s / den) := Nat.div_mul_le_self _ _
  refine Nat.le_of_mul_le_mul_right ?_ (Nat.two_pow_pos s)
  calc fixedPoint s num den n * den * 2 ^ s = fixedPoint s num den n * 2 ^ s * den := by ring
    _ ≤ n * (num * 2 ^ s / den) * den := Nat.mul_le_mul_right den hdown
    _ = n * (num * 2 ^ s / den * den) := by ring
    _ ≤ n * (num * 2 ^ s) := Nat.mul_le_mul_left n (Nat.div_mul_le_self _ _)
    _ = n * num * 2 ^ s := by ring

/-- The reciprocal is less than one too small, and so is the shifted product. -/
theorem lt_fixedPoint_mul (hd : 0 < den) :
    n * num * 2 ^ s < (fixedPoint s num den n + 1) * 2 ^ s * den + n * den := by
  have hup : n * (num * 2 ^ s / den) < (fixedPoint s num den n + 1) * 2 ^ s := by
    rw [mul_comm (fixedPoint s num den n + 1)]
    exact Nat.lt_mul_div_succ _ (Nat.two_pow_pos s)
  have hrec : num * 2 ^ s ≤ (num * 2 ^ s / den + 1) * den := by
    rw [mul_comm _ den]
    exact (Nat.lt_mul_div_succ _ hd).le
  calc n * num * 2 ^ s = n * (num * 2 ^ s) := by ring
    _ ≤ n * ((num * 2 ^ s / den + 1) * den) := Nat.mul_le_mul_left n hrec
    _ = n * (num * 2 ^ s / den) * den + n * den := by ring
    _ < (fixedPoint s num den n + 1) * 2 ^ s * den + n * den :=
      Nat.add_lt_add_right (Nat.mul_lt_mul_of_pos_right hup hd) _

/-- **Never above.** -/
theorem fixedPoint_le (s num n : ℕ) (hd : 0 < den) : (fixedPoint s num den n : ℚ) ≤ n * num / den := by
  rw [le_div_iff₀ (by exact_mod_cast hd)]
  exact_mod_cast fixedPoint_mul_le

/-- **Close**: one for the shift, and `n / 2 ^ s` for the reciprocal. -/
theorem fixedPoint_close (s num n : ℕ) (hd : 0 < den) :
    (n * num / den : ℚ) - fixedPoint s num den n < 1 + n / 2 ^ s := by
  have hdq : (0 : ℚ) < den := by exact_mod_cast hd
  have hsq : (0 : ℚ) < 2 ^ s := by positivity
  have hlt : (n * num * 2 ^ s : ℚ) < (fixedPoint s num den n + 1) * 2 ^ s * den + n * den := by
    exact_mod_cast lt_fixedPoint_mul hd
  rw [sub_lt_iff_lt_add, div_lt_iff₀ hdq]
  refine lt_of_mul_lt_mul_right ?_ hsq.le
  calc (n * num * 2 ^ s : ℚ) < (fixedPoint s num den n + 1) * 2 ^ s * den + n * den := hlt
    _ = (1 + n / 2 ^ s + fixedPoint s num den n) * den * 2 ^ s := by
      field_simp
      ring

end Wirekrak.Lib

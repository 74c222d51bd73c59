import Mathlib.Order.Monotone.Basic
import Mathlib.Data.List.Sort

/-!
# Wirekrak.Lib.Rank — items by rank, and the class of such an item found by counting

`ofRank l k` is the `k`-th smallest item of a list.  Where the items are put into classes that go up with them, the
class of the `k`-th smallest one is the first class up to which there are `k` items.

* `ofRank_iff`: what holds of the item of a rank, by counting.
* `find?_class`: the first class with a count.
-/

namespace Wirekrak.Lib

variable {α : Type*}

/-! ## Counting classes -/

section Count

variable (f : α → ℕ) (l : List α) (k : ℕ)

theorem countP_lt_succ :
    l.countP (fun x => f x < k + 1) = l.countP (fun x => f x < k) + l.countP (fun x => f x = k) := by
  induction l with
  | nil => rfl
  | cons a l ih =>
    simp only [List.countP_cons, decide_eq_true_eq]
    rw [ih]
    by_cases h : f a < k
    · rw [if_pos (by omega), if_pos h, if_neg (by omega)]
      omega
    · by_cases he : f a = k
      · rw [if_pos (by omega), if_neg h, if_pos he]
        omega
      · rw [if_neg (by omega), if_neg h, if_neg he]
        omega

theorem countP_lt_zero : l.countP (fun x => f x < 0) = 0 :=
  List.countP_eq_zero.mpr fun x _ => by simp

end Count

/-! ## Ranks -/

variable [LinearOrder α] {l : List α} {k : ℕ} {s : α}

/-- The item of rank `k` from below; the first one has rank one. -/
def ofRank (l : List α) (k : ℕ) : Option α := (l.insertionSort (· ≤ ·))[k - 1]?

@[simp] theorem ofRank_nil (k : ℕ) : ofRank ([] : List α) k = none := rfl

theorem ofRank_isSome (h1 : 0 < k) (h : k ≤ l.length) : ∃ s, ofRank l k = some s := by
  unfold ofRank
  have hlt : k - 1 < (l.insertionSort (· ≤ ·)).length := by
    rw [List.length_insertionSort]
    omega
  exact ⟨_, List.getElem?_eq_getElem hlt⟩

theorem ofRank_mem (h : ofRank l k = some s) : s ∈ l := (List.mem_insertionSort _).mp (List.mem_of_getElem? h)

theorem sorted_iff {m : List α} (hm : m.Pairwise (· ≤ ·)) {P : α → Prop} [DecidablePred P]
    (hP : ∀ x y, x ≤ y → P y → P x) (h : m[k]? = some s) : P s ↔ k < m.countP (fun x => P x) := by
  induction m generalizing k with
  | nil => cases h
  | cons a m ih =>
    obtain ⟨ha, hm⟩ := List.pairwise_cons.mp hm
    rw [List.countP_cons]
    by_cases hPa : P a
    · rw [if_pos (decide_eq_true hPa)]
      cases k with
      | zero =>
        cases h
        exact iff_of_true hPa (Nat.succ_pos _)
      | succ k =>
        rw [ih hm h]
        omega
    · -- nothing after the first item that fails holds
      have hnone : m.countP (fun x => P x) = 0 :=
        List.countP_eq_zero.mpr fun x hx hPx => hPa (hP a x (ha x hx) (of_decide_eq_true hPx))
      rw [if_neg (by simpa using hPa), hnone]
      refine iff_of_false (fun hs => hPa ?_) (Nat.not_lt_zero k)
      obtain rfl | hmem := List.mem_cons.mp (List.mem_of_getElem? h)
      · exact hs
      · exact hP a s (ha s hmem) hs

/-- What holds of all items below one it holds of holds of the item of rank `k` exactly if it holds of `k` items. -/
theorem ofRank_iff {P : α → Prop} [DecidablePred P] (hP : ∀ x y, x ≤ y → P y → P x) (h1 : 0 < k)
    (h : ofRank l k = some s) : P s ↔ k ≤ l.countP (fun x => P x) := by
  rw [sorted_iff (List.pairwise_insertionSort (· ≤ ·) l) hP h, (List.perm_insertionSort (· ≤ ·) l).countP_eq]
  omega

theorem ofRank_mono {j : ℕ} {r : α} (hj : 0 < j) (hjk : j ≤ k) (hr : ofRank l j = some r) (hs : ofRank l k = some s) :
    r ≤ s := by
  have hcount := (ofRank_iff (P := (· ≤ s)) (fun x y => le_trans) (by omega) hs).mp le_rfl
  exact (ofRank_iff (P := (· ≤ s)) (fun x y => le_trans) hj hr).mpr (by omega)

/-- **The class of the item of rank `k`** is the first one up to which there are `k` items. -/
theorem find?_class {f : α → ℕ} (hf : Monotone f) {m : ℕ} (h1 : 0 < k) (h : ofRank l k = some s) (hm : f s < m) :
    (List.range m).find? (fun i => k ≤ l.countP (fun x => f x < i + 1)) = some (f s) := by
  have hdown : ∀ i, ∀ x y : α, x ≤ y → f y < i → f x < i := fun i x y hxy hy => (hf hxy).trans_lt hy
  rw [List.find?_range_eq_some]
  refine ⟨?_, List.mem_range.mpr hm, fun j hj => ?_⟩
  · exact decide_eq_true ((ofRank_iff (hdown _) h1 h).mp (Nat.lt_succ_self _))
  · rw [Bool.not_eq_true', decide_eq_false_iff_not, ← ofRank_iff (hdown _) h1 h]
    omega

end Wirekrak.Lib

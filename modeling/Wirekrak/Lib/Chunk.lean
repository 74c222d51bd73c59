import Mathlib.Data.List.Basic

/-!
# Wirekrak.Lib.Chunk — a list cut into pieces of a fixed length

`chunk n l i` is the `i`-th piece of length `n`; the last piece may be shorter.  `pieces n k` is the number of pieces
of a list of length `k`.  A list that grows at its end changes only the piece it grows in.
-/

namespace Wirekrak.Lib

variable {α : Type*} {n i j : ℕ} {l m : List α}

def chunk (n : ℕ) (l : List α) (i : ℕ) : List α :=
  (l.drop (n * i)).take n

/-- The number of pieces of length `n`, the last one not necessarily full. -/
def pieces (n k : ℕ) : ℕ :=
  (k + (n - 1)) / n

theorem length_chunk (n : ℕ) (l : List α) (i : ℕ) : (chunk n l i).length = min n (l.length - n * i) := by
  unfold chunk
  rw [List.length_take, List.length_drop]

theorem getElem?_chunk (hj : j < n) (l : List α) (i : ℕ) : (chunk n l i)[j]? = l[n * i + j]? := by
  unfold chunk
  rw [List.getElem?_take_of_lt hj, List.getElem?_drop]

theorem chunk_sublist (n : ℕ) (l : List α) (i : ℕ) : (chunk n l i).Sublist l :=
  (List.take_sublist _ _).trans (List.drop_sublist _ _)

/-- A full piece stays as it is. -/
theorem chunk_append_of_le (h : n * i + n ≤ l.length) (m : List α) : chunk n (l ++ m) i = chunk n l i := by
  unfold chunk
  rw [List.drop_append_of_le_length (by omega), List.take_append_of_le_length (by rw [List.length_drop]; omega)]

/-- The piece that is not full yet takes the next item. -/
theorem chunk_concat (hi : i = l.length / n) (hn : 0 < n) (a : α) : chunk n (l ++ [a]) i = chunk n l i ++ [a] := by
  have hlt := Nat.div_add_mod l.length n
  have hmod := Nat.mod_lt l.length hn
  rw [← hi] at hlt
  unfold chunk
  rw [List.drop_append_of_le_length (by omega), List.take_of_length_le, List.take_of_length_le]
  · rw [List.length_drop]
    omega
  · rw [List.length_append, List.length_drop, List.length_singleton]
    omega

/-- One more item fills the piece that is growing. -/
theorem succ_div_of_full {k : ℕ} (h : k % n + 1 = n) : (k + 1) / n = k / n + 1 ∧ (k + 1) % n = 0 := by
  have hk := Nat.div_add_mod k n
  rw [Nat.div_mod_unique (by omega), Nat.mul_succ]
  omega

/-- One more item leaves room in the piece that is growing. -/
theorem succ_div_of_lt {k : ℕ} (h : k % n + 1 < n) : (k + 1) / n = k / n ∧ (k + 1) % n = k % n + 1 := by
  have hk := Nat.div_add_mod k n
  rw [Nat.div_mod_unique (by omega)]
  omega

theorem pieces_mul_ge (hn : 0 < n) (k : ℕ) : k ≤ n * pieces n k := by
  unfold pieces
  have := Nat.div_add_mod (k + (n - 1)) n
  have := Nat.mod_lt (k + (n - 1)) hn
  omega

theorem lt_pieces_iff (hn : 0 < n) (k : ℕ) : i < pieces n k ↔ n * i < k := by
  unfold pieces
  have h1 := Nat.div_add_mod (k + (n - 1)) n
  have h2 := Nat.mod_lt (k + (n - 1)) hn
  constructor
  · intro h
    have := Nat.mul_le_mul_left n (Nat.succ_le_of_lt h)
    rw [Nat.mul_succ] at this
    omega
  · intro h
    by_contra hge
    have := Nat.mul_le_mul_left n (Nat.le_of_not_lt hge)
    omega

theorem pieces_le_iff (hn : 0 < n) (k : ℕ) : pieces n k ≤ i ↔ k ≤ n * i := by
  have := lt_pieces_iff (i := i) hn k
  omega

/-- All pieces are full. -/
theorem pieces_of_mod_eq_zero (hn : 0 < n) {k : ℕ} (h : k % n = 0) : pieces n k = k / n := by
  have hk := Nat.div_add_mod k n
  apply Nat.le_antisymm
  · rw [pieces_le_iff hn]
    omega
  · by_contra hlt
    have := (pieces_le_iff (i := pieces n k) hn k).mp (Nat.le_refl _)
    have hmul := Nat.mul_le_mul_left n (Nat.succ_le_of_lt (Nat.lt_of_not_le hlt))
    rw [Nat.mul_succ] at hmul
    omega

/-- The last piece is not full. -/
theorem pieces_of_mod_ne_zero (hn : 0 < n) {k : ℕ} (h : k % n ≠ 0) : pieces n k = k / n + 1 := by
  have hk := Nat.div_add_mod k n
  have hm := Nat.mod_lt k hn
  apply Nat.le_antisymm
  · rw [pieces_le_iff hn, Nat.mul_succ]
    omega
  · have := (lt_pieces_iff (i := k / n) hn k).mpr (by omega)
    omega

end Wirekrak.Lib

import Mathlib.Data.List.TakeWhile

/-!
# Wirekrak.Lib.Span — where a scan stops

A list is cut in two by the first item that fails a predicate; `takeWhile_append_stop` and `dropWhile_append_stop` say
when a given cut is that one.
-/

namespace Wirekrak.Lib

variable {α : Type*} {p : α → Bool} {l rest : List α}

theorem takeWhile_append_stop (hl : ∀ c ∈ l, p c = true) (hr : ∀ c ∈ rest.head?, p c = false) :
    (l ++ rest).takeWhile p = l := by
  rw [List.takeWhile_append_of_pos hl]
  cases rest with
  | nil => simp
  | cons c rest => simp [hr c rfl]

theorem dropWhile_append_stop (hl : ∀ c ∈ l, p c = true) (hr : ∀ c ∈ rest.head?, p c = false) :
    (l ++ rest).dropWhile p = rest := by
  rw [List.dropWhile_append_of_pos hl]
  cases rest with
  | nil => simp
  | cons c rest => simp [hr c rfl]

/-- The scan stops at an item that fails. -/
theorem head?_dropWhile (p : α → Bool) (l : List α) : ∀ c ∈ (l.dropWhile p).head?, p c = false := by
  intro c hc
  induction l with
  | nil => cases hc
  | cons a l ih =>
    by_cases ha : p a = true
    · rw [List.dropWhile_cons_of_pos ha] at hc
      exact ih hc
    · rw [List.dropWhile_cons_of_neg ha] at hc
      cases hc
      exact Bool.eq_false_iff.mpr ha

end Wirekrak.Lib

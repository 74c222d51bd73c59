import Mathlib.Data.List.DropRight
import Mathlib.Data.List.Induction

/-!
# Wirekrak.Lib.Streak — the run a list ends with

* `streak a l`: how many copies of `a` the list `l` ends with; `replicate_suffix_iff` compares it with a length.
* `since mark h`: in a history of inputs and their outputs, the inputs after the last output that is a mark.
-/

namespace Wirekrak.Lib

variable {α β : Type*}

/-! ## Runs -/

section Streak

variable [DecidableEq α] {a b : α} {l : List α} {n : ℕ}

def streak (a : α) (l : List α) : ℕ := (l.rtakeWhile (fun x => x = a)).length

@[simp] theorem streak_nil : streak a [] = 0 := by
  simp [streak]

@[simp] theorem streak_concat_self : streak a (l ++ [a]) = streak a l + 1 := by
  simp [streak]

theorem streak_concat_of_ne (h : b ≠ a) : streak a (l ++ [b]) = 0 := by
  simp [streak, h]

theorem replicate_suffix_iff : List.replicate n a <:+ l ↔ n ≤ streak a l := by
  induction l using List.reverseRecOn generalizing n with
  | nil => simp
  | append_singleton l b ih =>
    cases n with
    | zero => simp
    | succ n =>
      rw [List.replicate_succ', List.suffix_concat_iff]
      by_cases hb : b = a
      · subst hb
        rw [streak_concat_self, Nat.add_le_add_iff_right, ← ih]
        simp
      · rw [streak_concat_of_ne hb]
        simp [Ne.symm hb]

end Streak

/-! ## Histories -/

section Since

variable {mark : β → Bool} {h : List (α × β)} {a : α} {b : β}

def since (mark : β → Bool) (h : List (α × β)) : List α := (h.rtakeWhile (fun x => !mark x.2)).map Prod.fst

@[simp] theorem since_nil : since mark ([] : List (α × β)) = [] := by
  simp [since]

theorem since_concat_of_mark (hb : mark b = true) : since mark (h ++ [(a, b)]) = [] := by
  simp [since, hb]

theorem since_concat (hb : mark b = false) : since mark (h ++ [(a, b)]) = since mark h ++ [a] := by
  simp [since, hb]

end Since

end Wirekrak.Lib

import Mathlib.Data.List.Basic

/-!
# Wirekrak.Lib.Fifo — bounded queues and alternating sequences

* `Fifo.push cap q x`: append unless `cap` items are queued; the item is refused otherwise.
* `Fifo.Moves cap q ins outs r`: pushing `ins` and popping `outs` in some order leads from `q` to `r`; items come
  out in the order they went in (`Moves.split`) and at most `cap` are held (`Moves.bound`).
* `Alternates a b l`: the list `l` reads `a, b, a, b, …`; the parity of its length tells the letter it is continued
  with (`Alternates.concat_even`, `Alternates.concat_odd`).
-/

namespace Wirekrak.Lib

variable {α : Type*}

/-- Append to a queue of at most `cap` items. -/
def Fifo.push (cap : ℕ) (q : List α) (x : α) : Option (List α) :=
  if q.length < cap then some (q ++ [x]) else none

theorem Fifo.push_some {cap : ℕ} {q : List α} (h : q.length < cap) (x : α) : push cap q x = some (q ++ [x]) :=
  if_pos h

theorem Fifo.push_none {cap : ℕ} {q : List α} (h : cap ≤ q.length) (x : α) : push cap q x = none :=
  if_neg (by omega)

/-! ## The bounded queue as a machine -/

/-- A queue of at most `cap` items goes from one content to another, some items pushed and some popped on the way. -/
inductive Fifo.Moves (cap : ℕ) (q : List α) : List α → List α → List α → Prop
  | refl : Moves cap q [] [] q
  | push {ins outs r r' : List α} {x : α} : Moves cap q ins outs r → push cap r x = some r' →
      Moves cap q (ins ++ [x]) outs r'
  | pop {ins outs r : List α} {x : α} : Moves cap q ins outs (x :: r) → Moves cap q ins (outs ++ [x]) r

namespace Fifo.Moves

variable {cap : ℕ} {q r ins outs : List α}

/-- Items come out in the order they went in. -/
theorem split (h : Moves cap q ins outs r) : q ++ ins = outs ++ r := by
  induction h with
  | refl => rw [List.append_nil, List.nil_append]
  | push _ hp ih =>
    unfold Fifo.push at hp
    split at hp
    · cases hp
      rw [← List.append_assoc, ih, List.append_assoc]
    · cases hp
  | pop _ ih => rw [ih, List.append_assoc, List.singleton_append]

theorem bound (h : Moves cap q ins outs r) (hq : q.length ≤ cap) : r.length ≤ cap := by
  induction h with
  | refl => exact hq
  | push _ hp _ =>
    unfold Fifo.push at hp
    split at hp
    · cases hp
      rw [List.length_append, List.length_singleton]
      omega
    · cases hp
  | pop _ ih => exact Nat.le_of_succ_le ih

/-- Items that fit together are pushed one after the other. -/
theorem pushes (h : Moves cap q ins outs r) (xs : List α) (hxs : r.length + xs.length ≤ cap) :
    Moves cap q (ins ++ xs) outs (r ++ xs) := by
  induction xs generalizing ins r with
  | nil => simpa using h
  | cons x xs ih =>
    rw [List.length_cons] at hxs
    have h1 := h.push (push_some (by omega) x)
    have h2 := ih h1 (by rw [List.length_append, List.length_singleton]; omega)
    simpa using h2

theorem pops (xs : List α) (h : Moves cap q ins outs (xs ++ r)) : Moves cap q ins (outs ++ xs) r := by
  induction xs generalizing outs with
  | nil => simpa using h
  | cons x xs ih =>
    have h1 := ih h.pop
    simpa using h1

theorem trans {ins' outs' t : List α} (h : Moves cap q ins outs r) (h' : Moves cap r ins' outs' t) :
    Moves cap q (ins ++ ins') (outs ++ outs') t := by
  induction h' with
  | refl => simpa using h
  | push _ hp ih =>
    rw [← List.append_assoc]
    exact ih.push hp
  | pop _ ih =>
    rw [← List.append_assoc]
    exact ih.pop

end Fifo.Moves

/-! ## Alternation -/

/-- The list reads `a, b, a, b, …`. -/
def Alternates (a b : α) : List α → Prop
  | [] => True
  | x :: l => x = a ∧ Alternates b a l

instance Alternates.decidable [DecidableEq α] : ∀ (a b : α) (l : List α), Decidable (Alternates a b l)
  | _, _, [] => inferInstanceAs (Decidable True)
  | a, b, x :: l =>
    have : Decidable (Alternates b a l) := Alternates.decidable b a l
    inferInstanceAs (Decidable (x = a ∧ Alternates b a l))

/-- An alternating list of even length is continued by `a`, one of odd length by `b`. -/
theorem Alternates.concat {a b : α} {l : List α} (h : Alternates a b l) :
    Alternates a b (l ++ [if l.length % 2 = 0 then a else b]) := by
  induction l generalizing a b with
  | nil => exact ⟨rfl, trivial⟩
  | cons x l ih =>
    refine ⟨h.1, ?_⟩
    have hl := ih h.2
    rw [List.length_cons]
    by_cases hp : l.length % 2 = 0
    · rw [if_pos hp] at hl
      rw [if_neg (by omega)]
      exact hl
    · rw [if_neg hp] at hl
      rw [if_pos (by omega)]
      exact hl

theorem Alternates.concat_even {a b : α} {l : List α} (h : Alternates a b l) (hl : l.length % 2 = 0) :
    Alternates a b (l ++ [a]) := by
  simpa only [if_pos hl] using h.concat

theorem Alternates.concat_odd {a b : α} {l : List α} (h : Alternates a b l) (hl : l.length % 2 = 1) :
    Alternates a b (l ++ [b]) := by
  have hne : ¬ l.length % 2 = 0 := by omega
  simpa only [if_neg hne] using h.concat

theorem Alternates.of_append {a b : α} {l l' : List α} (h : Alternates a b (l ++ l')) : Alternates a b l := by
  induction l generalizing a b with
  | nil => trivial
  | cons x l ih => exact ⟨h.1, ih h.2⟩

/-- What stands before an `a` has even length. -/
theorem Alternates.even_of_concat {a b : α} {l : List α} (hab : a ≠ b) (h : Alternates a b (l ++ [a])) :
    l.length % 2 = 0 := by
  have key : ∀ (l : List α) (a b x : α), a ≠ b → Alternates a b (l ++ [x]) →
      (x = a → l.length % 2 = 0) ∧ (x = b → l.length % 2 = 1) := by
    intro l
    induction l with
    | nil =>
      intro a b x hab h
      exact ⟨fun _ => rfl, fun hx => absurd (h.1.symm.trans hx) hab⟩
    | cons y l ih =>
      intro a b x hab h
      obtain ⟨hb, ha⟩ := ih b a x hab.symm h.2
      rw [List.length_cons]
      exact ⟨fun hx => by have := ha hx; omega, fun hx => by have := hb hx; omega⟩
  exact (key l a b a hab h).1 rfl

end Wirekrak.Lib

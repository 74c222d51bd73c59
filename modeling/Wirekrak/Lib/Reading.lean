import Mathlib.Data.List.Forall2

/-!
# Wirekrak.Lib.Reading — a reader beside the grammar it is meant for

A reader that takes one input for another value than it stands for goes wrong on particular inputs.  `Faithful` pairs
what is read with what is meant and names the inputs that are read as they are meant; it is put together from the parts
of an input.

* `Faithful.exact_iff`: the reader is exact on an input when it is clean, or neither reading takes it.
* `Faithful.through`, `Faithful.optional`, `Faithful.list`: the value behind a lookup, one that may be missing, and the
  elements of a list.
-/

namespace Wirekrak.Lib

/-- Clean inputs are read as they are meant, and an input read as it is meant is clean. -/
structure Faithful {X Y : Type} (actual intended : X → Y → Prop) (clean : X → Prop) : Prop where
  agree : ∀ {x y}, clean x → (actual x y ↔ intended x y)
  clean_of : ∀ {x y}, actual x y → intended x y → clean x

namespace Faithful

variable {X Y Z : Type} {actual intended : X → Y → Prop} {clean : X → Prop}

theorem refl (actual : X → Y → Prop) : Faithful actual actual fun _ => True := ⟨fun _ => Iff.rfl, fun _ _ => trivial⟩

theorem exact_iff (h : Faithful actual intended clean) (x : X) :
    (∀ y, actual x y ↔ intended x y) ↔ clean x ∨ ∀ y, ¬ actual x y ∧ ¬ intended x y := by
  constructor
  · intro hexact
    by_cases hy : ∃ y, actual x y
    · obtain ⟨y, hy⟩ := hy
      exact Or.inl (h.clean_of hy ((hexact y).mp hy))
    · exact Or.inr fun y => ⟨fun ha => hy ⟨y, ha⟩, fun hi => hy ⟨y, (hexact y).mpr hi⟩⟩
  · rintro (hclean | hnone) y
    · exact h.agree hclean
    · exact iff_of_false (hnone y).1 (hnone y).2

/-- The value that a lookup finds. -/
theorem through (h : Faithful actual intended clean) (get : Z → Option X) :
    Faithful (fun z y => ∃ x, get z = some x ∧ actual x y) (fun z y => ∃ x, get z = some x ∧ intended x y)
      fun z => ∀ x, get z = some x → clean x where
  agree hclean := exists_congr fun x => and_congr_right fun hx => h.agree (hclean x hx)
  clean_of := by
    rintro z y ⟨x, hx, ha⟩ ⟨x', hx', hi⟩ x'' hx''
    obtain rfl : x = x'' := Option.some.inj (hx.symm.trans hx'')
    obtain rfl : x = x' := Option.some.inj (hx.symm.trans hx')
    exact h.clean_of ha hi

/-- A value that may be missing. -/
theorem optional (h : Faithful actual intended clean) (get : Z → Option X) (absent : Z → Prop)
    (habsent : ∀ z, absent z → get z = none) :
    Faithful (fun z o => (absent z ∧ o = none) ∨ ∃ x y, get z = some x ∧ actual x y ∧ o = some y)
      (fun z o => (absent z ∧ o = none) ∨ ∃ x y, get z = some x ∧ intended x y ∧ o = some y)
      fun z => ∀ x, get z = some x → clean x where
  agree hclean := or_congr Iff.rfl <| exists_congr fun x => exists_congr fun _ =>
    and_congr_right fun hx => and_congr_left fun _ => h.agree (hclean x hx)
  clean_of := by
    rintro z o ha hi x hx
    rcases ha with ⟨hz, -⟩ | ⟨x', y, hx', ha, rfl⟩
    · rw [habsent z hz] at hx
      cases hx
    obtain rfl : x' = x := Option.some.inj (hx'.symm.trans hx)
    rcases hi with ⟨hz, -⟩ | ⟨x'', y', hx'', hi, hy⟩
    · rw [habsent z hz] at hx
      cases hx
    obtain rfl : x' = x'' := Option.some.inj (hx'.symm.trans hx'')
    obtain rfl := Option.some.inj hy
    exact h.clean_of ha hi

/-- The elements of a list. -/
theorem list (h : Faithful actual intended clean) :
    Faithful (List.Forall₂ actual) (List.Forall₂ intended) fun xs => ∀ x ∈ xs, clean x where
  agree := by
    intro xs ys hclean
    induction xs generalizing ys with
    | nil => simp
    | cons x xs ih =>
      cases ys with
      | nil => simp
      | cons y ys =>
        rw [List.forall₂_cons, List.forall₂_cons, h.agree (hclean x List.mem_cons_self),
          ih fun x' hx' => hclean x' (List.mem_cons_of_mem x hx')]
  clean_of := by
    intro xs ys ha hi
    induction ha with
    | nil => simp
    | cons hxy _ ih =>
      obtain ⟨hxy', hrest⟩ := List.forall₂_cons.mp hi
      intro x hx
      rcases List.mem_cons.mp hx with rfl | hx
      · exact h.clean_of hxy hxy'
      · exact ih hrest x hx

end Faithful

end Wirekrak.Lib

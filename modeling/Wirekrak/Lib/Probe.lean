import Mathlib.Data.List.Basic

/-!
# Wirekrak.Lib.Probe — linear probing

The slots of a table of `cap` slots are visited from `h` on, cyclically.  `firstSlot` is the first that `stop` holds of;
`Reached P j` says that `j` is visited, and that every slot visited before it satisfies `P`.
-/

namespace Wirekrak.Lib

def firstSlot (cap h : ℕ) (stop : ℕ → Bool) : Option ℕ :=
  ((List.range cap).find? (fun i => stop ((h + i) % cap))).map (fun i => (h + i) % cap)

def Reached (cap h : ℕ) (P : ℕ → Prop) (j : ℕ) : Prop :=
  ∃ i, i < cap ∧ j = (h + i) % cap ∧ ∀ i', i' < i → P ((h + i') % cap)

variable {cap h j : ℕ} {stop : ℕ → Bool} {P P' : ℕ → Prop}

theorem Reached.lt (hr : Reached cap h P j) : j < cap := by
  obtain ⟨i, hi, rfl, -⟩ := hr
  exact Nat.mod_lt _ (by omega)

theorem Reached.mono (hr : Reached cap h P j) (hP : ∀ j', j' < cap → P j' → P' j') : Reached cap h P' j := by
  obtain ⟨i, hi, hj, hb⟩ := hr
  exact ⟨i, hi, hj, fun i' hi' => hP _ (Nat.mod_lt _ (by omega)) (hb i' hi')⟩

theorem firstSlot_eq_some (hf : firstSlot cap h stop = some j) :
    stop j = true ∧ Reached cap h (fun j' => stop j' = false) j := by
  unfold firstSlot at hf
  obtain ⟨i, hi, rfl⟩ := Option.map_eq_some_iff.mp hf
  obtain ⟨h1, h2, h3⟩ := List.find?_range_eq_some.mp hi
  refine ⟨h1, i, List.mem_range.mp h2, rfl, fun i' hi' => ?_⟩
  simpa using h3 i' hi'

theorem firstSlot_of_reached (hs : stop j = true) (hr : Reached cap h (fun j' => stop j' = false) j) :
    firstSlot cap h stop = some j := by
  obtain ⟨i, hi, rfl, hb⟩ := hr
  unfold firstSlot
  have hfind : (List.range cap).find? (fun i => stop ((h + i) % cap)) = some i := by
    rw [List.find?_range_eq_some]
    exact ⟨hs, List.mem_range.mpr hi, fun i' hi' => by simpa using hb i' hi'⟩
  rw [hfind]
  rfl

/-- A probe that finds nothing has visited every slot. -/
theorem firstSlot_eq_none (hf : firstSlot cap h stop = none) (hj : j < cap) : stop j = false := by
  unfold firstSlot at hf
  rw [Option.map_eq_none_iff, List.find?_range_eq_none] at hf
  have hmod : (h + (j + (cap - h % cap)) % cap) % cap = j := by
    have hlt := Nat.mod_lt h (by omega : cap > 0)
    have hdiv := Nat.div_add_mod h cap
    rw [Nat.add_mod_mod, show h + (j + (cap - h % cap)) = j + cap + cap * (h / cap) by omega, Nat.add_mul_mod_self_left,
      Nat.add_mod_right, Nat.mod_eq_of_lt hj]
  have hstop := hf _ (Nat.mod_lt (j + (cap - h % cap)) (by omega))
  rw [hmod] at hstop
  simpa using hstop

end Wirekrak.Lib

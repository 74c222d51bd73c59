import Mathlib.Data.List.Induction

/-!
# Wirekrak.Lib.Run — runs of a labelled step relation

`Run step ok s as u`: the actions `as`, taken one after the other from `s`, lead to `u`; every action met the
condition `ok` in the state it was taken in.  `step` is a relation, so that a partial or a nondeterministic
component fits; a function `f` is used as `fun s a u => f s a = u` (or `= some u`, `= .ok u`).

* `Run.invariant`: what holds at the start and is kept by every admitted step holds at the end.
* `Run.simulates`: a run of a component whose steps are those of a function, seen through an abstraction.
* `Run.mono`: a stronger condition gives fewer runs; `Run.trans`: one run after another.
* `Run.of_admitted`, `Run.of_foldlM`: a run of a function, its conditions checked by evaluation.
* `forall_prefix_iff_admitted`: when a condition is exact for a step, it is exact for whole runs.
* `Inevitable`: on every schedule a state is reached; `Inevitable.of_measure`.
* `getElem?_append_of_some`, `getElem?_concat_eq_some`: histories that only grow.
-/

namespace Wirekrak.Lib

variable {σ α : Type*}

/-- The runs of `step` whose actions all meet `ok`; the last action is the last of the list. -/
inductive Run (step : σ → α → σ → Prop) (ok : σ → α → Prop) (s : σ) : List α → σ → Prop
  | nil : Run step ok s [] s
  | snoc {as : List α} {t u : σ} {a : α} : Run step ok s as t → ok t a → step t a u →
      Run step ok s (as ++ [a]) u

namespace Run

variable {step : σ → α → σ → Prop} {ok ok' : σ → α → Prop} {s u : σ} {as : List α}

/-- **Invariant rule.** -/
theorem invariant {I : σ → Prop} (h : Run step ok s as u) (h0 : I s)
    (hstep : ∀ t a v, I t → ok t a → step t a v → I v) : I u := by
  induction h with
  | nil => exact h0
  | snoc _ hok hs ih => exact hstep _ _ _ ih hok hs

theorem mono (h : Run step ok s as u) (himp : ∀ t a, ok t a → ok' t a) : Run step ok' s as u := by
  induction h with
  | nil => exact .nil
  | snoc _ hok hs ih => exact .snoc ih (himp _ _ hok) hs

theorem trans {t : σ} {bs : List α} (h : Run step ok s as t) (h' : Run step ok t bs u) :
    Run step ok s (as ++ bs) u := by
  induction h' with
  | nil =>
    rw [List.append_nil]
    exact h
  | snoc _ hok hs ih =>
    rw [← List.append_assoc]
    exact .snoc ih hok hs

/-- **Simulation rule**: if every admitted step is a step of `f`, seen through `abs`, then so is a run. -/
theorem simulates {τ : Type*} {I : σ → Prop} {abs : σ → τ} {f : τ → α → τ} (h : Run step ok s as u) (h0 : I s)
    (hstep : ∀ t a v, I t → ok t a → step t a v → I v ∧ abs v = f (abs t) a) : I u ∧ abs u = as.foldl f (abs s) := by
  induction h with
  | nil => exact ⟨h0, rfl⟩
  | snoc _ hok hs ih =>
    obtain ⟨hI, habs⟩ := ih
    obtain ⟨hI', habs'⟩ := hstep _ _ _ hI hok hs
    rw [List.foldl_append, ← habs]
    exact ⟨hI', habs'⟩

/-- The last step of a run. -/
theorem of_concat {a : α} (h : Run step ok s (as ++ [a]) u) : ∃ t, Run step ok s as t ∧ ok t a ∧ step t a u := by
  generalize hl : as ++ [a] = l at h
  cases h with
  | nil => simp at hl
  | snoc h hok hs =>
    obtain ⟨rfl, h1⟩ := List.append_inj' hl rfl
    cases h1
    exact ⟨_, h, hok, hs⟩

end Run

/-! ## What is reached on every schedule -/

/-- `P` is reached, whichever steps are taken: as long as it is not, there is a step to take. -/
inductive Inevitable (step : σ → α → σ → Prop) (P : σ → Prop) : σ → Prop
  | now {s : σ} : P s → Inevitable step P s
  | later {s : σ} : (∃ a u, step s a u) → (∀ a u, step s a u → Inevitable step P u) → Inevitable step P s

/-- **Measure rule**: a step can be taken, and every step lowers the measure. -/
theorem Inevitable.of_measure {step : σ → α → σ → Prop} {P I : σ → Prop} {f : σ → ℕ}
    (hprog : ∀ s, I s → ¬ P s → ∃ a u, step s a u)
    (hstep : ∀ s a u, I s → ¬ P s → step s a u → I u ∧ f u < f s) {s : σ} (hs : I s) : Inevitable step P s := by
  obtain ⟨n, hn⟩ : ∃ n, f s = n := ⟨_, rfl⟩
  induction n using Nat.strongRecOn generalizing s with
  | ind n ih =>
    by_cases hP : P s
    · exact .now hP
    · refine .later (hprog s hs hP) (fun a u ha => ?_)
      obtain ⟨hu, hlt⟩ := hstep s a u hs hP ha
      exact ih _ (hn ▸ hlt) hu rfl

/-! ## Runs that are evaluated -/

section Evaluate

variable (f : σ → α → σ) (ok : σ → α → Prop)

/-- Every action meets its condition in the state that `f` has reached. -/
def Admitted : σ → List α → Prop
  | _, [] => True
  | s, a :: as => ok s a ∧ Admitted (f s a) as

instance decidableAdmitted [∀ s a, Decidable (ok s a)] : ∀ s as, Decidable (Admitted f ok s as)
  | _, [] => inferInstanceAs (Decidable True)
  | s, a :: as =>
    have : Decidable (Admitted f ok (f s a) as) := decidableAdmitted (f s a) as
    inferInstanceAs (Decidable (ok s a ∧ Admitted f ok (f s a) as))

variable {f ok} {step : σ → α → σ → Prop}

theorem admitted_concat {a : α} : ∀ {as : List α} {s : σ},
    Admitted f ok s (as ++ [a]) ↔ Admitted f ok s as ∧ ok (as.foldl f s) a := by
  intro as
  induction as with
  | nil => intro s; simp [Admitted]
  | cons b as ih =>
    intro s
    simp only [List.cons_append, Admitted, ih, List.foldl_cons, and_assoc]

theorem forall_prefix_concat {p : List α → Prop} {as : List α} {a : α} :
    (∀ bs, bs <+: as ++ [a] → p bs) ↔ (∀ bs, bs <+: as → p bs) ∧ p (as ++ [a]) := by
  simp only [List.prefix_concat_iff]
  constructor
  · exact fun h => ⟨fun bs hbs => h bs (Or.inr hbs), h _ (Or.inl rfl)⟩
  · rintro ⟨h1, h2⟩ bs (rfl | hbs)
    · exact h2
    · exact h1 bs hbs

theorem Admitted.of_prefix {s : σ} {as : List α} (h : Admitted f ok s as) : ∀ bs, bs <+: as → Admitted f ok s bs := by
  induction as using List.reverseRecOn with
  | nil => intro bs hbs; rwa [List.prefix_nil.mp hbs]
  | append_singleton as a ih => exact forall_prefix_concat.mpr ⟨ih (admitted_concat.mp h).1, h⟩

/-- **Exactness rule.**  Where a step keeps `I` just when it meets `ok`, all states of a run have `I` just when all its
actions meet `ok`. -/
theorem forall_prefix_iff_admitted {I : σ → Prop} {s : σ} {as : List α} (h0 : I s)
    (hstep : ∀ bs a, bs ++ [a] <+: as → Admitted f ok s bs → I (bs.foldl f s) →
      (I (f (bs.foldl f s) a) ↔ ok (bs.foldl f s) a)) :
    (∀ bs, bs <+: as → I (bs.foldl f s)) ↔ Admitted f ok s as := by
  induction as using List.reverseRecOn with
  | nil =>
    refine iff_of_true (fun bs hbs => ?_) trivial
    rw [List.prefix_nil.mp hbs]
    exact h0
  | append_singleton as a ih =>
    rw [forall_prefix_concat, admitted_concat, List.foldl_append, List.foldl_cons, List.foldl_nil]
    have ih' := ih fun bs b hbs => hstep bs b (hbs.trans (List.prefix_append _ _))
    constructor
    · rintro ⟨h1, h2⟩
      exact ⟨ih'.mp h1, (hstep as a List.prefix_rfl (ih'.mp h1) (h1 as List.prefix_rfl)).mp h2⟩
    · rintro ⟨h1, h2⟩
      exact ⟨ih'.mpr h1, (hstep as a List.prefix_rfl h1 (ih'.mpr h1 as List.prefix_rfl)).mpr h2⟩

theorem Run.cons {s t u : σ} {a : α} {as : List α} (hok : ok s a) (hs : step s a t) (h : Run step ok t as u) :
    Run step ok s (a :: as) u := by
  induction h with
  | nil => exact .snoc  .nil hok hs
  | snoc _ hok' hs' ih => exact .snoc ih hok' hs'

theorem Run.of_admitted (hf : ∀ s a, ok s a → step s a (f s a)) : ∀ {as : List α} {s : σ}, Admitted f ok s as →
    Run step ok s as (as.foldl f s) := by
  intro as
  induction as with
  | nil => intro s _; exact .nil
  | cons a as ih =>
    rintro s ⟨hok, h⟩
    exact .cons hok (hf s a hok) (ih h)

/-- The run of a partial function. -/
theorem Run.of_foldlM {f : σ → α → Option σ} : ∀ {as : List α} {s u : σ}, as.foldlM f s = some u →
    Run (fun s a u => f s a = some u) (fun _ _ => True) s as u := by
  intro as
  induction as with
  | nil =>
    intro s u h
    cases h
    exact .nil
  | cons a as ih =>
    intro s u h
    rw [List.foldlM_cons] at h
    obtain ⟨t, ht, h⟩ := Option.bind_eq_some_iff.mp h
    exact .cons trivial ht (ih h)

end Evaluate

/-! ## Histories that only grow -/

section History

variable {l : List α} {k : ℕ} {a b : α}

theorem getElem?_append_of_some (h : l[k]? = some a) (l' : List α) : (l ++ l')[k]? = some a := by
  rw [List.getElem?_append_left (List.getElem?_eq_some_iff.mp h).1]
  exact h

theorem getElem?_concat_eq_some : (l ++ [a])[k]? = some b ↔ l[k]? = some b ∨ (k = l.length ∧ a = b) := by
  constructor
  · intro h
    rcases Nat.lt_trichotomy k l.length with hk | hk | hk
    · rw [List.getElem?_append_left hk] at h
      exact .inl h
    · rw [hk, List.getElem?_concat_length] at h
      exact .inr ⟨hk, Option.some.inj h⟩
    · rw [List.getElem?_eq_none (by simp; omega)] at h
      cases h
  · rintro (h | ⟨rfl, rfl⟩)
    · exact getElem?_append_of_some h _
    · exact List.getElem?_concat_length

end History

end Wirekrak.Lib

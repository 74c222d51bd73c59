import Wirekrak.Lib.Run

/-!
# Wirekrak.Lib.Reach — states from which a goal can still be reached

`CanReach f ok P s`: some admitted actions lead from `s` to a state with `P`.  A trap is a set of states that is not
left again and in which `P` does not hold.  A thread that sleeps after its last notification is in one.

* `CanReach.of_step`, `CanReach.of_measure`: going on by one action, and by actions that lower a measure.
* `not_canReach`: nothing is reached from a trap.
* `canReach_iff_admitted`: where a step is known to enter the trap just when it breaks a condition, the goal stays in
  reach throughout a run just when all actions of the run meet the condition.
-/

namespace Wirekrak.Lib

variable {σ α : Type*} (f : σ → α → σ) (ok : σ → α → Prop) (P : σ → Prop)

/-- Admitted actions lead to `P`. -/
def CanReach (s : σ) : Prop := ∃ as, Admitted f ok s as ∧ P (as.foldl f s)

variable {f ok P} {s : σ}

theorem CanReach.now (h : P s) : CanReach f ok P s := ⟨[], trivial, h⟩

theorem CanReach.of_step {a : α} (hok : ok s a) (h : CanReach f ok P (f s a)) : CanReach f ok P s := by
  obtain ⟨as, has, hP⟩ := h
  exact ⟨a :: as, ⟨hok, has⟩, hP⟩

/-- **Measure rule**: as long as the goal is not there, some action keeps the invariant and lowers the measure. -/
theorem CanReach.of_measure {I : σ → Prop} (m : σ → ℕ)
    (hstep : ∀ s, I s → ¬ P s → ∃ a, ok s a ∧ I (f s a) ∧ m (f s a) < m s) (hs : I s) : CanReach f ok P s := by
  obtain ⟨n, hn⟩ : ∃ n, m s = n := ⟨_, rfl⟩
  induction n using Nat.strongRecOn generalizing s with
  | ind n ih =>
    by_cases hP : P s
    · exact .now hP
    · obtain ⟨a, hok, hI, hlt⟩ := hstep s hs hP
      exact (ih _ (hn ▸ hlt) hI rfl).of_step hok

section Trap

variable {I Trap : σ → Prop} {cond : σ → α → Prop} (hI : ∀ s a, I s → ok s a → I (f s a))

include hI

theorem Admitted.keeps {as : List α} (has : Admitted f ok s as) (hs : I s) : I (as.foldl f s) := by
  induction as generalizing s with
  | nil => exact hs
  | cons a as ih => exact ih has.2 (hI s a hs has.1)

theorem not_canReach (htrap : ∀ s a, I s → Trap s → ok s a → Trap (f s a)) (hP : ∀ s, Trap s → ¬ P s) (hs : I s)
    (ht : Trap s) : ¬ CanReach f ok P s := by
  rintro ⟨as, has, h⟩
  have key := has.keeps (I := fun s => I s ∧ Trap s) (fun s a h hok => ⟨hI s a h.1 hok, htrap s a h.1 h.2 hok⟩) ⟨hs, ht⟩
  exact hP _ key.2 h

/-- **Trap rule.** -/
theorem canReach_iff_admitted {as : List α} (hs : I s) (h0 : ¬ Trap s) (hok : Admitted f ok s as)
    (hlive : ∀ s, I s → ¬ Trap s → CanReach f ok P s)
    (htrap : ∀ s a, I s → Trap s → ok s a → Trap (f s a)) (hP : ∀ s, Trap s → ¬ P s)
    (hstep : ∀ s a, I s → ¬ Trap s → ok s a → (¬ Trap (f s a) ↔ cond s a)) :
    (∀ bs, bs <+: as → CanReach f ok P (bs.foldl f s)) ↔ Admitted f cond s as := by
  have hinv : ∀ bs, bs <+: as → I (bs.foldl f s) := fun bs hbs => (hok.of_prefix bs hbs).keeps hI hs
  have hiff : ∀ s, I s → (CanReach f ok P s ↔ ¬ Trap s) := fun s hs =>
    ⟨fun h ht => not_canReach hI htrap hP hs ht h, hlive s hs⟩
  rw [← forall_prefix_iff_admitted (I := fun s => ¬ Trap s) h0]
  · exact forall₂_congr fun bs hbs => hiff _ (hinv bs hbs)
  · intro bs a hbs _ ht
    have hlast := (admitted_concat.mp (hok.of_prefix _ hbs)).2
    exact hstep _ a (hinv bs ((List.prefix_append _ _).trans hbs)) ht hlast

end Trap

end Wirekrak.Lib

import Mathlib.Data.List.Basic

/-!
# Wirekrak.Lib.Reactive — sequential components with outputs

`f : σ → α → σ × List β` answers an input with a new state and some outputs.  `after f s as` is its state after the
inputs `as`, and `output f s as` what it has put out on the way; `after_append`, `output_append` cut the inputs in two.
`output_eq_log`: a component that keeps a log of its outputs.
`output_eq_of_rel`: two components related step by step answer alike.
-/

namespace Wirekrak.Lib.Reactive

variable {σ α β : Type*} (f : σ → α → σ × List β)

def after : σ → List α → σ
  | s, [] => s
  | s, a :: as => after (f s a).1 as

def output : σ → List α → List β
  | _, [] => []
  | s, a :: as => (f s a).2 ++ output (f s a).1 as

@[simp] theorem after_nil (s : σ) : after f s [] = s := rfl

@[simp] theorem output_nil (s : σ) : output f s [] = [] := rfl

@[simp] theorem after_cons (s : σ) (a : α) (as : List α) : after f s (a :: as) = after f (f s a).1 as := rfl

@[simp] theorem output_cons (s : σ) (a : α) (as : List α) :
    output f s (a :: as) = (f s a).2 ++ output f (f s a).1 as := rfl

@[simp] theorem after_append (s : σ) (as bs : List α) : after f s (as ++ bs) = after f (after f s as) bs := by
  induction as generalizing s with
  | nil => rfl
  | cons a as ih => exact ih _

theorem after_eq_foldl (s : σ) (as : List α) : after f s as = as.foldl (fun s a => (f s a).1) s := by
  induction as generalizing s with
  | nil => rfl
  | cons a as ih => exact ih _

@[simp] theorem output_append (s : σ) (as bs : List α) :
    output f s (as ++ bs) = output f s as ++ output f (after f s as) bs := by
  induction as generalizing s with
  | nil => rfl
  | cons a as ih => simp [ih]

variable {f}

/-- A component that appends its outputs to a log has put out what the log has grown by. -/
theorem output_eq_log (log : σ → List β) (hlog : ∀ s a, log (f s a).1 = log s ++ (f s a).2) (s : σ) (as : List α) :
    log (after f s as) = log s ++ output f s as := by
  induction as generalizing s with
  | nil => exact (List.append_nil _).symm
  | cons a as ih => rw [after_cons, ih, hlog, output_cons, List.append_assoc]

/-- **Simulation rule**: components whose states are related, and stay so with equal answers, answer alike for ever. -/
theorem output_eq_of_rel {τ : Type*} {g : τ → α → τ × List β} (R : σ → τ → Prop) (ok : α → Prop)
    (hstep : ∀ s t a, ok a → R s t → R (f s a).1 (g t a).1 ∧ (f s a).2 = (g t a).2) {s : σ} {t : τ} (hR : R s t)
    {as : List α} (hok : ∀ a ∈ as, ok a) : R (after f s as) (after g t as) ∧ output f s as = output g t as := by
  induction as generalizing s t with
  | nil => exact ⟨hR, rfl⟩
  | cons a as ih =>
    obtain ⟨hR', hout⟩ := hstep s t a (hok a List.mem_cons_self) hR
    obtain ⟨hafter, houts⟩ := ih hR' fun b hb => hok b (List.mem_cons_of_mem _ hb)
    rw [after_cons, after_cons, output_cons, output_cons, hout, houts]
    exact ⟨hafter, rfl⟩

end Wirekrak.Lib.Reactive

import Mathlib.Algebra.GroupWithZero.Nat
import Mathlib.Algebra.BigOperators.Group.List.Basic
import Mathlib.Data.List.Induction
import Mathlib.Logic.Function.Basic

/-!
# Wirekrak.Metrics.Stats — what a sequence of samples leaves in the statistics

`sampler`, `duration`, `operation` and `size` record a sample by the same operations on counters and on the two extremes.
The operations are listed once, in the order of the source; the plain statistics perform them one sample after another.

* `record_counter`, `record_bound`: what one sample changes.
* `Best`: an extreme of the samples and of the value at the start; `Best.unique`.
* `counter_recordAll`, `best_recordAll`: what any list of samples leaves.
-/

namespace Wirekrak.Metrics

/-- `total_` (`accumulated_` in `size`), `samples_` and `success_`; all of 64 bits. -/
inductive Counter
  | total
  | samples
  | success
  deriving DecidableEq

inductive Side
  | min
  | max
  deriving DecidableEq

/-- One operation on the statistics: an addition to a counter, or the comparison with an extreme. -/
inductive Instr
  | count (c : Counter)
  | bound (s : Side)
  deriving DecidableEq

structure Sample where
  value : ℕ
  ok : Bool := true
  deriving DecidableEq

def Counter.amount : Counter → Sample → ℕ
  | .total, r => r.value
  | .samples, _ => 1
  | .success, r => if r.ok then 1 else 0

/-- The comparison that makes a value the new extreme. -/
def Side.Better : Side → ℕ → ℕ → Prop
  | .min, a, b => a < b
  | .max, a, b => b < a

instance (s : Side) : DecidableRel s.Better := fun a b =>
  match s with
  | .min => inferInstanceAs (Decidable (a < b))
  | .max => inferInstanceAs (Decidable (b < a))

/-- `std::numeric_limits<T>::max()` for the minimum, zero for the maximum. -/
def Side.initial (w : ℕ) : Side → ℕ
  | .min => 2 ^ w - 1
  | .max => 0

/-- The operations of one record; none is made twice. -/
structure Program where
  steps : List Instr
  nodup : steps.Nodup

theorem nodup_record : [Instr.count .total, .count .samples, .bound .min, .bound .max].Nodup := by decide

theorem nodup_recordOk :
    [Instr.count .total, .count .samples, .count .success, .bound .min, .bound .max].Nodup := by decide

/-- `sampler::record`. -/
def Sampler.record : Program := ⟨[.count .total, .count .samples, .bound .min, .bound .max], nodup_record⟩

/-- `duration::record_duration`. -/
def Duration.recordDuration : Program := ⟨[.count .total, .count .samples, .bound .min, .bound .max], nodup_record⟩

/-- `operation::record_duration`. -/
def Operation.recordDuration : Program :=
  ⟨[.count .total, .count .samples, .count .success, .bound .min, .bound .max], nodup_recordOk⟩

/-- `size::update_extremes_`. -/
def Size.updateExtremes : Program := ⟨[.count .total, .count .samples, .bound .min, .bound .max], nodup_record⟩

/-! ## The plain statistics -/

structure Stats where
  counter : Counter → ℕ
  bound : Side → ℕ

namespace Stats

/-- The constructor, for samples of `w` bits. -/
def fresh (w : ℕ) : Stats := { counter := fun _ => 0, bound := Side.initial w }

def exec (r : Sample) (st : Stats) : Instr → Stats
  | .count c => { st with counter := Function.update st.counter c ((st.counter c + c.amount r) % 2 ^ 64) }
  | .bound s => if s.Better r.value (st.bound s) then { st with bound := Function.update st.bound s r.value } else st

def record (p : Program) (st : Stats) (r : Sample) : Stats := p.steps.foldl (exec r) st

def recordAll (p : Program) (st : Stats) (rs : List Sample) : Stats := rs.foldl (record p) st

variable {p : Program} {st : Stats} {r : Sample} {c : Counter} {s : Side} {w : ℕ}

theorem exec_count (d : Counter) : st.exec r (.count d) =
    { st with counter := Function.update st.counter d ((st.counter d + d.amount r) % 2 ^ 64) } := rfl

theorem exec_bound (t : Side) : st.exec r (.bound t) =
    if t.Better r.value (st.bound t) then { st with bound := Function.update st.bound t r.value } else st := rfl

theorem counter_exec (i : Instr) : (st.exec r i).counter c =
    if i = .count c then (st.counter c + c.amount r) % 2 ^ 64 else st.counter c := by
  cases i with
  | count d =>
    rw [exec_count]
    by_cases hd : d = c
    · subst hd
      simp
    · rw [if_neg (by simpa using hd)]
      exact Function.update_of_ne (Ne.symm hd) _ _
  | bound t =>
    have hne : Instr.bound t ≠ .count c := by simp
    rw [exec_bound, if_neg hne]
    split <;> rfl

theorem bound_exec (i : Instr) : (st.exec r i).bound s =
    if i = .bound s ∧ s.Better r.value (st.bound s) then r.value else st.bound s := by
  cases i with
  | count d => simp [exec_count]
  | bound t =>
    rw [exec_bound]
    by_cases ht : t = s
    · subst ht
      simp only [true_and]
      split
      · exact Function.update_self _ _ _
      · rfl
    · have hne : ¬ (Instr.bound t = .bound s ∧ s.Better r.value (st.bound s)) := by simp [ht]
      rw [if_neg hne]
      split
      · exact Function.update_of_ne (Ne.symm ht) _ _
      · rfl

theorem foldl_counter {is : List Instr} (h : is.Nodup) : (is.foldl (exec r) st).counter c =
    if .count c ∈ is then (st.counter c + c.amount r) % 2 ^ 64 else st.counter c := by
  induction is generalizing st with
  | nil => simp
  | cons i is ih =>
    obtain ⟨hi, h⟩ := List.nodup_cons.mp h
    rw [List.foldl_cons, ih h, counter_exec]
    by_cases hc : i = .count c
    · subst hc
      simp [hi]
    · simp [hc, Ne.symm hc]

theorem foldl_bound {is : List Instr} (h : is.Nodup) : (is.foldl (exec r) st).bound s =
    if .bound s ∈ is ∧ s.Better r.value (st.bound s) then r.value else st.bound s := by
  induction is generalizing st with
  | nil => simp
  | cons i is ih =>
    obtain ⟨hi, h⟩ := List.nodup_cons.mp h
    rw [List.foldl_cons, ih h, bound_exec]
    by_cases hs : i = .bound s
    · subst hs
      simp [hi]
    · simp [hs, Ne.symm hs]

theorem record_counter : (st.record p r).counter c =
    if .count c ∈ p.steps then (st.counter c + c.amount r) % 2 ^ 64 else st.counter c :=
  foldl_counter p.nodup

theorem record_bound : (st.record p r).bound s =
    if .bound s ∈ p.steps ∧ s.Better r.value (st.bound s) then r.value else st.bound s :=
  foldl_bound p.nodup

end Stats

/-! ## Extremes -/

theorem Side.asymm {s : Side} {a b : ℕ} (h : s.Better a b) : ¬ s.Better b a := by
  cases s <;> simp only [Side.Better] at h ⊢ <;> omega

theorem Side.trans {s : Side} {a b d : ℕ} (h : ¬ s.Better a b) (h' : ¬ s.Better b d) : ¬ s.Better a d := by
  cases s <;> simp only [Side.Better] at h h' ⊢ <;> omega

theorem Side.eq_of_not_better {s : Side} {a b : ℕ} (h : ¬ s.Better a b) (h' : ¬ s.Better b a) : a = b := by
  cases s <;> simp only [Side.Better] at h h' <;> omega

/-- The extreme of the samples and of the value `i` at the start. -/
structure Best (s : Side) (i : ℕ) (rs : List Sample) (m : ℕ) : Prop where
  initial : ¬ s.Better i m
  samples : ∀ r ∈ rs, ¬ s.Better r.value m
  origin : m = i ∨ ∃ r ∈ rs, r.value = m

theorem Best.not_better {s : Side} {i m m' : ℕ} {rs : List Sample} (h : Best s i rs m) (h' : Best s i rs m') :
    ¬ s.Better m' m := by
  rcases h'.origin with rfl | ⟨r, hr, rfl⟩
  · exact h.initial
  · exact h.samples r hr

theorem Best.unique {s : Side} {i m m' : ℕ} {rs : List Sample} (h : Best s i rs m) (h' : Best s i rs m') : m = m' :=
  Side.eq_of_not_better (h'.not_better h) (h.not_better h')

theorem Best.concat {s : Side} {i m : ℕ} {rs : List Sample} (h : Best s i rs m) (r : Sample) :
    Best s i (rs ++ [r]) (if s.Better r.value m then r.value else m) := by
  by_cases hr : s.Better r.value m
  · rw [if_pos hr]
    refine ⟨Side.trans h.initial (Side.asymm hr), fun q hq => ?_, .inr ⟨r, by simp, rfl⟩⟩
    rcases List.mem_append.mp hq with hq | hq
    · exact Side.trans (h.samples q hq) (Side.asymm hr)
    · rw [List.mem_singleton.mp hq]
      exact fun hlt => Side.asymm hlt hlt
  · rw [if_neg hr]
    refine ⟨h.initial, fun q hq => ?_, ?_⟩
    · rcases List.mem_append.mp hq with hq | hq
      · exact h.samples q hq
      · rwa [List.mem_singleton.mp hq]
    · obtain hi | ⟨q, hq, hm⟩ := h.origin
      · exact .inl hi
      · exact .inr ⟨q, List.mem_append_left _ hq, hm⟩

namespace Stats

variable {p : Program} {rs : List Sample} {c : Counter} {s : Side} {w : ℕ}

theorem recordAll_concat (st : Stats) (r : Sample) : st.recordAll p (rs ++ [r]) = (st.recordAll p rs).record p r := by
  simp [recordAll]

/-- A counter that a record adds to holds the sum, in 64 bits. -/
theorem counter_recordAll : ((fresh w).recordAll p rs).counter c =
    if .count c ∈ p.steps then (rs.map c.amount).sum % 2 ^ 64 else 0 := by
  induction rs using List.reverseRecOn with
  | nil => simp [recordAll, fresh]
  | append_singleton rs r ih =>
    rw [recordAll_concat, record_counter, ih]
    by_cases hc : .count c ∈ p.steps
    · simp [hc]
    · simp [hc]

theorem best_recordAll (hs : .bound s ∈ p.steps) :
    Best s (s.initial w) rs (((fresh w).recordAll p rs).bound s) := by
  induction rs using List.reverseRecOn with
  | nil => exact ⟨fun h => Side.asymm h h, by simp, .inl rfl⟩
  | append_singleton rs r ih =>
    rw [recordAll_concat, record_bound]
    simpa [hs] using ih.concat r

theorem bound_recordAll_of_not_mem (hs : .bound s ∉ p.steps) :
    ((fresh w).recordAll p rs).bound s = s.initial w := by
  induction rs using List.reverseRecOn with
  | nil => rfl
  | append_singleton rs r ih =>
    rw [recordAll_concat, record_bound, ih]
    simp [hs]

end Stats

end Wirekrak.Metrics

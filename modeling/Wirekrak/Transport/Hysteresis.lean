import Mathlib.Algebra.Group.Nat.Defs
import Wirekrak.Lib.Streak
import Wirekrak.Transport.Engine

/-!
# Wirekrak.Transport.Hysteresis — the hysteresis against the definition of its transitions

`BinaryHysteresis` with its 32-bit counters.  Between two calls it always waits for a run of the signals opposite to
its state (`waiting`): only their counter can differ from zero.

* `hysteresis_exact`: a transition is returned at just the signals that complete a run.
* `after_nat`: `Hysteresis`, on which `Transport.Engine` runs, counts in the natural numbers and is in the same state after
  all signals: the transitions of the engine are those that `hysteresis_exact` is about.
-/

namespace Wirekrak.Transport

open Wirekrak.Lib

/-- The template arguments, with what is asserted of them. -/
structure Thresholds where
  activate : UInt32
  deactivate : UInt32
  activate_pos : 0 < activate
  activate_lt : activate < 0xFFFFFFFF
  deactivate_pos : 0 < deactivate
  deactivate_lt : deactivate < 0xFFFFFFFF

/-- `State`; it also names the two signals. -/
inductive BinaryHysteresis.State
  | inactive
  | active
  deriving DecidableEq, Repr

structure BinaryHysteresis where
  state : BinaryHysteresis.State := .inactive
  activateStreak : UInt32 := 0
  deactivateStreak : UInt32 := 0
  deriving DecidableEq

namespace BinaryHysteresis

def onActiveSignal (t : Thresholds) (h : BinaryHysteresis) : BinaryHysteresis × Transition :=
  let h := { h with deactivateStreak := 0 }
  match h.state with
  | .inactive =>
    let h := { h with activateStreak := h.activateStreak + 1 }
    if t.activate ≤ h.activateStreak then ({ h with state := .active, activateStreak := 0 }, .activated)
    else (h, .none)
  | .active => ({ h with activateStreak := 0 }, .none)

def onInactiveSignal (t : Thresholds) (h : BinaryHysteresis) : BinaryHysteresis × Transition :=
  let h := { h with activateStreak := 0 }
  match h.state with
  | .active =>
    let h := { h with deactivateStreak := h.deactivateStreak + 1 }
    if t.deactivate ≤ h.deactivateStreak then ({ h with state := .inactive, deactivateStreak := 0 }, .deactivated)
    else (h, .none)
  | .inactive => ({ h with deactivateStreak := 0 }, .none)

def onSignal (t : Thresholds) (h : BinaryHysteresis) : State → BinaryHysteresis × Transition
  | .active => h.onActiveSignal t
  | .inactive => h.onInactiveSignal t

/-! ## Histories -/

/-- The hysteresis after a sequence of signals. -/
def after (t : Thresholds) (ss : List State) : BinaryHysteresis :=
  ss.foldl (fun h s => (h.onSignal t s).1) {}

/-- What the next signal returns. -/
def output (t : Thresholds) (ss : List State) (s : State) : Transition := ((after t ss).onSignal t s).2

/-- The signals, each with the transition that it returned. -/
def traceFrom (t : Thresholds) : BinaryHysteresis → List State → List (State × Transition)
  | _, [] => []
  | h, s :: ss => (s, (h.onSignal t s).2) :: traceFrom t (h.onSignal t s).1 ss

def trace (t : Thresholds) (ss : List State) : List (State × Transition) := traceFrom t {} ss

def transitions (l : List (State × Transition)) : List Transition :=
  (l.map Prod.snd).filter (fun x => x ≠ .none)

/-- The state that the last transition has led to. -/
def stateOf (l : List (State × Transition)) : State :=
  if (transitions l).getLast? = some .activated then .active else .inactive

/-- The signals after the last transition. -/
def sinceLast (l : List (State × Transition)) : List State := since (fun x => decide (x ≠ .none)) l

variable {t : Thresholds} {s : State} {ss : List State} {k : UInt32}

@[simp] theorem after_nil : after t [] = {} := rfl

theorem after_concat : after t (ss ++ [s]) = ((after t ss).onSignal t s).1 := by
  simp [after]

theorem traceFrom_concat {h : BinaryHysteresis} : traceFrom t h (ss ++ [s]) = traceFrom t h ss ++
    [(s, ((ss.foldl (fun h s => (h.onSignal t s).1) h).onSignal t s).2)] := by
  induction ss generalizing h with
  | nil => rfl
  | cons a ss ih => simp [traceFrom, ih]

theorem trace_concat : trace t (ss ++ [s]) = trace t ss ++ [(s, output t ss s)] :=
  traceFrom_concat

theorem transitions_concat_none {l : List (State × Transition)} : transitions (l ++ [(s, .none)]) = transitions l := by
  simp [transitions]

theorem transitions_concat {l : List (State × Transition)} {x : Transition} (hx : x ≠ .none) :
    transitions (l ++ [(s, x)]) = transitions l ++ [x] := by
  simp [transitions, hx]

/-! ## Waiting for a run -/

/-- The two signals are each other's opposite. -/
def State.opp : State → State
  | .active => .inactive
  | .inactive => .active

/-- The transition into a state. -/
def State.entered : State → Transition
  | .active => .activated
  | .inactive => .deactivated

@[simp] theorem State.opp_opp (s : State) : s.opp.opp = s := by
  cases s <;> rfl

theorem State.opp_ne (s : State) : s.opp ≠ s := by
  cases s <;> decide

theorem State.eq_or_eq_opp (s x : State) : x = s ∨ x = s.opp := by
  cases s <;> cases x <;> simp [opp]

theorem State.entered_ne (s : State) : s.entered ≠ .none := by
  cases s <;> decide

theorem State.entered_inj {s x : State} (h : s.entered = x.entered) : s = x := by
  cases s <;> cases x <;> simp_all [entered]

/-- How long a run of the signal has to be. -/
def needed (t : Thresholds) : State → UInt32
  | .active => t.activate
  | .inactive => t.deactivate

theorem needed_pos (t : Thresholds) (s : State) : 0 < needed t s := by
  cases s
  · exact t.deactivate_pos
  · exact t.activate_pos

theorem needed_lt (t : Thresholds) (s : State) : needed t s < 0xFFFFFFFF := by
  cases s
  · exact t.deactivate_lt
  · exact t.activate_lt

/-- A run of `s` is waited for, and `k` of them have come. -/
def waiting (s : State) (k : UInt32) : BinaryHysteresis :=
  match s with
  | .active => ⟨.inactive, k, 0⟩
  | .inactive => ⟨.active, 0, k⟩

/-- The awaited signal is counted, or completes the run. -/
theorem onSignal_waiting (t : Thresholds) (s : State) (k : UInt32) : (waiting s k).onSignal t s =
    if needed t s ≤ k + 1 then (waiting s.opp 0, s.entered) else (waiting s (k + 1), .none) := by
  cases s <;> rfl

/-- The other signal breaks it. -/
theorem onSignal_opp (t : Thresholds) (s : State) (k : UInt32) :
    (waiting s k).onSignal t s.opp = (waiting s 0, .none) := by
  cases s <;> rfl

/-- The history `l` leaves a run of `s` to wait for, of which `k` have come. -/
structure Leaves (t : Thresholds) (s : State) (k : UInt32) (l : List (State × Transition)) : Prop where
  state : stateOf l = s.opp
  run : k.toNat = streak s (sinceLast l)
  lt : k < needed t s
  alternates : Alternates .activated .deactivated (transitions l)
  parity : (transitions l).length % 2 = if s = .active then 0 else 1

theorem toNat_succ (h : k < needed t s) : (k + 1).toNat = k.toNat + 1 := by
  have hk := UInt32.lt_iff_toNat_lt.mp (UInt32.lt_trans h (needed_lt t s))
  have hlit : (0xFFFFFFFF : UInt32).toNat = 4294967295 := rfl
  rw [UInt32.toNat_add, UInt32.toNat_one]
  exact Nat.mod_eq_of_lt (by omega)

section Leaves

variable {l : List (State × Transition)} (h : Leaves t s k l)

include h

/-- The run is complete: the other one is waited for. -/
theorem Leaves.complete : Leaves t s.opp 0 (l ++ [(s, s.entered)]) := by
  have htr : transitions (l ++ [(s, s.entered)]) = transitions l ++ [s.entered] := transitions_concat s.entered_ne
  refine ⟨?_, ?_, needed_pos t _, ?_, ?_⟩
  · unfold stateOf
    rw [htr, List.getLast?_concat]
    cases s <;> rfl
  · unfold sinceLast
    rw [since_concat_of_mark (by simp [s.entered_ne])]
    simp
  · rw [htr]
    have hp := h.parity
    cases s with
    | active => exact h.alternates.concat_even hp
    | inactive => exact h.alternates.concat_odd hp
  · have hp := h.parity
    rw [htr, List.length_append, List.length_singleton]
    cases s <;> simp [State.opp] at hp ⊢ <;> omega

/-- A signal that returns no transition. -/
theorem Leaves.quiet {x : State} {k' : UInt32} (hrun : k'.toNat = streak s (sinceLast l ++ [x]))
    (hlt : k' < needed t s) : Leaves t s k' (l ++ [(x, .none)]) := by
  have htr : transitions (l ++ [(x, .none)]) = transitions l := transitions_concat_none
  refine ⟨?_, ?_, hlt, by rw [htr]; exact h.alternates, by rw [htr]; exact h.parity⟩
  · unfold stateOf
    rw [htr]
    exact h.state
  · unfold sinceLast at hrun ⊢
    rwa [since_concat (by simp)]

end Leaves

/-- **In every state a run is waited for**, and its counter is what the run has come to. -/
theorem exists_leaves (t : Thresholds) (ss : List State) :
    ∃ s k, after t ss = waiting s k ∧ Leaves t s k (trace t ss) := by
  induction ss using List.reverseRecOn with
  | nil => exact ⟨.active, 0, rfl, rfl, by simp [sinceLast, trace, traceFrom], needed_pos t _, trivial, rfl⟩
  | append_singleton ss x ih =>
    obtain ⟨s, k, hafter, h⟩ := ih
    rw [after_concat, trace_concat, output, hafter]
    rcases State.eq_or_eq_opp s x with rfl | rfl
    · rw [onSignal_waiting]
      split_ifs with hle
      · exact ⟨_, _, rfl, h.complete⟩
      · refine ⟨_, _, rfl, h.quiet ?_ (UInt32.not_le.mp hle)⟩
        rw [toNat_succ h.lt, streak_concat_self, h.run]
    · rw [onSignal_opp]
      refine ⟨_, _, rfl, h.quiet ?_ (needed_pos t _)⟩
      rw [streak_concat_of_ne s.opp_ne]
      rfl

theorem output_eq_entered_iff (t : Thresholds) (ss : List State) (x y : State) :
    output t ss x = y.entered ↔ stateOf (trace t ss) = y.opp ∧
      List.replicate (needed t y).toNat y <:+ sinceLast (trace t ss) ++ [x] := by
  obtain ⟨s, k, hafter, h⟩ := exists_leaves t ss
  rw [output, hafter, h.state, replicate_suffix_iff]
  have hpos := UInt32.lt_iff_toNat_lt.mp (needed_pos t y)
  have hzero : (0 : UInt32).toNat = 0 := rfl
  rcases State.eq_or_eq_opp s y with rfl | rfl
  · rcases State.eq_or_eq_opp y x with rfl | rfl
    · rw [onSignal_waiting, streak_concat_self, ← h.run, ← toNat_succ h.lt, ← UInt32.le_iff_toNat_le]
      split_ifs with hle
      · simp [hle]
      · simp [hle, Ne.symm x.entered_ne]
    · rw [onSignal_opp, streak_concat_of_ne y.opp_ne]
      refine iff_of_false (Ne.symm y.entered_ne) ?_
      omega
  · refine iff_of_false (fun he => ?_) (fun hc => s.opp.opp_ne hc.1.symm)
    rcases State.eq_or_eq_opp s x with rfl | rfl
    · rw [onSignal_waiting] at he
      split_ifs at he
      · exact x.opp_ne (State.entered_inj he).symm
      · exact State.entered_ne _ he.symm
    · rw [onSignal_opp] at he
      exact State.entered_ne _ he.symm

/-- **The hysteresis is what it is defined to be.** -/
theorem hysteresis_exact (t : Thresholds) (ss : List State) :
    Alternates .activated .deactivated (transitions (trace t ss)) ∧
    (after t ss).state = stateOf (trace t ss) ∧
    (∀ s, output t ss s = .activated ↔ stateOf (trace t ss) = .inactive ∧
      List.replicate t.activate.toNat .active <:+ sinceLast (trace t ss) ++ [s]) ∧
    (∀ s, output t ss s = .deactivated ↔ stateOf (trace t ss) = .active ∧
      List.replicate t.deactivate.toNat .inactive <:+ sinceLast (trace t ss) ++ [s]) ∧
    (after t ss).activateStreak.toNat + 1 < 2 ^ 32 ∧ (after t ss).deactivateStreak.toNat + 1 < 2 ^ 32 := by
  obtain ⟨s, k, hafter, h⟩ := exists_leaves t ss
  have hk := UInt32.lt_iff_toNat_lt.mp (UInt32.lt_trans h.lt (needed_lt t s))
  have hlit : (0xFFFFFFFF : UInt32).toNat = 4294967295 := rfl
  have hzero : (0 : UInt32).toNat = 0 := rfl
  refine ⟨h.alternates, ?_, fun x => output_eq_entered_iff t ss x .active,
    fun x => output_eq_entered_iff t ss x .inactive, ?_⟩
  · rw [hafter, h.state]
    cases s <;> rfl
  · rw [hafter]
    cases s with
    | active =>
      show k.toNat + 1 < 2 ^ 32 ∧ (0 : UInt32).toNat + 1 < 2 ^ 32
      omega
    | inactive =>
      show (0 : UInt32).toNat + 1 < 2 ^ 32 ∧ k.toNat + 1 < 2 ^ 32
      omega

/-- An inactive signal between two active ones breaks the run. -/
example : (trace ⟨2, 1, by decide, by decide, by decide, by decide⟩ [.active, .inactive, .active, .active]).map Prod.snd =
    [.none, .none, .none, .activated] := by decide

/-! ## The hysteresis of the engine -/

/-- The counters as natural numbers. -/
def nat (h : BinaryHysteresis) : Hysteresis :=
  ⟨decide (h.state = .active), h.activateStreak.toNat, h.deactivateStreak.toNat⟩

end BinaryHysteresis

namespace Hysteresis

/-- A signal, as the engine takes it. -/
def onSignal (t : Thresholds) (h : Hysteresis) : BinaryHysteresis.State → Hysteresis × Transition
  | .active => h.onActiveSignal t.activate.toNat
  | .inactive => h.onInactiveSignal t.deactivate.toNat

end Hysteresis

namespace BinaryHysteresis

/-- As long as the counter is in range, nothing tells the two apart. -/
theorem onSignal_nat {t : Thresholds} {s : State} {k : UInt32} (hk : k < needed t s) (x : State) :
    (waiting s k).nat.onSignal t x = (((waiting s k).onSignal t x).1.nat, ((waiting s k).onSignal t x).2) := by
  have hsucc := toNat_succ hk
  rcases State.eq_or_eq_opp s x with rfl | rfl
  · have hiff : needed t x ≤ k + 1 ↔ (needed t x).toNat ≤ k.toNat + 1 := by
      rw [UInt32.le_iff_toNat_le, hsucc]
    have hnat : (waiting x k).nat.onSignal t x = if (needed t x).toNat ≤ k.toNat + 1 then
        ((waiting x.opp 0).nat, x.entered) else ((waiting x (k + 1)).nat, .none) := by
      cases x <;> simp only [waiting, nat, hsucc] <;> rfl
    rw [onSignal_waiting, hnat]
    by_cases hle : needed t x ≤ k + 1
    · rw [if_pos hle, if_pos (hiff.mp hle)]
    · rw [if_neg hle, if_neg (fun hc => hle (hiff.mpr hc))]
  · rw [onSignal_opp]
    cases s <;> rfl

/-- **The counters of the engine** are those of the hysteresis, after every sequence of signals. -/
theorem after_nat (t : Thresholds) (ss : List State) :
    ss.foldl (fun h s => (Hysteresis.onSignal t h s).1) {} = (after t ss).nat := by
  induction ss using List.reverseRecOn with
  | nil => rfl
  | append_singleton ss x ih =>
    obtain ⟨s, k, hafter, h⟩ := exists_leaves t ss
    rw [List.foldl_append, List.foldl_cons, List.foldl_nil, ih, after_concat, hafter, onSignal_nat h.lt]

end BinaryHysteresis

end Wirekrak.Transport

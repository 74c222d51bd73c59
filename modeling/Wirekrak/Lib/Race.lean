import Mathlib.Data.List.Basic

/-!
# Wirekrak.Lib.Race — threads that improve a shared value

`Cell`: an atomic object of a memory with relaxed order, with its value and the values it had before; a load may return
any of them, while a read-modify-write sees the value itself.

`Cell.turn` is one turn of the loop `while (r v prev && !cell.compare_exchange_weak(prev, v));`, which writes `v` unless
a value as good is there; `r a b` says that `a` is better than `b`.

* `Ranking`: what is asked of `r`; `Improving`: no value that the cell had is better than its value.
* `turn_cases`: a thread leaves, writes, or loads again.
* `Improving.turn`: a thread that is through leaves a value as good as its own, whatever the loads returned.
-/

namespace Wirekrak.Lib

variable {α : Type*}

/-- An atomic object: its value, and what it had before, the latest first. -/
structure Cell (α : Type*) where
  value : α
  past : List α := []

namespace Cell

/-- What a load may return. -/
def seen (c : Cell α) : List α := c.value :: c.past

def store (a : α) (c : Cell α) : Cell α := { value := a, past := c.seen }

@[simp] theorem value_store (a : α) (c : Cell α) : (c.store a).value = a := rfl

@[simp] theorem mem_seen_store {a b : α} {c : Cell α} : b ∈ (c.store a).seen ↔ b = a ∨ b ∈ c.seen := List.mem_cons

/-- `r a b`: `a` is better than `b`. -/
structure Ranking (r : α → α → Prop) : Prop where
  asymm : ∀ {a b}, r a b → ¬ r b a
  trans : ∀ {a b d}, ¬ r a b → ¬ r b d → ¬ r a d

theorem Ranking.irrefl {r : α → α → Prop} (hr : Ranking r) (a : α) : ¬ r a a := fun h => hr.asymm h h

/-- No value that the cell had is better than the one it has. -/
def Improving (r : α → α → Prop) (c : Cell α) : Prop := ∀ a ∈ c.seen, ¬ r a c.value

theorem Improving.store {r : α → α → Prop} {c : Cell α} {v : α} (hc : c.Improving r) (hr : Ranking r)
    (hv : r v c.value) : (c.store v).Improving r := by
  intro a ha
  rcases mem_seen_store.mp ha with rfl | ha
  · exact hr.irrefl _
  · exact hr.trans (hc a ha) (hr.asymm hv)

/-! ## The loop -/

variable (r : α → α → Prop) [DecidableRel r] [DecidableEq α]

/-- One turn of the loop: `none` when the loop is left, else the value that `prev` has now.  The exchange may fail
without a reason, and what it then loads is the `k`-th latest value. -/
def turn (v prev : α) (k : ℕ) (spurious : Bool) (c : Cell α) : Option (Cell α × Option α) :=
  if r v prev then
    if prev = c.value ∧ spurious = false then some (c.store v, none)
    else c.seen[k]?.map fun p => (c, some p)
  else some (c, none)

variable {r} {v prev : α} {k : ℕ} {spurious : Bool} {c c' : Cell α} {o : Option α}

theorem turn_cases (h : c.turn r v prev k spurious = some (c', o)) :
    (¬ r v prev ∧ c' = c ∧ o = none) ∨ (r v prev ∧ prev = c.value ∧ c' = c.store v ∧ o = none) ∨
      (r v prev ∧ (prev = c.value → spurious = true) ∧ c' = c ∧ ∃ p, c.seen[k]? = some p ∧ o = some p) := by
  unfold turn at h
  by_cases hr : r v prev
  · rw [if_pos hr] at h
    by_cases hp : prev = c.value ∧ spurious = false
    · rw [if_pos hp] at h
      cases h
      exact .inr (.inl ⟨hr, hp.1, rfl, rfl⟩)
    · rw [if_neg hp, Option.map_eq_some_iff] at h
      obtain ⟨p, hk, h⟩ := h
      cases h
      exact .inr (.inr ⟨hr, fun he => by simpa [he] using hp, rfl, p, hk, rfl⟩)
  · rw [if_neg hr] at h
    cases h
    exact .inl ⟨hr, rfl, rfl⟩

/-- What the loop has written is old, or is the value of the thread. -/
theorem value_turn (h : c.turn r v prev k spurious = some (c', o)) : c'.value = c.value ∨ c'.value = v := by
  obtain ⟨-, rfl, -⟩ | ⟨-, -, rfl, -⟩ | ⟨-, -, rfl, -⟩ := turn_cases h
  · exact .inl rfl
  · exact .inr rfl
  · exact .inl rfl

/-- **Turn lemma.** -/
theorem Improving.turn (hr : Ranking r) (hc : c.Improving r) (hprev : ¬ r prev c.value)
    (h : c.turn r v prev k spurious = some (c', o)) :
    c'.Improving r ∧ ¬ r c.value c'.value ∧ (o = none → ¬ r v c'.value) ∧ ∀ p, o = some p → ¬ r p c'.value := by
  obtain ⟨hv, rfl, rfl⟩ | ⟨hv, rfl, rfl, rfl⟩ | ⟨-, -, rfl, p, hk, rfl⟩ := turn_cases h
  · exact ⟨hc, hr.irrefl _, fun _ => hr.trans hv hprev, fun p hp => by cases hp⟩
  · exact ⟨hc.store hr hv, hr.asymm hv, fun _ => hr.irrefl _, fun p hp => by cases hp⟩
  · refine ⟨hc, hr.irrefl _, fun ho => (by cases ho), fun q hq => ?_⟩
    cases hq
    exact hc p (List.mem_of_getElem? hk)

end Cell

end Wirekrak.Lib

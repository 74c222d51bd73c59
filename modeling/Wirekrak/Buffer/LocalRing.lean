import Mathlib.Logic.Function.Basic
import Wirekrak.Lib.Fifo
import Wirekrak.Lib.Mask
import Wirekrak.Lib.Reactive
import Wirekrak.Lib.Run

/-!
# Wirekrak.Buffer.LocalRing — `local::ring` and `local::queue`

Two single-threaded circular buffers over the same fields.  The ring hands out the slot itself, to be written and
committed or discarded, or to be read and released; the queue copies values.  One slot is kept free.

* `Holds c r items`: the buffer holds `items`, the oldest first, from the tail on; a lemma for each operation.
* `queue_refines`: every reply of a queue is that of a list with at most `capacity()` items, for any calls.
-/

namespace Wirekrak.Buffer

open Wirekrak.Lib

structure LocalRing (α : Type*) where
  buffer : BitVec 64 → α
  head : BitVec 64 := 0
  tail : BitVec 64 := 0

namespace LocalRing

variable {α : Type*} (c : Pow2) (r : LocalRing α)

def next (i : BitVec 64) : BitVec 64 := (i + 1) &&& c.mask

/-! ## `ring` -/

/-- The slots are handed out by their index. -/
def acquireProducerSlot : Option (BitVec 64) := if next c r.head = r.tail then none else some r.head

/-- What the holder of a slot does to it. -/
def modify (i : BitVec 64) (f : α → α) : LocalRing α :=
  { r with buffer := Function.update r.buffer i (f (r.buffer i)) }

def commitProducerSlot : LocalRing α := { r with head := next c r.head }

def discardProducerSlot : LocalRing α := r

def peekConsumerSlot : Option (BitVec 64) := if r.tail = r.head then none else some r.tail

def releaseConsumerSlot : LocalRing α := { r with tail := next c r.tail }

def empty : Bool := r.head = r.tail

def full : Bool := next c r.head = r.tail

def capacity : BitVec 64 := c.size - 1

def size : BitVec 64 := (r.head - r.tail) &&& c.mask

def clear : LocalRing α := { r with head := 0, tail := 0 }

/-! ## `queue` -/

def push (x : α) : Bool × LocalRing α :=
  if next c r.head = r.tail then (false, r)
  else (true, { r with buffer := Function.update r.buffer r.head x, head := next c r.head })

def pop : Option α × LocalRing α :=
  if r.tail = r.head then (none, r) else (some (r.buffer r.tail), { r with tail := next c r.tail })

/-! ## What is held -/

/-- From the tail on the buffer holds these items. -/
def Holds (items : List α) : Prop :=
  ∃ t, r.tail = c.slot t ∧ r.head = c.slot (t + items.length) ∧ items.length < c.places ∧
    ∀ i x, items[i]? = some x → r.buffer (c.slot (t + i)) = x

variable {c r} {items : List α} {x : α}

theorem next_slot (k : ℕ) : next c (c.slot k) = c.slot (k + 1) := by
  unfold next
  rw [c.slot_add]
  rfl

theorem holds_clear (c : Pow2) (r : LocalRing α) : Holds c r.clear [] :=
  ⟨0, (c.slot_zero).symm, (c.slot_zero).symm, by have := c.two_le_places; simp; omega, fun i x hx => by cases hx⟩

section

variable (h : Holds c r items)

include h

theorem Holds.length_lt : items.length < c.places := by
  obtain ⟨t, -, -, hlen, -⟩ := h
  exact hlen

/-- The ring is full just when one slot is left. -/
theorem Holds.next_eq_iff : next c r.head = r.tail ↔ items.length + 1 = c.places := by
  obtain ⟨t, ht, hh, hlen, -⟩ := h
  rw [hh, ht, next_slot]
  constructor
  · intro he
    by_contra hne
    exact c.slot_ne (i := t) (j := t + items.length + 1) (by omega) (by omega) he.symm
  · intro he
    rw [c.slot_eq_iff, Nat.add_assoc, he, Nat.add_mod_right]

theorem Holds.tail_eq_iff : r.tail = r.head ↔ items = [] := by
  obtain ⟨t, ht, hh, hlen, -⟩ := h
  rw [ht, hh, ← List.length_eq_zero_iff]
  constructor
  · intro he
    have := c.slot_inj (by omega) (by omega) he
    omega
  · intro he
    rw [he, Nat.add_zero]

theorem Holds.size_eq : (r.size c).toNat = items.length := by
  obtain ⟨t, ht, hh, hlen, -⟩ := h
  unfold size
  rw [hh, ht, c.toNat_sub_slot (by omega) (by omega)]
  omega

theorem Holds.acquire_eq :
    r.acquireProducerSlot c = if items.length + 1 < c.places then some r.head else none := by
  have hlt := h.length_lt
  have hiff := h.next_eq_iff
  unfold acquireProducerSlot
  by_cases hfull : items.length + 1 = c.places
  · rw [if_pos (hiff.mpr hfull), if_neg (by omega)]
  · rw [if_neg fun he => hfull (hiff.mp he), if_pos (by omega)]

/-- The slot at the head holds none of the items. -/
theorem Holds.modify (f : α → α) : Holds c (r.modify r.head f) items := by
  obtain ⟨t, ht, hh, hlen, hbuf⟩ := h
  refine ⟨t, ht, hh, hlen, fun i x hx => ?_⟩
  have hi := (List.getElem?_eq_some_iff.mp hx).1
  show Function.update r.buffer r.head _ (c.slot (t + i)) = x
  rw [Function.update_of_ne, hbuf i x hx]
  rw [hh]
  exact c.slot_ne (by omega) (by omega)

/-- The item in the slot at the head is the newest one from now on. -/
theorem Holds.commit (hroom : items.length + 1 < c.places) :
    Holds c (r.commitProducerSlot c) (items ++ [r.buffer r.head]) := by
  obtain ⟨t, ht, hh, hlen, hbuf⟩ := h
  refine ⟨t, ht, ?_, ?_, fun i x hx => ?_⟩
  · show next c r.head = _
    rw [hh, next_slot, List.length_append, List.length_singleton, Nat.add_assoc]
  · rw [List.length_append, List.length_singleton]
    exact hroom
  · rcases getElem?_concat_eq_some.mp hx with hx | ⟨rfl, rfl⟩
    · exact hbuf i x hx
    · show r.buffer (c.slot (t + items.length)) = r.buffer r.head
      rw [hh]

theorem Holds.peek_eq : (r.peekConsumerSlot).map r.buffer = items.head? := by
  have hiff := h.tail_eq_iff
  obtain ⟨t, ht, -, -, hbuf⟩ := h
  unfold peekConsumerSlot
  cases items with
  | nil =>
    rw [if_pos (hiff.mpr rfl)]
    rfl
  | cons x items =>
    have hx := hbuf 0 x rfl
    rw [if_neg fun he => (by cases hiff.mp he), Option.map_some, ht]
    exact congrArg some hx

end

/-- The oldest item is gone. -/
theorem Holds.release (h : Holds c r (x :: items)) : Holds c (r.releaseConsumerSlot c) items := by
  obtain ⟨t, ht, hh, hlen, hbuf⟩ := h
  rw [List.length_cons] at hh hlen
  refine ⟨t + 1, ?_, ?_, by omega, fun i y hy => ?_⟩
  · show next c r.tail = _
    rw [ht, next_slot]
  · rw [show t + 1 + items.length = t + (items.length + 1) by omega]
    exact hh
  · rw [show t + 1 + i = t + (i + 1) by omega]
    exact hbuf (i + 1) y hy

/-! ## Calls of a queue -/

inductive Call (α : Type*)
  | push (x : α)
  | pop
  | size
  | empty
  | full
  | clear

inductive Reply (α : Type*)
  | pushed (ok : Bool)
  | popped (x : Option α)
  | size (n : ℕ)
  | empty (b : Bool)
  | full (b : Bool)


variable (c) in
def call (r : LocalRing α) : Call α → LocalRing α × List (Reply α)
  | .push x => ((r.push c x).2, [.pushed (r.push c x).1])
  | .pop => ((r.pop c).2, [.popped (r.pop c).1])
  | .size => (r, [.size (r.size c).toNat])
  | .empty => (r, [.empty r.empty])
  | .full => (r, [.full (r.full c)])
  | .clear => (r.clear, [])

/-- The list that a queue stands for; it has place for `cap` items. -/
def fifo (cap : ℕ) (items : List α) : Call α → List α × List (Reply α)
  | .push x => ((Fifo.push cap items x).getD items, [.pushed (Fifo.push cap items x).isSome])
  | .pop => (items.tail, [.popped items.head?])
  | .size => (items, [.size items.length])
  | .empty => (items, [.empty items.isEmpty])
  | .full => (items, [.full (items.length == cap)])
  | .clear => ([], [])

theorem Holds.push (h : Holds c r items) (x : α) :
    Holds c (r.push c x).2 ((Fifo.push (c.places - 1) items x).getD items) ∧
    (r.push c x).1 = (Fifo.push (c.places - 1) items x).isSome := by
  have hlt := h.length_lt
  unfold LocalRing.push
  by_cases hfull : items.length + 1 = c.places
  · rw [if_pos (h.next_eq_iff.mpr hfull), Fifo.push_none (by omega)]
    exact ⟨h, rfl⟩
  · rw [if_neg fun he => hfull (h.next_eq_iff.mp he), Fifo.push_some (by omega)]
    have hc := (h.modify fun _ => x).commit (by omega)
    have hx : (r.modify r.head fun _ => x).buffer r.head = x := Function.update_self _ _ _
    have hhead : (r.modify r.head fun _ => x).head = r.head := rfl
    rw [hhead, hx] at hc
    exact ⟨hc, rfl⟩

theorem Holds.pop (h : Holds c r items) : Holds c (r.pop c).2 items.tail ∧ (r.pop c).1 = items.head? := by
  have hpeek := h.peek_eq
  unfold peekConsumerSlot at hpeek
  unfold LocalRing.pop
  cases items with
  | nil =>
    rw [if_pos (h.tail_eq_iff.mpr rfl)]
    exact ⟨h, rfl⟩
  | cons x items =>
    have hne : ¬ r.tail = r.head := fun he => by cases h.tail_eq_iff.mp he
    rw [if_neg hne] at hpeek ⊢
    exact ⟨h.release, hpeek⟩

theorem Holds.call (h : Holds c r items) (a : Call α) :
    Holds c (r.call c a).1 (fifo (c.places - 1) items a).1 ∧ (r.call c a).2 = (fifo (c.places - 1) items a).2 := by
  cases a with
  | push x =>
    obtain ⟨h1, h2⟩ := h.push x
    exact ⟨h1, by simp only [LocalRing.call, fifo, h2]⟩
  | pop =>
    obtain ⟨h1, h2⟩ := h.pop
    exact ⟨h1, by simp only [LocalRing.call, fifo, h2]⟩
  | size => exact ⟨h, by simp only [LocalRing.call, fifo, h.size_eq]⟩
  | empty =>
    refine ⟨h, ?_⟩
    simp only [LocalRing.call, fifo, LocalRing.empty, eq_comm (a := r.head), h.tail_eq_iff]
    cases items <;> rfl
  | full =>
    have hlt := h.length_lt
    refine ⟨h, ?_⟩
    simp only [LocalRing.call, fifo, LocalRing.full, h.next_eq_iff]
    congr 2
    rw [Bool.eq_iff_iff]
    simp
    omega
  | clear => exact ⟨holds_clear c r, rfl⟩

/-- **A queue is a bounded list**: whatever was in its buffer, and in any sequence of calls, it replies like a list with
place for one item less than it has slots. -/
theorem queue_refines (c : Pow2) (buffer : BitVec 64 → α) (calls : List (Call α)) :
    Reactive.output (call c) ⟨buffer, 0, 0⟩ calls = Reactive.output (fifo (c.places - 1)) [] calls := by
  have h0 : Holds c ⟨buffer, 0, 0⟩ ([] : List α) := holds_clear c ⟨buffer, 0, 0⟩
  exact (Reactive.output_eq_of_rel (Holds c) (fun _ => True) (fun r items a _ h => h.call a) h0 fun _ _ => trivial).2

end LocalRing

end Wirekrak.Buffer

import Mathlib.Data.Fintype.Basic
import Mathlib.Logic.Function.Basic
import Wirekrak.Lib.Mask
import Wirekrak.Lib.Run

/-!
# Wirekrak.Lockfree.TaskRing — `spmc_task_ring`, one atomic access a step

One producer pushes, any number of consumers pop; a consumer claims a slot with a compare-exchange on `tail_` and reads
the slot only afterwards.  A call is cut at every access to `head_`, `tail_` and the storage.  A pop moves the item out
and leaves `residue` of it behind.

* `TaskRing.claims`: the claims in the order they were made, each with what its pop has returned.
* `ExactlyOnce`: the `k`-th claim is for the `k`-th item, and its pop returns that item.
* `exactly_once`: this holds in every state of a run in which no slot is written between its claim and its read, and no
  compare-exchange succeeds on an empty ring.  `overtaken_claim` and `claim_of_nothing` are schedules where it breaks.
-/

namespace Wirekrak.Lockfree

open Wirekrak.Lib

/-- Where the producer stands in `push`: `head_` loaded, the ring found not full, the slot written. -/
inductive TaskProducer (α : Type*) where
  | idle
  | loaded (x : α) (head : BitVec 64)
  | granted (x : α) (head : BitVec 64)
  | storing (x : α) (head : BitVec 64)

/-- Where a consumer stands in `pop`: `tail_` loaded, the ring found not empty, the `k`-th claim made. -/
inductive TaskConsumer where
  | idle
  | loaded (tail : BitVec 64)
  | claiming (tail : BitVec 64)
  | claimed (k : ℕ) (tail : BitVec 64)
  deriving DecidableEq

structure TaskRing (α ι : Type*) where
  buffer : BitVec 64 → α
  head : BitVec 64 := 0
  tail : BitVec 64 := 0
  producer : TaskProducer α := .idle
  consumer : ι → TaskConsumer := fun _ => .idle
  pushed : List α := []
  claims : List (Option α) := []

/-- Calls (`push`, `pop`) and the next access inside a call; the compare-exchange is the weak one. -/
inductive TaskAct (α ι : Type*) where
  | push (x : α)
  | produce
  | pop (i : ι)
  | consume (i : ι) (spurious : Bool)

namespace TaskRing

variable {α ι : Type*}

def next (c : Pow2) (v : BitVec 64) : BitVec 64 := (v + 1) &&& c.mask

def produceStep (c : Pow2) (s : TaskRing α ι) : TaskRing α ι :=
  match s.producer with
  | .idle => s
  | .loaded x head =>
    if next c head = s.tail then { s with producer := .idle } else { s with producer := .granted x head }
  | .granted x head => { s with buffer := Function.update s.buffer head x, producer := .storing x head }
  | .storing x head => { s with head := next c head, producer := .idle, pushed := s.pushed ++ [x] }

variable [DecidableEq ι]

def move (s : TaskRing α ι) (i : ι) (p : TaskConsumer) : TaskRing α ι :=
  { s with consumer := Function.update s.consumer i p }

def consumeStep (c : Pow2) (residue : α → α) (s : TaskRing α ι) (i : ι) (spurious : Bool) : TaskRing α ι :=
  match s.consumer i with
  | .idle => s
  | .loaded tail => if tail = s.head then s.move i .idle else s.move i (.claiming tail)
  | .claiming tail =>
    if s.tail = tail ∧ spurious = false then
      { s.move i (.claimed s.claims.length tail) with tail := next c tail, claims := s.claims ++ [none] }
    else s.move i (.loaded s.tail)
  | .claimed k tail =>
    { s.move i .idle with
      buffer := Function.update s.buffer tail (residue (s.buffer tail))
      claims := s.claims.set k (some (s.buffer tail)) }

def step (c : Pow2) (residue : α → α) (s : TaskRing α ι) : TaskAct α ι → TaskRing α ι
  | .push x =>
    match s.producer with
    | .idle => { s with producer := .loaded x s.head }
    | _ => s
  | .produce => s.produceStep c
  | .pop i =>
    match s.consumer i with
    | .idle => s.move i (.loaded s.tail)
    | _ => s
  | .consume i spurious => s.consumeStep c residue i spurious

/-- A ring as constructed, over any contents of its storage. -/
def fresh (buffer : BitVec 64 → α) : TaskRing α ι := { buffer := buffer }

def after (c : Pow2) (residue : α → α) (buffer : BitVec 64 → α) (acts : List (TaskAct α ι)) : TaskRing α ι :=
  acts.foldl (step c residue) (fresh buffer)

/-- Items are claimed in the order they were pushed, and each claim returns its item. -/
structure ExactlyOnce (s : TaskRing α ι) : Prop where
  /-- The `k`-th claim comes after the `k`-th push. -/
  claimed : s.claims.length ≤ s.pushed.length
  returned : ∀ (k : ℕ) (x : α), s.claims[k]? = some (some x) → s.pushed[k]? = some x
  /-- A claim that has not returned yet is in the hands of one consumer. -/
  underway : ∀ k : ℕ, s.claims[k]? = some none → ∃! i, ∃ tail, s.consumer i = .claimed k tail
  /-- When the ring is empty, all items have been claimed. -/
  drained : s.tail = s.head → s.claims.length = s.pushed.length

omit [DecidableEq ι] in
/-- Once the ring is empty and no pop is under way, every item has been returned, by the claim of its number. -/
theorem ExactlyOnce.all_returned {s : TaskRing α ι} (h : ExactlyOnce s) (hempty : s.tail = s.head)
    (hidle : ∀ i k tail, s.consumer i ≠ .claimed k tail) : s.claims = s.pushed.map some := by
  apply List.ext_getElem?
  intro k
  rw [List.getElem?_map]
  cases hk : s.claims[k]? with
  | none =>
    have hlen := h.drained hempty
    rw [List.getElem?_eq_none_iff] at hk
    rw [List.getElem?_eq_none (by omega), Option.map_none]
  | some r =>
    cases r with
    | none =>
      obtain ⟨i, ⟨tail, hi⟩, -⟩ := h.underway k hk
      exact absurd hi (hidle i k tail)
    | some x => rw [h.returned k x hk, Option.map_some]

/-! ## The condition -/

/-- The consumer has claimed this slot and not read it yet. -/
def On (slot : BitVec 64) : TaskConsumer → Prop
  | .claimed _ tail => tail = slot
  | _ => False

/-- The slot about to be written is not one that a consumer has claimed and not read yet. -/
def Unclaimed (s : TaskRing α ι) : TaskProducer α → Prop
  | .granted _ head => ∀ i, ¬ On head (s.consumer i)
  | _ => True

/-- A compare-exchange that succeeds finds the ring not empty. -/
def Stocked (s : TaskRing α ι) (spurious : Bool) : TaskConsumer → Prop
  | .claiming tail => s.tail = tail → spurious = false → s.tail ≠ s.head
  | _ => True

def Orderly (s : TaskRing α ι) : TaskAct α ι → Prop
  | .produce => s.Unclaimed s.producer
  | .consume i spurious => s.Stocked spurious (s.consumer i)
  | _ => True

instance (slot : BitVec 64) : DecidablePred (On slot)
  | .idle => inferInstanceAs (Decidable False)
  | .loaded _ => inferInstanceAs (Decidable False)
  | .claiming _ => inferInstanceAs (Decidable False)
  | .claimed _ tail => inferInstanceAs (Decidable (tail = slot))

instance [Fintype ι] (s : TaskRing α ι) : DecidablePred s.Unclaimed
  | .idle => inferInstanceAs (Decidable True)
  | .loaded _ _ => inferInstanceAs (Decidable True)
  | .granted _ head => inferInstanceAs (Decidable (∀ i, ¬ On head (s.consumer i)))
  | .storing _ _ => inferInstanceAs (Decidable True)

instance (s : TaskRing α ι) (spurious : Bool) : DecidablePred (s.Stocked spurious)
  | .idle => inferInstanceAs (Decidable True)
  | .loaded _ => inferInstanceAs (Decidable True)
  | .claiming tail => inferInstanceAs (Decidable (s.tail = tail → spurious = false → s.tail ≠ s.head))
  | .claimed _ _ => inferInstanceAs (Decidable True)

instance [Fintype ι] (s : TaskRing α ι) : DecidablePred s.Orderly
  | .push _ => inferInstanceAs (Decidable True)
  | .produce => inferInstanceAs (Decidable (s.Unclaimed s.producer))
  | .pop _ => inferInstanceAs (Decidable True)
  | .consume i spurious => inferInstanceAs (Decidable (s.Stocked spurious (s.consumer i)))

/-! ## The invariant -/

/-- What the producer may rely on, `h` items pushed and `t` claimed. -/
def ProducerOk (c : Pow2) (s : TaskRing α ι) (h t : ℕ) : TaskProducer α → Prop
  | .idle => True
  | .loaded _ head => head = c.slot h
  | .granted _ head => head = c.slot h ∧ h + 1 < t + c.places
  | .storing x head => head = c.slot h ∧ h + 1 < t + c.places ∧ s.buffer (c.slot h) = x ∧
    ∀ i k, s.consumer i ≠ .claimed k (c.slot h)

/-- A consumer with a claim finds its item, in a slot that no item of the ring and no other claim shares. -/
structure ClaimOk (c : Pow2) (s : TaskRing α ι) (i : ι) (k : ℕ) (tail : BitVec 64) : Prop where
  open_ : s.claims[k]? = some none
  slot : tail = c.slot k
  item : s.pushed[k]? = some (s.buffer tail)
  apart : ∀ j, s.claims.length ≤ j → j < s.pushed.length → c.slot j ≠ tail
  single : ∀ i' k', s.consumer i' = .claimed k' tail → i' = i

structure Inv (c : Pow2) (s : TaskRing α ι) : Prop where
  head : s.head = c.slot s.pushed.length
  tail : s.tail = c.slot s.claims.length
  le : s.claims.length ≤ s.pushed.length
  room : s.pushed.length < s.claims.length + c.places
  items : ∀ k, s.claims.length ≤ k → k < s.pushed.length → s.pushed[k]? = some (s.buffer (c.slot k))
  producer : ProducerOk c s s.pushed.length s.claims.length s.producer
  claim : ∀ i k tail, s.consumer i = .claimed k tail → ClaimOk c s i k tail
  returned : ∀ (k : ℕ) (x : α), s.claims[k]? = some (some x) → s.pushed[k]? = some x
  underway : ∀ k : ℕ, s.claims[k]? = some none → ∃ i tail, s.consumer i = .claimed k tail

variable {c : Pow2} {residue : α → α} {s : TaskRing α ι}

theorem next_slot (k : ℕ) : next c (c.slot k) = c.slot (k + 1) := c.slot_add k 1

omit [DecidableEq ι] in
theorem inv_fresh (buffer : BitVec 64 → α) : Inv c (fresh buffer : TaskRing α ι) where
  head := c.slot_zero.symm
  tail := c.slot_zero.symm
  le := le_refl _
  room := by
    have := c.two_le_places
    show 0 < 0 + c.places
    omega
  items := fun k _ hk => absurd hk (Nat.not_lt_zero k)
  producer := trivial
  claim := fun i k tail h => by cases h
  returned := fun k x h => by cases h
  underway := fun k h => by cases h

omit [DecidableEq ι] in
theorem Inv.exactlyOnce (h : Inv c s) : ExactlyOnce s where
  claimed := h.le
  returned := h.returned
  underway := by
    intro k hk
    obtain ⟨i, tail, hi⟩ := h.underway k hk
    refine ⟨i, ⟨tail, hi⟩, ?_⟩
    rintro i' ⟨tail', hi'⟩
    have hslot : tail' = tail := (h.claim i' k tail' hi').slot.trans (h.claim i k tail hi).slot.symm
    rw [hslot] at hi'
    exact (h.claim i k tail hi).single i' k hi'
  drained := by
    intro he
    rw [h.head, h.tail] at he
    exact c.slot_inj h.le h.room he

omit [DecidableEq ι] in
/-- A change that spares the slot to be written, and claims nothing on it, is no concern of the producer. -/
theorem ProducerOk.mono {u : TaskRing α ι} {n t t' : ℕ} {p : TaskProducer α} (hp : ProducerOk c s n t p) (ht : t ≤ t')
    (hbuffer : (∀ i k, s.consumer i ≠ .claimed k (c.slot n)) → u.buffer (c.slot n) = s.buffer (c.slot n))
    (hclaim : ∀ i k, u.consumer i = .claimed k (c.slot n) → s.consumer i = .claimed k (c.slot n)) :
    ProducerOk c u n t' p := by
  cases p with
  | idle => trivial
  | loaded x head => exact hp
  | granted x head =>
    obtain ⟨hhead, hroom⟩ := hp
    exact ⟨hhead, by omega⟩
  | storing x head =>
    obtain ⟨hhead, hroom, hx, hfree⟩ := hp
    exact ⟨hhead, by omega, (hbuffer hfree).trans hx, fun i k hi => hfree i k (hclaim i k hi)⟩

/-- The claims after a consumer has moved. -/
theorem consumer_move {i j : ι} {p : TaskConsumer} {k : ℕ} {tail : BitVec 64} :
    (s.move i p).consumer j = .claimed k tail ↔
      (j = i ∧ p = .claimed k tail) ∨ (j ≠ i ∧ s.consumer j = .claimed k tail) := by
  show Function.update s.consumer i p j = _ ↔ _
  by_cases hj : j = i
  · subst hj
    simp
  · simp [hj]

/-! ## The producer's accesses -/

omit [DecidableEq ι] in
/-- Only the producer's own state changes. -/
theorem Inv.producing (h : Inv c s) {p : TaskProducer α}
    (hp : ProducerOk c s s.pushed.length s.claims.length p) : Inv c { s with producer := p } where
  head := h.head
  tail := h.tail
  le := h.le
  room := h.room
  items := h.items
  producer := by cases p <;> exact hp
  claim := fun i k tail hi => ⟨(h.claim i k tail hi).open_, (h.claim i k tail hi).slot, (h.claim i k tail hi).item,
    (h.claim i k tail hi).apart, (h.claim i k tail hi).single⟩
  returned := h.returned
  underway := h.underway

omit [DecidableEq ι] in
theorem Inv.write (h : Inv c s) {x : α} {head : BitVec 64} (hp : s.producer = .granted x head)
    (hok : ∀ i k, s.consumer i ≠ .claimed k head) :
    Inv c { s with buffer := Function.update s.buffer head x, producer := .storing x head } := by
  have hprod := h.producer
  rw [hp] at hprod
  obtain ⟨rfl, hroom⟩ := hprod
  have hother : ∀ k, s.claims.length ≤ k → k < s.pushed.length → c.slot k ≠ c.slot s.pushed.length :=
    fun k hk hlt => c.slot_ne hlt (by omega)
  refine ⟨h.head, h.tail, h.le, h.room, ?_, ⟨rfl, hroom, Function.update_self .., hok⟩, ?_, h.returned, h.underway⟩
  · intro k hk hlt
    show s.pushed[k]? = some (Function.update s.buffer (c.slot s.pushed.length) x (c.slot k))
    rw [Function.update_of_ne (hother k hk hlt)]
    exact h.items k hk hlt
  · intro i k tail hi
    have hc := h.claim i k tail hi
    have hne : tail ≠ c.slot s.pushed.length := by
      rintro rfl
      exact hok i k hi
    refine ⟨hc.open_, hc.slot, ?_, hc.apart, hc.single⟩
    show s.pushed[k]? = some (Function.update s.buffer (c.slot s.pushed.length) x tail)
    rw [Function.update_of_ne hne]
    exact hc.item

omit [DecidableEq ι] in
theorem Inv.publish (h : Inv c s) {x : α} {head : BitVec 64} (hp : s.producer = .storing x head) :
    Inv c { s with head := next c head, producer := .idle, pushed := s.pushed ++ [x] } := by
  have hprod := h.producer
  rw [hp] at hprod
  obtain ⟨rfl, hroom, hx, hfree⟩ := hprod
  have hlen : (s.pushed ++ [x]).length = s.pushed.length + 1 := by simp
  have hold : ∀ {k : ℕ} {y : α}, s.pushed[k]? = some y → (s.pushed ++ [x])[k]? = some y :=
    fun hk => getElem?_append_of_some hk _
  have hle := h.le
  refine ⟨?_, h.tail, ?_, ?_, ?_, trivial, ?_, fun k y hk => hold (h.returned k y hk), h.underway⟩
  · rw [hlen]
    exact next_slot _
  · show s.claims.length ≤ (s.pushed ++ [x]).length
    omega
  · show (s.pushed ++ [x]).length < s.claims.length + c.places
    omega
  · intro k hk hlt
    rw [hlen] at hlt
    by_cases hkl : k = s.pushed.length
    · rw [hkl, List.getElem?_concat_length]
      exact congrArg some hx.symm
    · exact hold (h.items k hk (by omega))
  · intro i k tail hi
    have hc := h.claim i k tail hi
    refine ⟨hc.open_, hc.slot, hold hc.item, ?_, hc.single⟩
    intro j hj hlt
    rw [hlen] at hlt
    by_cases hjl : j = s.pushed.length
    · rintro rfl
      rw [hjl] at hi
      exact hfree i k hi
    · exact hc.apart j hj (by omega)

omit [DecidableEq ι] in
theorem inv_produceStep (h : Inv c s)
    (hok : ∀ x head, s.producer = .granted x head → ∀ i k, s.consumer i ≠ .claimed k head) :
    Inv c (s.produceStep c) := by
  unfold produceStep
  split
  · exact h
  · next x head hp =>
    have hprod := h.producer
    rw [hp] at hprod
    have hhead : head = c.slot s.pushed.length := hprod
    split
    · exact h.producing trivial
    · next hfull =>
      refine h.producing ⟨hhead, ?_⟩
      rw [hhead, next_slot, h.tail] at hfull
      -- the ring holds at most one item less than it has places
      have hroom := h.room
      by_contra hge
      have heq : s.pushed.length + 1 = s.claims.length + c.places := by omega
      rw [heq, c.slot_eq_iff.mpr (Nat.add_mod_right _ _)] at hfull
      exact hfull rfl
  · next x head hp => exact h.write hp (hok x head hp)
  · next x head hp => exact h.publish hp

/-! ## The consumers' accesses -/

/-- A consumer without a claim moves on by itself. -/
theorem Inv.move (h : Inv c s) {i : ι} {p : TaskConsumer} (hi : ∀ k tail, s.consumer i ≠ .claimed k tail)
    (hp : ∀ k tail, p ≠ .claimed k tail) : Inv c (s.move i p) := by
  have hiff : ∀ j k tail, (s.move i p).consumer j = .claimed k tail ↔ s.consumer j = .claimed k tail := by
    intro j k tail
    rw [consumer_move]
    constructor
    · rintro (⟨-, hx⟩ | ⟨-, hj⟩)
      · exact absurd hx (hp k tail)
      · exact hj
    · intro hj
      refine .inr ⟨?_, hj⟩
      rintro rfl
      exact hi k tail hj
  refine ⟨h.head, h.tail, h.le, h.room, h.items, ?_, ?_, h.returned, ?_⟩
  · exact h.producer.mono (le_refl _) (fun _ => rfl) fun j k hj => (hiff j k _).mp hj
  · intro j k tail hj
    have hc := h.claim j k tail ((hiff j k tail).mp hj)
    exact ⟨hc.open_, hc.slot, hc.item, hc.apart, fun j' k' hj' => hc.single j' k' ((hiff j' k' tail).mp hj')⟩
  · intro k hk
    obtain ⟨j, tail, hj⟩ := h.underway k hk
    exact ⟨j, tail, (hiff j k tail).mpr hj⟩

/-- The oldest item of a ring that is not empty is claimed. -/
theorem Inv.claiming (h : Inv c s) {i : ι} (hi : ∀ k tail, s.consumer i ≠ .claimed k tail) (hne : s.tail ≠ s.head) :
    Inv c { s.move i (.claimed s.claims.length s.tail) with tail := next c s.tail, claims := s.claims ++ [none] } := by
  have hlen : (s.claims ++ [(none : Option α)]).length = s.claims.length + 1 := by simp
  have hlt : s.claims.length < s.pushed.length := by
    refine Nat.lt_of_le_of_ne h.le fun he => hne ?_
    rw [h.tail, h.head, he]
  have hroom := h.room
  -- no other claim stands on this slot
  have hfree : ∀ j k, s.consumer j ≠ .claimed k s.tail := by
    intro j k hj
    exact (h.claim j k _ hj).apart _ (le_refl _) hlt h.tail.symm
  have hcons : ∀ {j k tail}, (s.move i (.claimed s.claims.length s.tail)).consumer j = .claimed k tail →
      (j = i ∧ k = s.claims.length ∧ tail = s.tail) ∨ (j ≠ i ∧ s.consumer j = .claimed k tail) := by
    intro j k tail hj
    obtain ⟨hji, hx⟩ | hj := consumer_move.mp hj
    · injection hx with hk htail
      exact .inl ⟨hji, hk.symm, htail.symm⟩
    · exact .inr hj
  refine ⟨h.head, ?_, ?_, ?_, ?_, ?_, ?_, ?_, ?_⟩
  · rw [hlen, h.tail]
    exact next_slot _
  · show (s.claims ++ [none]).length ≤ s.pushed.length
    omega
  · show s.pushed.length < (s.claims ++ [none]).length + c.places
    omega
  · intro k hk hkl
    rw [hlen] at hk
    exact h.items k (by omega) hkl
  · refine h.producer.mono (by rw [hlen]; omega) (fun _ => rfl) fun j k hj => ?_
    obtain ⟨-, -, hslot⟩ | ⟨-, hj⟩ := hcons hj
    · rw [h.tail] at hslot
      exact absurd hslot.symm (c.slot_ne hlt hroom)
    · exact hj
  · intro j k tail hj
    obtain ⟨rfl, rfl, rfl⟩ | ⟨-, hj⟩ := hcons hj
    · refine ⟨List.getElem?_concat_length, h.tail, ?_, ?_, ?_⟩
      · show s.pushed[s.claims.length]? = some (s.buffer s.tail)
        rw [h.tail]
        exact h.items _ (le_refl _) hlt
      · intro j' hj' hjl
        rw [hlen] at hj'
        have hjl' : j' < s.pushed.length := hjl
        rw [h.tail]
        exact (c.slot_ne hj' (by omega)).symm
      · intro i' k' hi'
        obtain ⟨rfl, -⟩ | ⟨-, hi'⟩ := hcons hi'
        · rfl
        · exact absurd hi' (hfree i' k')
    · have hc := h.claim j k tail hj
      refine ⟨getElem?_append_of_some hc.open_ _, hc.slot, hc.item, ?_, ?_⟩
      · intro j' hj' hjl
        rw [hlen] at hj'
        exact hc.apart j' (by omega) hjl
      · intro i' k' hi'
        obtain ⟨-, -, rfl⟩ | ⟨-, hi'⟩ := hcons hi'
        · exact absurd hj (hfree j k)
        · exact hc.single i' k' hi'
  · intro k x hk
    obtain hk | ⟨-, hx⟩ := getElem?_concat_eq_some.mp hk
    · exact h.returned k x hk
    · cases hx
  · intro k hk
    obtain hk | ⟨rfl, -⟩ := getElem?_concat_eq_some.mp hk
    · obtain ⟨j, tail, hj⟩ := h.underway k hk
      refine ⟨j, tail, consumer_move.mpr (.inr ⟨?_, hj⟩)⟩
      rintro rfl
      exact hi k tail hj
    · exact ⟨i, s.tail, consumer_move.mpr (.inl ⟨rfl, rfl⟩)⟩

/-- The pop returns its item and leaves the claim. -/
theorem Inv.returning (h : Inv c s) {i : ι} {k : ℕ} {tail : BitVec 64} (hi : s.consumer i = .claimed k tail) :
    Inv c { s.move i .idle with
      buffer := Function.update s.buffer tail (residue (s.buffer tail))
      claims := s.claims.set k (some (s.buffer tail)) } := by
  have hc := h.claim i k tail hi
  have hklt : k < s.claims.length := (List.getElem?_eq_some_iff.mp hc.open_).1
  have hlen : (s.claims.set k (some (s.buffer tail))).length = s.claims.length := List.length_set
  have hcons : ∀ {j k' tail'}, (s.move i .idle).consumer j = .claimed k' tail' →
      j ≠ i ∧ s.consumer j = .claimed k' tail' := by
    intro j k' tail' hj
    obtain ⟨-, hx⟩ | hj := consumer_move.mp hj
    · cases hx
    · exact hj
  refine ⟨h.head, ?_, ?_, ?_, ?_, ?_, ?_, ?_, ?_⟩
  · rw [hlen]
    exact h.tail
  · show (s.claims.set k _).length ≤ s.pushed.length
    rw [hlen]
    exact h.le
  · show s.pushed.length < (s.claims.set k _).length + c.places
    rw [hlen]
    exact h.room
  · intro j hj hjl
    rw [hlen] at hj
    show s.pushed[j]? = some (Function.update s.buffer tail _ (c.slot j))
    rw [Function.update_of_ne (hc.apart j hj hjl)]
    exact h.items j hj hjl
  · refine h.producer.mono hlen.ge (fun hfree => Function.update_of_ne ?_ _ _) fun j k' hj => (hcons hj).2
    rintro rfl
    exact hfree i k hi
  · intro j k' tail' hj
    obtain ⟨hji, hj'⟩ := hcons hj
    have hc' := h.claim j k' tail' hj'
    have hne : tail' ≠ tail := by
      rintro rfl
      exact hji (hc.single j k' hj')
    have hkk : k ≠ k' := by
      rintro rfl
      exact hne (hc'.slot.trans hc.slot.symm)
    refine ⟨?_, hc'.slot, ?_, ?_, fun i' k'' hi' => hc'.single i' k'' (hcons hi').2⟩
    · show (s.claims.set k _)[k']? = some none
      rw [List.getElem?_set_ne hkk]
      exact hc'.open_
    · show s.pushed[k']? = some (Function.update s.buffer tail _ tail')
      rw [Function.update_of_ne hne]
      exact hc'.item
    · intro j' hj'' hjl
      rw [hlen] at hj''
      exact hc'.apart j' hj'' hjl
  · intro k' x hk'
    have hk'' : (s.claims.set k (some (s.buffer tail)))[k']? = some (some x) := hk'
    by_cases hkk : k = k'
    · subst hkk
      rw [List.getElem?_set_self hklt] at hk''
      injection hk'' with hx
      injection hx with hx
      rw [← hx]
      exact hc.item
    · rw [List.getElem?_set_ne hkk] at hk''
      exact h.returned k' x hk''
  · intro k' hk'
    have hk'' : (s.claims.set k (some (s.buffer tail)))[k']? = some none := hk'
    have hkk : k ≠ k' := by
      rintro rfl
      rw [List.getElem?_set_self hklt] at hk''
      cases hk''
    rw [List.getElem?_set_ne hkk] at hk''
    obtain ⟨j, tail', hj⟩ := h.underway k' hk''
    refine ⟨j, tail', consumer_move.mpr (.inr ⟨?_, hj⟩)⟩
    rintro rfl
    rw [hi] at hj
    injection hj with hkeq
    exact hkk hkeq

theorem inv_consumeStep (h : Inv c s) {i : ι} {spurious : Bool}
    (hok : ∀ tail, s.consumer i = .claiming tail → s.tail = tail → spurious = false → s.tail ≠ s.head) :
    Inv c (s.consumeStep c residue i spurious) := by
  unfold consumeStep
  split
  · exact h
  · next tail hp =>
    have hi : ∀ k tail, s.consumer i ≠ .claimed k tail := by
      intro k tail' hx
      rw [hp] at hx
      cases hx
    split
    · exact h.move hi (fun _ _ hx => by cases hx)
    · exact h.move hi (fun _ _ hx => by cases hx)
  · next tail hp =>
    have hi : ∀ k tail, s.consumer i ≠ .claimed k tail := by
      intro k tail' hx
      rw [hp] at hx
      cases hx
    split
    · next hcas =>
      obtain ⟨rfl, hsp⟩ := hcas
      exact h.claiming hi (hok _ hp rfl hsp)
    · exact h.move hi (fun _ _ hx => by cases hx)
  · next k tail hp => exact h.returning hp

theorem inv_step (h : Inv c s) {a : TaskAct α ι} (hok : s.Orderly a) : Inv c (s.step c residue a) := by
  cases a with
  | push x =>
    simp only [step]
    split
    · exact h.producing (show ProducerOk c s _ _ (.loaded x s.head) from h.head)
    · exact h
  | produce =>
    refine inv_produceStep h ?_
    intro x head hp i k hi
    simp only [Orderly, hp, Unclaimed] at hok
    refine hok i ?_
    rw [hi]
    rfl
  | pop i =>
    simp only [step]
    split
    · next hp =>
      refine h.move ?_ (fun _ _ hx => by cases hx)
      intro k tail hx
      rw [hp] at hx
      cases hx
    · exact h
  | consume i spurious =>
    refine inv_consumeStep h ?_
    intro tail hp
    simp only [Orderly, hp, Stocked] at hok
    exact hok

/-- **Exactly once.** For every capacity, any consumers and every interleaving in which no slot is written between its
claim and its read, and no compare-exchange succeeds on an empty ring. -/
theorem exactly_once (c : Pow2) (residue : α → α) (buffer : BitVec 64 → α) (acts : List (TaskAct α ι))
    (hok : Admitted (step c residue) Orderly (fresh buffer) acts) :
    ∀ bs, bs <+: acts → ExactlyOnce (after c residue buffer bs) := by
  intro bs hbs
  have hrun : Run (fun s a u => step c residue s a = u) Orderly (fresh buffer) bs (after c residue buffer bs) :=
    Run.of_admitted (fun _ _ _ => rfl) (hok.of_prefix bs hbs)
  refine Inv.exactlyOnce (c := c) (hrun.invariant (inv_fresh buffer) ?_)
  rintro t a _ ht hta rfl
  exact inv_step ht hta

/-- A push of `x` in one go. -/
def pushAll (x : α) : List (TaskAct α ι) := [.push x, .produce, .produce, .produce]

/-- A pop up to its claim. -/
def claimAll (i : ι) : List (TaskAct α ι) := [.pop i, .consume i false, .consume i false]

/-- Two items for two consumers. -/
theorem exactly_once_two_items :
    let acts : List (TaskAct ℕ (Fin 2)) :=
      pushAll 7 ++ claimAll 0 ++ pushAll 8 ++ claimAll 1 ++
        ([.consume 1 false, .consume 0 false] : List (TaskAct ℕ (Fin 2)))
    (after .two (fun _ => 0) (fun _ => 0) acts).claims = [some 7, some 8] ∧
      ExactlyOnce (after .two (fun _ => 0) (fun _ => 0) acts) := by
  intro acts
  exact ⟨by decide +kernel,
    exactly_once .two (fun _ => 0) (fun _ => 0) acts (by decide +kernel) acts List.prefix_rfl⟩

/-- A consumer claims 7 and is suspended; once another one has claimed 8, the producer writes 9 over 7. -/
theorem overtaken_claim :
    let acts : List (TaskAct ℕ (Fin 2)) :=
      pushAll 7 ++ claimAll 0 ++ pushAll 8 ++ claimAll 1 ++ pushAll 9 ++
        ([.consume 0 false] : List (TaskAct ℕ (Fin 2)))
    (after .two id (fun _ => 0) acts).pushed = [7, 8, 9] ∧
      (after .two id (fun _ => 0) acts).claims = [some 9, none] ∧
      ¬ ExactlyOnce (after .two id (fun _ => 0) acts) := by
  intro acts
  have hpushed : (after .two id (fun _ => 0) acts).pushed = [7, 8, 9] := by decide +kernel
  have hclaims : (after .two id (fun _ => 0) acts).claims = [some 9, none] := by decide +kernel
  refine ⟨hpushed, hclaims, fun h => ?_⟩
  have h0 := h.returned 0 9 (by rw [hclaims]; rfl)
  rw [hpushed] at h0
  exact absurd h0 (by decide)

/-- A consumer finds 7 in the ring and is suspended; the index comes round while another one takes 7 and 8, and the
compare-exchange succeeds on the empty ring. -/
theorem claim_of_nothing :
    let acts : List (TaskAct ℕ (Fin 2)) :=
      pushAll 7 ++ ([.pop 0, .consume 0 false] : List (TaskAct ℕ (Fin 2))) ++ claimAll 1 ++
        ([.consume 1 false] : List (TaskAct ℕ (Fin 2))) ++ pushAll 8 ++ claimAll 1 ++
        ([.consume 1 false, .consume 0 false, .consume 0 false] : List (TaskAct ℕ (Fin 2)))
    (after .two id (fun _ => 0) acts).pushed = [7, 8] ∧
      (after .two id (fun _ => 0) acts).claims = [some 7, some 8, some 7] ∧
      ¬ ExactlyOnce (after .two id (fun _ => 0) acts) := by
  intro acts
  have hpushed : (after .two id (fun _ => 0) acts).pushed = [7, 8] := by decide +kernel
  have hclaims : (after .two id (fun _ => 0) acts).claims = [some 7, some 8, some 7] := by decide +kernel
  refine ⟨hpushed, hclaims, fun h => ?_⟩
  have hle := h.claimed
  rw [hpushed, hclaims] at hle
  exact absurd hle (by decide)

end TaskRing

end Wirekrak.Lockfree

import Mathlib.Data.Fin.VecNotation
import Mathlib.Data.Fintype.Basic
import Mathlib.Logic.Function.Basic
import Wirekrak.Lib.Run

/-!
# Wirekrak.Lockfree.Snapshot — `last_value_snapshot`, one word or one atomic access a step

One writer publishes values of `n` words through two buffers: it writes the words of the buffer that is not active,
turns `active_index_` and counts `epoch_`.  A reader that finds a new epoch loads the index and copies the buffer word
by word.  The writer never looks at the readers.

* `Snapshot.stores`: the published values, in order; `Snapshot.obtained`: the values each reader has got.
* `Faithful`: every value a reader got is that of one store, and no reader goes back.
* `faithful`: this holds in every state of a run in which no reader is overtaken in the middle of a copy
  (`Undisturbed`).  In `torn_copy` the writer publishes twice during one copy.
-/

namespace Wirekrak.Lockfree

open Wirekrak.Lib

/-- Where the writer stands in `publish_`: the other buffer chosen and `j` of its words written, the index turned. -/
inductive SnapshotWriter (n : ℕ) (ω : Type*) where
  | idle
  | writing (v : Fin n → ω) (next : Bool) (j : ℕ)
  | published

/-- Where a reader stands in `load_if_updated`: a new epoch seen, `j` words of a buffer copied. -/
inductive SnapshotReader where
  | idle
  | entered (e : BitVec 64)
  | copying (e : BitVec 64) (idx : Bool) (j : ℕ)
  deriving DecidableEq

/-- `lastEpoch` and `out` are the variables that a reader hands to `load_if_updated`. -/
structure Snapshot (n : ℕ) (ω ρ : Type*) where
  buffers : Bool → Fin n → ω
  activeIndex : Bool := false
  epoch : BitVec 64 := 0
  writer : SnapshotWriter n ω := .idle
  reader : ρ → SnapshotReader := fun _ => .idle
  lastEpoch : ρ → BitVec 64
  out : ρ → Fin n → ω
  stores : List (Fin n → ω) := []
  obtained : ρ → List (Fin n → ω) := fun _ => []

inductive SnapshotAct (n : ℕ) (ω ρ : Type*) where
  | store (v : Fin n → ω)
  | write
  /-- The caller gives its variable another value. -/
  | setEpoch (r : ρ) (e : BitVec 64)
  | load (r : ρ)
  | read (r : ρ)

namespace Snapshot

variable {n : ℕ} {ω ρ : Type*}

def writeStep (s : Snapshot n ω ρ) : Snapshot n ω ρ :=
  match s.writer with
  | .idle => s
  | .writing v next j =>
    if h : j < n then
      { s with
        buffers := Function.update s.buffers next (Function.update (s.buffers next) ⟨j, h⟩ (v ⟨j, h⟩))
        writer := .writing v next (j + 1) }
    else { s with activeIndex := next, writer := .published, stores := s.stores ++ [v] }
  | .published => { s with epoch := s.epoch + 1, writer := .idle }

variable [DecidableEq ρ]

def move (s : Snapshot n ω ρ) (r : ρ) (p : SnapshotReader) : Snapshot n ω ρ :=
  { s with reader := Function.update s.reader r p }

def readStep (s : Snapshot n ω ρ) (r : ρ) : Snapshot n ω ρ :=
  match s.reader r with
  | .idle => s
  | .entered e => s.move r (.copying e s.activeIndex 0)
  | .copying e idx j =>
    if h : j < n then
      { s.move r (.copying e idx (j + 1)) with
        out := Function.update s.out r (Function.update (s.out r) ⟨j, h⟩ (s.buffers idx ⟨j, h⟩)) }
    else
      { s.move r .idle with
        lastEpoch := Function.update s.lastEpoch r e
        obtained := Function.update s.obtained r (s.obtained r ++ [s.out r]) }

def step (s : Snapshot n ω ρ) : SnapshotAct n ω ρ → Snapshot n ω ρ
  | .store v =>
    match s.writer with
    | .idle => { s with writer := .writing v (!s.activeIndex) 0 }
    | _ => s
  | .write => s.writeStep
  | .setEpoch r e =>
    match s.reader r with
    | .idle => { s with lastEpoch := Function.update s.lastEpoch r e }
    | _ => s
  | .load r =>
    match s.reader r with
    | .idle => if s.epoch = s.lastEpoch r then s else s.move r (.entered s.epoch)
    | _ => s
  | .read r => s.readStep r

/-- A slot as constructed, over any contents of its buffers and of the readers' variables. -/
def fresh (buffers : Bool → Fin n → ω) (lastEpoch : ρ → BitVec 64) (out : ρ → Fin n → ω) : Snapshot n ω ρ :=
  { buffers := buffers, lastEpoch := lastEpoch, out := out }

/-- The values a reader got are those of stores, each of one store, in store order. -/
def Faithful (s : Snapshot n ω ρ) : Prop :=
  ∀ r, ∃ ks : List ℕ, ks.Pairwise (· ≤ ·) ∧ ks.map (fun k => s.stores[k]?) = (s.obtained r).map some

/-! ## The condition -/

/-- The reader has copied some words of the buffer, and not all. -/
def Midway (n : ℕ) (b : Bool) : SnapshotReader → Prop
  | .copying _ idx j => idx = b ∧ 0 < j ∧ j < n
  | _ => False

/-- The writer has begun to write the buffer and not published it. -/
def Unfinished (b : Bool) : SnapshotWriter n ω → Prop
  | .writing _ next j => next = b ∧ 0 < j
  | _ => False

/-- No reader is in the middle of the buffer whose next word is written. -/
def Unread (s : Snapshot n ω ρ) : SnapshotWriter n ω → Prop
  | .writing _ next j => j < n → ∀ r, ¬ Midway n next (s.reader r)
  | _ => True

/-- The buffer whose next word is copied is not being written. -/
def Settled (s : Snapshot n ω ρ) : SnapshotReader → Prop
  | .copying _ idx j => j < n → ¬ Unfinished idx s.writer
  | _ => True

/-- And nothing is loaded before the first store. -/
def Undisturbed (s : Snapshot n ω ρ) : SnapshotAct n ω ρ → Prop
  | .write => s.Unread s.writer
  | .read r => s.Settled (s.reader r)
  | .load r => s.epoch ≠ s.lastEpoch r → s.stores ≠ []
  | _ => True

section

instance (b : Bool) : DecidablePred (Midway n b)
  | .copying _ idx j => inferInstanceAs (Decidable (idx = b ∧ 0 < j ∧ j < n))
  | .idle => inferInstanceAs (Decidable False)
  | .entered _ => inferInstanceAs (Decidable False)

instance (b : Bool) : DecidablePred (Unfinished b : SnapshotWriter n ω → Prop)
  | .writing _ next j => inferInstanceAs (Decidable (next = b ∧ 0 < j))
  | .idle => inferInstanceAs (Decidable False)
  | .published => inferInstanceAs (Decidable False)

variable (s : Snapshot n ω ρ)

instance [Fintype ρ] : DecidablePred s.Unread
  | .writing _ next j => inferInstanceAs (Decidable (j < n → ∀ r, ¬ Midway n next (s.reader r)))
  | .idle => inferInstanceAs (Decidable True)
  | .published => inferInstanceAs (Decidable True)

instance : DecidablePred s.Settled
  | .copying _ idx j => inferInstanceAs (Decidable (j < n → ¬ Unfinished idx s.writer))
  | .idle => inferInstanceAs (Decidable True)
  | .entered _ => inferInstanceAs (Decidable True)

instance [Fintype ρ] [DecidableEq ω] : DecidablePred s.Undisturbed
  | .write => inferInstanceAs (Decidable (s.Unread s.writer))
  | .read r => inferInstanceAs (Decidable (s.Settled (s.reader r)))
  | .load r => inferInstanceAs (Decidable (s.epoch ≠ s.lastEpoch r → s.stores ≠ []))
  | .store _ => inferInstanceAs (Decidable True)
  | .setEpoch _ _ => inferInstanceAs (Decidable True)

end

/-! ## The invariant -/

/-- The buffer that the `k`-th store (counted from 0) goes to. -/
def bufferOf (k : ℕ) : Bool := decide (k % 2 = 0)

theorem bufferOf_succ (k : ℕ) : bufferOf (k + 1) = !bufferOf k := by
  unfold bufferOf
  by_cases hk : k % 2 = 0
  · rw [decide_eq_false (by omega), decide_eq_true hk]
    rfl
  · rw [decide_eq_true (by omega), decide_eq_false hk]
    rfl

theorem bufferOf_add_two (k : ℕ) : bufferOf (k + 2) = bufferOf k := by
  rw [bufferOf_succ, bufferOf_succ, Bool.not_not]

def WriterOk (count : ℕ) (buffers : Bool → Fin n → ω) : SnapshotWriter n ω → Prop
  | .writing v next j => next = bufferOf count ∧ j ≤ n ∧ ∀ i : Fin n, i.val < j → buffers next i = v i
  | _ => True

/-- The reader gets nothing older than the stores `ks` it got already. -/
def ReaderOk (stores : List (Fin n → ω)) (buffers : Bool → Fin n → ω) (out : Fin n → ω) (ks : List ℕ) :
    SnapshotReader → Prop
  | .idle => True
  | .entered _ => 0 < stores.length
  | .copying _ idx j => j ≤ n ∧ ∃ k, (∀ k' ∈ ks, k' ≤ k) ∧ k < stores.length ∧ bufferOf k = idx ∧
    (0 < j → ∃ w, stores[k]? = some w ∧ (∀ i : Fin n, i.val < j → out i = w i) ∧ (j < n → buffers idx = w))

/-- The stores behind the values that a reader got. -/
structure Trail (s : Snapshot n ω ρ) (r : ρ) (ks : List ℕ) : Prop where
  sorted : ks.Pairwise (· ≤ ·)
  values : ks.map (fun k => s.stores[k]?) = (s.obtained r).map some
  lt : ∀ k ∈ ks, k < s.stores.length
  phase : ReaderOk s.stores s.buffers (s.out r) ks (s.reader r)

structure Inv (s : Snapshot n ω ρ) : Prop where
  active : s.activeIndex = !bufferOf s.stores.length
  /-- The last two stores stand in the buffers, until the older one is overwritten. -/
  content : ∀ k, k < s.stores.length → s.stores.length ≤ k + 2 →
    (k + 2 = s.stores.length → ¬ Unfinished (bufferOf k) s.writer) → s.stores[k]? = some (s.buffers (bufferOf k))
  writer : WriterOk s.stores.length s.buffers s.writer
  trail : ∀ r, ∃ ks, Trail s r ks

variable {s : Snapshot n ω ρ}

omit [DecidableEq ρ] in
theorem inv_fresh (buffers : Bool → Fin n → ω) (lastEpoch : ρ → BitVec 64) (out : ρ → Fin n → ω) :
    Inv (fresh buffers lastEpoch out) where
  active := rfl
  content := fun k hk => absurd hk (Nat.not_lt_zero k)
  writer := trivial
  trail := fun _ => ⟨[], List.Pairwise.nil, rfl, fun _ hk => absurd hk List.not_mem_nil, trivial⟩

omit [DecidableEq ρ] in
theorem Inv.toFaithful (h : Inv s) : Faithful s := by
  intro r
  obtain ⟨ks, hks⟩ := h.trail r
  exact ⟨ks, hks.sorted, hks.values⟩

omit [DecidableEq ρ] in
/-- A buffer that is not being written holds a store that is not older than any that went to it. -/
theorem Inv.newest (h : Inv s) {k : ℕ} (hk : k < s.stores.length) (hw : ¬ Unfinished (bufferOf k) s.writer) :
    ∃ k', k ≤ k' ∧ k' < s.stores.length ∧ bufferOf k' = bufferOf k ∧
      s.stores[k']? = some (s.buffers (bufferOf k)) := by
  by_cases hlast : bufferOf (s.stores.length - 1) = bufferOf k
  · refine ⟨s.stores.length - 1, by omega, by omega, hlast, ?_⟩
    rw [← hlast]
    exact h.content _ (by omega) (by omega) (fun he => by omega)
  · have hne : k ≠ s.stores.length - 1 := fun he => hlast (by rw [← he])
    have hsame : bufferOf (s.stores.length - 2) = bufferOf k := by
      have hsucc : s.stores.length - 1 = (s.stores.length - 2) + 1 := by omega
      rw [hsucc, bufferOf_succ] at hlast
      have key : ∀ a b : Bool, ¬ (!a) = b → a = b := by decide
      exact key _ _ hlast
    refine ⟨s.stores.length - 2, by omega, by omega, hsame, ?_⟩
    rw [← hsame] at hw ⊢
    exact h.content _ (by omega) (by omega) (fun _ => hw)

/-! ## The writer's accesses -/

omit [DecidableEq ρ] in
theorem inv_storing (h : Inv s) (hi : s.writer = .idle) (v : Fin n → ω) :
    Inv { s with writer := .writing v (!s.activeIndex) 0 } where
  active := h.active
  content := by
    intro k hk hle _
    refine h.content k hk hle fun _ hu => ?_
    rw [hi] at hu
    exact hu
  writer := by
    refine ⟨?_, Nat.zero_le _, fun i hi => absurd hi (Nat.not_lt_zero _)⟩
    show (!s.activeIndex) = bufferOf s.stores.length
    rw [h.active, Bool.not_not]
  trail := by
    intro r
    obtain ⟨ks, hks⟩ := h.trail r
    exact ⟨ks, hks.sorted, hks.values, hks.lt, hks.phase⟩

omit [DecidableEq ρ] in
theorem inv_word (h : Inv s) {v : Fin n → ω} {next : Bool} {j : ℕ} (hw : s.writer = .writing v next j) (hj : j < n)
    (hok : ∀ r, ¬ Midway n next (s.reader r)) :
    Inv { s with
      buffers := Function.update s.buffers next (Function.update (s.buffers next) ⟨j, hj⟩ (v ⟨j, hj⟩))
      writer := .writing v next (j + 1) } := by
  have hwr := h.writer
  rw [hw] at hwr
  obtain ⟨rfl, -, hwords⟩ := hwr
  refine ⟨h.active, ?_, ⟨rfl, hj, ?_⟩, ?_⟩
  · intro k hk hle hun
    have hk' : k < s.stores.length := hk
    have hle' : s.stores.length ≤ k + 2 := hle
    by_cases hk2 : k + 2 = s.stores.length
    · refine absurd ?_ (hun hk2)
      refine ⟨?_, Nat.succ_pos j⟩
      show bufferOf s.stores.length = bufferOf k
      rw [← hk2, bufferOf_add_two]
    · -- the newest store stands in the other buffer
      have hk1 : s.stores.length = k + 1 := by omega
      have hne : bufferOf k ≠ bufferOf s.stores.length := by
        rw [hk1, bufferOf_succ]
        cases bufferOf k <;> decide
      show s.stores[k]? = some (Function.update s.buffers (bufferOf s.stores.length) _ (bufferOf k))
      rw [Function.update_of_ne hne]
      exact h.content k hk' hle' (fun he => absurd he hk2)
  · intro i hi
    show Function.update s.buffers (bufferOf s.stores.length) _ (bufferOf s.stores.length) i = v i
    rw [Function.update_self]
    by_cases hij : i = ⟨j, hj⟩
    · rw [hij, Function.update_self]
    · rw [Function.update_of_ne hij]
      have hne : i.val ≠ j := fun he => hij (Fin.ext he)
      exact hwords i (by omega)
  · intro r
    obtain ⟨ks, hks⟩ := h.trail r
    refine ⟨ks, hks.sorted, hks.values, hks.lt, ?_⟩
    have hph := hks.phase
    show ReaderOk s.stores _ (s.out r) ks (s.reader r)
    cases hr : s.reader r with
    | idle => trivial
    | entered e => rw [hr] at hph; exact hph
    | copying e idx j' =>
      rw [hr] at hph
      obtain ⟨hjn, k, h1, h2, h3, h4⟩ := hph
      refine ⟨hjn, k, h1, h2, h3, fun hpos => ?_⟩
      obtain ⟨w, hw1, hw2, hw3⟩ := h4 hpos
      refine ⟨w, hw1, hw2, fun hlt => ?_⟩
      have hne : idx ≠ bufferOf s.stores.length := by
        intro he
        refine hok r ?_
        rw [hr]
        exact ⟨he, hpos, hlt⟩
      show Function.update s.buffers (bufferOf s.stores.length) _ idx = w
      rw [Function.update_of_ne hne]
      exact hw3 hlt

omit [DecidableEq ρ] in
theorem inv_publish (h : Inv s) {v : Fin n → ω} {next : Bool} {j : ℕ} (hw : s.writer = .writing v next j)
    (hj : ¬ j < n) : Inv { s with activeIndex := next, writer := .published, stores := s.stores ++ [v] } := by
  have hwr := h.writer
  rw [hw] at hwr
  obtain ⟨rfl, hjn, hwords⟩ := hwr
  have hlen : (s.stores ++ [v]).length = s.stores.length + 1 := by simp
  have hv : s.buffers (bufferOf s.stores.length) = v := by
    ext i
    exact hwords i (by have := i.isLt; omega)
  refine ⟨?_, ?_, trivial, ?_⟩
  · show bufferOf s.stores.length = !bufferOf (s.stores ++ [v]).length
    rw [hlen, bufferOf_succ, Bool.not_not]
  · intro k hk hle _
    have hk' : k < s.stores.length + 1 := by rw [← hlen]; exact hk
    have hle' : s.stores.length + 1 ≤ k + 2 := by rw [← hlen]; exact hle
    show (s.stores ++ [v])[k]? = some (s.buffers (bufferOf k))
    by_cases hkl : k = s.stores.length
    · rw [hkl, List.getElem?_concat_length, hv]
    · exact getElem?_append_of_some (h.content k (by omega) (by omega) (fun he => by omega)) _
  · intro r
    obtain ⟨ks, hks⟩ := h.trail r
    have hlt' : ∀ k, k < s.stores.length → k < (s.stores ++ [v]).length := fun k hk => by omega
    refine ⟨ks, hks.sorted, ?_, fun k hk => hlt' k (hks.lt k hk), ?_⟩
    · rw [← hks.values]
      refine List.map_congr_left fun k hk => ?_
      exact List.getElem?_append_left (hks.lt k hk)
    · have hph := hks.phase
      show ReaderOk (s.stores ++ [v]) s.buffers (s.out r) ks (s.reader r)
      cases hr : s.reader r with
      | idle => trivial
      | entered e =>
        rw [hr] at hph
        exact hlt' 0 hph
      | copying e idx j' =>
        rw [hr] at hph
        obtain ⟨hjn', k, h1, h2, h3, h4⟩ := hph
        refine ⟨hjn', k, h1, hlt' k h2, h3, fun hpos => ?_⟩
        obtain ⟨w, hw1, hw2, hw3⟩ := h4 hpos
        exact ⟨w, getElem?_append_of_some hw1 _, hw2, hw3⟩

omit [DecidableEq ρ] in
theorem inv_writeStep (h : Inv s) (hok : s.Unread s.writer) : Inv s.writeStep := by
  unfold writeStep
  split
  · exact h
  · next v next j hw =>
    rw [hw] at hok
    split
    · next hj => exact inv_word h hw hj (hok hj)
    · next hj => exact inv_publish h hw hj
  · next hw =>
    refine ⟨h.active, ?_, trivial, ?_⟩
    · intro k hk hle _
      refine h.content k hk hle fun _ hu => ?_
      rw [hw] at hu
      exact hu
    · intro r
      obtain ⟨ks, hks⟩ := h.trail r
      exact ⟨ks, hks.sorted, hks.values, hks.lt, hks.phase⟩

/-! ## The readers' accesses -/

/-- One reader moves on, with its own variable and what it has got; the others do not notice. -/
theorem Inv.reading (h : Inv s) (r : ρ) (p : SnapshotReader) (out : Fin n → ω) (lastEpoch : ρ → BitVec 64)
    (obtained : List (Fin n → ω))
    (hr : ∃ ks : List ℕ, ks.Pairwise (· ≤ ·) ∧ ks.map (fun k => s.stores[k]?) = obtained.map some ∧
      (∀ k ∈ ks, k < s.stores.length) ∧ ReaderOk s.stores s.buffers out ks p) :
    Inv { s.move r p with
      out := Function.update s.out r out
      lastEpoch := lastEpoch
      obtained := Function.update s.obtained r obtained } := by
  refine ⟨h.active, h.content, h.writer, ?_⟩
  intro r'
  by_cases hrr : r' = r
  · subst hrr
    obtain ⟨ks, h1, h2, h3, h4⟩ := hr
    refine ⟨ks, h1, ?_, h3, ?_⟩
    · show ks.map (fun k => s.stores[k]?) = (Function.update s.obtained r' obtained r').map some
      rw [Function.update_self]
      exact h2
    · show ReaderOk s.stores s.buffers (Function.update s.out r' out r') ks (Function.update s.reader r' p r')
      rw [Function.update_self, Function.update_self]
      exact h4
  · obtain ⟨ks, hks⟩ := h.trail r'
    refine ⟨ks, hks.sorted, ?_, hks.lt, ?_⟩
    · show ks.map (fun k => s.stores[k]?) = (Function.update s.obtained r obtained r').map some
      rw [Function.update_of_ne hrr]
      exact hks.values
    · show ReaderOk s.stores s.buffers (Function.update s.out r out r') ks (Function.update s.reader r p r')
      rw [Function.update_of_ne hrr, Function.update_of_ne hrr]
      exact hks.phase

/-- A reader moves on and has got nothing yet. -/
theorem Inv.moving (h : Inv s) {r : ρ} {p : SnapshotReader} {out : Fin n → ω}
    (hp : ∀ ks, Trail s r ks → ReaderOk s.stores s.buffers out ks p) :
    Inv { s.move r p with out := Function.update s.out r out } := by
  obtain ⟨ks, hks⟩ := h.trail r
  have hinv := h.reading r p out s.lastEpoch (s.obtained r) ⟨ks, hks.sorted, hks.values, hks.lt, hp ks hks⟩
  rwa [Function.update_eq_self] at hinv

/-- A reader moves on by itself. -/
theorem Inv.move (h : Inv s) {r : ρ} {p : SnapshotReader}
    (hp : ∀ ks, Trail s r ks → ReaderOk s.stores s.buffers (s.out r) ks p) : Inv (s.move r p) := by
  have hinv := h.moving hp
  rwa [Function.update_eq_self] at hinv

/-- A word is copied from a buffer that stays as it is for the rest of the copy. -/
theorem inv_copyWord (h : Inv s) {r : ρ} {e : BitVec 64} {idx : Bool} {j : ℕ} (hr : s.reader r = .copying e idx j)
    (hj : j < n) (hok : ¬ Unfinished idx s.writer) :
    Inv { s.move r (.copying e idx (j + 1)) with
      out := Function.update s.out r (Function.update (s.out r) ⟨j, hj⟩ (s.buffers idx ⟨j, hj⟩)) } := by
  refine h.moving fun ks hks => ?_
  have hph := hks.phase
  rw [hr] at hph
  obtain ⟨-, k, h1, h2, rfl, h4⟩ := hph
  have hnew : ∀ w : Fin n → ω, s.buffers (bufferOf k) = w → (∀ i : Fin n, i.val < j → s.out r i = w i) →
      ∀ i : Fin n, i.val < j + 1 → Function.update (s.out r) ⟨j, hj⟩ (s.buffers (bufferOf k) ⟨j, hj⟩) i = w i := by
    intro w hb hold i hi
    by_cases hij : i = ⟨j, hj⟩
    · rw [hij, Function.update_self, hb]
    · rw [Function.update_of_ne hij]
      have hne : i.val ≠ j := fun he => hij (Fin.ext he)
      exact hold i (by omega)
  by_cases hpos : 0 < j
  · obtain ⟨w, hw1, hw2, hw3⟩ := h4 hpos
    exact ⟨hj, k, h1, h2, rfl, fun _ => ⟨w, hw1, hnew w (hw3 hj) hw2, fun _ => hw3 hj⟩⟩
  · -- the first word decides which store is read
    obtain ⟨k', hle, hlt, hbuf, hstore⟩ := h.newest h2 hok
    refine ⟨hj, k', fun x hx => Nat.le_trans (h1 x hx) hle, hlt, hbuf, fun _ => ⟨_, hstore, ?_, fun _ => rfl⟩⟩
    exact hnew _ rfl fun i hi => absurd hi (by omega)

theorem inv_return (h : Inv s) {r : ρ} {e : BitVec 64} {idx : Bool} {j : ℕ} (hr : s.reader r = .copying e idx j)
    (hj : ¬ j < n) :
    Inv { s.move r .idle with
      lastEpoch := Function.update s.lastEpoch r e
      obtained := Function.update s.obtained r (s.obtained r ++ [s.out r]) } := by
  obtain ⟨ks, hks⟩ := h.trail r
  have hph := hks.phase
  rw [hr] at hph
  obtain ⟨hjn, k, h1, h2, -, h4⟩ := hph
  have hval : s.stores[k]? = some (s.out r) := by
    by_cases hpos : 0 < j
    · obtain ⟨w, hw1, hw2, -⟩ := h4 hpos
      have hout : s.out r = w := by
        ext i
        exact hw2 i (by have := i.isLt; omega)
      rw [hout]
      exact hw1
    · -- a value without words
      rw [List.getElem?_eq_getElem h2]
      refine congrArg some ?_
      ext i
      exact absurd i.isLt (by omega)
  have hinv := h.reading r .idle (s.out r) (Function.update s.lastEpoch r e) (s.obtained r ++ [s.out r])
    ⟨ks ++ [k], ?_, ?_, ?_, trivial⟩
  · rwa [Function.update_eq_self] at hinv
  · rw [List.pairwise_append]
    refine ⟨hks.sorted, List.pairwise_singleton _ _, fun a ha b hb => ?_⟩
    rw [List.mem_singleton.mp hb]
    exact h1 a ha
  · rw [List.map_append, List.map_append, hks.values, List.map_singleton, List.map_singleton, hval]
  · intro k' hk'
    rcases List.mem_append.mp hk' with hm | hm
    · exact hks.lt k' hm
    · rw [List.mem_singleton.mp hm]
      exact h2

theorem inv_readStep (h : Inv s) {r : ρ} (hok : s.Settled (s.reader r)) : Inv (s.readStep r) := by
  unfold readStep
  split
  · exact h
  · next e hr =>
    refine h.move fun ks hks => ?_
    have hph := hks.phase
    rw [hr] at hph
    have hpos : 0 < s.stores.length := hph
    refine ⟨Nat.zero_le _, s.stores.length - 1, fun k hk => ?_, by omega, ?_, fun hx => absurd hx (Nat.lt_irrefl 0)⟩
    · have := hks.lt k hk
      omega
    · have hsucc : s.stores.length = s.stores.length - 1 + 1 := by omega
      rw [h.active, hsucc, bufferOf_succ, Bool.not_not, Nat.add_sub_cancel]
  · next e idx j hr =>
    rw [hr] at hok
    split
    · next hj => exact inv_copyWord h hr hj (hok hj)
    · next hj => exact inv_return h hr hj

theorem inv_step (h : Inv s) {a : SnapshotAct n ω ρ} (hok : s.Undisturbed a) : Inv (s.step a) := by
  cases a with
  | store v =>
    simp only [step]
    split
    · next hw => exact inv_storing h hw v
    · exact h
  | write => exact inv_writeStep h hok
  | setEpoch r e =>
    simp only [step]
    split
    · refine ⟨h.active, h.content, h.writer, fun r' => ?_⟩
      obtain ⟨ks, hks⟩ := h.trail r'
      exact ⟨ks, hks.sorted, hks.values, hks.lt, hks.phase⟩
    · exact h
  | load r =>
    simp only [step]
    split
    · split
      · exact h
      · next hne => exact h.move fun ks _ => List.length_pos_iff.mpr (hok hne)
    · exact h
  | read r => exact inv_readStep h hok

/-- **Whole values.** For every number of words, every sequence of stores and all readers, in every interleaving in
which no word of a buffer is written while a reader has copied a part of it, no word is copied from a buffer that is
being written, and nothing is loaded before the first store. -/
theorem faithful (buffers : Bool → Fin n → ω) (lastEpoch : ρ → BitVec 64) (out : ρ → Fin n → ω)
    (acts : List (SnapshotAct n ω ρ))
    (hok : Admitted step Undisturbed (fresh buffers lastEpoch out) acts) :
    ∀ bs, bs <+: acts → Faithful (bs.foldl step (fresh buffers lastEpoch out)) := by
  intro bs hbs
  have hrun : Run (fun s a u => step s a = u) Undisturbed (fresh buffers lastEpoch out) bs
      (bs.foldl step (fresh buffers lastEpoch out)) :=
    Run.of_admitted (fun _ _ _ => rfl) (hok.of_prefix bs hbs)
  refine (hrun.invariant (inv_fresh buffers lastEpoch out) ?_).toFaithful
  rintro t a _ ht hta rfl
  exact inv_step ht hta

/-- A store of a value of two words in one go. -/
def storeAll (v : Fin 2 → ℕ) : List (SnapshotAct 2 ℕ ρ) := [.store v, .write, .write, .write, .write]

/-- A slot of zeros with one reader. -/
def zeros : Snapshot 2 ℕ Unit := fresh (fun _ _ => 0) (fun _ => 0) (fun _ _ => 0)

/-- One reader between two stores. -/
theorem faithful_two_stores :
    let acts : List (SnapshotAct 2 ℕ Unit) :=
      storeAll ![1, 2] ++ ([.load (), .read (), .read ()] : List (SnapshotAct 2 ℕ Unit)) ++ storeAll ![3, 4] ++
        ([.read (), .read ()] : List (SnapshotAct 2 ℕ Unit))
    (acts.foldl step zeros).obtained () = [![1, 2]] ∧ Faithful (acts.foldl step zeros) := by
  intro acts
  exact ⟨by decide +kernel, faithful _ _ _ acts (by decide +kernel) acts List.prefix_rfl⟩

/-- The reader has copied one word when the writer publishes twice. -/
theorem torn_copy :
    let acts : List (SnapshotAct 2 ℕ Unit) :=
      storeAll ![1, 2] ++ ([.load (), .read (), .read ()] : List (SnapshotAct 2 ℕ Unit)) ++ storeAll ![3, 4] ++
        storeAll ![5, 6] ++ ([.read (), .read ()] : List (SnapshotAct 2 ℕ Unit))
    (acts.foldl step zeros).stores = [![1, 2], ![3, 4], ![5, 6]] ∧
      (acts.foldl step zeros).obtained () = [![1, 6]] ∧ ¬ Faithful (acts.foldl step zeros) := by
  intro acts
  have hstores : (acts.foldl step zeros).stores = [![1, 2], ![3, 4], ![5, 6]] := by decide +kernel
  have hob : (acts.foldl step zeros).obtained () = [![1, 6]] := by decide +kernel
  refine ⟨hstores, hob, fun h => ?_⟩
  obtain ⟨ks, -, hks⟩ := h ()
  rw [hstores, hob] at hks
  obtain ⟨k, rfl⟩ : ∃ k, ks = [k] := by
    have hlen := congrArg List.length hks
    simp only [List.length_map, List.length_singleton] at hlen
    exact List.length_eq_one_iff.mp hlen
  have hk : [![1, 2], ![3, 4], ![5, 6]][k]? = some ![1, 6] := by simpa using hks
  have hmem := List.mem_of_getElem? hk
  exact absurd hmem (by decide)

end Snapshot

end Wirekrak.Lockfree

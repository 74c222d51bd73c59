import Mathlib.Data.List.Basic
import Mathlib.Data.List.Induction
import Mathlib.Data.Nat.ModEq
import Mathlib.Data.Set.Subsingleton
import Mathlib.Logic.Function.Basic

/-!
# Wirekrak.Lockfree.TryLoad — `try_load` on several slots, from one thread

`try_load` keeps the last epoch it has seen in a `static thread_local` variable: the thread has one for all slots of a
value type, whichever slot it loads.  Every slot counts its stores in an epoch of 64 bits of its own.

* `Slots`: the slots of one type and the variable of the thread; `load_if_updated`, `try_load`, `publish_`.
* `Account`: how often a slot was stored to, how often when it was loaded last, and the count of the slot that was
  loaded last of all.
* `value_tryLoad`: a successful load hands out the last value stored.
* `tryLoad_reports_iff`: it reports the updates of the slots that the thread loads, in every run, exactly when these are
  one slot at most.
-/

namespace Wirekrak.Lockfree

/-- The slots `ι` of a value type `α`, and what one thread remembers. -/
structure Slots (ι α : Type*) where
  buffers : ι → Bool → α
  activeIndex : ι → Bool := fun _ => false
  epoch : ι → BitVec 64 := fun _ => 0
  /-- The `static thread_local` of `try_load`. -/
  lastEpoch : BitVec 64 := 0

inductive SlotOp (ι α : Type*)
  | store (i : ι) (v : α)
  | tryLoad (i : ι)

/-- The stores to each slot, its stores up to its own last successful load, and those to the slot loaded last. -/
structure Account (ι : Type*) where
  stores : ι → ℕ := fun _ => 0
  loaded : ι → ℕ := fun _ => 0
  recent : ℕ := 0

/-- The operation stores to the slot. -/
def SlotOp.storesTo {ι α : Type*} [DecidableEq ι] (i : ι) : SlotOp ι α → Bool
  | .store j _ => j = i
  | .tryLoad _ => false

namespace Slots

variable {ι α : Type*}

/-- `load_if_updated`: the value handed out, if any, and the variable of the caller. -/
def loadIfUpdated (s : Slots ι α) (i : ι) (lastEpoch : BitVec 64) : Option α × BitVec 64 :=
  if s.epoch i = lastEpoch then (none, lastEpoch) else (some (s.buffers i (s.activeIndex i)), s.epoch i)

def tryLoad (s : Slots ι α) (i : ι) : Option α × Slots ι α :=
  let r := s.loadIfUpdated i s.lastEpoch
  (r.1, { s with lastEpoch := r.2 })

variable [DecidableEq ι]

/-- `publish_`: the other buffer is written, then turned to, then the epoch counts. -/
def publish (s : Slots ι α) (i : ι) (v : α) : Slots ι α :=
  let next := !s.activeIndex i
  { s with
    buffers := Function.update s.buffers i (Function.update (s.buffers i) next v)
    activeIndex := Function.update s.activeIndex i next
    epoch := Function.update s.epoch i (s.epoch i + 1) }

def step (s : Slots ι α) : SlotOp ι α → Slots ι α
  | .store i v => s.publish i v
  | .tryLoad i => (s.tryLoad i).2

/-- The slots as constructed, in a thread that has not loaded yet. -/
def fresh (buffers : ι → Bool → α) : Slots ι α := { buffers := buffers }

def record (s : Slots ι α) (h : Account ι) : SlotOp ι α → Account ι
  | .store i _ => { h with stores := Function.update h.stores i (h.stores i + 1) }
  | .tryLoad i =>
    if (s.tryLoad i).1.isSome then
      { h with loaded := Function.update h.loaded i (h.stores i), recent := h.stores i }
    else h

def observe (t : Slots ι α × Account ι) (op : SlotOp ι α) : Slots ι α × Account ι :=
  (t.1.step op, t.1.record t.2 op)

/-- The slots and the account after a sequence of operations. -/
def after (buffers : ι → Bool → α) (ops : List (SlotOp ι α)) : Slots ι α × Account ι :=
  ops.foldl observe (fresh buffers, {})

/-! ## The counters -/

/-- The epochs are the counts, as far as 64 bits show them. -/
structure Counts (s : Slots ι α) (h : Account ι) : Prop where
  epoch : ∀ i, s.epoch i = BitVec.ofNat 64 (h.stores i)
  last : s.lastEpoch = BitVec.ofNat 64 h.recent
  le : ∀ i, h.loaded i ≤ h.stores i

theorem counts_observe {s : Slots ι α} {h : Account ι} (hc : Counts s h) (op : SlotOp ι α) :
    Counts (s.step op) (s.record h op) := by
  cases op with
  | store i v =>
    refine ⟨fun j => ?_, hc.last, fun j => ?_⟩
    · by_cases hj : j = i
      · subst hj
        simp only [step, publish, record, Function.update_self, hc.epoch, BitVec.ofNat_add]
        rfl
      · simp only [step, publish, record, Function.update_of_ne hj, hc.epoch]
    · by_cases hj : j = i
      · subst hj
        simp only [record, Function.update_self]
        exact (hc.le j).trans (Nat.le_succ _)
      · simpa only [record, Function.update_of_ne hj] using hc.le j
  | tryLoad i =>
    by_cases he : s.epoch i = s.lastEpoch
    · have hstep : s.step (.tryLoad i) = s := by simp [step, tryLoad, loadIfUpdated, he]
      have hrec : s.record h (.tryLoad i) = h := by simp [record, tryLoad, loadIfUpdated, he]
      rw [hstep, hrec]
      exact hc
    · have hstep : s.step (.tryLoad i) = { s with lastEpoch := s.epoch i } := by
        simp [step, tryLoad, loadIfUpdated, he]
      have hrec : s.record h (.tryLoad i) =
          { h with loaded := Function.update h.loaded i (h.stores i), recent := h.stores i } := by
        simp [record, tryLoad, loadIfUpdated, he]
      rw [hstep, hrec]
      refine ⟨hc.epoch, hc.epoch i, fun j => ?_⟩
      by_cases hj : j = i
      · subst hj
        simp only [Function.update_self, Nat.le_refl]
      · simpa only [Function.update_of_ne hj] using hc.le j

theorem counts_after (buffers : ι → Bool → α) (ops : List (SlotOp ι α)) :
    Counts (after buffers ops).1 (after buffers ops).2 := by
  unfold after
  induction ops using List.reverseRecOn with
  | nil => exact ⟨fun _ => rfl, rfl, fun _ => Nat.le_refl _⟩
  | append_singleton ops op ih =>
    rw [List.foldl_concat]
    exact counts_observe ih op

omit [DecidableEq ι] in
theorem tryLoad_isSome {s : Slots ι α} {h : Account ι} (hc : Counts s h) (i : ι) :
    (s.tryLoad i).1.isSome = true ↔ ¬ h.stores i ≡ h.recent [MOD 2 ^ 64] := by
  have heq : s.epoch i = s.lastEpoch ↔ h.stores i ≡ h.recent [MOD 2 ^ 64] := by
    rw [hc.epoch, hc.last, ← BitVec.toNat_inj, BitVec.toNat_ofNat, BitVec.toNat_ofNat]
    rfl
  rw [← heq]
  unfold tryLoad loadIfUpdated
  by_cases he : s.epoch i = s.lastEpoch <;> simp [he]

/-! ## Reports -/

/-- `try_load` on the slot returns a value just when the slot was stored to since its last successful load, or since its
construction. -/
def Reports (t : Slots ι α × Account ι) (i : ι) : Prop :=
  (t.1.tryLoad i).1.isSome = true ↔ t.2.loaded i < t.2.stores i

omit [DecidableEq ι] in
/-- The thread loads no slots of the type but these. -/
def LoadsOnly (L : Set ι) (ops : List (SlotOp ι α)) : Prop := ∀ j, SlotOp.tryLoad j ∈ ops → j ∈ L

/-- Between two calls of `try_load` on the slot there are fewer than `2 ^ 64` stores to it. -/
def Spaced (i : ι) (ops : List (SlotOp ι α)) : Prop :=
  ∀ bs : List (SlotOp ι α), bs <:+: ops → SlotOp.tryLoad i ∉ bs → bs.countP (SlotOp.storesTo i) < 2 ^ 64

/-- Two slots of one type; the first is stored to and loaded. -/
def firstLoaded (rest : List (SlotOp Bool ℕ)) : Slots Bool ℕ × Account Bool :=
  after (fun _ _ => 0) ([.store true 1, .tryLoad true] ++ rest)

/-- The load of the first slot hides a store to the second. -/
theorem update_hidden_by_other_slot :
    ((firstLoaded [.store false 2]).1.tryLoad false).1 = none ∧
      (firstLoaded [.store false 2]).2.loaded false < (firstLoaded [.store false 2]).2.stores false := by
  decide

/-- A load of one slot makes the next load of another one, never stored to, succeed. -/
theorem update_faked_by_other_slot :
    ((firstLoaded []).1.tryLoad false).1 = some 0 ∧ (firstLoaded []).2.stores false = 0 := by
  decide

/-! ## A thread that loads one slot -/

theorem recent_of_alone (buffers : ι → Bool → α) (i : ι) {ops : List (SlotOp ι α)} (h : LoadsOnly {i} ops) :
    (after buffers ops).2.recent = (after buffers ops).2.loaded i := by
  unfold after
  induction ops using List.reverseRecOn with
  | nil => rfl
  | append_singleton ops op ih =>
    have hops := ih fun j hj => h j (List.mem_append_left _ hj)
    rw [List.foldl_concat]
    cases op with
    | store j v => exact hops
    | tryLoad j =>
      obtain rfl : j = i := h j (by simp)
      simp only [observe, record]
      split_ifs
      · simp only [Function.update_self]
      · exact hops

/-- A count that is ahead of another one by less than `2 ^ 64` differs from it when it differs modulo `2 ^ 64`. -/
theorem reports_of_near (buffers : ι → Bool → α) (i : ι) {ops : List (SlotOp ι α)} (h : LoadsOnly {i} ops)
    (hnear : (after buffers ops).2.stores i < (after buffers ops).2.loaded i + 2 ^ 64) :
    Reports (after buffers ops) i := by
  have hle := (counts_after buffers ops).le i
  unfold Reports
  rw [tryLoad_isSome (counts_after buffers ops), recent_of_alone buffers i h]
  generalize (after buffers ops).2.stores i = a at hnear hle ⊢
  generalize (after buffers ops).2.loaded i = b at hnear hle ⊢
  constructor
  · intro hne
    exact lt_of_le_of_ne hle fun he => hne (he ▸ rfl)
  · intro hlt hmod
    have hdvd := (Nat.modEq_iff_dvd' hle).mp hmod.symm
    have := Nat.le_of_dvd (by omega) hdvd
    omega

/-- What the slot was stored to since its last successful load are the stores since the last call. -/
theorem stores_since_call (buffers : ι → Bool → α) (i : ι) {ops : List (SlotOp ι α)} (h : LoadsOnly {i} ops)
    (hs : Spaced i ops) : ∃ bs, bs <:+ ops ∧ SlotOp.tryLoad i ∉ bs ∧
      (after buffers ops).2.stores i = (after buffers ops).2.loaded i + bs.countP (SlotOp.storesTo i) := by
  induction ops using List.reverseRecOn with
  | nil => exact ⟨[], List.suffix_refl _, by simp, rfl⟩
  | append_singleton ops op ih =>
    have hops : LoadsOnly {i} ops := fun j hj => h j (List.mem_append_left _ hj)
    have hsops : Spaced i ops := fun bs hbs => hs bs (hbs.trans (List.prefix_append ops [op]).isInfix)
    obtain ⟨bs, hsuf, hnot, heq⟩ := ih hops hsops
    have hafter : after buffers (ops ++ [op]) = observe (after buffers ops) op := by
      simp only [after, List.foldl_concat]
    rw [hafter]
    cases op with
    | store j v =>
      obtain ⟨rest, rfl⟩ := hsuf
      refine ⟨bs ++ [.store j v], ⟨rest, by simp⟩, by simpa using hnot, ?_⟩
      by_cases hj : j = i
      · subst hj
        simp only [observe, record, Function.update_self, List.countP_append, List.countP_singleton, SlotOp.storesTo,
          decide_true, if_true, heq]
        omega
      · have hne : ¬ i = j := fun h' => hj h'.symm
        simp [observe, record, Function.update_of_ne hne, List.countP_append, SlotOp.storesTo, hj, heq]
    | tryLoad j =>
      obtain rfl : j = i := h j (by simp)
      refine ⟨[], List.nil_suffix, by simp, ?_⟩
      have hrep := reports_of_near buffers j hops (by have := hs bs (hsuf.isInfix.trans
        (List.prefix_append ops [SlotOp.tryLoad j]).isInfix) hnot; omega)
      by_cases hsome : ((after buffers ops).1.tryLoad j).1.isSome = true
      · simp [observe, record, hsome]
      · have hnlt : ¬ (after buffers ops).2.loaded j < (after buffers ops).2.stores j :=
          fun hlt => hsome (hrep.mpr hlt)
        have hrec : (observe (after buffers ops) (.tryLoad j)).2 = (after buffers ops).2 := by
          simp [observe, record, hsome]
        rw [hrec, List.countP_nil]
        omega

theorem reports_of_alone (buffers : ι → Bool → α) (i : ι) {ops : List (SlotOp ι α)} (h : LoadsOnly {i} ops)
    (hs : Spaced i ops) : Reports (after buffers ops) i := by
  obtain ⟨bs, hsuf, hnot, heq⟩ := stores_since_call buffers i h hs
  refine reports_of_near buffers i h ?_
  have := hs bs hsuf.isInfix hnot
  omega

/-- Two slots are enough: the load of the first hides the store to the second. -/
theorem not_reports_of_two (buffers : ι → Bool → α) {i j : ι} (hij : i ≠ j) :
    ¬ Reports (after buffers [.store i (buffers i true), .tryLoad i, .store j (buffers j true)]) j := by
  have hji : j ≠ i := fun h => hij h.symm
  simp [Reports, after, fresh, observe, step, record, publish, tryLoad, loadIfUpdated, hji]

/-- **`try_load` reports the stores to every slot that the thread loads**, in every run with less than `2 ^ 64` stores
between two calls, exactly when the thread loads one slot of the type at most. -/
theorem tryLoad_reports_iff (buffers : ι → Bool → α) (L : Set ι) :
    (∀ ops : List (SlotOp ι α), LoadsOnly L ops → (∀ i ∈ L, Spaced i ops) → ∀ i ∈ L, Reports (after buffers ops) i) ↔
      L.Subsingleton := by
  constructor
  · intro hall i hi j hj
    by_contra hij
    refine not_reports_of_two buffers hij (hall _ ?_ (fun k _ bs hbs _ => ?_) j hj)
    · intro k hk
      obtain rfl : k = i := by simpa using hk
      exact hi
    · calc bs.countP (SlotOp.storesTo k) ≤ bs.length := List.countP_le_length
        _ ≤ 3 := hbs.length_le
        _ < 2 ^ 64 := by decide
  · intro hL ops hloads hs i hi
    have hone : LoadsOnly {i} ops := fun j hj => hL (hloads j hj) hi
    exact reports_of_alone buffers i hone (hs i hi)

/-! ## Values -/

/-- The values stored to a slot, in order. -/
def stored (i : ι) (ops : List (SlotOp ι α)) : List α :=
  ops.filterMap fun op => match op with
    | .store j v => if j = i then some v else none
    | .tryLoad _ => none

omit [DecidableEq ι] in
/-- What the slot shows. -/
def current (s : Slots ι α) (i : ι) : α := s.buffers i (s.activeIndex i)

theorem current_after (buffers : ι → Bool → α) (ops : List (SlotOp ι α)) (i : ι) :
    (after buffers ops).1.current i = (stored i ops).getLastD (buffers i false) := by
  unfold after
  induction ops using List.reverseRecOn with
  | nil => rfl
  | append_singleton ops op ih =>
    rw [List.foldl_concat]
    cases op with
    | store j v =>
      by_cases hj : j = i
      · subst hj
        simp [observe, step, publish, current, stored, List.filterMap_append]
      · have hne : ¬ i = j := fun h => hj h.symm
        simpa [observe, step, publish, current, stored, hj, hne] using ih
    | tryLoad j => simpa [observe, step, tryLoad, current, stored] using ih

/-- A successful load hands out the last value stored to the slot, or what the slot was constructed with. -/
theorem value_tryLoad (buffers : ι → Bool → α) (ops : List (SlotOp ι α)) (i : ι) {v : α}
    (h : ((after buffers ops).1.tryLoad i).1 = some v) : v = (stored i ops).getLastD (buffers i false) := by
  rw [← current_after]
  unfold tryLoad loadIfUpdated at h
  dsimp only at h
  split_ifs at h
  exact (Option.some.inj h).symm

end Slots

end Wirekrak.Lockfree

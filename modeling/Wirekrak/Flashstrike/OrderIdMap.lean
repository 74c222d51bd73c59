import Wirekrak.Flashstrike.Types
import Wirekrak.Lib.Probe

/-!
# Wirekrak.Flashstrike.OrderIdMap — order ids to pool indices

Open addressing with linear probing.  Key `0` marks a free slot, key `2^32 - 1` a removed one.

`Rep m f`: the table stands for the partial function `f` from ids to indices.

* `find_eq`: `find` computes `f`, also for the two reserved ids.
* `rep_insert`, `rep_remove`: for an id that is not reserved and not in use, and for an id in use.
-/

namespace Wirekrak.Flashstrike

open Wirekrak.Lib

structure Entry where
  key : OrderId
  val : OrderIdx
  deriving DecidableEq

structure OrderIdMap where
  table : ℕ → Entry
  capacity : ℕ

namespace OrderIdMap

def emptyKey : OrderId := 0

def tombstoneKey : OrderId := 4294967295

/-- The nearest `float` (24 significant bits, ties to even), as an integer. -/
def toFloat (n : ℕ) : ℕ :=
  if n < 2 ^ 24 then n
  else
    let ulp := 2 ^ (Nat.log2 n - 23)
    let q := n / ulp
    let r := n % ulp
    if 2 * r < ulp ∨ (2 * r = ulp ∧ q % 2 = 0) then q * ulp else (q + 1) * ulp

/-- `while (capacity_ < capacity) capacity_ <<= 1`. -/
def roundUp : ℕ → ℕ → ℕ → ℕ
  | 0, cap, _ => cap
  | fuel + 1, cap, n => if cap < n then roundUp fuel (2 * cap) n else cap

/-- Twice the pool, as the `float` load factor computes it, at least 16, rounded up to a power of two. -/
def tableSize (maxOrders : ℕ) : ℕ := roundUp 64 1 (max 16 (2 * toFloat maxOrders))

def new (maxOrders : ℕ) : OrderIdMap := ⟨fun _ => ⟨emptyKey, none⟩, tableSize maxOrders⟩

/-- `hash_orderId_(ordid) & mask_`; the capacity is a power of two. -/
def hash (m : OrderIdMap) (ordid : OrderId) : ℕ := (ordid * 2654435761).toNat % m.capacity

/-- The first slot in probing order that `stop` holds of. -/
def probe (m : OrderIdMap) (ordid : OrderId) (stop : OrderId → Bool) : Option ℕ :=
  firstSlot m.capacity (m.hash ordid) (fun idx => stop (m.table idx).key)

def find (m : OrderIdMap) (ordid : OrderId) : OrderIdx :=
  match m.probe ordid (fun k => k = emptyKey || k = ordid) with
  | none => none
  | some idx => if (m.table idx).key = emptyKey then none else (m.table idx).val

def insert (m : OrderIdMap) (ordid : OrderId) (i : ℕ) : Option OrderIdMap :=
  match m.probe ordid (fun k => k = emptyKey || k = tombstoneKey) with
  | none => none
  | some idx => some { m with table := Function.update m.table idx ⟨ordid, some i⟩ }

def remove (m : OrderIdMap) (ordid : OrderId) : OrderIdMap :=
  match m.probe ordid (fun k => k = emptyKey || k = ordid) with
  | none => m
  | some idx =>
    if (m.table idx).key = emptyKey then m
    else { m with table := Function.update m.table idx ⟨tombstoneKey, none⟩ }

/-! ## The partial function of a table -/

/-- An id that is neither of the two reserved keys. -/
def Usable (id : OrderId) : Prop := id ≠ emptyKey ∧ id ≠ tombstoneKey

instance (id : OrderId) : Decidable (Usable id) := inferInstanceAs (Decidable (_ ∧ _))

/-- A probe for `id` reaches the slot. -/
def Finds (m : OrderIdMap) (id : OrderId) (j : ℕ) : Prop :=
  Reached m.capacity (m.hash id) (fun j' => (m.table j').key ≠ emptyKey ∧ (m.table j').key ≠ id) j

structure Rep (m : OrderIdMap) (f : OrderId → OrderIdx) : Prop where
  usable : ∀ id i, f id = some i → Usable id
  slot : ∀ id i, f id = some i → ∃ j, m.table j = ⟨id, some i⟩ ∧ m.Finds id j
  key : ∀ j, j < m.capacity → Usable (m.table j).key →
    ∃ i, (m.table j).val = some i ∧ f (m.table j).key = some i
  tomb : ∀ j, j < m.capacity → (m.table j).key = tombstoneKey → (m.table j).val = none
  unique : ∀ j j', j < m.capacity → j' < m.capacity → Usable (m.table j).key →
    (m.table j).key = (m.table j').key → j = j'

section Rep

variable {m : OrderIdMap} {f : OrderId → OrderIdx} {id : OrderId} {i : ℕ}

theorem rep_new (maxOrders : ℕ) : Rep (new maxOrders) (fun _ => none) where
  usable := fun id i h => by cases h
  slot := fun id i h => by cases h
  key := fun j _ hu => absurd rfl hu.1
  tomb := fun j _ h => by cases h
  unique := fun j j' _ _ hu => absurd rfl hu.1

/-- The probe of `find` and `remove` for an id in use. -/
theorem probe_of_slot {j : ℕ} (hj : m.table j = ⟨id, some i⟩) (hf : m.Finds id j) :
    m.probe id (fun k => k = emptyKey || k = id) = some j := by
  apply firstSlot_of_reached
  · rw [hj]
    simp
  · refine hf.mono (fun j' _ h => ?_)
    simp [h.1, h.2]

theorem find_eq (h : Rep m f) (id : OrderId) : m.find id = f id := by
  unfold find
  cases hf : f id with
  | some i =>
    obtain ⟨j, hj, hr⟩ := h.slot id i hf
    have hu := h.usable id i hf
    simp only [probe_of_slot hj hr, hj, hu.1, if_false]
  | none =>
    cases hp : m.probe id (fun k => k = emptyKey || k = id) with
    | none => rfl
    | some j =>
      obtain ⟨hs, hr⟩ := firstSlot_eq_some hp
      have hlt : j < m.capacity := hr.lt
      dsimp only
      by_cases h0 : (m.table j).key = emptyKey
      · rw [if_pos h0]
      · rw [if_neg h0]
        have hk : (m.table j).key = id := by simpa [h0] using hs
        by_cases ht : (m.table j).key = tombstoneKey
        · exact h.tomb j hlt ht
        · obtain ⟨i, -, hi⟩ := h.key j hlt ⟨h0, ht⟩
          rw [hk, hf] at hi
          cases hi

theorem rep_insert (h : Rep m f) (hu : Usable id) (hf : f id = none) {m' : OrderIdMap} (hm : m.insert id i = some m') :
    Rep m' (Function.update f id (some i)) := by
  unfold insert at hm
  cases hp : m.probe id (fun k => k = emptyKey || k = tombstoneKey) with
  | none => rw [hp] at hm; cases hm
  | some j =>
    rw [hp] at hm
    simp only [Option.some.injEq] at hm
    subst hm
    obtain ⟨hs, hr⟩ := firstSlot_eq_some hp
    have hlt : j < m.capacity := hr.lt
    have hfree : ¬ Usable (m.table j).key := by
      rintro ⟨h0, ht⟩
      simp [h0, ht] at hs
    have hnokey : ∀ j', j' < m.capacity → (m.table j').key ≠ id := by
      intro j' hj' hk
      obtain ⟨i', -, hi'⟩ := h.key j' hj' (by rw [hk]; exact hu)
      rw [hk, hf] at hi'
      cases hi'
    have hne : ∀ id' i', f id' = some i' → id' ≠ id := by
      rintro id' i' hi' rfl
      rw [hf] at hi'
      cases hi'
    refine ⟨?_, ?_, ?_, ?_, ?_⟩
    · intro id' i' hi'
      by_cases hid : id' = id
      · rw [hid]; exact hu
      · rw [Function.update_of_ne hid] at hi'
        exact h.usable id' i' hi'
    · intro id' i' hi'
      by_cases hid : id' = id
      · subst hid
        rw [Function.update_self, Option.some.injEq] at hi'
        subst hi'
        refine ⟨j, by simp, ?_⟩
        -- the slots before `j` are in use, by other ids
        obtain ⟨n, hn, hjn, hb⟩ := hr
        refine ⟨n, hn, hjn, fun n' hn' => ?_⟩
        have hlt' : (m.hash id' + n') % m.capacity < m.capacity := Nat.mod_lt _ (by omega)
        have hb' := hb n' hn'
        have hnj : (m.hash id' + n') % m.capacity ≠ j := by
          intro he
          rw [he, hs] at hb'
          cases hb'
        show (Function.update m.table j ⟨id', some i⟩ ((m.hash id' + n') % m.capacity)).key ≠ emptyKey ∧
          (Function.update m.table j ⟨id', some i⟩ ((m.hash id' + n') % m.capacity)).key ≠ id'
        rw [Function.update_of_ne hnj]
        refine ⟨?_, hnokey _ hlt'⟩
        intro h0
        simp [h0] at hb'
      · rw [Function.update_of_ne hid] at hi'
        obtain ⟨j', hj', hr'⟩ := h.slot id' i' hi'
        have hjj : j' ≠ j := by
          rintro rfl
          rw [hj'] at hfree
          exact hfree (h.usable id' i' hi')
        refine ⟨j', by simp [Function.update_of_ne hjj, hj'], hr'.mono (fun n _ hn => ?_)⟩
        dsimp only
        by_cases hnj : n = j
        · subst hnj
          rw [Function.update_self]
          exact ⟨hu.1, (Ne.symm hid)⟩
        · rw [Function.update_of_ne hnj]
          exact hn
    · intro j' hj' hu'
      dsimp only at hj' hu' ⊢
      by_cases hjj : j' = j
      · subst hjj
        rw [Function.update_self]
        exact ⟨i, rfl, Function.update_self _ _ _⟩
      · rw [Function.update_of_ne hjj] at hu' ⊢
        obtain ⟨i', h1, h2⟩ := h.key j' hj' hu'
        exact ⟨i', h1, by rw [Function.update_of_ne (hnokey j' hj')]; exact h2⟩
    · intro j' hj' ht
      dsimp only at hj' ht ⊢
      by_cases hjj : j' = j
      · subst hjj
        rw [Function.update_self] at ht
        exact absurd ht hu.2
      · rw [Function.update_of_ne hjj] at ht ⊢
        exact h.tomb j' hj' ht
    · intro j1 j2 h1 h2 hu1 he
      dsimp only at h1 h2 hu1 he
      by_cases e1 : j1 = j <;> by_cases e2 : j2 = j
      · rw [e1, e2]
      · rw [e1, Function.update_self, Function.update_of_ne e2] at he
        exact absurd he.symm (hnokey j2 h2)
      · rw [e2, Function.update_self, Function.update_of_ne e1] at he
        exact absurd he (hnokey j1 h1)
      · rw [Function.update_of_ne e1] at hu1 he
        rw [Function.update_of_ne e2] at he
        exact h.unique j1 j2 h1 h2 hu1 he

theorem rep_remove (h : Rep m f) (hf : f id = some i) : Rep (m.remove id) (Function.update f id none) := by
  obtain ⟨j, hj, hr⟩ := h.slot id i hf
  have hu := h.usable id i hf
  have hlt : j < m.capacity := hr.lt
  have hrem : m.remove id = { m with table := Function.update m.table j ⟨tombstoneKey, none⟩ } := by
    unfold remove
    simp only [probe_of_slot hj hr, hj, hu.1, if_false]
  have hkey : ∀ j', j' < m.capacity → j' ≠ j → (m.table j').key ≠ id := by
    intro j' hj' hne hk
    refine hne (h.unique j' j hj' hlt (by rw [hk]; exact hu) ?_)
    rw [hk, hj]
  rw [hrem]
  refine ⟨?_, ?_, ?_, ?_, ?_⟩
  · intro id' i' hi'
    by_cases hid : id' = id
    · rw [hid, Function.update_self] at hi'
      cases hi'
    · rw [Function.update_of_ne hid] at hi'
      exact h.usable id' i' hi'
  · intro id' i' hi'
    by_cases hid : id' = id
    · rw [hid, Function.update_self] at hi'
      cases hi'
    · rw [Function.update_of_ne hid] at hi'
      obtain ⟨j', hj', hr'⟩ := h.slot id' i' hi'
      have hjj : j' ≠ j := by
        rintro rfl
        rw [hj] at hj'
        exact hid (congrArg Entry.key hj').symm
      refine ⟨j', by simp [Function.update_of_ne hjj, hj'], hr'.mono (fun n _ hn => ?_)⟩
      dsimp only
      by_cases hnj : n = j
      · subst hnj
        rw [Function.update_self]
        exact ⟨by decide, fun ht => (h.usable id' i' hi').2 ht.symm⟩
      · rw [Function.update_of_ne hnj]
        exact hn
  · intro j' hj' hu'
    dsimp only at hj' hu' ⊢
    by_cases hjj : j' = j
    · subst hjj
      rw [Function.update_self] at hu'
      exact absurd rfl hu'.2
    · rw [Function.update_of_ne hjj] at hu' ⊢
      obtain ⟨i', h1, h2⟩ := h.key j' hj' hu'
      exact ⟨i', h1, by rw [Function.update_of_ne (hkey j' hj' hjj)]; exact h2⟩
  · intro j' hj' ht
    dsimp only at hj' ht ⊢
    by_cases hjj : j' = j
    · subst hjj
      rw [Function.update_self]
    · rw [Function.update_of_ne hjj] at ht ⊢
      exact h.tomb j' hj' ht
  · intro j1 j2 h1 h2 hu1 he
    dsimp only at h1 h2 hu1 he
    by_cases e1 : j1 = j
    · rw [e1, Function.update_self] at hu1
      exact absurd rfl hu1.2
    · rw [Function.update_of_ne e1] at hu1 he
      by_cases e2 : j2 = j
      · rw [e2, Function.update_self] at he
        exact absurd he hu1.2
      · rw [Function.update_of_ne e2] at he
        exact h.unique j1 j2 h1 h2 hu1 he

/-- The ids of the slots, where all slots are taken. -/
def keys (m : OrderIdMap) : List OrderId := (List.range m.capacity).map fun j => (m.table j).key

/-- An insertion fails only if every slot holds an id of its own. -/
theorem keys_of_insert_eq_none (h : Rep m f) (hnone : m.insert id i = none) :
    m.keys.Nodup ∧ m.keys.length = m.capacity ∧ ∀ id' ∈ m.keys, ∃ i', f id' = some i' := by
  have husable : ∀ j ∈ List.range m.capacity, Usable (m.table j).key := by
    unfold insert at hnone
    cases hp : m.probe id (fun k => k = emptyKey || k = tombstoneKey) with
    | some idx => rw [hp] at hnone; cases hnone
    | none =>
      intro j hj
      have hstop := firstSlot_eq_none hp (List.mem_range.mp hj)
      simp only [Bool.or_eq_false_iff, decide_eq_false_iff_not] at hstop
      exact hstop
  unfold keys
  refine ⟨List.Nodup.map_on (fun j hj j' hj' he => ?_) List.nodup_range, by simp, fun id' hid' => ?_⟩
  · exact h.unique j j' (List.mem_range.mp hj) (List.mem_range.mp hj') (husable j hj) he
  · obtain ⟨j, hj, rfl⟩ := List.mem_map.mp hid'
    obtain ⟨i', -, hi'⟩ := h.key j (List.mem_range.mp hj) (husable j hj)
    exact ⟨i', hi'⟩

end Rep

end OrderIdMap

end Wirekrak.Flashstrike

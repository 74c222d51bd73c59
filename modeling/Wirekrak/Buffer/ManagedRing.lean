import Mathlib.Algebra.Group.Nat.Defs
import Mathlib.Data.List.GetD
import Mathlib.Logic.Function.Iterate

/-!
# Wirekrak.Buffer.ManagedRing — message slots with inline storage and blocks of a shared pool

`managed_spsc_ring` over `managed_slot` and `block_pool`.  A slot holds its bytes inline until they no longer fit; it
is then promoted: a block of the pool is attached and the bytes are copied.  `head` and `tail` count the slots that
were committed and released; the slot of count `k` is `k % capacity`, so that a slot and its storage are used again.

* `reserve`, `fill`, `commit`, `reset`: the operations on one slot, given by its index.
* `Owned`: no block is attached twice, and none that is attached is free.
* `Only i r r'`: an operation on slot `i`; ownership is kept and no other slot is touched, its payload included.
-/

namespace Wirekrak.Buffer

/-- Bytes by offset. -/
abbrev Bytes := ℕ → UInt8

/-- The sizes that the template parameters and the pool give; a promoted slot is no smaller than an inline one. -/
structure Layout where
  inlineSize : ℕ
  blockSize : ℕ
  maxReserveSize : ℕ
  capacity : ℕ
  fits : inlineSize ≤ blockSize
  two_le : 2 ≤ capacity

inductive PromotionResult
  | none
  | success
  | poolExhausted
  | tooLarge
  deriving DecidableEq, Repr

/-- `result <= promotion_result_type::Success`. -/
def PromotionResult.ok : PromotionResult → Bool
  | .none | .success => true
  | .poolExhausted | .tooLarge => false

structure ManagedSlot where
  inline : Bytes := fun _ => 0
  external : Option ℕ := none
  size : ℕ := 0

namespace ManagedSlot

def capacity (L : Layout) (s : ManagedSlot) : ℕ :=
  if s.external.isSome then L.blockSize else L.inlineSize

def remaining (L : Layout) (s : ManagedSlot) : ℕ :=
  s.capacity L - s.size

end ManagedSlot

/-- The ring, its slots, and the pool: the bytes of every block and the stack of the free ones. -/
structure ManagedRing where
  slots : ℕ → ManagedSlot := fun _ => {}
  head : ℕ := 0
  tail : ℕ := 0
  blocks : ℕ → Bytes := fun _ _ => 0
  free : List ℕ

/-- `data` stands from `offset` on. -/
def overwrite (offset : ℕ) (data : List UInt8) (m : Bytes) : Bytes := fun j =>
  if offset ≤ j then data.getD (j - offset) (m j) else m j

/-- `memcpy` of the first `n` bytes. -/
def copy (n : ℕ) (src dst : Bytes) : Bytes := fun j =>
  if j < n then src j else dst j

namespace ManagedRing

variable (L : Layout)

def data (i : ℕ) (r : ManagedRing) : Bytes :=
  match (r.slots i).external with
  | some b => r.blocks b
  | none => (r.slots i).inline

/-- `data()[0 .. size())`. -/
def payload (i : ℕ) (r : ManagedRing) : List UInt8 :=
  (List.range (r.slots i).size).map (r.data i)

/-- `acquire_producer_slot` finds a slot. -/
def room (r : ManagedRing) : Bool :=
  r.head - r.tail + 1 < L.capacity

/-- The slot that `acquire_producer_slot` returns. -/
def headSlot (r : ManagedRing) : ℕ :=
  r.head % L.capacity

/-- The slot that `peek_consumer_slot` returns. -/
def tailSlot (r : ManagedRing) : ℕ :=
  r.tail % L.capacity

def promoteIfNeeded (required i : ℕ) (r : ManagedRing) : ManagedRing × PromotionResult :=
  if required ≤ L.inlineSize then (r, .none)
  else
    let result := if required ≤ L.blockSize then PromotionResult.success else .tooLarge
    match (r.slots i).external with
    | some _ => (r, result)
    | none =>
      match r.free with
      | [] => (r, .poolExhausted)
      | b :: rest =>
        ({ r with
          slots := Function.update r.slots i { r.slots i with external := some b }
          blocks := Function.update r.blocks b (copy (r.slots i).size (r.slots i).inline (r.blocks b))
          free := rest }, result)

/-- A promotion that is too large leaves the block attached. -/
def reserve (len i : ℕ) (r : ManagedRing) : ManagedRing × PromotionResult :=
  let size := (r.slots i).size
  let required := (size + len) % 2 ^ 64
  if L.maxReserveSize < len then (r, .tooLarge)
  else if required < size ∨ L.maxReserveSize < required then (r, .tooLarge)
  else if required ≤ (r.slots i).capacity L then (r, .none)
  else promoteIfNeeded L required i r

/-- `bytes` are written at `write_ptr()`. -/
def fill (i : ℕ) (bytes : List UInt8) (r : ManagedRing) : ManagedRing :=
  match (r.slots i).external with
  | some b => { r with blocks := Function.update r.blocks b (overwrite (r.slots i).size bytes (r.blocks b)) }
  | none =>
    { r with
      slots := Function.update r.slots i
        { r.slots i with inline := overwrite (r.slots i).size bytes (r.slots i).inline } }

def commit (i len : ℕ) (r : ManagedRing) : ManagedRing :=
  { r with slots := Function.update r.slots i { r.slots i with size := (r.slots i).size + len } }

def reset (i : ℕ) (r : ManagedRing) : ManagedRing :=
  { r with
    slots := Function.update r.slots i { r.slots i with external := none, size := 0 }
    free := (r.slots i).external.toList ++ r.free }

/-- The oldest slot is reset and released. -/
def drop (r : ManagedRing) : ManagedRing :=
  { r.reset (r.tailSlot L) with tail := r.tail + 1 }

def clear (r : ManagedRing) : ManagedRing :=
  (drop L)^[r.head - r.tail] r

/-! ## Ownership of blocks -/

/-- No block is attached to two slots, and none that is attached is free. -/
structure Owned (r : ManagedRing) : Prop where
  inj : ∀ {i j b}, (r.slots i).external = some b → (r.slots j).external = some b → i = j
  away : ∀ {i b}, (r.slots i).external = some b → b ∉ r.free
  nodup : r.free.Nodup

/-- An operation on slot `i`: no other slot is touched, and no block of another slot. -/
structure Only (i : ℕ) (r r' : ManagedRing) : Prop where
  owned : Owned r'
  slots : ∀ j, j ≠ i → r'.slots j = r.slots j
  blocks : ∀ j b, j ≠ i → (r.slots j).external = some b → r'.blocks b = r.blocks b
  head : r'.head = r.head
  tail : r'.tail = r.tail

variable {L} {i j : ℕ} {r r' r'' : ManagedRing}

theorem Only.refl (h : Owned r) (i : ℕ) : Only i r r :=
  ⟨h, fun _ _ => rfl, fun _ _ _ _ => rfl, rfl, rfl⟩

theorem Only.trans (h : Only i r r') (h' : Only i r' r'') : Only i r r'' := by
  refine ⟨h'.owned, fun j hj => (h'.slots j hj).trans (h.slots j hj), ?_, h'.head.trans h.head, h'.tail.trans h.tail⟩
  intro j b hj hb
  rw [h'.blocks j b hj (by rw [h.slots j hj]; exact hb), h.blocks j b hj hb]

theorem Only.headSlot (h : Only i r r') : r'.headSlot L = r.headSlot L :=
  congrArg (· % L.capacity) h.head

theorem Only.tailSlot (h : Only i r r') : r'.tailSlot L = r.tailSlot L :=
  congrArg (· % L.capacity) h.tail

theorem Only.data (h : Only i r r') (hj : j ≠ i) : r'.data j = r.data j := by
  unfold ManagedRing.data
  rw [h.slots j hj]
  cases hb : (r.slots j).external with
  | none => rfl
  | some b => exact h.blocks j b hj hb

theorem Only.payload (h : Only i r r') (hj : j ≠ i) : r'.payload j = r.payload j := by
  unfold ManagedRing.payload
  rw [h.data hj, h.slots j hj]

/-- An operation that leaves the pool alone and attaches nothing. -/
theorem Only.of_update {s : ManagedSlot} (h : Owned r) (hs : s.external = (r.slots i).external) :
    Only i r { r with slots := Function.update r.slots i s } := by
  have hext : ∀ j, (Function.update r.slots i s j).external = (r.slots j).external := by
    intro j
    by_cases hj : j = i
    · rw [hj, Function.update_self, hs]
    · rw [Function.update_of_ne hj]
  refine ⟨⟨?_, ?_, h.nodup⟩, fun j hj => Function.update_of_ne hj _ _, fun _ _ _ _ => rfl, rfl, rfl⟩
  · intro j k b hj hk
    exact h.inj ((hext j).symm.trans hj) ((hext k).symm.trans hk)
  · intro j b hj
    exact h.away ((hext j).symm.trans hj)

/-! ## Filling and committing -/

theorem overwrite_before {offset k : ℕ} (data : List UInt8) (m : Bytes) (hk : k < offset) :
    overwrite offset data m k = m k :=
  if_neg (by omega)

theorem overwrite_at {offset k : ℕ} {data : List UInt8} (m : Bytes) (hk : k < data.length) :
    overwrite offset data m (offset + k) = data[k] := by
  unfold overwrite
  rw [if_pos (Nat.le_add_right _ _), Nat.add_sub_cancel_left, List.getD_eq_getElem _ _ hk]

theorem range_overwrite (n : ℕ) (data : List UInt8) (m : Bytes) :
    (List.range (n + data.length)).map (overwrite n data m) = (List.range n).map m ++ data := by
  rw [List.range_add, List.map_append, List.map_map]
  congr 1
  · apply List.map_congr_left
    intro k hk
    exact overwrite_before _ _ (List.mem_range.mp hk)
  · apply List.ext_getElem
    · simp
    · intro k hk hk'
      rw [List.getElem_map, List.getElem_range]
      exact overwrite_at m hk'

theorem fill_slots (bytes : List UInt8) (r : ManagedRing) :
    ((r.fill i bytes).slots i).size = (r.slots i).size ∧ ((r.fill i bytes).slots i).external = (r.slots i).external := by
  unfold fill
  cases hb : (r.slots i).external with
  | none => simp [hb]
  | some b => exact ⟨rfl, hb⟩

theorem fill_data (bytes : List UInt8) (r : ManagedRing) :
    (r.fill i bytes).data i = overwrite (r.slots i).size bytes (r.data i) := by
  unfold fill
  cases hb : (r.slots i).external with
  | none => simp [data, hb]
  | some b => simp [data, hb]

theorem only_fill (h : Owned r) (bytes : List UInt8) : Only i r (r.fill i bytes) := by
  unfold fill
  cases hb : (r.slots i).external with
  | none => exact .of_update h rfl
  | some b =>
    refine ⟨⟨h.inj, h.away, h.nodup⟩, fun _ _ => rfl, ?_, rfl, rfl⟩
    intro j b' hj hb'
    have hne : b' ≠ b := by
      rintro rfl
      exact hj (h.inj hb' hb)
    exact Function.update_of_ne hne _ _

theorem only_commit (h : Owned r) (len : ℕ) : Only i r (r.commit i len) :=
  .of_update h rfl

/-- Bytes that are written at the cursor and committed are appended to the payload. -/
theorem payload_commit_fill (bytes : List UInt8) (r : ManagedRing) :
    ((r.fill i bytes).commit i bytes.length).payload i = r.payload i ++ bytes := by
  obtain ⟨hsize, hext⟩ := fill_slots (i := i) bytes r
  have hdata : ((r.fill i bytes).commit i bytes.length).data i = (r.fill i bytes).data i := by
    simp [data, commit]
  unfold payload
  rw [hdata, fill_data]
  have hs : (((r.fill i bytes).commit i bytes.length).slots i).size = (r.slots i).size + bytes.length := by
    simp [commit, hsize]
  rw [hs]
  exact range_overwrite _ _ _

theorem capacity_commit_fill (bytes : List UInt8) (r : ManagedRing) :
    (((r.fill i bytes).commit i bytes.length).slots i).size = (r.slots i).size + bytes.length ∧
      (((r.fill i bytes).commit i bytes.length).slots i).capacity L = (r.slots i).capacity L := by
  obtain ⟨hsize, hext⟩ := fill_slots (i := i) bytes r
  constructor
  · simp [commit, hsize]
  · simp [commit, ManagedSlot.capacity, hext]

/-! ## Promotion -/

/-- What `reserve` does: nothing, or a free block is attached to an inline slot and takes over its bytes. -/
theorem reserve_cases (L : Layout) (len i : ℕ) (r : ManagedRing) :
    (r.reserve L len i).1 = r ∨ ∃ b rest, (r.slots i).external = none ∧ r.free = b :: rest ∧
      (r.reserve L len i).1 = { r with
        slots := Function.update r.slots i { r.slots i with external := some b }
        blocks := Function.update r.blocks b (copy (r.slots i).size (r.slots i).inline (r.blocks b))
        free := rest } := by
  unfold reserve
  simp only
  split
  · exact .inl rfl
  split
  · exact .inl rfl
  split
  · exact .inl rfl
  unfold promoteIfNeeded
  split
  · exact .inl rfl
  simp only
  split
  · exact .inl rfl
  · next hext =>
    split
    · exact .inl rfl
    · next b rest hfree => exact .inr ⟨b, rest, hext, hfree, rfl⟩

theorem only_reserve (h : Owned r) (L : Layout) (len : ℕ) : Only i r (r.reserve L len i).1 := by
  rcases reserve_cases L len i r with he | ⟨b, rest, hext, hfree, he⟩
  · rw [he]
    exact .refl h i
  · rw [he]
    have hnd := h.nodup
    rw [hfree, List.nodup_cons] at hnd
    have hold : ∀ {j c}, j ≠ i → (r.slots j).external = some c → c ≠ b ∧ c ∉ rest := by
      intro j c _ hc
      have := h.away hc
      rw [hfree, List.mem_cons, not_or] at this
      exact this
    have hat : ∀ {j c}, (Function.update r.slots i { r.slots i with external := some b } j).external = some c →
        (j = i ∧ c = b) ∨ (j ≠ i ∧ (r.slots j).external = some c) := by
      intro j c hc
      by_cases hj : j = i
      · rw [hj, Function.update_self] at hc
        exact .inl ⟨hj, (Option.some.inj hc).symm⟩
      · rw [Function.update_of_ne hj] at hc
        exact .inr ⟨hj, hc⟩
    refine ⟨⟨?_, ?_, hnd.2⟩, fun j hj => Function.update_of_ne hj _ _, ?_, rfl, rfl⟩
    · intro j k c hj hk
      rcases hat hj with ⟨rfl, rfl⟩ | ⟨hji, hj'⟩ <;> rcases hat hk with ⟨rfl, hc⟩ | ⟨hki, hk'⟩
      · rfl
      · exact absurd rfl (hold hki hk').1
      · exact absurd hc (hold hji hj').1
      · exact h.inj hj' hk'
    · intro j c hj
      rcases hat hj with ⟨-, rfl⟩ | ⟨hji, hj'⟩
      · exact hnd.1
      · exact (hold hji hj').2
    · intro j c hj hc
      exact Function.update_of_ne (hold hj hc).1 _ _

/-- The promoted slot holds the same bytes, and has no less room. -/
theorem reserve_payload (L : Layout) (len i : ℕ) (r : ManagedRing) :
    (r.reserve L len i).1.payload i = r.payload i ∧ (((r.reserve L len i).1.slots i).size = (r.slots i).size) ∧
      (r.slots i).capacity L ≤ ((r.reserve L len i).1.slots i).capacity L := by
  rcases reserve_cases L len i r with he | ⟨b, rest, hext, hfree, he⟩
  · rw [he]
    exact ⟨rfl, rfl, Nat.le_refl _⟩
  · rw [he]
    refine ⟨?_, by simp, by simp [ManagedSlot.capacity, hext, L.fits]⟩
    simp only [payload, data, Function.update_self, hext]
    apply List.map_congr_left
    intro k hk
    exact if_pos (List.mem_range.mp hk)

/-! ## Reset -/

theorem only_reset (h : Owned r) (i : ℕ) : Only i r (r.reset i) := by
  have hat : ∀ {j c}, ((r.reset i).slots j).external = some c → j ≠ i ∧ (r.slots j).external = some c := by
    intro j c hc
    by_cases hj : j = i
    · simp [reset, hj] at hc
    · simp only [reset, Function.update_of_ne hj] at hc
      exact ⟨hj, hc⟩
  refine ⟨⟨?_, ?_, ?_⟩, fun j hj => Function.update_of_ne hj _ _, fun _ _ _ _ => rfl, rfl, rfl⟩
  · intro j k c hj hk
    exact h.inj (hat hj).2 (hat hk).2
  · intro j c hj
    obtain ⟨hji, hc⟩ := hat hj
    change c ∉ (r.slots i).external.toList ++ r.free
    rw [List.mem_append, not_or]
    refine ⟨?_, h.away hc⟩
    intro hm
    exact hji (h.inj hc (Option.mem_toList.mp hm))
  · change ((r.slots i).external.toList ++ r.free).Nodup
    cases hb : (r.slots i).external with
    | none => simpa using h.nodup
    | some b => simpa using ⟨h.away hb, h.nodup⟩

theorem reset_slot (r : ManagedRing) (i : ℕ) :
    ((r.reset i).slots i).size = 0 ∧ ((r.reset i).slots i).external = none := by
  simp [reset]

end ManagedRing

end Wirekrak.Buffer

import Wirekrak.Lockfree.Invariant

/-!
# Wirekrak.Lockfree.Batch — a batch is as many single calls

A whole call with the other thread standing still, in closed form; a batch call and as many single calls have the same
one, down to the cached index they leave behind.

* `acquire_eq`, `peek_eq`: a call is granted its slots exactly when they are free (or filled).
* `produceBatch_singles`, `consumeBatch_singles`: the batch interface.
-/

namespace Wirekrak.Lockfree

open Wirekrak.Lib

variable {α : Type*} {c : Pow2}

namespace Spsc

variable {s s' : Spsc α}

/-! ## Whole calls of the producer -/

section Produce

theorem slotAt_slot (k n : ℕ) : slotAt c (c.slot k) (BitVec.ofNat 64 n) = c.slot (k + n) := c.slot_add_ofNat k n

/-- The producer with the slots it asked for in its hands. -/
def holding (c : Pow2) (s : Spsc α) (r : Request α) : Spsc α :=
  { s with
    core.head.cachedOppositeIndex := if lacksRoom c s.core.head.index s.core.head.cachedOppositeIndex r
      then s.core.tail.index else s.core.head.cachedOppositeIndex
    producer := .granted r s.core.head.index }

/-- A call that finds the other thread at rest rereads its index exactly when the cached one is too tight, and is
granted the slots exactly when they are free. -/
theorem acquire_eq (h : Inv c s) (hpc : s.producer = .idle) (r : Request α) :
    s.acquire c r = if s.published.length + r.size.toNat ≤ s.obtained.length + (c.places - 1) then some (s.holding c r)
      else none := by
  obtain ⟨k, hk, hko, hp⟩ := h.cachedTail
  have hroom := h.room
  have hle := h.obtained_le
  rw [hpc] at hp hroom
  change s.published.length ≤ _ at hp hroom
  have hcached := lacksRoom_iff (hko.trans hle) hp r
  have htrue := lacksRoom_iff hle hroom r
  rw [← h.head, ← hk] at hcached
  rw [← h.head, ← h.tail] at htrue
  unfold acquire holding
  by_cases hc : lacksRoom c s.core.head.index s.core.head.cachedOppositeIndex r = true
  · by_cases ht : lacksRoom c s.core.head.index s.core.tail.index r = true
    · rw [if_neg (by have := htrue.mp ht; omega)]
      simp [produceStep, hpc, hc, ht]
    · rw [if_pos (by rw [htrue] at ht; omega)]
      simp [produceStep, hpc, hc, ht]
  · rw [if_pos (by rw [hcached] at hc; omega)]
    simp [produceStep, hpc, hc]

/-- The single and the batch test agree on one slot. -/
theorem lacksRoom_one (h : Inv c s) (hpc : s.producer = .idle) :
    lacksRoom c s.core.head.index s.core.head.cachedOppositeIndex (.batch 1 : Request α) =
      lacksRoom c s.core.head.index s.core.head.cachedOppositeIndex (.slot : Request α) := by
  obtain ⟨k, hk, hko, hp⟩ := h.cachedTail
  rw [hpc] at hp
  have hle := hko.trans h.obtained_le
  rw [Bool.eq_iff_iff, h.head, hk, lacksRoom_iff hle hp, lacksRoom_iff hle hp]
  rfl

/-- `n` items written from an index on. -/
def fill (c : Pow2) (buffer : BitVec 64 → α) (head : BitVec 64) (f : ℕ → α) : ℕ → BitVec 64 → α
  | 0 => buffer
  | n + 1 => Function.update (fill c buffer head f n) (slotAt c head (BitVec.ofNat 64 n)) (f n)

/-- Items written into different places are all there. -/
theorem fill_slot (buffer : BitVec 64 → α) (p : ℕ) (f : ℕ → α) {n : ℕ} (hn : n ≤ c.places) :
    ∀ i < n, fill c buffer (c.slot p) f n (c.slot (p + i)) = f i := by
  induction n with
  | zero => exact fun i hi => absurd hi (Nat.not_lt_zero i)
  | succ n ih =>
    intro i hi
    rw [fill, slotAt_slot]
    by_cases hin : i = n
    · rw [hin, Function.update_self]
    · rw [Function.update_of_ne (c.slot_ne (by omega) (by omega))]
      exact ih (by omega) i (by omega)

theorem slots_fill (k : Core α) (p : ℕ) (f : ℕ → α) {n : ℕ} (hn : n ≤ c.places)
    (hk : k.buffer = fill c s.core.buffer (c.slot p) f n) : k.slots c (c.slot p) n = (List.range n).map f := by
  apply List.ext_getElem?
  intro i
  by_cases hi : i < n
  · rw [getElem?_slots _ _ hi, hk, fill_slot _ _ _ hn i hi, List.getElem?_map, List.getElem?_range hi, Option.map_some]
  · rw [List.getElem?_eq_none (by rw [length_slots]; omega),
      List.getElem?_eq_none (by rw [List.length_map, List.length_range]; omega)]

/-- The state after `n` items were written and published, the consumer standing still. -/
def produced (c : Pow2) (s : Spsc α) (f : ℕ → α) (n : ℕ) : Spsc α :=
  { s with
    core.buffer := fill c s.core.buffer s.core.head.index f n
    core.head.index := slotAt c s.core.head.index (BitVec.ofNat 64 n)
    core.head.cachedOppositeIndex :=
      if lacksRoom c s.core.head.index s.core.head.cachedOppositeIndex (.batch (BitVec.ofNat 64 n) : Request α)
      then s.core.tail.index else s.core.head.cachedOppositeIndex
    producer := .idle
    published := s.published ++ (List.range n).map f }

/-- Slots in the producer's hands are written one after the other. -/
theorem writes_eq {r : Request α} {head : BitVec 64} (hpc : s.producer = .granted r head) (hr : ∀ x, r ≠ .value x)
    (f : ℕ → α) {n : ℕ} (hn : n ≤ r.size.toNat) :
    (List.range n).foldlM (fun s i => s.produceStep c (.write (BitVec.ofNat 64 i) (f i))) s =
      some { s with core.buffer := fill c s.core.buffer head f n } := by
  have hlt := r.size.isLt
  induction n with
  | zero => rfl
  | succ n ih =>
    have hoff : BitVec.ofNat 64 n < r.size := by
      rw [BitVec.lt_def, BitVec.toNat_ofNat, Nat.mod_eq_of_lt (by omega)]
      omega
    rw [List.range_succ, List.foldlM_append, ih (by omega), fill]
    cases r with
    | value x => exact absurd rfl (hr x)
    | slot => simp [produceStep, hpc, hoff, store]
    | batch m => simp [produceStep, hpc, hoff, store]

/-- Slots in the producer's hands are published together. -/
theorem commit_eq {r : Request α} {head : BitVec 64} (hpc : s.producer = .granted r head) (hr : ∀ x, r ≠ .value x)
    {n : BitVec 64} (hn : n ≤ r.size) :
    (do let s ← s.produceStep c (.commit n); s.produceStep c .go) =
      some { s with
        core.head.index := slotAt c s.core.head.index n
        producer := .idle
        published := s.published ++ s.core.slots c s.core.head.index n.toNat } := by
  cases r with
  | value x => exact absurd rfl (hr x)
  | slot => simp [produceStep, hpc, hn, length_slots]
  | batch m => simp [produceStep, hpc, hn, length_slots]

/-- Write the slots in hand and publish them together. -/
def deliver (c : Pow2) (n : BitVec 64) (f : ℕ → α) (s : Spsc α) : Option (Spsc α) := do
  let s ← (List.range n.toNat).foldlM (fun s i => s.produceStep c (.write (BitVec.ofNat 64 i) (f i))) s
  let s ← s.produceStep c (.commit n)
  s.produceStep c .go

theorem produce_deliver (x : α) : s.produce c x = (s.acquire c .slot).bind (deliver c 1 fun _ => x) := by
  unfold produce deliver
  simp [List.range_succ]

theorem deliver_holding (h : Inv c s) {r : Request α} (hr : ∀ x, r ≠ .value x) (f : ℕ → α)
    (hc : r.size.toNat ≤ c.places)
    (hl : lacksRoom c s.core.head.index s.core.head.cachedOppositeIndex (.batch r.size : Request α) =
      lacksRoom c s.core.head.index s.core.head.cachedOppositeIndex r) :
    deliver c r.size f (s.holding c r) = some (produced c s f r.size.toNat) := by
  have hw := writes_eq (c := c) (s := s.holding c r) rfl hr f (le_refl r.size.toNat)
  unfold deliver
  rw [hw]
  refine (commit_eq (c := c) rfl hr (BitVec.le_refl r.size)).trans ?_
  rw [h.head] at hl
  simp only [holding, produced, BitVec.ofNat_toNat, BitVec.setWidth_eq, hl, h.head]
  rw [slots_fill (s := s) _ s.published.length f hc rfl]

/-- **A batch call in closed form.** -/
theorem produceBatch_eq (h : Inv c s) (hpc : s.producer = .idle) (n : BitVec 64) (f : ℕ → α) :
    s.produceBatch c n f = if s.published.length + n.toNat ≤ s.obtained.length + (c.places - 1) then
      some (produced c s f n.toNat) else none := by
  have hle := h.obtained_le
  have hacq := acquire_eq h hpc (.batch n)
  change (s.acquire c (.batch n)).bind (deliver c n f) = _
  by_cases hroom : s.published.length + n.toNat ≤ s.obtained.length + (c.places - 1)
  · rw [hacq.trans (if_pos hroom), if_pos hroom]
    exact deliver_holding h (r := .batch n) (by simp) f (by change n.toNat ≤ _; omega) rfl
  · rw [hacq.trans (if_neg hroom), if_neg hroom]
    rfl

theorem produce_eq (h : Inv c s) (hpc : s.producer = .idle) (x : α) :
    s.produce c x = if s.published.length + 1 ≤ s.obtained.length + (c.places - 1) then
      some (produced c s (fun _ => x) 1) else none := by
  have hN := c.two_le_places
  have hacq := acquire_eq h hpc .slot
  rw [produce_deliver]
  by_cases hroom : s.published.length + 1 ≤ s.obtained.length + (c.places - 1)
  · rw [hacq.trans (if_pos hroom), if_pos hroom]
    exact deliver_holding h (r := .slot) (by simp) _ (by change 1 ≤ _; omega) (lacksRoom_one h hpc)
  · rw [hacq.trans (if_neg hroom), if_neg hroom]
    rfl

/-- The cached index after one more item is the one that the longer batch leaves. -/
theorem cached_succ (h : Inv c s) (hpc : s.producer = .idle) (f : ℕ → α) {n : ℕ}
    (hroom : s.published.length + (n + 1) ≤ s.obtained.length + (c.places - 1)) :
    (produced c (produced c s f n) (fun _ => f n) 1).core.head.cachedOppositeIndex =
      (produced c s f (n + 1)).core.head.cachedOppositeIndex := by
  obtain ⟨k, hk, hko, hp⟩ := h.cachedTail
  rw [hpc] at hp
  change s.published.length ≤ _ at hp
  have hle := h.obtained_le
  have hlt := c.places_lt
  have htest : ∀ m ≤ n + 1, lacksRoom c (c.slot s.published.length) (c.slot k) (.batch (BitVec.ofNat 64 m) : Request α)
      = decide (k + (c.places - 1) < s.published.length + m) := by
    intro m hm
    rw [Bool.eq_iff_iff, lacksRoom_iff (hko.trans hle) hp, decide_eq_true_iff]
    change _ < _ + (BitVec.ofNat 64 m).toNat ↔ _
    rw [BitVec.toNat_ofNat, Nat.mod_eq_of_lt (by omega)]
  simp only [produced, h.head, hk, htest n (by omega), htest (n + 1) (le_refl _), slotAt_slot, decide_eq_true_eq]
  by_cases htight : k + (c.places - 1) < s.published.length + n
  · rw [if_pos htight, if_pos (by omega : k + (c.places - 1) < s.published.length + (n + 1)), ite_self]
  · rw [if_neg htight]
    have hone : lacksRoom c (c.slot (s.published.length + n)) (c.slot k) (.batch (BitVec.ofNat 64 1) : Request α) = true ↔
        k + (c.places - 1) < s.published.length + n + 1 := lacksRoom_iff (by omega) (by omega) _
    simp only [hone, Nat.add_assoc]

/-- One item after `n` is `n + 1` items. -/
theorem produced_succ (h : Inv c s) (hpc : s.producer = .idle) (f : ℕ → α) {n : ℕ}
    (hroom : s.published.length + (n + 1) ≤ s.obtained.length + (c.places - 1)) :
    produced c (produced c s f n) (fun _ => f n) 1 = produced c s f (n + 1) := by
  have hcached := cached_succ h hpc f hroom
  simp only [produced, fill, slotAt_slot, h.head, Nat.add_zero, Nat.add_assoc, List.range_succ, List.map_append,
    List.append_assoc] at hcached ⊢
  rw [hcached]
  rfl

theorem produced_zero (h : Inv c s) (hpc : s.producer = .idle) (f : ℕ → α) : produced c s f 0 = s := by
  have hroom : lacksRoom c s.core.head.index s.core.head.cachedOppositeIndex (.batch (BitVec.ofNat 64 0) : Request α)
      = false := by simp [lacksRoom]
  have hindex : slotAt c s.core.head.index (BitVec.ofNat 64 0) = s.core.head.index := by
    rw [h.head, slotAt_slot, Nat.add_zero]
  simp only [produced, hroom, hindex, fill, ← hpc, List.range_zero, List.map_nil, List.append_nil, Bool.false_eq_true,
    if_false]

theorem inv_acquire (h : Inv c s) {r : Request α} (hs : s.acquire c r = some s') : Inv c s' := by
  unfold acquire at hs
  obtain ⟨s₁, h₁, hs⟩ := Option.bind_eq_some_iff.mp hs
  obtain ⟨s₂, h₂, hs⟩ := Option.bind_eq_some_iff.mp hs
  have hi := inv_produceStep (inv_produceStep h h₁) h₂
  split at hs
  · cases hs
    exact hi
  · obtain ⟨s₃, h₃, hs⟩ := Option.bind_eq_some_iff.mp hs
    split at hs
    · cases hs
      exact inv_produceStep hi h₃
    · cases hs

theorem inv_produce (h : Inv c s) {x : α} (hs : s.produce c x = some s') : Inv c s' := by
  unfold produce at hs
  obtain ⟨s₁, h₁, hs⟩ := Option.bind_eq_some_iff.mp hs
  obtain ⟨s₂, h₂, hs⟩ := Option.bind_eq_some_iff.mp hs
  obtain ⟨s₃, h₃, hs⟩ := Option.bind_eq_some_iff.mp hs
  exact inv_produceStep (inv_produceStep (inv_produceStep (inv_acquire h h₁) h₂) h₃) hs

/-- As many single calls in closed form: the batch's. -/
theorem produces_eq (h : Inv c s) (hpc : s.producer = .idle) (f : ℕ → α) (n : ℕ) :
    (List.range n).foldlM (fun s i => s.produce c (f i)) s =
        (if s.published.length + n ≤ s.obtained.length + (c.places - 1) then some (produced c s f n) else none) ∧
      (s.published.length + n ≤ s.obtained.length + (c.places - 1) → Inv c (produced c s f n)) := by
  have hroom₀ : s.published.length ≤ s.obtained.length + (c.places - 1) := Nat.le_of_add_right_le h.room
  induction n with
  | zero =>
    rw [produced_zero h hpc, Nat.add_zero, if_pos hroom₀]
    exact ⟨rfl, fun _ => h⟩
  | succ n ih =>
    obtain ⟨hfold, hinv⟩ := ih
    rw [List.range_succ, List.foldlM_append, hfold]
    by_cases hroom : s.published.length + n ≤ s.obtained.length + (c.places - 1)
    · have hlen : (produced c s f n).published.length = s.published.length + n := by simp [produced]
      have hone := produce_eq (hinv hroom) rfl (f n)
      rw [hlen, Nat.add_assoc] at hone
      change _ = if s.published.length + (n + 1) ≤ s.obtained.length + (c.places - 1) then _ else _ at hone
      rw [if_pos hroom]
      by_cases hmore : s.published.length + (n + 1) ≤ s.obtained.length + (c.places - 1)
      · rw [if_pos hmore, produced_succ h hpc f hmore] at hone
        refine ⟨?_, fun _ => inv_produce (hinv hroom) hone⟩
        rw [if_pos hmore]
        simpa using hone
      · rw [if_neg hmore] at hone
        refine ⟨?_, fun hle => absurd hle hmore⟩
        rw [if_neg hmore]
        simpa using hone
    · rw [if_neg hroom, if_neg (by omega)]
      exact ⟨rfl, fun hle => absurd hle (by omega)⟩

/-- **A batch of the producer is as many single calls.** -/
theorem produceBatch_singles (h : Inv c s) (hpc : s.producer = .idle) (n : BitVec 64) (f : ℕ → α) :
    s.produceBatch c n f = (List.range n.toNat).foldlM (fun s i => s.produce c (f i)) s := by
  rw [produceBatch_eq h hpc, (produces_eq h hpc f n.toNat).1]

end Produce

/-! ## Whole calls of the consumer -/

section Consume

/-- The consumer with the slots it asked for in its hands. -/
def viewing (c : Pow2) (s : Spsc α) (r : Request Unit) : Spsc α :=
  { s with
    core.tail.cachedOppositeIndex := if lacksItems c s.core.tail.index s.core.tail.cachedOppositeIndex r
      then s.core.head.index else s.core.tail.cachedOppositeIndex
    consumer := .granted r s.core.tail.index }

theorem peek_eq (h : Inv c s) (hpc : s.consumer = .idle) (r : Request Unit) :
    s.peek c r = if s.obtained.length + r.size.toNat ≤ s.published.length then some (s.viewing c r) else none := by
  obtain ⟨k, hk, hkp, ho⟩ := h.cachedHead
  have hroom := h.room
  have hle := h.obtained_le
  rw [hpc] at ho
  change s.obtained.length ≤ _ at ho
  have hcached := lacksItems_iff (c := c) ho (by omega) r
  have htrue := lacksItems_iff (c := c) hle (by omega) r
  rw [← h.tail, ← hk] at hcached
  rw [← h.tail, ← h.head] at htrue
  unfold peek viewing
  by_cases hc : lacksItems c s.core.tail.index s.core.tail.cachedOppositeIndex r = true
  · by_cases ht : lacksItems c s.core.tail.index s.core.head.index r = true
    · rw [if_neg (by have := htrue.mp ht; omega)]
      simp [consumeStep, hpc, hc, ht]
    · rw [if_pos (by rw [htrue] at ht; omega)]
      simp [consumeStep, hpc, hc, ht]
  · rw [if_pos (by rw [hcached] at hc; omega)]
    simp [consumeStep, hpc, hc]

theorem lacksItems_one (h : Inv c s) (hpc : s.consumer = .idle) :
    lacksItems c s.core.tail.index s.core.tail.cachedOppositeIndex (.batch 1 : Request Unit) =
      lacksItems c s.core.tail.index s.core.tail.cachedOppositeIndex (.slot : Request Unit) := by
  obtain ⟨k, hk, hkp, ho⟩ := h.cachedHead
  have hroom := h.room
  rw [hpc] at ho
  change s.obtained.length ≤ _ at ho
  rw [Bool.eq_iff_iff, h.tail, hk, lacksItems_iff ho (by omega), lacksItems_iff ho (by omega)]
  rfl

/-- What the consumer reads from `n` slots, with the places of the items. -/
def readings (c : Pow2) (s : Spsc α) (n : ℕ) : List (ℕ × α) :=
  (List.range n).map fun i => (s.obtained.length + i, s.core.buffer (slotAt c s.core.tail.index (BitVec.ofNat 64 i)))

/-- The state after `n` items were read and handed back, the producer standing still. -/
def consumed (c : Pow2) (s : Spsc α) (n : ℕ) : Spsc α :=
  { s with
    core.tail.index := slotAt c s.core.tail.index (BitVec.ofNat 64 n)
    core.tail.cachedOppositeIndex :=
      if lacksItems c s.core.tail.index s.core.tail.cachedOppositeIndex (.batch (BitVec.ofNat 64 n) : Request Unit)
      then s.core.head.index else s.core.tail.cachedOppositeIndex
    consumer := .idle
    obtained := s.obtained ++ s.core.slots c s.core.tail.index n
    reads := s.reads ++ s.readings c n }

theorem reads_eq {r : Request Unit} (hpc : s.consumer = .granted r s.core.tail.index) (hr : ∀ x, r ≠ .value x)
    {n : ℕ} (hn : n ≤ r.size.toNat) :
    (List.range n).foldlM (fun s i => s.consumeStep c (.read (BitVec.ofNat 64 i))) s =
      some { s with reads := s.reads ++ s.readings c n } := by
  have hlt := r.size.isLt
  induction n with
  | zero => simp [readings]
  | succ n ih =>
    have hnat : (BitVec.ofNat 64 n).toNat = n := by rw [BitVec.toNat_ofNat, Nat.mod_eq_of_lt (by omega)]
    have hoff : BitVec.ofNat 64 n < r.size := by
      rw [BitVec.lt_def, hnat]
      omega
    have hmore : s.readings c (n + 1) = s.readings c n ++
        [(s.obtained.length + n, s.core.buffer (slotAt c s.core.tail.index (BitVec.ofNat 64 n)))] := by
      unfold readings
      rw [List.range_succ, List.map_append]
      rfl
    rw [List.range_succ, List.foldlM_append, ih (by omega), hmore]
    cases r with
    | value x => exact absurd rfl (hr x)
    | slot => simp [consumeStep, hpc, hoff, hnat]
    | batch m => simp [consumeStep, hpc, hoff, hnat]

theorem release_eq {r : Request Unit} {tail : BitVec 64} (hpc : s.consumer = .granted r tail) (hr : ∀ x, r ≠ .value x)
    {n : BitVec 64} (hn : n ≤ r.size) :
    (do let s ← s.consumeStep c (.release n); s.consumeStep c .go) =
      some { s with
        core.tail.index := slotAt c s.core.tail.index n
        consumer := .idle
        obtained := s.obtained ++ s.core.slots c s.core.tail.index n.toNat } := by
  cases r with
  | value x => exact absurd rfl (hr x)
  | slot => simp [consumeStep, hpc, hn, length_slots]
  | batch m => simp [consumeStep, hpc, hn, length_slots]

/-- Read the slots in hand and give them back together. -/
def drain (c : Pow2) (n : BitVec 64) (s : Spsc α) : Option (Spsc α) := do
  let s ← (List.range n.toNat).foldlM (fun s i => s.consumeStep c (.read (BitVec.ofNat 64 i))) s
  let s ← s.consumeStep c (.release n)
  s.consumeStep c .go

theorem consume_drain : s.consume c = (s.peek c .slot).bind (drain c 1) := by
  unfold consume drain
  simp [List.range_succ]

theorem drain_viewing {r : Request Unit} (hr : ∀ x, r ≠ .value x)
    (hl : lacksItems c s.core.tail.index s.core.tail.cachedOppositeIndex (.batch r.size : Request Unit) =
      lacksItems c s.core.tail.index s.core.tail.cachedOppositeIndex r) :
    drain c r.size (s.viewing c r) = some (consumed c s r.size.toNat) := by
  have hw := reads_eq (c := c) (s := s.viewing c r) rfl hr (le_refl r.size.toNat)
  unfold drain
  rw [hw]
  refine (release_eq (c := c) rfl hr (BitVec.le_refl r.size)).trans ?_
  simp only [viewing, consumed, BitVec.ofNat_toNat, BitVec.setWidth_eq, hl]
  rfl

/-- **A batch call in closed form.** -/
theorem consumeBatch_eq (h : Inv c s) (hpc : s.consumer = .idle) (n : BitVec 64) :
    s.consumeBatch c n = if s.obtained.length + n.toNat ≤ s.published.length then some (consumed c s n.toNat)
      else none := by
  have hpeek := peek_eq h hpc (.batch n)
  change (s.peek c (.batch n)).bind (drain c n) = _
  by_cases hstock : s.obtained.length + n.toNat ≤ s.published.length
  · rw [hpeek.trans (if_pos hstock), if_pos hstock]
    exact drain_viewing (r := .batch n) (by simp) rfl
  · rw [hpeek.trans (if_neg hstock), if_neg hstock]
    rfl

theorem consume_eq (h : Inv c s) (hpc : s.consumer = .idle) :
    s.consume c = if s.obtained.length + 1 ≤ s.published.length then some (consumed c s 1) else none := by
  have hpeek := peek_eq h hpc .slot
  rw [consume_drain]
  by_cases hstock : s.obtained.length + 1 ≤ s.published.length
  · rw [hpeek.trans (if_pos hstock), if_pos hstock]
    exact drain_viewing (r := .slot) (by simp) (lacksItems_one h hpc)
  · rw [hpeek.trans (if_neg hstock), if_neg hstock]
    rfl

theorem cachedHead_succ (h : Inv c s) (hpc : s.consumer = .idle) {n : ℕ}
    (hstock : s.obtained.length + (n + 1) ≤ s.published.length) :
    (consumed c (consumed c s n) 1).core.tail.cachedOppositeIndex =
      (consumed c s (n + 1)).core.tail.cachedOppositeIndex := by
  obtain ⟨k, hk, hkp, ho⟩ := h.cachedHead
  rw [hpc] at ho
  change s.obtained.length ≤ _ at ho
  have hroom := h.room
  have hlt := c.places_lt
  have htest : ∀ m ≤ n + 1, lacksItems c (c.slot s.obtained.length) (c.slot k) (.batch (BitVec.ofNat 64 m) : Request Unit)
      = decide (k < s.obtained.length + m) := by
    intro m hm
    rw [Bool.eq_iff_iff, lacksItems_iff ho (by omega), decide_eq_true_iff]
    change _ < _ + (BitVec.ofNat 64 m).toNat ↔ _
    rw [BitVec.toNat_ofNat, Nat.mod_eq_of_lt (by omega)]
  simp only [consumed, h.tail, hk, htest n (by omega), htest (n + 1) (le_refl _), slotAt_slot, decide_eq_true_eq]
  by_cases htight : k < s.obtained.length + n
  · rw [if_pos htight, if_pos (by omega : k < s.obtained.length + (n + 1)), ite_self]
  · rw [if_neg htight]
    have hone : lacksItems c (c.slot (s.obtained.length + n)) (c.slot k) (.batch (BitVec.ofNat 64 1) : Request Unit) = true ↔
        k < s.obtained.length + n + 1 := lacksItems_iff (by omega) (by omega) _
    simp only [hone, Nat.add_assoc]

theorem slots_succ (k : Core α) (j n : ℕ) :
    k.slots c (c.slot j) (n + 1) = k.slots c (c.slot j) n ++ k.slots c (c.slot (j + n)) 1 := by
  simp [Core.slots, List.range_succ, slotAt_slot]

theorem consumed_succ (h : Inv c s) (hpc : s.consumer = .idle) {n : ℕ}
    (hstock : s.obtained.length + (n + 1) ≤ s.published.length) :
    consumed c (consumed c s n) 1 = consumed c s (n + 1) := by
  have hcached := cachedHead_succ h hpc hstock
  have hslots := slots_succ (c := c) s.core s.obtained.length n
  have hreads : s.readings c n ++ (consumed c s n).readings c 1 = s.readings c (n + 1) := by
    simp [readings, consumed, List.range_succ, h.tail, slotAt_slot]
  simp only [consumed, slotAt_slot, h.tail, Nat.add_assoc, List.append_assoc] at hcached hreads ⊢
  rw [hcached, hreads, hslots]
  rfl

theorem consumed_zero (h : Inv c s) (hpc : s.consumer = .idle) : consumed c s 0 = s := by
  have hitems : lacksItems c s.core.tail.index s.core.tail.cachedOppositeIndex (.batch (BitVec.ofNat 64 0) : Request Unit)
      = false := by simp [lacksItems]
  have hindex : slotAt c s.core.tail.index (BitVec.ofNat 64 0) = s.core.tail.index := by
    rw [h.tail, slotAt_slot, Nat.add_zero]
  simp only [consumed, hitems, hindex, ← hpc, readings, Core.slots, List.range_zero, List.map_nil, List.append_nil,
    Bool.false_eq_true, if_false]

theorem inv_peek (h : Inv c s) {r : Request Unit} (hs : s.peek c r = some s') : Inv c s' := by
  unfold peek at hs
  obtain ⟨s₁, h₁, hs⟩ := Option.bind_eq_some_iff.mp hs
  obtain ⟨s₂, h₂, hs⟩ := Option.bind_eq_some_iff.mp hs
  have hi := inv_consumeStep (inv_consumeStep h h₁) h₂
  split at hs
  · cases hs
    exact hi
  · obtain ⟨s₃, h₃, hs⟩ := Option.bind_eq_some_iff.mp hs
    split at hs
    · cases hs
      exact inv_consumeStep hi h₃
    · cases hs

theorem inv_consume (h : Inv c s) (hs : s.consume c = some s') : Inv c s' := by
  unfold consume at hs
  obtain ⟨s₁, h₁, hs⟩ := Option.bind_eq_some_iff.mp hs
  obtain ⟨s₂, h₂, hs⟩ := Option.bind_eq_some_iff.mp hs
  obtain ⟨s₃, h₃, hs⟩ := Option.bind_eq_some_iff.mp hs
  exact inv_consumeStep (inv_consumeStep (inv_consumeStep (inv_peek h h₁) h₂) h₃) hs

/-- As many single calls in closed form: the batch's. -/
theorem consumes_eq (h : Inv c s) (hpc : s.consumer = .idle) (n : ℕ) :
    (List.range n).foldlM (fun s _ => s.consume c) s =
        (if s.obtained.length + n ≤ s.published.length then some (consumed c s n) else none) ∧
      (s.obtained.length + n ≤ s.published.length → Inv c (consumed c s n)) := by
  induction n with
  | zero =>
    rw [consumed_zero h hpc, Nat.add_zero, if_pos h.obtained_le]
    exact ⟨rfl, fun _ => h⟩
  | succ n ih =>
    obtain ⟨hfold, hinv⟩ := ih
    rw [List.range_succ, List.foldlM_append, hfold]
    by_cases hstock : s.obtained.length + n ≤ s.published.length
    · have hlen : (consumed c s n).obtained.length = s.obtained.length + n := by simp [consumed]
      have hone := consume_eq (hinv hstock) rfl
      rw [hlen, Nat.add_assoc] at hone
      change _ = if s.obtained.length + (n + 1) ≤ s.published.length then _ else _ at hone
      rw [if_pos hstock]
      by_cases hmore : s.obtained.length + (n + 1) ≤ s.published.length
      · rw [if_pos hmore, consumed_succ h hpc hmore] at hone
        refine ⟨?_, fun _ => inv_consume (hinv hstock) hone⟩
        rw [if_pos hmore]
        simpa using hone
      · rw [if_neg hmore] at hone
        refine ⟨?_, fun hle => absurd hle hmore⟩
        rw [if_neg hmore]
        simpa using hone
    · rw [if_neg hstock, if_neg (by omega)]
      exact ⟨rfl, fun hle => absurd hle (by omega)⟩

/-- **A batch of the consumer is as many single calls.** -/
theorem consumeBatch_singles (h : Inv c s) (hpc : s.consumer = .idle) (n : BitVec 64) :
    s.consumeBatch c n = (List.range n.toNat).foldlM (fun s _ => s.consume c) s := by
  rw [consumeBatch_eq h hpc, (consumes_eq h hpc n.toNat).1]

end Consume

end Spsc

end Wirekrak.Lockfree

import Wirekrak.Lockfree.Spsc

/-!
# Wirekrak.Lockfree.Invariant — what the true and the cached indices are worth

The indices are read through the counters of published and of obtained items: `Inv` says what the two true and the
two cached indices stand for, and what each thread may rely on at every point of its call.  A cached index is stale,
but only ever to the safe side: the producer's copy of `tail` is not ahead of it, the consumer's copy of `head` is
neither behind `tail` nor ahead of `head`.

* `lacksRoom_iff`, `lacksItems_iff`: the four tests measure room and items exactly, against whatever index they are
  given.
* `inv_step`: every step of either thread keeps the invariant.
-/

namespace Wirekrak.Lockfree

open Wirekrak.Lib

variable {α : Type*} {c : Pow2}

/-! ## The tests -/

theorem next_slot (k : ℕ) : next c (c.slot k) = c.slot (k + 1) := c.slot_add k 1

/-- Room is lacking when the request reaches the place kept free behind the consumer. -/
theorem lacksRoom_iff {ι : Type*} {p k : ℕ} (hk : k ≤ p) (hp : p ≤ k + (c.places - 1)) (r : Request ι) :
    lacksRoom c (c.slot p) (c.slot k) r = true ↔ k + (c.places - 1) < p + r.size.toNat := by
  have hN := c.two_le_places
  have one : (next c (c.slot p) == c.slot k) = true ↔ k + (c.places - 1) < p + 1 := by
    rw [beq_iff_eq, next_slot]
    constructor
    · intro h
      by_contra hlt
      exact c.slot_ne (i := k) (j := p + 1) (by omega) (by omega) h.symm
    · intro h
      have hpk : p + 1 = k + c.places := by omega
      rw [hpk, c.slot_eq_iff, Nat.add_mod_right]
  cases r with
  | value x => exact one
  | slot => exact one
  | batch n =>
    unfold lacksRoom
    rw [decide_eq_true_iff, BitVec.lt_def, c.toNat_room_slot hk (by omega)]
    change _ < n.toNat ↔ _ < _ + n.toNat
    omega

theorem lacksItems_iff {ι : Type*} {o k : ℕ} (hk : o ≤ k) (ho : k ≤ o + (c.places - 1)) (r : Request ι) :
    lacksItems c (c.slot o) (c.slot k) r = true ↔ k < o + r.size.toNat := by
  have hN := c.two_le_places
  have one : (c.slot o == c.slot k) = true ↔ k < o + 1 := by
    rw [beq_iff_eq]
    constructor
    · intro h
      have := c.slot_inj hk (by omega) h
      omega
    · intro h
      rw [show o = k by omega]
  cases r with
  | value x => exact one
  | slot => exact one
  | batch n =>
    unfold lacksItems
    rw [decide_eq_true_iff, BitVec.lt_def, c.toNat_sub_slot hk (by omega)]
    change _ < n.toNat ↔ _ < _ + n.toNat
    omega

/-! ## The invariant -/

/-- The slots in the producer's hands. -/
def Producer.claimed : Producer α → ℕ
  | .granted r _ => r.size.toNat
  | .storing items _ => items.length
  | _ => 0

/-- The slots in the consumer's hands. -/
def Consumer.claimed : Consumer α → ℕ
  | .granted r _ => r.size.toNat
  | .storing items _ => items.length
  | _ => 0

/-- What the producer remembers of its call, `p` items published so far. -/
def Producer.Held (c : Pow2) (p : ℕ) (buffer : BitVec 64 → α) : Producer α → Prop
  | .idle => True
  | .loaded _ head => head = c.slot p
  | .reloading _ head => head = c.slot p
  | .granted _ head => head = c.slot p
  | .storing items head => head = c.slot p ∧ ∀ j < items.length, items[j]? = some (buffer (c.slot (p + j)))

def Consumer.Held (c : Pow2) (published obtained : List α) : Consumer α → Prop
  | .idle => True
  | .loaded _ tail => tail = c.slot obtained.length
  | .reloading _ tail => tail = c.slot obtained.length
  | .granted _ tail => tail = c.slot obtained.length
  | .storing items tail => tail = c.slot obtained.length ∧ obtained ++ items <+: published

namespace Spsc

/-- The indices, true and cached, in terms of what was published and obtained; the storage between them; the
threads.  What a thread has in its hands fits within the cached index of the other side. -/
structure Inv (c : Pow2) (s : Spsc α) : Prop where
  head : s.core.head.index = c.slot s.published.length
  tail : s.core.tail.index = c.slot s.obtained.length
  taken : s.obtained <+: s.published
  cachedTail : ∃ k, s.core.head.cachedOppositeIndex = c.slot k ∧ k ≤ s.obtained.length ∧
    s.published.length + s.producer.claimed ≤ k + (c.places - 1)
  cachedHead : ∃ k, s.core.tail.cachedOppositeIndex = c.slot k ∧ k ≤ s.published.length ∧
    s.obtained.length + s.consumer.claimed ≤ k
  items : ∀ i, s.obtained.length ≤ i → i < s.published.length →
    s.published[i]? = some (s.core.buffer (c.slot i))
  producer : s.producer.Held c s.published.length s.core.buffer
  consumer : s.consumer.Held c s.published s.obtained
  reads : ∀ r ∈ s.reads, s.published[r.1]? = some r.2

theorem inv_fresh (buffer : BitVec 64 → α) : Inv c (fresh buffer) where
  head := c.slot_zero.symm
  tail := c.slot_zero.symm
  taken := List.prefix_rfl
  cachedTail := ⟨0, c.slot_zero.symm, le_refl _, Nat.zero_le _⟩
  cachedHead := ⟨0, c.slot_zero.symm, le_refl _, le_refl _⟩
  items := by
    intro i _ hi
    exact absurd hi (Nat.not_lt_zero i)
  producer := trivial
  consumer := trivial
  reads := by
    intro r hr
    cases hr

variable {s s' : Spsc α}

theorem Inv.obtained_le (h : Inv c s) : s.obtained.length ≤ s.published.length := h.taken.length_le

/-- The slots in the producer's hands are free, and one more is. -/
theorem Inv.room (h : Inv c s) : s.published.length + s.producer.claimed ≤ s.obtained.length + (c.places - 1) := by
  obtain ⟨k, _, hk, hp⟩ := h.cachedTail
  omega

/-- The slots in the consumer's hands are published. -/
theorem Inv.stock (h : Inv c s) : s.obtained.length + s.consumer.claimed ≤ s.published.length := by
  obtain ⟨k, _, hk, ho⟩ := h.cachedHead
  omega

/-- The items in slots that count from the `j`-th on. -/
theorem getElem?_slots (k : Core α) (j : ℕ) {n i : ℕ} (hi : i < n) :
    (k.slots c (c.slot j) n)[i]? = some (k.buffer (c.slot (j + i))) := by
  unfold Core.slots slotAt
  rw [List.getElem?_map, List.getElem?_range hi, Option.map_some, c.slot_add_ofNat]

@[simp] theorem length_slots (k : Core α) (i : BitVec 64) (n : ℕ) : (k.slots c i n).length = n := by
  unfold Core.slots
  rw [List.length_map, List.length_range]

/-! ## The producer keeps it -/

section Producer

variable {r : Request α} {head : BitVec 64}

theorem inv_ask (h : Inv c s) (hpc : s.producer = .idle) (r : Request α) :
    Inv c { s with producer := .loaded r s.core.head.index } := by
  obtain ⟨k, hk, hko, hp⟩ := h.cachedTail
  rw [hpc] at hp
  exact { h with cachedTail := ⟨k, hk, hko, hp⟩, producer := h.head }

/-- The cached index grants the slots, or is about to be reread. -/
theorem inv_check (h : Inv c s) (hpc : s.producer = .loaded r head) :
    Inv c { s with producer := if lacksRoom c head s.core.head.cachedOppositeIndex r then .reloading r head
      else .granted r head } := by
  have hheld := h.producer
  obtain ⟨k, hk, hko, hp⟩ := h.cachedTail
  have hle := h.obtained_le
  rw [hpc] at hp hheld
  change s.published.length ≤ _ at hp
  by_cases hl : lacksRoom c head s.core.head.cachedOppositeIndex r = true
  · rw [if_pos hl]
    exact { h with cachedTail := ⟨k, hk, hko, hp⟩, producer := hheld }
  · rw [if_neg hl]
    rw [hheld, hk, lacksRoom_iff (hko.trans hle) hp] at hl
    exact { h with cachedTail := ⟨k, hk, hko, Nat.not_lt.mp hl⟩, producer := hheld }

/-- The reread index is the true one. -/
theorem inv_reload (h : Inv c s) (hpc : s.producer = .reloading r head) :
    Inv c { s with
      core.head.cachedOppositeIndex := s.core.tail.index
      producer := if lacksRoom c head s.core.tail.index r then .idle else .granted r head } := by
  have hheld := h.producer
  have hroom := h.room
  have hle := h.obtained_le
  rw [hpc] at hroom hheld
  change s.published.length ≤ _ at hroom
  by_cases hl : lacksRoom c head s.core.tail.index r = true
  · rw [if_pos hl]
    exact { h with cachedTail := ⟨_, h.tail, le_refl _, hroom⟩, producer := trivial }
  · rw [if_neg hl]
    rw [hheld, h.tail, lacksRoom_iff hle hroom] at hl
    exact { h with cachedTail := ⟨_, h.tail, le_refl _, Nat.not_lt.mp hl⟩, producer := hheld }

/-- A write into a slot in the producer's hands touches no item the consumer may read. -/
theorem inv_write (h : Inv c s) {j : ℕ} (hj : j < s.producer.claimed) (x : α) (pc : Producer α)
    (hcl : pc.claimed = s.producer.claimed)
    (hp : pc.Held c s.published.length (Function.update s.core.buffer (c.slot (s.published.length + j)) x)) :
    Inv c { s with core := store s.core (c.slot (s.published.length + j)) x, producer := pc } := by
  have hroom := h.room
  obtain ⟨k, hk, hko, hpk⟩ := h.cachedTail
  refine { h with cachedTail := ⟨k, hk, hko, ?_⟩, items := ?_, producer := hp }
  · rw [hcl]
    exact hpk
  · intro i (hi : s.obtained.length ≤ i) (hlt : i < s.published.length)
    have hne : c.slot i ≠ c.slot (s.published.length + j) := c.slot_ne (by omega) (by omega)
    change _ = some (Function.update s.core.buffer _ x (c.slot i))
    rw [Function.update_of_ne hne]
    exact h.items i hi hlt

/-- A commit takes the items as they stand in the slots. -/
theorem inv_commit (h : Inv c s) {n : ℕ} (hn : n ≤ s.producer.claimed) :
    Inv c { s with producer := .storing (s.core.slots c s.core.head.index n) s.core.head.index } := by
  obtain ⟨k, hk, hko, hp⟩ := h.cachedTail
  refine { h with cachedTail := ⟨k, hk, hko, ?_⟩, producer := ⟨h.head, ?_⟩ }
  · change s.published.length + (s.core.slots c _ n).length ≤ _
    rw [length_slots]
    omega
  · intro j hj
    rw [length_slots] at hj
    rw [h.head]
    exact getElem?_slots s.core _ hj

theorem inv_discard (h : Inv c s) : Inv c { s with producer := .idle } := by
  obtain ⟨k, hk, hko, hp⟩ := h.cachedTail
  exact { h with cachedTail := ⟨k, hk, hko, Nat.le_trans (Nat.add_le_add_left (Nat.zero_le _) _) hp⟩, producer := trivial }

/-- What the consumer relies on stays true when more is published. -/
theorem Consumer.Held.publish {ps os : List α} {pc : Consumer α} (h : pc.Held c ps os) (items : List α) :
    pc.Held c (ps ++ items) os := by
  cases pc with
  | idle => trivial
  | loaded r tail => exact h
  | reloading r tail => exact h
  | granted r tail => exact h
  | storing out tail => exact ⟨h.1, h.2.trans (List.prefix_append _ _)⟩

/-- The store of `head_.index` publishes what was committed. -/
theorem inv_publish (h : Inv c s) {items : List α} (hpc : s.producer = .storing items head) :
    Inv c { s with
      core.head.index := slotAt c head (BitVec.ofNat 64 items.length)
      producer := .idle
      published := s.published ++ items } := by
  have hheld := h.producer
  obtain ⟨m, hm, hmo, hpm⟩ := h.cachedTail
  obtain ⟨k, hk, hkp, hko⟩ := h.cachedHead
  rw [hpc] at hheld hpm
  obtain ⟨hhead, hitems⟩ := hheld
  exact {
    head := by
      change slotAt c head _ = c.slot (s.published ++ items).length
      rw [hhead, slotAt, c.slot_add_ofNat, List.length_append]
    tail := h.tail
    taken := h.taken.trans (List.prefix_append _ _)
    cachedTail := by
      refine ⟨m, hm, hmo, ?_⟩
      change (s.published ++ items).length + 0 ≤ _
      rw [List.length_append]
      exact hpm
    cachedHead := by
      refine ⟨k, hk, ?_, hko⟩
      change _ ≤ (s.published ++ items).length
      rw [List.length_append]
      omega
    items := by
      intro i hi (hlt : i < (s.published ++ items).length)
      change (s.published ++ items)[i]? = _
      rw [List.length_append] at hlt
      by_cases hip : i < s.published.length
      · rw [List.getElem?_append_left hip]
        exact h.items i hi hip
      · rw [List.getElem?_append_right (by omega), hitems _ (by omega), Nat.add_sub_cancel' (by omega)]
    producer := trivial
    consumer := Consumer.Held.publish h.consumer items
    reads := by
      intro r hr
      exact getElem?_append_of_some (h.reads r hr) items }

/-- **Producer step.** -/
theorem inv_produceStep (h : Inv c s) {a : ProducerAct α} (hs : s.produceStep c a = some s') : Inv c s' := by
  unfold produceStep at hs
  split at hs
  · rename_i hpc
    cases hs
    exact inv_ask h hpc _
  · rename_i hpc
    have := inv_check h hpc
    split_ifs at hs with hl <;> cases hs
    · rwa [if_pos hl] at this
    · rwa [if_neg hl] at this
  · rename_i hpc
    cases hs
    exact inv_reload h hpc
  · rename_i x head hpc
    cases hs
    have hheld := h.producer
    rw [hpc] at hheld
    have hcl : s.producer.claimed = 1 := by rw [hpc]; rfl
    obtain rfl : head = c.slot s.published.length := hheld
    refine inv_write h (j := 0) (by omega) x _ hcl.symm ⟨rfl, ?_⟩
    intro j hj
    obtain rfl : j = 0 := by simpa using hj
    rw [Nat.add_zero, Function.update_self]
    rfl
  · rename_i hpc
    cases hs
    exact inv_publish h hpc
  · cases hs
  · rename_i offset x r head _ hpc
    split at hs
    · rename_i hlt
      cases hs
      have hheld := h.producer
      rw [hpc] at hheld
      have hcl : s.producer.claimed = r.size.toNat := by rw [hpc]; rfl
      obtain rfl : head = c.slot s.published.length := hheld
      have hj : offset.toNat < s.producer.claimed := by rw [hcl]; exact BitVec.lt_def.mp hlt
      have hw := inv_write h hj x s.producer rfl (by rw [hpc]; exact rfl)
      rw [slotAt, c.slot_add]
      exact hw
    · cases hs
  · cases hs
  · rename_i n r head _ hpc
    split at hs
    · rename_i hle
      cases hs
      have hcl : s.producer.claimed = r.size.toNat := by rw [hpc]; rfl
      exact inv_commit h (by rw [hcl]; exact BitVec.le_def.mp hle)
    · cases hs
  · cases hs
  · cases hs
    exact inv_discard h
  · cases hs

end Producer

/-! ## The consumer keeps it -/

section Consumer

variable {r : Request Unit} {tail : BitVec 64}

/-- An item the consumer may read is the published one. -/
theorem Inv.item (h : Inv c s) {j : ℕ} (hj : j < s.consumer.claimed) :
    s.published[s.obtained.length + j]? = some (s.core.buffer (c.slot (s.obtained.length + j))) := by
  have hstock := h.stock
  exact h.items _ (by omega) (by omega)

theorem inv_askItem (h : Inv c s) (hpc : s.consumer = .idle) (r : Request Unit) :
    Inv c { s with consumer := .loaded r s.core.tail.index } := by
  obtain ⟨k, hk, hkp, ho⟩ := h.cachedHead
  rw [hpc] at ho
  exact { h with cachedHead := ⟨k, hk, hkp, ho⟩, consumer := h.tail }

theorem inv_checkItem (h : Inv c s) (hpc : s.consumer = .loaded r tail) :
    Inv c { s with consumer := if lacksItems c tail s.core.tail.cachedOppositeIndex r then .reloading r tail
      else .granted r tail } := by
  have hheld := h.consumer
  obtain ⟨k, hk, hkp, ho⟩ := h.cachedHead
  have hroom := h.room
  rw [hpc] at ho hheld
  change s.obtained.length ≤ _ at ho
  by_cases hl : lacksItems c tail s.core.tail.cachedOppositeIndex r = true
  · rw [if_pos hl]
    exact { h with cachedHead := ⟨k, hk, hkp, ho⟩, consumer := hheld }
  · rw [if_neg hl]
    rw [hheld, hk, lacksItems_iff ho (by omega)] at hl
    exact { h with cachedHead := ⟨k, hk, hkp, Nat.not_lt.mp hl⟩, consumer := hheld }

theorem inv_reloadItem (h : Inv c s) (hpc : s.consumer = .reloading r tail) :
    Inv c { s with
      core.tail.cachedOppositeIndex := s.core.head.index
      consumer := if lacksItems c tail s.core.head.index r then .idle else .granted r tail } := by
  have hheld := h.consumer
  have hroom := h.room
  have hle := h.obtained_le
  rw [hpc] at hheld
  by_cases hl : lacksItems c tail s.core.head.index r = true
  · rw [if_pos hl]
    exact { h with cachedHead := ⟨_, h.head, le_refl _, hle⟩, consumer := trivial }
  · rw [if_neg hl]
    rw [hheld, h.head, lacksItems_iff hle (by omega)] at hl
    exact { h with cachedHead := ⟨_, h.head, le_refl _, Nat.not_lt.mp hl⟩, consumer := hheld }

/-- A read from a slot in the consumer's hands gives the item published there. -/
theorem inv_read (h : Inv c s) {j : ℕ} (hj : j < s.consumer.claimed) :
    Inv c { s with reads := s.reads ++ [(s.obtained.length + j, s.core.buffer (c.slot (s.obtained.length + j)))] } := by
  refine { h with reads := ?_ }
  intro q hq
  rcases List.mem_append.mp hq with hq | hq
  · exact h.reads q hq
  · rw [List.mem_singleton] at hq
    subst hq
    exact h.item hj

/-- The items in the slots that are about to be released are the next ones published. -/
theorem inv_release (h : Inv c s) (items : List α) (hn : items.length ≤ s.consumer.claimed)
    (hi : ∀ j < items.length, items[j]? = some (s.core.buffer (c.slot (s.obtained.length + j)))) :
    Inv c { s with consumer := .storing items s.core.tail.index } := by
  obtain ⟨k, hk, hkp, ho⟩ := h.cachedHead
  refine { h with cachedHead := ⟨k, hk, hkp, ?_⟩, consumer := ⟨h.tail, ?_⟩ }
  · exact (Nat.add_le_add_left hn _).trans ho
  · obtain ⟨t, ht⟩ := h.taken
    rw [← ht, List.prefix_append_right_inj, List.prefix_iff_getElem?]
    intro j hj
    have hitem := h.item (Nat.lt_of_lt_of_le hj hn)
    rw [← ht, List.getElem?_append_right (Nat.le_add_right _ _), Nat.add_sub_cancel_left, ← hi j hj,
      List.getElem?_eq_getElem hj] at hitem
    exact hitem

/-- The store of `tail_.index` hands the slots back. -/
theorem inv_obtain (h : Inv c s) {items : List α} (hpc : s.consumer = .storing items tail) :
    Inv c { s with
      core.tail.index := slotAt c tail (BitVec.ofNat 64 items.length)
      consumer := .idle
      obtained := s.obtained ++ items } := by
  have hheld := h.consumer
  obtain ⟨m, hm, hmo, hpm⟩ := h.cachedTail
  obtain ⟨k, hk, hkp, hko⟩ := h.cachedHead
  rw [hpc] at hheld hko
  obtain ⟨htail, hitems⟩ := hheld
  have hlen : (s.obtained ++ items).length = s.obtained.length + items.length := List.length_append
  exact { h with
    tail := by
      change slotAt c tail _ = c.slot (s.obtained ++ items).length
      rw [htail, slotAt, c.slot_add_ofNat, hlen]
    taken := hitems
    cachedTail := ⟨m, hm, by change m ≤ (s.obtained ++ items).length; omega, hpm⟩
    cachedHead := by
      refine ⟨k, hk, hkp, ?_⟩
      change (s.obtained ++ items).length + 0 ≤ k
      rw [hlen]
      exact hko
    items := by
      intro i (hi : (s.obtained ++ items).length ≤ i) hlt
      exact h.items i (by omega) hlt
    consumer := trivial }

/-- **Consumer step.** -/
theorem inv_consumeStep (h : Inv c s) {a : ConsumerAct} (hs : s.consumeStep c a = some s') : Inv c s' := by
  unfold consumeStep at hs
  split at hs
  · rename_i hpc
    cases hs
    exact inv_askItem h hpc _
  · rename_i hpc
    have := inv_checkItem h hpc
    split_ifs at hs with hl <;> cases hs
    · rwa [if_pos hl] at this
    · rwa [if_neg hl] at this
  · rename_i hpc
    cases hs
    exact inv_reloadItem h hpc
  · rename_i tail hpc
    cases hs
    have hheld := h.consumer
    rw [hpc] at hheld
    have hcl : s.consumer.claimed = 1 := by rw [hpc]; rfl
    obtain rfl : tail = c.slot s.obtained.length := hheld
    have hread := inv_read h (j := 0) (by omega)
    rw [Nat.add_zero, ← h.tail] at hread
    rw [← h.tail]
    refine inv_release hread [s.core.buffer s.core.tail.index] (le_of_eq hcl.symm) ?_
    intro j hj
    obtain rfl : j = 0 := by simpa using hj
    rw [Nat.add_zero, h.tail]
    rfl
  · rename_i hpc
    cases hs
    exact inv_obtain h hpc
  · cases hs
  · rename_i offset r tail _ hpc
    split at hs
    · rename_i hlt
      cases hs
      have hheld := h.consumer
      rw [hpc] at hheld
      have hcl : s.consumer.claimed = r.size.toNat := by rw [hpc]; rfl
      obtain rfl : tail = c.slot s.obtained.length := hheld
      rw [slotAt, c.slot_add]
      exact inv_read h (by rw [hcl]; exact BitVec.lt_def.mp hlt)
    · cases hs
  · cases hs
  · rename_i n r tail _ hpc
    split at hs
    · rename_i hle
      cases hs
      have hcl : s.consumer.claimed = r.size.toNat := by rw [hpc]; rfl
      refine inv_release h _ ?_ ?_
      · rw [length_slots, hcl]
        exact BitVec.le_def.mp hle
      · intro j hj
        rw [length_slots] at hj
        rw [h.tail]
        exact getElem?_slots s.core _ hj
    · cases hs
  · cases hs

end Consumer

/-- **Step lemma.** -/
theorem inv_step (h : Inv c s) {a : Act α} (hs : Step c s a s') : Inv c s' := by
  cases a with
  | producer a => exact inv_produceStep h hs
  | consumer a => exact inv_consumeStep h hs
  | clear =>
    have hs' : s.clear = some s' := hs
    unfold clear at hs'
    split at hs'
    · cases hs'
      exact inv_fresh s.core.buffer
    · cases hs'

end Spsc

end Wirekrak.Lockfree

import Wirekrak.Lib.Fifo
import Wirekrak.Lockfree.Batch

/-!
# Wirekrak.Lockfree.Refinement — the single-producer single-consumer structures are bounded queues

* `step_refines`, `run_refines`: every step pushes or pops items of the abstract queue one after the other; what it
  holds is what the storage holds between the two indices.
* `produceStep_readable`: no write of the producer reaches a slot the consumer may still read.
* `refines_fifo`: the four statements together, over every interleaving.
-/

namespace Wirekrak.Lockfree

open Wirekrak.Lib

variable {α : Type*} {c : Pow2}

namespace Spsc

variable {s s' : Spsc α}

/-! ## The abstract queue -/

/-- The slots the consumer may still read: published and not handed back. -/
def readable (c : Pow2) (s : Spsc α) : List (BitVec 64) :=
  (List.range (s.core.used c).toNat).map fun i => slotAt c s.core.tail.index (BitVec.ofNat 64 i)

theorem Inv.used (h : Inv c s) : (s.core.used c).toNat = s.published.length - s.obtained.length := by
  have hroom := h.room
  have hN := c.two_le_places
  rw [Core.used, h.head, h.tail, c.toNat_sub_slot h.obtained_le (by omega)]

/-- Between the two indices the storage holds what is published and not yet obtained. -/
theorem Inv.contents (h : Inv c s) : s.core.contents c = s.published.drop s.obtained.length := by
  apply List.ext_getElem?
  intro i
  rw [Core.contents, h.used, h.tail, List.getElem?_drop]
  by_cases hi : i < s.published.length - s.obtained.length
  · rw [getElem?_slots s.core _ hi, h.items _ (Nat.le_add_right _ _) (by omega)]
  · rw [List.getElem?_eq_none (by rw [length_slots]; omega), List.getElem?_eq_none (by omega)]

theorem Inv.mem_readable (h : Inv c s) {i : BitVec 64} :
    i ∈ s.readable c ↔ ∃ k, s.obtained.length ≤ k ∧ k < s.published.length ∧ i = c.slot k := by
  unfold readable
  rw [h.used, h.tail, List.mem_map]
  constructor
  · rintro ⟨j, hj, rfl⟩
    rw [List.mem_range] at hj
    exact ⟨s.obtained.length + j, by omega, by omega, c.slot_add_ofNat _ _⟩
  · rintro ⟨k, hk, hlt, rfl⟩
    refine ⟨k - s.obtained.length, List.mem_range.mpr (by omega), ?_⟩
    rw [slotAt, c.slot_add_ofNat, Nat.add_sub_cancel' hk]

/-- Only the store of `head_.index` publishes. -/
theorem produceStep_history {a : ProducerAct α} (hs : s.produceStep c a = some s') : s'.obtained = s.obtained ∧
    (s'.published = s.published ∨ ∃ items head, s.producer = .storing items head ∧ s'.published = s.published ++ items) := by
  unfold produceStep at hs
  split at hs
  case h_5 hpc =>
    cases hs
    exact ⟨rfl, .inr ⟨_, _, hpc, rfl⟩⟩
  all_goals
    first
    | cases hs; exact ⟨rfl, .inl rfl⟩
    | cases hs
    | split at hs <;> cases hs <;> exact ⟨rfl, .inl rfl⟩

/-- Only the store of `tail_.index` hands items over. -/
theorem consumeStep_history {a : ConsumerAct} (hs : s.consumeStep c a = some s') : s'.published = s.published ∧
    (s'.obtained = s.obtained ∨ ∃ items tail, s.consumer = .storing items tail ∧ s'.obtained = s.obtained ++ items) := by
  unfold consumeStep at hs
  split at hs
  case h_5 hpc =>
    cases hs
    exact ⟨rfl, .inr ⟨_, _, hpc, rfl⟩⟩
  all_goals
    first
    | cases hs; exact ⟨rfl, .inl rfl⟩
    | cases hs
    | split at hs <;> cases hs <;> exact ⟨rfl, .inl rfl⟩

/-- A producer step pushes what it publishes, one item after the other. -/
theorem produceStep_moves (h : Inv c s) {a : ProducerAct α} (hs : s.produceStep c a = some s') :
    ∃ ins, s'.published = s.published ++ ins ∧ s'.obtained = s.obtained ∧
      Fifo.Moves (c.places - 1) (s.core.contents c) ins [] (s'.core.contents c) := by
  have h' := inv_produceStep h hs
  have hroom := h'.room
  obtain ⟨hob, hpub | ⟨items, _, _, hpub⟩⟩ := produceStep_history hs
  · refine ⟨[], by rw [hpub, List.append_nil], hob, ?_⟩
    rw [h.contents, h'.contents, hpub, hob]
    exact .refl
  · refine ⟨items, hpub, hob, ?_⟩
    rw [hpub, hob, List.length_append] at hroom
    rw [h.contents, h'.contents, hpub, hob, List.drop_append_of_le_length h.obtained_le]
    refine Fifo.Moves.pushes .refl items ?_
    have hle := h.obtained_le
    rw [List.length_drop]
    omega

/-- A consumer step pops what it obtains. -/
theorem consumeStep_moves (h : Inv c s) {a : ConsumerAct} (hs : s.consumeStep c a = some s') :
    ∃ outs, s'.published = s.published ∧ s'.obtained = s.obtained ++ outs ∧
      Fifo.Moves (c.places - 1) (s.core.contents c) [] outs (s'.core.contents c) := by
  have h' := inv_consumeStep h hs
  obtain ⟨hpub, hob | ⟨items, _, _, hob⟩⟩ := consumeStep_history hs
  · refine ⟨[], hpub, by rw [hob, List.append_nil], ?_⟩
    rw [h.contents, h'.contents, hpub, hob]
    exact .refl
  · refine ⟨items, hpub, hob, ?_⟩
    obtain ⟨rest, hrest⟩ := h'.taken
    rw [hpub, hob] at hrest
    have hq : s.core.contents c = items ++ s'.core.contents c := by
      rw [h.contents, h'.contents, hpub, hob, ← hrest, List.drop_left, List.append_assoc, List.drop_left]
    rw [hq]
    exact Fifo.Moves.pops items .refl

/-- **Step refinement.** A step of either thread pushes or pops items one after the other; a `clear` starts again. -/
theorem step_refines (h : Inv c s) {a : Act α} (hs : Step c s a s') : s'.published = [] ∧ s'.obtained = [] ∨
    ∃ ins outs, s'.published = s.published ++ ins ∧ s'.obtained = s.obtained ++ outs ∧
      Fifo.Moves (c.places - 1) (s.core.contents c) ins outs (s'.core.contents c) := by
  cases a with
  | producer a =>
    obtain ⟨ins, hpub, hob, hm⟩ := produceStep_moves h hs
    exact .inr ⟨ins, [], hpub, by rw [hob, List.append_nil], hm⟩
  | consumer a =>
    obtain ⟨outs, hpub, hob, hm⟩ := consumeStep_moves h hs
    exact .inr ⟨[], outs, by rw [hpub, List.append_nil], hob, hm⟩
  | clear =>
    have hs' : s.clear = some s' := hs
    unfold clear at hs'
    split at hs'
    · cases hs'
      exact .inl ⟨rfl, rfl⟩
    · cases hs'

/-- A whole run moves the abstract queue from empty to what the storage holds. -/
theorem run_refines {buffer : BitVec 64 → α} {as : List (Act α)} (hrun : Run (Step c) (fun _ _ => True) (fresh buffer) as s) :
    Inv c s ∧ Fifo.Moves (c.places - 1) [] s.published s.obtained (s.core.contents c) := by
  refine hrun.invariant (I := fun s => Inv c s ∧ Fifo.Moves (c.places - 1) [] s.published s.obtained (s.core.contents c))
    ⟨inv_fresh buffer, ?_⟩ ?_
  · rw [(inv_fresh buffer).contents]
    exact .refl
  · rintro t a u ⟨ht, hm⟩ _ hs
    have hu := inv_step ht hs
    refine ⟨hu, ?_⟩
    rcases step_refines ht hs with ⟨hpub, hob⟩ | ⟨ins, outs, hpub, hob, hm'⟩
    · rw [hu.contents, hpub, hob]
      exact .refl
    · rw [hpub, hob]
      exact hm.trans hm'

/-! ## Slots in use -/

/-- The slots the producer may write now. -/
def writable (c : Pow2) (s : Spsc α) : List (BitVec 64) :=
  match s.producer with
  | .granted r head => (List.range r.size.toNat).map fun i => slotAt c head (BitVec.ofNat 64 i)
  | _ => []

/-- The slots the consumer is looking at. -/
def viewed (c : Pow2) (s : Spsc α) : List (BitVec 64) :=
  match s.consumer with
  | .granted r tail => (List.range r.size.toNat).map fun i => slotAt c tail (BitVec.ofNat 64 i)
  | _ => []

theorem writable_disjoint (h : Inv c s) : List.Disjoint (s.writable c) (s.readable c) := by
  intro i hw hr
  obtain ⟨k, hk, hlt, rfl⟩ := h.mem_readable.mp hr
  have hroom := h.room
  have hheld := h.producer
  unfold writable at hw
  split at hw
  · rename_i r head hpc
    rw [hpc] at hheld hroom
    obtain ⟨j, hj, heq⟩ := List.mem_map.mp hw
    rw [List.mem_range] at hj
    change s.published.length + r.size.toNat ≤ _ at hroom
    obtain rfl : head = c.slot s.published.length := hheld
    rw [slotAt_slot] at heq
    exact c.slot_ne (by omega) (by omega) heq.symm
  · cases hw

theorem viewed_readable (h : Inv c s) {i : BitVec 64} (hv : i ∈ s.viewed c) : i ∈ s.readable c := by
  have hstock := h.stock
  have hheld := h.consumer
  unfold viewed at hv
  split at hv
  · rename_i r tail hpc
    rw [hpc] at hheld hstock
    obtain ⟨j, hj, rfl⟩ := List.mem_map.mp hv
    rw [List.mem_range] at hj
    change s.obtained.length + r.size.toNat ≤ _ at hstock
    obtain rfl : tail = c.slot s.obtained.length := hheld
    rw [slotAt_slot]
    exact h.mem_readable.mpr ⟨_, by omega, by omega, rfl⟩
  · cases hv

/-- A step of the producer changes no slot but those it may write. -/
theorem produceStep_buffer (h : Inv c s) {a : ProducerAct α} (hs : s.produceStep c a = some s') {i : BitVec 64}
    (hi : i ∉ s.writable c) : s'.core.buffer i = s.core.buffer i := by
  have hheld := h.producer
  unfold produceStep at hs
  unfold writable at hi
  split at hs
  case h_4 x head hpc =>
    cases hs
    rw [hpc] at hi hheld
    obtain rfl : head = c.slot s.published.length := hheld
    refine Function.update_of_ne ?_ _ _
    rintro rfl
    refine hi (List.mem_map.mpr ⟨0, List.mem_range.mpr Nat.zero_lt_one, ?_⟩)
    rw [slotAt_slot, Nat.add_zero]
  case h_7 offset x r head _ hpc =>
    split at hs
    · rename_i hlt
      cases hs
      rw [hpc] at hi
      refine Function.update_of_ne ?_ _ _
      rintro rfl
      refine hi (List.mem_map.mpr ⟨offset.toNat, List.mem_range.mpr (BitVec.lt_def.mp hlt), ?_⟩)
      rw [BitVec.ofNat_toNat, BitVec.setWidth_eq]
    · cases hs
  all_goals
    first
    | cases hs; rfl
    | cases hs
    | split at hs <;> cases hs <;> rfl

/-- **The structures refine a bounded queue.**  Over every interleaving of the two threads' atomic steps: the items
obtained, and every item looked at before that, are the published ones in order; at most `Capacity - 1` are in flight;
the producer writes only slots that the consumer may not read, and the consumer looks only at those it may; and a batch
call is as many single calls, refused exactly when one of them would be. -/
theorem refines_fifo (c : Pow2) (buffer : BitVec 64 → α) {as : List (Act α)} {s : Spsc α}
    (hrun : Run (Step c) (fun _ _ => True) (fresh buffer) as s) :
    Fifo.Moves (c.places - 1) [] s.published s.obtained (s.core.contents c) ∧
    s.obtained <+: s.published ∧
    (∀ r ∈ s.reads, s.published[r.1]? = some r.2) ∧
    s.published.length - s.obtained.length ≤ c.places - 1 ∧
    List.Disjoint (s.writable c) (s.readable c) ∧
    (∀ a s', Step c s (.producer a) s' → ∀ i ∉ s.writable c, s'.core.buffer i = s.core.buffer i) ∧
    (∀ i ∈ s.viewed c, i ∈ s.readable c) ∧
    (s.producer = .idle → ∀ n f,
      s.produceBatch c n f = (List.range n.toNat).foldlM (fun s i => s.produce c (f i)) s) ∧
    (s.consumer = .idle → ∀ n,
      s.consumeBatch c n = (List.range n.toNat).foldlM (fun s _ => s.consume c) s) := by
  obtain ⟨h, hm⟩ := run_refines hrun
  have hsplit := hm.split
  have hbound := hm.bound (Nat.zero_le _)
  rw [List.nil_append] at hsplit
  refine ⟨hm, ⟨_, hsplit.symm⟩, h.reads, ?_, writable_disjoint h, fun a s' hs i hi => produceStep_buffer h hs hi,
    fun i hi => viewed_readable h hi, fun hpc n f => produceBatch_singles h hpc n f,
    fun hpc n => consumeBatch_singles h hpc n⟩
  rw [hsplit, List.length_append, Nat.add_sub_cancel_left]
  exact hbound

/-- Four places; an item is pushed and popped while the producer fills a batch of two around it. -/
def four : Pow2 := ⟨4, by decide, by decide⟩

def pushThenBatch : List (Act ℕ) :=
  [.producer (.ask (.value 10)), .producer .go, .producer .go, .producer .go,
    .producer (.ask (.batch 2)), .producer .go, .producer (.write 0 20),
    .consumer (.ask .slot), .consumer .go, .consumer .go, .consumer (.read 0),
    .producer (.write 1 30), .producer (.commit 2), .consumer (.release 1), .producer .go, .consumer .go]

/-- The step as a total function, for runs that are evaluated. -/
def after (c : Pow2) (s : Spsc α) (a : Act α) : Spsc α := (s.step c a).getD s

theorem run_after (c : Pow2) {s : Spsc α} (as : List (Act α))
    (h : Admitted (after c) (fun s a => (s.step c a).isSome = true) s as) :
    Run (Step c) (fun _ _ => True) s as (as.foldl (after c) s) := by
  refine (Run.of_admitted ?_ h).mono fun _ _ _ => trivial
  intro s a hs
  obtain ⟨u, hu⟩ := Option.isSome_iff_exists.mp hs
  rw [Step, after, hu]
  rfl

theorem refines_fifo_four :
    (pushThenBatch.foldl (after four) (fresh fun _ => 0)).obtained = [10] ∧
      [10] <+: (pushThenBatch.foldl (after four) (fresh fun _ => 0)).published ∧
      (pushThenBatch.foldl (after four) (fresh fun _ => 0)).published = [10, 20, 30] := by
  have hrun := run_after four (s := fresh fun _ => 0) pushThenBatch (by decide)
  exact ⟨by decide, (refines_fifo four (fun _ => 0) hrun).2.1, by decide⟩

end Spsc

end Wirekrak.Lockfree

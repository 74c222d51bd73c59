import Mathlib.Data.Finset.Card
import Wirekrak.Buffer.Stored
import Wirekrak.Lib.Run

/-!
# Wirekrak.Buffer.Conservation — the blocks of the pool over whole runs of a managed ring

The producer and the consumer of one ring act in any order.  A run keeps the calls that `managed_spsc_ring.hpp` asks
for (`Allowed`): a slot is acquired before it is written, reserved before it is committed to, peeked before it is
released.

* `Whole n r`: every block of the pool is free or attached, and nothing else is.
* `blocks_conserved`: each block is free or attached to one slot, `used()` counts the slots with external storage, and
  a promoted slot holds what was written to it.
-/

namespace Wirekrak.Buffer

open Wirekrak.Lib

namespace ManagedRing

/-- `block_count_ - free_count_`; the counter moves with the stack of free blocks. -/
def usedBlocks (n : ℕ) (r : ManagedRing) : ℕ := n - r.free.length

/-- The slots that hold external storage. -/
def externalSlots (L : Layout) (r : ManagedRing) : Finset ℕ :=
  (Finset.range L.capacity).filter fun i => (r.slots i).external.isSome

/-- The pool's blocks are the free and the attached ones. -/
def Whole (n : ℕ) (r : ManagedRing) : Prop :=
  ∀ b, b < n ↔ b ∈ r.free ∨ ∃ i, (r.slots i).external = some b

variable {L : Layout} {n i : ℕ} {r r' : ManagedRing}

theorem Whole.of_external (h : Whole n r) (hfree : r'.free = r.free)
    (hext : ∀ i, (r'.slots i).external = (r.slots i).external) : Whole n r' := by
  intro b
  rw [hfree, h b]
  simp only [hext]

theorem whole_fill (h : Whole n r) (i : ℕ) (bytes : List UInt8) : Whole n (r.fill i bytes) := by
  refine h.of_external ?_ fun j => ?_
  · unfold fill
    split <;> rfl
  · by_cases hj : j = i
    · rw [hj]
      exact (fill_slots bytes r).2
    · unfold fill
      split
      · rfl
      · simp [Function.update_of_ne hj]

theorem whole_commit (h : Whole n r) (i len : ℕ) : Whole n (r.commit i len) := by
  refine h.of_external rfl fun j => ?_
  by_cases hj : j = i
  · simp [commit, hj]
  · simp [commit, Function.update_of_ne hj]

theorem whole_reserve (h : Whole n r) (L : Layout) (len i : ℕ) : Whole n (r.reserve L len i).1 := by
  rcases reserve_cases L len i r with he | ⟨b, rest, hext, hfree, he⟩
  · rw [he]
    exact h
  · rw [he]
    intro c
    rw [h c, hfree, List.mem_cons]
    constructor
    · rintro ((rfl | hc) | ⟨j, hj⟩)
      · exact .inr ⟨i, by simp⟩
      · exact .inl hc
      · have hji : j ≠ i := by
          rintro rfl
          rw [hext] at hj
          cases hj
        exact .inr ⟨j, by simpa [Function.update_of_ne hji] using hj⟩
    · rintro (hc | ⟨j, hj⟩)
      · exact .inl (.inr hc)
      · by_cases hji : j = i
        · rw [hji] at hj
          simp at hj
          exact .inl (.inl hj.symm)
        · exact .inr ⟨j, by simpa [Function.update_of_ne hji] using hj⟩

theorem whole_reset (h : Whole n r) (i : ℕ) : Whole n (r.reset i) := by
  intro b
  have hfree : b ∈ (r.reset i).free ↔ (r.slots i).external = some b ∨ b ∈ r.free := by
    simp [reset, Option.mem_toList]
  rw [h b, hfree]
  constructor
  · rintro (hb | ⟨j, hj⟩)
    · exact .inl (.inr hb)
    · by_cases hji : j = i
      · exact .inl (.inl (hji ▸ hj))
      · exact .inr ⟨j, by simpa [reset, Function.update_of_ne hji] using hj⟩
  · rintro ((hb | hb) | ⟨j, hj⟩)
    · exact .inr ⟨i, hb⟩
    · exact .inl hb
    · by_cases hji : j = i
      · simp [reset, hji] at hj
      · exact .inr ⟨j, by simpa [reset, Function.update_of_ne hji] using hj⟩

theorem whole_clear (h : Whole n r) (L : Layout) : Whole n (r.clear L) := by
  unfold clear
  induction r.head - r.tail generalizing r with
  | zero => exact h
  | succ k ih =>
    rw [Function.iterate_succ_apply]
    exact ih ((whole_reset h (r.tailSlot L)).of_external rfl fun _ => rfl)

/-- Every block is free or attached to one slot, not both. -/
theorem Whole.owner (h : Whole n r) (ho : r.Owned) {b : ℕ} (hb : b < n) :
    (b ∈ r.free ∧ ∀ i, (r.slots i).external ≠ some b) ∨ (b ∉ r.free ∧ ∃! i, (r.slots i).external = some b) := by
  rcases (h b).mp hb with hf | ⟨i, hi⟩
  · exact .inl ⟨hf, fun i hi => ho.away hi hf⟩
  · exact .inr ⟨ho.away hi, i, hi, fun j hj => ho.inj hj hi⟩

/-- The free blocks and the slots with external storage make up the pool. -/
theorem Whole.used (h : Whole n r) (ho : r.Owned) (hin : ∀ i, (r.slots i).external.isSome → i < L.capacity) :
    r.usedBlocks n = (r.externalSlots L).card := by
  have hsub : r.free.toFinset ⊆ Finset.range n := by
    intro b hb
    exact Finset.mem_range.mpr ((h b).mpr (.inl (List.mem_toFinset.mp hb)))
  have hcard : (Finset.range n \ r.free.toFinset).card = n - r.free.length := by
    rw [Finset.card_sdiff_of_subset hsub, Finset.card_range, List.toFinset_card_of_nodup ho.nodup]
  rw [usedBlocks, ← hcard]
  symm
  refine Finset.card_bij (fun i _ => ((r.slots i).external).getD 0) ?_ ?_ ?_
  · intro i hi
    obtain ⟨b, hb⟩ := Option.isSome_iff_exists.mp (Finset.mem_filter.mp hi).2
    rw [hb, Option.getD_some, Finset.mem_sdiff, List.mem_toFinset, Finset.mem_range]
    exact ⟨(h b).mpr (.inr ⟨i, hb⟩), ho.away hb⟩
  · intro i hi j hj he
    obtain ⟨b, hb⟩ := Option.isSome_iff_exists.mp (Finset.mem_filter.mp hi).2
    obtain ⟨c, hc⟩ := Option.isSome_iff_exists.mp (Finset.mem_filter.mp hj).2
    rw [hb, hc, Option.getD_some, Option.getD_some] at he
    exact ho.inj hb (he ▸ hc)
  · intro b hb
    rw [Finset.mem_sdiff, List.mem_toFinset, Finset.mem_range] at hb
    rcases (h b).mp hb.1 with hf | ⟨i, hi⟩
    · exact absurd hf hb.2
    · have hs : (r.slots i).external.isSome := by simp [hi]
      exact ⟨i, Finset.mem_filter.mpr ⟨Finset.mem_range.mpr (hin i hs), hs⟩, by rw [hi, Option.getD_some]⟩

end ManagedRing

/-! ## Runs -/

/-- The ring with the two parties: the producer holds a slot (`cur`), where the consumer stands, and the bytes the
producer has committed to its slot. -/
structure Parties where
  ring : ManagedRing
  cur : Bool := false
  reader : Reader := .idle
  written : List UInt8 := []

inductive RingAct
  | acquire
  | reserve (len : ℕ)
  | write (bytes : List UInt8)
  | commit
  | discard
  | peek
  | reset
  | release
  | clear
  deriving DecidableEq

namespace Parties

variable (L : Layout)

/-- A new ring over a new pool of `n` blocks, pushed in order. -/
def built (n : ℕ) : Parties := { ring := { free := (List.range n).reverse } }

/-- The slot the producer writes to. -/
def slot (s : Parties) : ℕ := s.ring.headSlot L

/-- `release_consumer_slot` is `reset` and then `release`. -/
def step (s : Parties) : RingAct → Parties
  | .acquire => if s.ring.room L then { s with cur := true, written := [] } else s
  | .reserve len => { s with ring := (s.ring.reserve L len (s.slot L)).1 }
  | .write bytes =>
    { s with
      ring := (s.ring.fill (s.slot L) bytes).commit (s.slot L) bytes.length
      written := s.written ++ bytes }
  | .commit => { s with ring := { s.ring with head := s.ring.head + 1 }, cur := false }
  | .discard => { s with ring := s.ring.reset (s.slot L), cur := false }
  | .peek => if s.ring.tail < s.ring.head then { s with reader := .reading } else s
  | .reset => { s with ring := s.ring.reset (s.ring.tailSlot L), reader := .handing }
  | .release => { s with ring := { s.ring with tail := s.ring.tail + 1 }, reader := .idle }
  | .clear => { s with ring := s.ring.clear L, reader := .idle }

/-- The calls in the order the header asks for; `write` is what a `reserve` made room for. -/
def Allowed (s : Parties) : RingAct → Prop
  | .acquire => s.cur = false
  | .reserve _ => s.cur = true
  | .write bytes => s.cur = true ∧ bytes.length ≤ (s.ring.slots (s.slot L)).remaining L
  | .commit => s.cur = true
  | .discard => s.cur = true
  | .peek => s.reader = .idle
  | .reset => s.reader = .reading
  | .release => s.reader = .handing
  | .clear => s.reader ≠ .handing

instance (s : Parties) : ∀ a, Decidable (s.Allowed L a)
  | .acquire | .reserve _ | .commit | .discard => inferInstanceAs (Decidable (_ = _))
  | .write _ => inferInstanceAs (Decidable (_ ∧ _))
  | .peek | .reset | .release => inferInstanceAs (Decidable (_ = _))
  | .clear => inferInstanceAs (Decidable (_ ≠ _))

variable {L} {n : ℕ}

structure Inv (L : Layout) (n : ℕ) (s : Parties) : Prop where
  stored : ∃ base obtained msgs, s.ring.Stored L s.cur s.reader base obtained msgs
  whole : s.ring.Whole n
  written : s.cur = true → s.ring.payload (s.slot L) = s.written

theorem inv_built (L : Layout) (n : ℕ) : Inv L n (built n) where
  stored := ⟨0, [], [], .init L (List.nodup_reverse.mpr List.nodup_range)⟩
  whole := fun b => by simp [built]
  written := nofun

theorem inv_step {s : Parties} (hi : Inv L n s) (a : RingAct) (ha : s.Allowed L a) : Inv L n (s.step L a) := by
  obtain ⟨⟨base, obtained, msgs, hst⟩, hw, hp⟩ := hi
  cases a with
  | acquire =>
    by_cases hroom : s.ring.room L = true
    · have hstep : s.step L .acquire = { s with cur := true, written := [] } := if_pos hroom
      rw [hstep]
      rw [show s.cur = false from ha] at hst
      obtain ⟨h1, h2⟩ := hst.acquire hroom
      exact ⟨⟨base, obtained, msgs, h1⟩, hw, fun _ => h2.payload⟩
    · have hstep : s.step L .acquire = s := if_neg hroom
      rw [hstep]
      exact ⟨⟨base, obtained, msgs, hst⟩, hw, hp⟩
  | reserve len =>
    have hc : s.cur = true := ha
    rw [hc] at hst
    have ho := ManagedRing.only_reserve (i := s.slot L) hst.owned L len
    obtain ⟨hpay, hsize, hcap⟩ := ManagedRing.reserve_payload L len (s.slot L) s.ring
    have hle := hst.sizes (s.slot L)
    refine ⟨⟨base, obtained, msgs, ?_⟩, ManagedRing.whole_reserve hw L len _, fun _ => ?_⟩
    · change ManagedRing.Stored L s.cur s.reader base obtained msgs (s.ring.reserve L len (s.slot L)).1
      rw [hc]
      refine hst.touch ho ?_
      rw [show s.ring.headSlot L = s.slot L from rfl]
      omega
    · change (s.ring.reserve L len (s.slot L)).1.payload ((s.ring.reserve L len (s.slot L)).1.headSlot L) = s.written
      rw [ho.headSlot]
      exact hpay.trans (hp hc)
  | write bytes =>
    obtain ⟨hc, hlen⟩ : s.cur = true ∧ bytes.length ≤ (s.ring.slots (s.slot L)).remaining L := ha
    rw [hc] at hst
    have ho1 := ManagedRing.only_fill (i := s.slot L) hst.owned bytes
    have ho := ho1.trans (ManagedRing.only_commit (i := s.slot L) ho1.owned bytes.length)
    obtain ⟨hsize, hcap⟩ := ManagedRing.capacity_commit_fill (L := L) (i := s.slot L) bytes s.ring
    have hle := hst.sizes (s.slot L)
    unfold ManagedSlot.remaining at hlen
    refine ⟨⟨base, obtained, msgs, ?_⟩, ManagedRing.whole_commit (ManagedRing.whole_fill hw _ _) _ _, fun _ => ?_⟩
    · change ManagedRing.Stored L s.cur s.reader base obtained msgs
        ((s.ring.fill (s.slot L) bytes).commit (s.slot L) bytes.length)
      rw [hc]
      refine hst.touch ho ?_
      rw [show s.ring.headSlot L = s.slot L from rfl, hsize, hcap]
      omega
    · change ((s.ring.fill (s.slot L) bytes).commit (s.slot L) bytes.length).payload
        (((s.ring.fill (s.slot L) bytes).commit (s.slot L) bytes.length).headSlot L) = s.written ++ bytes
      rw [ho.headSlot, show s.ring.headSlot L = s.slot L from rfl, ManagedRing.payload_commit_fill, hp hc]
  | commit =>
    rw [show s.cur = true from ha] at hst
    exact ⟨⟨base, obtained, _, hst.publish⟩, hw.of_external rfl fun _ => rfl, nofun⟩
  | discard =>
    rw [show s.cur = true from ha] at hst
    exact ⟨⟨base, obtained, msgs, hst.discard⟩, ManagedRing.whole_reset hw _, nofun⟩
  | peek =>
    by_cases hlt : s.ring.tail < s.ring.head
    · have hstep : s.step L .peek = { s with reader := .reading } := if_pos hlt
      rw [hstep]
      rw [show s.reader = .idle from ha] at hst
      exact ⟨⟨base, _, msgs, hst.peek hlt⟩, hw, hp⟩
    · have hstep : s.step L .peek = s := if_neg hlt
      rw [hstep]
      exact ⟨⟨base, obtained, msgs, hst⟩, hw, hp⟩
  | reset =>
    rw [show s.reader = .reading from ha] at hst
    refine ⟨⟨base, obtained, msgs, hst.hand⟩, ManagedRing.whole_reset hw _, fun hc => ?_⟩
    -- the slot the producer holds is another one
    rw [show s.cur = true from hc] at hst
    have hne : s.slot L ≠ s.ring.tailSlot L := Ne.symm (hst.slot_ne_head (Nat.le_refl _) (hst.reading (by simp)))
    exact ((ManagedRing.only_reset hst.owned _).payload hne).trans (hp hc)
  | release =>
    rw [show s.reader = .handing from ha] at hst
    exact ⟨⟨base, obtained, msgs, hst.release⟩, hw.of_external rfl fun _ => rfl, hp⟩
  | clear =>
    obtain ⟨h1, hhead, h2⟩ := hst.clear
    refine ⟨⟨_, [], [], h1⟩, ManagedRing.whole_clear hw L, fun hc => ?_⟩
    have hslot : (s.ring.clear L).headSlot L = s.ring.headSlot L := congrArg (· % L.capacity) hhead
    change (s.ring.clear L).payload ((s.ring.clear L).headSlot L) = s.written
    rw [hslot, h2 hc]
    exact hp hc

/-- **Blocks and bytes are conserved** in every run of the two parties: every block of the pool is free or attached to
exactly one slot, `used()` is the number of slots with external storage, a slot that is neither committed nor held holds
nothing, and the producer's slot holds the bytes committed to it, whatever was promoted in between. -/
theorem blocks_conserved {acts : List RingAct} {s : Parties}
    (h : Run (fun t a u => t.step L a = u) (Allowed L) (built n) acts s) :
    (∀ b < n, (b ∈ s.ring.free ∧ ∀ i, (s.ring.slots i).external ≠ some b) ∨
      (b ∉ s.ring.free ∧ ∃! i, (s.ring.slots i).external = some b)) ∧
    (∀ b, b ∈ s.ring.free ∨ (∃ i, (s.ring.slots i).external = some b) → b < n) ∧
    s.ring.usedBlocks n = (s.ring.externalSlots L).card ∧
    (∀ i, (∀ k, s.ring.tail ≤ k → k < s.ring.head + s.cur.toNat → k % L.capacity ≠ i) → s.ring.Blank i) ∧
    (s.reader = .handing → s.ring.Blank (s.ring.tailSlot L)) ∧
    (s.cur = true → s.ring.payload (s.slot L) = s.written) := by
  have hi : Inv L n s := h.invariant (inv_built L n) fun t a v ht ha hv => hv ▸ inv_step ht a ha
  obtain ⟨base, obtained, msgs, hst⟩ := hi.stored
  refine ⟨fun b hb => hi.whole.owner hst.owned hb, fun b hb => (hi.whole b).mpr hb, ?_, hst.tidy, hst.handing, hi.written⟩
  refine hi.whole.used hst.owned fun i hs => ?_
  -- a slot beyond the capacity belongs to no count
  by_contra hge
  have hb := hst.tidy i fun k _ _ he => hge (he ▸ Nat.mod_lt k (by have := L.two_le; omega))
  rw [hb.2] at hs
  cases hs

/-- Two slots, two inline bytes, blocks of eight. -/
def small : Layout := ⟨2, 8, 8, 2, by decide, by decide⟩

/-- A message is promoted in its second fragment, committed, read and released; the next one is discarded. -/
def promoted : List RingAct :=
  [.acquire, .reserve 2, .write [1, 2], .reserve 3, .write [3, 4, 5], .commit, .peek, .reset, .release,
    .acquire, .reserve 4, .discard, .clear, .acquire, .reserve 5, .write [6]]

theorem run_promoted : Run (fun t a u => t.step small a = u) (Allowed small) (built 1) promoted
    (promoted.foldl (step small) (built 1)) :=
  have h : Admitted (step small) (Allowed small) (built 1) promoted := by decide +kernel
  Run.of_admitted (fun _ _ _ => rfl) h

theorem blocks_conserved_promoted :
    (promoted.foldl (step small) (built 1)).ring.usedBlocks 1 =
      ((promoted.foldl (step small) (built 1)).ring.externalSlots small).card ∧
    (promoted.foldl (step small) (built 1)).ring.usedBlocks 1 = 1 :=
  ⟨(blocks_conserved run_promoted).2.2.1, by decide +kernel⟩

end Parties

end Wirekrak.Buffer

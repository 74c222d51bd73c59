import Wirekrak.Lib.HashChain
import Wirekrak.Wal.Seek

/-!
# Wirekrak.Wal.Integrity — what a verified segment is known to be

`verify_full_segment_integrity` checks the segment header, and each block by itself and through the chain of checksums.

* `Verified x f size`: what the checks say about a file alone.
* `Verified.binding`: files that verify under one header checksum hold the same events, block by block, as long as
  what they hash does not collide.
* `Consistent f`: headers that agree with the events throughout, which no check compares.
-/

namespace Wirekrak.Wal

open Wirekrak.Lib

variable {x : Hash} {f g : File} {b : Block} {size size' n i : ℕ} {evs : List RequestEvent}

/-- The events of the blocks that the segment header counts. -/
def File.stored (f : File) : List (List RequestEvent) :=
  (List.range f.header.blockCount).map fun i => (f.block (offsetOf i)).valid

/-- The segment header tells the ids and the number of the events, and their ids go up. -/
structure Summary (h : Header) (bs : List (List RequestEvent)) : Prop where
  increasing : bs.flatten.Pairwise fun a b => a.eventId < b.eventId
  first : h.firstEventId = firstId bs.flatten
  last : h.lastEventId = lastId bs.flatten
  count : h.eventCount = bs.flatten.length

/-- All headers agree with the events. -/
structure Consistent (f : File) : Prop where
  holds : ∀ i < f.header.blockCount, Holds (f.block (offsetOf i)) (f.block (offsetOf i)).valid
  index : ∀ i < f.header.blockCount, (f.block (offsetOf i)).header.blockIndex = i
  summary : Summary f.header f.stored

/-! ## The checks -/

/-- What is checked of a block. -/
structure Block.Checked (x : Hash) (b : Block) : Prop where
  nonempty : b.valid ≠ []
  fits : b.valid.length ≤ blockEvents
  first_pos : 0 < b.header.firstEventId
  ordered : b.header.firstEventId ≤ b.header.lastEventId
  index : b.header.blockIndex ≤ maxBlocks
  increasing : b.valid.Pairwise fun a b => a.eventId < b.eventId
  checksum : b.header.blockChecksum = x.events b.valid 0

theorem length_valid (b : Block) : b.valid.length = b.header.eventCount := by
  simp [Block.valid]

/-- Ids that go up from each event to the next go up throughout. -/
theorem pairwise_valid (h : ∀ i < b.header.eventCount - 1, (b.events i).eventId < (b.events (i + 1)).eventId) :
    b.valid.Pairwise fun a b => a.eventId < b.eventId := by
  have hlt : ∀ k i, i + k + 1 < b.header.eventCount → (b.events i).eventId < (b.events (i + k + 1)).eventId := by
    intro k i
    induction k with
    | zero => exact fun hk => h i (by omega)
    | succ k ih => exact fun hk => (ih (by omega)).trans (h (i + k + 1) (by omega))
  unfold Block.valid
  rw [List.pairwise_map]
  refine List.pairwise_iff_getElem.mpr fun i j hi hj hij => ?_
  rw [List.length_range] at hi hj
  rw [List.getElem_range, List.getElem_range]
  obtain ⟨k, rfl⟩ := Nat.exists_eq_add_of_lt hij
  exact hlt k i hj

theorem Block.verify_ok {prev : UInt64} (h : b.verify x prev = .ok ()) :
    Block.Checked x b ∧ b.header.chainedChecksum = x.events b.valid prev := by
  unfold Block.verify at h
  split_ifs at h with hdata hblock hchain
  rw [Bool.not_eq_false] at hdata
  unfold Block.validateData at hdata
  simp only [Bool.and_eq_true, decide_eq_true_eq, List.all_eq_true, List.mem_range, not_or, not_lt] at hdata
  obtain ⟨⟨⟨⟨⟨hpos, hle⟩, hfirst, -⟩, hordered⟩, hindex⟩, hids⟩ := hdata
  rw [ne_eq, not_not] at hblock hchain
  refine ⟨⟨?_, ?_, Nat.pos_of_ne_zero hfirst, hordered, hindex, pairwise_valid hids, hblock.symm⟩, hchain.symm⟩
  · rw [← List.length_pos_iff, length_valid]
    exact Nat.pos_of_ne_zero hpos
  · rw [length_valid]
    exact hle

/-- **The walk over the blocks** checks every block, and ends with the last link of the chain. -/
theorem verifyBlocks_ok {prev last : UInt64} (h : verifyBlocks x f size n (offsetOf i) prev = .ok last) :
    (∀ j, i ≤ j → j < i + n → offsetOf (j + 1) ≤ size ∧ Block.Checked x (f.block (offsetOf j))) ∧
      last = ((List.range' i n).map fun j => (f.block (offsetOf j)).valid).foldl (fun s es => x.events es s) prev := by
  induction n generalizing i prev with
  | zero =>
    cases h
    exact ⟨fun j _ _ => by omega, rfl⟩
  | succ n ih =>
    unfold verifyBlocks at h
    split_ifs at h with hsize
    split at h
    · cases h
    · next hverify =>
      obtain ⟨hchecked, hchain⟩ := Block.verify_ok hverify
      rw [← offsetOf_succ] at h hsize
      obtain ⟨hrest, hlast⟩ := ih h
      refine ⟨fun j hij hj => ?_, ?_⟩
      · by_cases hji : j = i
        · subst hji
          exact ⟨Nat.le_of_not_lt hsize, hchecked⟩
        · exact hrest j (by omega) (by omega)
      · rw [hlast, hchain, List.range'_succ, List.map_cons, List.foldl_cons]

/-- What is checked of a file. -/
structure Verified (x : Hash) (f : File) (size : ℕ) : Prop where
  checksum : f.header.checksum = f.header.computeChecksum x
  format : f.header.validateData = true
  fits : ∀ i < f.header.blockCount, offsetOf (i + 1) ≤ size
  checked : ∀ i < f.header.blockCount, Block.Checked x (f.block (offsetOf i))
  chain : f.header.lastChainedChecksum = f.stored.foldl (fun s es => x.events es s) 0

theorem verified_of_ok {h : Header} (hv : verifyFullSegmentIntegrity x f size = .ok h) : Verified x f size := by
  unfold verifyFullSegmentIntegrity at hv
  split at hv
  · cases hv
  · next hheader =>
    split at hv
    · cases hv
    · next last hblocks =>
      split_ifs at hv with hlast
      rw [← offsetOf_zero] at hblocks
      obtain ⟨hchecked, hchain⟩ := verifyBlocks_ok hblocks
      unfold Header.verify at hheader
      split_ifs at hheader with hsum hdata
      rw [ne_eq, not_not] at hlast hsum
      rw [← List.range_eq_range'] at hchain
      exact ⟨hsum, Bool.eq_true_of_not_eq_false hdata, fun i hi => (hchecked i (Nat.zero_le i) (by omega)).1,
        fun i hi => (hchecked i (Nat.zero_le i) (by omega)).2, hlast.symm.trans hchain⟩

/-! ## What the checksums bind -/

/-- The checksums of the two files do not collide: those of the headers, and those along the chains. -/
structure Separates (x : Hash) (f g : File) : Prop where
  header : f.header.computeChecksum x = g.header.computeChecksum x →
    { f.header with checksum := 0 } = { g.header with checksum := 0 }
  events : Set.InjOn (fun p => x.events p.1 p.2) {p | p ∈ links x.events 0 f.stored ∨ p ∈ links x.events 0 g.stored}

theorem length_stored (f : File) : f.stored.length = f.header.blockCount := by
  simp [File.stored]

theorem Verified.header_eq (hf : Verified x f size) (hg : Verified x g size') (hx : Separates x f g)
    (hsum : f.header.checksum = g.header.checksum) : f.header = g.header := by
  have hrest := hx.header (by rw [← hf.checksum, ← hg.checksum, hsum])
  calc f.header = { { f.header with checksum := 0 } with checksum := f.header.checksum } := rfl
    _ = { { g.header with checksum := 0 } with checksum := g.header.checksum } := by rw [hrest, hsum]
    _ = g.header := rfl

/-- **The checksum of the segment header binds the events of all blocks.** -/
theorem Verified.stored_eq (hf : Verified x f size) (hg : Verified x g size') (hx : Separates x f g)
    (hsum : f.header.checksum = g.header.checksum) : f.stored = g.stored := by
  have hheader := hf.header_eq hg hx hsum
  refine (foldl_binding hx.events ?_ ?_).1
  · rw [length_stored, length_stored, hheader]
  · rw [← hf.chain, ← hg.chain, hheader]

/-- **Integrity verification**: a file that verifies is well formed block by block, and holds the events of any other
one that verifies under the same checksum. -/
theorem verifyFull_sound {h : Header} (hf : verifyFullSegmentIntegrity x f size = .ok h) :
    Verified x f size ∧
      ∀ g size' h', verifyFullSegmentIntegrity x g size' = .ok h' → Separates x f g →
        f.header.checksum = g.header.checksum →
          f.header = g.header ∧ f.stored = g.stored ∧ (Summary g.header g.stored → Summary f.header f.stored) := by
  have hv := verified_of_ok hf
  refine ⟨hv, fun g size' h' hg hx hsum => ?_⟩
  have hg' := verified_of_ok hg
  have hheader := hv.header_eq hg' hx hsum
  have hstored := hv.stored_eq hg' hx hsum
  refine ⟨hheader, hstored, fun hs => ?_⟩
  rw [hheader, hstored]
  exact hs

open SegmentReader (gaps rolling)

/-- The segment with the ids 1, 3 and 7, and another number in the headers of its blocks. -/
def mislabelled : File :=
  { gaps rolling with
    block := fun offset =>
      let b := (gaps rolling).block offset
      { b with header := { b.header with blockIndex := 7 } } }

/-- Two hashes of events that differ. -/
theorem injOn_pair {p q : List RequestEvent × UInt64} (h : x.events p.1 p.2 ≠ x.events q.1 q.2) :
    Set.InjOn (fun p => x.events p.1 p.2) {r | r ∈ [p, q] ∨ r ∈ [p, q]} := by
  intro r hr r' hr' heq
  simp only [Set.mem_ofPred_eq, or_self, List.mem_cons, List.not_mem_nil, or_false] at hr hr'
  rcases hr with rfl | rfl <;> rcases hr' with rfl | rfl
  · rfl
  · exact absurd heq h
  · exact absurd heq.symm h
  · rfl

theorem verifyFull_sound_mislabelled :
    Verified rolling mislabelled (offsetOf 2) ∧ Summary mislabelled.header mislabelled.stored := by
  have hf : verifyFullSegmentIntegrity rolling mislabelled (offsetOf 2) = .ok mislabelled.header := by decide +kernel
  have hg : verifyFullSegmentIntegrity rolling (gaps rolling) (offsetOf 2) = .ok (gaps rolling).header := by
    decide +kernel
  have hx : Separates rolling mislabelled (gaps rolling) := ⟨fun _ => rfl, injOn_pair (by decide)⟩
  obtain ⟨hv, hbind⟩ := verifyFull_sound hf
  exact ⟨hv, (hbind _ _ _ hg hx rfl).2.2 ⟨by decide, by decide, by decide, by decide⟩⟩

/-- Two blocks with the same ids 5 and 6, under headers that tell others, and whose checksums are all right. -/
def misleading (x : Hash) : File :=
  let b := Block.finalize x 9 0
    { header := { firstEventId := 1, lastEventId := 2, eventCount := 2 }, events := fun i => { eventId := i + 5 } }
  let b' := Block.finalize x 9 b.header.chainedChecksum
    { header := { firstEventId := 1, lastEventId := 2, eventCount := 2 }, events := fun i => { eventId := i + 5 } }
  { size := offsetOf 2
    header := Header.finalize x b'.header.chainedChecksum 0
      { magic := walMagic, version := walVersion, headerSize := headerBytes, blockCount := 2, eventCount := 3
        firstEventId := 1, lastEventId := 7 }
    block := fun offset => if offset = headerBytes then b else b' }

/-- It verifies, though no header agrees with the events. -/
theorem misleading_verifies : ¬ ∀ (x : Hash) (f : File) (size : ℕ) (h : Header),
    verifyFullSegmentIntegrity x f size = .ok h → Separates x f f → Consistent f := by
  intro hall
  have hf : verifyFullSegmentIntegrity rolling (misleading rolling) (offsetOf 2) = .ok (misleading rolling).header := by
    decide +kernel
  have hx : Separates rolling (misleading rolling) (misleading rolling) := ⟨fun _ => rfl, injOn_pair (by decide)⟩
  have hcount := (hall rolling (misleading rolling) (offsetOf 2) _ hf hx).summary.count
  revert hcount
  decide

end Wirekrak.Wal

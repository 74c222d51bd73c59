import Wirekrak.Wal.RoundTrip

/-!
# Wirekrak.Wal.Seek — looking an event up in a segment

`seek` searches the index of the blocks for the one that may hold the event, and then the block.

* `Stores f bs`: the segment holds the blocks `bs`, of any number of events each, with ids that go up.
* `search_spec`: where the binary search ends.
* `seek_exact_iff`: the reader stands before the first event that is not before the target exactly if the blocks it can
  see hold one; else it claims success all the same, before the last event.
-/

namespace Wirekrak.Wal

/-! ## Segments -/

/-- The block holds the events, and its header tells their number and the first and the last id. -/
structure Holds (b : Block) (es : List RequestEvent) : Prop where
  nonempty : es ≠ []
  valid : b.valid = es
  first : b.header.firstEventId = firstId es
  last : b.header.lastEventId = lastId es

/-- The segment holds the events of the blocks, with ids that go up. -/
structure Stores (f : File) (bs : List (List RequestEvent)) : Prop where
  count : f.header.blockCount = bs.length
  block : ∀ i es, bs[i]? = some es → Holds (f.block (offsetOf i)) es
  increasing : bs.flatten.Pairwise fun a b => a.eventId < b.eventId

namespace SegmentReader

/-- The next event is the first one from the target on; without one the seek fails. -/
def SeekExact (rd : SegmentReader) (evs : List RequestEvent) (eventId : ℕ) : Prop :=
  match evs.find? (fun e => decide (eventId ≤ e.eventId)) with
  | some e => ∃ rd', rd.seek eventId = some rd' ∧ rd'.next.1 = some e
  | none => rd.seek eventId = none

/-! ## The binary search -/

section Search

variable {fst lst off : ℕ → ℕ} {m t : ℕ}

/-- What the search ends with: the block around the target, or the last one before it, or the first of all. -/
def Candidate (fst lst : ℕ → ℕ) (m t p : ℕ) : Prop :=
  p < m ∧ ((fst p ≤ t ∧ t ≤ lst p) ∨ (p = 0 ∧ t < fst 0) ∨ (lst p < t ∧ ∀ i, p < i → i < m → t < fst i))

/-- **The binary search**: the entries before `left` end before the target, those after `right` begin behind it. -/
theorem search_spec (h1 : ∀ i < m, fst i ≤ lst i) (h2 : ∀ i j, i < j → j < m → lst i < fst j) {fuel left right pos : ℕ}
    (hfuel : right + 1 < left + fuel) (hright : right < m) (hle : left ≤ right + 1) (hstart : left ≤ right ∨ 0 < left)
    (hbefore : ∀ i < left, lst i < t) (hafter : ∀ i, right < i → i < m → t < fst i) (hpos : pos = left - 1) :
    Candidate fst lst m t (search ((List.range m).map (fun i => ⟨fst i, lst i, off i⟩)) t fuel left right pos) := by
  induction fuel generalizing left right pos with
  | zero => omega
  | succ fuel ih =>
    unfold search
    by_cases hlr : left ≤ right
    · rw [if_pos hlr]
      obtain ⟨mid, hmid⟩ : ∃ mid, mid = left + (right - left) / 2 := ⟨_, rfl⟩
      have hget : ((List.range m).map (fun i => (⟨fst i, lst i, off i⟩ : BlockIndexEntry)))[mid]? =
          some ⟨fst mid, lst mid, off mid⟩ := by
        rw [List.getElem?_map, List.getElem?_range (by omega)]
        rfl
      have hmid1 := h1 mid (by omega)
      rw [← hmid]
      dsimp only
      rw [hget]
      dsimp only
      by_cases hin : fst mid ≤ t ∧ t ≤ lst mid
      · rw [if_pos hin]
        exact ⟨by omega, .inl hin⟩
      · rw [if_neg hin]
        by_cases hlt : t < fst mid
        · rw [if_pos hlt]
          by_cases h0 : mid = 0
          · rw [if_pos h0]
            exact ⟨by omega, .inr (.inl ⟨rfl, h0 ▸ hlt⟩)⟩
          · rw [if_neg h0]
            refine ih (by omega) (by omega) (by omega) (by omega) hbefore (fun i hi him => ?_) hpos
            by_cases hie : i = mid
            · rw [hie]
              exact hlt
            · have := h2 mid i (by omega) him
              omega
        · rw [if_neg hlt]
          refine ih (by omega) (by omega) (by omega) (by omega) (fun i hi => ?_) hafter (by omega)
          by_cases hie : i = mid
          · rw [hie]
            omega
          · have := h2 i mid (by omega) (by omega)
            omega
    · rw [if_neg hlr, hpos]
      exact ⟨by omega, .inr (.inr ⟨hbefore _ (by omega), fun i hi him => hafter i (by omega) him⟩)⟩

end Search

end SegmentReader

/-! ## Blocks and their ids -/

section Blocks

variable {b : Block} {es : List RequestEvent} {f : File} {bs : List (List RequestEvent)} {i j : ℕ}

theorem Holds.count (h : Holds b es) : b.header.eventCount = es.length := by
  rw [← h.valid]
  simp [Block.valid]

theorem Holds.get (h : Holds b es) (hi : i < es.length) : some (b.events i) = es[i]? := by
  rw [← h.valid]
  unfold Block.valid
  rw [List.getElem?_map, List.getElem?_range (by rw [h.count]; exact hi)]
  rfl

theorem firstId_mem (h : es ≠ []) : ∃ e, es[0]? = some e ∧ firstId es = e.eventId := by
  cases es with
  | nil => exact absurd rfl h
  | cons e es => exact ⟨e, rfl, rfl⟩

theorem lastId_mem (h : es ≠ []) : ∃ e ∈ es, lastId es = e.eventId := by
  refine ⟨es.getLast h, List.getLast_mem h, ?_⟩
  unfold lastId
  rw [List.getLast?_eq_some_getLast h]
  rfl

theorem le_lastId (h : es.Pairwise fun a b => a.eventId < b.eventId) {e : RequestEvent} (he : e ∈ es) :
    e.eventId ≤ lastId es := by
  induction es using List.reverseRecOn with
  | nil => cases he
  | append_singleton es a ih =>
    have hlast : lastId (es ++ [a]) = a.eventId := by
      unfold lastId
      rw [List.getLast?_concat]
      rfl
    rw [hlast]
    rcases List.mem_append.mp he with h1 | h1
    · exact ((List.pairwise_append.mp h).2.2 e h1 a (List.mem_singleton.mpr rfl)).le
    · rw [List.mem_singleton.mp h1]

theorem Stores.sorted (h : Stores f bs) (hi : bs[i]? = some es) : es.Pairwise fun a b => a.eventId < b.eventId :=
  (List.pairwise_flatten.mp h.increasing).1 es (List.mem_of_getElem? hi)

/-- The ids of a block are before those of the next ones. -/
theorem Stores.lt (h : Stores f bs) {es' : List RequestEvent} (hij : i < j) (hi : bs[i]? = some es)
    (hj : bs[j]? = some es') {a b : RequestEvent} (ha : a ∈ es) (hb : b ∈ es') : a.eventId < b.eventId := by
  obtain ⟨hi', rfl⟩ := List.getElem?_eq_some_iff.mp hi
  obtain ⟨hj', rfl⟩ := List.getElem?_eq_some_iff.mp hj
  exact List.pairwise_iff_getElem.mp (List.pairwise_flatten.mp h.increasing).2 i j hi' hj' hij a ha b hb

theorem Stores.exists_get (h : Stores f bs) (hi : i < bs.length) :
    ∃ es, bs[i]? = some es ∧ Holds (f.block (offsetOf i)) es :=
  ⟨bs[i], List.getElem?_eq_getElem hi, h.block i _ (List.getElem?_eq_getElem hi)⟩

theorem Stores.first_le_last (h : Stores f bs) (hi : i < bs.length) :
    (f.block (offsetOf i)).header.firstEventId ≤ (f.block (offsetOf i)).header.lastEventId := by
  obtain ⟨es, hes, hb⟩ := h.exists_get hi
  obtain ⟨e, he, hfirst⟩ := firstId_mem hb.nonempty
  rw [hb.first, hb.last, hfirst]
  exact le_lastId (h.sorted hes) (List.mem_of_getElem? he)

theorem Stores.last_lt_first (h : Stores f bs) (hij : i < j) (hj : j < bs.length) :
    (f.block (offsetOf i)).header.lastEventId < (f.block (offsetOf j)).header.firstEventId := by
  obtain ⟨es, hes, hb⟩ := h.exists_get (show i < bs.length by omega)
  obtain ⟨es', hes', hb'⟩ := h.exists_get hj
  obtain ⟨a, ha, hlast⟩ := lastId_mem hb.nonempty
  obtain ⟨e, he, hfirst⟩ := firstId_mem hb'.nonempty
  rw [hb.last, hb'.first, hlast, hfirst]
  exact h.lt hij hes hes' ha (List.mem_of_getElem? he)

/-- What `segment_size` has room for is in the segment. -/
theorem Stores.visible_le (h : Stores f bs) : visible f.header.segmentSize ≤ bs.length := by
  refine Wal.visible_le ?_
  unfold Header.segmentSize offsetOf
  rw [h.count]
  exact Nat.mod_le _ _

end Blocks

/-! ## The reader of a segment -/

namespace SegmentReader

variable {x : Hash} {f : File} {rd : SegmentReader} {bs : List (List RequestEvent)}

/-- A reader that has opened the file, wherever it stands. -/
structure Reading (f : File) (rd : SegmentReader) : Prop where
  file : rd.file = f
  valid : rd.validDataSize = f.header.segmentSize
  index : rd.index = none ∨ rd.index = some (indexFrom f f.header.segmentSize f.header.segmentSize headerBytes)

theorem indexFrom_eq (f : File) (size : ℕ) {k i : ℕ} (hk : visible size ≤ i + k) :
    indexFrom f size k (offsetOf i) = (List.range' i (visible size - i)).map (fun i =>
      ⟨(f.block (offsetOf i)).header.firstEventId, (f.block (offsetOf i)).header.lastEventId, offsetOf i⟩) := by
  induction k generalizing i with
  | zero =>
    rw [show visible size - i = 0 by omega]
    rfl
  | succ k ih =>
    unfold indexFrom
    rw [← offsetOf_succ]
    by_cases hi : i < visible size
    · rw [if_pos (offsetOf_succ_le_iff.mpr hi), show visible size - i = visible size - (i + 1) + 1 by omega,
        List.range'_succ, List.map_cons, ih (by omega)]
    · rw [if_neg (fun hc => hi (offsetOf_succ_le_iff.mp hc)), show visible size - i = 0 by omega]
      rfl

theorem visible_le_self (size : ℕ) : visible size ≤ size := by
  unfold visible
  exact (Nat.div_le_self _ _).trans (Nat.sub_le _ _)

/-- The index of the blocks in view. -/
theorem Reading.buildIndex (h : Reading f rd) : Reading f rd.buildIndex ∧
    rd.buildIndex.index = some ((List.range (visible f.header.segmentSize)).map (fun i =>
      ⟨(f.block (offsetOf i)).header.firstEventId, (f.block (offsetOf i)).header.lastEventId, offsetOf i⟩)) := by
  have hidx := indexFrom_eq f f.header.segmentSize (k := f.header.segmentSize) (i := 0)
    (by rw [Nat.zero_add]; exact visible_le_self _)
  rw [Nat.sub_zero, ← List.range_eq_range'] at hidx
  unfold SegmentReader.buildIndex
  rcases h.index with hi | hi
  · rw [hi, if_neg (by decide)]
    refine ⟨⟨h.file, h.valid, .inr ?_⟩, ?_⟩
    · rw [h.file, h.valid]
    · rw [h.file, h.valid, ← offsetOf_zero, hidx]
  · rw [if_pos (by rw [hi]; rfl)]
    refine ⟨h, ?_⟩
    rw [hi, ← offsetOf_zero, hidx]

theorem Reading.next (h : Reading f rd) : Reading f rd.next.2 := by
  obtain ⟨hfile, hvalid, hindex⟩ := rd.next_kept
  refine ⟨hfile.trans h.file, hvalid.trans h.valid, ?_⟩
  rw [hindex]
  exact h.index

/-- The reader stands in the block `i`, before the place `j`. -/
structure Stands (f : File) (rd : SegmentReader) (i j : ℕ) : Prop extends Reading f rd where
  lt : i < visible f.header.segmentSize
  block : rd.currentBlock = f.block (offsetOf i)
  offset : rd.currentBlockOffset = offsetOf i
  place : rd.currentEventIndexInBlock = j

theorem Reading.read (h : Reading f rd) {i : ℕ} (hi : i < visible f.header.segmentSize) :
    ∃ rd', rd.readBlockAtOffset (offsetOf i) = some rd' ∧ Stands f rd' i 0 := by
  have hle := offsetOf_succ_le_iff.mpr hi
  rw [offsetOf_succ] at hle
  unfold readBlockAtOffset
  rw [h.valid, if_neg (by omega), h.file]
  exact ⟨_, rfl, ⟨rfl, rfl, h.index⟩, hi, rfl, rfl, rfl⟩

theorem Stands.move {i j k : ℕ} (h : Stands f rd i j) : Stands f { rd with currentEventIndexInBlock := k } i k :=
  ⟨⟨h.file, h.valid, h.index⟩, h.lt, h.block, h.offset, rfl⟩

section Stands

variable {i j : ℕ} (h : Stands f rd i j) {es : List RequestEvent} (hb : Holds (f.block (offsetOf i)) es)

include h hb

/-- The event at the place where the reader stands. -/
theorem Stands.next_event (hj : j < es.length) : rd.next.1 = es[j]? ∧ Stands f rd.next.2 i (j + 1) := by
  rw [next_eq, h.block, h.place, if_neg (by rw [hb.count]; omega), ← hb.get hj]
  rw [← h.block]
  exact ⟨rfl, h.move⟩

/-- Behind the last event of a block is the first one of the next. -/
theorem Stands.next_block (hj : es.length ≤ j) (hi : i + 1 < visible f.header.segmentSize)
    {es' : List RequestEvent} (hb' : Holds (f.block (offsetOf (i + 1))) es') :
    rd.next.1 = es'[0]? ∧ Stands f rd.next.2 (i + 1) 1 := by
  obtain ⟨rd', hr, hst⟩ := h.toReading.read hi
  rw [next_eq, h.block, h.place, if_pos (by rw [hb.count]; exact hj), h.offset, ← offsetOf_succ, hr]
  dsimp only
  rw [hst.block, hst.place, ← hb'.get (List.length_pos_iff.mpr hb'.nonempty)]
  refine ⟨rfl, ?_⟩
  rw [← hst.block]
  exact hst.move

theorem Stands.next_end (hj : es.length ≤ j) (hi : visible f.header.segmentSize ≤ i + 1) : rd.next.1 = none := by
  have hno : rd.readBlockAtOffset (offsetOf (i + 1)) = none := by
    have hlt : ¬ offsetOf (i + 1 + 1) ≤ f.header.segmentSize := fun hc => absurd (offsetOf_succ_le_iff.mp hc) (by omega)
    rw [offsetOf_succ] at hlt
    unfold readBlockAtOffset
    rw [h.valid, if_pos (by omega)]
  rw [next_eq, h.block, h.place, if_pos (by rw [hb.count]; exact hj), h.offset, ← offsetOf_succ, hno]

end Stands

/-- What a reader yields, from wherever it stands: the rest of the block and the blocks behind it that are in view. -/
theorem Stands.yields (hs : Stores f bs) {i j : ℕ} (h : Stands f rd i j) {es : List RequestEvent} (hes : bs[i]? = some es)
    (hj : j ≤ es.length) :
    rd.Yields (es.drop j ++ ((bs.take (visible f.header.segmentSize)).drop (i + 1)).flatten) := by
  obtain ⟨l, hl⟩ : ∃ l, l = es.drop j ++ ((bs.take (visible f.header.segmentSize)).drop (i + 1)).flatten := ⟨_, rfl⟩
  rw [← hl]
  -- the induction is on what is left
  induction l generalizing rd i j es with
  | nil =>
    obtain ⟨h1, h2⟩ := List.append_eq_nil_iff.mp hl.symm
    refine h.next_end (hs.block i es hes) (List.drop_eq_nil_iff.mp h1) ?_
    by_contra hlt
    have hm : i + 1 < bs.length := lt_of_lt_of_le (Nat.lt_of_not_le hlt) hs.visible_le
    obtain ⟨es', hes', hb'⟩ := hs.exists_get hm
    refine hb'.nonempty (List.flatten_eq_nil_iff.mp h2 es' (List.mem_of_getElem? (i := 0) ?_))
    rw [List.getElem?_drop, List.getElem?_take, if_pos (by omega)]
    exact hes'
  | cons e l ih =>
    by_cases hlt : j < es.length
    · obtain ⟨h1, h2⟩ := h.next_event (hs.block i es hes) hlt
      rw [List.drop_eq_getElem_cons hlt, List.cons_append, List.cons.injEq] at hl
      refine ⟨?_, ih h2 hes hlt hl.2⟩
      rw [h1, List.getElem?_eq_getElem hlt, hl.1]
    · rw [List.drop_eq_nil_of_le (by omega), List.nil_append] at hl
      by_cases hi : i + 1 < visible f.header.segmentSize
      · obtain ⟨es', hes', hb'⟩ := hs.exists_get (lt_of_lt_of_le hi hs.visible_le)
        obtain ⟨h1, h2⟩ := h.next_block (hs.block i es hes) (by omega) hi hb'
        have hget : (bs.take (visible f.header.segmentSize))[i + 1]? = some es' := by
          rw [List.getElem?_take, if_pos hi, hes']
        obtain ⟨hlt', heq⟩ := List.getElem?_eq_some_iff.mp hget
        rw [List.drop_eq_getElem_cons hlt', heq, List.flatten_cons] at hl
        have hpos := List.length_pos_iff.mpr hb'.nonempty
        rw [← List.drop_zero (l := es'), List.drop_eq_getElem_cons hpos, List.cons_append, List.cons.injEq] at hl
        refine ⟨?_, ih h2 hes' hpos hl.2⟩
        rw [h1, List.getElem?_eq_getElem hpos, hl.1]
      · rw [List.drop_eq_nil_of_le (by rw [List.length_take]; omega)] at hl
        cases hl

section Land

variable (hs : Stores f bs) {m t p : ℕ}
  (hp : Candidate (fun i => (f.block (offsetOf i)).header.firstEventId)
    (fun i => (f.block (offsetOf i)).header.lastEventId) m t p) {es : List RequestEvent} (hes : bs[p]? = some es)

include hs hp hes

/-- The blocks before the candidate are before the target. -/
theorem before_lt : ∀ e ∈ (bs.take p).flatten, e.eventId < t := by
  intro e he
  obtain ⟨es', hes', he'⟩ := List.mem_flatten.mp he
  obtain ⟨i, hi⟩ := List.mem_iff_getElem?.mp hes'
  rw [List.getElem?_take] at hi
  split_ifs at hi with hip
  have hb := hs.block p es hes
  obtain ⟨a, ha, hfirst⟩ := firstId_mem hb.nonempty
  have hlt := hs.lt hip hi hes he' (List.mem_of_getElem? ha)
  have hfl := hs.first_le_last (List.getElem?_eq_some_iff.mp hes).1
  have hfirst' := hb.first
  obtain ⟨-, ⟨h1, -⟩ | ⟨h1, -⟩ | ⟨h1, -⟩⟩ := hp
  · dsimp only at h1
    omega
  · omega
  · dsimp only at h1
    omega

/-- A block without an event from the target on is the last one before the target. -/
theorem behind_of_none (hnone : ∀ e ∈ es, e.eventId < t) :
    ∀ i, p < i → i < m → t < (f.block (offsetOf i)).header.firstEventId := by
  have hb := hs.block p es hes
  obtain ⟨a, ha, hfirst⟩ := firstId_mem hb.nonempty
  obtain ⟨c, hc, hlast⟩ := lastId_mem hb.nonempty
  have hla := hnone a (List.mem_of_getElem? ha)
  have hlc := hnone c hc
  have h1 := hb.first
  have h2 := hb.last
  obtain ⟨-, ⟨-, h3⟩ | ⟨h0, h3⟩ | ⟨-, h3⟩⟩ := hp
  · dsimp only at h3
    omega
  · subst h0
    dsimp only at h3
    omega
  · exact h3

/-- Without such an event, all up to the candidate are before the target. -/
theorem upto_lt (hnone : ∀ e ∈ es, e.eventId < t) : ∀ e ∈ (bs.take (p + 1)).flatten, e.eventId < t := by
  intro e he
  rw [List.take_add_one, hes, List.flatten_append, List.mem_append] at he
  rcases he with he | he
  · exact before_lt hs hp hes e he
  · exact hnone e (by simpa using he)

end Land

section Landing

variable {index : List BlockIndexEntry} {entry entry' : BlockIndexEntry} {rd1 : SegmentReader} {t p i : ℕ}
  (hget : index[p]? = some entry) (hread : rd.readBlockAtOffset entry.fileOffset = some rd1)

include hget hread

theorem land_eq_found (hfi : rd1.currentBlock.valid.findIdx? (fun e => decide (t ≤ e.eventId)) = some i) :
    rd.land index t p = some { rd1 with currentEventIndexInBlock := i } := by
  unfold land
  rw [hget]
  dsimp only
  rw [hread]
  dsimp only
  rw [hfi]

theorem land_eq_next (hfi : rd1.currentBlock.valid.findIdx? (fun e => decide (t ≤ e.eventId)) = none)
    (hnext : index[p + 1]? = some entry') : rd.land index t p = rd1.readBlockAtOffset entry'.fileOffset := by
  unfold land
  rw [hget]
  dsimp only
  rw [hread]
  dsimp only
  rw [hfi, hnext]

theorem land_eq_last (hfi : rd1.currentBlock.valid.findIdx? (fun e => decide (t ≤ e.eventId)) = none)
    (hnext : index[p + 1]? = none) :
    rd.land index t p = some { rd1 with currentEventIndexInBlock := rd1.currentBlock.header.eventCount - 1 } := by
  unfold land
  rw [hget]
  dsimp only
  rw [hread]
  dsimp only
  rw [hfi, hnext]

end Landing

/-- The index of the first `m` blocks. -/
def entries (f : File) (m : ℕ) : List BlockIndexEntry :=
  (List.range m).map (fun i =>
    ⟨(f.block (offsetOf i)).header.firstEventId, (f.block (offsetOf i)).header.lastEventId, offsetOf i⟩)

@[simp] theorem length_entries (f : File) (m : ℕ) : (entries f m).length = m := by
  simp [entries]

theorem getElem?_entries {i m : ℕ} (hi : i < m) : (entries f m)[i]? =
    some ⟨(f.block (offsetOf i)).header.firstEventId, (f.block (offsetOf i)).header.lastEventId, offsetOf i⟩ := by
  unfold entries
  rw [List.getElem?_map, List.getElem?_range hi]
  rfl

/-- A seek lands at the candidate that the binary search has found. -/
theorem Reading.seek_eq (h : Reading f rd) (hs : Stores f bs) (hpos : 0 < visible f.header.segmentSize) (t : ℕ) :
    ∃ p, Candidate (fun i => (f.block (offsetOf i)).header.firstEventId)
        (fun i => (f.block (offsetOf i)).header.lastEventId) (visible f.header.segmentSize) t p ∧
      rd.seek t = rd.buildIndex.land (entries f (visible f.header.segmentSize)) t p := by
  have hle := hs.visible_le
  have hidx : rd.buildIndex.index = some (entries f (visible f.header.segmentSize)) := h.buildIndex.2
  obtain ⟨m, hm⟩ : ∃ m, m = visible f.header.segmentSize := ⟨_, rfl⟩
  rw [← hm] at hidx hpos hle ⊢
  refine ⟨search (entries f m) t (m + 1) 0 (m - 1) 0, ?_, ?_⟩
  · exact search_spec (fun i hi => hs.first_le_last (by omega))
      (fun i j hij hj => hs.last_lt_first hij (by omega)) (by omega) (by omega) (by omega) (by omega)
      (fun i hi => by omega) (fun i hi him => by omega) rfl
  · have hlen := length_entries f m
    unfold SegmentReader.seek
    dsimp only
    rw [hidx]
    cases hc : entries f m with
    | nil =>
      rw [hc, List.length_nil] at hlen
      omega
    | cons a l =>
      rw [hc] at hlen
      dsimp only
      rw [hlen]

/-- **Where a seek lands**: before the first event from the target on, if there is one in view, and else before the last
event in view. -/
theorem Reading.seek_stands (h : Reading f rd) (hs : Stores f bs) (hpos : 0 < visible f.header.segmentSize) (t : ℕ) :
    ∃ rd' i j es e, rd.seek t = some rd' ∧ Stands f rd' i j ∧ bs[i]? = some es ∧ es[j]? = some e ∧
      ((t ≤ e.eventId ∧ ∀ a ∈ (bs.take i).flatten ++ es.take j, a.eventId < t) ∨
        ∀ a ∈ (bs.take (visible f.header.segmentSize)).flatten, a.eventId < t) := by
  have hle := hs.visible_le
  obtain ⟨p, hp, hseek⟩ := h.seek_eq hs hpos t
  have hpm := hp.1
  have hget := getElem?_entries (f := f) hpm
  obtain ⟨es, hes, hb⟩ := hs.exists_get (show p < bs.length by omega)
  obtain ⟨rd1, hread1, hst1⟩ := h.buildIndex.1.read hpm
  have hblock : rd1.currentBlock.valid = es := by rw [hst1.block, hb.valid]
  rw [hseek]
  cases hfi : es.findIdx? (fun e => decide (t ≤ e.eventId)) with
  | some i =>
    obtain ⟨hi, hsat, hfirst⟩ := List.findIdx?_eq_some_iff_getElem.mp hfi
    rw [land_eq_found hget hread1 (hblock ▸ hfi)]
    refine ⟨_, p, i, es, es[i], rfl, hst1.move, hes, List.getElem?_eq_getElem hi, .inl ⟨of_decide_eq_true hsat, ?_⟩⟩
    intro a ha
    rcases List.mem_append.mp ha with ha | ha
    · exact before_lt hs hp hes a ha
    · obtain ⟨k, hk, rfl⟩ := List.mem_take_iff_getElem.mp ha
      have := hfirst k (by omega)
      simpa using this
  | none =>
    have hall : ∀ e ∈ es, e.eventId < t := by
      intro e he
      have := List.findIdx?_eq_none_iff.mp hfi e he
      simpa using this
    have hupto := upto_lt hs hp hes hall
    by_cases hnext : p + 1 < visible f.header.segmentSize
    · -- the next block begins behind the target
      rw [land_eq_next hget hread1 (hblock ▸ hfi) (getElem?_entries hnext)]
      obtain ⟨es', hes', hb'⟩ := hs.exists_get (show p + 1 < bs.length by omega)
      obtain ⟨rd2, hread2, hst2⟩ := hst1.toReading.read hnext
      obtain ⟨a, ha, hfirst⟩ := firstId_mem hb'.nonempty
      have hlt := behind_of_none hs hp hes hall (p + 1) (by omega) hnext
      rw [hb'.first, hfirst] at hlt
      refine ⟨rd2, p + 1, 0, es', a, hread2, hst2, hes', ha, .inl ⟨hlt.le, fun c hc => hupto c ?_⟩⟩
      rw [List.take_zero, List.append_nil] at hc
      exact hc
    · -- no block is left
      have hnone : (entries f (visible f.header.segmentSize))[p + 1]? = none :=
        List.getElem?_eq_none (by rw [length_entries]; omega)
      have hlenes : 0 < es.length := List.length_pos_iff.mpr hb.nonempty
      have hcount : rd1.currentBlock.header.eventCount = es.length := by rw [hst1.block, hb.count]
      rw [land_eq_last hget hread1 (hblock ▸ hfi) hnone, hcount]
      refine ⟨_, p, es.length - 1, es, es[es.length - 1], rfl, hst1.move, hes, List.getElem?_eq_getElem _, .inr ?_⟩
      rw [show visible f.header.segmentSize = p + 1 by omega]
      exact hupto

/-- The events of the blocks, cut at a place of one of them. -/
theorem flatten_take {i : ℕ} {es : List RequestEvent} (hes : bs[i]? = some es) (j : ℕ) :
    bs.flatten = ((bs.take i).flatten ++ es.take j) ++ (es.drop j ++ (bs.drop (i + 1)).flatten) := by
  obtain ⟨hlt, heq⟩ := List.getElem?_eq_some_iff.mp hes
  conv_lhs => rw [← List.take_append_drop i bs]
  rw [List.drop_eq_getElem_cons hlt, heq, List.flatten_append, List.flatten_cons, List.append_assoc, ← List.append_assoc
    (es.take j), List.take_append_drop]

/-- **A seek lands** before the first event from the target on, if there is one in view, and else before the last one. -/
theorem Reading.seek (h : Reading f rd) (hs : Stores f bs) (hpos : 0 < visible f.header.segmentSize) (t : ℕ) :
    ∃ rd', rd.seek t = some rd' ∧ Reading f rd' ∧ ∃ e, rd'.next.1 = some e ∧
      ((bs.take (visible f.header.segmentSize)).flatten.find? (fun e => decide (t ≤ e.eventId)) = some e ∨
        ((bs.take (visible f.header.segmentSize)).flatten.find? (fun e => decide (t ≤ e.eventId)) = none ∧
          e.eventId < t)) := by
  obtain ⟨rd', i, j, es, e, hseek, hst, hes, he, hcase⟩ := h.seek_stands hs hpos t
  obtain ⟨hj, rfl⟩ := List.getElem?_eq_some_iff.mp he
  have hget : (bs.take (visible f.header.segmentSize))[i]? = some es := by
    rw [List.getElem?_take, if_pos hst.lt, hes]
  refine ⟨rd', hseek, hst.toReading, es[j], ?_, ?_⟩
  · rw [(hst.next_event (hs.block i es hes) hj).1, he]
  · rcases hcase with ⟨hle', hbefore⟩ | hall
    · left
      have hnone : ((bs.take i).flatten ++ es.take j).find? (fun e => decide (t ≤ e.eventId)) = none := by
        rw [List.find?_eq_none]
        intro a ha
        have := hbefore a ha
        rw [decide_eq_true_iff]
        omega
      rw [flatten_take hget j, List.take_take, min_eq_left hst.lt.le, List.find?_append, hnone, Option.none_or,
        List.drop_eq_getElem_cons hj, List.cons_append, List.find?_cons_of_pos (by rw [decide_eq_true_iff]; exact hle')]
    · right
      refine ⟨?_, hall _ (List.mem_flatten.mpr ⟨es, List.mem_of_getElem? hget, List.getElem_mem hj⟩)⟩
      rw [List.find?_eq_none]
      intro a ha
      have := hall a ha
      rw [decide_eq_true_iff]
      omega

/-- A list of events in order, cut before the first one from a target on. -/
theorem filter_of_split {A B : List RequestEvent} {e : RequestEvent} {t : ℕ}
    (hsort : (A ++ e :: B).Pairwise fun a b => a.eventId < b.eventId) (hA : ∀ a ∈ A, a.eventId < t) (he : t ≤ e.eventId) :
    (A ++ e :: B).filter (fun a => decide (t ≤ a.eventId)) = e :: B := by
  have hB : ∀ b ∈ B, t ≤ b.eventId := by
    intro b hb
    have hlt := (List.pairwise_cons.mp (List.pairwise_append.mp hsort).2.1).1 b hb
    omega
  rw [List.filter_append, List.filter_eq_nil_iff.mpr, List.nil_append, List.filter_eq_self]
  · intro b hb
    rw [decide_eq_true_iff]
    rcases List.mem_cons.mp hb with rfl | hb
    · exact he
    · exact hB b hb
  · intro a ha
    have := hA a ha
    rw [decide_eq_true_iff]
    omega

/-- **From a seek on** the reader yields the events in view from the target on, if there is one. -/
theorem Reading.seek_yields (h : Reading f rd) (hs : Stores f bs) {t : ℕ} {e : RequestEvent}
    (he : e ∈ (bs.take (visible f.header.segmentSize)).flatten) (ht : t ≤ e.eventId) :
    ∃ rd', rd.seek t = some rd' ∧ rd'.file = f ∧
      rd'.Yields ((bs.take (visible f.header.segmentSize)).flatten.filter (fun a => decide (t ≤ a.eventId))) := by
  have hpos : 0 < visible f.header.segmentSize := by
    by_contra h0
    rw [Nat.eq_zero_of_not_pos h0] at he
    cases he
  obtain ⟨rd', i, j, es, a, hseek, hst, hes, ha, hcase⟩ := h.seek_stands hs hpos t
  obtain ⟨hj, rfl⟩ := List.getElem?_eq_some_iff.mp ha
  rcases hcase with ⟨hle, hbefore⟩ | hall
  · refine ⟨rd', hseek, hst.file, ?_⟩
    have hget : (bs.take (visible f.header.segmentSize))[i]? = some es := by
      rw [List.getElem?_take, if_pos hst.lt, hes]
    have hy := hst.yields hs hes hj.le
    have hsort : (bs.take (visible f.header.segmentSize)).flatten.Pairwise fun a b => a.eventId < b.eventId :=
      hs.increasing.sublist (List.take_sublist _ _).flatten
    rw [flatten_take hget j, List.take_take, min_eq_left hst.lt.le, List.drop_eq_getElem_cons hj, List.cons_append]
      at hsort ⊢
    rw [filter_of_split hsort hbefore hle]
    rw [List.drop_eq_getElem_cons hj, List.cons_append] at hy
    exact hy
  · exact absurd (hall e he) (by omega)

/-! ## Runs of a reader -/

inductive Op
  | next
  | seek (eventId : ℕ)

/-- The reader after a call; a seek that fails has built the index. -/
def step (rd : SegmentReader) : Op → SegmentReader
  | .next => rd.next.2
  | .seek eventId => (rd.seek eventId).getD rd.buildIndex

/-- A reader that has been opened stands before the first block. -/
theorem stands_openSegment (h : openSegment x f = .ok rd) : Stands f rd 0 0 := by
  unfold openSegment at h
  split_ifs at h
  split at h
  · cases h
  · next hd hv =>
    rw [verifyFull_header hv] at h
    split_ifs at h
    split at h
    · cases h
    · next rd' hread =>
      cases h
      unfold readBlockAtOffset at hread
      split_ifs at hread with hlt
      cases hread
      refine ⟨⟨rfl, rfl, .inl rfl⟩, ?_, by rw [offsetOf_zero], offsetOf_zero.symm, rfl⟩
      rw [← offsetOf_succ_le_iff, offsetOf_succ, offsetOf_zero]
      dsimp only at hlt
      omega

theorem reading_openSegment (h : openSegment x f = .ok rd) : Reading f rd ∧ 0 < visible f.header.segmentSize :=
  ⟨(stands_openSegment h).toReading, (stands_openSegment h).lt⟩

/-- An opened reader yields all that is in view. -/
theorem yields_openSegment (hs : Stores f bs) (h : openSegment x f = .ok rd) :
    rd.Yields (bs.take (visible f.header.segmentSize)).flatten := by
  have hst := stands_openSegment h
  obtain ⟨es, hes, -⟩ := hs.exists_get (lt_of_lt_of_le hst.lt hs.visible_le)
  have hget : (bs.take (visible f.header.segmentSize))[0]? = some es := by
    rw [List.getElem?_take, if_pos hst.lt, hes]
  rw [flatten_take hget 0]
  exact hst.yields hs hes (Nat.zero_le _)

/-- **Every reader state** reads the opened file. -/
theorem reading_run (h : openSegment x f = .ok rd) (hs : Stores f bs) (ops : List Op) :
    Reading f (ops.foldl step rd) := by
  obtain ⟨hread, hpos⟩ := reading_openSegment h
  induction ops using List.reverseRecOn with
  | nil => exact hread
  | append_singleton ops op ih =>
    rw [List.foldl_append, List.foldl_cons, List.foldl_nil]
    cases op with
    | next => exact ih.next
    | seek t =>
      obtain ⟨rd', hseek, hread', -⟩ := ih.seek hs hpos t
      change Reading f ((SegmentReader.seek t (ops.foldl step rd)).getD _)
      rw [hseek]
      exact hread'

/-- **Seek is exact** just if an event from the target on is in view: in the blocks that `segment_size` has room for. -/
theorem seek_exact_iff (hs : Stores f bs) (hopen : openSegment x f = .ok rd) (ops : List Op) (eventId : ℕ) :
    (ops.foldl step rd).SeekExact bs.flatten eventId ↔
      ∃ e ∈ (bs.take (visible ((headerBytes + bs.length * blockBytes) % 2 ^ 32))).flatten, eventId ≤ e.eventId := by
  obtain ⟨m, hm⟩ : ∃ m, m = visible f.header.segmentSize := ⟨_, rfl⟩
  have hsize : visible ((headerBytes + bs.length * blockBytes) % 2 ^ 32) = m := by
    rw [hm, ← hs.count]
    rfl
  obtain ⟨rd', hseek, -, e, hnext, hcase⟩ :=
    (reading_run hopen hs ops).seek hs (reading_openSegment hopen).2 eventId
  rw [hsize]
  rw [← hm] at hcase
  have hsplit : bs.flatten.find? (fun e => decide (eventId ≤ e.eventId)) =
      ((bs.take m).flatten.find? (fun e => decide (eventId ≤ e.eventId))).or
        ((bs.drop m).flatten.find? (fun e => decide (eventId ≤ e.eventId))) := by
    conv_lhs => rw [← List.take_append_drop m bs]
    rw [List.flatten_append, List.find?_append]
  unfold SeekExact
  rw [hsplit]
  rcases hcase with hfind | ⟨hfind, hlt⟩
  · rw [hfind, Option.some_or]
    refine iff_of_true ⟨rd', hseek, hnext⟩ ⟨e, List.mem_of_find?_eq_some hfind, ?_⟩
    simpa using List.find?_some hfind
  · rw [hfind, Option.none_or]
    refine iff_of_false (fun hex => ?_) ?_
    · -- the seek claims success, before an event that is before the target
      cases hrest : (bs.drop m).flatten.find? (fun e => decide (eventId ≤ e.eventId)) with
      | none =>
        rw [hrest, hseek] at hex
        cases hex
      | some e' =>
        rw [hrest] at hex
        obtain ⟨rd'', hseek', hnext'⟩ := hex
        rw [hseek, Option.some.injEq] at hseek'
        subst hseek'
        rw [hnext, Option.some.injEq] at hnext'
        subst hnext'
        have hle := List.find?_some hrest
        rw [decide_eq_true_iff] at hle
        omega
    · rintro ⟨e', he', hle⟩
      have hno := List.find?_eq_none.mp hfind e' he'
      rw [decide_eq_true_iff] at hno
      exact hno hle

/-- A segment of two blocks, with the ids 1 and 3 in the first and 7 in the second. -/
def gaps (x : Hash) : File :=
  let b := Block.finalize x 0 0
    { header := { firstEventId := 1, lastEventId := 3, eventCount := 2 }, events := fun i => { eventId := 2 * i + 1 } }
  let b' := Block.finalize x 1 b.header.chainedChecksum
    { header := { firstEventId := 7, lastEventId := 7, eventCount := 1 }, events := fun _ => { eventId := 7 } }
  { size := headerBytes + 2 * blockBytes
    header := Header.finalize x b'.header.chainedChecksum 0
      { magic := walMagic, version := walVersion, headerSize := headerBytes, blockCount := 2, eventCount := 3
        firstEventId := 1, lastEventId := 7 }
    block := fun offset => if offset = headerBytes then b else b' }

/-- A checksum that rolls over the ids. -/
def rolling : Hash :=
  ⟨fun l s => l.foldl (fun a e => 31 * a + e.eventId.toUInt64) s, fun h => h.blockIndex.toUInt64,
    fun h => h.eventCount.toUInt64⟩

theorem stores_gaps : Stores (gaps x) [[{ eventId := 1 }, { eventId := 3 }], [{ eventId := 7 }]] := by
  refine ⟨rfl, fun i es h => ?_, ?_⟩
  · match i, h with
    | 0, h =>
      cases h
      exact ⟨by decide, rfl, rfl, rfl⟩
    | 1, h =>
      cases h
      exact ⟨by decide, rfl, rfl, rfl⟩
  · simp

theorem openSegment_gaps : ∃ rd, openSegment rolling (gaps rolling) = .ok rd := by
  have hok : (openSegment rolling (gaps rolling)).isOk = true := by decide +kernel
  cases h : openSegment rolling (gaps rolling) with
  | error e =>
    rw [h] at hok
    cases hok
  | ok rd => exact ⟨rd, rfl⟩

theorem seek_exact_iff_gaps : ∃ rd, openSegment rolling (gaps rolling) = .ok rd ∧
    SegmentReader.SeekExact rd [{ eventId := 1 }, { eventId := 3 }, { eventId := 7 }] 4 := by
  obtain ⟨rd, h⟩ := openSegment_gaps
  exact ⟨rd, h, (seek_exact_iff stores_gaps h [] 4).mpr ⟨{ eventId := 7 }, by decide, by decide⟩⟩

/-- Every id is before 8, and the seek still claims success. -/
theorem not_seek_exact : ¬ ∀ (x : Hash) (f : File) (bs : List (List RequestEvent)) (rd : SegmentReader) (eventId : ℕ),
    Stores f bs → openSegment x f = .ok rd → rd.SeekExact bs.flatten eventId := by
  intro h
  obtain ⟨rd, hopen⟩ := openSegment_gaps
  obtain ⟨hread, hpos⟩ := reading_openSegment hopen
  obtain ⟨rd', hseek, -⟩ := hread.seek stores_gaps hpos 8
  have hfail : rd.seek 8 = none := h rolling (gaps rolling) _ rd 8 stores_gaps hopen
  rw [hseek] at hfail
  cases hfail

end SegmentReader

end Wirekrak.Wal

import Wirekrak.Wal.Writer

/-!
# Wirekrak.Wal.Reader — reading a segment

`SegmentReader` over its mapped file: `openSegment` verifies the segment and loads its first block, `next` goes from
event to event and from block to block, `seek` looks an event up in the index of the blocks.

The reader takes the end of the data from `Header::segment_size`, which is a `uint32_t`.  `At x rd evs m p` says that
the reader stands before the event `p` of a segment of which it can see the first `m` blocks.
-/

namespace Wirekrak.Wal

open Wirekrak.Lib

variable (x : Hash)

structure BlockIndexEntry where
  firstEventId : ℕ
  lastEventId : ℕ
  fileOffset : ℕ
  deriving DecidableEq

structure SegmentReader where
  file : File
  segmentHeader : Header
  validDataSize : ℕ
  currentBlockOffset : ℕ := 0
  currentEventIndexInBlock : ℕ := 0
  currentBlock : Block := {}
  index : Option (List BlockIndexEntry) := none

namespace SegmentReader

def readBlockAtOffset (offset : ℕ) (rd : SegmentReader) : Option SegmentReader :=
  if rd.validDataSize < offset + blockBytes then none
  else some { rd with
    currentBlock := rd.file.block offset, currentBlockOffset := offset, currentEventIndexInBlock := 0 }

def openSegment (f : File) : Except Status SegmentReader :=
  if f.size < headerBytes then .error .openFailed
  else
    match verifyFullSegmentIntegrity x f f.size with
    | .error e => .error e
    | .ok h =>
      if f.size < h.segmentSize then .error .segmentPossiblyCorrupted
      else
        match readBlockAtOffset headerBytes { file := f, segmentHeader := h, validDataSize := h.segmentSize } with
        | none => .error .readFailed
        | some rd => .ok rd

/-- The event, if there is one; `none` is `false`. -/
def next (rd : SegmentReader) : Option RequestEvent × SegmentReader :=
  if rd.currentBlock.header.eventCount ≤ rd.currentEventIndexInBlock then
    let offset := rd.currentBlockOffset + blockBytes
    match rd.readBlockAtOffset offset with
    | none => (none, { rd with currentBlockOffset := offset })
    | some rd =>
      (some (rd.currentBlock.events rd.currentEventIndexInBlock),
        { rd with currentEventIndexInBlock := rd.currentEventIndexInBlock + 1 })
  else
    (some (rd.currentBlock.events rd.currentEventIndexInBlock),
      { rd with currentEventIndexInBlock := rd.currentEventIndexInBlock + 1 })

/-- The loop of `build_index_internally_`; a file has fewer blocks than bytes. -/
def indexFrom (f : File) (validDataSize : ℕ) : ℕ → ℕ → List BlockIndexEntry
  | 0, _ => []
  | fuel + 1, offset =>
    if offset + blockBytes ≤ validDataSize then
      ⟨(f.block offset).header.firstEventId, (f.block offset).header.lastEventId, offset⟩ ::
        indexFrom f validDataSize fuel (offset + blockBytes)
    else []

def buildIndex (rd : SegmentReader) : SegmentReader :=
  if rd.index.isSome then rd
  else { rd with index := some (indexFrom rd.file rd.validDataSize rd.validDataSize headerBytes) }

/-- The binary search of `seek_`: `left` and `right` bound the entries that are left, `pos` is the candidate. -/
def search (index : List BlockIndexEntry) (eventId : ℕ) : ℕ → ℕ → ℕ → ℕ → ℕ
  | 0, _, _, pos => pos
  | fuel + 1, left, right, pos =>
    if left ≤ right then
      let mid := left + (right - left) / 2
      match index[mid]? with
      | none => pos
      | some entry =>
        if entry.firstEventId ≤ eventId ∧ eventId ≤ entry.lastEventId then mid
        else if eventId < entry.firstEventId then
          if mid = 0 then 0 else search index eventId fuel left (mid - 1) pos
        else search index eventId fuel (mid + 1) right mid
    else pos

/-- Landing in the block of the candidate entry, or at the beginning of the one behind it. -/
def land (index : List BlockIndexEntry) (eventId pos : ℕ) (rd : SegmentReader) : Option SegmentReader :=
  match index[pos]? with
  | none => none
  | some entry =>
    match rd.readBlockAtOffset entry.fileOffset with
    | none => none
    | some rd =>
      match rd.currentBlock.valid.findIdx? (fun e => decide (eventId ≤ e.eventId)) with
      | some i => some { rd with currentEventIndexInBlock := i }
      | none =>
        match index[pos + 1]? with
        | some entry => rd.readBlockAtOffset entry.fileOffset
        | none => some { rd with currentEventIndexInBlock := rd.currentBlock.header.eventCount - 1 }

/-- `none` is `false`. -/
def seek (eventId : ℕ) (rd : SegmentReader) : Option SegmentReader :=
  let rd := rd.buildIndex
  match rd.index with
  | none => none
  | some [] => none
  | some index => rd.land index eventId (search index eventId (index.length + 1) 0 (index.length - 1) 0)

/-- Reading on gives exactly these events, and then reports the end. -/
def Yields (rd : SegmentReader) : List RequestEvent → Prop
  | [] => rd.next.1 = none
  | e :: es => rd.next.1 = some e ∧ Yields rd.next.2 es

theorem next_eq (rd : SegmentReader) : rd.next =
    if rd.currentBlock.header.eventCount ≤ rd.currentEventIndexInBlock then
      match rd.readBlockAtOffset (rd.currentBlockOffset + blockBytes) with
      | none => (none, { rd with currentBlockOffset := rd.currentBlockOffset + blockBytes })
      | some rd =>
        (some (rd.currentBlock.events rd.currentEventIndexInBlock),
          { rd with currentEventIndexInBlock := rd.currentEventIndexInBlock + 1 })
    else
      (some (rd.currentBlock.events rd.currentEventIndexInBlock),
        { rd with currentEventIndexInBlock := rd.currentEventIndexInBlock + 1 }) := rfl

theorem readBlock_kept {rd rd' : SegmentReader} {offset : ℕ} (h : rd.readBlockAtOffset offset = some rd') :
    rd'.file = rd.file ∧ rd'.validDataSize = rd.validDataSize ∧ rd'.index = rd.index := by
  unfold readBlockAtOffset at h
  split_ifs at h
  cases h
  exact ⟨rfl, rfl, rfl⟩

/-- Reading on changes neither the file nor what is known of it. -/
theorem next_kept (rd : SegmentReader) :
    rd.next.2.file = rd.file ∧ rd.next.2.validDataSize = rd.validDataSize ∧ rd.next.2.index = rd.index := by
  rw [next_eq]
  split_ifs
  · cases hr : rd.readBlockAtOffset (rd.currentBlockOffset + blockBytes) with
    | none => exact ⟨rfl, rfl, rfl⟩
    | some rd' =>
      have hk := readBlock_kept hr
      exact hk
  · exact ⟨rfl, rfl, rfl⟩

end SegmentReader

/-! ## Where a reader stands -/

variable {x} {rd : SegmentReader} {f : File} {n m p : ℕ} {evs : List RequestEvent}

/-- The reader sees the first `m` blocks of a segment that holds `evs`, and no more. -/
structure Sees (x : Hash) (rd : SegmentReader) (evs : List RequestEvent) (m : ℕ) : Prop where
  written : ∀ i < m, rd.file.block (offsetOf i) = sealedBlock x evs i
  valid : ∀ i, offsetOf (i + 1) ≤ rd.validDataSize ↔ i < m
  blocks : m ≤ pieces blockEvents evs.length

/-- It has loaded the block `i` and stands at the place `j` of it. -/
structure At (x : Hash) (rd : SegmentReader) (evs : List RequestEvent) (m i j : ℕ) : Prop extends Sees x rd evs m where
  lt : i < m
  block : rd.currentBlock = sealedBlock x evs i
  offset : rd.currentBlockOffset = offsetOf i
  place : rd.currentEventIndexInBlock = j
  place_le : j ≤ (chunk blockEvents evs i).length

theorem Sees.read (h : Sees x rd evs m) {i : ℕ} (hi : i < m) :
    ∃ rd', rd.readBlockAtOffset (offsetOf i) = some rd' ∧ At x rd' evs m i 0 ∧ rd'.index = rd.index := by
  have hv := (h.valid i).mpr hi
  rw [offsetOf_succ] at hv
  unfold SegmentReader.readBlockAtOffset
  rw [if_neg (by omega)]
  exact ⟨_, rfl, ⟨⟨h.written, h.valid, h.blocks⟩, hi, h.written i hi, rfl, rfl, Nat.zero_le _⟩, rfl⟩

theorem Sees.read_none (h : Sees x rd evs m) {i : ℕ} (hi : m ≤ i) : rd.readBlockAtOffset (offsetOf i) = none := by
  have hv := (h.valid i).not.mpr (by omega)
  rw [offsetOf_succ] at hv
  unfold SegmentReader.readBlockAtOffset
  rw [if_pos (by omega)]

/-- The place before the next event is the one behind the last. -/
theorem At.advance {i j : ℕ} (h : At x rd evs m i j) (hj : j < (chunk blockEvents evs i).length) :
    some (rd.currentBlock.events rd.currentEventIndexInBlock) = evs[blockEvents * i + j]? ∧
      At x { rd with currentEventIndexInBlock := rd.currentEventIndexInBlock + 1 } evs m i (j + 1) := by
  have hlen := length_chunk blockEvents evs i
  have hjE : j < blockEvents := by omega
  refine ⟨?_, ⟨⟨h.written, h.valid, h.blocks⟩, h.lt, h.block, h.offset, by rw [h.place], hj⟩⟩
  rw [← getElem?_chunk hjE, h.block, h.place, (packs_sealedBlock evs i).events]
  simp [hj]

/-- One event on: the reader gives the event it stands before and stands before the next one. -/
theorem At.next {i j : ℕ} (h : At x rd evs m i j) (hlt : blockEvents * i + j < (evs.take (blockEvents * m)).length) :
    rd.next.1 = evs[blockEvents * i + j]? ∧
      ∃ i' j', blockEvents * i' + j' = blockEvents * i + j + 1 ∧ At x rd.next.2 evs m i' j' := by
  have hlen := length_chunk blockEvents evs i
  have hple := h.place_le
  have hcount : rd.currentBlock.header.eventCount = (chunk blockEvents evs i).length := by
    rw [h.block]
    exact (packs_sealedBlock evs i).count
  rw [List.length_take] at hlt
  rw [SegmentReader.next_eq, hcount, h.place]
  by_cases hj : j < (chunk blockEvents evs i).length
  · rw [if_neg (by omega)]
    obtain ⟨h1, h2⟩ := h.advance hj
    rw [h.place] at h1 h2
    exact ⟨h1, i, j + 1, rfl, h2⟩
  · -- the block is used up, and there is one more
    have hfull : j = blockEvents ∧ i + 1 < m := by
      have hmul : blockEvents * i + j < blockEvents * m := by omega
      have hE : j = blockEvents := by omega
      refine ⟨hE, ?_⟩
      rw [hE, ← Nat.mul_succ] at hmul
      exact Nat.lt_of_mul_lt_mul_left hmul
    obtain ⟨rd', hr, hat, -⟩ := h.toSees.read hfull.2
    rw [if_pos (by omega), h.offset, ← offsetOf_succ]
    simp only [hr]
    have hlen' := length_chunk blockEvents evs (i + 1)
    have hpos : 0 < (chunk blockEvents evs (i + 1)).length := by
      rw [hlen', Nat.mul_succ]
      have := blockEvents_pos
      omega
    obtain ⟨h1, h2⟩ := hat.advance hpos
    have hp : blockEvents * (i + 1) = blockEvents * i + j := by
      rw [Nat.mul_succ, hfull.1]
    rw [Nat.add_zero, hp] at h1
    exact ⟨h1, i + 1, 0 + 1, by rw [hp], h2⟩

theorem At.next_none {i j : ℕ} (h : At x rd evs m i j)
    (hge : (evs.take (blockEvents * m)).length ≤ blockEvents * i + j) : rd.next.1 = none := by
  have hlen := length_chunk blockEvents evs i
  have hple := h.place_le
  have hcount : rd.currentBlock.header.eventCount = (chunk blockEvents evs i).length := by
    rw [h.block]
    exact (packs_sealedBlock evs i).count
  have hlt := h.lt
  have hm := Nat.mul_le_mul_left blockEvents (Nat.succ_le_of_lt hlt)
  rw [Nat.mul_succ] at hm
  have hne := (lt_pieces_iff (i := i) blockEvents_pos evs.length).mp (by have := h.blocks; omega)
  rw [List.length_take] at hge
  have hlast : m ≤ i + 1 := by
    by_contra hlt'
    have hm' := Nat.mul_le_mul_left blockEvents (Nat.succ_le_of_lt (Nat.lt_of_not_le hlt'))
    have hne' := (lt_pieces_iff (i := i + 1) blockEvents_pos evs.length).mp (by have := h.blocks; omega)
    rw [Nat.mul_succ, Nat.mul_succ] at hm'
    rw [Nat.mul_succ] at hne'
    have hE := blockEvents_pos
    omega
  rw [SegmentReader.next_eq, hcount, h.place, if_pos (by omega), h.offset, ← offsetOf_succ]
  simp only [h.toSees.read_none hlast]

/-- What a reader yields, from wherever it stands. -/
theorem At.yields {i j : ℕ} (h : At x rd evs m i j) :
    rd.Yields ((evs.take (blockEvents * m)).drop (blockEvents * i + j)) := by
  generalize hk : (evs.take (blockEvents * m)).length - (blockEvents * i + j) = k
  induction k generalizing rd i j with
  | zero =>
    rw [List.drop_eq_nil_of_le (by omega)]
    exact h.next_none (by omega)
  | succ k ih =>
    have hlt : blockEvents * i + j < (evs.take (blockEvents * m)).length := by omega
    obtain ⟨h1, i', j', hp, hat⟩ := h.next hlt
    rw [List.drop_eq_getElem_cons hlt]
    refine ⟨?_, ?_⟩
    · rw [h1, List.getElem_take, List.getElem?_eq_getElem]
    · rw [← hp]
      exact ih hat (by omega)

theorem SegmentReader.Yields.unique {l l' : List RequestEvent} (h : rd.Yields l) (h' : rd.Yields l') : l = l' := by
  induction l generalizing rd l' with
  | nil =>
    cases l' with
    | nil => rfl
    | cons a l' =>
      have h1 : rd.next.1 = none := h
      exact absurd (h1.symm.trans h'.1) (by simp)
  | cons a l ih =>
    cases l' with
    | nil =>
      have h1 : rd.next.1 = none := h'
      exact absurd (h1.symm.trans h.1) (by simp)
    | cons a' l' =>
      have ha := h.1
      rw [h'.1] at ha
      rw [Option.some.inj ha, ih h.2 h'.2]

end Wirekrak.Wal

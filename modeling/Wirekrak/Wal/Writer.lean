import Wirekrak.Lib.Chunk
import Wirekrak.Wal.Segment

/-!
# Wirekrak.Wal.Writer — writing a segment

`SegmentWriter` over its mapped file.  Events are gathered in a block in memory; a block that is full is sealed and
written at the next offset.  Closing writes the block that is not full and the final header.  Opening an existing
segment walks to the first block that is not full and takes it back into memory.

* `sealedBlock x evs i`: the `i`-th block of a segment that holds `evs`, as it stands in the file.
* `Holding x w n evs`: an open writer that has taken the events `evs`; `Closed x f n evs`: a closed segment with them.
* One lemma for each of `openNew`, `append`, `close`, `openExisting` says how these are carried on.
-/

namespace Wirekrak.Wal

open Wirekrak.Lib

variable (x : Hash)

/-! ## The writer -/

/-- `std::clamp(num_blocks, MIN_BLOCKS, MAX_BLOCKS)`. -/
def clampBlocks (numBlocks : ℕ) : ℕ :=
  max minBlocks (min numBlocks maxBlocks)

/-- A writer whose segment is open. -/
structure SegmentWriter where
  segmentSize : ℕ
  bytesWritten : ℕ
  header : Header
  block : Block := {}
  blockIndex : ℕ := 0
  prevChained : UInt64 := 0
  file : File

namespace SegmentWriter

def openNew (numBlocks segmentIndex now : ℕ) : SegmentWriter :=
  let size := headerBytes + clampBlocks numBlocks * blockBytes
  let header : Header :=
    { magic := walMagic, version := walVersion, headerSize := headerBytes, segmentIndex := segmentIndex,
      firstEventId := invalidEventId, lastEventId := invalidEventId, createdTsNs := now }
  { segmentSize := size, bytesWritten := headerBytes, header := header, file := { size := size, header := header } }

def writeBlock (w : SegmentWriter) : SegmentWriter :=
  let b := w.block.finalize x w.blockIndex w.prevChained
  let blockIndex := (w.blockIndex + 1) % 2 ^ 32
  { w with
    file := { w.file with block := Function.update w.file.block w.bytesWritten b }
    bytesWritten := w.bytesWritten + blockBytes
    prevChained := b.header.chainedChecksum
    blockIndex := blockIndex
    header := { w.header with blockCount := blockIndex }
    block := {} }

/-- The event enters the block in memory. -/
def take (ev : RequestEvent) (b : Block) : Block :=
  let h := if b.header.eventCount = 0 then { b.header with firstEventId := ev.eventId } else b.header
  { header := { h with lastEventId := ev.eventId, eventCount := (b.header.eventCount + 1) % 2 ^ 16 }
    events := Function.update b.events b.header.eventCount ev }

def append (ev : RequestEvent) (w : SegmentWriter) : SegmentWriter :=
  let h := if w.header.firstEventId = invalidEventId then { w.header with firstEventId := ev.eventId } else w.header
  let w := { w with
    block := take ev w.block
    header := { h with lastEventId := ev.eventId, eventCount := (w.header.eventCount + 1) % 2 ^ 32 } }
  if w.block.header.eventCount = blockEvents then w.writeBlock x else w

def flushPartial (w : SegmentWriter) : SegmentWriter :=
  if 0 < w.block.header.eventCount then w.writeBlock x else w

/-- `close_file_`: the file it leaves behind. -/
def close (now : ℕ) (w : SegmentWriter) : File :=
  let w := w.flushPartial x
  { w.file with header := w.header.finalize x w.prevChained now }

/-- Where `restore_append_position_` arrives, with the block it has looked at last. -/
structure Position where
  bytesWritten : ℕ
  blockIndex : ℕ
  prevChained : UInt64
  blk : Option Block

/-- The walk of `restore_append_position_` over `n` more blocks. -/
def walk (f : File) : ℕ → Position → Position
  | 0, p => p
  | n + 1, p =>
    if f.size < p.bytesWritten + blockBytes then p
    else
      let b := f.block p.bytesWritten
      if b.header.eventCount < blockEvents then { p with blk := some b }
      else walk f n ⟨p.bytesWritten + blockBytes, p.blockIndex + 1, b.header.chainedChecksum, some b⟩

def restoreAppendPosition (h : Header) (f : File) : SegmentWriter :=
  let p := walk f h.blockCount ⟨headerBytes, 0, 0, none⟩
  { segmentSize := f.size, bytesWritten := p.bytesWritten, header := h, blockIndex := p.blockIndex
    prevChained := p.prevChained, file := f
    block :=
      match p.blk with
      | some b => if b.header.eventCount < blockEvents then b else {}
      | none => {} }

def openExisting (f : File) : Except Status SegmentWriter :=
  if f.size < headerBytes then .error .openFailed
  else
    match verifyFullSegmentIntegrity x f f.size with
    | .error e => .error e
    | .ok h => .ok (restoreAppendPosition h f)

end SegmentWriter

/-! ## A segment and the events it holds -/

/-- The byte offset of the `i`-th block. -/
def offsetOf (i : ℕ) : ℕ :=
  headerBytes + i * blockBytes

theorem blockBytes_pos : 0 < blockBytes := by decide

theorem offsetOf_zero : offsetOf 0 = headerBytes := by
  unfold offsetOf
  rw [Nat.zero_mul, Nat.add_zero]

theorem offsetOf_succ (i : ℕ) : offsetOf (i + 1) = offsetOf i + blockBytes := by
  unfold offsetOf
  rw [Nat.succ_mul]
  omega

theorem offsetOf_le {i j : ℕ} (h : i ≤ j) : offsetOf i ≤ offsetOf j :=
  Nat.add_le_add_left (Nat.mul_le_mul_right _ h) _

theorem offsetOf_lt_iff {i j : ℕ} : offsetOf i < offsetOf j ↔ i < j := by
  unfold offsetOf
  rw [Nat.add_lt_add_iff_left, Nat.mul_lt_mul_right blockBytes_pos]

theorem offsetOf_inj {i j : ℕ} (h : offsetOf i = offsetOf j) : i = j :=
  Nat.eq_of_mul_eq_mul_right (by decide) (Nat.add_left_cancel h)

/-- Events as the log takes them: ids from 1 on, strictly increasing. -/
structure Ordered (evs : List RequestEvent) : Prop where
  pos : ∀ e ∈ evs, 1 ≤ e.eventId
  increasing : evs.Pairwise fun a b => a.eventId < b.eventId

def firstId (evs : List RequestEvent) : ℕ :=
  (evs.head?.map RequestEvent.eventId).getD 0

def lastId (evs : List RequestEvent) : ℕ :=
  (evs.getLast?.map RequestEvent.eventId).getD 0

/-- The block holds `c` in its first places, and zeros behind. -/
structure Packs (b : Block) (c : List RequestEvent) : Prop where
  first : b.header.firstEventId = firstId c
  last : b.header.lastEventId = lastId c
  count : b.header.eventCount = c.length
  events : b.events = fun j => c.getD j {}

/-- The chained checksum before the `i`-th block. -/
def chain (evs : List RequestEvent) : ℕ → UInt64
  | 0 => 0
  | i + 1 => x.events (chunk blockEvents evs i) (chain evs i)

/-- The `i`-th block as it stands in the file. -/
def sealedBlock (evs : List RequestEvent) (i : ℕ) : Block :=
  let c := chunk blockEvents evs i
  Block.finalize x i (chain x evs i)
    { header := { firstEventId := firstId c, lastEventId := lastId c, eventCount := c.length }
      events := fun j => c.getD j {} }

/-- An open writer of a segment with `n` blocks that has taken the events `evs`. -/
structure Holding (w : SegmentWriter) (n : ℕ) (evs : List RequestEvent) : Prop where
  size : w.file.size = offsetOf n
  segmentSize : w.segmentSize = offsetOf n
  blocks_le : n ≤ maxBlocks
  fits : evs.length ≤ n * blockEvents
  blockIndex : w.blockIndex = evs.length / blockEvents
  bytesWritten : w.bytesWritten = offsetOf (evs.length / blockEvents)
  prevChained : w.prevChained = chain x evs (evs.length / blockEvents)
  gathered : Packs w.block (chunk blockEvents evs (evs.length / blockEvents))
  written : ∀ i < evs.length / blockEvents, w.file.block (offsetOf i) = sealedBlock x evs i
  blockCount : evs.length % blockEvents = 0 → w.header.blockCount = evs.length / blockEvents
  format : w.header.validateData = true
  firstEventId : w.header.firstEventId = firstId evs
  lastEventId : w.header.lastEventId = lastId evs

/-- A closed segment with room for `n` blocks that holds the events `evs`. -/
structure Closed (f : File) (n : ℕ) (evs : List RequestEvent) : Prop where
  size : f.size = offsetOf n
  blocks_le : n ≤ maxBlocks
  fits : evs.length ≤ n * blockEvents
  checksum : f.header.checksum = f.header.computeChecksum x
  format : f.header.validateData = true
  blockCount : f.header.blockCount = pieces blockEvents evs.length
  lastChained : f.header.lastChainedChecksum = chain x evs (pieces blockEvents evs.length)
  written : ∀ i < pieces blockEvents evs.length, f.block (offsetOf i) = sealedBlock x evs i
  firstEventId : f.header.firstEventId = firstId evs
  lastEventId : f.header.lastEventId = lastId evs

variable {x} {w : SegmentWriter} {f : File} {n : ℕ} {evs : List RequestEvent} {b : Block} {c : List RequestEvent}

/-! ## Blocks -/

theorem blockEvents_pos : 0 < blockEvents := by decide

theorem firstId_concat (c : List RequestEvent) (ev : RequestEvent) :
    firstId (c ++ [ev]) = if c = [] then ev.eventId else firstId c := by
  cases c with
  | nil => rfl
  | cons a c => simp [firstId]

theorem lastId_concat (c : List RequestEvent) (ev : RequestEvent) : lastId (c ++ [ev]) = ev.eventId := by
  simp [lastId]

theorem firstId_pos (hpos : ∀ e ∈ evs, 1 ≤ e.eventId) (hne : evs ≠ []) : firstId evs ≠ 0 := by
  cases evs with
  | nil => exact absurd rfl hne
  | cons a l =>
    have := hpos a List.mem_cons_self
    simp [firstId]
    omega

theorem packs_empty : Packs {} [] :=
  ⟨rfl, rfl, rfl, rfl⟩

theorem Packs.valid (h : Packs b c) : b.valid = c := by
  unfold Block.valid
  rw [h.count, h.events]
  apply List.ext_getElem
  · simp
  · intro j hj hj'
    simp [hj']

/-- Sealing overwrites whatever else the block's header holds. -/
theorem Packs.finalize (h : Packs b c) (i : ℕ) (prev : UInt64) :
    b.finalize x i prev = Block.finalize x i prev
      { header := { firstEventId := firstId c, lastEventId := lastId c, eventCount := c.length }
        events := fun j => c.getD j {} } := by
  have hv := h.valid
  have hv' : Block.valid { header := { firstEventId := firstId c, lastEventId := lastId c, eventCount := c.length }
                           events := fun j => c.getD j {} } = c :=
    Packs.valid ⟨rfl, rfl, rfl, rfl⟩
  unfold Block.finalize Block.computeBlockChecksum Block.computeChainedChecksum
  simp only [hv, hv', h.first, h.last, h.count, h.events]

theorem packs_take (h : Packs b c) (hc : c.length < blockEvents) (ev : RequestEvent) :
    Packs (SegmentWriter.take ev b) (c ++ [ev]) := by
  have hlen : c.length + 1 < 2 ^ 16 := Nat.lt_of_le_of_lt hc (by decide)
  refine ⟨?_, ?_, ?_, ?_⟩
  · rw [firstId_concat]
    unfold SegmentWriter.take
    simp only [h.count, List.length_eq_zero_iff]
    split
    · rfl
    · exact h.first
  · rw [lastId_concat]
    rfl
  · unfold SegmentWriter.take
    simp only [h.count, List.length_append, List.length_singleton]
    exact Nat.mod_eq_of_lt hlen
  · unfold SegmentWriter.take
    simp only [h.count, h.events]
    funext j
    by_cases hj : j = c.length
    · rw [hj, Function.update_self]
      simp
    · rw [Function.update_of_ne hj]
      by_cases hlt : j < c.length
      · simp [hlt, List.getElem?_append_left]
      · have h1 : c.length ≤ j := by omega
        have h2 : (c ++ [ev]).length ≤ j := by
          rw [List.length_append, List.length_singleton]
          omega
        rw [List.getD_eq_getElem?_getD, List.getD_eq_getElem?_getD, List.getElem?_eq_none h1,
          List.getElem?_eq_none h2]

theorem chain_append {i : ℕ} (h : blockEvents * i ≤ evs.length) (m : List RequestEvent) :
    chain x (evs ++ m) i = chain x evs i := by
  induction i with
  | zero => rfl
  | succ i ih =>
    rw [Nat.mul_succ] at h
    unfold chain
    rw [chunk_append_of_le h, ih (by omega)]

theorem sealedBlock_append {i : ℕ} (h : blockEvents * i + blockEvents ≤ evs.length) (m : List RequestEvent) :
    sealedBlock x (evs ++ m) i = sealedBlock x evs i := by
  unfold sealedBlock
  rw [chunk_append_of_le h, chain_append (by omega)]

theorem sealedBlock_chained (evs : List RequestEvent) (i : ℕ) :
    (sealedBlock x evs i).header.chainedChecksum = chain x evs (i + 1) := by
  have hv : Block.valid { header := { firstEventId := firstId (chunk blockEvents evs i)
                                      lastEventId := lastId (chunk blockEvents evs i)
                                      eventCount := (chunk blockEvents evs i).length }
                          events := fun j => (chunk blockEvents evs i).getD j {} } = chunk blockEvents evs i :=
    Packs.valid ⟨rfl, rfl, rfl, rfl⟩
  unfold sealedBlock Block.finalize Block.computeChainedChecksum
  simp only [hv]
  rfl

theorem packs_sealedBlock (evs : List RequestEvent) (i : ℕ) :
    Packs (sealedBlock x evs i) (chunk blockEvents evs i) :=
  ⟨rfl, rfl, rfl, rfl⟩

/-! ## Opening a new segment and appending -/

theorem clampBlocks_le (numBlocks : ℕ) : clampBlocks numBlocks ≤ maxBlocks := by
  have h : minBlocks ≤ maxBlocks := by decide
  unfold clampBlocks
  omega

theorem holding_openNew (numBlocks segmentIndex now : ℕ) :
    Holding x (SegmentWriter.openNew numBlocks segmentIndex now) (clampBlocks numBlocks) [] := by
  refine ⟨rfl, rfl, clampBlocks_le _, Nat.zero_le _, rfl, ?_, rfl, packs_empty, ?_, fun _ => rfl, rfl, rfl, rfl⟩
  · simp [SegmentWriter.openNew, offsetOf]
  · intro i hi
    exact absurd hi (by simp)

/-- A block that is full or given up is sealed and written behind the ones before it. -/
theorem writeBlock_spec (evs : List RequestEvent) {k : ℕ} (hk : k + 1 < 2 ^ 32) (hb : Packs w.block (chunk blockEvents evs k))
    (hindex : w.blockIndex = k) (hoff : w.bytesWritten = offsetOf k) (hprev : w.prevChained = chain x evs k)
    (hwritten : ∀ i < k, w.file.block (offsetOf i) = sealedBlock x evs i) :
    (w.writeBlock x).blockIndex = k + 1 ∧ (w.writeBlock x).bytesWritten = offsetOf (k + 1) ∧
      (w.writeBlock x).prevChained = chain x evs (k + 1) ∧ (w.writeBlock x).block = {} ∧
      (w.writeBlock x).header = { w.header with blockCount := k + 1 } ∧
      (∀ i < k + 1, (w.writeBlock x).file.block (offsetOf i) = sealedBlock x evs i) := by
  have hseal : w.block.finalize x w.blockIndex w.prevChained = sealedBlock x evs k := by
    rw [hb.finalize, hindex, hprev]
    rfl
  have hmod : (k + 1) % 2 ^ 32 = k + 1 := Nat.mod_eq_of_lt hk
  unfold SegmentWriter.writeBlock
  simp only [hseal]
  rw [hindex, hoff, hmod]
  refine ⟨rfl, (offsetOf_succ k).symm, sealedBlock_chained evs k, trivial, rfl, ?_⟩
  intro i hi
  by_cases hik : i = k
  · rw [hik, Function.update_self]
  · rw [Function.update_of_ne (fun he => hik (offsetOf_inj he))]
    exact hwritten i (by omega)

theorem firstId_header (hpos : ∀ e ∈ evs, 1 ≤ e.eventId) (ev : RequestEvent) {h : Header}
    (hf : h.firstEventId = firstId evs) :
    (if h.firstEventId = invalidEventId then { h with firstEventId := ev.eventId } else h).firstEventId =
      firstId (evs ++ [ev]) := by
  rw [firstId_concat, hf]
  by_cases he : evs = []
  · rw [if_pos he, he]
    rfl
  · have hne : firstId evs ≠ invalidEventId := firstId_pos hpos he
    rw [if_neg he, if_neg hne]
    exact hf

/-- Block indices stay far below the range of their type. -/
theorem block_lt {k : ℕ} (hn : n ≤ maxBlocks) (h : k < n * blockEvents) : k / blockEvents + 1 < 2 ^ 32 := by
  have hlt : k / blockEvents < n := (Nat.div_lt_iff_lt_mul blockEvents_pos).mpr h
  have hM : maxBlocks + 1 < 2 ^ 32 := by decide
  omega

theorem holding_append (h : Holding x w n evs) (hroom : evs.length < n * blockEvents)
    (hpos : ∀ e ∈ evs, 1 ≤ e.eventId) (ev : RequestEvent) : Holding x (w.append x ev) n (evs ++ [ev]) := by
  have hk := block_lt h.blocks_le hroom
  have hdm := Nat.div_add_mod evs.length blockEvents
  have hml := Nat.mod_lt evs.length blockEvents_pos
  have hlen : (evs ++ [ev]).length = evs.length + 1 := by simp
  have hchunk : chunk blockEvents (evs ++ [ev]) (evs.length / blockEvents) =
      chunk blockEvents evs (evs.length / blockEvents) ++ [ev] := chunk_concat rfl blockEvents_pos ev
  have hclen : (chunk blockEvents evs (evs.length / blockEvents)).length = evs.length % blockEvents := by
    rw [length_chunk]
    omega
  have hpack := packs_take h.gathered (by omega) ev
  rw [← hchunk] at hpack
  have hprev : w.prevChained = chain x (evs ++ [ev]) (evs.length / blockEvents) := by
    rw [chain_append (by omega), h.prevChained]
  have hwritten : ∀ i < evs.length / blockEvents, w.file.block (offsetOf i) = sealedBlock x (evs ++ [ev]) i := by
    intro i hi
    have hm := Nat.mul_le_mul_left blockEvents (Nat.succ_le_of_lt hi)
    rw [Nat.mul_succ] at hm
    rw [sealedBlock_append (by omega)]
    exact h.written i hi
  have hfirst := firstId_header hpos ev h.firstEventId
  have hcount := hpack.count
  rw [length_chunk, hlen] at hcount
  unfold SegmentWriter.append
  simp only
  split
  · next hfull =>
    -- the block is full: it is written, and the next one begins empty
    have hmod : evs.length % blockEvents + 1 = blockEvents := by omega
    have hdiv : (evs ++ [ev]).length / blockEvents = evs.length / blockEvents + 1 := by
      rw [hlen]
      exact (succ_div_of_full hmod).1
    have hnext : chunk blockEvents (evs ++ [ev]) (evs.length / blockEvents + 1) = [] := by
      apply List.eq_nil_of_length_eq_zero
      rw [length_chunk, Nat.mul_succ]
      omega
    obtain ⟨h1, h2, h3, h4, h5, h6⟩ := writeBlock_spec (x := x) (evs ++ [ev]) (k := evs.length / blockEvents)
      (w := { w with
        block := SegmentWriter.take ev w.block
        header := { (if w.header.firstEventId = invalidEventId then { w.header with firstEventId := ev.eventId }
          else w.header) with lastEventId := ev.eventId, eventCount := (w.header.eventCount + 1) % 2 ^ 32 } })
      hk hpack h.blockIndex h.bytesWritten hprev hwritten
    refine ⟨h.size, h.segmentSize, h.blocks_le, by omega, ?_, ?_, ?_, ?_, ?_, fun _ => ?_, ?_, ?_, ?_⟩
    · rw [h1, hdiv]
    · rw [h2, hdiv]
    · rw [h3, hdiv]
    · rw [h4, hdiv, hnext]
      exact packs_empty
    · rw [hdiv]
      exact h6
    · rw [h5, hdiv]
    · rw [h5]
      have hform := h.format
      split <;> exact hform
    · rw [h5]
      exact hfirst
    · rw [h5, lastId_concat]
  · next hpart =>
    have hlt : evs.length % blockEvents + 1 < blockEvents := by omega
    have hdiv : (evs ++ [ev]).length / blockEvents = evs.length / blockEvents := by
      rw [hlen]
      exact (succ_div_of_lt hlt).1
    have hmod : (evs ++ [ev]).length % blockEvents = evs.length % blockEvents + 1 := by
      rw [hlen]
      exact (succ_div_of_lt hlt).2
    refine ⟨h.size, h.segmentSize, h.blocks_le, by omega, ?_, ?_, ?_, ?_, ?_, fun hz => ?_, ?_, ?_, ?_⟩
    · rw [hdiv]
      exact h.blockIndex
    · rw [hdiv]
      exact h.bytesWritten
    · rw [hdiv]
      exact hprev
    · rw [hdiv]
      exact hpack
    · rw [hdiv]
      exact hwritten
    · omega
    · have hform := h.format
      split <;> exact hform
    · exact hfirst
    · rw [lastId_concat]

/-! ## Closing -/

theorem finalize_checksum (h : Header) (chained : UInt64) (now : ℕ) :
    (h.finalize x chained now).checksum = (h.finalize x chained now).computeChecksum x :=
  rfl

theorem closed_close (h : Holding x w n evs) (now : ℕ) : Closed x (w.close x now) n evs := by
  have hdm := Nat.div_add_mod evs.length blockEvents
  have hcount := h.gathered.count
  rw [length_chunk] at hcount
  have hml := Nat.mod_lt evs.length blockEvents_pos
  unfold SegmentWriter.close SegmentWriter.flushPartial
  by_cases hz : evs.length % blockEvents = 0
  · -- nothing is gathered: the header is all that is written
    rw [if_neg (by omega)]
    have hp := pieces_of_mod_eq_zero blockEvents_pos hz
    refine ⟨h.size, h.blocks_le, h.fits, finalize_checksum _ _ _, h.format, ?_, ?_, ?_, h.firstEventId,
      h.lastEventId⟩
    · rw [hp]
      exact h.blockCount hz
    · rw [hp]
      exact h.prevChained
    · rw [hp]
      exact h.written
  · rw [if_pos (by omega)]
    have hp := pieces_of_mod_ne_zero blockEvents_pos hz
    have hroom : evs.length < n * blockEvents := by
      rcases Nat.lt_or_eq_of_le h.fits with hlt | heq
      · exact hlt
      · exact absurd (by rw [heq]; exact Nat.mul_mod_left _ _) hz
    obtain ⟨-, -, h3, -, h5, h6⟩ := writeBlock_spec _ (block_lt h.blocks_le hroom) h.gathered h.blockIndex h.bytesWritten
      h.prevChained h.written
    simp only [h5, h3]
    refine ⟨h.size, h.blocks_le, h.fits, finalize_checksum _ _ _, h.format, ?_, ?_, ?_, h.firstEventId,
      h.lastEventId⟩
    · rw [hp]
      rfl
    · rw [hp]
      rfl
    · rw [hp]
      exact h6

/-! ## Opening an existing segment -/

theorem Ordered.chunk (h : Ordered evs) (i : ℕ) : Ordered (chunk blockEvents evs i) :=
  ⟨fun e he => h.pos e ((chunk_sublist _ _ _).subset he), h.increasing.sublist (chunk_sublist _ _ _)⟩

theorem Ordered.firstId_le_lastId (h : Ordered c) : firstId c ≤ lastId c := by
  rcases List.eq_nil_or_concat c with rfl | ⟨l, a, rfl⟩
  · exact Nat.le_refl _
  · rw [List.concat_eq_append, lastId_concat, firstId_concat]
    split
    · exact Nat.le_refl _
    · next hne =>
      obtain ⟨b, l', rfl⟩ := List.exists_cons_of_ne_nil hne
      have hinc := h.increasing
      rw [List.concat_eq_append, List.cons_append, List.pairwise_cons] at hinc
      exact Nat.le_of_lt (hinc.1 a (by simp))

theorem Ordered.lastId_pos (h : Ordered c) (hne : c ≠ []) : lastId c ≠ 0 := by
  have h1 := firstId_pos h.pos hne
  have h2 := h.firstId_le_lastId
  omega

/-- A sealed block passes its checks. -/
theorem verify_sealedBlock (h : Ordered evs) {i : ℕ} (hi : i ≤ maxBlocks) (hne : chunk blockEvents evs i ≠ []) :
    (sealedBlock x evs i).verify x (chain x evs i) = .ok () := by
  have hp := packs_sealedBlock (x := x) evs i
  have hc := h.chunk i
  have hlen := length_chunk blockEvents evs i
  have hpos : 0 < (chunk blockEvents evs i).length := List.length_pos_iff.mpr hne
  have hdata : (sealedBlock x evs i).validateData = true := by
    unfold Block.validateData
    simp only [hp.count, hp.first, hp.last, hp.events, Bool.and_eq_true, decide_eq_true_eq, List.all_eq_true,
      List.mem_range, not_or, Nat.not_lt]
    refine ⟨⟨⟨⟨⟨by omega, by omega⟩, firstId_pos hc.pos hne, hc.lastId_pos hne⟩, hc.firstId_le_lastId⟩, hi⟩, ?_⟩
    intro j hj
    have h1 : j < (chunk blockEvents evs i).length := by omega
    have h2 : j + 1 < (chunk blockEvents evs i).length := by omega
    have hinc := List.pairwise_iff_getElem.mp hc.increasing j (j + 1) h1 h2 (by omega)
    simpa [h1, h2] using hinc
  unfold Block.verify
  rw [hdata, if_neg (by simp)]
  have hv := hp.valid
  unfold Block.computeBlockChecksum Block.computeChainedChecksum
  rw [hv, if_neg, if_neg]
  · rw [sealedBlock_chained]
    exact fun hx => hx rfl
  · have hv' : Block.valid { header := { firstEventId := firstId (Lib.chunk blockEvents evs i)
                                         lastEventId := lastId (Lib.chunk blockEvents evs i)
                                         eventCount := (Lib.chunk blockEvents evs i).length }
                             events := fun j => (Lib.chunk blockEvents evs i).getD j {} } =
        Lib.chunk blockEvents evs i := Packs.valid ⟨rfl, rfl, rfl, rfl⟩
    have hb : (sealedBlock x evs i).header.blockChecksum = x.events (Lib.chunk blockEvents evs i) 0 :=
      congrArg (fun l => x.events l 0) hv'
    exact fun hx => hx hb.symm

theorem Closed.blocks (h : Closed x f n evs) : pieces blockEvents evs.length ≤ n := by
  rw [pieces_le_iff blockEvents_pos, Nat.mul_comm]
  exact h.fits

theorem Closed.headerBytes_le (h : Closed x f n evs) : headerBytes ≤ f.size := by
  rw [h.size, ← offsetOf_zero]
  exact offsetOf_le (Nat.zero_le _)

/-- The walk over the blocks succeeds from any block on. -/
theorem Closed.verifyBlocks (h : Closed x f n evs) (ho : Ordered evs) : ∀ k i, i + k = pieces blockEvents evs.length →
    verifyBlocks x f f.size k (offsetOf i) (chain x evs i) = .ok (chain x evs (pieces blockEvents evs.length)) := by
  intro k
  induction k with
  | zero =>
    intro i hi
    rw [Nat.add_zero] at hi
    rw [← hi]
    rfl
  | succ k ih =>
    intro i hi
    have hlt : i < pieces blockEvents evs.length := by omega
    have hne : Lib.chunk blockEvents evs i ≠ [] := by
      have hl := (lt_pieces_iff blockEvents_pos evs.length).mp hlt
      have hE := blockEvents_pos
      apply List.ne_nil_of_length_pos
      rw [length_chunk]
      omega
    have hb := h.blocks
    have hM := h.blocks_le
    have hoff : offsetOf (i + 1) ≤ f.size := by
      rw [h.size]
      exact offsetOf_le (by omega)
    unfold Wal.verifyBlocks
    rw [if_neg (by rw [← offsetOf_succ]; omega), h.written i hlt, verify_sealedBlock ho (by omega) hne,
      sealedBlock_chained, ← offsetOf_succ]
    exact ih (i + 1) (by omega)

theorem Closed.verify (h : Closed x f n evs) : f.header.verify x = .ok () := by
  unfold Header.verify
  rw [if_neg (fun hx => hx h.checksum), h.format, if_neg (by simp)]

theorem Closed.verifyFull (h : Closed x f n evs) (ho : Ordered evs) :
    verifyFullSegmentIntegrity x f f.size = .ok f.header := by
  have hv := h.verifyBlocks ho (pieces blockEvents evs.length) 0 (Nat.zero_add _)
  rw [offsetOf_zero] at hv
  unfold verifyFullSegmentIntegrity
  rw [h.verify, h.blockCount]
  simp only
  rw [show chain x evs 0 = 0 from rfl] at hv
  rw [hv]
  simp only
  rw [if_neg (fun hx => hx h.lastChained.symm)]

/-- The walk arrives behind the full blocks, and has looked at the one that is not full, if there is one. -/
theorem Closed.walk (h : Closed x f n evs) : ∀ k i blk, i + k = pieces blockEvents evs.length →
    i ≤ evs.length / blockEvents →
    ∃ blk', SegmentWriter.walk f k ⟨offsetOf i, i, chain x evs i, blk⟩ =
        ⟨offsetOf (evs.length / blockEvents), evs.length / blockEvents, chain x evs (evs.length / blockEvents), blk'⟩ ∧
      (evs.length % blockEvents ≠ 0 → blk' = some (sealedBlock x evs (evs.length / blockEvents))) ∧
      (evs.length % blockEvents = 0 → blk' = blk ∨ ∃ j < evs.length / blockEvents, blk' = some (sealedBlock x evs j)) := by
  have hdm := Nat.div_add_mod evs.length blockEvents
  have hml := Nat.mod_lt evs.length blockEvents_pos
  intro k
  induction k with
  | zero =>
    intro i blk hi hle
    by_cases hz : evs.length % blockEvents = 0
    · rw [pieces_of_mod_eq_zero blockEvents_pos hz] at hi
      rw [Nat.add_zero] at hi
      rw [hi]
      exact ⟨blk, rfl, fun hx => absurd hz hx, fun _ => .inl rfl⟩
    · rw [pieces_of_mod_ne_zero blockEvents_pos hz] at hi
      omega
  | succ k ih =>
    intro i blk hi hle
    have hlt : i < pieces blockEvents evs.length := by omega
    have hb := h.blocks
    have hoff : offsetOf (i + 1) ≤ f.size := by
      rw [h.size]
      exact offsetOf_le (by omega)
    have hcount := (packs_sealedBlock (x := x) evs i).count
    rw [length_chunk] at hcount
    unfold SegmentWriter.walk
    simp only
    rw [if_neg (by rw [← offsetOf_succ]; omega), h.written i hlt, hcount]
    by_cases hfull : i < evs.length / blockEvents
    · have hm := Nat.mul_le_mul_left blockEvents (Nat.succ_le_of_lt hfull)
      rw [Nat.mul_succ] at hm
      rw [if_neg (by omega), sealedBlock_chained, ← offsetOf_succ]
      obtain ⟨blk', h1, h2, h3⟩ := ih (i + 1) (some (sealedBlock x evs i)) (by omega) hfull
      refine ⟨blk', h1, h2, fun hz => ?_⟩
      rcases h3 hz with h4 | h4
      · exact .inr ⟨i, hfull, h4⟩
      · exact .inr h4
    · have hi' : i = evs.length / blockEvents := by omega
      have hz : evs.length % blockEvents ≠ 0 := by
        intro hz
        rw [pieces_of_mod_eq_zero blockEvents_pos hz] at hlt
        omega
      rw [← hi'] at hdm
      rw [if_pos (by omega), ← hi']
      exact ⟨_, rfl, fun _ => rfl, fun hx => absurd hx hz⟩

/-- A closed segment is opened again, with the events it holds. -/
theorem holding_openExisting (h : Closed x f n evs) (ho : Ordered evs) :
    ∃ w, SegmentWriter.openExisting x f = .ok w ∧ Holding x w n evs ∧ w.file = f := by
  have hdm := Nat.div_add_mod evs.length blockEvents
  have hml := Nat.mod_lt evs.length blockEvents_pos
  have hsize := h.headerBytes_le
  obtain ⟨blk, hwalk, hpart, hfull⟩ := h.walk (pieces blockEvents evs.length) 0 none (Nat.zero_add _) (Nat.zero_le _)
  rw [offsetOf_zero, show chain x evs 0 = 0 from rfl, ← h.blockCount] at hwalk
  refine ⟨SegmentWriter.restoreAppendPosition f.header f, ?_, ?_, rfl⟩
  · unfold SegmentWriter.openExisting
    rw [if_neg (by omega), h.verifyFull ho]
  · unfold SegmentWriter.restoreAppendPosition
    rw [hwalk]
    have hchunk : evs.length % blockEvents = 0 → chunk blockEvents evs (evs.length / blockEvents) = [] := by
      intro hz
      apply List.eq_nil_of_length_eq_zero
      rw [length_chunk]
      omega
    refine ⟨h.size, h.size, h.blocks_le, h.fits, rfl, rfl, rfl, ?_, ?_, fun hz => ?_, h.format, h.firstEventId,
      h.lastEventId⟩
    · by_cases hz : evs.length % blockEvents = 0
      · rw [hchunk hz]
        rcases hfull hz with rfl | ⟨j, hj, rfl⟩
        · exact packs_empty
        · have hm := Nat.mul_le_mul_left blockEvents (Nat.succ_le_of_lt hj)
          rw [Nat.mul_succ] at hm
          have hc := (packs_sealedBlock (x := x) evs j).count
          rw [length_chunk] at hc
          simp only
          rw [if_neg (by omega)]
          exact packs_empty
      · rw [hpart hz]
        have hc := (packs_sealedBlock (x := x) evs (evs.length / blockEvents)).count
        rw [length_chunk] at hc
        simp only
        rw [if_pos (by omega)]
        exact packs_sealedBlock evs _
    · intro i hi
      have hp : evs.length / blockEvents ≤ pieces blockEvents evs.length := by
        by_cases hz : evs.length % blockEvents = 0
        · rw [pieces_of_mod_eq_zero blockEvents_pos hz]
        · rw [pieces_of_mod_ne_zero blockEvents_pos hz]
          omega
      exact h.written i (by omega)
    · rw [← pieces_of_mod_eq_zero blockEvents_pos hz]
      exact h.blockCount

end Wirekrak.Wal

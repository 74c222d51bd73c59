import Wirekrak.Wal.Crash

/-!
# Wirekrak.Wal.Mapping — where the writer puts its blocks

`write_block_` copies a whole block to the mapped file, at the number of bytes written so far.  The full-segment check
compares this number with the size of the file: it is passed as soon as a single byte is left.

* `Write`: one call of `write_block_`; `Recorder.sessionWrites`: those of a session, with the final close.
* `Recorder.StaysInside`: every block of the session lies in its place and in the mapping.
* `stays_inside_iff`: this holds for every session that begins with a segment just when the size of its file is a
  header and whole blocks, of which the 32-bit block index can count all.
-/

namespace Wirekrak.Wal

open Wirekrak.Lib

variable (x : Hash)

/-! ## The calls of `write_block_` -/

/-- `write_block_` at `bytes_written_`, with the block index that the block is given and the mapped size. -/
structure Write where
  offset : ℕ
  blockIndex : ℕ
  segmentSize : ℕ

structure Write.Inside (p : Write) : Prop where
  start : p.offset = headerBytes + p.blockIndex * blockBytes
  bound : p.offset + blockBytes ≤ p.segmentSize

namespace SegmentWriter

/-- The call that would be made now. -/
def nextWrite (w : SegmentWriter) : Write := ⟨w.bytesWritten, w.blockIndex, w.segmentSize⟩

/-- `append` up to the check for a full block. -/
def gather (ev : RequestEvent) (w : SegmentWriter) : SegmentWriter :=
  let h := if w.header.firstEventId = invalidEventId then { w.header with firstEventId := ev.eventId } else w.header
  { w with
    block := take ev w.block
    header := { h with lastEventId := ev.eventId, eventCount := (w.header.eventCount + 1) % 2 ^ 32 } }

def appendWrites (ev : RequestEvent) (w : SegmentWriter) : List Write :=
  if (w.gather ev).block.header.eventCount = blockEvents then [(w.gather ev).nextWrite] else []

def flushWrites (w : SegmentWriter) : List Write := if 0 < w.block.header.eventCount then [w.nextWrite] else []

end SegmentWriter

namespace Recorder

/-- The calls of a shutdown. -/
def closeWrites (s : Recorder) : List Write := (s.persist ++ [s.active]).flatMap fun o => o.writer.flushWrites

/-- The calls of one step. -/
def writes (s : Recorder) : Act → List Write
  | .append ev =>
    if s.active.writer.segmentSize ≤ s.active.writer.bytesWritten then
      match s.prepared with
      | [] => []
      | o :: _ => o.writer.appendWrites ev
    else s.active.writer.appendWrites ev
  | .prepare _ | .free => []
  | .flush | .close _ =>
    match s.persist with
    | [] => []
    | o :: _ => o.writer.flushWrites
  | .restart _ _ => s.closeWrites
  | .crash _ _ => []

/-- The calls of the steps, and those of the final close. -/
def sessionWrites (numBlocks : ℕ) : Recorder → List Act → List Write
  | s, [] => s.closeWrites
  | s, a :: acts => s.writes a ++ sessionWrites numBlocks (step x numBlocks s a) acts

/-- No block leaves its mapping, and the number of bytes written stays below its size, before the final close and
after it. -/
structure StaysInside (numBlocks : ℕ) (s : Recorder) (acts : List Act) : Prop where
  writes : ∀ p ∈ s.sessionWrites x numBlocks acts, p.Inside
  bounded : ∀ o ∈ (acts.foldl (step x numBlocks) s).persist ++ [(acts.foldl (step x numBlocks) s).active],
    o.writer.bytesWritten ≤ o.writer.segmentSize ∧ (o.writer.flushPartial x).bytesWritten ≤ o.writer.segmentSize

end Recorder

/-! ## Sessions -/

/-- How a segment is opened. -/
inductive Source
  | new (numBlocks segmentIndex now : ℕ)
  | existing (f : File)

namespace Source

def opens : Source → Except Status SegmentWriter
  | .new numBlocks segmentIndex now => .ok (SegmentWriter.openNew numBlocks segmentIndex now)
  | .existing f => SegmentWriter.openExisting x f

/-- The size of the file. -/
def size : Source → ℕ
  | .new numBlocks _ _ => headerBytes + clampBlocks numBlocks * blockBytes
  | .existing f => f.size

/-- The block count of a header is a `uint32_t`. -/
def InRange : Source → Prop
  | .new _ _ _ => True
  | .existing f => f.header.blockCount < 2 ^ 32

end Source

/-- All that happens until the shutdown. -/
def Act.InSession : Act → Prop
  | .restart _ _ | .crash _ _ => False
  | _ => True

/-- The recorder has just opened its active segment. -/
structure Recorder.Begins (s : Recorder) (w : SegmentWriter) : Prop where
  active : s.active.writer = w
  persist : s.persist = []
  prepared : s.prepared = []

/-- A header and whole blocks; the block index is a `uint32_t`. -/
def WholeBlocks (size : ℕ) : Prop := ∃ n ≤ 2 ^ 32, size = offsetOf n

variable {x} {w : SegmentWriter} {f : File} {o : Opened} {s : Recorder} {src : Source} {ev : RequestEvent}
  {evs : List RequestEvent} {size k m n numBlocks : ℕ}

theorem wholeBlocks_new (numBlocks segmentIndex now : ℕ) :
    WholeBlocks (Source.new numBlocks segmentIndex now).size := by
  refine ⟨clampBlocks numBlocks, ?_, rfl⟩
  have hle := clampBlocks_le numBlocks
  have hM : maxBlocks ≤ 2 ^ 32 := by decide
  omega

/-! ## The log of the calls is what the writer does -/

theorem append_eq (w : SegmentWriter) (ev : RequestEvent) :
    w.append x ev =
      if (w.gather ev).block.header.eventCount = blockEvents then (w.gather ev).writeBlock x else w.gather ev :=
  rfl

theorem append_writer (o : Opened) (ev : RequestEvent) : (o.append x ev).writer = o.writer.append x ev :=
  (Recorder.append_header o ev).2.2.2

theorem flush_writer (o : Opened) : (o.flush x).writer = o.writer.flushPartial x := by
  unfold Opened.flush Opened.advance
  split <;> rfl

theorem append_segmentSize (w : SegmentWriter) (ev : RequestEvent) : (w.append x ev).segmentSize = w.segmentSize := by
  rw [append_eq]
  split <;> rfl

theorem flushPartial_segmentSize (w : SegmentWriter) : (w.flushPartial x).segmentSize = w.segmentSize := by
  unfold SegmentWriter.flushPartial
  split <;> rfl

/-! ## The place of the writer -/

/-- The call for the `k`-th block of a segment. -/
def Write.nth (k size : ℕ) : Write := ⟨offsetOf k, k % 2 ^ 32, size⟩

theorem inside_nth_iff : (Write.nth k size).Inside ↔ k < 2 ^ 32 ∧ offsetOf (k + 1) ≤ size := by
  rw [offsetOf_succ]
  constructor
  · rintro ⟨hstart, hbound⟩
    refine ⟨?_, hbound⟩
    have hk : k = k % 2 ^ 32 := offsetOf_inj hstart
    rw [hk]
    exact Nat.mod_lt _ (by decide)
  · rintro ⟨hk, hbound⟩
    refine ⟨?_, hbound⟩
    unfold Write.nth
    simp only
    rw [Nat.mod_eq_of_lt hk]
    rfl

/-- The writer stands behind `m` places for events. -/
structure Placed (w : SegmentWriter) (m : ℕ) : Prop where
  bytesWritten : w.bytesWritten = offsetOf (m / blockEvents)
  blockIndex : w.blockIndex = m / blockEvents % 2 ^ 32
  eventCount : w.block.header.eventCount = m % blockEvents

theorem Placed.nextWrite (h : Placed w m) : w.nextWrite = Write.nth (m / blockEvents) w.segmentSize := by
  unfold SegmentWriter.nextWrite Write.nth
  rw [h.bytesWritten, h.blockIndex]

theorem Placed.gathered (h : Placed w m) (ev : RequestEvent) :
    (w.gather ev).block.header.eventCount = m % blockEvents + 1 := by
  have hm := Nat.mod_lt m blockEvents_pos
  have hB : blockEvents < 2 ^ 16 := by decide
  show (w.block.header.eventCount + 1) % 2 ^ 16 = m % blockEvents + 1
  rw [h.eventCount]
  exact Nat.mod_eq_of_lt (by omega)

/-- A written block makes room for the next one. -/
theorem at_writeBlock (hoff : w.bytesWritten = offsetOf k) (hindex : w.blockIndex = k % 2 ^ 32) :
    Placed (w.writeBlock x) (blockEvents * (k + 1)) := by
  have hdiv : blockEvents * (k + 1) / blockEvents = k + 1 := Nat.mul_div_cancel_left _ blockEvents_pos
  refine ⟨?_, ?_, ?_⟩
  · rw [hdiv, offsetOf_succ, ← hoff]
    rfl
  · rw [hdiv, ← Nat.mod_add_mod, ← hindex]
    rfl
  · rw [Nat.mul_mod_right]
    rfl

theorem Placed.append (h : Placed w m) (ev : RequestEvent) : Placed (w.append x ev) (m + 1) := by
  have hm := Nat.mod_lt m blockEvents_pos
  have hdm := Nat.div_add_mod m blockEvents
  rw [append_eq, h.gathered ev]
  split
  · next hfull =>
    have hnext : m + 1 = blockEvents * (m / blockEvents + 1) := by
      rw [Nat.mul_succ]
      omega
    rw [hnext]
    exact at_writeBlock h.bytesWritten h.blockIndex
  · next hpart =>
    obtain ⟨hdiv, hmod⟩ := succ_div_of_lt (n := blockEvents) (k := m) (by omega)
    refine ⟨?_, ?_, ?_⟩
    · rw [hdiv]
      exact h.bytesWritten
    · rw [hdiv]
      exact h.blockIndex
    · rw [hmod]
      exact h.gathered ev

/-- The calls of `append`: the block that the event fills. -/
theorem Placed.appendWrites (h : Placed w m) {p : Write} (hp : p ∈ w.appendWrites ev) :
    p = Write.nth (m / blockEvents) w.segmentSize := by
  unfold SegmentWriter.appendWrites at hp
  split at hp
  · rw [List.mem_singleton.mp hp]
    exact h.nextWrite
  · exact absurd hp List.not_mem_nil

/-- The calls of `flush_partial`: the block that is begun. -/
theorem Placed.flushWrites (h : Placed w m) :
    w.flushWrites = if m % blockEvents = 0 then [] else [Write.nth (m / blockEvents) w.segmentSize] := by
  unfold SegmentWriter.flushWrites
  rw [h.eventCount, h.nextWrite]
  by_cases hz : m % blockEvents = 0
  · rw [if_neg (by omega), if_pos hz]
  · rw [if_pos (by omega), if_neg hz]

/-- Afterwards the writer stands behind the block. -/
theorem Placed.flushPartial (h : Placed w m) : Placed (w.flushPartial x) (blockEvents * pieces blockEvents m) := by
  have hdm := Nat.div_add_mod m blockEvents
  unfold SegmentWriter.flushPartial
  rw [h.eventCount]
  by_cases hz : m % blockEvents = 0
  · rw [if_neg (by omega), pieces_of_mod_eq_zero blockEvents_pos hz]
    rw [hz, Nat.add_zero] at hdm
    rw [hdm]
    exact h
  · rw [if_pos (by omega), pieces_of_mod_ne_zero blockEvents_pos hz]
    exact at_writeBlock h.bytesWritten h.blockIndex

/-! ## Opening -/

theorem placed_openNew (numBlocks segmentIndex now : ℕ) :
    Placed (SegmentWriter.openNew numBlocks segmentIndex now) 0 := by
  exact ⟨offsetOf_zero.symm, rfl, rfl⟩

/-- The walk ends behind the full blocks; the block that is not full, where it stops, lies in the file. -/
theorem walk_stops (f : File) : ∀ n k prev blk, offsetOf k ≤ f.size →
    (∀ b ∈ blk, blockEvents ≤ b.header.eventCount) →
    ∃ k' prev' blk', SegmentWriter.walk f n ⟨offsetOf k, k, prev, blk⟩ = ⟨offsetOf k', k', prev', blk'⟩ ∧
      k' ≤ k + n ∧ offsetOf k' ≤ f.size ∧
      ∀ b ∈ blk', b.header.eventCount < blockEvents → k' < k + n ∧ offsetOf (k' + 1) ≤ f.size := by
  intro n
  induction n with
  | zero =>
    intro k prev blk hk hblk
    refine ⟨k, prev, blk, rfl, Nat.le_refl _, hk, fun b hb hlt => ?_⟩
    exact absurd (hblk b hb) (by omega)
  | succ n ih =>
    intro k prev blk hk hblk
    unfold SegmentWriter.walk
    simp only
    rw [← offsetOf_succ]
    split
    · refine ⟨k, prev, blk, rfl, by omega, hk, fun b hb hlt => ?_⟩
      exact absurd (hblk b hb) (by omega)
    · next hroom =>
      rw [Nat.not_lt] at hroom
      split
      · exact ⟨k, prev, _, rfl, by omega, hk, fun _ _ _ => ⟨by omega, hroom⟩⟩
      · next hfull =>
        obtain ⟨k', prev', blk', hwalk, hle, hk', hpart⟩ := ih (k + 1) (f.block (offsetOf k)).header.chainedChecksum
          (some (f.block (offsetOf k))) hroom (by
            intro b hb
            rw [Option.mem_some_iff.mp hb] at hfull
            exact Nat.le_of_not_lt hfull)
        refine ⟨k', prev', blk', hwalk, by omega, hk', fun b hb hlt => ?_⟩
        obtain ⟨h1, h2⟩ := hpart b hb hlt
        exact ⟨by omega, h2⟩

/-- What is begun has its place in the file. -/
structure Within (w : SegmentWriter) (m : ℕ) : Prop extends Placed w m where
  inside : offsetOf (pieces blockEvents m) ≤ w.segmentSize
  counted : pieces blockEvents m ≤ 2 ^ 32

theorem within_restore (h : Header) (hcount : h.blockCount < 2 ^ 32) (hsize : headerBytes ≤ f.size) :
    ∃ m, Within (SegmentWriter.restoreAppendPosition h f) m := by
  obtain ⟨k, prev, blk, hwalk, hk, hin, hpart⟩ := walk_stops f h.blockCount 0 0 none
    (by rw [offsetOf_zero]; exact hsize)
    (fun b hb => absurd hb (Option.not_mem_none b))
  rw [offsetOf_zero, Nat.zero_add] at *
  have hmod : k % 2 ^ 32 = k := Nat.mod_eq_of_lt (by omega)
  -- the block that was taken back, and its number of events
  obtain ⟨b, hb, hlt, hroom⟩ : ∃ b, (SegmentWriter.restoreAppendPosition h f).block = b ∧
      b.header.eventCount < blockEvents ∧
      (b.header.eventCount ≠ 0 → k < h.blockCount ∧ offsetOf (k + 1) ≤ f.size) := by
    refine ⟨_, rfl, ?_⟩
    unfold SegmentWriter.restoreAppendPosition
    rw [hwalk]
    cases blk with
    | none => exact ⟨blockEvents_pos, fun hne => absurd rfl hne⟩
    | some b =>
      simp only
      split
      · next hlt => exact ⟨hlt, fun _ => hpart b rfl hlt⟩
      · exact ⟨blockEvents_pos, fun hne => absurd rfl hne⟩
  have hbytes : (SegmentWriter.restoreAppendPosition h f).bytesWritten = offsetOf k := by
    unfold SegmentWriter.restoreAppendPosition
    rw [hwalk]
  have hindex : (SegmentWriter.restoreAppendPosition h f).blockIndex = k := by
    unfold SegmentWriter.restoreAppendPosition
    rw [hwalk]
  have hdiv : (blockEvents * k + b.header.eventCount) / blockEvents = k := by
    rw [Nat.mul_add_div blockEvents_pos, Nat.div_eq_of_lt hlt, Nat.add_zero]
  have hrem : (blockEvents * k + b.header.eventCount) % blockEvents = b.header.eventCount := by
    rw [Nat.mul_add_mod, Nat.mod_eq_of_lt hlt]
  refine ⟨blockEvents * k + b.header.eventCount, ⟨⟨?_, ?_, ?_⟩, ?_, ?_⟩⟩
  · rw [hdiv, hbytes]
  · rw [hdiv, hindex, hmod]
  · rw [hrem, hb]
  · by_cases hz : b.header.eventCount = 0
    · rw [pieces_of_mod_eq_zero blockEvents_pos (by rw [hrem, hz]), hdiv]
      exact hin
    · rw [pieces_of_mod_ne_zero blockEvents_pos (by rw [hrem]; exact hz), hdiv]
      exact (hroom hz).2
  · by_cases hz : b.header.eventCount = 0
    · rw [pieces_of_mod_eq_zero blockEvents_pos (by rw [hrem, hz]), hdiv]
      omega
    · rw [pieces_of_mod_ne_zero blockEvents_pos (by rw [hrem]; exact hz), hdiv]
      have := (hroom hz).1
      omega

theorem within_openNew (numBlocks segmentIndex now : ℕ) :
    Within (SegmentWriter.openNew numBlocks segmentIndex now) 0 := by
  have hz : pieces blockEvents 0 = 0 := by decide
  refine ⟨placed_openNew numBlocks segmentIndex now, ?_, ?_⟩
  · rw [hz]
    exact offsetOf_le (Nat.zero_le (clampBlocks numBlocks))
  · rw [hz]
    exact Nat.zero_le _

/-- **Opening a segment**, whether the file is new or not. -/
theorem Source.within (h : src.opens x = .ok w) (hr : src.InRange) : w.segmentSize = src.size ∧ ∃ m, Within w m := by
  cases src with
  | new numBlocks segmentIndex now =>
    cases h
    exact ⟨rfl, 0, within_openNew numBlocks segmentIndex now⟩
  | existing f =>
    have hopen : SegmentWriter.openExisting x f = .ok w := h
    unfold SegmentWriter.openExisting at hopen
    split at hopen
    · cases hopen
    · next hsize =>
      split at hopen
      · cases hopen
      · next hd hverify =>
        cases hopen
        have hheader := verifyFull_header hverify
        exact ⟨rfl, within_restore hd (by rw [hheader]; exact hr) (Nat.le_of_not_lt hsize)⟩

/-! ## Files of whole blocks -/

theorem pieces_mul (k : ℕ) : pieces blockEvents (blockEvents * k) = k := by
  rw [pieces_of_mod_eq_zero blockEvents_pos (Nat.mul_mod_right _ _), Nat.mul_div_cancel_left _ blockEvents_pos]

theorem div_le_pieces (m : ℕ) : m / blockEvents ≤ pieces blockEvents m := by
  have hge := pieces_mul_ge blockEvents_pos m
  calc m / blockEvents ≤ blockEvents * pieces blockEvents m / blockEvents := Nat.div_le_div_right hge
    _ = pieces blockEvents m := Nat.mul_div_cancel_left _ blockEvents_pos

/-- A block that is begun is written inside. -/
theorem Within.flushWrites (h : Within w m) : ∀ p ∈ w.flushWrites, p.Inside := by
  rw [h.toPlaced.flushWrites]
  intro p hp
  split at hp
  · exact absurd hp List.not_mem_nil
  · next hz =>
    have hpieces := pieces_of_mod_ne_zero blockEvents_pos hz
    have hin := h.inside
    have hcount := h.counted
    rw [hpieces] at hin hcount
    rw [List.mem_singleton.mp hp]
    exact inside_nth_iff.mpr ⟨hcount, hin⟩

theorem Within.flushPartial (h : Within w m) : Within (w.flushPartial x) (blockEvents * pieces blockEvents m) := by
  refine ⟨h.toPlaced.flushPartial, ?_, ?_⟩
  · rw [pieces_mul, flushPartial_segmentSize]
    exact h.inside
  · rw [pieces_mul]
    exact h.counted

theorem Within.bounded (h : Within w m) : w.bytesWritten ≤ w.segmentSize := by
  rw [h.bytesWritten]
  exact (offsetOf_le (div_le_pieces m)).trans h.inside

/-- A writer in a file of whole blocks. -/
structure Fits (w : SegmentWriter) : Prop where
  within : ∃ m, Within w m
  whole : WholeBlocks w.segmentSize

/-- **An append that passes the full-segment check** has room for the whole block. -/
theorem Fits.append (h : Fits w) (hroom : w.bytesWritten < w.segmentSize) (ev : RequestEvent) :
    Fits (w.append x ev) ∧ ∀ p ∈ w.appendWrites ev, p.Inside := by
  obtain ⟨⟨m, hm⟩, n, hn, hsize⟩ := h
  rw [hm.bytesWritten, hsize] at hroom
  have hlt := offsetOf_lt_iff.mp hroom
  have hmod := Nat.mod_lt m blockEvents_pos
  have hdm := Nat.div_add_mod m blockEvents
  have hpieces : pieces blockEvents (m + 1) ≤ n := by
    have hmul := Nat.mul_le_mul_left blockEvents (Nat.succ_le_of_lt hlt)
    rw [Nat.mul_succ] at hmul
    rw [pieces_le_iff blockEvents_pos]
    omega
  refine ⟨⟨⟨m + 1, hm.toPlaced.append ev, ?_, by omega⟩, ?_⟩, fun p hp => ?_⟩
  · rw [append_segmentSize, hsize]
    exact offsetOf_le hpieces
  · rw [append_segmentSize]
    exact ⟨n, hn, hsize⟩
  · rw [hm.toPlaced.appendWrites hp, hsize]
    exact inside_nth_iff.mpr ⟨by omega, offsetOf_le hlt⟩

theorem Fits.flushPartial (h : Fits w) : Fits (w.flushPartial x) := by
  obtain ⟨m, hm⟩ := h.within
  refine ⟨⟨_, hm.flushPartial⟩, ?_⟩
  rw [flushPartial_segmentSize]
  exact h.whole

/-- A prepared segment has room. -/
theorem fits_prepare (numBlocks index now : ℕ) :
    Fits (Opened.prepare numBlocks index now).writer ∧
      (Opened.prepare numBlocks index now).writer.bytesWritten <
        (Opened.prepare numBlocks index now).writer.segmentSize := by
  obtain ⟨hplaced, hin, hcount⟩ := within_openNew numBlocks index now
  refine ⟨⟨⟨0, ⟨hplaced.bytesWritten, hplaced.blockIndex, hplaced.eventCount⟩, hin, hcount⟩,
    wholeBlocks_new numBlocks index now⟩, ?_⟩
  have hpos : 0 < clampBlocks numBlocks := Nat.lt_of_lt_of_le (by decide : 0 < minBlocks) (Nat.le_max_left _ _)
  exact Nat.lt_add_of_pos_right (Nat.mul_pos hpos blockBytes_pos)

namespace Recorder

/-- All segments that the recorder has open are whole, and the prepared ones empty. -/
structure Fit (s : Recorder) : Prop where
  active : Fits s.active.writer
  persist : ∀ o ∈ s.persist, Fits o.writer
  prepared : ∀ o ∈ s.prepared, Fits o.writer ∧ o.writer.bytesWritten < o.writer.segmentSize

/-- A full segment waits to be closed, and the event goes to the next one that was prepared. -/
theorem Fit.append (h : s.Fit) (ev : RequestEvent) : (s.append x ev).Fit ∧ ∀ p ∈ s.writes (.append ev), p.Inside := by
  unfold Recorder.append writes
  by_cases hfull : s.active.writer.segmentSize ≤ s.active.writer.bytesWritten
  · simp only [if_pos hfull]
    unfold rotate
    cases hp : s.prepared with
    | nil =>
      refine ⟨⟨h.active, h.persist, h.prepared⟩, fun p hp' => absurd hp' List.not_mem_nil⟩
    | cons o rest =>
      obtain ⟨hfits, hroom⟩ := h.prepared o (by rw [hp]; exact List.mem_cons_self)
      obtain ⟨hnext, hwrites⟩ := hfits.append (x := x) hroom ev
      rw [← append_writer] at hnext
      refine ⟨⟨hnext, ?_, ?_⟩, hwrites⟩
      · intro o' ho'
        rcases List.mem_append.mp ho' with ho' | ho'
        · exact h.persist o' ho'
        · rw [List.mem_singleton.mp ho']
          exact h.active
      · intro o' ho'
        exact h.prepared o' (by rw [hp]; exact List.mem_cons_of_mem o ho')
  · simp only [if_neg hfull]
    obtain ⟨hnext, hwrites⟩ := h.active.append (x := x) (Nat.lt_of_not_le hfull) ev
    rw [← append_writer] at hnext
    exact ⟨⟨hnext, h.persist, h.prepared⟩, hwrites⟩

theorem Fit.prepare (h : s.Fit) (now : ℕ) : (step x numBlocks s (.prepare now)).Fit := by
  unfold step
  simp only
  split
  · refine ⟨h.active, h.persist, fun o ho => ?_⟩
    rcases List.mem_append.mp ho with ho | ho
    · exact h.prepared o ho
    · rw [List.mem_singleton.mp ho]
      exact fits_prepare numBlocks s.nextIndex now
  · exact h

theorem Fit.flush (h : s.Fit) : (step x numBlocks s .flush).Fit ∧ ∀ p ∈ s.writes .flush, p.Inside := by
  unfold step writes
  cases hp : s.persist with
  | nil => exact ⟨h, fun p hp' => absurd hp' List.not_mem_nil⟩
  | cons o rest =>
    have hfits := h.persist o (by rw [hp]; exact List.mem_cons_self)
    obtain ⟨m, hm⟩ := hfits.within
    refine ⟨⟨h.active, fun o' ho' => ?_, h.prepared⟩, hm.flushWrites⟩
    rcases List.mem_cons.mp ho' with rfl | ho'
    · rw [flush_writer]
      exact hfits.flushPartial
    · exact h.persist o' (by rw [hp]; exact List.mem_cons_of_mem o ho')

theorem Fit.close (h : s.Fit) (now : ℕ) :
    (step x numBlocks s (.close now)).Fit ∧ ∀ p ∈ s.writes (.close now), p.Inside := by
  unfold step writes
  cases hp : s.persist with
  | nil => exact ⟨h, fun p hp' => absurd hp' List.not_mem_nil⟩
  | cons o rest =>
    obtain ⟨m, hm⟩ := (h.persist o (by rw [hp]; exact List.mem_cons_self)).within
    refine ⟨⟨h.active, fun o' ho' => ?_, h.prepared⟩, hm.flushWrites⟩
    exact h.persist o' (by rw [hp]; exact List.mem_cons_of_mem o ho')

theorem Fit.free (h : s.Fit) : (step x numBlocks s .free).Fit := by
  unfold step
  cases hf : s.toFree with
  | nil => exact h
  | cons i rest => exact ⟨h.active, h.persist, h.prepared⟩

theorem Fit.step (h : s.Fit) {a : Act} (ha : a.InSession) :
    (step x numBlocks s a).Fit ∧ ∀ p ∈ s.writes a, p.Inside := by
  cases a with
  | append ev => exact h.append ev
  | prepare now => exact ⟨h.prepare now, fun p hp => absurd hp List.not_mem_nil⟩
  | flush => exact h.flush
  | close now => exact h.close now
  | free => exact ⟨h.free, fun p hp => absurd hp List.not_mem_nil⟩
  | restart last now => exact absurd ha not_false
  | crash last now => exact absurd ha not_false

theorem Fit.opened (h : s.Fit) : ∀ o ∈ s.persist ++ [s.active], Fits o.writer := by
  intro o ho
  rcases List.mem_append.mp ho with ho | ho
  · exact h.persist o ho
  · rw [List.mem_singleton.mp ho]
    exact h.active

/-- **Sessions of whole blocks**, by induction on the steps. -/
theorem Fit.staysInside {acts : List Act} (h : s.Fit) (ha : ∀ a ∈ acts, a.InSession) :
    s.StaysInside x numBlocks acts := by
  induction acts generalizing s with
  | nil =>
    refine ⟨fun p hp => ?_, fun o ho => ?_⟩
    · obtain ⟨o, ho, hp⟩ := List.mem_flatMap.mp hp
      obtain ⟨m, hm⟩ := (h.opened o ho).within
      exact hm.flushWrites p hp
    · obtain ⟨m, hm⟩ := (h.opened o ho).within
      have hclosed := (hm.flushPartial (x := x)).bounded
      rw [flushPartial_segmentSize] at hclosed
      exact ⟨hm.bounded, hclosed⟩
  | cons a acts ih =>
    obtain ⟨hnext, hwrites⟩ : (Recorder.step x numBlocks s a).Fit ∧ _ := h.step (ha a List.mem_cons_self)
    have hrest := ih hnext fun a' ha' => ha a' (List.mem_cons_of_mem a ha')
    refine ⟨fun p hp => ?_, hrest.bounded⟩
    rcases List.mem_append.mp hp with hp | hp
    · exact hwrites p hp
    · exact hrest.writes p hp

/-! ## Files with a rest -/

/-- The block whose place is not in the file, or whose index is not in the range of its type. -/
theorem exists_outside (hsize : ¬ WholeBlocks size) (hin : offsetOf (pieces blockEvents m) ≤ size)
    (hcount : pieces blockEvents m ≤ 2 ^ 32) :
    ∃ k, m ≤ blockEvents * k ∧ offsetOf k < size ∧ ¬ (Write.nth k size).Inside := by
  obtain ⟨n, hn, hnext⟩ : ∃ n, offsetOf n ≤ size ∧ size < offsetOf (n + 1) := by
    refine ⟨visible size, offsetOf_visible_le ?_, ?_⟩
    · rw [← offsetOf_zero]
      exact (offsetOf_le (Nat.zero_le _)).trans hin
    · by_contra hge
      exact absurd (offsetOf_succ_le_iff.mp (Nat.le_of_not_lt hge)) (Nat.lt_irrefl _)
  have hpn : pieces blockEvents m ≤ n := by
    by_contra hlt
    have := offsetOf_le (show n + 1 ≤ pieces blockEvents m by omega)
    omega
  by_cases hlim : n ≤ 2 ^ 32
  · have hne : size ≠ offsetOf n := fun he => hsize ⟨n, hlim, he⟩
    refine ⟨n, (pieces_le_iff blockEvents_pos m).mp hpn, by omega, fun hinside => ?_⟩
    have := (inside_nth_iff.mp hinside).2
    omega
  · have hlt := offsetOf_lt_iff.mpr (Nat.lt_of_not_le hlim)
    refine ⟨2 ^ 32, (pieces_le_iff blockEvents_pos m).mp hcount, by omega, fun hinside => ?_⟩
    exact Nat.lt_irrefl _ (inside_nth_iff.mp hinside).1

/-- As long as a byte is left, events go to the active segment. -/
theorem placed_foldl (hlt : ∀ i < m + evs.length, offsetOf (i / blockEvents) < s.active.writer.segmentSize)
    (h : Placed s.active.writer m) (hpersist : s.persist = []) :
    Placed ((evs.map Act.append).foldl (step x numBlocks) s).active.writer (m + evs.length) ∧
      ((evs.map Act.append).foldl (step x numBlocks) s).active.writer.segmentSize = s.active.writer.segmentSize ∧
      ((evs.map Act.append).foldl (step x numBlocks) s).persist = [] := by
  induction evs generalizing s m with
  | nil => exact ⟨h, rfl, hpersist⟩
  | cons ev evs ih =>
    rw [List.length_cons] at hlt
    have hroom := hlt m (by omega)
    rw [← h.bytesWritten] at hroom
    have heq : step x numBlocks s (.append ev) = { s with active := s.active.append x ev } := by
      unfold step Recorder.append
      simp only
      rw [if_neg (Nat.not_le.mpr hroom)]
    have hwriter : (step x numBlocks s (.append ev)).active.writer = s.active.writer.append x ev := by
      rw [heq]
      exact append_writer s.active ev
    have hsize : (step x numBlocks s (.append ev)).active.writer.segmentSize = s.active.writer.segmentSize := by
      rw [hwriter, append_segmentSize]
    have hrest := ih (s := step x numBlocks s (.append ev)) (m := m + 1)
      (by
        intro i hi
        rw [hsize]
        exact hlt i (by omega))
      (by
        rw [hwriter]
        exact h.append ev)
      (by
        rw [heq]
        exact hpersist)
    rw [List.length_cons, List.map_cons, List.foldl_cons, ← hsize, ← Nat.add_assoc, Nat.add_right_comm]
    exact hrest

theorem mem_sessionWrites {acts : List Act} {p : Write} (hp : p ∈ (acts.foldl (step x numBlocks) s).closeWrites) :
    p ∈ s.sessionWrites x numBlocks acts := by
  induction acts generalizing s with
  | nil => exact hp
  | cons a acts ih => exact List.mem_append_right _ (ih hp)

/-- Events that end just behind the start of the `k`-th block: closing writes that block. -/
theorem writes_nth (h : Placed s.active.writer m) (hpersist : s.persist = [])
    (hk : offsetOf k < s.active.writer.segmentSize) (hlen : m + evs.length = blockEvents * k + 1) :
    Write.nth k s.active.writer.segmentSize ∈ s.sessionWrites x numBlocks (evs.map .append) := by
  have hdiv : (blockEvents * k + 1) / blockEvents = k := by
    rw [Nat.mul_add_div blockEvents_pos, Nat.div_eq_of_lt (by decide), Nat.add_zero]
  have hmod : (blockEvents * k + 1) % blockEvents = 1 := by
    rw [Nat.mul_add_mod]
    rfl
  have hroom : ∀ i < m + evs.length, offsetOf (i / blockEvents) < s.active.writer.segmentSize := by
    intro i hi
    have hle : i / blockEvents ≤ k := by
      rw [← hdiv]
      exact Nat.div_le_div_right (by omega)
    exact Nat.lt_of_le_of_lt (offsetOf_le hle) hk
  obtain ⟨hplaced, hsize, -⟩ : Placed ((evs.map Act.append).foldl (step x numBlocks) s).active.writer _ ∧ _ :=
    placed_foldl hroom h hpersist
  rw [hlen] at hplaced
  refine mem_sessionWrites (List.mem_flatMap.mpr ⟨_, List.mem_append_right _ (List.mem_singleton_self _), ?_⟩)
  rw [hplaced.flushWrites, hdiv, hmod, hsize]
  exact List.mem_singleton_self _

/-! ## The condition -/

/-- **The writer stays inside its mapping** in every session just when its file consists of whole blocks. -/
theorem stays_inside_iff (hw : src.opens x = .ok w) (hr : src.InRange) (hs : s.Begins w) :
    (∀ acts : List Act, (∀ a ∈ acts, a.InSession) → s.StaysInside x numBlocks acts) ↔ WholeBlocks src.size := by
  obtain ⟨hsize, m, hm⟩ := Source.within hw hr
  constructor
  · intro hall
    by_contra hrest
    rw [← hsize] at hrest
    obtain ⟨k, hmk, hk, hout⟩ := exists_outside hrest hm.inside hm.counted
    rw [← hs.active] at hm hk hout
    have hlen : m + (List.replicate (blockEvents * k + 1 - m) ({} : RequestEvent)).length = blockEvents * k + 1 := by
      rw [List.length_replicate]
      omega
    refine hout ((hall _ (fun a ha => ?_)).writes _ (writes_nth hm.toPlaced hs.persist hk hlen))
    obtain ⟨ev, -, rfl⟩ := List.mem_map.mp ha
    exact trivial
  · intro hwhole acts ha
    refine Fit.staysInside ⟨⟨⟨m, ?_⟩, ?_⟩, ?_, ?_⟩ ha
    · rw [hs.active]
      exact hm
    · rw [hs.active, hsize]
      exact hwhole
    · rw [hs.persist]
      exact fun o ho => absurd ho List.not_mem_nil
    · rw [hs.prepared]
      exact fun o ho => absurd ho List.not_mem_nil

theorem stays_inside_new :
    (∀ acts : List Act, (∀ a ∈ acts, a.InSession) →
      (initializeFrom ⟨fun _ s => s, fun _ => 0, fun _ => 0⟩ 16 0 none []).StaysInside
        ⟨fun _ s => s, fun _ => 0, fun _ => 0⟩ 16 acts) ↔
      WholeBlocks (Source.new 16 0 0).size :=
  stays_inside_iff rfl trivial ⟨rfl, rfl, rfl⟩

/-- A segment that was closed without events, cut to a page. -/
def page (x : Hash) : File := { (SegmentWriter.openNew 16 0 0).close x 0 with size := 4096 }

theorem opens_page (x : Hash) :
    (Source.existing (page x)).opens x = .ok (SegmentWriter.restoreAppendPosition (page x).header (page x)) := by
  have hsum : (page x).header.checksum = (page x).header.computeChecksum x := finalize_checksum _ _ _
  have hverify : (page x).header.verify x = .ok () := by
    unfold Header.verify
    rw [if_neg (fun hne => hne hsum)]
    rfl
  have hsize : ¬ (page x).size < headerBytes := by
    show ¬ 4096 < headerBytes
    decide
  have hfull : verifyFullSegmentIntegrity x (page x) (page x).size = .ok (page x).header := by
    unfold verifyFullSegmentIntegrity
    rw [hverify]
    rfl
  unfold Source.opens SegmentWriter.openExisting
  simp only
  rw [hfull, if_neg hsize]

/-- One event is enough to write behind the end of the page. -/
theorem write_past_mapping : ¬ ∃ x, ∀ (src : Source) (w : SegmentWriter) (s : Recorder) (numBlocks : ℕ),
    src.opens x = .ok w → src.InRange → s.Begins w →
      ∀ acts : List Act, (∀ a ∈ acts, a.InSession) → s.StaysInside x numBlocks acts := by
  rintro ⟨x, h⟩
  have hinside := h (.existing (page x)) _
    { active := ⟨0, SegmentWriter.restoreAppendPosition (page x).header (page x), [], [], false⟩, nextIndex := 1 } 16
    (opens_page x) (by decide : (0 : ℕ) < 2 ^ 32) ⟨rfl, rfl, rfl⟩ [.append {}]
    (fun a ha => by rw [List.mem_singleton.mp ha]; exact trivial)
  have hbound := (hinside.writes ⟨headerBytes, 0, 4096⟩ (List.mem_singleton_self _)).bound
  exact absurd hbound (by decide)

end Recorder

end Wirekrak.Wal

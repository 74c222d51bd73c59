import Wirekrak.Lib.Run
import Wirekrak.Wal.Retention
import Wirekrak.Wal.RoundTrip

/-!
# Wirekrak.Wal.Crash — the recorder, a crash and the recovery of its directory

The recorder appends to its active segment and rotates to the next one that the preparer has made ready; the maintainer
closes what was rotated out, and removes the oldest file when the hot ring is full.  A block reaches its file when it is
full, the final header only when the segment is closed.  A crash leaves the files as they are, and the next process scans
them: segments that do not verify are deleted, from the newest on, until one of them opens.

* `durable`: the events of the blocks that were written to a segment; `dirty`: a block was written since it was opened.
* `ReadsBack`: what was durable before a crash is in the directory after the recovery, and a reader yields it.
* `crash_durable`: this holds at every crash that finds no dirty segment, in runs that do not fill the hot ring.
  `crash_deletes_block` is a crash that finds one.
-/

namespace Wirekrak.Wal

open Wirekrak.Lib

/-! ## Segments of the directory -/

/-- A segment file. -/
structure Stored where
  index : ℕ
  file : File
  durable : List RequestEvent := []

/-- A segment with a writer, which was given the events `taken`. -/
structure Opened where
  index : ℕ
  writer : SegmentWriter
  taken : List RequestEvent := []
  durable : List RequestEvent := []
  dirty : Bool := false

/-- `touch()` writes a zero to the first byte of each page; the first of all is the low byte of the magic number. -/
def SegmentWriter.touch (w : SegmentWriter) : SegmentWriter :=
  { w with file := { w.file with header := { w.file.header with magic := w.file.header.magic / 256 * 256 } } }

variable (x : Hash)

namespace Opened

/-- A new segment; the preparer touches its pages. -/
def new (numBlocks index now : ℕ) : Opened := ⟨index, SegmentWriter.openNew numBlocks index now, [], [], false⟩

def prepare (numBlocks index now : ℕ) : Opened :=
  ⟨index, (SegmentWriter.openNew numBlocks index now).touch, [], [], false⟩

/-- The writer goes on to `w`; if it has written a block, all events it was given are in the file. -/
def advance (o : Opened) (w : SegmentWriter) (taken : List RequestEvent) : Opened :=
  if w.bytesWritten = o.writer.bytesWritten then { o with writer := w, taken := taken }
  else { o with writer := w, taken := taken, durable := taken, dirty := true }

def append (ev : RequestEvent) (o : Opened) : Opened := o.advance (o.writer.append x ev) (o.taken ++ [ev])

def flush (o : Opened) : Opened := o.advance (o.writer.flushPartial x) o.taken

def close (now : ℕ) (o : Opened) : Stored := ⟨o.index, o.writer.close x now, o.taken⟩

/-- What a crash leaves of it. -/
def stored (o : Opened) : Stored := ⟨o.index, o.writer.file, o.durable⟩

end Opened

/-! ## The recorder -/

/-- `recorder::Manager` with its preparer and its maintainer; all lists begin with the oldest segment.  The hot ring
`walFiles` and the queue `toFree` hold the names of files. -/
structure Recorder where
  closed : List Stored := []
  persist : List Opened := []
  active : Opened
  prepared : List Opened := []
  nextIndex : ℕ
  walFiles : List ℕ := []
  toFree : List ℕ := []

namespace Recorder

/-- The files of the directory, by name. -/
def directory (s : Recorder) : List Stored :=
  s.closed ++ s.persist.map Opened.stored ++ [s.active.stored] ++ s.prepared.map Opened.stored

/-- `rotate_segment_`: a full hot ring gives up its oldest name; without a prepared segment it waits. -/
def rotate (s : Recorder) : Option Recorder :=
  match s.prepared with
  | [] => none
  | o :: rest =>
    let full := hotRing ≤ s.walFiles.length
    some { s with
      persist := s.persist ++ [s.active]
      active := o
      prepared := rest
      walFiles := (if full then s.walFiles.drop 1 else s.walFiles) ++ [s.active.index]
      toFree := if full then s.toFree ++ s.walFiles.take 1 else s.toFree }

def append (ev : RequestEvent) (s : Recorder) : Recorder :=
  if s.active.writer.segmentSize ≤ s.active.writer.bytesWritten then
    match s.rotate with
    | none => s
    | some s => { s with active := s.active.append x ev }
  else { s with active := s.active.append x ev }

end Recorder

/-! ## Recovery -/

/-- `recover_last_state_when_meta_is_missing_`, from the newest file on: files without a valid header are deleted. -/
def recoverHeaders : List Stored → List Stored
  | [] => []
  | s :: older =>
    match readSegmentHeader x s.file with
    | .ok _ => s :: older
    | .error _ => recoverHeaders older

/-- `recover_last_state_`: `last` is the segment index in the meta file, if it could be loaded. -/
def recoverLastState (last : Option ℕ) (newest : List Stored) : Option (List Stored) :=
  if ∃ i ∈ last, ∀ s ∈ newest.head?, s.index = i then some newest
  else
    match recoverHeaders x newest with
    | [] => none
    | wals => some wals

/-- `prepare_first_segment_from_scanned_`: the newest file that opens; those that do not are deleted. -/
def prepareFromScanned : List Stored → Option (Opened × List Stored)
  | [] => none
  | s :: older =>
    match SegmentWriter.openExisting x s.file with
    | .ok w => some (⟨s.index, w, s.durable, s.durable, false⟩, older)
    | .error _ => prepareFromScanned older

/-- `restore_or_create_active_segment_`: where no file is left, the log starts from scratch. -/
def restoreOrCreate (numBlocks now : ℕ) (last : Option ℕ) (newest : List Stored) : Opened × List Stored :=
  match (recoverLastState x last newest).bind (prepareFromScanned x) with
  | some r => r
  | none => (Opened.new numBlocks 0 now, [])

/-- The names that are left in `wals_` after that; a log that starts from scratch has none. -/
def scannedNames (last : Option ℕ) (newest : List Stored) : List ℕ :=
  match (recoverLastState x last newest).bind (prepareFromScanned x) with
  | some (o, older) => older.reverse.map Stored.index ++ [o.index]
  | none => []

/-- `initialize`. -/
def Recorder.initializeFrom (numBlocks now : ℕ) (last : Option ℕ) (files : List Stored) : Recorder :=
  let r := restoreOrCreate x numBlocks now last files.reverse
  { closed := r.2.reverse, active := r.1, nextIndex := r.1.writer.header.segmentIndex + 1
    walFiles := (scannedNames x last files.reverse).take hotRing }

/-! ## Runs -/

/-- The queue of the preparer has four slots, of which one stays free. -/
def prepareQueue : ℕ := 3

inductive Act
  | append (ev : RequestEvent)
  | prepare (now : ℕ)
  | flush
  | close (now : ℕ)
  | free
  | restart (last : Option ℕ) (now : ℕ)
  | crash (last : Option ℕ) (now : ℕ)

namespace Recorder

/-- `shutdown`: the maintainer closes the segments that wait and the active one; the preparer removes its own, which are
empty. -/
def shutdown (now : ℕ) (s : Recorder) : List Stored := s.closed ++ (s.persist ++ [s.active]).map (Opened.close x now)

/-- A call of the user, a turn of the preparer, the two writes of the maintainer to the segment it closes, its removal of
a file, a shutdown or a crash, each of these with the start of the next process. -/
def step (numBlocks : ℕ) (s : Recorder) : Act → Recorder
  | .append ev => s.append x ev
  | .prepare now =>
    if s.prepared.length < prepareQueue then
      { s with prepared := s.prepared ++ [Opened.prepare numBlocks s.nextIndex now], nextIndex := s.nextIndex + 1 }
    else s
  | .flush =>
    match s.persist with
    | [] => s
    | o :: rest => { s with persist := o.flush x :: rest }
  | .close now =>
    match s.persist with
    | [] => s
    | o :: rest => { s with persist := rest, closed := s.closed ++ [o.close x now] }
  | .free =>
    match s.toFree with
    | [] => s
    -- the maintainer closes one segment before each file that it removes, so this one is closed
    | i :: rest => { s with toFree := rest, closed := s.closed.filter fun e => decide (e.index ≠ i) }
  | .restart last now => initializeFrom x numBlocks now last (s.shutdown x now)
  | .crash last now => initializeFrom x numBlocks now last s.directory

def after (numBlocks now : ℕ) (acts : List Act) : Recorder :=
  acts.foldl (step x numBlocks) (initializeFrom x numBlocks now none [])

/-- A full segment is rotated out only when the hot ring has room for its name. -/
def Roomy (s : Recorder) : Prop :=
  s.active.writer.segmentSize ≤ s.active.writer.bytesWritten → s.walFiles.length < hotRing

instance (s : Recorder) : Decidable s.Roomy := inferInstanceAs (Decidable (_ → _))

/-- Ids go up, the hot ring does not overflow, and a crash finds no segment with a block written since it was opened. -/
def Careful (s : Recorder) : Act → Prop
  | .append ev => s.active.writer.header.lastEventId < ev.eventId ∧ s.Roomy
  | .crash _ _ => s.active.dirty = false ∧ ∀ o ∈ s.persist, o.dirty = false
  | _ => True

/-- Every event of a block that was written before the crash is in the directory after the recovery, and a reader of
its segment yields it. -/
def ReadsBack (s s' : Recorder) : Prop :=
  ∀ e ∈ s.directory, e.durable ≠ [] → ∃ e' ∈ s'.directory, e'.index = e.index ∧
    ∃ rd, SegmentReader.openSegment x e'.file = .ok rd ∧ rd.Yields e.durable

end Recorder

/-! ## Segments that survive -/

/-- A file to which no block was written. -/
structure Blank (n : ℕ) (f : File) : Prop where
  size : f.size = offsetOf n
  blocks_le : n ≤ maxBlocks
  blockCount : f.header.blockCount = 0
  firstEventId : f.header.firstEventId = 0
  lastEventId : f.header.lastEventId = 0

/-- The file is closed with its durable events, or blank and without any. -/
def Sound (n : ℕ) (e : Stored) : Prop :=
  (e.durable = [] ∧ Blank n e.file) ∨ (Closed x e.file n e.durable ∧ Ordered e.durable)

/-- A crash finds a sound file, unless the segment is dirty. -/
def Opened.Clean (n : ℕ) (o : Opened) : Prop := o.dirty = false → Sound x n o.stored

/-- A segment that takes events. -/
structure Opened.Taking (n : ℕ) (o : Opened) : Prop where
  holding : Holding x o.writer n o.taken
  ordered : Ordered o.taken
  clean : o.Clean x n

/-- A segment that waits to be closed. -/
structure Opened.Closing (n : ℕ) (o : Opened) : Prop where
  closes : ∀ now, Closed x (o.writer.close x now) n o.taken
  ordered : Ordered o.taken
  clean : o.Clean x n

variable {x} {n : ℕ} {o : Opened} {f : File} {w : SegmentWriter} {e : Stored}

theorem ordered_nil : Ordered [] := ⟨fun _ h => absurd h List.not_mem_nil, List.Pairwise.nil⟩

/-- An id behind the last one. -/
theorem Ordered.concat {evs : List RequestEvent} (h : Ordered evs) {ev : RequestEvent} (hev : lastId evs < ev.eventId) :
    Ordered (evs ++ [ev]) := by
  refine ⟨?_, ?_⟩
  · intro e he
    rcases List.mem_append.mp he with he | he
    · exact h.pos e he
    · rw [List.mem_singleton.mp he]
      omega
  · refine List.pairwise_append.mpr ⟨h.increasing, List.pairwise_singleton _ _, ?_⟩
    intro a ha b hb
    rw [List.mem_singleton.mp hb]
    obtain ⟨l, last, rfl⟩ := (List.eq_nil_or_concat' evs).resolve_left (List.ne_nil_of_mem ha)
    rw [lastId_concat] at hev
    rcases List.mem_append.mp ha with ha | ha
    · exact (((List.pairwise_append.mp h.increasing).2.2 a ha last List.mem_cons_self)).trans hev
    · rw [List.mem_singleton.mp ha]
      exact hev

theorem Opened.Taking.closing (h : o.Taking x n) : o.Closing x n := ⟨closed_close h.holding, h.ordered, h.clean⟩

theorem blank_openNew (numBlocks index now : ℕ) :
    Blank (clampBlocks numBlocks) (SegmentWriter.openNew numBlocks index now).file where
  size := rfl
  blocks_le := clampBlocks_le _
  blockCount := rfl
  firstEventId := rfl
  lastEventId := rfl

theorem taking_new (numBlocks index now : ℕ) : (Opened.new numBlocks index now).Taking x (clampBlocks numBlocks) :=
  ⟨holding_openNew numBlocks index now, ordered_nil, fun _ => .inl ⟨rfl, blank_openNew numBlocks index now⟩⟩

/-- Touching a writer changes nothing but the magic number in its file. -/
theorem Holding.touch {evs : List RequestEvent} (h : Holding x w n evs) : Holding x w.touch n evs :=
  ⟨h.size, h.segmentSize, h.blocks_le, h.fits, h.blockIndex, h.bytesWritten, h.prevChained, h.gathered, h.written,
    h.blockCount, h.format, h.firstEventId, h.lastEventId⟩

theorem Blank.touch (h : Blank n w.file) : Blank n w.touch.file :=
  ⟨h.size, h.blocks_le, h.blockCount, h.firstEventId, h.lastEventId⟩

theorem taking_prepare (numBlocks index now : ℕ) :
    (Opened.prepare numBlocks index now).Taking x (clampBlocks numBlocks) :=
  ⟨(holding_openNew numBlocks index now).touch, ordered_nil, fun _ => .inl ⟨rfl, (blank_openNew numBlocks index now).touch⟩⟩

/-- A writer that has not moved on has not touched its file. -/
theorem Opened.Clean.advance (h : o.Clean x n) {taken : List RequestEvent}
    (hfile : w.bytesWritten = o.writer.bytesWritten → w.file = o.writer.file) : (o.advance w taken).Clean x n := by
  unfold Opened.advance
  split
  · next hb =>
    intro hd
    have hs := h hd
    unfold Opened.stored at hs ⊢
    rw [hfile hb]
    exact hs
  · intro hd
    cases hd

theorem writeBlock_moves (w : SegmentWriter) : (w.writeBlock x).bytesWritten ≠ w.bytesWritten := by
  show w.bytesWritten + blockBytes ≠ w.bytesWritten
  have := blockBytes_pos
  omega

theorem append_file (ev : RequestEvent) (h : (w.append x ev).bytesWritten = w.bytesWritten) :
    (w.append x ev).file = w.file := by
  unfold SegmentWriter.append at h ⊢
  dsimp only at h ⊢
  split at h
  · exact absurd h (writeBlock_moves _)
  · next hne => rw [if_neg hne]

theorem flushPartial_file (h : (w.flushPartial x).bytesWritten = w.bytesWritten) :
    (w.flushPartial x).file = w.file := by
  unfold SegmentWriter.flushPartial at h ⊢
  split at h
  · exact absurd h (writeBlock_moves _)
  · next hne => rw [if_neg hne]

/-- A segment is full when its file has no place for another block. -/
theorem Opened.Taking.append (h : o.Taking x n) (hroom : o.writer.bytesWritten < o.writer.segmentSize)
    {ev : RequestEvent} (hev : o.writer.header.lastEventId < ev.eventId) : (o.append x ev).Taking x n := by
  have hlen : o.taken.length < n * blockEvents := by
    rw [h.holding.bytesWritten, h.holding.segmentSize] at hroom
    have hlt : o.taken.length / blockEvents < n := by
      by_contra hge
      have := offsetOf_le (Nat.not_lt.mp hge)
      omega
    exact (Nat.div_lt_iff_lt_mul blockEvents_pos).mp hlt
  rw [h.holding.lastEventId] at hev
  have hhold := holding_append h.holding hlen h.ordered.pos ev
  have hclean : (o.append x ev).Clean x n := h.clean.advance (append_file ev)
  unfold Opened.append at hclean ⊢
  unfold Opened.advance at hclean ⊢
  split at hclean
  · next hb =>
    rw [if_pos hb]
    exact ⟨hhold, h.ordered.concat hev, hclean⟩
  · next hb =>
    rw [if_neg hb]
    exact ⟨hhold, h.ordered.concat hev, hclean⟩

theorem flushPartial_flushPartial (w : SegmentWriter) : (w.flushPartial x).flushPartial x = w.flushPartial x := by
  unfold SegmentWriter.flushPartial
  split
  · rfl
  · rfl

theorem Opened.Closing.flush (h : o.Closing x n) : (o.flush x).Closing x n := by
  have hcloses : ∀ now, Closed x ((o.writer.flushPartial x).close x now) n o.taken := by
    intro now
    have hc := h.closes now
    unfold SegmentWriter.close at hc ⊢
    rw [flushPartial_flushPartial]
    exact hc
  have hclean : (o.flush x).Clean x n := h.clean.advance flushPartial_file
  unfold Opened.flush at hclean ⊢
  unfold Opened.advance at hclean ⊢
  split at hclean
  · next hb =>
    rw [if_pos hb]
    exact ⟨hcloses, h.ordered, hclean⟩
  · next hb =>
    rw [if_neg hb]
    exact ⟨hcloses, h.ordered, hclean⟩

theorem Opened.Closing.close (h : o.Closing x n) (now : ℕ) : Sound x n (o.close x now) :=
  .inr ⟨h.closes now, h.ordered⟩

/-! ## Recovery of sound files -/

theorem Sound.closed (h : Sound x n e) (hne : e.durable ≠ []) : Closed x e.file n e.durable ∧ Ordered e.durable :=
  h.resolve_left fun hb => hne hb.1

/-- A blank file opens as an empty segment, if its checksum happens to be right. -/
theorem Blank.openExisting (h : Blank n f) (hw : SegmentWriter.openExisting x f = .ok w) :
    Holding x w n [] ∧ w.file = f := by
  unfold SegmentWriter.openExisting verifyFullSegmentIntegrity at hw
  split at hw
  · cases hw
  · rw [h.blockCount] at hw
    cases hv : f.header.verify x with
    | error st => simp [hv] at hw
    | ok u =>
      have hformat : f.header.validateData = true := by
        unfold Header.verify at hv
        split at hv
        · cases hv
        · split at hv
          · cases hv
          · next hval => simpa using hval
      simp only [hv, verifyBlocks] at hw
      split at hw
      · cases hw
      · next hw' =>
        split at hw'
        · cases hw'
        · cases hw'
          cases hw
          unfold SegmentWriter.restoreAppendPosition
          rw [h.blockCount]
          refine ⟨⟨h.size, h.size, h.blocks_le, Nat.zero_le _, rfl, ?_, rfl, packs_empty, ?_, fun _ => h.blockCount,
            hformat, h.firstEventId, h.lastEventId⟩, rfl⟩
          · exact offsetOf_zero.symm
          · intro i hi
            exact absurd hi (by simp)

theorem Sound.opened (h : Sound x n e) (hw : SegmentWriter.openExisting x e.file = .ok w) :
    Opened.Taking x n ⟨e.index, w, e.durable, e.durable, false⟩ ∧ w.file = e.file := by
  rcases h with ⟨hd, hb⟩ | ⟨hc, ho⟩
  · obtain ⟨hhold, hfile⟩ := hb.openExisting hw
    refine ⟨⟨by rw [hd]; exact hhold, by rw [hd]; exact ordered_nil, fun _ => .inl ⟨hd, ?_⟩⟩, hfile⟩
    rw [Opened.stored, hfile]
    exact hb
  · obtain ⟨w', hw', hhold, hfile⟩ := holding_openExisting hc ho
    rw [hw'] at hw
    cases hw
    refine ⟨⟨hhold, ho, fun _ => .inr ⟨?_, ho⟩⟩, hfile⟩
    rw [Opened.stored, hfile]
    exact hc

theorem openExisting_file (h : SegmentWriter.openExisting x f = .ok w) : w.file = f := by
  unfold SegmentWriter.openExisting at h
  split at h
  · cases h
  · split at h
    · cases h
    · cases h
      rfl

/-- Recovery goes on with files that were there. -/
theorem mem_of_recoverHeaders {newest : List Stored} (h : e ∈ recoverHeaders x newest) : e ∈ newest := by
  induction newest with
  | nil => exact h
  | cons s older ih =>
    unfold recoverHeaders at h
    split at h
    · exact h
    · exact List.mem_cons_of_mem s (ih h)

theorem mem_of_recoverLastState {last : Option ℕ} {newest wals : List Stored}
    (h : recoverLastState x last newest = some wals) (he : e ∈ wals) : e ∈ newest := by
  unfold recoverLastState at h
  split at h
  · cases h
    exact he
  · split at h
    · cases h
    · cases h
      exact mem_of_recoverHeaders he

theorem prepareFromScanned_some {newest older : List Stored} (h : prepareFromScanned x newest = some (o, older)) :
    (∃ e ∈ newest, SegmentWriter.openExisting x e.file = .ok o.writer) ∧ ∀ e ∈ older, e ∈ newest := by
  induction newest with
  | nil => cases h
  | cons s rest ih =>
    unfold prepareFromScanned at h
    split at h
    · next hw =>
      cases h
      exact ⟨⟨s, List.mem_cons_self, hw⟩, fun e he => List.mem_cons_of_mem s he⟩
    · obtain ⟨⟨e, he, hw⟩, hrest⟩ := ih h
      exact ⟨⟨e, List.mem_cons_of_mem s he, hw⟩, fun e' he' => List.mem_cons_of_mem s (hrest e' he')⟩

/-- Deleting files without a valid header deletes no durable event. -/
theorem recoverHeaders_spec {newest : List Stored} (h : ∀ e ∈ newest, Sound x n e) :
    (∀ e ∈ recoverHeaders x newest, e ∈ newest) ∧
      ∀ e ∈ newest, e.durable ≠ [] → e ∈ recoverHeaders x newest := by
  induction newest with
  | nil => exact ⟨fun e he => he, fun e he => absurd he List.not_mem_nil⟩
  | cons s older ih =>
    obtain ⟨ih1, ih2⟩ := ih fun e he => h e (List.mem_cons_of_mem s he)
    unfold recoverHeaders
    cases hr : readSegmentHeader x s.file with
    | ok hd => exact ⟨fun e he => he, fun e he _ => he⟩
    | error st =>
      refine ⟨fun e he => List.mem_cons_of_mem s (ih1 e he), fun e he hne => ?_⟩
      rcases List.mem_cons.mp he with rfl | he
      · have hc := ((h e List.mem_cons_self).closed hne).1
        unfold readSegmentHeader at hr
        rw [if_neg (Nat.not_lt.mpr hc.headerBytes_le), hc.verify] at hr
        cases hr
      · exact ih2 e he hne

theorem recoverLastState_spec {newest : List Stored} (h : ∀ e ∈ newest, Sound x n e) (last : Option ℕ) :
    (∀ wals, recoverLastState x last newest = some wals →
      (∀ e ∈ wals, e ∈ newest) ∧ ∀ e ∈ newest, e.durable ≠ [] → e ∈ wals) ∧
    (recoverLastState x last newest = none → ∀ e ∈ newest, e.durable = []) := by
  obtain ⟨h1, h2⟩ := recoverHeaders_spec h
  unfold recoverLastState
  split
  · refine ⟨fun wals hw => ?_, fun hw => (by cases hw)⟩
    cases hw
    exact ⟨fun e he => he, fun e he _ => he⟩
  · split
    · next hnil =>
      refine ⟨fun wals hw => (by cases hw), fun _ e he => ?_⟩
      by_contra hne
      have := h2 e he hne
      rw [hnil] at this
      cases this
    · refine ⟨fun wals hw => ?_, fun hw => (by cases hw)⟩
      cases hw
      exact ⟨h1, h2⟩

theorem prepareFromScanned_spec {newest : List Stored} (h : ∀ e ∈ newest, Sound x n e) :
    (∀ o older, prepareFromScanned x newest = some (o, older) → o.Taking x n ∧ (∀ e ∈ older, e ∈ newest) ∧
      ∀ e ∈ newest, e.durable ≠ [] → e = o.stored ∨ e ∈ older) ∧
    (prepareFromScanned x newest = none → ∀ e ∈ newest, e.durable = []) := by
  induction newest with
  | nil => exact ⟨fun o older hr => (by cases hr), fun _ e he => absurd he List.not_mem_nil⟩
  | cons s older ih =>
    obtain ⟨ih1, ih2⟩ := ih fun e he => h e (List.mem_cons_of_mem s he)
    have hs := h s List.mem_cons_self
    unfold prepareFromScanned
    cases ho : SegmentWriter.openExisting x s.file with
    | ok w =>
      obtain ⟨htaking, hfile⟩ := hs.opened ho
      refine ⟨fun o older' hr => ?_, fun hr => (by cases hr)⟩
      cases hr
      refine ⟨htaking, fun e he => List.mem_cons_of_mem s he, fun e he _ => ?_⟩
      rcases List.mem_cons.mp he with rfl | he
      · left
        rw [Opened.stored, hfile]
      · exact .inr he
    | error st =>
      -- a closed file would have opened
      have hnil : s.durable = [] := by
        by_contra hne
        obtain ⟨hc, hord⟩ := hs.closed hne
        obtain ⟨w, hw, -⟩ := holding_openExisting hc hord
        rw [hw] at ho
        cases ho
      refine ⟨fun o older' hr => ?_, fun hr e he => ?_⟩
      · obtain ⟨h1, h2, h3⟩ := ih1 o older' hr
        refine ⟨h1, fun e he => List.mem_cons_of_mem s (h2 e he), fun e he hne => ?_⟩
        rcases List.mem_cons.mp he with rfl | he
        · exact absurd hnil hne
        · exact h3 e he hne
      · rcases List.mem_cons.mp he with rfl | he
        · exact hnil
        · exact ih2 hr e he

theorem restoreOrCreate_spec {numBlocks : ℕ} {newest : List Stored} (h : ∀ e ∈ newest, Sound x (clampBlocks numBlocks) e)
    (now : ℕ) (last : Option ℕ) :
    (restoreOrCreate x numBlocks now last newest).1.Taking x (clampBlocks numBlocks) ∧
      (∀ e ∈ (restoreOrCreate x numBlocks now last newest).2, e ∈ newest) ∧
      ∀ e ∈ newest, e.durable ≠ [] → e = (restoreOrCreate x numBlocks now last newest).1.stored ∨
        e ∈ (restoreOrCreate x numBlocks now last newest).2 := by
  obtain ⟨hsome, hnone⟩ := recoverLastState_spec h last
  unfold restoreOrCreate
  cases hr : recoverLastState x last newest with
  | none =>
    refine ⟨taking_new numBlocks 0 now, fun e he => absurd he List.not_mem_nil, fun e he hne => ?_⟩
    exact absurd (hnone hr e he) hne
  | some wals =>
    obtain ⟨hsub, hkeep⟩ := hsome wals hr
    obtain ⟨h1, h2⟩ := prepareFromScanned_spec fun e he => h e (hsub e he)
    simp only [Option.bind_some]
    cases hp : prepareFromScanned x wals with
    | none =>
      refine ⟨taking_new numBlocks 0 now, fun e he => absurd he List.not_mem_nil, fun e he hne => ?_⟩
      exact absurd (h2 hp e (hkeep e he hne)) hne
    | some r =>
      obtain ⟨htaking, hold, hfate⟩ := h1 r.1 r.2 hp
      exact ⟨htaking, fun e he => hsub e (hold e he), fun e he hne => hfate e (hkeep e he hne) hne⟩

/-! ## The invariant -/

namespace Recorder

/-- A segment of the preparer is as it was made. -/
structure Fresh (x : Hash) (n : ℕ) (o : Opened) : Prop extends o.Taking x n where
  taken_nil : o.taken = []
  unwritten : o.dirty = false

structure Inv (x : Hash) (n : ℕ) (s : Recorder) : Prop where
  closed : ∀ e ∈ s.closed, Sound x n e
  persist : ∀ o ∈ s.persist, o.Closing x n
  active : s.active.Taking x n
  prepared : ∀ o ∈ s.prepared, Fresh x n o
  toFree : s.toFree = []

variable {s : Recorder} {numBlocks : ℕ}

theorem inv_initializeFrom {files : List Stored} (h : ∀ e ∈ files, Sound x (clampBlocks numBlocks) e) (now : ℕ)
    (last : Option ℕ) : Inv x (clampBlocks numBlocks) (initializeFrom x numBlocks now last files) := by
  have h' : ∀ e ∈ files.reverse, Sound x (clampBlocks numBlocks) e := fun e he => h e (List.mem_reverse.mp he)
  obtain ⟨h1, h2, -⟩ := restoreOrCreate_spec h' now last
  exact ⟨fun e he => h' e (h2 e (List.mem_reverse.mp he)), fun o ho => absurd ho List.not_mem_nil, h1,
    fun o ho => absurd ho List.not_mem_nil, rfl⟩

/-- A crash that finds no dirty segment leaves sound files. -/
theorem Inv.sound (h : Inv x n s) (ha : s.active.dirty = false) (hp : ∀ o ∈ s.persist, o.dirty = false) :
    ∀ e ∈ s.directory, Sound x n e := by
  intro e he
  simp only [directory, List.mem_append, List.mem_map, List.mem_singleton] at he
  rcases he with ((he | ⟨o, ho, rfl⟩) | rfl) | ⟨o, ho, rfl⟩
  · exact h.closed e he
  · exact (h.persist o ho).clean (hp o ho)
  · exact h.active.clean ha
  · exact (h.prepared o ho).clean (h.prepared o ho).unwritten

theorem Inv.shutdown (h : Inv x n s) (now : ℕ) : ∀ e ∈ s.shutdown x now, Sound x n e := by
  intro e he
  simp only [Recorder.shutdown, List.mem_append, List.mem_map, List.mem_singleton] at he
  rcases he with he | ⟨o, ho | rfl, rfl⟩
  · exact h.closed e he
  · exact (h.persist o ho).close now
  · exact h.active.closing.close now

theorem Fresh.room {o : Opened} (h : Fresh x n o) (hn : 0 < n) : o.writer.bytesWritten < o.writer.segmentSize := by
  rw [h.holding.bytesWritten, h.holding.segmentSize, h.taken_nil]
  exact offsetOf_lt_iff.mpr hn

/-- With room in the hot ring no name is given up. -/
theorem rotate_roomy (h : s.walFiles.length < hotRing) {o : Opened} {rest : List Opened} (hp : s.prepared = o :: rest) :
    s.rotate = some { s with
      persist := s.persist ++ [s.active]
      active := o
      prepared := rest
      walFiles := s.walFiles ++ [s.active.index] } := by
  unfold rotate
  rw [hp]
  dsimp only
  rw [if_neg (Nat.not_le.mpr h), if_neg (Nat.not_le.mpr h)]

/-- A file is removed only after the hot ring was full. -/
theorem step_free (h : s.toFree = []) : s.step x numBlocks .free = s := by
  unfold step
  rw [h]

theorem Inv.append (h : Inv x n s) (hn : 0 < n) {ev : RequestEvent}
    (hev : s.active.writer.header.lastEventId < ev.eventId) (hroomy : s.Roomy) : Inv x n (s.append x ev) := by
  unfold Recorder.append
  split
  · next hfull =>
    cases hp : s.prepared with
    | nil =>
      unfold rotate
      rw [hp]
      exact h
    | cons o rest =>
      rw [rotate_roomy (hroomy hfull) hp]
      have hfresh := h.prepared o (by rw [hp]; exact List.mem_cons_self)
      have hlast : o.writer.header.lastEventId < ev.eventId := by
        rw [hfresh.holding.lastEventId, hfresh.taken_nil]
        exact Nat.zero_lt_of_lt hev
      refine ⟨h.closed, ?_, hfresh.append (hfresh.room hn) hlast, ?_, h.toFree⟩
      · intro o' ho'
        rcases List.mem_append.mp ho' with ho' | ho'
        · exact h.persist o' ho'
        · rw [List.mem_singleton.mp ho']
          exact h.active.closing
      · intro o' ho'
        exact h.prepared o' (by rw [hp]; exact List.mem_cons_of_mem o ho')
  · next hroom => exact ⟨h.closed, h.persist, h.active.append (Nat.lt_of_not_le hroom) hev, h.prepared, h.toFree⟩

theorem clampBlocks_pos (numBlocks : ℕ) : 0 < clampBlocks numBlocks := by
  have h : 0 < minBlocks := by decide
  unfold clampBlocks
  omega

theorem Inv.step (h : Inv x (clampBlocks numBlocks) s) {a : Act} (ha : Careful s a) :
    Inv x (clampBlocks numBlocks) (s.step x numBlocks a) := by
  cases a with
  | append ev => exact h.append (clampBlocks_pos numBlocks) ha.1 ha.2
  | prepare now =>
    unfold Recorder.step
    dsimp only
    split
    · refine ⟨h.closed, h.persist, h.active, fun o ho => ?_, h.toFree⟩
      rcases List.mem_append.mp ho with ho | ho
      · exact h.prepared o ho
      · rw [List.mem_singleton.mp ho]
        exact ⟨taking_prepare numBlocks s.nextIndex now, rfl, rfl⟩
    · exact h
  | flush =>
    unfold Recorder.step
    cases hp : s.persist with
    | nil => exact h
    | cons o rest =>
      have hall := h.persist
      rw [hp] at hall
      refine ⟨h.closed, fun o' ho' => ?_, h.active, h.prepared, h.toFree⟩
      rcases List.mem_cons.mp ho' with rfl | ho'
      · exact (hall o List.mem_cons_self).flush
      · exact hall o' (List.mem_cons_of_mem o ho')
  | close now =>
    unfold Recorder.step
    cases hp : s.persist with
    | nil => exact h
    | cons o rest =>
      have hall := h.persist
      rw [hp] at hall
      have ho := hall o List.mem_cons_self
      refine ⟨fun e he => ?_, fun o' ho' => hall o' (List.mem_cons_of_mem o ho'), h.active, h.prepared, h.toFree⟩
      rcases List.mem_append.mp he with he | he
      · exact h.closed e he
      · rw [List.mem_singleton.mp he]
        exact ho.close now
  | free =>
    rw [step_free h.toFree]
    exact h
  | restart last now => exact inv_initializeFrom (h.shutdown now) now last
  | crash last now => exact inv_initializeFrom (h.sound ha.1 ha.2) now last

theorem mem_directory_initializeFrom {files : List Stored} (h : ∀ e ∈ files, Sound x (clampBlocks numBlocks) e) (now : ℕ)
    (last : Option ℕ) {e : Stored} (he : e ∈ files) (hne : e.durable ≠ []) :
    e ∈ (initializeFrom x numBlocks now last files).directory := by
  obtain ⟨-, -, h3⟩ := restoreOrCreate_spec (fun e he => h e (List.mem_reverse.mp he)) now last
  unfold directory initializeFrom
  simp only [List.map_nil, List.append_nil, List.mem_append, List.mem_reverse, List.mem_singleton]
  rcases h3 e (List.mem_reverse.mpr he) hne with h3 | h3
  · exact .inr h3
  · exact .inl h3

/-- **What was durable is read back.** -/
theorem Inv.readsBack (h : Inv x (clampBlocks numBlocks) s) (hsize : offsetOf (clampBlocks numBlocks) < 2 ^ 32)
    {last : Option ℕ} {now : ℕ} (hc : Careful s (.crash last now)) :
    ReadsBack x s (s.step x numBlocks (.crash last now)) := by
  intro e he hne
  have hsound := h.sound hc.1 hc.2
  obtain ⟨hclosed, hord⟩ := (hsound e he).closed hne
  exact ⟨e, mem_directory_initializeFrom hsound now last he hne, rfl, hclosed.readBack hord hne
    (Nat.lt_of_le_of_lt (offsetOf_le hclosed.blocks) hsize)⟩

/-- **Crash durability.** In every run with ids that go up, with room in the hot ring for what is rotated out and with
crashes that find no block written to a segment since it was opened, a crash loses no event that was in a block of a
file. -/
theorem crash_durable (x : Hash) (numBlocks now : ℕ) (hsize : headerBytes + clampBlocks numBlocks * blockBytes < 2 ^ 32)
    (acts : List Act)
    (hok : Admitted (fun s a => step x numBlocks s a) Careful (initializeFrom x numBlocks now none []) acts) :
    ∀ bs last t, bs ++ [.crash last t] <+: acts →
      ReadsBack x (after x numBlocks now bs) (after x numBlocks now (bs ++ [.crash last t])) := by
  intro bs last t hbs
  obtain ⟨hbefore, hcrash⟩ := admitted_concat.mp (hok.of_prefix _ hbs)
  have hrun : Run (fun s a u => step x numBlocks s a = u) Careful (initializeFrom x numBlocks now none []) bs
      (after x numBlocks now bs) := Run.of_admitted (fun _ _ _ => rfl) hbefore
  have hinv : Inv x (clampBlocks numBlocks) (after x numBlocks now bs) := by
    refine hrun.invariant (inv_initializeFrom (fun e he => absurd he List.not_mem_nil) now none) ?_
    rintro s a _ hs ha rfl
    exact hs.step ha
  have hlast := hinv.readsBack hsize hcrash
  unfold after at hlast ⊢
  rw [List.foldl_append]
  exact hlast

/-- An event is appended, the recorder is restarted and crashes before it is given anything else. -/
theorem crash_durable_after_restart :
    let x : Hash := ⟨fun l s => l.foldl (fun a e => 31 * a + e.eventId.toUInt64) s, fun h => h.blockIndex.toUInt64,
      fun h => h.eventCount.toUInt64⟩
    let acts : List Act := [.append { eventId := 1 }, .restart none 1]
    (after x 16 0 acts).active.durable = [{ eventId := 1 }] ∧
      ReadsBack x (after x 16 0 acts) (after x 16 0 (acts ++ [.crash none 2])) := by
  intro x acts
  have hok : Admitted (fun s a => step x 16 s a) Careful (initializeFrom x 16 0 none []) (acts ++ [.crash none 2]) := by
    have hfirst : (initializeFrom x 16 0 none []).active.writer.header.lastEventId < 1 := by decide
    refine ⟨⟨hfirst, fun _ => by decide⟩, trivial, ⟨by decide +kernel, ?_⟩, trivial⟩
    intro o ho
    exact absurd ho List.not_mem_nil
  exact ⟨by decide +kernel, crash_durable x 16 0 (by decide) _ hok acts none 2 List.prefix_rfl⟩

/-! ## A crash that loses a block -/

/-- Recovery writes no header. -/
theorem blockCount_initializeFrom {files : List Stored} (h : ∀ e ∈ files, e.file.header.blockCount = 0)
    (numBlocks now : ℕ) (last : Option ℕ) :
    ∀ e ∈ (initializeFrom x numBlocks now last files).directory, e.file.header.blockCount = 0 := by
  intro e he
  unfold directory initializeFrom at he
  simp only [List.map_nil, List.append_nil, List.mem_append, List.mem_reverse, List.mem_singleton] at he
  unfold restoreOrCreate at he
  split at he
  · next r hr =>
    obtain ⟨wals, hw, hp⟩ := Option.bind_eq_some_iff.mp hr
    obtain ⟨⟨e', he', hopen⟩, hmem⟩ := prepareFromScanned_some hp
    have hfiles : ∀ e ∈ wals, e ∈ files := fun e he => List.mem_reverse.mp (mem_of_recoverLastState hw he)
    rcases he with he | rfl
    · exact h e (hfiles e (hmem e he))
    · rw [Opened.stored, openExisting_file hopen]
      exact h e' (hfiles e' he')
  · rcases he with he | rfl
    · cases he
    · rfl

/-- A reader does not open a file whose header counts no blocks. -/
theorem not_openSegment (h : f.header.blockCount = 0) (rd : SegmentReader) : SegmentReader.openSegment x f ≠ .ok rd := by
  intro hopen
  unfold SegmentReader.openSegment verifyFullSegmentIntegrity at hopen
  split at hopen
  · cases hopen
  · rw [h] at hopen
    cases hv : f.header.verify x with
    | error st => simp [hv] at hopen
    | ok u =>
      simp only [hv, verifyBlocks] at hopen
      split at hopen
      · cases hopen
      · next hd heq =>
        have hhd : hd = f.header := by
          split at heq
          · cases heq
          · cases heq
            rfl
        have hsize : hd.segmentSize = headerBytes := by
          rw [hhd, Header.segmentSize, h]
          decide
        have hnone : SegmentReader.readBlockAtOffset headerBytes
            { file := f, segmentHeader := hd, validDataSize := hd.segmentSize } = none := by
          unfold SegmentReader.readBlockAtOffset
          rw [hsize]
          exact if_pos (Nat.lt_add_of_pos_right blockBytes_pos)
        rw [hnone] at hopen
        split at hopen
        · cases hopen
        · cases hopen

/-- The events of one full block. -/
def oneBlock : List Act := (countUp blockEvents).map .append

theorem countUp_succ (k : ℕ) : countUp (k + 1) = countUp k ++ [{ eventId := k + 1 }] := by
  simp [countUp, List.range_succ]

/-- Appending writes to the blocks of the file only. -/
theorem append_header (o : Opened) (ev : RequestEvent) :
    (o.append x ev).writer.file.header = o.writer.file.header ∧ (o.append x ev).taken = o.taken ++ [ev] ∧
      (o.append x ev).index = o.index ∧ (o.append x ev).writer = o.writer.append x ev := by
  have hfile : (o.writer.append x ev).file.header = o.writer.file.header := by
    unfold SegmentWriter.append
    dsimp only
    split
    · rfl
    · rfl
  unfold Opened.append Opened.advance
  split
  · exact ⟨hfile, rfl, rfl, rfl⟩
  · exact ⟨hfile, rfl, rfl, rfl⟩

/-- The recorder while it takes its first events. -/
structure Starting (x : Hash) (numBlocks k : ℕ) (s : Recorder) : Prop where
  closed : s.closed = []
  persist : s.persist = []
  prepared : s.prepared = []
  active : s.active.Taking x (clampBlocks numBlocks)
  taken : s.active.taken = countUp k
  index : s.active.index = 0
  header : s.active.writer.file.header.blockCount = 0

theorem Starting.room {k : ℕ} {s : Recorder} (h : Starting x numBlocks k s) (hk : k < clampBlocks numBlocks * blockEvents) :
    s.active.writer.bytesWritten < s.active.writer.segmentSize := by
  rw [h.active.holding.bytesWritten, h.active.holding.segmentSize, h.taken, length_countUp]
  exact offsetOf_lt_iff.mpr ((Nat.div_lt_iff_lt_mul blockEvents_pos).mpr hk)

theorem Starting.append {k : ℕ} {s : Recorder} (h : Starting x numBlocks k s)
    (hk : k < clampBlocks numBlocks * blockEvents) :
    s.append x { eventId := k + 1 } = { s with active := s.active.append x { eventId := k + 1 } } ∧
      Starting x numBlocks (k + 1) (s.append x { eventId := k + 1 }) := by
  have hroom := h.room hk
  have heq : s.append x { eventId := k + 1 } = { s with active := s.active.append x { eventId := k + 1 } } := by
    unfold Recorder.append
    rw [if_neg (Nat.not_le.mpr hroom)]
  obtain ⟨hheader, htaken, hindex, -⟩ := append_header (x := x) s.active { eventId := k + 1 }
  have hlast : s.active.writer.header.lastEventId < k + 1 := by
    rw [h.active.holding.lastEventId, h.taken]
    cases k with
    | zero => exact Nat.zero_lt_one
    | succ k =>
      rw [countUp_succ, lastId_concat]
      exact Nat.lt_succ_self _
  rw [heq]
  refine ⟨rfl, ⟨h.closed, h.persist, h.prepared, h.active.append hroom hlast, ?_, hindex.trans h.index, ?_⟩⟩
  · rw [countUp_succ, ← h.taken]
    exact htaken
  · rw [hheader]
    exact h.header

theorem starting_countUp (x : Hash) (numBlocks : ℕ) {k : ℕ} (hk : k ≤ clampBlocks numBlocks * blockEvents) :
    Starting x numBlocks k (after x numBlocks 0 ((countUp k).map .append)) := by
  induction k with
  | zero => exact ⟨rfl, rfl, rfl, taking_new numBlocks 0 0, rfl, rfl, rfl⟩
  | succ k ih =>
    have hprev := ih (by omega)
    have hlast := (hprev.append (by omega)).2
    unfold after at hlast ⊢
    rw [countUp_succ, List.map_append, List.foldl_append]
    exact hlast

/-- The event that fills a block is durable, with all before it. -/
theorem Starting.durable {k : ℕ} {s : Recorder} (h : Starting x numBlocks k s)
    (hk : k < clampBlocks numBlocks * blockEvents)
    (hfull : k / blockEvents ≠ (k + 1) / blockEvents) :
    (s.append x { eventId := k + 1 }).active.durable = countUp (k + 1) := by
  obtain ⟨heq, hnext⟩ := h.append hk
  have hmoved : (s.append x { eventId := k + 1 }).active.writer.bytesWritten ≠ s.active.writer.bytesWritten := by
    rw [hnext.active.holding.bytesWritten, h.active.holding.bytesWritten, hnext.taken, h.taken, length_countUp,
      length_countUp]
    exact fun hoff => hfull (offsetOf_inj hoff).symm
  have htaken := hnext.taken
  rw [heq] at hmoved htaken ⊢
  dsimp only at hmoved htaken ⊢
  unfold Opened.append Opened.advance at hmoved htaken ⊢
  split
  · next hb =>
    rw [if_pos hb] at hmoved
    exact absurd hb hmoved
  · next hb =>
    rw [if_neg hb] at htaken
    exact htaken

theorem after_oneBlock (x : Hash) : Starting x 16 blockEvents (after x 16 0 oneBlock) ∧
    (after x 16 0 oneBlock).active.durable = countUp blockEvents := by
  have hB : blockEvents ≤ clampBlocks 16 * blockEvents := by decide
  refine ⟨starting_countUp x 16 hB, ?_⟩
  obtain ⟨k, hk⟩ := Nat.exists_eq_succ_of_ne_zero blockEvents_pos.ne'
  have hprev := starting_countUp x 16 (k := k) (by omega)
  have hfull : k / blockEvents ≠ (k + 1) / blockEvents := by
    rw [← Nat.succ_eq_add_one, ← hk, Nat.div_eq_of_lt (by omega), Nat.div_self blockEvents_pos]
    exact Nat.zero_ne_one
  have hlast := hprev.durable (by omega) hfull
  unfold after at hlast ⊢
  unfold oneBlock
  rw [hk, Nat.succ_eq_add_one, countUp_succ, List.map_append, List.foldl_append, ← countUp_succ]
  exact hlast

/-- A full block is in the file, and the recorder crashes before the segment is closed.  Its header counts no blocks:
whatever the hash is, the recovery leaves nothing that could be read. -/
theorem crash_deletes_block : ¬ ∃ x, ReadsBack x (after x 16 0 oneBlock) (after x 16 0 (oneBlock ++ [.crash none 0])) := by
  rintro ⟨x, h⟩
  obtain ⟨hs, hdurable⟩ := after_oneBlock x
  have hcrash : after x 16 0 (oneBlock ++ [.crash none 0]) =
      initializeFrom x 16 0 none (after x 16 0 oneBlock).directory := by
    unfold after
    rw [List.foldl_append]
    rfl
  rw [hcrash] at h
  generalize after x 16 0 oneBlock = s at hs hdurable h
  have hdir : s.directory = [s.active.stored] := by
    unfold directory
    rw [hs.closed, hs.persist, hs.prepared]
    rfl
  have hne : s.active.stored.durable ≠ [] := by
    show s.active.durable ≠ []
    rw [hdurable]
    intro hnil
    have hlen := congrArg List.length hnil
    rw [length_countUp] at hlen
    cases hlen
  obtain ⟨e', he', -, rd, hopen, -⟩ := h _ (by rw [hdir]; exact List.mem_singleton_self _) hne
  refine not_openSegment (blockCount_initializeFrom ?_ 16 0 none e' he') rd hopen
  intro e he
  rw [hdir, List.mem_singleton] at he
  rw [he]
  exact hs.header

end Recorder

end Wirekrak.Wal

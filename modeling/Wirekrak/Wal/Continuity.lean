import Wirekrak.Wal.Crash

/-!
# Wirekrak.Wal.Continuity — the segments of a recorder are one log

Without crashes, whatever is appended through rotations and restarts ends up in the files: all segments but the last
are full, a restart goes on in the last one, and its header gives the last event id back.

* `Continuous x n s evs`: the recorder has taken `evs`, spread over its segments in the order of their indices.
* `one_log_iff`: after a shutdown the files, read in the order of their names, give the events back, if and only if
  there are any and no segment reaches the 4 GiB up to which the reader can see.
-/

namespace Wirekrak.Wal

open Wirekrak.Lib

/-! ## Names of segments -/

/-- The last `width` decimal digits of `value`. -/
def digits : ℕ → ℕ → List Char
  | 0, _ => []
  | width + 1, value => digits width (value / 10) ++ [Char.ofNat ('0'.toNat + value % 10)]

/-- `compose_segment_filename` with the prefix and the width that all its callers use. -/
def composeSegmentFilename (segmentIndex : ℕ) : List Char := "FS.".toList ++ digits 8 segmentIndex ++ ".wal".toList

theorem length_digits (width value : ℕ) : (digits width value).length = width := by
  induction width generalizing value with
  | zero => rfl
  | succ w ih =>
    unfold digits
    rw [List.length_append, ih, List.length_singleton]

theorem append_lt_append {a b : List Char} (hlen : a.length = b.length) (h : a < b) (s t : List Char) :
    a ++ s < b ++ t := by
  induction a generalizing b with
  | nil =>
    cases b with
    | nil => exact absurd h (List.lt_irrefl [])
    | cons y b => cases hlen
  | cons c a ih =>
    cases b with
    | nil => cases hlen
    | cons d b =>
      rw [List.cons_append, List.cons_append, List.cons_lt_cons_iff]
      rcases List.cons_lt_cons_iff.mp h with hcd | ⟨rfl, hab⟩
      · exact .inl hcd
      · exact .inr ⟨rfl, ih (Nat.succ.inj hlen) hab⟩

theorem digit_lt {i j : ℕ} (hij : i < j) (hj : j < 10) : Char.ofNat ('0'.toNat + i) < Char.ofNat ('0'.toNat + j) := by
  have hall : ∀ j < 10, ∀ i < j, Char.ofNat ('0'.toNat + i) < Char.ofNat ('0'.toNat + j) := by decide
  exact hall j hj i hij

theorem digits_lt {width i j : ℕ} (hij : i < j) (hj : j < 10 ^ width) : digits width i < digits width j := by
  induction width generalizing i j with
  | zero =>
    rw [pow_zero] at hj
    omega
  | succ w ih =>
    unfold digits
    rw [pow_succ] at hj
    by_cases hdiv : i / 10 = j / 10
    · rw [hdiv]
      refine List.Lex.append_left _ ?_ _
      exact List.Lex.rel (digit_lt (by omega) (by omega))
    · refine append_lt_append ?_ (ih (by omega) (by omega)) _ _
      rw [length_digits, length_digits]

/-- Names stand in the order of the indices, as long as eight digits suffice. -/
theorem composeSegmentFilename_lt {i j : ℕ} (hij : i < j) (hj : j < 10 ^ 8) :
    composeSegmentFilename i < composeSegmentFilename j := by
  unfold composeSegmentFilename
  rw [List.append_assoc, List.append_assoc]
  refine List.Lex.append_left _ (append_lt_append ?_ (digits_lt hij hj) _ _) _
  rw [length_digits, length_digits]

/-! ## Reading segment after segment -/

variable (x : Hash)

/-- Every file opens, and its reader goes on where the one before it has stopped. -/
def ReadLog : List Stored → List RequestEvent → Prop
  | [], evs => evs = []
  | e :: files, evs => ∃ rd a b, SegmentReader.openSegment x e.file = .ok rd ∧ rd.Yields a ∧ evs = a ++ b ∧
      ReadLog files b

variable {x} {n : ℕ} {files : List Stored} {evs : List RequestEvent}

/-- A file with all its durable events. -/
structure Kept (x : Hash) (n : ℕ) (e : Stored) : Prop where
  closed : Closed x e.file n e.durable
  ordered : Ordered e.durable

/-- The reader sees all of the segment. -/
def Short (e : Stored) : Prop := e.durable ≠ [] ∧ offsetOf (pieces blockEvents e.durable.length) < 2 ^ 32

/-- A reader of the file gives a part of it, and all of it only if it is short. -/
theorem Kept.yields {e : Stored} (h : Kept x n e) {rd : SegmentReader} {a : List RequestEvent}
    (hopen : SegmentReader.openSegment x e.file = .ok rd) (hy : rd.Yields a) :
    a.length ≤ e.durable.length ∧ (a.length = e.durable.length → Short e) :=
  h.closed.short_of_yields h.ordered hopen hy

theorem ReadLog.length_le (h : ∀ e ∈ files, Kept x n e) (hr : ReadLog x files evs) :
    evs.length ≤ (files.flatMap Stored.durable).length ∧
      (evs.length = (files.flatMap Stored.durable).length → ∀ e ∈ files, Short e) := by
  induction files generalizing evs with
  | nil =>
    have hnil : evs = [] := hr
    rw [hnil]
    exact ⟨Nat.le_refl _, fun _ e he => absurd he List.not_mem_nil⟩
  | cons e files ih =>
    obtain ⟨rd, a, b, hopen, hy, rfl, hrest⟩ := hr
    obtain ⟨ha, hafull⟩ := (h e List.mem_cons_self).yields hopen hy
    obtain ⟨hb, hbfull⟩ := ih (fun e' he' => h e' (List.mem_cons_of_mem e he')) hrest
    rw [List.flatMap_cons, List.length_append, List.length_append]
    refine ⟨by omega, fun hfull e' he' => ?_⟩
    rcases List.mem_cons.mp he' with rfl | he'
    · exact hafull (by omega)
    · exact hbfull (by omega) e' he'

/-- Files that hold a log give it back just when each of them is short. -/
theorem readLog_iff (h : ∀ e ∈ files, Kept x n e) :
    ReadLog x files (files.flatMap Stored.durable) ↔ ∀ e ∈ files, Short e := by
  refine ⟨fun hr => (hr.length_le h).2 rfl, fun hs => ?_⟩
  induction files with
  | nil => rfl
  | cons e files ih =>
    obtain ⟨hne, hlt⟩ := hs e List.mem_cons_self
    have hkept := h e List.mem_cons_self
    obtain ⟨rd, hopen, hy⟩ := hkept.closed.readBack hkept.ordered hne hlt
    exact ⟨rd, _, _, hopen, hy, List.flatMap_cons, ih (fun e' he' => h e' (List.mem_cons_of_mem e he'))
      fun e' he' => hs e' (List.mem_cons_of_mem e he')⟩

/-! ## Runs without a crash -/

namespace Recorder

/-- An append that finds its segment full waits for a prepared one, and finds the limit of retention not reached; the
recorder does not crash. -/
def Orderly (s : Recorder) : Act → Prop
  | .append _ => (s.active.writer.bytesWritten < s.active.writer.segmentSize ∨ s.prepared ≠ []) ∧ s.Roomy
  | .crash _ _ => False
  | _ => True

instance (s : Recorder) (a : Act) : Decidable (Orderly s a) :=
  match a with
  | .append _ =>
    inferInstanceAs (Decidable ((s.active.writer.bytesWritten < s.active.writer.segmentSize ∨ s.prepared ≠ []) ∧ s.Roomy))
  | .crash _ _ => inferInstanceAs (Decidable False)
  | .prepare _ => inferInstanceAs (Decidable True)
  | .flush => inferInstanceAs (Decidable True)
  | .close _ => inferInstanceAs (Decidable True)
  | .free => inferInstanceAs (Decidable True)
  | .restart _ _ => inferInstanceAs (Decidable True)

def appended : List Act → List RequestEvent :=
  List.filterMap fun a => match a with
    | .append ev => some ev
    | _ => none

/-- The last event id that `initialize` recovers, from the header of the segment it has opened. -/
def lastEventId (s : Recorder) : ℕ := s.active.writer.header.lastEventId

/-- After a shutdown, the files in the order of their names are the log; and each start of the recorder had recovered
the last event id. -/
structure OneLog (x : Hash) (numBlocks now : ℕ) (acts : List Act) (t : ℕ) : Prop where
  reads : ReadLog x ((after x numBlocks now acts).shutdown x t) (appended acts)
  indices : ((after x numBlocks now acts).shutdown x t).Pairwise fun e e' => e.index < e'.index
  names : ((after x numBlocks now acts).shutdown x t).Pairwise fun e e' =>
    composeSegmentFilename e.index < composeSegmentFilename e'.index
  recovered : ∀ bs last t', bs ++ [.restart last t'] <+: acts →
    (after x numBlocks now (bs ++ [.restart last t'])).lastEventId = lastId (appended bs)

/-- The events of a segment, and its place in the log. -/
structure Full (x : Hash) (n : ℕ) (e : Stored) : Prop extends Kept x n e where
  full : e.durable.length = n * blockEvents
  index : e.file.header.segmentIndex = e.index

/-- The segments that wait, as they will be closed. -/
structure Filled (x : Hash) (n : ℕ) (o : Opened) : Prop extends o.Closing x n where
  full : o.taken.length = n * blockEvents
  index : o.writer.header.segmentIndex = o.index

/-- The indices of all segments, the prepared ones behind the active one. -/
def indices (s : Recorder) : List ℕ :=
  s.closed.map Stored.index ++ s.persist.map Opened.index ++ s.active.index :: s.prepared.map Opened.index

structure Continuous (x : Hash) (n : ℕ) (s : Recorder) (evs : List RequestEvent) : Prop where
  closed : ∀ e ∈ s.closed, Full x n e
  persist : ∀ o ∈ s.persist, Filled x n o
  active : s.active.Taking x n
  index : s.active.writer.header.segmentIndex = s.active.index
  prepared : ∀ o ∈ s.prepared, Fresh x n o ∧ o.writer.header.segmentIndex = o.index
  increasing : s.indices.Pairwise (· < ·)
  below : ∀ i ∈ s.indices, i < s.nextIndex
  events : s.closed.flatMap Stored.durable ++ s.persist.flatMap Opened.taken ++ s.active.taken = evs
  first : s.active.taken = [] → s.closed = [] ∧ s.persist = []
  toFree : s.toFree = []

variable {s : Recorder} {numBlocks : ℕ}

theorem appended_concat (acts : List Act) (a : Act) : appended (acts ++ [a]) = appended acts ++ appended [a] :=
  List.filterMap_append

theorem continuous_new (numBlocks now : ℕ) :
    Continuous x (clampBlocks numBlocks) (initializeFrom x numBlocks now none []) [] := by
  refine ⟨fun e he => absurd he List.not_mem_nil, fun o ho => absurd ho List.not_mem_nil, taking_new numBlocks 0 now, rfl,
    fun o ho => absurd ho List.not_mem_nil, List.pairwise_singleton _ _, ?_, rfl, fun _ => ⟨rfl, rfl⟩, rfl⟩
  intro i hi
  rw [List.mem_singleton.mp hi]
  exact Nat.zero_lt_one

/-! ## Appending -/

/-- The index of a segment is in its header, and appending leaves it there. -/
theorem append_index (o : Opened) (ev : RequestEvent) :
    (o.append x ev).writer.header.segmentIndex = o.writer.header.segmentIndex := by
  obtain ⟨-, -, -, hw⟩ := append_header (x := x) o ev
  rw [hw]
  unfold SegmentWriter.append
  dsimp only
  split
  · unfold SegmentWriter.writeBlock
    dsimp only
    split <;> rfl
  · dsimp only
    split <;> rfl

theorem Continuous.lastEventId (h : Continuous x n s evs) : s.lastEventId = lastId evs := by
  unfold Recorder.lastEventId
  rw [h.active.holding.lastEventId, ← h.events]
  rcases List.eq_nil_or_concat' s.active.taken with hnil | ⟨l, e, hl⟩
  · obtain ⟨hc, hp⟩ := h.first hnil
    rw [hnil, hc, hp]
    rfl
  · rw [hl, ← List.append_assoc, lastId_concat, lastId_concat]

theorem lastId_lt {ev : RequestEvent} (ho : Ordered (evs ++ [ev])) : lastId evs < ev.eventId := by
  rcases List.eq_nil_or_concat' evs with rfl | ⟨l, e, rfl⟩
  · exact ho.pos ev (List.mem_append_right _ (List.mem_singleton_self ev))
  · rw [lastId_concat]
    exact (List.pairwise_append.mp ho.increasing).2.2 e (List.mem_append_right _ (List.mem_singleton_self e)) ev
      (List.mem_singleton_self ev)

/-- A segment without room holds as many events as fit. -/
theorem taken_full {o : Opened} (h : o.Taking x n) (hfull : o.writer.segmentSize ≤ o.writer.bytesWritten) :
    o.taken.length = n * blockEvents := by
  rw [h.holding.bytesWritten, h.holding.segmentSize] at hfull
  have hfits := h.holding.fits
  have hge : n ≤ o.taken.length / blockEvents := by
    by_contra hlt
    have := offsetOf_lt_iff.mpr (Nat.lt_of_not_le hlt)
    omega
  have hmul := (Nat.le_div_iff_mul_le blockEvents_pos).mp hge
  omega

theorem Continuous.append (h : Continuous x n s evs) (hn : 0 < n) {ev : RequestEvent} (ho : Ordered (evs ++ [ev]))
    (hok : Orderly s (.append ev)) : Continuous x n (s.append x ev) (evs ++ [ev]) := by
  have hlast := lastId_lt ho
  unfold Recorder.append
  split
  · next hfull =>
    have hfilled : Filled x n s.active := ⟨h.active.closing, taken_full h.active hfull, h.index⟩
    cases hp : s.prepared with
    | nil => exact absurd hok.1 (by rintro (hlt | hne); exacts [absurd hlt (by omega), hne hp])
    | cons o rest =>
      rw [rotate_roomy (hok.2 hfull) hp]
      obtain ⟨hfresh, hindex⟩ := h.prepared o (by rw [hp]; exact List.mem_cons_self)
      have hev : o.writer.header.lastEventId < ev.eventId := by
        rw [hfresh.holding.lastEventId, hfresh.taken_nil]
        exact Nat.zero_lt_of_lt hlast
      obtain ⟨-, htaken, hidx, -⟩ := append_header (x := x) o ev
      have hsame : ({ s with
          persist := s.persist ++ [s.active], active := o.append x ev, prepared := rest
          walFiles := s.walFiles ++ [s.active.index] } : Recorder).indices = s.indices := by
        unfold indices
        rw [hp]
        simp [hidx]
      refine ⟨h.closed, ?_, hfresh.append (hfresh.room hn) hev, ?_, ?_, ?_, ?_, ?_, ?_, h.toFree⟩
      · intro o' ho'
        rcases List.mem_append.mp ho' with ho' | ho'
        · exact h.persist o' ho'
        · rw [List.mem_singleton.mp ho']
          exact hfilled
      · rw [append_index, hindex, hidx]
      · intro o' ho'
        exact h.prepared o' (by rw [hp]; exact List.mem_cons_of_mem o ho')
      · rw [hsame]
        exact h.increasing
      · rw [hsame]
        exact h.below
      · rw [← h.events]
        simp [htaken, hfresh.taken_nil]
      · rw [htaken]
        intro hnil
        exact absurd hnil (by simp)
  · next hroom =>
    have hev : s.active.writer.header.lastEventId < ev.eventId := by
      have hid := h.lastEventId
      unfold Recorder.lastEventId at hid
      omega
    obtain ⟨-, htaken, hidx, -⟩ := append_header (x := x) s.active ev
    have hsame : ({ s with active := s.active.append x ev } : Recorder).indices = s.indices := by
      unfold indices
      rw [hidx]
    refine ⟨h.closed, h.persist, h.active.append (Nat.lt_of_not_le hroom) hev, ?_, h.prepared, ?_, ?_, ?_, ?_, h.toFree⟩
    · rw [append_index, h.index, hidx]
    · rw [hsame]
      exact h.increasing
    · rw [hsame]
      exact h.below
    · rw [← h.events]
      simp [htaken]
    · rw [htaken]
      intro hnil
      exact absurd hnil (by simp)

/-! ## Closing and starting again -/

theorem flushPartial_index (w : SegmentWriter) :
    (w.flushPartial x).header.segmentIndex = w.header.segmentIndex := by
  unfold SegmentWriter.flushPartial
  split <;> rfl

theorem close_index (w : SegmentWriter) (now : ℕ) : (w.close x now).header.segmentIndex = w.header.segmentIndex :=
  flushPartial_index w

theorem Filled.close {o : Opened} (h : Filled x n o) (now : ℕ) : Full x n (o.close x now) :=
  ⟨⟨h.closes now, h.ordered⟩, h.full, (close_index o.writer now).trans h.index⟩

theorem flush_frame (o : Opened) : (o.flush x).taken = o.taken ∧ (o.flush x).index = o.index ∧
    (o.flush x).writer = o.writer.flushPartial x := by
  unfold Opened.flush Opened.advance
  split
  · exact ⟨rfl, rfl, rfl⟩
  · exact ⟨rfl, rfl, rfl⟩

theorem Filled.flush {o : Opened} (h : Filled x n o) : Filled x n (o.flush x) := by
  obtain ⟨htaken, hidx, hw⟩ := flush_frame (x := x) o
  refine ⟨h.toClosing.flush, ?_, ?_⟩
  · rw [htaken]
    exact h.full
  · rw [hw, flushPartial_index, hidx]
    exact h.index

theorem Continuous.prepare (h : Continuous x (clampBlocks numBlocks) s evs) (now : ℕ) :
    Continuous x (clampBlocks numBlocks) (s.step x numBlocks (.prepare now)) evs := by
  unfold Recorder.step
  dsimp only
  split
  · have hnew : ({ s with
        prepared := s.prepared ++ [Opened.prepare numBlocks s.nextIndex now]
        nextIndex := s.nextIndex + 1 } : Recorder).indices = s.indices ++ [s.nextIndex] := by
      unfold indices
      simp [Opened.prepare]
    refine ⟨h.closed, h.persist, h.active, h.index, ?_, ?_, ?_, h.events, h.first, h.toFree⟩
    · intro o ho
      rcases List.mem_append.mp ho with ho | ho
      · exact h.prepared o ho
      · rw [List.mem_singleton.mp ho]
        exact ⟨⟨taking_prepare numBlocks s.nextIndex now, rfl, rfl⟩, rfl⟩
    · rw [hnew, List.pairwise_append]
      refine ⟨h.increasing, List.pairwise_singleton _ _, fun i hi j hj => ?_⟩
      rw [List.mem_singleton.mp hj]
      exact h.below i hi
    · rw [hnew]
      intro i hi
      rcases List.mem_append.mp hi with hi | hi
      · exact (h.below i hi).trans (Nat.lt_succ_self _)
      · rw [List.mem_singleton.mp hi]
        exact Nat.lt_succ_self _
  · exact h

theorem Continuous.flush (h : Continuous x n s evs) : Continuous x n (s.step x numBlocks .flush) evs := by
  unfold Recorder.step
  cases hp : s.persist with
  | nil => exact h
  | cons o rest =>
    obtain ⟨htaken, hidx, -⟩ := flush_frame (x := x) o
    have hall := h.persist
    have hsame : ({ s with persist := o.flush x :: rest } : Recorder).indices = s.indices := by
      unfold indices
      rw [hp]
      simp [hidx]
    rw [hp] at hall
    refine ⟨h.closed, fun o' ho' => ?_, h.active, h.index, h.prepared, ?_, ?_, ?_, ?_, h.toFree⟩
    · rcases List.mem_cons.mp ho' with rfl | ho'
      · exact (hall o List.mem_cons_self).flush
      · exact hall o' (List.mem_cons_of_mem o ho')
    · rw [hsame]
      exact h.increasing
    · rw [hsame]
      exact h.below
    · rw [← h.events, hp]
      simp [htaken]
    · intro hnil
      have hpers := (h.first hnil).2
      rw [hp] at hpers
      cases hpers

theorem Continuous.close (h : Continuous x n s evs) (now : ℕ) :
    Continuous x n (s.step x numBlocks (.close now)) evs := by
  unfold Recorder.step
  cases hp : s.persist with
  | nil => exact h
  | cons o rest =>
    have hall := h.persist
    have hsame : ({ s with persist := rest, closed := s.closed ++ [o.close x now] } : Recorder).indices = s.indices := by
      unfold indices
      rw [hp]
      simp [Opened.close]
    rw [hp] at hall
    refine ⟨fun e he => ?_, fun o' ho' => hall o' (List.mem_cons_of_mem o ho'), h.active, h.index, h.prepared, ?_, ?_, ?_,
      ?_, h.toFree⟩
    · rcases List.mem_append.mp he with he | he
      · exact h.closed e he
      · rw [List.mem_singleton.mp he]
        exact (hall o List.mem_cons_self).close now
    · rw [hsame]
      exact h.increasing
    · rw [hsame]
      exact h.below
    · rw [← h.events, hp]
      simp [Opened.close]
    · intro hnil
      have hpers := (h.first hnil).2
      rw [hp] at hpers
      cases hpers

/-- The newest file is closed: the recorder starts in it, whatever the meta file says. -/
theorem initializeFrom_concat {e : Stored} (h : Kept x n e) (files : List Stored) (now : ℕ) (last : Option ℕ) :
    ∃ w, Holding x w n e.durable ∧ w.file = e.file ∧ w.header = e.file.header ∧
      initializeFrom x numBlocks now last (files ++ [e]) =
        { closed := files, active := ⟨e.index, w, e.durable, e.durable, false⟩
          nextIndex := w.header.segmentIndex + 1
          walFiles := (files.map Stored.index ++ [e.index]).take hotRing } := by
  obtain ⟨w, hw, hhold, hfile⟩ := holding_openExisting h.closed h.ordered
  have hheader : w.header = e.file.header := by
    unfold SegmentWriter.openExisting at hw
    rw [if_neg (Nat.not_lt.mpr h.closed.headerBytes_le), h.closed.verifyFull h.ordered] at hw
    cases hw
    rfl
  refine ⟨w, hhold, hfile, hheader, ?_⟩
  have hread : readSegmentHeader x e.file = .ok e.file.header := by
    unfold readSegmentHeader
    rw [if_neg (Nat.not_lt.mpr h.closed.headerBytes_le), h.closed.verify]
  have hstate : recoverLastState x last (e :: files.reverse) = some (e :: files.reverse) := by
    unfold recoverLastState
    split
    · rfl
    · unfold recoverHeaders
      rw [hread]
  unfold initializeFrom restoreOrCreate scannedNames
  rw [List.reverse_append, List.reverse_singleton, List.singleton_append, hstate, Option.bind_some]
  unfold prepareFromScanned
  rw [hw]
  dsimp only
  rw [List.reverse_reverse]

theorem Continuous.restart (h : Continuous x (clampBlocks numBlocks) s evs) (last : Option ℕ) (now : ℕ) :
    Continuous x (clampBlocks numBlocks) (s.step x numBlocks (.restart last now)) evs := by
  have hfiles : s.shutdown x now =
      (s.closed ++ s.persist.map (Opened.close x now)) ++ [s.active.close x now] := by
    simp [Recorder.shutdown]
  have hkept : Kept x (clampBlocks numBlocks) (s.active.close x now) := ⟨h.active.closing.closes now, h.active.ordered⟩
  obtain ⟨w, hhold, hfile, hheader, heq⟩ := initializeFrom_concat hkept
    (s.closed ++ s.persist.map (Opened.close x now)) now last
  unfold Recorder.step
  dsimp only
  rw [hfiles, heq]
  have hidx : w.header.segmentIndex = s.active.index := by
    rw [hheader]
    exact (close_index s.active.writer now).trans h.index
  have hsub : (s.closed.map Stored.index ++ s.persist.map Opened.index ++ [s.active.index]).Sublist s.indices := by
    unfold indices
    refine List.Sublist.append_left ?_ _
    exact List.Sublist.cons_cons _ (List.nil_sublist _)
  have hindices : ∀ names, ({
      closed := s.closed ++ s.persist.map (Opened.close x now)
      active := ⟨(s.active.close x now).index, w, (s.active.close x now).durable, (s.active.close x now).durable, false⟩
      nextIndex := w.header.segmentIndex + 1, walFiles := names } : Recorder).indices =
        s.closed.map Stored.index ++ s.persist.map Opened.index ++ [s.active.index] := by
    intro names
    unfold indices
    simp [Opened.close, Function.comp_def]
  have hinc := h.increasing.sublist hsub
  refine ⟨?_, fun o ho => absurd ho List.not_mem_nil, ⟨hhold, h.active.ordered, fun _ => .inr ⟨?_, h.active.ordered⟩⟩,
    hidx, fun o ho => absurd ho List.not_mem_nil, ?_, ?_, ?_, ?_, rfl⟩
  · intro e he
    rcases List.mem_append.mp he with he | he
    · exact h.closed e he
    · obtain ⟨o, ho, rfl⟩ := List.mem_map.mp he
      exact (h.persist o ho).close now
  · show Closed x w.file _ _
    rw [hfile]
    exact hkept.closed
  · rw [hindices]
    exact hinc
  · rw [hindices]
    intro i hi
    show i < w.header.segmentIndex + 1
    rw [hidx]
    rcases List.mem_append.mp hi with hi' | hi'
    · have := (List.pairwise_append.mp hinc).2.2 i hi' s.active.index (List.mem_singleton_self _)
      omega
    · rw [List.mem_singleton.mp hi']
      omega
  · rw [← h.events]
    simp [Opened.close, List.flatMap_map]
  · intro hnil
    obtain ⟨hc, hp⟩ := h.first hnil
    rw [hc, hp]
    exact ⟨rfl, rfl⟩

/-! ## Whole runs -/

theorem Continuous.step (h : Continuous x (clampBlocks numBlocks) s evs) {a : Act} (hok : Orderly s a)
    (ho : Ordered (evs ++ appended [a])) :
    Continuous x (clampBlocks numBlocks) (s.step x numBlocks a) (evs ++ appended [a]) := by
  cases a with
  | append ev => exact h.append (clampBlocks_pos numBlocks) ho hok
  | prepare now =>
    rw [show appended [.prepare now] = [] from rfl, List.append_nil]
    exact h.prepare now
  | flush =>
    rw [show appended [.flush] = [] from rfl, List.append_nil]
    exact h.flush
  | close now =>
    rw [show appended [.close now] = [] from rfl, List.append_nil]
    exact h.close now
  | free =>
    rw [show appended [.free] = [] from rfl, List.append_nil, step_free h.toFree]
    exact h
  | restart last now =>
    rw [show appended [.restart last now] = [] from rfl, List.append_nil]
    exact h.restart last now
  | crash last now => exact hok.elim

theorem after_concat (x : Hash) (numBlocks now : ℕ) (acts : List Act) (a : Act) :
    after x numBlocks now (acts ++ [a]) = (after x numBlocks now acts).step x numBlocks a := by
  unfold after
  rw [List.foldl_append]
  rfl

theorem continuous_after (now : ℕ) {acts : List Act}
    (hok : Admitted (fun s a => step x numBlocks s a) Orderly (initializeFrom x numBlocks now none []) acts)
    (ho : Ordered (appended acts)) :
    Continuous x (clampBlocks numBlocks) (after x numBlocks now acts) (appended acts) := by
  induction acts using List.reverseRecOn with
  | nil => exact continuous_new numBlocks now
  | append_singleton acts a ih =>
    obtain ⟨hbefore, ha⟩ := admitted_concat.mp hok
    rw [appended_concat] at ho ⊢
    rw [after_concat]
    exact (ih hbefore ho.left).step ha ho

/-- The files that a shutdown leaves. -/
theorem Continuous.shutdown (h : Continuous x n s evs) (t : ℕ) :
    (∀ e ∈ s.shutdown x t, Kept x n e) ∧ (s.shutdown x t).flatMap Stored.durable = evs ∧
      (s.shutdown x t).Pairwise fun e e' => e.index < e'.index := by
  refine ⟨?_, ?_, ?_⟩
  · intro e he
    simp only [Recorder.shutdown, List.mem_append, List.mem_map, List.mem_singleton] at he
    rcases he with he | ⟨o, ho | rfl, rfl⟩
    · exact (h.closed e he).toKept
    · exact ((h.persist o ho).close t).toKept
    · exact ⟨h.active.closing.closes t, h.active.ordered⟩
  · rw [← h.events]
    simp [Recorder.shutdown, Opened.close, List.flatMap_map]
  · have hmap : (s.shutdown x t).map Stored.index =
        s.closed.map Stored.index ++ s.persist.map Opened.index ++ [s.active.index] := by
      simp [Recorder.shutdown, Opened.close, Function.comp_def]
    have hsub : ((s.shutdown x t).map Stored.index).Sublist s.indices := by
      rw [hmap]
      unfold indices
      refine List.Sublist.append_left ?_ _
      exact List.Sublist.cons_cons _ (List.nil_sublist _)
    exact List.pairwise_map.mp (h.increasing.sublist hsub)

/-- The blocks of the largest segment that holds a part of the log. -/
def largest (n count : ℕ) : ℕ := min n (pieces blockEvents count)

theorem pieces_mono {k l : ℕ} (h : k ≤ l) : pieces blockEvents k ≤ pieces blockEvents l := by
  rw [pieces_le_iff blockEvents_pos]
  exact h.trans (pieces_mul_ge blockEvents_pos l)

theorem length_durable_le {files : List Stored} {e : Stored} (he : e ∈ files) :
    e.durable.length ≤ (files.flatMap Stored.durable).length := by
  obtain ⟨l, r, rfl⟩ := List.append_of_mem he
  rw [List.flatMap_append, List.flatMap_cons, List.length_append, List.length_append]
  omega

/-- No segment has more blocks than this. -/
theorem pieces_le_largest {e : Stored} (h : Kept x n e) (hle : e.durable.length ≤ evs.length) :
    pieces blockEvents e.durable.length ≤ largest n evs.length := by
  refine le_min ?_ (pieces_mono hle)
  rw [pieces_le_iff blockEvents_pos, Nat.mul_comm]
  exact h.closed.fits

/-- Some segment has as many. -/
theorem Continuous.exists_largest (h : Continuous x n s evs) (t : ℕ) :
    ∃ e ∈ s.shutdown x t, largest n evs.length ≤ pieces blockEvents e.durable.length := by
  have hpieces : pieces blockEvents (n * blockEvents) = n := by
    rw [pieces_of_mod_eq_zero blockEvents_pos (Nat.mul_mod_left n blockEvents), Nat.mul_div_cancel n blockEvents_pos]
  by_cases hfirst : s.closed = [] ∧ s.persist = []
  · refine ⟨s.active.close x t, by simp [Recorder.shutdown], ?_⟩
    have hevs := h.events
    rw [hfirst.1, hfirst.2] at hevs
    show _ ≤ pieces blockEvents s.active.taken.length
    rw [← hevs]
    exact min_le_right _ _
  · have hfull : ∃ e ∈ s.shutdown x t, e.durable.length = n * blockEvents := by
      cases hc : s.closed with
      | cons e rest =>
        have hmem : e ∈ s.closed := by rw [hc]; exact List.mem_cons_self
        exact ⟨e, List.mem_append_left _ hmem, (h.closed e hmem).full⟩
      | nil =>
        obtain ⟨o, ho⟩ := List.exists_mem_of_ne_nil s.persist fun hp => hfirst ⟨hc, hp⟩
        refine ⟨o.close x t, ?_, (h.persist o ho).full⟩
        exact List.mem_append_right _ (List.mem_map_of_mem (List.mem_append_left _ ho))
    obtain ⟨e, he, hlen⟩ := hfull
    refine ⟨e, he, ?_⟩
    rw [hlen, hpieces]
    exact min_le_left _ _

theorem Continuous.short_iff (h : Continuous x n s evs) (hn : 0 < n) (t : ℕ) :
    (∀ e ∈ s.shutdown x t, Short e) ↔ evs ≠ [] ∧ offsetOf (largest n evs.length) < 2 ^ 32 := by
  obtain ⟨hkept, hevents, -⟩ := h.shutdown t
  have hactive : s.active.close x t ∈ s.shutdown x t := by simp [Recorder.shutdown]
  constructor
  · intro hs
    obtain ⟨e, he, hle⟩ := h.exists_largest t
    refine ⟨?_, Nat.lt_of_le_of_lt (offsetOf_le hle) (hs e he).2⟩
    rintro rfl
    exact (hs _ hactive).1 (List.append_eq_nil_iff.mp h.events).2
  · rintro ⟨hne, hlt⟩ e he
    have hlen : e.durable.length ≤ evs.length := by
      rw [← hevents]
      exact length_durable_le he
    refine ⟨?_, Nat.lt_of_le_of_lt (offsetOf_le (pieces_le_largest (hkept e he) hlen)) hlt⟩
    have hpos : n * blockEvents ≠ 0 := (Nat.mul_pos hn blockEvents_pos).ne'
    simp only [Recorder.shutdown, List.mem_append, List.mem_map, List.mem_singleton] at he
    rcases he with he | ⟨o, ho | rfl, rfl⟩
    · intro hnil
      have hfull := (h.closed e he).full
      rw [hnil] at hfull
      exact hpos hfull.symm
    · intro hnil
      have hfull := (h.persist o ho).full
      rw [show o.taken = [] from hnil] at hfull
      exact hpos hfull.symm
    · intro hnil
      obtain ⟨hc, hp⟩ := h.first hnil
      have hevs := h.events
      rw [hc, hp, show s.active.taken = [] from hnil] at hevs
      exact hne hevs.symm

theorem Continuous.readLog_iff (h : Continuous x n s evs) (hn : 0 < n) (t : ℕ) :
    ReadLog x (s.shutdown x t) evs ↔ evs ≠ [] ∧ offsetOf (largest n evs.length) < 2 ^ 32 := by
  obtain ⟨hkept, hevents, -⟩ := h.shutdown t
  rw [← h.short_iff hn t, ← Wal.readLog_iff hkept, hevents]

/-- **One continuous log.** In every run without crashes that stays below the limit of retention, for events whose ids go
up and indices of at most eight digits: the files are one log, if and only if anything was appended and the largest
segment ends below 4 GiB. -/
theorem one_log_iff (x : Hash) (numBlocks now : ℕ) (acts : List Act)
    (hok : Admitted (fun s a => step x numBlocks s a) Orderly (initializeFrom x numBlocks now none []) acts)
    (ho : Ordered (appended acts)) (t : ℕ)
    (hnames : ∀ e ∈ (after x numBlocks now acts).shutdown x t, e.index < 10 ^ 8) :
    OneLog x numBlocks now acts t ↔ appended acts ≠ [] ∧
      headerBytes + min (clampBlocks numBlocks) (pieces blockEvents (appended acts).length) * blockBytes < 2 ^ 32 := by
  have h := continuous_after now hok ho
  refine Iff.trans ?_ (h.readLog_iff (clampBlocks_pos numBlocks) t)
  obtain ⟨-, -, hindices⟩ := h.shutdown t
  refine ⟨fun hlog => hlog.reads, fun hr => ⟨hr, hindices, ?_, ?_⟩⟩
  · exact hindices.imp_of_mem fun _ hb hlt => composeSegmentFilename_lt hlt (hnames _ hb)
  · intro bs last t' hbs
    have hord : Ordered (appended (bs ++ [.restart last t'])) := by
      obtain ⟨rest, hrest⟩ := hbs
      rw [← hrest] at ho
      unfold appended at ho ⊢
      rw [List.filterMap_append] at ho
      exact ho.left
    have hlast := (continuous_after now (hok.of_prefix _ hbs) hord).lastEventId
    rw [hlast, appended_concat]
    exact congrArg lastId (List.append_nil _)

/-- Two events, with a restart in between. -/
theorem one_log_iff_restarted :
    let x : Hash := ⟨fun l s => l.foldl (fun a e => 31 * a + e.eventId.toUInt64) s, fun h => h.blockIndex.toUInt64,
      fun h => h.eventCount.toUInt64⟩
    let acts : List Act := [.append { eventId := 3 }, .restart (some 0) 1, .append { eventId := 5 }]
    OneLog x 16 0 acts 2 := by
  intro x acts
  have hok : Admitted (fun s a => step x 16 s a) Orderly (initializeFrom x 16 0 none []) acts := by decide +kernel
  have ho : Ordered (appended acts) := ⟨by decide, by decide⟩
  exact (one_log_iff x 16 0 acts hok ho 2 (by decide +kernel)).mpr ⟨by decide, by decide⟩

/-! ## A log that is not read back -/

/-- One segment takes 261124 blocks. -/
def longLog : List Act := (countUp (261124 * blockEvents)).map .append

theorem appended_map (l : List RequestEvent) : appended (l.map .append) = l := by
  unfold appended
  rw [List.filterMap_map]
  exact List.filterMap_some

theorem admitted_countUp (x : Hash) (numBlocks : ℕ) {k : ℕ} (hk : k ≤ clampBlocks numBlocks * blockEvents) :
    Admitted (fun s a => step x numBlocks s a) Orderly (initializeFrom x numBlocks 0 none []) ((countUp k).map .append) := by
  induction k with
  | zero => exact trivial
  | succ k ih =>
    rw [countUp_succ, List.map_append]
    have hroom := (starting_countUp x numBlocks (Nat.le_of_succ_le hk)).room (Nat.lt_of_succ_le hk)
    exact admitted_concat.mpr ⟨ih (by omega), .inl hroom, fun hfull => absurd hroom (Nat.not_lt.mpr hfull)⟩

theorem unread_countUp {k : ℕ} (hle : k ≤ clampBlocks maxBlocks * blockEvents)
    (hge : 2 ^ 32 ≤ offsetOf (largest (clampBlocks maxBlocks) k)) :
    (∀ x, Admitted (fun s a => step x maxBlocks s a) Orderly (initializeFrom x maxBlocks 0 none [])
        ((countUp k).map .append) ∧
      ∀ e ∈ (after x maxBlocks 0 ((countUp k).map .append)).shutdown x 0, e.index < 10 ^ 8) ∧
    Ordered (appended ((countUp k).map .append)) ∧ ¬ ∃ x, OneLog x maxBlocks 0 ((countUp k).map .append) 0 := by
  have hord : Ordered (appended ((countUp k).map .append)) := by
    rw [appended_map]
    exact ordered_countUp k
  refine ⟨fun x => ⟨admitted_countUp x maxBlocks hle, ?_⟩, hord, ?_⟩
  · intro e he
    have hs := starting_countUp x maxBlocks hle
    unfold shutdown at he
    rw [hs.closed, hs.persist, List.nil_append, List.nil_append, List.map_singleton, List.mem_singleton] at he
    rw [he]
    show Opened.index _ < _
    rw [hs.index]
    decide
  · rintro ⟨x, hlog⟩
    have h : Continuous x (clampBlocks maxBlocks) (after x maxBlocks 0 ((countUp k).map .append)) _ :=
      continuous_after 0 (admitted_countUp x maxBlocks hle) hord
    have hlt := ((h.readLog_iff (clampBlocks_pos maxBlocks) 0).mp hlog.reads).2
    rw [appended_map, length_countUp] at hlt
    omega

/-- 66847744 events go into one segment, and no hash makes its reader give them back. -/
theorem long_log_unread :
    (∀ x, Admitted (fun s a => step x maxBlocks s a) Orderly (initializeFrom x maxBlocks 0 none []) longLog ∧
      ∀ e ∈ (after x maxBlocks 0 longLog).shutdown x 0, e.index < 10 ^ 8) ∧
    Ordered (appended longLog) ∧ ¬ ∃ x, OneLog x maxBlocks 0 longLog 0 := by
  unfold longLog
  exact unread_countUp (by decide) (by decide)

end Recorder

end Wirekrak.Wal

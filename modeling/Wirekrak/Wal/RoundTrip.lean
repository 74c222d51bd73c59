import Wirekrak.Wal.Reader

/-!
# Wirekrak.Wal.RoundTrip — what is written to a segment is read back

A segment is written in sessions: the first opens a new file, every other one opens the file that the one before it
has closed.  The file depends on the events only, not on how they are cut into sessions (`closed_record`).

The reader opens the segment and yields its events, as long as the data ends below 4 GiB: the reader takes the end of
the data from a 32-bit size, while a segment may have up to 512 Ki blocks of 16 KiB each.
-/

namespace Wirekrak.Wal

open Wirekrak.Lib

variable (x : Hash)

/-! ## Sessions -/

/-- The events of a session and the time of its close. -/
structure Session where
  events : List RequestEvent
  now : ℕ

namespace SegmentWriter

def appendAll (evs : List RequestEvent) (w : SegmentWriter) : SegmentWriter :=
  evs.foldl (fun w e => w.append x e) w

/-- The events are appended and the segment is closed. -/
def session (s : Session) (w : SegmentWriter) : File :=
  (w.appendAll x s.events).close x s.now

end SegmentWriter

/-- The sessions that open the closed segment again. -/
def reopen : File → List Session → Except Status File
  | f, [] => .ok f
  | f, s :: rest =>
    match SegmentWriter.openExisting x f with
    | .error e => .error e
    | .ok w => reopen (w.session x s) rest

/-- A segment is created and written in one or more sessions. -/
def record (numBlocks segmentIndex now : ℕ) (first : Session) (rest : List Session) : Except Status File :=
  reopen x ((SegmentWriter.openNew numBlocks segmentIndex now).session x first) rest

def allEvents (first : Session) (rest : List Session) : List RequestEvent :=
  first.events ++ rest.flatMap Session.events

variable {x} {w : SegmentWriter} {f : File} {n : ℕ} {evs more : List RequestEvent}

theorem Ordered.left (h : Ordered (evs ++ more)) : Ordered evs :=
  ⟨fun e he => h.pos e (List.mem_append_left _ he), (List.pairwise_append.mp h.increasing).1⟩

theorem holding_appendAll (h : Holding x w n evs) (ho : Ordered (evs ++ more))
    (hfit : (evs ++ more).length ≤ n * blockEvents) : Holding x (w.appendAll x more) n (evs ++ more) := by
  induction more generalizing w evs with
  | nil => simpa [SegmentWriter.appendAll] using h
  | cons e more ih =>
    have hsplit : evs ++ e :: more = (evs ++ [e]) ++ more := by simp
    rw [hsplit] at ho hfit ⊢
    have hlen : evs.length < n * blockEvents := by
      rw [List.length_append, List.length_append, List.length_singleton] at hfit
      omega
    exact ih (holding_append h hlen ho.left.left.pos e) ho hfit

theorem closed_reopen {rest : List Session} (h : Closed x f n evs)
    (ho : Ordered (evs ++ rest.flatMap Session.events))
    (hfit : (evs ++ rest.flatMap Session.events).length ≤ n * blockEvents) :
    ∃ f', reopen x f rest = .ok f' ∧ Closed x f' n (evs ++ rest.flatMap Session.events) := by
  induction rest generalizing f evs with
  | nil => exact ⟨f, rfl, by simpa using h⟩
  | cons s rest ih =>
    rw [List.flatMap_cons, ← List.append_assoc] at ho hfit ⊢
    obtain ⟨w, hw, hhold, -⟩ := holding_openExisting h ho.left.left
    have hle : (evs ++ s.events).length ≤ n * blockEvents := by
      rw [List.length_append] at hfit
      omega
    obtain ⟨f', h1, h2⟩ := ih (closed_close (holding_appendAll hhold ho.left hle) s.now) ho hfit
    refine ⟨f', ?_, h2⟩
    unfold reopen
    rw [hw]
    exact h1

/-- However the events are cut into sessions, the file holds them all. -/
theorem closed_record {first : Session} {rest : List Session} (x : Hash) (numBlocks segmentIndex now : ℕ)
    (ho : Ordered (allEvents first rest))
    (hfit : (allEvents first rest).length ≤ clampBlocks numBlocks * blockEvents) :
    ∃ f, record x numBlocks segmentIndex now first rest = .ok f ∧
      Closed x f (clampBlocks numBlocks) (allEvents first rest) := by
  have hle : ([] ++ first.events).length ≤ clampBlocks numBlocks * blockEvents := by
    unfold allEvents at hfit
    rw [List.length_append] at hfit
    rw [List.nil_append]
    omega
  have h := holding_appendAll (holding_openNew (x := x) numBlocks segmentIndex now) ho.left hle
  exact closed_reopen (closed_close h first.now) ho hfit

/-! ## Opening the closed segment for reading -/

/-- The blocks that end within the first `size` bytes. -/
def visible (size : ℕ) : ℕ :=
  (size - headerBytes) / blockBytes

theorem offsetOf_succ_le_iff {size i : ℕ} : offsetOf (i + 1) ≤ size ↔ i < visible size := by
  have hB := blockBytes_pos
  unfold visible offsetOf
  rw [← Nat.succ_le_iff, Nat.le_div_iff_mul_le hB, Nat.succ_eq_add_one]
  have hmul : blockBytes ≤ (i + 1) * blockBytes := Nat.le_mul_of_pos_left _ (Nat.succ_pos _)
  omega

theorem visible_le {size n : ℕ} (h : size ≤ offsetOf n) : visible size ≤ n := by
  by_contra hlt
  have hnext := offsetOf_succ_le_iff.mpr (Nat.lt_of_not_le hlt)
  have := offsetOf_lt_iff.mpr (Nat.lt_add_one n)
  omega

theorem offsetOf_visible_le {size : ℕ} (h : headerBytes ≤ size) : offsetOf (visible size) ≤ size := by
  have hmul := Nat.div_mul_le_self (size - headerBytes) blockBytes
  unfold offsetOf visible
  omega

theorem Closed.segmentSize_le (h : Closed x f n evs) :
    f.header.segmentSize ≤ offsetOf (pieces blockEvents evs.length) := by
  unfold Header.segmentSize
  rw [h.blockCount]
  exact Nat.mod_le _ _

theorem Closed.visible_le (h : Closed x f n evs) :
    visible f.header.segmentSize ≤ pieces blockEvents evs.length :=
  Wal.visible_le h.segmentSize_le

/-- The reader opens the segment if it sees a block, and then stands before the first event. -/
theorem Closed.openSegment (h : Closed x f n evs) (ho : Ordered evs) :
    (visible f.header.segmentSize = 0 → SegmentReader.openSegment x f = .error .readFailed) ∧
      (0 < visible f.header.segmentSize → ∃ rd, SegmentReader.openSegment x f = .ok rd ∧
        At x rd evs (visible f.header.segmentSize) 0 0 ∧ rd.index = none) := by
  have hsize := h.headerBytes_le
  have hle : f.header.segmentSize ≤ f.size := by
    rw [h.size]
    exact Nat.le_trans h.segmentSize_le (offsetOf_le h.blocks)
  have hsees : Sees x { file := f, segmentHeader := f.header, validDataSize := f.header.segmentSize } evs
      (visible f.header.segmentSize) := by
    have hv := h.visible_le
    exact ⟨fun i hi => h.written i (by omega), fun i => offsetOf_succ_le_iff, hv⟩
  unfold SegmentReader.openSegment
  rw [if_neg (by omega), h.verifyFull ho]
  simp only
  rw [if_neg (by omega), ← offsetOf_zero]
  constructor
  · intro hz
    rw [hsees.read_none (by omega)]
  · intro hpos
    obtain ⟨rd, hr, hat, hidx⟩ := hsees.read hpos
    rw [hr]
    exact ⟨rd, rfl, hat, hidx⟩

/-- All blocks are visible if the data ends below 4 GiB. -/
theorem Closed.visible_eq_iff (h : Closed x f n evs) :
    visible f.header.segmentSize = pieces blockEvents evs.length ↔
      evs = [] ∨ offsetOf (pieces blockEvents evs.length) < 2 ^ 32 := by
  have hB := blockBytes_pos
  have hsz : f.header.segmentSize = offsetOf (pieces blockEvents evs.length) % 2 ^ 32 := by
    unfold Header.segmentSize offsetOf
    rw [h.blockCount]
  have hp : pieces blockEvents evs.length = 0 ↔ evs = [] := by
    rw [← List.length_eq_zero_iff, ← Nat.le_zero, pieces_le_iff blockEvents_pos]
    simp
  constructor
  · intro hv
    by_cases he : evs = []
    · exact .inl he
    · refine .inr ?_
      by_contra hge
      obtain ⟨k, hk⟩ := Nat.exists_eq_succ_of_ne_zero (fun hz => he (hp.mp hz))
      have h1 := offsetOf_succ_le_iff.mpr (show k < visible f.header.segmentSize by omega)
      have h2 := Nat.mod_lt (offsetOf (pieces blockEvents evs.length)) (show 0 < 2 ^ 32 by decide)
      rw [hk, Nat.succ_eq_add_one] at hge h2
      rw [hsz, hk, Nat.succ_eq_add_one] at h1
      omega
  · intro hcase
    apply Nat.le_antisymm h.visible_le
    rcases hcase with he | hlt
    · rw [hp.mpr he]
      exact Nat.zero_le _
    · by_contra hge
      obtain ⟨k, hk⟩ := Nat.exists_eq_succ_of_ne_zero
        (show pieces blockEvents evs.length ≠ 0 by omega)
      have h1 := offsetOf_succ_le_iff.not.mpr (show ¬ k < visible f.header.segmentSize by omega)
      rw [hsz, Nat.mod_eq_of_lt hlt, hk] at h1
      exact h1 (Nat.le_refl _)

/-- A closed segment whose data ends below 4 GiB is read back. -/
theorem Closed.readBack (h : Closed x f n evs) (ho : Ordered evs) (hne : evs ≠ [])
    (hlt : offsetOf (pieces blockEvents evs.length) < 2 ^ 32) :
    ∃ rd, SegmentReader.openSegment x f = .ok rd ∧ rd.Yields evs := by
  have hge := pieces_mul_ge blockEvents_pos evs.length
  have hvis := h.visible_eq_iff.mpr (.inr hlt)
  have hpos : 0 < visible f.header.segmentSize := by
    rw [hvis, lt_pieces_iff blockEvents_pos]
    simpa using List.length_pos_iff.mpr hne
  obtain ⟨rd, hopen, hat, -⟩ := (h.openSegment ho).2 hpos
  refine ⟨rd, hopen, ?_⟩
  have hyields := hat.yields
  rw [hvis, Nat.mul_zero, List.drop_zero, List.take_of_length_le hge] at hyields
  exact hyields

/-! ## The round trip -/

/-- A reader gives a part of the events of a closed segment, and all of them only if it sees all blocks. -/
theorem Closed.short_of_yields {f : File} {n : ℕ} {evs l : List RequestEvent} (h : Closed x f n evs) (ho : Ordered evs)
    {rd : SegmentReader} (hopen : SegmentReader.openSegment x f = .ok rd) (hy : rd.Yields l) :
    l.length ≤ evs.length ∧
      (l.length = evs.length → evs ≠ [] ∧ offsetOf (pieces blockEvents evs.length) < 2 ^ 32) := by
  obtain ⟨hnone, hsome⟩ := h.openSegment ho
  have hpos : 0 < visible f.header.segmentSize := by
    by_contra hz
    rw [hnone (by omega)] at hopen
    cases hopen
  obtain ⟨rd', hopen', hat, -⟩ := hsome hpos
  rw [hopen'] at hopen
  cases hopen
  have hyields := hat.yields
  rw [Nat.mul_zero, List.drop_zero] at hyields
  have hlen := congrArg List.length (hyields.unique hy)
  rw [List.length_take] at hlen
  refine ⟨by omega, fun hfull => ?_⟩
  have hvis := h.visible_le
  have hle : pieces blockEvents evs.length ≤ visible f.header.segmentSize := by
    rw [pieces_le_iff blockEvents_pos]
    omega
  have hne : evs ≠ [] := by
    intro hnil
    rw [hnil] at hvis
    have hz : pieces blockEvents ([] : List RequestEvent).length = 0 := by decide
    omega
  exact ⟨hne, (h.visible_eq_iff.mp (Nat.le_antisymm hvis hle)).resolve_left hne⟩

/-- The sessions succeed; the reader opens what they have written, yields all events in order and reports the end. -/
def RoundTrip (x : Hash) (numBlocks segmentIndex now : ℕ) (first : Session) (rest : List Session) : Prop :=
  ∃ f rd, record x numBlocks segmentIndex now first rest = .ok f ∧ SegmentReader.openSegment x f = .ok rd ∧
    rd.Yields (allEvents first rest)

section

variable {first : Session} {rest : List Session} {numBlocks segmentIndex now : ℕ}

/-- A reader that yields all events has seen all blocks. -/
theorem RoundTrip.lt (h : RoundTrip x numBlocks segmentIndex now first rest) (ho : Ordered (allEvents first rest))
    (hfit : (allEvents first rest).length ≤ clampBlocks numBlocks * blockEvents) :
    allEvents first rest ≠ [] ∧ offsetOf (pieces blockEvents (allEvents first rest).length) < 2 ^ 32 := by
  obtain ⟨f, hf, hclosed⟩ := closed_record x numBlocks segmentIndex now ho hfit
  obtain ⟨f', rd, hf', hopen, hy⟩ := h
  rw [hf] at hf'
  cases hf'
  exact (hclosed.short_of_yields ho hopen hy).2 rfl

theorem RoundTrip.of_lt (ho : Ordered (allEvents first rest))
    (hfit : (allEvents first rest).length ≤ clampBlocks numBlocks * blockEvents)
    (hne : allEvents first rest ≠ [])
    (hlt : offsetOf (pieces blockEvents (allEvents first rest).length) < 2 ^ 32) :
    RoundTrip x numBlocks segmentIndex now first rest := by
  obtain ⟨f, hf, hclosed⟩ := closed_record x numBlocks segmentIndex now ho hfit
  obtain ⟨rd, hopen, hyields⟩ := hclosed.readBack ho hne hlt
  exact ⟨f, rd, hf, hopen, hyields⟩

end

/-- **Round trip.** Whatever the events are and however they are cut into sessions: they are read back, in order and
with the end behind them, if and only if there are any and their blocks end below 4 GiB. -/
theorem round_trip_iff (x : Hash) (numBlocks segmentIndex now : ℕ) (first : Session) (rest : List Session)
    (ho : Ordered (allEvents first rest))
    (hfit : (allEvents first rest).length ≤ clampBlocks numBlocks * blockEvents) :
    RoundTrip x numBlocks segmentIndex now first rest ↔
      allEvents first rest ≠ [] ∧ headerBytes + pieces blockEvents (allEvents first rest).length * blockBytes < 2 ^ 32 :=
  ⟨fun h => h.lt ho hfit, fun h => .of_lt ho hfit h.1 h.2⟩

/-- Events with the ids `1, …, k`. -/
def countUp (k : ℕ) : List RequestEvent :=
  (List.range k).map fun i => { eventId := i + 1 }

theorem ordered_countUp (k : ℕ) : Ordered (countUp k) := by
  refine ⟨?_, ?_⟩
  · intro e he
    obtain ⟨i, -, rfl⟩ := List.mem_map.mp he
    exact Nat.succ_le_succ (Nat.zero_le i)
  · unfold countUp
    rw [List.pairwise_map]
    exact List.pairwise_lt_range.imp fun h => Nat.succ_lt_succ h

theorem length_countUp (k : ℕ) : (countUp k).length = k := by
  simp [countUp]

/-- Three events in two sessions, with a sum for a hash. -/
theorem round_trip_iff_two_sessions :
    let x : Hash := ⟨fun l s => l.foldl (fun a e => 31 * a + e.eventId.toUInt64) s, fun h => h.blockIndex.toUInt64,
      fun h => h.eventCount.toUInt64⟩
    RoundTrip x 16 0 7 ⟨countUp 2, 8⟩ [⟨[], 9⟩, ⟨[{ eventId := 5 }], 10⟩] := by
  intro x
  have ho : Ordered (allEvents ⟨countUp 2, 8⟩ [⟨[], 9⟩, ⟨[{ eventId := 5 }], 10⟩]) := ⟨by decide, by decide⟩
  exact (round_trip_iff x 16 0 7 _ _ ho (by decide)).mpr ⟨by decide, by decide⟩

theorem allEvents_single (s : Session) : allEvents s [] = s.events :=
  List.append_nil _

theorem no_round_trip_countUp {k : ℕ} (hle : k ≤ clampBlocks maxBlocks * blockEvents)
    (hge : 2 ^ 32 ≤ offsetOf (pieces blockEvents k)) :
    Ordered (allEvents ⟨countUp k, 0⟩ []) ∧
      (allEvents ⟨countUp k, 0⟩ []).length ≤ clampBlocks maxBlocks * blockEvents ∧
      ¬ ∃ x, RoundTrip x maxBlocks 0 0 ⟨countUp k, 0⟩ [] := by
  rw [allEvents_single, length_countUp]
  refine ⟨ordered_countUp k, hle, ?_⟩
  rintro ⟨x, h⟩
  have hlt := (h.lt (by rw [allEvents_single]; exact ordered_countUp k)
    (by rw [allEvents_single, length_countUp]; exact hle)).2
  rw [allEvents_single, length_countUp] at hlt
  omega

/-- A segment of 261124 full blocks is written, and no hash makes its reader give the events back. -/
theorem no_round_trip_beyond_32_bits :
    Ordered (allEvents ⟨countUp (261124 * blockEvents), 0⟩ []) ∧
      (allEvents ⟨countUp (261124 * blockEvents), 0⟩ []).length ≤ clampBlocks maxBlocks * blockEvents ∧
      ¬ ∃ x, RoundTrip x maxBlocks 0 0 ⟨countUp (261124 * blockEvents), 0⟩ [] :=
  no_round_trip_countUp (by decide) (by decide)

end Wirekrak.Wal

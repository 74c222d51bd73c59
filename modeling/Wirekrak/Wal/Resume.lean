import Wirekrak.Wal.Seek
import Wirekrak.Lib.Run
import Mathlib.Data.List.Sort

/-!
# Wirekrak.Wal.Resume — replaying the log from an event on

The recovery manager opens the segment of the target and reads it; the preloader, a thread of its own, opens the
segments behind it and hands them over through a ring.  `next` asks for the flag `preloading_done_` when a segment is
used up: with the flag and an empty ring it reports the end, else it waits for the ring.

The calls of the manager and the turns of the preloader are steps of one system.  The flag is only ever set, so that
asking for it and for the ring is one step: it is taken when the flag is seen unset, or when the ring is looked at.  The
ring of finished readers is left out: a reader in it is only closed.

* `Truthful`: the flag tells whether the preloader has segments left.
* `inv_step`: what the reader, the ring and the preloader have to give is what is left of the replay.
* `resume_exact`: the replay is exact and every call returns, in every run whose steps meet `Meets`.
-/

namespace Wirekrak.Wal.Recovery

open Wirekrak.Lib

variable (x : Hash)

/-! ## The manager and the preloader -/

/-- `MAX_PRELOADED_SEGMENTS` is 4; a ring holds one element less. -/
def maxPreloaded : ℕ := 3

structure WalSegmentInfo where
  file : File
  header : Header
  status : Except Status Unit

/-- An entry of `scan_segments_`; a file that is too short leaves the header as it was made. -/
def segmentInfo (f : File) : WalSegmentInfo where
  file := f
  header := if f.size < headerBytes then {} else f.header
  status := (readSegmentHeader x f).map (fun _ => ())

/-- The segments of a directory, sorted by their first event. -/
def scanSegments (dir : List File) : List WalSegmentInfo :=
  (dir.map (segmentInfo x)).insertionSort (fun a b => a.header.firstEventId ≤ b.header.firstEventId)

/-- What a call has returned. -/
inductive Reply
  | resumed (eventId : ℕ)
  | refused (st : Status)
  | event (ev : RequestEvent)
  | ended (st : Status)

/-- The preloader's thread: the segments from `next_index` on, and a reader it has opened and not yet pushed. -/
structure Worker where
  segments : List WalSegmentInfo
  inHand : Option SegmentReader := none

/-- Where the caller's thread is: in no call, or in `next` behind the end of a segment. -/
inductive Call
  | idle
  | exhausted
  | waiting
  | stopping
  deriving DecidableEq

structure Manager where
  segments : List WalSegmentInfo
  reader : Option SegmentReader := none
  currentSegmentIndex : ℕ := 0
  preparedRing : List SegmentReader := []
  worker : Option Worker := none
  stopRequested : Bool := false
  preloadingDone : Bool := false
  call : Call := .idle
  log : List Reply := []

namespace Manager

/-- The constructor and `initialize`. -/
def new (dir : List File) : Manager := { segments := scanSegments x dir }

def reply (r : Reply) (s : Manager) : Manager := { s with log := s.log ++ [r] }

/-- `SegmentPreloader::start`: not while the thread runs.  `preloading_done_` stays as it is. -/
def start (segments : List WalSegmentInfo) (s : Manager) : Manager :=
  if s.worker.isSome then s else { s with worker := some { segments := segments }, stopRequested := false }

/-- The first good segment that does not end before the event. -/
def locate (s : Manager) (eventId : ℕ) : Option ℕ :=
  s.segments.findIdx? (fun seg => seg.status.isOk && decide (eventId ≤ seg.header.lastEventId))

/-- The good segments behind a place. -/
def future (s : Manager) (i : ℕ) : List WalSegmentInfo := (s.segments.drop (i + 1)).filter (fun seg => seg.status.isOk)

/-- The end of `resume_from_event`: the preloader is started, and the segment is opened. -/
def openAt (f : File) (eventId : ℕ) (s : Manager) : Manager :=
  let segments := s.future s.currentSegmentIndex
  let s := if segments.isEmpty then s else s.start segments
  match SegmentReader.openSegment x f with
  | .error e => { s with reader := none }.reply (.refused e)
  | .ok rd =>
    match rd.seek eventId with
    | none => { s with reader := some rd.buildIndex }.reply (.refused .itemNotFound)
    | some rd => { s with reader := some rd }.reply (.resumed eventId)

/-- A reader from an earlier call is closed and then opened again: the search is skipped. -/
def resumeFromEvent (eventId : ℕ) (s : Manager) : Manager :=
  match s.reader with
  | some rd => s.openAt x rd.file eventId
  | none =>
    match s.locate eventId with
    | none => s.reply (.refused .itemNotFound)
    | some i =>
      match s.segments[i]? with
      | none => s
      | some seg => { s with currentSegmentIndex := i }.openAt x seg.file eventId

/-- `next`, up to the end of a segment. -/
def next (s : Manager) : Manager :=
  match s.reader with
  | none => s.reply (.ended .segmentNotFound)
  | some rd =>
    match rd.next with
    | (some ev, rd) => { s with reader := some rd }.reply (.event ev)
    | (none, _) => { s with reader := none, call := .exhausted }

/-- A segment is used up: is there another one? -/
def check (s : Manager) : Manager :=
  if s.preloadingDone = true ∧ s.preparedRing = [] then { s with stopRequested := true, call := .stopping }
  else { s with call := .waiting }

/-- The next segment is taken from the ring. -/
def popped (rd : SegmentReader) (ring : List SegmentReader) (s : Manager) : Manager :=
  let s := { s with preparedRing := ring, currentSegmentIndex := s.currentSegmentIndex + 1, call := .idle }
  match rd.next with
  | (some ev, rd) => { s with reader := some rd }.reply (.event ev)
  | (none, rd) => { s with reader := some rd }.reply (.ended .segmentNotFound)

/-- The preloader opens a segment; one that is not good is skipped. -/
def opened (seg : WalSegmentInfo) : Option SegmentReader :=
  if seg.status.isOk then
    match SegmentReader.openSegment x seg.file with
    | .ok rd => some rd
    | .error _ => none
  else none

end Manager

/-- A call, a step inside of one, or a step of the preloader. -/
inductive Act
  | resume (eventId : ℕ)
  | next
  | check
  | pop
  | join
  | load
  | push
  | drop
  | finish
  | exit

/-- No call. -/
def Act.Internal : Act → Prop
  | .resume _ => False
  | .next => False
  | _ => True

namespace Manager

/-- One step, if it can be taken. -/
def step (s : Manager) : Act → Option Manager
  | .resume eventId => if s.call = .idle then some (s.resumeFromEvent x eventId) else none
  | .next => if s.call = .idle then some s.next else none
  | .check => if s.call = .exhausted then some s.check else none
  | .pop =>
    match s.call, s.preparedRing with
    | .waiting, rd :: ring => some (s.popped rd ring)
    | _, _ => none
  | .join =>
    if s.call = .stopping ∧ s.worker.isNone then some ({ s with call := .idle }.reply (.ended .itemNotFound)) else none
  | .load =>
    match s.worker with
    | some ⟨seg :: segments, none⟩ =>
      if s.stopRequested = false ∧ s.preparedRing.length < maxPreloaded then
        some { s with worker := some ⟨segments, opened x seg⟩ }
      else none
    | _ => none
  | .push =>
    match s.worker with
    | some ⟨segments, some rd⟩ =>
      if s.preparedRing.length < maxPreloaded then
        some { s with worker := some ⟨segments, none⟩, preparedRing := s.preparedRing ++ [rd] }
      else none
    | _ => none
  | .drop =>
    match s.worker with
    | some ⟨segments, some _⟩ =>
      if s.stopRequested = true ∧ maxPreloaded ≤ s.preparedRing.length then
        some { s with worker := some ⟨segments, none⟩ }
      else none
    | _ => none
  | .finish =>
    match s.worker with
    | some ⟨[], none⟩ =>
      -- it is set in every turn from then on, which changes nothing
      if s.stopRequested = false ∧ s.preloadingDone = false then some { s with preloadingDone := true } else none
    | _ => none
  | .exit =>
    match s.worker with
    | some ⟨_, none⟩ => if s.stopRequested = true then some { s with worker := none } else none
    | _ => none

def Steps (s : Manager) (a : Act) (s' : Manager) : Prop := s.step x a = some s'

end Manager

/-! ## Directories and replays -/

/-- A segment and the events of its blocks. -/
structure Seg where
  file : File
  blocks : List (List RequestEvent)

def Seg.events (g : Seg) : List RequestEvent := g.blocks.flatten

/-- The segment can be opened, and its header tells the first and the last id. -/
structure Seg.Valid (g : Seg) : Prop where
  stores : Stores g.file g.blocks
  opens : ∃ rd, SegmentReader.openSegment x g.file = .ok rd
  first : g.file.header.firstEventId = firstId g.events
  last : g.file.header.lastEventId = lastId g.events

/-- `segment_size` has room for all blocks of the segment. -/
def Seg.Fits (g : Seg) : Prop := headerBytes + g.blocks.length * blockBytes < 2 ^ 32

/-- Valid segments, with ids that go up from one to the next. -/
structure ValidLog (segs : List Seg) : Prop where
  valid : ∀ g ∈ segs, g.Valid x
  increasing : (segs.flatMap Seg.events).Pairwise fun a b => a.eventId < b.eventId

/-- The stored events from an id on. -/
def eventsFrom (segs : List Seg) (eventId : ℕ) : List RequestEvent :=
  (segs.flatMap Seg.events).filter (fun e => decide (eventId ≤ e.eventId))

/-- The calls since the last `resume_from_event` that succeeded. -/
structure Replay where
  target : ℕ
  given : List RequestEvent := []
  ended : Bool := false

def Replay.add (r : Option Replay) : Reply → Option Replay
  | .resumed eventId => some { target := eventId }
  | .refused _ => none
  | .event ev => r.map (fun r => { r with given := r.given ++ [ev] })
  | .ended _ => r.map (fun r => { r with ended := true })

def replay (log : List Reply) : Option Replay := log.foldl Replay.add none

/-- **Exactness**: the events given are the first ones from the target on, and the end is reported behind the last. -/
def Exact (segs : List Seg) (log : List Reply) : Prop :=
  ∀ r, replay log = some r → r.given <+: eventsFrom segs r.target ∧
    (r.ended = true → r.given = eventsFrom segs r.target)

namespace Manager

/-- Nothing is left with the preloader. -/
def Drained (s : Manager) : Prop := s.worker.all (fun w => w.segments.isEmpty && w.inHand.isNone) = true

instance (s : Manager) : Decidable s.Drained := inferInstanceAs (Decidable (_ = true))

/-- With an empty ring, the flag tells whether the preloader has segments left. -/
def Truthful (s : Manager) : Prop := s.preparedRing.isEmpty = true → (s.preloadingDone = true ↔ s.Drained)

instance (s : Manager) : Decidable s.Truthful := inferInstanceAs (Decidable (_ → _))

/-- The event is in the last good segment. -/
def InLast (s : Manager) (eventId : ℕ) : Prop := (s.locate eventId).map (fun i => (s.future i).isEmpty) = some true

instance (s : Manager) (eventId : ℕ) : Decidable (s.InLast eventId) := inferInstanceAs (Decidable (_ = _))

/-- The condition on a step.  A new target is in the segment that is being read, if there is one; without a preloader
and a segment for it the flag is set; and the flag is true when `next` asks for it. -/
def Meets (s : Manager) : Act → Prop
  | .resume eventId => (s.reader.isSome = true → s.locate eventId = some s.currentSegmentIndex) ∧
    (s.worker.isNone = true → s.InLast eventId → s.preloadingDone = true)
  | .check => s.Truthful
  | _ => True

instance (s : Manager) : ∀ a : Act, Decidable (s.Meets a)
  | .resume _ => inferInstanceAs (Decidable ((_ → _) ∧ (_ → _ → _)))
  | .check => inferInstanceAs (Decidable s.Truthful)
  | .next | .pop | .join | .load | .push | .drop | .finish | .exit => inferInstanceAs (Decidable True)

/-- **Every schedule** that meets the condition lets the call return. -/
def Returns (s : Manager) : Prop :=
  Inevitable (fun s a s' => a.Internal ∧ s.Meets a ∧ s.Steps x a s') (fun s => s.call = .idle) s

end Manager

/-! ## Valid segments -/

section Valid

variable {x} {g : Seg} {segs : List Seg}

/-- A reader at the beginning of a segment. -/
def Reads (rd : SegmentReader) (g : Seg) : Prop := rd.file = g.file ∧ rd.Yields g.events

theorem readSegmentHeader_of_open {f : File} {rd : SegmentReader} (h : SegmentReader.openSegment x f = .ok rd) :
    headerBytes ≤ f.size ∧ readSegmentHeader x f = .ok f.header := by
  unfold SegmentReader.openSegment at h
  by_cases hsize : f.size < headerBytes
  · rw [if_pos hsize] at h
    cases h
  · rw [if_neg hsize] at h
    unfold readSegmentHeader
    rw [if_neg hsize]
    unfold verifyFullSegmentIntegrity at h
    cases hv : f.header.verify x with
    | error e => rw [hv] at h; cases h
    | ok u => exact ⟨by omega, rfl⟩

namespace Seg.Valid

variable (h : g.Valid x)

include h

theorem info_eq : segmentInfo x g.file = ⟨g.file, g.file.header, .ok ()⟩ := by
  obtain ⟨rd, hrd⟩ := h.opens
  obtain ⟨hsize, hread⟩ := readSegmentHeader_of_open hrd
  unfold segmentInfo
  rw [hread, if_neg (by omega)]
  rfl

theorem info_ok : (segmentInfo x g.file).status.isOk = true := by
  rw [h.info_eq]
  rfl

theorem events_ne_nil : g.events ≠ [] := by
  obtain ⟨rd, hrd⟩ := h.opens
  have hpos := (SegmentReader.stands_openSegment hrd).lt
  obtain ⟨es, hes, hb⟩ := h.stores.exists_get (lt_of_lt_of_le hpos h.stores.visible_le)
  intro hnil
  exact hb.nonempty (List.flatten_eq_nil_iff.mp hnil es (List.mem_of_getElem? hes))

theorem le_last {e : RequestEvent} (he : e ∈ g.events) : e.eventId ≤ g.file.header.lastEventId := by
  rw [h.last]
  exact le_lastId h.stores.increasing he

theorem exists_last : ∃ e ∈ g.events, g.file.header.lastEventId = e.eventId := by
  rw [h.last]
  exact lastId_mem h.events_ne_nil

theorem exists_first : ∃ e ∈ g.events, g.file.header.firstEventId = e.eventId := by
  rw [h.first]
  obtain ⟨e, he, hfirst⟩ := firstId_mem h.events_ne_nil
  exact ⟨e, List.mem_of_getElem? he, hfirst⟩

theorem visible_eq (hfit : g.Fits) : g.blocks.take (visible g.file.header.segmentSize) = g.blocks := by
  have hsize : g.file.header.segmentSize = offsetOf g.blocks.length := by
    unfold Header.segmentSize offsetOf
    rw [h.stores.count, Nat.mod_eq_of_lt hfit]
  refine List.take_of_length_le ?_
  rw [hsize]
  by_contra hlt
  cases hn : g.blocks.length with
  | zero => rw [hn] at hlt; omega
  | succ n =>
    rw [hn] at hlt
    have hvis := offsetOf_succ_le_iff.mp (le_refl (offsetOf (n + 1)))
    omega

/-- The segment is opened. -/
theorem reads_open (hfit : g.Fits) : ∃ rd, SegmentReader.openSegment x g.file = .ok rd ∧ Reads rd g := by
  obtain ⟨rd, hrd⟩ := h.opens
  have hy := SegmentReader.yields_openSegment h.stores hrd
  rw [h.visible_eq hfit] at hy
  exact ⟨rd, hrd, (SegmentReader.stands_openSegment hrd).file, hy⟩

/-- The segment is opened and looked through for an event that is not behind its end. -/
theorem seek_open (hfit : g.Fits) {t : ℕ} (ht : t ≤ g.file.header.lastEventId) :
    ∃ rd rd', SegmentReader.openSegment x g.file = .ok rd ∧ rd.seek t = some rd' ∧ rd'.file = g.file ∧
      rd'.Yields (g.events.filter (fun e => decide (t ≤ e.eventId))) := by
  obtain ⟨rd, hrd⟩ := h.opens
  obtain ⟨e, he, hlast⟩ := h.exists_last
  have hvis := h.visible_eq hfit
  have hmem : e ∈ (g.blocks.take (visible g.file.header.segmentSize)).flatten := by
    rw [hvis]
    exact he
  obtain ⟨rd', hseek, hfile, hy⟩ :=
    (SegmentReader.stands_openSegment hrd).toReading.seek_yields h.stores hmem (hlast ▸ ht)
  rw [hvis] at hy
  exact ⟨rd, rd', hrd, hseek, hfile, hy⟩

end Seg.Valid

/-- What a scan finds. -/
def infos (x : Hash) (segs : List Seg) : List WalSegmentInfo := segs.map (fun g => segmentInfo x g.file)

namespace ValidLog

variable (h : ValidLog x segs)

include h

/-- The segments are one behind the other. -/
theorem pairwise : segs.Pairwise fun g g' => ∀ a ∈ g.events, ∀ b ∈ g'.events, a.eventId < b.eventId :=
  (List.pairwise_flatMap.mp h.increasing).2

theorem pairwise_first : (infos x segs).Pairwise fun a b => a.header.firstEventId < b.header.firstEventId := by
  unfold infos
  rw [List.pairwise_map]
  refine h.pairwise.imp_of_mem (fun {g g'} hg hg' hlt => ?_)
  rw [(h.valid g hg).info_eq, (h.valid g' hg').info_eq]
  obtain ⟨a, ha, h1⟩ := (h.valid g hg).exists_first
  obtain ⟨b, hb, h2⟩ := (h.valid g' hg').exists_first
  dsimp only
  rw [h1, h2]
  exact hlt a ha b hb

/-- **The scan** finds the segments in the order of their events, in whatever order the directory lists them. -/
theorem scanSegments_eq {dir : List File} (hdir : dir.Perm (segs.map Seg.file)) : scanSegments x dir = infos x segs := by
  unfold scanSegments
  have hperm : (dir.map (segmentInfo x)).Perm (infos x segs) := by
    unfold infos
    rw [← Function.comp_def (segmentInfo x), ← List.map_map]
    exact hdir.map _
  have hfirst := h.pairwise_first
  have hnd : ((infos x segs).map (fun a => a.header.firstEventId)).Nodup := by
    rw [List.Nodup, List.pairwise_map]
    exact hfirst.imp (fun hlt => hlt.ne)
  refine ((List.perm_insertionSort _ _).trans hperm).eq_of_pairwise (fun a b ha hb hab hba => ?_)
    (List.pairwise_insertionSort _ _) (hfirst.imp (fun hlt => hlt.le))
  have ha' := ((List.perm_insertionSort _ _).trans hperm).subset ha
  exact List.inj_on_of_nodup_map hnd ha' hb (le_antisymm hab hba)

theorem filter_ok : (infos x segs).filter (fun seg => seg.status.isOk) = infos x segs := by
  rw [List.filter_eq_self]
  intro seg hseg
  obtain ⟨g, hg, rfl⟩ := List.mem_map.mp hseg
  exact (h.valid g hg).info_ok

/-- **The events from a target on**: those of its segment, and the later segments. -/
theorem eventsFrom_eq {i t : ℕ} {g : Seg} (hg : segs[i]? = some g) (ht : t ≤ g.file.header.lastEventId)
    (hbefore : ∀ j g', j < i → segs[j]? = some g' → g'.file.header.lastEventId < t) :
    eventsFrom segs t = g.events.filter (fun e => decide (t ≤ e.eventId)) ++
      (segs.drop (i + 1)).flatMap Seg.events := by
  obtain ⟨hi, rfl⟩ := List.getElem?_eq_some_iff.mp hg
  have hsplit : segs = segs.take i ++ segs[i] :: segs.drop (i + 1) := by
    rw [← List.drop_eq_getElem_cons hi, List.take_append_drop]
  have hpair := h.pairwise
  obtain ⟨e, he, hlast⟩ := (h.valid _ (List.getElem_mem hi)).exists_last
  have hold : ((segs.take i).flatMap Seg.events).filter (fun e => decide (t ≤ e.eventId)) = [] := by
    rw [List.filter_eq_nil_iff]
    intro b hb
    obtain ⟨g', hg', hb'⟩ := List.mem_flatMap.mp hb
    obtain ⟨j, hj⟩ := List.mem_iff_getElem?.mp hg'
    rw [List.getElem?_take] at hj
    split_ifs at hj with hji
    have h1 := hbefore j g' hji hj
    have h2 := (h.valid g' (List.mem_of_getElem? hj)).le_last hb'
    rw [decide_eq_true_iff]
    omega
  have hnew : ((segs.drop (i + 1)).flatMap Seg.events).filter (fun e => decide (t ≤ e.eventId)) =
      (segs.drop (i + 1)).flatMap Seg.events := by
    rw [List.filter_eq_self]
    intro b hb
    obtain ⟨g', hg', hb'⟩ := List.mem_flatMap.mp hb
    rw [hsplit, List.pairwise_append] at hpair
    have hlt := (List.pairwise_cons.mp hpair.2.1).1 g' hg' e he b hb'
    rw [decide_eq_true_iff]
    omega
  unfold eventsFrom
  conv_lhs => rw [hsplit]
  rw [List.flatMap_append, List.flatMap_cons, List.filter_append, List.filter_append, hold, hnew, List.nil_append]

end ValidLog

theorem replay_concat (log : List Reply) (r : Reply) : replay (log ++ [r]) = Replay.add (replay log) r := by
  unfold replay
  rw [List.foldl_append]
  rfl

end Valid

/-! ## What a run keeps -/

namespace Manager

/-- The reader the preloader has in hand. -/
def inHand (s : Manager) : List SegmentReader :=
  match s.worker with
  | some w => w.inHand.toList
  | none => []

/-- The segments the preloader has not opened yet. -/
def todo (s : Manager) : List WalSegmentInfo :=
  match s.worker with
  | some w => w.segments
  | none => []

theorem drained_iff {s : Manager} : s.Drained ↔ s.inHand = [] ∧ s.todo = [] := by
  unfold Drained inHand todo
  cases s.worker with
  | none => simp
  | some w =>
    obtain ⟨segments, hand⟩ := w
    cases hand <;> simp

/-- The ring, the hand of the preloader and its list are these segments, in this order. -/
def Supplies (s : Manager) (L : List Seg) : Prop :=
  ∃ A B C, L = A ++ (B ++ C) ∧ List.Forall₂ Reads s.preparedRing A ∧ List.Forall₂ Reads s.inHand B ∧
    s.todo = infos x C

theorem Supplies.nil_iff {x : Hash} {s : Manager} {L : List Seg} (h : s.Supplies x L) :
    L = [] ↔ s.preparedRing = [] ∧ s.Drained := by
  obtain ⟨A, B, C, rfl, hA, hB, hC⟩ := h
  rw [drained_iff, hC, List.append_eq_nil_iff, List.append_eq_nil_iff]
  unfold infos
  rw [List.map_eq_nil_iff]
  constructor
  · rintro ⟨rfl, rfl, rfl⟩
    exact ⟨List.forall₂_nil_right_iff.mp hA, List.forall₂_nil_right_iff.mp hB, rfl⟩
  · rintro ⟨h1, h2, rfl⟩
    rw [h1] at hA
    rw [h2] at hB
    exact ⟨List.forall₂_nil_left_iff.mp hA, List.forall₂_nil_left_iff.mp hB, rfl⟩

variable (segs : List Seg)

/-- The segments behind the current one. -/
def later (s : Manager) : List Seg := segs.drop (s.currentSegmentIndex + 1)

/-- A replay is under way; `es` is left of the current segment. -/
structure Underway (s : Manager) (es : List RequestEvent) : Prop where
  supplies : s.Supplies x (s.later segs)
  running : s.worker ≠ none → s.stopRequested = false
  alone : s.worker = none → s.later segs = [] ∧ s.preloadingDone = true
  replay : ∀ r, replay s.log = some r → r.ended = false ∧
    eventsFrom segs r.target = r.given ++ (es ++ (s.later segs).flatMap Seg.events)

/-- A replay is over, or there was none. -/
structure Over (s : Manager) : Prop where
  reader : s.reader = none
  ring : s.preparedRing = []
  drained : s.Drained
  replay : ∀ r, replay s.log = some r → r.given = eventsFrom segs r.target

/-- The phases of a replay. -/
inductive Phase (s : Manager) : Prop
  | rest (hc : s.call = .idle) (hw : s.worker = none) (ho : s.Over segs)
  | reading {rd : SegmentReader} {g : Seg} {es : List RequestEvent} (hc : s.call = .idle) (hr : s.reader = some rd)
      (hg : segs[s.currentSegmentIndex]? = some g) (hf : rd.file = g.file) (hy : rd.Yields es)
      (hu : s.Underway x segs es)
  | exhausted (hc : s.call = .exhausted) (hr : s.reader = none) (hu : s.Underway x segs [])
  | waiting (hc : s.call = .waiting) (hr : s.reader = none) (hu : s.Underway x segs []) (hne : s.later segs ≠ [])
  | stopping (hc : s.call = .stopping) (ho : s.Over segs) (hs : s.stopRequested = true)

structure Inv (s : Manager) : Prop where
  segments : s.segments = infos x segs
  phase : s.Phase x segs

variable {x segs} {s s' : Manager} {es : List RequestEvent}

theorem Phase.of_exhausted (h : s.Phase x segs) (hc : s.call = .exhausted) : s.reader = none ∧ s.Underway x segs [] := by
  cases h with
  | exhausted _ hr hu => exact ⟨hr, hu⟩
  | rest hc' _ _ => rw [hc] at hc'; cases hc'
  | reading hc' _ _ _ _ _ => rw [hc] at hc'; cases hc'
  | waiting hc' _ _ _ => rw [hc] at hc'; cases hc'
  | stopping hc' _ _ => rw [hc] at hc'; cases hc'

theorem Phase.of_waiting (h : s.Phase x segs) (hc : s.call = .waiting) :
    s.Underway x segs [] ∧ s.later segs ≠ [] := by
  cases h with
  | waiting _ _ hu hne => exact ⟨hu, hne⟩
  | rest hc' _ _ => rw [hc] at hc'; cases hc'
  | reading hc' _ _ _ _ _ => rw [hc] at hc'; cases hc'
  | exhausted hc' _ _ => rw [hc] at hc'; cases hc'
  | stopping hc' _ _ => rw [hc] at hc'; cases hc'

theorem Phase.of_stopping (h : s.Phase x segs) (hc : s.call = .stopping) : s.Over segs ∧ s.stopRequested = true := by
  cases h with
  | stopping _ ho hs => exact ⟨ho, hs⟩
  | rest hc' _ _ => rw [hc] at hc'; cases hc'
  | reading hc' _ _ _ _ _ => rw [hc] at hc'; cases hc'
  | exhausted hc' _ _ => rw [hc] at hc'; cases hc'
  | waiting hc' _ _ _ => rw [hc] at hc'; cases hc'

theorem Phase.of_idle (h : s.Phase x segs) (hc : s.call = .idle) : (s.worker = none ∧ s.Over segs) ∨
    ∃ rd g es, s.reader = some rd ∧ segs[s.currentSegmentIndex]? = some g ∧ rd.file = g.file ∧ rd.Yields es ∧
      s.Underway x segs es := by
  cases h with
  | rest _ hw ho => exact .inl ⟨hw, ho⟩
  | reading _ hr hg hf hy hu => exact .inr ⟨_, _, _, hr, hg, hf, hy, hu⟩
  | exhausted hc' _ _ => rw [hc] at hc'; cases hc'
  | waiting hc' _ _ _ => rw [hc] at hc'; cases hc'
  | stopping hc' _ _ => rw [hc] at hc'; cases hc'

theorem Underway.exact (h : s.Underway x segs es) : Exact segs s.log := by
  intro r hr
  obtain ⟨hend, hev⟩ := h.replay r hr
  refine ⟨⟨_, hev.symm⟩, fun hc => ?_⟩
  rw [hend] at hc
  cases hc

theorem Over.exact (h : s.Over segs) : Exact segs s.log := by
  intro r hr
  have hgiven := h.replay r hr
  exact ⟨by rw [hgiven], fun _ => hgiven⟩

theorem Inv.exact (h : s.Inv x segs) : Exact segs s.log := by
  cases h.phase with
  | rest _ _ ho => exact ho.exact
  | reading _ _ _ _ _ hu => exact hu.exact
  | exhausted _ _ hu => exact hu.exact
  | waiting _ _ hu _ => exact hu.exact
  | stopping _ ho _ => exact ho.exact

theorem inv_new (hlog : ValidLog x segs) {dir : List File} (hdir : dir.Perm (segs.map Seg.file)) :
    (new x dir).Inv x segs := by
  refine ⟨hlog.scanSegments_eq hdir, .rest rfl rfl ⟨rfl, rfl, rfl, fun r hr => ?_⟩⟩
  cases hr

/-! ## The turns of the preloader -/

variable (x) in
/-- What a step of the preloader does. -/
inductive Turn (s : Manager) : Manager → Prop
  | load {seg : WalSegmentInfo} {segments : List WalSegmentInfo} (hw : s.worker = some ⟨seg :: segments, none⟩)
      (hs : s.stopRequested = false) : Turn s { s with worker := some ⟨segments, opened x seg⟩ }
  | push {rd : SegmentReader} {segments : List WalSegmentInfo} (hw : s.worker = some ⟨segments, some rd⟩) :
      Turn s { s with worker := some ⟨segments, none⟩, preparedRing := s.preparedRing ++ [rd] }
  | drop {rd : SegmentReader} {segments : List WalSegmentInfo} (hw : s.worker = some ⟨segments, some rd⟩)
      (hs : s.stopRequested = true) : Turn s { s with worker := some ⟨segments, none⟩ }
  | finish (hw : s.worker = some ⟨[], none⟩) (hs : s.stopRequested = false) (hd : s.preloadingDone = false) :
      Turn s { s with preloadingDone := true }
  | exit {segments : List WalSegmentInfo} (hw : s.worker = some ⟨segments, none⟩) (hs : s.stopRequested = true) :
      Turn s { s with worker := none }

/-- **Inside a call** the caller's thread asks for a segment, takes one or waits for the preloader to stop; or the
preloader takes a turn. -/
theorem steps_cases {a : Act} (h : s.Steps x a s') (ha : a.Internal) :
    (a = .check ∧ s.call = .exhausted ∧ s' = s.check) ∨
    (∃ rd ring, s.call = .waiting ∧ s.preparedRing = rd :: ring ∧ s' = s.popped rd ring) ∨
    (s.call = .stopping ∧ s.worker = none ∧ s' = { s with call := .idle }.reply (.ended .itemNotFound)) ∨
    s.Turn x s' := by
  unfold Steps step at h
  cases a with
  | resume eventId => cases ha
  | next => cases ha
  | check =>
    dsimp only at h
    split_ifs at h with hc
    cases h
    exact .inl ⟨rfl, hc, rfl⟩
  | pop =>
    dsimp only at h
    split at h
    · next hc hring =>
      cases h
      exact .inr (.inl ⟨_, _, hc, hring, rfl⟩)
    · cases h
  | join =>
    dsimp only at h
    split_ifs at h with hc
    cases h
    exact .inr (.inr (.inl ⟨hc.1, Option.isNone_iff_eq_none.mp hc.2, rfl⟩))
  | load =>
    dsimp only at h
    split at h
    · next hw =>
      split_ifs at h with hc
      cases h
      exact .inr (.inr (.inr (.load hw hc.1)))
    · cases h
  | push =>
    dsimp only at h
    split at h
    · next hw =>
      split_ifs at h with hc
      cases h
      exact .inr (.inr (.inr (.push hw)))
    · cases h
  | drop =>
    dsimp only at h
    split at h
    · next hw =>
      split_ifs at h with hc
      cases h
      exact .inr (.inr (.inr (.drop hw hc.1)))
    · cases h
  | finish =>
    dsimp only at h
    split at h
    · next hw =>
      split_ifs at h with hc
      cases h
      exact .inr (.inr (.inr (.finish hw hc.1 hc.2)))
    · cases h
  | exit =>
    dsimp only at h
    split at h
    · next hw =>
      split_ifs at h with hc
      cases h
      exact .inr (.inr (.inr (.exit hw hc)))
    · cases h

/-- The preloader leaves the caller's side alone. -/
theorem Turn.frame (h : s.Turn x s') : s'.call = s.call ∧ s'.reader = s.reader ∧ s'.segments = s.segments ∧
    s'.currentSegmentIndex = s.currentSegmentIndex ∧ s'.log = s.log ∧ s'.stopRequested = s.stopRequested := by
  cases h <;> exact ⟨rfl, rfl, rfl, rfl, rfl, rfl⟩

section Valid

variable (hlog : ValidLog x segs) (hfit : ∀ g ∈ segs, g.Fits)

include hlog hfit

/-- The preloader hands the segments on in their order. -/
theorem Supplies.turn {L : List Seg} (hL : ∀ g ∈ L, g ∈ segs) (h : s.Supplies x L) (hrun : s.stopRequested = false)
    (ht : s.Turn x s') : s'.Supplies x L := by
  obtain ⟨A, B, C, rfl, hA, hB, hC⟩ := h
  cases ht with
  | load hw hs =>
    rename_i seg segments
    unfold inHand at hB
    unfold todo at hC
    rw [hw] at hB hC
    obtain rfl := List.forall₂_nil_left_iff.mp hB
    cases C with
    | nil => cases hC
    | cons g C =>
      obtain ⟨hseg, hrest⟩ := List.cons.inj hC
      have hg : g ∈ segs := hL g (by simp)
      obtain ⟨rd, hopen, hreads⟩ := (hlog.valid g hg).reads_open (hfit g hg)
      have hopened : opened x seg = some rd := by
        unfold opened
        rw [hseg, if_pos (hlog.valid g hg).info_ok]
        show (match SegmentReader.openSegment x g.file with
          | .ok rd => some rd
          | .error _ => none) = some rd
        rw [hopen]
      refine ⟨A, [g], C, rfl, hA, ?_, hrest⟩
      show List.Forall₂ Reads (opened x seg).toList [g]
      rw [hopened]
      exact .cons hreads .nil
  | push hw =>
    rename_i rd segments
    unfold inHand at hB
    unfold todo at hC
    rw [hw] at hB hC
    cases hB with
    | cons hrd hnil =>
      rename_i g B
      obtain rfl := List.forall₂_nil_left_iff.mp hnil
      refine ⟨A ++ [g], [], C, by simp, ?_, .nil, hC⟩
      exact List.rel_append hA (.cons hrd .nil)
  | drop hw hs =>
    rw [hrun] at hs
    cases hs
  | finish hw hs hd => exact ⟨A, B, C, rfl, hA, hB, hC⟩
  | exit hw hs =>
    rw [hrun] at hs
    cases hs

theorem Underway.turn (h : s.Underway x segs es) (ht : s.Turn x s') : s'.Underway x segs es := by
  have hsome : s.worker ≠ none := by
    intro hn
    cases ht with
    | load hw _ => rw [hn] at hw; cases hw
    | push hw => rw [hn] at hw; cases hw
    | drop hw _ => rw [hn] at hw; cases hw
    | finish hw _ _ => rw [hn] at hw; cases hw
    | exit hw _ => rw [hn] at hw; cases hw
  have hrun := h.running hsome
  obtain ⟨-, -, -, hidx, hl, hstop⟩ := ht.frame
  have hlater : s'.later segs = s.later segs := by
    unfold later
    rw [hidx]
  refine ⟨?_, fun _ => hstop.trans hrun, fun hn => ?_, ?_⟩
  · rw [hlater]
    exact h.supplies.turn hlog hfit (fun g hg => List.mem_of_mem_drop hg) hrun ht
  · exfalso
    cases ht with
    | load => cases hn
    | push => cases hn
    | drop => cases hn
    | finish hw _ _ => exact hsome hn
    | exit _ hs => rw [hrun] at hs; cases hs
  · rw [hl, hlater]
    exact h.replay

end Valid

/-- A preloader that has nothing left and is to stop only stops. -/
theorem Over.turn (h : s.Over segs) (hs : s.stopRequested = true) (ht : s.Turn x s') : s'.Over segs := by
  obtain ⟨hhand, htodo⟩ := drained_iff.mp h.drained
  unfold inHand at hhand
  unfold todo at htodo
  cases ht with
  | load hw hs' =>
    rw [hs] at hs'
    cases hs'
  | push hw =>
    rw [hw] at hhand
    cases hhand
  | drop hw _ =>
    rw [hw] at hhand
    cases hhand
  | finish hw hs' _ =>
    rw [hs] at hs'
    cases hs'
  | exit hw _ => exact ⟨h.reader, h.ring, rfl, h.replay⟩

/-! ## The steps of the caller -/

/-- An event is given. -/
theorem replay_event {log : List Reply} {left : List RequestEvent} {ev : RequestEvent}
    (h : ∀ r, replay log = some r → r.ended = false ∧ eventsFrom segs r.target = r.given ++ ev :: left) :
    ∀ r, replay (log ++ [.event ev]) = some r → r.ended = false ∧ eventsFrom segs r.target = r.given ++ left := by
  intro r hr
  rw [replay_concat] at hr
  obtain ⟨r0, hr0, rfl⟩ := Option.map_eq_some_iff.mp hr
  obtain ⟨hend, hev⟩ := h r0 hr0
  refine ⟨hend, ?_⟩
  dsimp only
  rw [hev, List.append_assoc]
  rfl

theorem replay_ended {log : List Reply} {st : Status} (h : ∀ r, replay log = some r → r.given = eventsFrom segs r.target) :
    ∀ r, replay (log ++ [.ended st]) = some r → r.given = eventsFrom segs r.target := by
  intro r hr
  rw [replay_concat] at hr
  obtain ⟨r0, hr0, rfl⟩ := Option.map_eq_some_iff.mp hr
  exact h r0 hr0

/-- **The end of a segment**: with a truthful flag `next` waits exactly if there is a later one. -/
theorem phase_check (hr : s.reader = none) (hu : s.Underway x segs []) (ht : s.Truthful) : s.check.Phase x segs := by
  have hnil := hu.supplies.nil_iff
  unfold Truthful at ht
  rw [List.isEmpty_iff] at ht
  unfold check
  split_ifs with hc
  · have hdr := (ht hc.2).mp hc.1
    refine .stopping rfl ⟨hr, hc.2, hdr, fun r hrep => ?_⟩ rfl
    obtain ⟨-, hev⟩ := hu.replay r hrep
    rw [hnil.mpr ⟨hc.2, hdr⟩] at hev
    simpa using hev.symm
  · refine .waiting rfl hr ⟨hu.supplies, hu.running, hu.alone, hu.replay⟩ (fun hl => hc ?_)
    obtain ⟨hring, hdr⟩ := hnil.mp hl
    exact ⟨(ht hring).mpr hdr, hring⟩

/-- **The next segment** is the one behind the current one. -/
theorem phase_popped (hlog : ValidLog x segs) {rd : SegmentReader} {ring : List SegmentReader}
    (hu : s.Underway x segs []) (hring : s.preparedRing = rd :: ring) : (s.popped rd ring).Phase x segs := by
  obtain ⟨A, B, C, hL, hA, hB, hC⟩ := hu.supplies
  rw [hring] at hA
  cases hA with
  | cons hrd hA =>
    rename_i g A
    obtain ⟨hfile, hy⟩ := hrd
    have hget : segs[s.currentSegmentIndex + 1]? = some g := by
      rw [← List.getElem?_drop (j := 0)]
      change (s.later segs)[0]? = some g
      rw [hL]
      rfl
    have hlater : segs.drop (s.currentSegmentIndex + 1 + 1) = A ++ (B ++ C) := by
      rw [← List.drop_drop]
      change (s.later segs).drop 1 = _
      rw [hL]
      rfl
    have hreplay := hu.replay
    rw [hL, List.nil_append, List.cons_append, List.flatMap_cons] at hreplay
    cases hev : g.events with
    | nil => exact absurd hev (hlog.valid g (List.mem_of_getElem? hget)).events_ne_nil
    | cons ev es =>
      rw [hev] at hy hreplay
      have hnext : rd.next = (some ev, rd.next.2) := Prod.ext hy.1 rfl
      unfold popped
      rw [hnext]
      dsimp only
      refine .reading rfl rfl hget (rd.next_kept.1.trans hfile) hy.2 ⟨?_, hu.running, fun hn => ?_, ?_⟩
      · exact ⟨A, B, C, hlater, hA, hB, hC⟩
      · have hnil := (hu.alone hn).1
        rw [hL] at hnil
        cases hnil
      · change ∀ r, replay (s.log ++ [.event ev]) = some r → r.ended = false ∧ eventsFrom segs r.target =
          r.given ++ (es ++ (segs.drop (s.currentSegmentIndex + 1 + 1)).flatMap Seg.events)
        rw [hlater]
        exact replay_event hreplay

/-- `next` gives the event the reader stands before; at the end of the segment it goes on to ask for another one. -/
theorem phase_next (h : s.Phase x segs) (hc : s.call = .idle) : s.next.Phase x segs := by
  unfold next
  obtain ⟨hw, ho⟩ | ⟨rd, g, es, hr, hg, hf, hy, hu⟩ := h.of_idle hc
  · rw [ho.reader]
    exact .rest hc hw ⟨ho.reader, ho.ring, ho.drained, replay_ended ho.replay⟩
  · rw [hr]
    cases es with
    | nil =>
      have hnext : rd.next = (none, rd.next.2) := Prod.ext hy rfl
      dsimp only
      rw [hnext]
      exact .exhausted rfl rfl ⟨hu.supplies, hu.running, hu.alone, hu.replay⟩
    | cons ev es =>
      have hnext : rd.next = (some ev, rd.next.2) := Prod.ext hy.1 rfl
      dsimp only
      rw [hnext]
      exact .reading hc rfl hg (rd.next_kept.1.trans hf) hy.2
        ⟨hu.supplies, hu.running, hu.alone, replay_event hu.replay⟩

/-! ## A new target -/

section Resume

variable (hlog : ValidLog x segs) {eventId i : ℕ}

include hlog

theorem locate_eq (hs : s.segments = infos x segs) (hi : s.locate eventId = some i) :
    ∃ g, segs[i]? = some g ∧ s.segments[i]? = some (segmentInfo x g.file) ∧ eventId ≤ g.file.header.lastEventId ∧
      ∀ j g', j < i → segs[j]? = some g' → g'.file.header.lastEventId < eventId := by
  unfold locate at hi
  rw [hs] at hi ⊢
  have hgood : ∀ g ∈ segs, ((segmentInfo x g.file).status.isOk &&
      decide (eventId ≤ (segmentInfo x g.file).header.lastEventId)) = decide (eventId ≤ g.file.header.lastEventId) := by
    intro g hg
    rw [(hlog.valid g hg).info_eq]
    rfl
  obtain ⟨hlt, hsat, hbefore⟩ := List.findIdx?_eq_some_iff_getElem.mp hi
  unfold infos at hlt hsat hbefore ⊢
  rw [List.length_map] at hlt
  rw [List.getElem_map, hgood _ (List.getElem_mem hlt)] at hsat
  refine ⟨segs[i], List.getElem?_eq_getElem hlt, ?_, of_decide_eq_true hsat, fun j g' hj hg' => ?_⟩
  · rw [List.getElem?_map, List.getElem?_eq_getElem hlt]
    rfl
  · obtain ⟨hj', rfl⟩ := List.getElem?_eq_some_iff.mp hg'
    have hno := hbefore j hj
    rw [List.getElem_map, hgood _ (List.getElem_mem hj')] at hno
    simpa using hno

theorem future_eq (hs : s.segments = infos x segs) (i : ℕ) : s.future i = infos x (segs.drop (i + 1)) := by
  have hdrop : ValidLog x (segs.drop (i + 1)) :=
    ⟨fun g hg => hlog.valid g (List.mem_of_mem_drop hg), hlog.increasing.sublist ((List.drop_sublist _ _).flatMap _)⟩
  rw [← hdrop.filter_ok]
  unfold future infos
  rw [hs, List.map_drop]
  rfl

/-- The reader is opened in the segment of the target. -/
theorem phase_opened (hfit : ∀ g ∈ segs, g.Fits) {g : Seg} (hc : s.call = .idle)
    (hg : segs[s.currentSegmentIndex]? = some g) (ht : eventId ≤ g.file.header.lastEventId)
    (hbefore : ∀ j g', j < s.currentSegmentIndex → segs[j]? = some g' → g'.file.header.lastEventId < eventId)
    (hsup : s.Supplies x (s.later segs)) (hrun : s.worker ≠ none → s.stopRequested = false)
    (halone : s.worker = none → s.later segs = [] ∧ s.preloadingDone = true) :
    ∃ rd rd', SegmentReader.openSegment x g.file = .ok rd ∧ rd.seek eventId = some rd' ∧
      ({ s with reader := some rd' }.reply (.resumed eventId)).Phase x segs := by
  have hmem := List.mem_of_getElem? hg
  obtain ⟨rd, rd', hopen, hseek, hfile, hy⟩ := (hlog.valid g hmem).seek_open (hfit g hmem) ht
  refine ⟨rd, rd', hopen, hseek, .reading hc rfl hg hfile hy ⟨hsup, hrun, halone, fun r hr => ?_⟩⟩
  rw [show (reply (.resumed eventId) { s with reader := some rd' }).log = s.log ++ [.resumed eventId] from rfl,
    replay_concat] at hr
  cases hr
  exact ⟨rfl, hlog.eventsFrom_eq hg ht hbefore⟩

/-- The preloader, when the segment of the target is to be opened. -/
def started (s : Manager) : Manager :=
  if (s.future s.currentSegmentIndex).isEmpty then s else s.start (s.future s.currentSegmentIndex)

omit hlog in
theorem openAt_eq {f : File} {rd rd' : SegmentReader} (hopen : SegmentReader.openSegment x f = .ok rd)
    (hseek : rd.seek eventId = some rd') :
    s.openAt x f eventId = { s.started with reader := some rd' }.reply (.resumed eventId) := by
  unfold openAt started
  dsimp only
  rw [hopen]
  dsimp only
  rw [hseek]

/-- **A first target**, or one after the end of a replay. -/
theorem phase_resume_rest (hfit : ∀ g ∈ segs, g.Fits) (hs : s.segments = infos x segs) (hc : s.call = .idle)
    (hw : s.worker = none) (ho : s.Over segs) (hm : s.InLast eventId → s.preloadingDone = true) :
    (s.resumeFromEvent x eventId).Phase x segs := by
  cases hl : s.locate eventId with
  | none =>
    unfold resumeFromEvent
    rw [ho.reader, hl]
    refine .rest hc hw ⟨ho.reader, ho.ring, ho.drained, fun r hr => ?_⟩
    rw [show (reply (.refused .itemNotFound) s).log = s.log ++ [.refused .itemNotFound] from rfl, replay_concat] at hr
    cases hr
  | some i =>
    obtain ⟨g, hg, hseg, ht, hbefore⟩ := locate_eq hlog hs hl
    obtain ⟨s1, hs1⟩ : ∃ s1, s1 = { s with currentSegmentIndex := i } := ⟨_, rfl⟩
    have heq : s.resumeFromEvent x eventId = s1.openAt x g.file eventId := by
      unfold resumeFromEvent
      split
      · next rd hrd =>
        rw [ho.reader] at hrd
        cases hrd
      · rw [hl]
        dsimp only
        rw [hseg, hs1]
        rfl
    have hfut : s1.future s1.currentSegmentIndex = infos x (segs.drop (i + 1)) := by
      rw [hs1]
      exact future_eq hlog hs i
    -- what the preloader is given
    have hstart : s1.started.call = .idle ∧ s1.started.currentSegmentIndex = i ∧
        s1.started.Supplies x (segs.drop (i + 1)) ∧ (s1.started.worker ≠ none → s1.started.stopRequested = false) ∧
        (s1.started.worker = none → segs.drop (i + 1) = [] ∧ s1.started.preloadingDone = true) := by
      unfold started
      rw [hfut]
      by_cases hemp : (infos x (segs.drop (i + 1))).isEmpty = true
      · have hnil : segs.drop (i + 1) = [] := List.map_eq_nil_iff.mp (List.isEmpty_iff.mp hemp)
        have hlast : s.InLast eventId := by
          unfold InLast
          rw [hl, Option.map_some, future_eq hlog hs i, hemp]
        obtain ⟨hhand, htodo⟩ := drained_iff.mp ho.drained
        rw [if_pos hemp, hnil, hs1]
        refine ⟨hc, rfl, ⟨[], [], [], rfl, ?_, ?_, htodo⟩, fun hne => absurd hw hne, fun _ => ⟨rfl, hm hlast⟩⟩
        · show List.Forall₂ Reads s.preparedRing []
          rw [ho.ring]
          exact .nil
        · show List.Forall₂ Reads s.inHand []
          rw [hhand]
          exact .nil
      · have hw1 : s1.worker.isSome = false := by
          rw [hs1]
          show s.worker.isSome = false
          rw [hw]
          rfl
        unfold start
        rw [if_neg hemp, hw1, if_neg (by decide), hs1]
        refine ⟨hc, rfl, ⟨[], [], segs.drop (i + 1), rfl, ?_, .nil, rfl⟩, fun _ => rfl, fun hn => (by cases hn)⟩
        show List.Forall₂ Reads s.preparedRing []
        rw [ho.ring]
        exact .nil
    obtain ⟨h1, h2, h3, h4, h5⟩ := hstart
    have hlater : s1.started.later segs = segs.drop (i + 1) := by
      unfold later
      rw [h2]
    obtain ⟨rd, rd', hopen, hseek, hph⟩ := phase_opened hlog hfit h1 (h2 ▸ hg) ht (h2 ▸ hbefore) (hlater ▸ h3) h4
      (hlater ▸ h5)
    rw [heq, openAt_eq hopen hseek]
    exact hph

/-- **A new target in the segment that is being read**: the segment is opened again, and the preloader goes on. -/
theorem phase_resume_reading (hfit : ∀ g ∈ segs, g.Fits) (hs : s.segments = infos x segs) (hc : s.call = .idle)
    {rd : SegmentReader} {g : Seg} (hr : s.reader = some rd) (hg : segs[s.currentSegmentIndex]? = some g)
    (hf : rd.file = g.file) (hu : s.Underway x segs es) (hm : s.locate eventId = some s.currentSegmentIndex) :
    (s.resumeFromEvent x eventId).Phase x segs := by
  obtain ⟨g', hg', -, ht, hbefore⟩ := locate_eq hlog hs hm
  obtain rfl := Option.some.inj (hg.symm.trans hg')
  have hst : s.started = s := by
    unfold started start
    rw [future_eq hlog hs]
    cases hw : s.worker with
    | none =>
      have hnil : segs.drop (s.currentSegmentIndex + 1) = [] := (hu.alone hw).1
      rw [hnil]
      rfl
    | some w =>
      rw [if_pos (show (some w).isSome = true from rfl)]
      split_ifs <;> rfl
  obtain ⟨rd0, rd', hopen, hseek, hph⟩ := phase_opened hlog hfit hc hg ht hbefore hu.supplies hu.running hu.alone
  unfold resumeFromEvent
  rw [hr]
  dsimp only
  rw [hf, openAt_eq hopen hseek, hst]
  exact hph

end Resume

/-! ## Runs -/

theorem popped_segments (rd : SegmentReader) (ring : List SegmentReader) : (s.popped rd ring).segments = s.segments := by
  unfold popped
  dsimp only
  split <;> rfl

theorem next_segments : s.next.segments = s.segments := by
  unfold next
  split
  · rfl
  · split <;> rfl

theorem check_segments : s.check.segments = s.segments := by
  unfold check
  split_ifs <;> rfl

theorem started_segments : s.started.segments = s.segments := by
  unfold started start
  split_ifs <;> rfl

theorem resumeFromEvent_segments (eventId : ℕ) : (s.resumeFromEvent x eventId).segments = s.segments := by
  have hopen : ∀ (s : Manager) f, (s.openAt x f eventId).segments = s.segments := by
    intro s f
    refine Eq.trans ?_ (started_segments (s := s))
    unfold openAt started
    dsimp only
    split
    · rfl
    · split <;> rfl
  unfold resumeFromEvent
  split
  · exact hopen _ _
  · split
    · rfl
    · split
      · rfl
      · exact hopen _ _

section Run

variable (hlog : ValidLog x segs) (hfit : ∀ g ∈ segs, g.Fits) {a : Act}

include hlog hfit

theorem inv_turn (h : s.Inv x segs) (ht : s.Turn x s') : s'.Inv x segs := by
  obtain ⟨hcall, hreader, hsegs, hidx, -, hstop⟩ := ht.frame
  have hlater : s'.later segs = s.later segs := by
    unfold later
    rw [hidx]
  refine ⟨hsegs.trans h.segments, ?_⟩
  cases h.phase with
  | rest hc hw ho =>
    cases ht with
    | load hw' _ => rw [hw] at hw'; cases hw'
    | push hw' => rw [hw] at hw'; cases hw'
    | drop hw' _ => rw [hw] at hw'; cases hw'
    | finish hw' _ _ => rw [hw] at hw'; cases hw'
    | exit hw' _ => rw [hw] at hw'; cases hw'
  | reading hc hr hg hf hy hu =>
    exact .reading (hcall.trans hc) (hreader.trans hr) (hidx ▸ hg) hf hy (hu.turn hlog hfit ht)
  | exhausted hc hr hu => exact .exhausted (hcall.trans hc) (hreader.trans hr) (hu.turn hlog hfit ht)
  | waiting hc hr hu hne =>
    exact .waiting (hcall.trans hc) (hreader.trans hr) (hu.turn hlog hfit ht) (hlater ▸ hne)
  | stopping hc ho hs => exact .stopping (hcall.trans hc) (ho.turn hs ht) (hstop.trans hs)

/-- **One step**: what is left of the replay stays in its place. -/
theorem inv_step (h : s.Inv x segs) (hm : s.Meets a) (hstep : s.Steps x a s') : s'.Inv x segs := by
  by_cases ha : a.Internal
  · obtain ⟨rfl, hc, rfl⟩ | ⟨rd, ring, hc, hring, rfl⟩ | ⟨hc, hw, rfl⟩ | ht := steps_cases hstep ha
    · obtain ⟨hr, hu⟩ := h.phase.of_exhausted hc
      exact ⟨check_segments.trans h.segments, phase_check hr hu hm⟩
    · obtain ⟨hu, -⟩ := h.phase.of_waiting hc
      exact ⟨(popped_segments rd ring).trans h.segments, phase_popped hlog hu hring⟩
    · obtain ⟨ho, -⟩ := h.phase.of_stopping hc
      exact ⟨h.segments, .rest rfl hw ⟨ho.reader, ho.ring, ho.drained, replay_ended ho.replay⟩⟩
    · exact inv_turn hlog hfit h ht
  · unfold Steps step at hstep
    cases a with
    | resume eventId =>
      dsimp only at hstep
      split_ifs at hstep with hc
      cases hstep
      refine ⟨(resumeFromEvent_segments eventId).trans h.segments, ?_⟩
      obtain ⟨hw, ho⟩ | ⟨rd, g, es, hr, hg, hf, -, hu⟩ := h.phase.of_idle hc
      · exact phase_resume_rest hlog hfit h.segments hc hw ho (hm.2 (Option.isNone_iff_eq_none.mpr hw))
      · exact phase_resume_reading hlog hfit h.segments hc hr hg hf hu (hm.1 (by rw [hr]; rfl))
    | next =>
      dsimp only at hstep
      split_ifs at hstep with hc
      cases hstep
      exact ⟨next_segments.trans h.segments, phase_next h.phase hc⟩
    | _ => exact absurd trivial ha

/-! ## Every call returns -/

omit hlog hfit

/-- What is left to do until a call returns. -/
def work (s : Manager) : ℕ :=
  3 * s.todo.length + 2 * s.inHand.length + (if s.preloadingDone then 0 else 1) + (if s.worker.isSome then 1 else 0) +
    match s.call with
    | .idle => 0
    | .exhausted => 2
    | .waiting => 1
    | .stopping => 1

theorem work_turn (ht : s.Turn x s') : s'.work < s.work := by
  cases ht with
  | load hw hs =>
    rename_i seg segments
    have hlen : (opened x seg).toList.length ≤ 1 := by
      cases opened x seg <;> simp
    unfold work todo inHand
    rw [hw]
    dsimp only
    rw [List.length_cons, Option.toList_none, List.length_nil]
    simp only [Option.isSome_some, ↓reduceIte]
    omega
  | push hw =>
    unfold work todo inHand
    rw [hw]
    simp
  | drop hw hs =>
    unfold work todo inHand
    rw [hw]
    simp
  | finish hw hs hd =>
    unfold work todo inHand
    rw [hd]
    simp
  | exit hw hs =>
    unfold work todo inHand
    rw [hw]
    simp only [Option.toList_none, List.length_nil, Option.isSome_some, Option.isSome_none, Bool.false_eq_true,
      ↓reduceIte]
    omega

/-- A step inside of a call brings it nearer to its end. -/
theorem work_step (hstep : s.Steps x a s') (ha : a.Internal) : s'.work < s.work := by
  obtain ⟨rfl, hc, rfl⟩ | ⟨rd, ring, hc, hring, rfl⟩ | ⟨hc, hw, rfl⟩ | ht := steps_cases hstep ha
  · unfold check
    split_ifs
    all_goals
      unfold work
      rw [hc]
      show _ + 1 < _ + 2
      exact Nat.lt_succ_self _
  · unfold popped work
    rw [hc]
    dsimp only
    split
    all_goals exact Nat.lt_succ_self _
  · unfold work
    rw [hc]
    exact Nat.lt_succ_self _
  · exact work_turn ht

/-- A preloader with something left brings it to the ring, if the ring is empty. -/
theorem exists_turn (hring : s.preparedRing = []) (hstop : s.stopRequested = false) (hdr : ¬ s.Drained) :
    ∃ a s', a.Internal ∧ s.Meets a ∧ s.Steps x a s' := by
  cases hw : s.worker with
  | none =>
    refine absurd ?_ hdr
    unfold Drained
    rw [hw]
    rfl
  | some w =>
    obtain ⟨segments, hand⟩ := w
    cases hand with
    | some rd =>
      refine ⟨.push, { s with worker := some ⟨segments, none⟩, preparedRing := s.preparedRing ++ [rd] }, trivial, trivial,
        ?_⟩
      unfold Steps step
      rw [hw]
      exact if_pos (by rw [hring]; decide)
    | none =>
      cases segments with
      | nil =>
        refine absurd ?_ hdr
        unfold Drained
        rw [hw]
        rfl
      | cons seg segments =>
        refine ⟨.load, { s with worker := some ⟨segments, opened x seg⟩ }, trivial, trivial, ?_⟩
        unfold Steps step
        rw [hw]
        exact if_pos ⟨hstop, by rw [hring]; decide⟩

/-- **No call is stuck**: the caller or the preloader can take a step that meets the condition. -/
theorem progress (h : s.Inv x segs) (hc : s.call ≠ .idle) : ∃ a s', a.Internal ∧ s.Meets a ∧ s.Steps x a s' := by
  have hrun : ∀ {es}, s.Underway x segs es → ¬ s.Drained → s.stopRequested = false := by
    intro es hu hdr
    refine hu.running (fun hw => hdr ?_)
    unfold Drained
    rw [hw]
    rfl
  cases hcall : s.call with
  | idle => exact absurd hcall hc
  | exhausted =>
    obtain ⟨-, hu⟩ := h.phase.of_exhausted hcall
    by_cases ht : s.Truthful
    · refine ⟨.check, s.check, trivial, ht, ?_⟩
      unfold Steps step
      exact if_pos hcall
    · -- the flag is wrong: the preloader has a turn to take
      unfold Truthful at ht
      rw [Classical.not_imp, List.isEmpty_iff] at ht
      obtain ⟨hring, hno⟩ := ht
      by_cases hdr : s.Drained
      · have hdone : s.preloadingDone = false := by
          rw [← Bool.not_eq_true]
          exact fun hd => hno ⟨fun _ => hdr, fun _ => hd⟩
        obtain ⟨hhand, htodo⟩ := drained_iff.mp hdr
        unfold inHand at hhand
        unfold todo at htodo
        cases hw : s.worker with
        | none =>
          have hflag := (hu.alone hw).2
          rw [hdone] at hflag
          cases hflag
        | some w =>
          obtain ⟨segments, hand⟩ := w
          rw [hw] at hhand htodo
          obtain rfl : segments = [] := htodo
          cases hand with
          | some rd => cases hhand
          | none =>
            refine ⟨.finish, { s with preloadingDone := true }, trivial, trivial, ?_⟩
            unfold Steps step
            rw [hw]
            exact if_pos ⟨hu.running (by rw [hw]; exact fun hn => by cases hn), hdone⟩
      · exact exists_turn hring (hrun hu hdr) hdr
  | waiting =>
    obtain ⟨hu, hne⟩ := h.phase.of_waiting hcall
    cases hring : s.preparedRing with
    | cons rd ring =>
      refine ⟨.pop, s.popped rd ring, trivial, trivial, ?_⟩
      unfold Steps step
      rw [hcall, hring]
    | nil =>
      have hdr : ¬ s.Drained := fun hd => hne (hu.supplies.nil_iff.mpr ⟨hring, hd⟩)
      exact exists_turn hring (hrun hu hdr) hdr
  | stopping =>
    obtain ⟨ho, hs⟩ := h.phase.of_stopping hcall
    cases hw : s.worker with
    | none =>
      refine ⟨.join, { s with call := .idle }.reply (.ended .itemNotFound), trivial, trivial, ?_⟩
      unfold Steps step
      rw [hw]
      exact if_pos ⟨hcall, rfl⟩
    | some w =>
      obtain ⟨segments, hand⟩ := w
      obtain ⟨hhand, -⟩ := drained_iff.mp ho.drained
      unfold inHand at hhand
      rw [hw] at hhand
      cases hand with
      | some rd => cases hhand
      | none =>
        refine ⟨.exit, { s with worker := none }, trivial, trivial, ?_⟩
        unfold Steps step
        rw [hw]
        exact if_pos hs

include hlog hfit

theorem Inv.returns (h : s.Inv x segs) : s.Returns x := by
  refine Inevitable.of_measure (I := Inv x segs) (f := work) (fun t ht hc => progress ht hc) ?_ h
  rintro t a u ht hc ⟨ha, hm, hstep⟩
  exact ⟨inv_step hlog hfit ht hm hstep, work_step hstep ha⟩

/-- **Resuming is exact**: in every run whose steps meet the condition, over a directory of valid segments below 4 GiB,
`next` gives the events from the target on, each once and in order, and then the end; and every call returns. -/
theorem resume_exact {dir : List File} (hdir : dir.Perm (segs.map Seg.file)) {acts : List Act}
    (hrun : Run (Steps x) Meets (new x dir) acts s) : Exact segs s.log ∧ s.Returns x := by
  have h : s.Inv x segs := hrun.invariant (I := Inv x segs) (inv_new hlog hdir)
    (fun _ _ _ h hm hstep => inv_step hlog hfit h hm hstep)
  exact ⟨h.exact, h.returns hlog hfit⟩

end Run

/-! ## Runs that are evaluated -/

variable (x) in
/-- The state after a step, if it can be taken. -/
def after (s : Manager) (a : Act) : Manager := (s.step x a).getD s

theorem run_after {ok : Manager → Act → Prop} {acts : List Act}
    (h : Admitted (after x) (fun s a => ok s a ∧ (s.step x a).isSome = true) s acts) :
    Run (Steps x) ok s acts (acts.foldl (after x) s) := by
  refine (Run.of_admitted (fun t a hta => ?_) h).mono (fun t a hta => hta.1)
  obtain ⟨u, hu⟩ := Option.isSome_iff_exists.mp hta.2
  unfold Steps after
  rw [hu]
  rfl

/-- A segment with the one event 9. -/
def nine (x : Hash) : File :=
  let b := Block.finalize x 0 0
    { header := { firstEventId := 9, lastEventId := 9, eventCount := 1 }, events := fun _ => { eventId := 9 } }
  { size := headerBytes + blockBytes
    header := Header.finalize x b.header.chainedChecksum 0
      { magic := walMagic, version := walVersion, headerSize := headerBytes, blockCount := 1, eventCount := 1
        firstEventId := 9, lastEventId := 9 }
    block := fun _ => b }

/-- The segments with the events 1, 3, 7 and 9. -/
def twoSegs (x : Hash) : List Seg :=
  [⟨SegmentReader.gaps x, [[{ eventId := 1 }, { eventId := 3 }], [{ eventId := 7 }]]⟩, ⟨nine x, [[{ eventId := 9 }]]⟩]

theorem validLog_twoSegs : ValidLog SegmentReader.rolling (twoSegs SegmentReader.rolling) := by
  refine ⟨fun g hg => ?_, by simp [twoSegs, Seg.events]⟩
  rcases List.mem_cons.mp hg with rfl | hg
  · exact ⟨SegmentReader.stores_gaps, SegmentReader.openSegment_gaps, rfl, rfl⟩
  · obtain rfl := List.mem_singleton.mp hg
    refine ⟨⟨rfl, fun i es h => ?_, by simp⟩, ?_, rfl, rfl⟩
    · match i, h with
      | 0, h =>
        cases h
        exact ⟨by decide, rfl, rfl, rfl⟩
    · have hok : (SegmentReader.openSegment SegmentReader.rolling (nine SegmentReader.rolling)).isOk = true := by
        decide +kernel
      cases h : SegmentReader.openSegment SegmentReader.rolling (nine SegmentReader.rolling) with
      | error e => rw [h] at hok; cases hok
      | ok rd => exact ⟨rd, rfl⟩

theorem fits_twoSegs : ∀ g ∈ twoSegs SegmentReader.rolling, g.Fits := by
  intro g hg
  rcases List.mem_cons.mp hg with rfl | hg
  · show headerBytes + 2 * blockBytes < 2 ^ 32
    decide
  · obtain rfl := List.mem_singleton.mp hg
    show headerBytes + 1 * blockBytes < 2 ^ 32
    decide

/-- A replay from 2 on through both segments to its end, and then one from 8 on. -/
def twice : List Act :=
  [.resume 2, .next, .load, .push, .next, .next, .finish, .check, .pop, .next, .check, .exit, .join,
   .resume 8, .next, .next, .check, .join]

def afterTwice : Manager :=
  twice.foldl (after SegmentReader.rolling) (new SegmentReader.rolling
    [nine SegmentReader.rolling, SegmentReader.gaps SegmentReader.rolling])

theorem resume_exact_twice : afterTwice.log.length = 8 ∧ Exact (twoSegs SegmentReader.rolling) afterTwice.log ∧
    afterTwice.Returns SegmentReader.rolling :=
  ⟨by decide +kernel, resume_exact validLog_twoSegs fits_twoSegs (List.Perm.swap _ _ [])
    (run_after (by decide +kernel))⟩

/-- A directory with one segment. -/
def single : Manager := new SegmentReader.rolling [SegmentReader.gaps SegmentReader.rolling]

/-- All events are read, and `next` asks for another segment. -/
def readAll : List Act := [.resume 1, .next, .next, .next, .next, .check]

/-- The preloader was never started, so that its flag is never set: the call waits for ever. -/
theorem end_never_reported :
    Run (Steps SegmentReader.rolling) (fun _ _ => True) single readAll (readAll.foldl (after SegmentReader.rolling) single) ∧
    (readAll.foldl (after SegmentReader.rolling) single).call = .waiting ∧
    ∀ a : Act, (readAll.foldl (after SegmentReader.rolling) single).step SegmentReader.rolling a = none := by
  refine ⟨run_after (by decide +kernel), by decide +kernel, fun a => ?_⟩
  obtain ⟨s, hs⟩ : ∃ s, s = readAll.foldl (after SegmentReader.rolling) single := ⟨_, rfl⟩
  have hcall : s.call = .waiting := by
    rw [hs]
    decide +kernel
  have hring : s.preparedRing = [] := by
    rw [hs, ← List.isEmpty_iff]
    decide +kernel
  have hworker : s.worker = none := by
    rw [hs, ← Option.isNone_iff_eq_none]
    decide +kernel
  rw [← hs]
  unfold step
  rw [hcall, hring, hworker]
  cases a <;> rfl

end Manager

end Wirekrak.Wal.Recovery

import Mathlib.Order.Defs.PartialOrder
import Wirekrak.Lib.Fifo
import Wirekrak.Lib.Reach
import Wirekrak.Wal.Crash

/-!
# Wirekrak.Wal.Preparer — the thread that prepares segments, and the call that waits for one

`SegmentPreparer` opens segments ahead of time and queues them; `get_next_segment` takes one, and sleeps on a condition
variable while there is none.  The worker tests, opens, pushes and notifies without the mutex, so each of its steps may
fall between the caller's test of the queue and its sleep.

* `Preparer`: the queue, the two threads and a thread that stops them; a step is one access, one notification or the
  opening of one file, which may fail.
* `InOrder`, `segments_in_order`: every index is tried once, and what was opened has been handed out, was drained by
  `stop`, or waits, in order.  The queue has one consumer: `stop` drains it when no caller is inside its pop.
* `fetch_returns_iff`: a caller can always still get its segment just when no notification for a full queue falls
  between its test and its sleep.  In `wakeup_lost` three notifications do.
-/

namespace Wirekrak.Wal

open Wirekrak.Lib

/-- Where the worker stands in `prepare_loop_`: about to test `running_`, about to test the queue, opening a segment,
about to push it, about to notify. -/
inductive PrepareLoop
  | testing
  | looking
  | opening (i : ℕ)
  | pushing (i : ℕ)
  | notifying
  | finished
  deriving DecidableEq

/-- Where the caller stands in `get_next_segment`: about to test `running_`, about to pop, in the two tests of the
predicate it waits for, about to sleep. -/
inductive Fetching
  | idle
  | testing
  | popping
  | checking
  | looking
  | falling
  | asleep
  deriving DecidableEq

/-- Where `stop` stands: about to notify, joining the worker, draining the queue. -/
inductive Stopping
  | idle
  | notifying
  | joining
  | draining
  | done
  deriving DecidableEq

/-- Who has popped a segment. -/
inductive Popper
  | caller
  | stopper
  deriving DecidableEq

/-- A segment stands for its index. -/
structure Preparer where
  running : Bool := true
  segmentIndex : ℕ
  queue : List ℕ := []
  worker : PrepareLoop := .testing
  caller : Fetching := .idle
  stopper : Stopping := .idle
  opened : List ℕ := []
  failed : List ℕ := []
  popped : List (Popper × ℕ) := []

/-- `wake` is a wake-up without a notification. -/
inductive PreparerAct
  | prepare (ok : Bool)
  | getNextSegment
  | fetch
  | wake
  | stop
  | halt
  deriving DecidableEq

namespace Preparer

/-- `start`. -/
def start (segmentIndex : ℕ) : Preparer := { segmentIndex := segmentIndex }

/-- A notification wakes the caller only if it sleeps; it then tests its predicate again. -/
def notify (s : Preparer) : Preparer :=
  match s.caller with
  | .asleep => { s with caller := .checking }
  | _ => s

/-- A step of `prepare_loop_`; `ok` is what opening the file comes to. -/
def prepareStep (s : Preparer) (ok : Bool) : Preparer :=
  match s.worker with
  | .testing => { s with worker := if s.running then .looking else .finished }
  | .looking =>
    if s.queue.length < prepareQueue then
      { s with worker := .opening s.segmentIndex, segmentIndex := s.segmentIndex + 1 }
    else { s with worker := .testing }
  | .opening i =>
    if ok then { s with worker := .pushing i, opened := s.opened ++ [i] }
    else { s with worker := .testing, failed := s.failed ++ [i] }
  | .pushing i =>
    match Fifo.push prepareQueue s.queue i with
    | some q => { s with queue := q, worker := .notifying }
    | none => { s with worker := .testing }
  | .notifying => { s.notify with worker := .testing }
  | .finished => s

/-- A step of `get_next_segment`. -/
def fetchStep (s : Preparer) : Preparer :=
  match s.caller with
  | .idle => s
  | .testing => { s with caller := if s.running then .popping else .idle }
  | .popping =>
    match s.queue with
    | [] => { s with caller := .checking }
    | i :: q => { s with queue := q, caller := .idle, popped := s.popped ++ [(.caller, i)] }
  | .checking => { s with caller := if s.running then .looking else .testing }
  | .looking => { s with caller := if s.queue = [] then .falling else .testing }
  | .falling => { s with caller := .asleep }
  | .asleep => s

/-- A step of `stop` after it has cleared `running_`. -/
def haltStep (s : Preparer) : Preparer :=
  match s.stopper with
  | .idle => s
  | .notifying => { s.notify with stopper := .joining }
  | .joining => { s with stopper := if s.worker = .finished then .draining else .joining }
  | .draining =>
    match s.queue with
    | [] => { s with stopper := .done }
    | i :: q => { s with queue := q, popped := s.popped ++ [(.stopper, i)] }
  | .done => s

def step (s : Preparer) : PreparerAct → Preparer
  | .prepare ok => s.prepareStep ok
  | .getNextSegment => if s.caller = .idle then { s with caller := .testing } else s
  | .fetch => s.fetchStep
  | .wake => s.notify
  | .stop => if s.stopper = .idle then { s with running := false, stopper := .notifying } else s
  | .halt => s.haltStep

def after (segmentIndex : ℕ) (acts : List PreparerAct) : Preparer := acts.foldl step (start segmentIndex)

/-- The segments that `get_next_segment` has returned. -/
def obtained (s : Preparer) : List ℕ := (s.popped.filter fun p => p.1 = .caller).map Prod.snd

/-- The segments that `stop` has dropped. -/
def drained (s : Preparer) : List ℕ := (s.popped.filter fun p => p.1 = .stopper).map Prod.snd

/-- The segment that was opened and is not queued yet. -/
def inHand (s : Preparer) : List ℕ :=
  match s.worker with
  | .pushing i => [i]
  | _ => []

/-- The segment that is being opened. -/
def underway (s : Preparer) : List ℕ :=
  match s.worker with
  | .opening i => [i]
  | _ => []

/-! ## What becomes of the segments -/

/-- The opened segments are those handed out, those drained by `stop`, those that wait and the one in hand, in order.  From
the first index on, every index was tried once. -/
structure InOrder (first : ℕ) (s : Preparer) : Prop where
  opened : s.opened = s.obtained ++ s.drained ++ s.queue ++ s.inHand
  tried : (s.opened ++ s.failed ++ s.underway).Perm (List.range' first (s.segmentIndex - first))
  sorted : (s.opened ++ s.underway).Pairwise (· < ·)
  bound : s.queue.length ≤ prepareQueue

/-- Whoever popped a segment, the order is kept, and the worker opens a segment only while there is room. -/
structure Inv (first : ℕ) (s : Preparer) : Prop where
  opened : s.opened = s.popped.map Prod.snd ++ s.queue ++ s.inHand
  tried : (s.opened ++ s.failed ++ s.underway).Perm (List.range' first (s.segmentIndex - first))
  sorted : (s.opened ++ s.underway).Pairwise (· < ·)
  bound : s.queue.length ≤ prepareQueue
  first_le : first ≤ s.segmentIndex
  lt : ∀ i ∈ s.opened ++ s.underway, i < s.segmentIndex
  room : s.inHand ++ s.underway ≠ [] → s.queue.length < prepareQueue
  finished : s.stopper = .draining ∨ s.stopper = .done → s.worker = .finished
  empty : s.stopper = .done → s.queue = []

variable {s : Preparer} {first : ℕ} {a : PreparerAct}

theorem inv_start (first : ℕ) : Inv first (start first) where
  opened := rfl
  tried := by simp [start, underway]
  sorted := by simp [start, underway]
  bound := Nat.zero_le _
  first_le := Nat.le_refl _
  lt := by simp [start, underway]
  room := by simp [start, inHand, underway]
  finished := by simp [start]
  empty := by simp [start]

section

variable (h : Inv first s)

include h

theorem Inv.caller (c : Fetching) : Inv first { s with caller := c } :=
  ⟨h.opened, h.tried, h.sorted, h.bound, h.first_le, h.lt, h.room, h.finished, h.empty⟩

theorem Inv.notify : Inv first s.notify := by
  unfold Preparer.notify
  split
  · exact h.caller _
  · exact h

/-- The oldest segment is popped. -/
theorem Inv.pop {i : ℕ} {q : List ℕ} (hq : s.queue = i :: q) (p : Popper) :
    Inv first { s with queue := q, popped := s.popped ++ [(p, i)] } := by
  have hopened := h.opened
  have hbound := h.bound
  rw [hq] at hopened hbound
  refine ⟨?_, h.tried, h.sorted, Nat.le_of_succ_le hbound, h.first_le, h.lt, fun hne => ?_, h.finished, fun hd => ?_⟩
  · simpa [inHand] using hopened
  · have := h.room hne
    rw [hq] at this
    exact Nat.lt_of_succ_lt this
  · have := h.empty hd
    rw [hq] at this
    cases this

/-- The worker goes on with the same segment, or with none. -/
theorem Inv.worker {w : PrepareLoop} (hm : ¬ (s.stopper = .draining ∨ s.stopper = .done))
    (hin : inHand { s with worker := w } = s.inHand) (hun : underway { s with worker := w } = s.underway) :
    Inv first { s with worker := w } := by
  refine ⟨?_, ?_, ?_, h.bound, h.first_le, ?_, ?_, fun hd => absurd hd hm, fun hd => absurd (.inr hd) hm⟩
  · rw [hin]
    exact h.opened
  · rw [hun]
    exact h.tried
  · rw [hun]
    exact h.sorted
  · rw [hun]
    exact h.lt
  · rw [hin, hun]
    exact h.room

/-- The next index is taken. -/
theorem Inv.take (hw : s.worker = .looking) (hlen : s.queue.length < prepareQueue)
    (hm : ¬ (s.stopper = .draining ∨ s.stopper = .done)) :
    Inv first { s with worker := .opening s.segmentIndex, segmentIndex := s.segmentIndex + 1 } := by
  obtain ⟨hopened, htried, hsorted, hbound, hfirst, hlt, hroom, hfin, hempty⟩ := h
  simp only [inHand, underway, hw, List.append_nil] at hopened htried hsorted hlt
  refine ⟨?_, ?_, ?_, hbound, Nat.le_succ_of_le hfirst, ?_, fun _ => hlen, fun hd => absurd hd hm,
    fun hd => absurd (.inr hd) hm⟩
  · simpa [inHand] using hopened
  · have hcount : s.segmentIndex + 1 - first = s.segmentIndex - first + 1 := by omega
    simp only [underway]
    rw [hcount, List.range'_concat, show first + 1 * (s.segmentIndex - first) = s.segmentIndex by omega]
    exact htried.append_right _
  · simp only [underway]
    exact List.pairwise_append.mpr ⟨hsorted, List.pairwise_singleton _ _,
      fun i hi j hj => by rw [List.mem_singleton.mp hj]; exact hlt i hi⟩
  · intro i hi
    simp only [underway] at hi
    rcases List.mem_append.mp hi with hi | hi
    · exact Nat.lt_succ_of_lt (hlt i hi)
    · rw [List.mem_singleton.mp hi]
      exact Nat.lt_succ_self _

/-- The segment is open, or its file could not be opened. -/
theorem Inv.open {i : ℕ} (hw : s.worker = .opening i) (hm : ¬ (s.stopper = .draining ∨ s.stopper = .done)) :
    Inv first { s with worker := .pushing i, opened := s.opened ++ [i] } ∧
    Inv first { s with worker := .testing, failed := s.failed ++ [i] } := by
  obtain ⟨hopened, htried, hsorted, hbound, hfirst, hlt, hroom, hfin, hempty⟩ := h
  simp only [inHand, underway, hw, List.append_nil] at hopened htried hsorted hlt hroom
  refine ⟨⟨?_, ?_, ?_, hbound, hfirst, ?_, fun _ => hroom (by simp), fun hd => absurd hd hm,
    fun hd => absurd (.inr hd) hm⟩, ⟨?_, ?_, ?_, hbound, hfirst, ?_, ?_, fun hd => absurd hd hm,
    fun hd => absurd (.inr hd) hm⟩⟩
  · simp only [inHand]
    rw [hopened]
  · simp only [underway, List.append_nil]
    refine List.Perm.trans ?_ htried
    rw [List.append_assoc, List.append_assoc]
    exact List.perm_append_comm.append_left _
  · simpa [underway] using hsorted
  · simpa [underway] using hlt
  · simpa [inHand] using hopened
  · simpa [underway] using htried
  · simp only [underway, List.append_nil]
    exact (List.pairwise_append.mp hsorted).1
  · intro j hj
    simp only [underway, List.append_nil] at hj
    exact hlt j (List.mem_append_left _ hj)
  · simp [inHand, underway]

/-- There is room for the segment in hand. -/
theorem Inv.push {i : ℕ} (hw : s.worker = .pushing i) (hm : ¬ (s.stopper = .draining ∨ s.stopper = .done)) :
    Fifo.push prepareQueue s.queue i = some (s.queue ++ [i]) ∧
    Inv first { s with queue := s.queue ++ [i], worker := .notifying } := by
  obtain ⟨hopened, htried, hsorted, hbound, hfirst, hlt, hroom, hfin, hempty⟩ := h
  simp only [inHand, underway, hw, List.append_nil] at hopened htried hsorted hlt hroom
  have hlen := hroom (by simp)
  refine ⟨Fifo.push_some hlen i, ⟨?_, ?_, ?_, ?_, hfirst, ?_, ?_, fun hd => absurd hd hm,
    fun hd => absurd (.inr hd) hm⟩⟩
  · simpa [inHand] using hopened
  · simpa [underway] using htried
  · simpa [underway] using hsorted
  · rw [List.length_append, List.length_singleton]
    exact hlen
  · simpa [underway] using hlt
  · simp [inHand, underway]

theorem Inv.prepareStep (ok : Bool) : Inv first (s.prepareStep ok) := by
  have hm : s.worker ≠ .finished → ¬ (s.stopper = .draining ∨ s.stopper = .done) := fun hw hd => hw (h.finished hd)
  unfold Preparer.prepareStep
  cases hw : s.worker with
  | testing =>
    refine h.worker (hm (by simp [hw])) ?_ ?_
    · cases s.running <;> simp [inHand, hw]
    · cases s.running <;> simp [underway, hw]
  | looking =>
    dsimp only
    split_ifs with hlen
    · exact h.take hw hlen (hm (by simp [hw]))
    · exact h.worker (hm (by simp [hw])) (by simp [inHand, hw]) (by simp [underway, hw])
  | opening i =>
    have hboth := h.open hw (hm (by simp [hw]))
    cases ok
    · exact hboth.2
    · exact hboth.1
  | pushing i =>
    obtain ⟨hpush, hinv⟩ := h.push hw (hm (by simp [hw]))
    simp only [hpush]
    exact hinv
  | notifying =>
    have hn : s.notify.worker = .notifying ∧ s.notify.stopper = s.stopper := by
      unfold Preparer.notify
      split <;> exact ⟨hw, rfl⟩
    refine h.notify.worker ?_ ?_ ?_
    · rw [hn.2]
      exact hm (by simp [hw])
    · simp [inHand, hn.1]
    · simp [underway, hn.1]
  | finished => exact h

theorem Inv.fetchStep : Inv first s.fetchStep := by
  unfold Preparer.fetchStep
  split
  · exact h
  · exact h.caller _
  · split
    · exact h.caller _
    · exact (h.pop ‹_› _).caller _
  · exact h.caller _
  · exact h.caller _
  · exact h.caller _
  · exact h

theorem Inv.haltStep : Inv first s.haltStep := by
  obtain ⟨hopened, htried, hsorted, hbound, hfirst, hlt, hroom, hfin, hempty⟩ := h.notify
  unfold Preparer.haltStep
  cases hs : s.stopper with
  | idle => exact h
  | notifying =>
    exact ⟨hopened, htried, hsorted, hbound, hfirst, hlt, hroom, fun hd => by simp at hd, fun hd => by simp at hd⟩
  | joining =>
    dsimp only
    split_ifs with hw
    · exact ⟨h.opened, h.tried, h.sorted, h.bound, h.first_le, h.lt, h.room, fun _ => hw, fun hd => by simp at hd⟩
    · exact ⟨h.opened, h.tried, h.sorted, h.bound, h.first_le, h.lt, h.room, fun hd => by simp at hd,
        fun hd => by simp at hd⟩
  | draining =>
    dsimp only
    split
    · next hq =>
      exact ⟨h.opened, h.tried, h.sorted, h.bound, h.first_le, h.lt, h.room, fun _ => h.finished (.inl hs),
        fun _ => hq⟩
    · next hq =>
      have hp := h.pop hq .stopper
      exact ⟨hp.opened, hp.tried, hp.sorted, hp.bound, hp.first_le, hp.lt, hp.room, fun _ => h.finished (.inl hs),
        fun hd => by simp at hd⟩
  | done => exact h

theorem Inv.step (a : PreparerAct) : Inv first (s.step a) := by
  cases a with
  | prepare ok => exact h.prepareStep ok
  | getNextSegment =>
    simp only [Preparer.step]
    split_ifs
    · exact h.caller _
    · exact h
  | fetch => exact h.fetchStep
  | wake => exact h.notify
  | stop =>
    simp only [Preparer.step]
    split_ifs
    · exact ⟨h.opened, h.tried, h.sorted, h.bound, h.first_le, h.lt, h.room, fun hd => by simp at hd,
        fun hd => by simp at hd⟩
    · exact h
  | halt => exact h.haltStep

/-- Without a failure every index has been opened, and what was popped is the first of them. -/
theorem Inv.popped_eq (hf : s.failed = []) : s.popped.map Prod.snd = List.range' first s.popped.length := by
  have hperm := h.tried
  rw [hf, List.append_nil] at hperm
  have heq := List.Perm.eq_of_pairwise (fun _ _ _ _ h1 h2 => absurd h1 (Nat.lt_asymm h2)) h.sorted
    (List.pairwise_lt_range' 1 Nat.zero_lt_one) hperm
  have hpre : s.popped.map Prod.snd <+: List.range' first (s.segmentIndex - first) := by
    rw [← heq, h.opened, List.append_assoc, List.append_assoc]
    exact List.prefix_append _ _
  have hlen := hpre.length_le
  rw [List.length_range', List.length_map] at hlen
  rw [List.prefix_iff_eq_take.mp hpre, List.length_map, List.take_range'_of_length_ge hlen]

end

theorem inv_after (first : ℕ) (acts : List PreparerAct) : Inv first (after first acts) := by
  unfold after
  induction acts using List.reverseRecOn with
  | nil => exact inv_start first
  | append_singleton acts a ih =>
    rw [List.foldl_append, List.foldl_cons, List.foldl_nil]
    exact ih.step a

/-! ## One consumer -/

/-- `stop` begins to drain the queue when no caller is inside its pop. -/
def Alone (s : Preparer) (a : PreparerAct) : Prop :=
  a = .halt → s.stopper = .joining → s.worker = .finished → s.caller ≠ .popping

instance (s : Preparer) : DecidablePred s.Alone := fun _ => inferInstanceAs (Decidable (_ → _ → _ → _))

/-- The caller pops before `stop` does. -/
structure Handed (s : Preparer) : Prop where
  running : s.stopper ≠ .idle → s.running = false
  caller : s.stopper = .draining ∨ s.stopper = .done → s.caller ≠ .popping
  undrained : ¬ (s.stopper = .draining ∨ s.stopper = .done) → s.drained = []
  popped : s.popped.map Prod.snd = s.obtained ++ s.drained

theorem handed_start (first : ℕ) : (start first).Handed := by
  refine ⟨fun h => absurd rfl h, fun h => ?_, fun _ => rfl, rfl⟩
  simp [start] at h

/-- A step that pops nothing. -/
theorem Handed.of_eq (h : s.Handed) {u : Preparer} (hr : u.running = s.running) (hst : u.stopper = s.stopper)
    (hp : u.popped = s.popped) (hc : u.caller ≠ .popping ∨ s.running = true ∨ u.caller = s.caller) : u.Handed := by
  refine ⟨fun hu => hr.trans (h.running (hst ▸ hu)), fun hu => ?_, fun hu => ?_, ?_⟩
  · rcases hc with hc | hc | hc
    · exact hc
    · rw [h.running fun hi => by rw [hst, hi] at hu; simp at hu] at hc
      cases hc
    · rw [hc]
      exact h.caller (hst ▸ hu)
  · unfold drained
    rw [hp]
    exact h.undrained (hst ▸ hu)
  · unfold obtained drained
    rw [hp]
    exact h.popped

theorem Handed.notify (h : s.Handed) : s.notify.Handed := by
  unfold Preparer.notify
  split
  · exact h.of_eq rfl rfl rfl (.inl fun hc => by cases hc)
  · exact h

theorem Handed.prepare (h : s.Handed) (ok : Bool) : (s.prepareStep ok).Handed := by
  unfold prepareStep
  cases s.worker with
  | notifying => exact h.notify.of_eq rfl rfl rfl (.inr (.inr rfl))
  | finished => exact h
  | testing => exact h.of_eq rfl rfl rfl (.inr (.inr rfl))
  | looking =>
    dsimp only
    split_ifs <;> exact h.of_eq rfl rfl rfl (.inr (.inr rfl))
  | opening i =>
    dsimp only
    split_ifs <;> exact h.of_eq rfl rfl rfl (.inr (.inr rfl))
  | pushing i =>
    dsimp only
    split <;> exact h.of_eq rfl rfl rfl (.inr (.inr rfl))

theorem Handed.fetch (h : s.Handed) : s.fetchStep.Handed := by
  unfold fetchStep
  cases hc : s.caller with
  | idle => exact h
  | testing =>
    dsimp only
    split_ifs with hr
    · exact h.of_eq rfl rfl rfl (.inr (.inl hr))
    · exact h.of_eq rfl rfl rfl (.inl fun hc => by cases hc)
  | popping =>
    -- `stop` drains only when no caller is here
    have hnot : ¬ (s.stopper = .draining ∨ s.stopper = .done) := fun hd => h.caller hd hc
    have hd := h.undrained hnot
    have hp := h.popped
    rw [hd, List.append_nil] at hp
    dsimp only
    split
    · exact h.of_eq rfl rfl rfl (.inl fun hc => by cases hc)
    · refine ⟨h.running, fun _ hc => (by cases hc), fun _ => ?_, ?_⟩
      · simpa [drained] using hd
      · simp only [obtained, drained] at hp hd ⊢
        simp [hp, hd]
  | checking =>
    dsimp only
    split_ifs <;> exact h.of_eq rfl rfl rfl (.inl fun hc => by cases hc)
  | looking =>
    dsimp only
    split_ifs <;> exact h.of_eq rfl rfl rfl (.inl fun hc => by cases hc)
  | falling => exact h.of_eq rfl rfl rfl (.inl fun hc => by cases hc)
  | asleep => exact h

theorem Handed.halt (h : s.Handed) (hok : s.Alone .halt) : s.haltStep.Handed := by
  unfold haltStep
  cases hs : s.stopper with
  | idle => exact h
  | notifying =>
    have hn := h.notify
    have hstop : s.notify.stopper = .notifying := by
      unfold Preparer.notify
      split <;> exact hs
    have hrun := hn.running (by simp [hstop])
    have hnil := hn.undrained (by simp [hstop])
    exact ⟨fun _ => hrun, fun hd => by simp at hd, fun _ => hnil, hn.popped⟩
  | joining =>
    have hrun := h.running (by simp [hs])
    have hnil := h.undrained (by simp [hs])
    dsimp only
    split_ifs with hw
    · exact ⟨fun _ => hrun, fun _ => hok rfl hs hw, fun _ => hnil, h.popped⟩
    · exact ⟨fun _ => hrun, fun hd => by simp at hd, fun _ => hnil, h.popped⟩
  | draining =>
    have hrun := h.running (by simp [hs])
    have hc := h.caller (.inl hs)
    dsimp only
    split
    · exact ⟨fun _ => hrun, fun _ => hc, fun hd => by simp at hd, h.popped⟩
    · refine ⟨fun _ => hrun, fun _ => hc, fun hd => absurd (.inl rfl) hd, ?_⟩
      have hp := h.popped
      simp only [obtained, drained] at hp ⊢
      simp [hp]
  | done => exact h

theorem Handed.step (h : s.Handed) (hok : s.Alone a) : (s.step a).Handed := by
  cases a with
  | prepare ok => exact h.prepare ok
  | getNextSegment =>
    simp only [Preparer.step]
    split_ifs
    · exact h.of_eq rfl rfl rfl (.inl fun hc => by cases hc)
    · exact h
  | fetch => exact h.fetch
  | wake => exact h.notify
  | stop =>
    simp only [Preparer.step]
    split_ifs with hi
    · exact ⟨fun _ => rfl, fun hd => by simp at hd, fun _ => h.undrained (by simp [hi]), h.popped⟩
    · exact h
  | halt => exact h.halt hok

theorem handed_after {first : ℕ} {acts : List PreparerAct} (hok : Admitted Preparer.step Alone (start first) acts) :
    (after first acts).Handed := by
  have hrun : Run (fun s a u => s.step a = u) Alone (start first) acts (after first acts) :=
    Run.of_admitted (fun _ _ _ => rfl) hok
  refine hrun.invariant (handed_start first) ?_
  rintro t a _ ht ha rfl
  exact ht.step ha

/-- **Segments are handed out in order.**  In every state of every run in which `stop` drains alone, the opened segments
are those handed out, those drained by `stop`, those that wait and the one in hand, in order, and every index is tried
once; `stop` leaves none behind; and where no opening has failed, what was handed out is an unbroken sequence from the
first index on. -/
theorem segments_in_order (first : ℕ) {acts : List PreparerAct}
    (hok : Admitted Preparer.step Alone (start first) acts) : InOrder first (after first acts) ∧
    ((after first acts).stopper = .done →
      (after first acts).opened = (after first acts).obtained ++ (after first acts).drained) ∧
    ((after first acts).failed = [] →
      (after first acts).obtained = List.range' first (after first acts).obtained.length) := by
  have h := inv_after first acts
  have hh := handed_after hok
  have hopened := h.opened
  rw [hh.popped] at hopened
  refine ⟨⟨hopened, h.tried, h.sorted, h.bound⟩, fun hd => ?_, fun hf => ?_⟩
  · rw [hopened, h.empty hd]
    simp [inHand, h.finished (.inr hd)]
  · have hpre : (after first acts).obtained <+: List.range' first (after first acts).popped.length := by
      rw [← h.popped_eq hf, hh.popped]
      exact List.prefix_append _ _
    have hlen := hpre.length_le
    rw [List.length_range'] at hlen
    exact (List.prefix_iff_eq_take.mp hpre).trans (List.take_range'_of_length_ge hlen)

/-- One turn of the worker that prepares a segment. -/
def turn : List PreparerAct := List.replicate 5 (.prepare true)

/-- Two segments are prepared, one is handed out, and `stop` drains the other. -/
def stopped : List PreparerAct :=
  turn ++ turn ++ [.getNextSegment, .fetch, .fetch, .stop, .halt, .prepare true, .halt, .halt, .halt]

theorem segments_in_order_stopped : (after 1 stopped).opened = [1, 2] ∧ (after 1 stopped).obtained = [1] ∧
    (after 1 stopped).drained = [2] ∧ InOrder 1 (after 1 stopped) :=
  ⟨by decide, by decide, by decide, (segments_in_order 1 (by decide)).1⟩

/-! ## Whether the caller gets its segment -/

/-- The preparer is not stopped, and nothing but a notification wakes the caller. -/
def Ordinary (_ : Preparer) : PreparerAct → Prop
  | .wake => False
  | .stop => False
  | _ => True

/-- `get_next_segment` has returned. -/
def Returned (s : Preparer) : Prop := s.caller = .idle

/-- No notification for a full queue finds the caller between its test and its sleep. -/
def Heard (s : Preparer) : PreparerAct → Prop
  | .prepare _ => s.worker = .notifying → s.caller = .falling → s.queue.length < prepareQueue
  | _ => True

/-- The caller sleeps, or is about to, on a full queue that it was told of. -/
structure Deaf (s : Preparer) : Prop where
  caller : s.caller = .falling ∨ s.caller = .asleep
  full : ¬ s.queue.length < prepareQueue
  worker : s.worker ≠ .notifying

/-- The state before `stop`. -/
structure Going (first : ℕ) (s : Preparer) : Prop extends Inv first s where
  running : s.running = true
  idle : s.stopper = .idle
  worker : s.worker ≠ .finished

theorem notify_frame (s : Preparer) : s.notify = { s with caller := s.notify.caller } := by
  unfold notify
  split <;> rfl

theorem notify_caller (s : Preparer) : s.notify.caller = if s.caller = .asleep then .checking else s.caller := by
  unfold notify
  split
  · next h => rw [h, if_pos rfl]
  · next h => rw [if_neg h]

theorem prepareStep_frame (s : Preparer) (ok : Bool) :
    (s.prepareStep ok).running = s.running ∧ (s.prepareStep ok).stopper = s.stopper := by
  unfold prepareStep
  split
  · exact ⟨rfl, rfl⟩
  · split_ifs <;> exact ⟨rfl, rfl⟩
  · split_ifs <;> exact ⟨rfl, rfl⟩
  · split <;> exact ⟨rfl, rfl⟩
  · rw [notify_frame]
    exact ⟨rfl, rfl⟩
  · exact ⟨rfl, rfl⟩

/-- Only a cleared `running_` ends the worker's loop. -/
theorem prepareStep_worker (hrun : s.running = true) (hw : s.worker ≠ .finished) (ok : Bool) :
    (s.prepareStep ok).worker ≠ .finished := by
  unfold prepareStep
  split
  · simp [hrun]
  · split_ifs <;> simp
  · split_ifs <;> simp
  · split <;> simp
  · simp
  · exact hw

theorem fetchStep_frame (s : Preparer) : s.fetchStep.running = s.running ∧ s.fetchStep.stopper = s.stopper ∧
    s.fetchStep.worker = s.worker := by
  unfold fetchStep
  split
  · exact ⟨rfl, rfl, rfl⟩
  · exact ⟨rfl, rfl, rfl⟩
  · split <;> exact ⟨rfl, rfl, rfl⟩
  · exact ⟨rfl, rfl, rfl⟩
  · exact ⟨rfl, rfl, rfl⟩
  · exact ⟨rfl, rfl, rfl⟩
  · exact ⟨rfl, rfl, rfl⟩

theorem haltStep_idle (h : s.stopper = .idle) : s.haltStep = s := by
  unfold haltStep
  rw [h]

theorem Going.step (h : Going first s) (hok : Ordinary s a) : Going first (s.step a) := by
  have hinv := h.toInv.step a
  cases a with
  | prepare ok =>
    obtain ⟨hrun, hstop⟩ := prepareStep_frame s ok
    exact ⟨hinv, hrun.trans h.running, hstop.trans h.idle, prepareStep_worker h.running h.worker ok⟩
  | getNextSegment =>
    refine ⟨hinv, ?_, ?_, ?_⟩
    · simpa only [Preparer.step, apply_ite Preparer.running, ite_self] using h.running
    · simpa only [Preparer.step, apply_ite Preparer.stopper, ite_self] using h.idle
    · simpa only [Preparer.step, apply_ite Preparer.worker, ite_self] using h.worker
  | fetch =>
    obtain ⟨hrun, hstop, hw⟩ := fetchStep_frame s
    exact ⟨hinv, hrun.trans h.running, hstop.trans h.idle, fun hf => h.worker (hw.symm.trans hf)⟩
  | wake => cases hok
  | stop => cases hok
  | halt =>
    simp only [Preparer.step, haltStep_idle h.idle]
    exact h

/-! ### A caller that hears -/

/-- The caller is in its call, and is not about to sleep. -/
def Awake (s : Preparer) : Prop :=
  s.caller = .testing ∨ s.caller = .popping ∨ s.caller = .checking ∨ s.caller = .looking

theorem returns_of_popping (hq : s.queue ≠ []) (hc : s.caller = .popping) :
    CanReach Preparer.step Ordinary Returned s := by
  refine CanReach.of_step (a := .fetch) trivial (.now ?_)
  simp only [Preparer.step, fetchStep, hc, Returned]
  split
  · next he => exact absurd he hq
  · rfl

theorem returns_of_testing (hrun : s.running = true) (hq : s.queue ≠ []) (hc : s.caller = .testing) :
    CanReach Preparer.step Ordinary Returned s := by
  refine CanReach.of_step (a := .fetch) trivial (returns_of_popping ?_ ?_)
  · simpa [Preparer.step, fetchStep, hc] using hq
  · simp [Preparer.step, fetchStep, hc, hrun]

theorem returns_of_looking (hrun : s.running = true) (hq : s.queue ≠ []) (hc : s.caller = .looking) :
    CanReach Preparer.step Ordinary Returned s := by
  refine CanReach.of_step (a := .fetch) trivial (returns_of_testing ?_ ?_ ?_)
  · simpa [Preparer.step, fetchStep, hc] using hrun
  · simpa [Preparer.step, fetchStep, hc] using hq
  · simp [Preparer.step, fetchStep, hc, hq]

theorem returns_of_checking (hrun : s.running = true) (hq : s.queue ≠ []) (hc : s.caller = .checking) :
    CanReach Preparer.step Ordinary Returned s := by
  refine CanReach.of_step (a := .fetch) trivial (returns_of_looking ?_ ?_ ?_)
  · simpa [Preparer.step, fetchStep, hc] using hrun
  · simpa [Preparer.step, fetchStep, hc] using hq
  · simp [Preparer.step, fetchStep, hc, hrun]

/-- A caller that is awake takes a segment that waits. -/
theorem Awake.returns (hc : s.Awake) (hrun : s.running = true) (hq : s.queue ≠ []) :
    CanReach Preparer.step Ordinary Returned s := by
  rcases hc with hc | hc | hc | hc
  · exact returns_of_testing hrun hq hc
  · exact returns_of_popping hq hc
  · exact returns_of_checking hrun hq hc
  · exact returns_of_looking hrun hq hc

/-- While there is room, the worker can come to notify of a segment. -/
theorem Going.fills (h : Going first s) (hn : s.worker ≠ .notifying) (hroom : s.queue.length < prepareQueue)
    (hgoal : ∀ u, Going first u → u.worker = .notifying → u.queue ≠ [] → u.caller = s.caller →
      CanReach Preparer.step Ordinary Returned u) : CanReach Preparer.step Ordinary Returned s := by
  have hpush : ∀ (u : Preparer) (i : ℕ), Going first u → u.worker = .pushing i → u.caller = s.caller →
      CanReach Preparer.step Ordinary Returned u := by
    intro u i hu hw hc
    refine CanReach.of_step (a := .prepare true) trivial ?_
    have hg := hu.step (a := .prepare true) trivial
    have hfree := hu.room (by simp [inHand, hw])
    simp only [Preparer.step, prepareStep, hw, Fifo.push_some hfree] at hg ⊢
    exact hgoal _ hg rfl (by simp) hc
  have hopen : ∀ (u : Preparer) (i : ℕ), Going first u → u.worker = .opening i → u.caller = s.caller →
      CanReach Preparer.step Ordinary Returned u := by
    intro u i hu hw hc
    refine CanReach.of_step (a := .prepare true) trivial ?_
    have hg := hu.step (a := .prepare true) trivial
    simp only [Preparer.step, prepareStep, hw, if_true] at hg ⊢
    exact hpush _ i hg rfl hc
  have hlook : ∀ u : Preparer, Going first u → u.worker = .looking → u.queue = s.queue → u.caller = s.caller →
      CanReach Preparer.step Ordinary Returned u := by
    intro u hu hw hq hc
    refine CanReach.of_step (a := .prepare true) trivial ?_
    have hg := hu.step (a := .prepare true) trivial
    simp only [Preparer.step, prepareStep, hw, hq, if_pos hroom] at hg ⊢
    exact hopen _ _ hg rfl hc
  cases hw : s.worker with
  | testing =>
    refine CanReach.of_step (a := .prepare true) trivial ?_
    have hg := h.step (a := .prepare true) trivial
    simp only [Preparer.step, prepareStep, hw, h.running, if_true] at hg ⊢
    exact hlook _ hg rfl rfl rfl
  | looking => exact hlook s h hw rfl rfl
  | opening i => exact hopen s i h hw rfl
  | pushing i => exact hpush s i h hw rfl
  | notifying => exact absurd hw hn
  | finished => exact absurd hw h.worker

/-- A notification leaves a caller awake that was not about to sleep. -/
theorem Going.notifies (h : Going first s) (hw : s.worker = .notifying) (hc : s.Awake ∨ s.caller = .asleep)
    (hgoal : ∀ u, Going first u → u.worker = .testing → u.queue = s.queue → u.Awake →
      CanReach Preparer.step Ordinary Returned u) : CanReach Preparer.step Ordinary Returned s := by
  refine CanReach.of_step (a := .prepare true) trivial ?_
  have hg := h.step (a := .prepare true) trivial
  simp only [Preparer.step, prepareStep, hw] at hg ⊢
  refine hgoal _ hg rfl ?_ ?_
  · rw [notify_frame]
  · unfold notify Awake at *
    rcases hc with (hc | hc | hc | hc) | hc <;> simp [hc]

theorem Going.returns_of_awake (h : Going first s) (hc : s.Awake) : CanReach Preparer.step Ordinary Returned s := by
  have hquiet : ∀ u, Going first u → u.worker ≠ .notifying → u.Awake → CanReach Preparer.step Ordinary Returned u := by
    intro u hu hn hcu
    by_cases hq : u.queue = []
    · have hroom : u.queue.length < prepareQueue := by
        rw [hq]
        exact Nat.zero_lt_succ _
      refine hu.fills hn hroom fun v hv _ hqv hcv => Awake.returns ?_ hv.running hqv
      unfold Awake at *
      rwa [hcv]
    · exact hcu.returns hu.running hq
  by_cases hn : s.worker = .notifying
  · exact h.notifies hn (.inl hc) fun u hu hw _ hcu => hquiet u hu (by simp [hw]) hcu
  · exact hquiet s h hn hc

theorem Going.returns_of_asleep (h : Going first s) (hc : s.caller = .asleep) (hd : ¬ s.Deaf) :
    CanReach Preparer.step Ordinary Returned s := by
  have hnotified : ∀ u, Going first u → u.worker = .notifying → u.caller = .asleep →
      CanReach Preparer.step Ordinary Returned u := fun u hu hw hcu =>
    hu.notifies hw (.inr hcu) fun v hv _ _ hcv => hv.returns_of_awake hcv
  by_cases hn : s.worker = .notifying
  · exact hnotified s h hn hc
  · have hroom : s.queue.length < prepareQueue := by
      by_contra hfull
      exact hd ⟨.inr hc, hfull, hn⟩
    exact h.fills hn hroom fun u hu hw _ hcu => hnotified u hu hw (hcu.trans hc)

/-- A caller that is not deaf can come by its segment. -/
theorem Going.returns (h : Going first s) (hd : ¬ s.Deaf) : CanReach Preparer.step Ordinary Returned s := by
  cases hc : s.caller with
  | idle => exact .now hc
  | testing => exact h.returns_of_awake (.inl hc)
  | popping => exact h.returns_of_awake (.inr (.inl hc))
  | checking => exact h.returns_of_awake (.inr (.inr (.inl hc)))
  | looking => exact h.returns_of_awake (.inr (.inr (.inr hc)))
  | falling =>
    refine CanReach.of_step (a := .fetch) trivial ?_
    have hg := h.step (a := .fetch) trivial
    simp only [Preparer.step, fetchStep, hc] at hg ⊢
    exact hg.returns_of_asleep rfl fun hd' => hd ⟨.inl hc, hd'.full, hd'.worker⟩
  | asleep => exact h.returns_of_asleep hc hd

/-! ### A caller that is deaf -/

theorem Deaf.of_eq {u : Preparer} (hd : u.Deaf) (hc : u.caller = s.caller) (hq : u.queue = s.queue)
    (hw : s.worker ≠ .notifying) : s.Deaf :=
  ⟨hc ▸ hd.caller, hq ▸ hd.full, hw⟩

/-- The worker makes the caller deaf just where it is not heard. -/
theorem Going.deaf_prepare (h : Going first s) (hd : ¬ s.Deaf) (ok : Bool) :
    ¬ (s.prepareStep ok).Deaf ↔ s.Heard (.prepare ok) := by
  by_cases hn : s.worker = .notifying
  · simp only [Heard, hn, true_implies, prepareStep]
    constructor
    · intro hnot hc
      by_contra hfull
      have hcu : s.notify.caller = .falling := by
        rw [notify_caller, hc]
        rfl
      exact hnot ⟨.inl hcu, by rwa [notify_frame], by simp⟩
    · intro hheard hdu
      have hcall : s.notify.caller = .falling ∨ s.notify.caller = .asleep := hdu.caller
      have hfull := hdu.full
      rw [notify_frame] at hfull
      rw [notify_caller] at hcall
      split_ifs at hcall with hc
      · simp at hcall
      · exact hfull (hheard (hcall.resolve_right hc))
  · refine iff_of_true (fun hdu => ?_) fun hw => absurd hw hn
    unfold prepareStep at hdu
    cases hw : s.worker with
    | testing =>
      simp only [hw] at hdu
      exact hd (hdu.of_eq rfl rfl hn)
    | looking =>
      simp only [hw] at hdu
      split_ifs at hdu
      · exact hd (hdu.of_eq rfl rfl hn)
      · exact hd (hdu.of_eq rfl rfl hn)
    | opening i =>
      simp only [hw] at hdu
      split_ifs at hdu
      · exact hd (hdu.of_eq rfl rfl hn)
      · exact hd (hdu.of_eq rfl rfl hn)
    | pushing i =>
      simp only [hw, Fifo.push_some (h.room (by simp [inHand, hw]))] at hdu
      exact hdu.worker rfl
    | notifying => exact absurd hw hn
    | finished => exact absurd hw h.worker

theorem Going.deaf_step (h : Going first s) (hd : ¬ s.Deaf) (hok : Ordinary s a) : ¬ (s.step a).Deaf ↔ s.Heard a := by
  cases a with
  | prepare ok => exact h.deaf_prepare hd ok
  | getNextSegment =>
    refine iff_of_true (fun hdu => ?_) trivial
    simp only [Preparer.step] at hdu
    split_ifs at hdu with hc
    · simpa using hdu.caller
    · exact hd hdu
  | fetch =>
    refine iff_of_true (fun hdu => ?_) trivial
    have hw : s.fetchStep.worker = s.worker := (fetchStep_frame s).2.2
    have hn : s.worker ≠ .notifying := fun he => hdu.worker (hw.trans he)
    have hcall := hdu.caller
    have hfull := hdu.full
    simp only [Preparer.step, fetchStep] at hcall hfull
    cases hc : s.caller with
    | idle => simp [hc] at hcall
    | testing => simp [hc, h.running] at hcall
    | popping =>
      simp only [hc] at hcall
      split at hcall <;> simp at hcall
    | checking => simp [hc, h.running] at hcall
    | looking =>
      -- a caller that is about to sleep has found the queue empty
      simp only [hc] at hcall hfull
      by_cases hq : s.queue = []
      · exact hfull (by rw [hq]; exact Nat.zero_lt_succ _)
      · simp [hq] at hcall
    | falling =>
      simp only [hc] at hfull
      exact hd ⟨.inl hc, hfull, hn⟩
    | asleep =>
      simp only [hc] at hfull
      exact hd ⟨.inr hc, hfull, hn⟩
  | wake => cases hok
  | stop => cases hok
  | halt =>
    refine iff_of_true (fun hdu => hd ?_) trivial
    simpa only [Preparer.step, haltStep_idle h.idle] using hdu

/-- Nobody wakes a deaf caller. -/
theorem Deaf.step (hd : s.Deaf) (h : Going first s) (hok : Ordinary s a) : (s.step a).Deaf := by
  obtain ⟨hc, hfull, hn⟩ := hd
  cases a with
  | prepare ok =>
    simp only [Preparer.step, prepareStep]
    cases hw : s.worker with
    | testing =>
      simp only [h.running, if_true]
      exact ⟨hc, hfull, by simp⟩
    | looking =>
      simp only [if_neg hfull]
      exact ⟨hc, hfull, by simp⟩
    | opening i => exact absurd (h.room (by simp [underway, hw])) hfull
    | pushing i => exact absurd (h.room (by simp [inHand, hw])) hfull
    | notifying => exact absurd hw hn
    | finished => exact absurd hw h.worker
  | getNextSegment =>
    have hbusy : s.caller ≠ .idle := by rcases hc with hc | hc <;> simp [hc]
    simp only [Preparer.step, if_neg hbusy]
    exact ⟨hc, hfull, hn⟩
  | fetch =>
    simp only [Preparer.step, fetchStep]
    rcases hc with hc | hc
    · simp only [hc]
      exact ⟨.inr rfl, hfull, hn⟩
    · simp only [hc]
      exact ⟨.inr hc, hfull, hn⟩
  | wake => cases hok
  | stop => cases hok
  | halt =>
    simp only [Preparer.step, haltStep_idle h.idle]
    exact ⟨hc, hfull, hn⟩

/-- **A caller gets its segment**, as long as the preparer is not stopped: throughout a run it can still return just
when no notification for a full queue falls between its test and its sleep. -/
theorem fetch_returns_iff (first : ℕ) {acts : List PreparerAct}
    (hok : Admitted Preparer.step Ordinary (start first) acts) :
    (∀ bs, bs <+: acts → CanReach Preparer.step Ordinary Returned (after first bs)) ↔
      Admitted Preparer.step Heard (start first) acts := by
  have h0 : Going first (start first) := ⟨inv_start first, rfl, rfl, by simp [start]⟩
  have hstart : ¬ (start first).Deaf := fun hd => by simpa [start] using hd.caller
  have hbusy : ∀ s : Preparer, s.Deaf → ¬ s.Returned := by
    intro s hd hr
    rcases hd.caller with hc | hc
    · cases hr.symm.trans hc
    · cases hr.symm.trans hc
  exact canReach_iff_admitted (fun s a hs ha => hs.step ha) h0 hstart hok (fun s hs hd => hs.returns hd)
    (fun s a hs hd ha => hd.step hs ha) hbusy fun s a hs hd ha => hs.deaf_step hd ha

instance (s : Preparer) : DecidablePred s.Heard
  | .prepare _ => inferInstanceAs (Decidable (s.worker = .notifying → s.caller = .falling →
      s.queue.length < prepareQueue))
  | .getNextSegment | .fetch | .wake | .stop | .halt => inferInstanceAs (Decidable True)

instance (s : Preparer) : DecidablePred s.Ordinary
  | .wake | .stop => inferInstanceAs (Decidable False)
  | .prepare _ | .getNextSegment | .fetch | .halt => inferInstanceAs (Decidable True)

/-- The caller finds the queue empty; before it sleeps, the worker fills it. -/
def lateSleeper : List PreparerAct :=
  [.getNextSegment, .fetch, .fetch, .fetch, .fetch] ++ turn ++ turn ++ turn ++ [.fetch]

/-- One turn is heard; after three of them, of which the caller hears nothing, three segments wait and it sleeps. -/
theorem wakeup_lost :
    (∀ bs, bs <+: .getNextSegment :: turn → CanReach Preparer.step Ordinary Returned (after 1 bs)) ∧
    (¬ ∀ bs, bs <+: lateSleeper → CanReach Preparer.step Ordinary Returned (after 1 bs)) ∧
    (after 1 lateSleeper).queue = [1, 2, 3] := by
  refine ⟨(fetch_returns_iff 1 (by decide)).mpr (by decide), fun h => ?_, by decide⟩
  exact absurd ((fetch_returns_iff 1 (by decide)).mp h) (by decide)

end Preparer

end Wirekrak.Wal

import Mathlib.Data.List.Basic
import Wirekrak.Lib.Fifo
import Wirekrak.Lib.Run

/-!
# Wirekrak.Flashstrike.Instrument — the pipeline of an instrument and its shutdown

A submitter pushes events into the inbound ring; the matching-engine thread pops them, applies them and pushes them on
to the recorder ring; the recorder thread pops them and appends them to the log.  One stop flag ends both threads: each
leaves when it finds its ring empty, sees the flag and finds the ring empty once more.  A push and a pop of a ring and a
load or a store of the flag are one step each.

* `Instrument.accepted`, `applied`, `logged`: the events for which `submit_event` returned true, those given to the
  matching engine, those appended to the log.
* `logged_iff`: after `shutdown` the three are equal just when no push into the recorder ring was given up and the
  recorder thread left after the last event had come to it.  `applied_not_logged` is a run where it leaves first.
-/

namespace Wirekrak.Flashstrike

open Wirekrak.Lib

/-- Where the submitter stands in `submit_event`: about to push, or about to load the flag after a push that failed. -/
inductive Submitter (ε : Type*) where
  | idle
  | pushing (ev : ε)
  | refused (ev : ε)

/-- Where the matching-engine thread stands; `flush` is set in the loop that empties the ring after the flag was seen. -/
inductive MatchThread (ε : Type*) where
  | polling
  | checking
  | flushing
  | pushing (ev : ε) (flush : Bool)
  | waiting (ev : ε) (flush : Bool)
  | done

inductive RecorderThread where
  | polling
  | checking
  | flushing
  | done
  deriving DecidableEq

/-- Where the thread that shuts down stands: the flag stored, the first and the second thread joined. -/
inductive Shutdown where
  | running
  | stopping
  | joined
  | returned
  deriving DecidableEq

structure Instrument (ε : Type*) where
  inbound : List ε := []
  recorderRing : List ε := []
  stopFlag : Bool := false
  submitter : Submitter ε := .idle
  matcher : MatchThread ε := .polling
  recorder : RecorderThread := .polling
  shutdown : Shutdown := .running
  accepted : List ε := []
  applied : List ε := []
  logged : List ε := []

/-- A call of `submit_event`, and one step of a thread. -/
inductive InstrumentAct (ε : Type*) where
  | submit (ev : ε)
  | submitter
  | matcher
  | recorder
  | shutdown

namespace Instrument

variable {ε : Type*}

def submitStep (cap : ℕ) (s : Instrument ε) : Instrument ε :=
  match s.submitter with
  | .idle => s
  | .pushing ev =>
    match Fifo.push cap s.inbound ev with
    | some q => { s with inbound := q, submitter := .idle, accepted := s.accepted ++ [ev] }
    | none => { s with submitter := .refused ev }
  | .refused ev => if s.stopFlag then { s with submitter := .idle } else { s with submitter := .pushing ev }

/-- Back to the loop that `process_event_` was called from. -/
def resume (flush : Bool) : MatchThread ε := if flush then .flushing else .polling

def matchStep (cap : ℕ) (s : Instrument ε) : Instrument ε :=
  match s.matcher with
  | .polling =>
    match s.inbound with
    | ev :: q => { s with inbound := q, matcher := .pushing ev false, applied := s.applied ++ [ev] }
    | [] => { s with matcher := .checking }
  | .checking => if s.stopFlag then { s with matcher := .flushing } else { s with matcher := .polling }
  | .flushing =>
    match s.inbound with
    | ev :: q => { s with inbound := q, matcher := .pushing ev true, applied := s.applied ++ [ev] }
    | [] => { s with matcher := .done }
  | .pushing ev flush =>
    match Fifo.push cap s.recorderRing ev with
    | some q => { s with recorderRing := q, matcher := resume flush }
    | none => { s with matcher := .waiting ev flush }
  | .waiting ev flush =>
    -- the event is given up
    if s.stopFlag then { s with matcher := resume flush } else { s with matcher := .pushing ev flush }
  | .done => s

def recordStep (s : Instrument ε) : Instrument ε :=
  match s.recorder with
  | .polling =>
    match s.recorderRing with
    | ev :: q => { s with recorderRing := q, logged := s.logged ++ [ev] }
    | [] => { s with recorder := .checking }
  | .checking => if s.stopFlag then { s with recorder := .flushing } else { s with recorder := .polling }
  | .flushing =>
    match s.recorderRing with
    | ev :: q => { s with recorderRing := q, logged := s.logged ++ [ev] }
    | [] => { s with recorder := .done }
  | .done => s

/-- `shutdown`, and the destructor: store the flag, join the matching-engine thread, join the recorder thread. -/
def shutdownStep (s : Instrument ε) : Instrument ε :=
  match s.shutdown with
  | .running =>
    match s.submitter with
    | .idle => { s with stopFlag := true, shutdown := .stopping }
    | _ => s
  | .stopping =>
    match s.matcher with
    | .done => { s with shutdown := .joined }
    | _ => s
  | .joined => if s.recorder = .done then { s with shutdown := .returned } else s
  | .returned => s

/-- Events are submitted one after the other, and no more once `shutdown` is called. -/
def step (cap : ℕ) (s : Instrument ε) : InstrumentAct ε → Instrument ε
  | .submit ev =>
    match s.submitter, s.shutdown with
    | .idle, .running => { s with submitter := .pushing ev }
    | _, _ => s
  | .submitter => s.submitStep cap
  | .matcher => s.matchStep cap
  | .recorder => s.recordStep
  | .shutdown => s.shutdownStep

def after (cap : ℕ) (acts : List (InstrumentAct ε)) : Instrument ε := acts.foldl (step cap) {}

/-- What was accepted was applied and logged, each event once and in order. -/
def AllLogged (s : Instrument ε) : Prop := s.logged = s.applied ∧ s.applied = s.accepted

/-! ## The condition -/

/-- The event the matching-engine thread has applied and not pushed on yet. -/
def inHand : MatchThread ε → List ε
  | .pushing ev _ => [ev]
  | .waiting ev _ => [ev]
  | _ => []

/-- A push into the recorder ring that has failed is repeated. -/
def NotGivenUp (s : Instrument ε) : MatchThread ε → Prop
  | .waiting _ _ => s.stopFlag = false
  | _ => True

/-- The recorder thread leaves when nothing can come to it any more. -/
def NothingToCome (s : Instrument ε) : RecorderThread → Prop
  | .flushing => s.recorderRing = [] → s.inbound = [] ∧ inHand s.matcher = []
  | _ => True

def Kept (s : Instrument ε) : InstrumentAct ε → Prop
  | .matcher => s.NotGivenUp s.matcher
  | .recorder => s.NothingToCome s.recorder
  | _ => True

section

variable [DecidableEq ε] (s : Instrument ε)

instance : DecidablePred s.NotGivenUp
  | .waiting _ _ => inferInstanceAs (Decidable (s.stopFlag = false))
  | .polling => inferInstanceAs (Decidable True)
  | .checking => inferInstanceAs (Decidable True)
  | .flushing => inferInstanceAs (Decidable True)
  | .pushing _ _ => inferInstanceAs (Decidable True)
  | .done => inferInstanceAs (Decidable True)

instance : DecidablePred s.NothingToCome
  | .flushing => inferInstanceAs (Decidable (s.recorderRing = [] → s.inbound = [] ∧ inHand s.matcher = []))
  | .polling => inferInstanceAs (Decidable True)
  | .checking => inferInstanceAs (Decidable True)
  | .done => inferInstanceAs (Decidable True)

instance : DecidablePred s.Kept
  | .matcher => inferInstanceAs (Decidable (s.NotGivenUp s.matcher))
  | .recorder => inferInstanceAs (Decidable (s.NothingToCome s.recorder))
  | .submit _ => inferInstanceAs (Decidable True)
  | .submitter => inferInstanceAs (Decidable True)
  | .shutdown => inferInstanceAs (Decidable True)

end

/-! ## What a step does -/

/-- The rings, the event in the matching-engine thread's hand and the histories: an event is accepted, applied, pushed
on, logged, or given up (against `ok`); or nothing of this changes. -/
inductive Moves (ok : Prop) (s s' : Instrument ε) : Prop
  | rest (hin : s'.inbound = s.inbound) (hring : s'.recorderRing = s.recorderRing)
      (hhand : inHand s'.matcher = inHand s.matcher) (hacc : s'.accepted = s.accepted) (happ : s'.applied = s.applied)
      (hlog : s'.logged = s.logged)
  | accept (ev : ε) (hsub : s.submitter = .pushing ev) (hin : s'.inbound = s.inbound ++ [ev])
      (hring : s'.recorderRing = s.recorderRing) (hhand : inHand s'.matcher = inHand s.matcher)
      (hacc : s'.accepted = s.accepted ++ [ev]) (happ : s'.applied = s.applied) (hlog : s'.logged = s.logged)
  | apply (ev : ε) (hin : s.inbound = ev :: s'.inbound) (hring : s'.recorderRing = s.recorderRing)
      (hfree : inHand s.matcher = []) (hhand : inHand s'.matcher = [ev]) (hacc : s'.accepted = s.accepted)
      (happ : s'.applied = s.applied ++ [ev]) (hlog : s'.logged = s.logged)
  | pass (hin : s'.inbound = s.inbound) (hring : s'.recorderRing = s.recorderRing ++ inHand s.matcher)
      (hhand : inHand s'.matcher = []) (hacc : s'.accepted = s.accepted) (happ : s'.applied = s.applied)
      (hlog : s'.logged = s.logged)
  | log (ev : ε) (hrec : s.recorder ≠ .done) (hin : s'.inbound = s.inbound)
      (hring : s.recorderRing = ev :: s'.recorderRing) (hhand : inHand s'.matcher = inHand s.matcher)
      (hacc : s'.accepted = s.accepted) (happ : s'.applied = s.applied) (hlog : s'.logged = s.logged ++ [ev])
  | drop (ev : ε) (hbad : ¬ ok) (hin : s'.inbound = s.inbound) (hring : s'.recorderRing = s.recorderRing)
      (hheld : inHand s.matcher = [ev]) (hhand : inHand s'.matcher = []) (hacc : s'.accepted = s.accepted)
      (happ : s'.applied = s.applied) (hlog : s'.logged = s.logged)

variable {cap : ℕ} {s : Instrument ε}

theorem inHand_resume (flush : Bool) : inHand (resume flush : MatchThread ε) = [] := by
  cases flush <;> rfl

theorem push_eq {q q' : List ε} {ev : ε} (h : Fifo.push cap q ev = some q') : q' = q ++ [ev] := by
  unfold Fifo.push at h
  split at h
  · injection h with h
    exact h.symm
  · cases h

theorem moves_submitStep (ok : Prop) : Moves ok s (s.submitStep cap) := by
  unfold submitStep
  split
  · exact .rest rfl rfl rfl rfl rfl rfl
  · next ev hs =>
    split
    · next q hq => exact .accept ev hs (push_eq hq) rfl rfl rfl rfl rfl
    · exact .rest rfl rfl rfl rfl rfl rfl
  · split <;> exact .rest rfl rfl rfl rfl rfl rfl

theorem moves_matchStep : Moves (s.NotGivenUp s.matcher) s (s.matchStep cap) := by
  unfold matchStep
  split
  · next hm =>
    have hfree : inHand s.matcher = [] := by rw [hm]; rfl
    split
    · next ev q hq => exact .apply ev hq rfl hfree rfl rfl rfl rfl
    · exact .rest rfl rfl hfree.symm rfl rfl rfl
  · next hm =>
    have hfree : inHand s.matcher = [] := by rw [hm]; rfl
    split <;> exact .rest rfl rfl hfree.symm rfl rfl rfl
  · next hm =>
    have hfree : inHand s.matcher = [] := by rw [hm]; rfl
    split
    · next ev q hq => exact .apply ev hq rfl hfree rfl rfl rfl rfl
    · exact .rest rfl rfl hfree.symm rfl rfl rfl
  · next ev flush hm =>
    have hheld : inHand s.matcher = [ev] := by rw [hm]; rfl
    split
    · next q hq =>
      refine .pass rfl ?_ (inHand_resume flush) rfl rfl rfl
      rw [hheld]
      exact push_eq hq
    · exact .rest rfl rfl hheld.symm rfl rfl rfl
  · next ev flush hm =>
    have hheld : inHand s.matcher = [ev] := by rw [hm]; rfl
    split
    · next hstop =>
      refine .drop ev ?_ rfl rfl hheld (inHand_resume flush) rfl rfl rfl
      rw [hm]
      intro hno
      have hno' : s.stopFlag = false := hno
      rw [hstop] at hno'
      cases hno'
    · exact .rest rfl rfl hheld.symm rfl rfl rfl
  · exact .rest rfl rfl rfl rfl rfl rfl

theorem moves_recordStep (ok : Prop) : Moves ok s s.recordStep := by
  unfold recordStep
  split
  · next hr =>
    split
    · next ev q hq => exact .log ev (by rw [hr]; decide) rfl hq rfl rfl rfl rfl
    · exact .rest rfl rfl rfl rfl rfl rfl
  · split <;> exact .rest rfl rfl rfl rfl rfl rfl
  · next hr =>
    split
    · next ev q hq => exact .log ev (by rw [hr]; decide) rfl hq rfl rfl rfl rfl
    · exact .rest rfl rfl rfl rfl rfl rfl
  · exact .rest rfl rfl rfl rfl rfl rfl

theorem moves_shutdownStep (ok : Prop) : Moves ok s s.shutdownStep := by
  unfold shutdownStep
  split
  · split <;> exact .rest rfl rfl rfl rfl rfl rfl
  · split <;> exact .rest rfl rfl rfl rfl rfl rfl
  · split <;> exact .rest rfl rfl rfl rfl rfl rfl
  · exact .rest rfl rfl rfl rfl rfl rfl

theorem moves_step (a : InstrumentAct ε) : Moves (s.Kept a) s (s.step cap a) := by
  cases a with
  | submit ev =>
    simp only [step]
    split <;> exact .rest rfl rfl rfl rfl rfl rfl
  | submitter => exact moves_submitStep _
  | matcher => exact moves_matchStep
  | recorder => exact moves_recordStep _
  | shutdown => exact moves_shutdownStep _

/-! ## The threads and the flag -/

/-- The matching-engine thread has seen the flag. -/
def Leaving : MatchThread ε → Prop
  | .flushing => True
  | .pushing _ flush => flush = true
  | .waiting _ flush => flush = true
  | .done => True
  | _ => False

/-- What the phases of the threads say about the flag and about each other. -/
structure Control (s : Instrument ε) : Prop where
  flag : s.stopFlag = true ↔ s.shutdown ≠ .running
  quiet : s.stopFlag = true → s.submitter = .idle
  leaving : Leaving s.matcher → s.stopFlag = true
  emptied : s.matcher = .done → s.inbound = []
  draining : s.recorder = .flushing ∨ s.recorder = .done → s.stopFlag = true
  joined : s.shutdown = .joined ∨ s.shutdown = .returned → s.matcher = .done
  returned : s.shutdown = .returned → s.recorder = .done

theorem control_start : Control ({} : Instrument ε) where
  flag := iff_of_false Bool.false_ne_true (fun h => h rfl)
  quiet := fun _ => rfl
  leaving := fun h => h.elim
  emptied := fun _ => rfl
  draining := fun h => by rcases h with h | h <;> cases h
  joined := fun h => by rcases h with h | h <;> cases h
  returned := fun h => by cases h

theorem control_submitStep (h : Control s) : Control (s.submitStep cap) := by
  have hbusy : s.submitter ≠ .idle → s.stopFlag = false := by
    intro hne
    exact Bool.eq_false_iff.mpr fun hs => hne (h.quiet hs)
  unfold submitStep
  split
  · exact h
  · next ev hs =>
    have hrun := hbusy (by rw [hs]; exact fun hx => by cases hx)
    split
    · refine ⟨h.flag, fun _ => rfl, h.leaving, fun hd => ?_, h.draining, h.joined, h.returned⟩
      have hstop := h.leaving (by rw [show s.matcher = .done from hd]; trivial)
      rw [hrun] at hstop
      cases hstop
    · exact ⟨h.flag, fun hx => absurd (hrun.symm.trans hx) (by decide), h.leaving, h.emptied, h.draining, h.joined,
        h.returned⟩
  · next ev hs =>
    have hrun := hbusy (by rw [hs]; exact fun hx => by cases hx)
    split
    · exact ⟨h.flag, fun _ => rfl, h.leaving, h.emptied, h.draining, h.joined, h.returned⟩
    · exact ⟨h.flag, fun hx => absurd (hrun.symm.trans hx) (by decide), h.leaving, h.emptied, h.draining, h.joined,
        h.returned⟩

/-- The matching-engine thread moves on, and is done only with an empty ring. -/
theorem Control.matching (h : Control s) {m : MatchThread ε} {inbound ring applied : List ε}
    (hbusy : s.matcher ≠ .done) (hl : Leaving m → s.stopFlag = true) (hd : m = .done → inbound = []) :
    Control { s with matcher := m, inbound := inbound, recorderRing := ring, applied := applied } where
  flag := h.flag
  quiet := h.quiet
  leaving := hl
  emptied := hd
  draining := h.draining
  joined := fun hj => absurd (h.joined hj) hbusy
  returned := h.returned

theorem leaving_resume {flush : Bool} (h : Leaving (resume flush : MatchThread ε)) : flush = true := by
  cases flush
  · exact h.elim
  · rfl

theorem resume_ne_done (flush : Bool) : (resume flush : MatchThread ε) ≠ .done := by
  cases flush <;> exact fun hx => by cases hx

theorem control_matchStep (h : Control s) : Control (s.matchStep cap) := by
  unfold matchStep
  split
  · next hm =>
    have hb : s.matcher ≠ .done := by rw [hm]; exact fun hx => by cases hx
    split
    · exact h.matching hb (fun hx => by cases hx) (fun hx => by cases hx)
    · exact h.matching hb (fun hx => hx.elim) (fun hx => by cases hx)
  · next hm =>
    have hb : s.matcher ≠ .done := by rw [hm]; exact fun hx => by cases hx
    split
    · next hstop => exact h.matching hb (fun _ => hstop) (fun hx => by cases hx)
    · exact h.matching hb (fun hx => hx.elim) (fun hx => by cases hx)
  · next hm =>
    have hb : s.matcher ≠ .done := by rw [hm]; exact fun hx => by cases hx
    have hstop := h.leaving (by rw [hm]; trivial)
    split
    · exact h.matching hb (fun _ => hstop) (fun hx => by cases hx)
    · next hq => exact h.matching hb (fun _ => hstop) (fun _ => hq)
  · next ev flush hm =>
    have hb : s.matcher ≠ .done := by rw [hm]; exact fun hx => by cases hx
    have hstop : flush = true → s.stopFlag = true := fun hf => h.leaving (by rw [hm]; exact hf)
    split
    · exact h.matching hb (fun hl => hstop (leaving_resume hl)) (fun hx => absurd hx (resume_ne_done flush))
    · exact h.matching hb hstop (fun hx => by cases hx)
  · next ev flush hm =>
    have hb : s.matcher ≠ .done := by rw [hm]; exact fun hx => by cases hx
    have hstop : flush = true → s.stopFlag = true := fun hf => h.leaving (by rw [hm]; exact hf)
    split
    · exact h.matching hb (fun hl => hstop (leaving_resume hl)) (fun hx => absurd hx (resume_ne_done flush))
    · exact h.matching hb hstop (fun hx => by cases hx)
  · exact h

theorem Control.recording (h : Control s) {r : RecorderThread} {ring logged : List ε} (hbusy : s.recorder ≠ .done)
    (hr : r = .flushing ∨ r = .done → s.stopFlag = true) :
    Control { s with recorder := r, recorderRing := ring, logged := logged } where
  flag := h.flag
  quiet := h.quiet
  leaving := h.leaving
  emptied := h.emptied
  draining := hr
  joined := h.joined
  returned := fun hj => absurd (h.returned hj) hbusy

theorem control_recordStep (h : Control s) : Control s.recordStep := by
  have hlater : ∀ {r : RecorderThread}, r = .polling ∨ r = .checking →
      r = .flushing ∨ r = .done → s.stopFlag = true := by
    rintro r (rfl | rfl) (hx | hx) <;> cases hx
  unfold recordStep
  split
  · next hr =>
    have hb : s.recorder ≠ .done := by rw [hr]; decide
    split
    · exact h.recording hb h.draining
    · exact h.recording hb (hlater (.inr rfl))
  · next hr =>
    have hb : s.recorder ≠ .done := by rw [hr]; decide
    split
    · next hstop => exact h.recording hb (fun _ => hstop)
    · exact h.recording hb (hlater (.inl rfl))
  · next hr =>
    have hb : s.recorder ≠ .done := by rw [hr]; decide
    split
    · exact h.recording hb h.draining
    · exact h.recording hb (fun _ => h.draining (.inl hr))
  · exact h

theorem control_shutdownStep (h : Control s) : Control s.shutdownStep := by
  unfold shutdownStep
  split
  · split
    · next hs =>
      refine ⟨⟨fun _ hx => (by cases hx), fun _ => rfl⟩, fun _ => hs, fun _ => rfl, h.emptied, fun _ => rfl, ?_,
        fun hx => (by cases hx)⟩
      rintro (hx | hx) <;> cases hx
    · exact h
  · next hs =>
    have hstop : s.stopFlag = true := h.flag.mpr (by rw [hs]; decide)
    split
    · next hm =>
      exact ⟨⟨fun _ hx => (by cases hx), fun _ => hstop⟩, h.quiet, h.leaving, h.emptied, h.draining, fun _ => hm,
        fun hx => by cases hx⟩
    · exact h
  · next hs =>
    have hstop : s.stopFlag = true := h.flag.mpr (by rw [hs]; decide)
    split
    · next hr =>
      exact ⟨⟨fun _ hx => (by cases hx), fun _ => hstop⟩, h.quiet, h.leaving, h.emptied, h.draining,
        fun _ => h.joined (.inl hs), fun _ => hr⟩
    · exact h
  · exact h

theorem control_step (h : Control s) (a : InstrumentAct ε) : Control (s.step cap a) := by
  cases a with
  | submit ev =>
    simp only [step]
    split
    · next hs =>
      have hrun : s.stopFlag ≠ true := fun hx => h.flag.mp hx hs
      exact ⟨h.flag, fun hx => absurd hx hrun, h.leaving, h.emptied, h.draining, h.joined, h.returned⟩
    · exact h
  | submitter => exact control_submitStep h
  | matcher => exact control_matchStep h
  | recorder => exact control_recordStep h
  | shutdown => exact control_shutdownStep h

/-! ## No event is lost, or one is lost for good -/

/-- Accepted events are applied in order; what is logged, underway or given up was applied. -/
structure Counted (s : Instrument ε) : Prop where
  accepted : s.accepted = s.applied ++ s.inbound
  logged : s.logged.length + s.recorderRing.length + (inHand s.matcher).length ≤ s.applied.length

/-- Applied events are logged or underway to the log. -/
structure Conserved (s : Instrument ε) : Prop where
  applied : s.applied = s.logged ++ s.recorderRing ++ inHand s.matcher
  left : s.recorder = .done → s.recorderRing = [] ∧ s.inbound = [] ∧ inHand s.matcher = []

/-- An event was given up, or can reach the log no more. -/
def Broken (s : Instrument ε) : Prop :=
  s.logged.length + s.recorderRing.length + (inHand s.matcher).length < s.applied.length ∨
    s.recorder = .done ∧ s.logged.length < s.accepted.length

variable {ok : Prop} {s' : Instrument ε}

theorem Counted.moves (h : Counted s) (hm : Moves ok s s') : Counted s' := by
  obtain ⟨hacc, hlog⟩ := h
  cases hm with
  | rest h1 h2 h3 h4 h5 h6 => exact ⟨by rw [h4, h5, h1, hacc], by rw [h6, h2, h3, h5]; exact hlog⟩
  | accept ev _ h1 h2 h3 h4 h5 h6 =>
    refine ⟨?_, by rw [h6, h2, h3, h5]; exact hlog⟩
    rw [h4, h5, h1, hacc, List.append_assoc]
  | apply ev h1 h2 hfree h3 h4 h5 h6 =>
    refine ⟨?_, ?_⟩
    · rw [h4, h5, hacc, h1, List.append_assoc, List.singleton_append]
    · rw [hfree, List.length_nil] at hlog
      rw [h6, h2, h3, h5, List.length_append, List.length_singleton]
      omega
  | pass h1 h2 h3 h4 h5 h6 =>
    refine ⟨by rw [h4, h5, h1, hacc], ?_⟩
    rw [h6, h2, h3, h5, List.length_append, List.length_nil]
    omega
  | log ev _ h1 h2 h3 h4 h5 h6 =>
    refine ⟨by rw [h4, h5, h1, hacc], ?_⟩
    rw [h2, List.length_cons] at hlog
    rw [h6, h3, h5, List.length_append, List.length_singleton]
    omega
  | drop ev _ h1 h2 hheld h3 h4 h5 h6 =>
    refine ⟨by rw [h4, h5, h1, hacc], ?_⟩
    rw [hheld, List.length_singleton] at hlog
    rw [h6, h2, h3, h5, List.length_nil]
    omega

/-- The other threads leave the recorder thread where it stands. -/
theorem recorder_of_ne {a : InstrumentAct ε} (ha : a ≠ .recorder) : (s.step cap a).recorder = s.recorder := by
  cases a with
  | submit ev =>
    simp only [step]
    split <;> rfl
  | submitter =>
    simp only [step, submitStep]
    split
    · rfl
    · split <;> rfl
    · split <;> rfl
  | matcher =>
    simp only [step, matchStep]
    split
    · split <;> rfl
    · split <;> rfl
    · split <;> rfl
    · split <;> rfl
    · split <;> rfl
    · rfl
  | recorder => exact absurd rfl ha
  | shutdown =>
    simp only [step, shutdownStep]
    split
    · split <;> rfl
    · split <;> rfl
    · split <;> rfl
    · rfl

/-- The recorder thread is done when it was, or leaves now. -/
theorem recorder_done (a : InstrumentAct ε) : (s.step cap a).recorder = .done ↔
    s.recorder = .done ∨ a = .recorder ∧ s.recorder = .flushing ∧ s.recorderRing = [] := by
  by_cases ha : a = .recorder
  · subst ha
    simp only [step, recordStep]
    split
    · next hr => split <;> simp [hr]
    · next hr => split <;> simp [hr]
    · next hr =>
      split
      · next hq => simp [hr, hq]
      · next hq => simp [hr, hq]
    · next hr => simp [hr]
  · rw [recorder_of_ne ha]
    simp [ha]

/-- Where no event is given up, none gets lost on the way. -/
theorem Conserved.applied_moves (h : Conserved s) (hm : Moves ok s s') (hok : ok) :
    s'.applied = s'.logged ++ s'.recorderRing ++ inHand s'.matcher := by
  have happ := h.applied
  cases hm with
  | rest h1 h2 h3 h4 h5 h6 => rw [h5, h6, h2, h3, happ]
  | accept ev _ h1 h2 h3 h4 h5 h6 => rw [h5, h6, h2, h3, happ]
  | apply ev h1 h2 hfree h3 h4 h5 h6 => rw [h5, h6, h2, h3, happ, hfree, List.append_nil]
  | pass h1 h2 h3 h4 h5 h6 => rw [h5, h6, h2, h3, happ, List.append_nil, List.append_assoc]
  | log ev _ h1 h2 h3 h4 h5 h6 =>
    rw [h2] at happ
    rw [h5, h6, h3, happ]
    simp
  | drop ev hbad => exact absurd hok hbad

theorem Conserved.step (h : Conserved s) (hc : Control s) {a : InstrumentAct ε} (hok : s.Kept a) :
    Conserved (s.step cap a) := by
  have hm : Moves (s.Kept a) s (s.step cap a) := moves_step a
  refine ⟨h.applied_moves hm hok, fun hdone => ?_⟩
  have hbefore : s.recorderRing = [] ∧ s.inbound = [] ∧ inHand s.matcher = [] := by
    rcases (recorder_done a).mp hdone with hd | ⟨rfl, hf, hring⟩
    · exact h.left hd
    · simp only [Kept, hf, NothingToCome] at hok
      exact ⟨hring, hok hring⟩
  have hstop : s.stopFlag = true := by
    rcases (recorder_done a).mp hdone with hd | ⟨-, hf, -⟩
    · exact hc.draining (.inr hd)
    · exact hc.draining (.inl hf)
  obtain ⟨hring, hin, hhand⟩ := hbefore
  cases hm with
  | rest h1 h2 h3 => exact ⟨h2.trans hring, h1.trans hin, h3.trans hhand⟩
  | accept ev hsub => rw [hc.quiet hstop] at hsub; cases hsub
  | apply ev h1 => rw [hin] at h1; cases h1
  | pass h1 h2 h3 => exact ⟨by rw [h2, hring, hhand]; rfl, h1.trans hin, h3⟩
  | log ev _ _ h2 => rw [hring] at h2; cases h2
  | drop ev hbad => exact absurd hok hbad

/-- What is lost stays lost. -/
theorem Broken.step (h : Broken s) (a : InstrumentAct ε) : Broken (s.step cap a) := by
  have hm : Moves (s.Kept a) s (s.step cap a) := moves_step a
  rcases h with h | ⟨hd, h⟩
  · refine .inl ?_
    cases hm with
    | rest h1 h2 h3 h4 h5 h6 => rw [h6, h2, h3, h5]; exact h
    | accept ev _ h1 h2 h3 h4 h5 h6 => rw [h6, h2, h3, h5]; exact h
    | apply ev h1 h2 hfree h3 h4 h5 h6 =>
      rw [hfree, List.length_nil] at h
      rw [h6, h2, h3, h5, List.length_append, List.length_singleton]
      omega
    | pass h1 h2 h3 h4 h5 h6 =>
      rw [h6, h2, h3, h5, List.length_append, List.length_nil]
      omega
    | log ev _ h1 h2 h3 h4 h5 h6 =>
      rw [h2, List.length_cons] at h
      rw [h6, h3, h5, List.length_append, List.length_singleton]
      omega
    | drop ev _ h1 h2 hheld h3 h4 h5 h6 =>
      rw [hheld, List.length_singleton] at h
      rw [h6, h2, h3, h5, List.length_nil]
      omega
  · refine .inr ⟨(recorder_done a).mpr (.inl hd), ?_⟩
    cases hm with
    | rest h1 h2 h3 h4 h5 h6 => rw [h6, h4]; exact h
    | accept ev _ h1 h2 h3 h4 h5 h6 =>
      rw [h6, h4, List.length_append]
      omega
    | apply ev h1 h2 hfree h3 h4 h5 h6 => rw [h6, h4]; exact h
    | pass h1 h2 h3 h4 h5 h6 => rw [h6, h4]; exact h
    | log ev hrec => exact absurd hd hrec
    | drop ev _ h1 h2 hheld h3 h4 h5 h6 => rw [h6, h4]; exact h

/-- A step against the condition loses an event. -/
theorem broken_of_not_kept (h : Counted s) {a : InstrumentAct ε} (hbad : ¬ s.Kept a) : Broken (s.step cap a) := by
  cases a with
  | submit ev => exact absurd trivial hbad
  | submitter => exact absurd trivial hbad
  | shutdown => exact absurd trivial hbad
  | matcher =>
    simp only [Kept] at hbad
    cases hm : s.matcher with
    | waiting ev flush =>
      rw [hm] at hbad
      have hstop : s.stopFlag = true := by
        rw [← Bool.not_eq_false]
        exact hbad
      have hlog := h.logged
      rw [hm] at hlog
      refine .inl ?_
      simp only [step, matchStep, hm, hstop, if_true, inHand_resume, List.length_nil]
      simp only [inHand, List.length_singleton] at hlog
      omega
    | polling => rw [hm] at hbad; exact absurd trivial hbad
    | checking => rw [hm] at hbad; exact absurd trivial hbad
    | flushing => rw [hm] at hbad; exact absurd trivial hbad
    | pushing ev flush => rw [hm] at hbad; exact absurd trivial hbad
    | done => rw [hm] at hbad; exact absurd trivial hbad
  | recorder =>
    simp only [Kept] at hbad
    cases hr : s.recorder with
    | flushing =>
      rw [hr] at hbad
      simp only [NothingToCome, Classical.not_imp] at hbad
      obtain ⟨hring, hleft⟩ := hbad
      have hlog := h.logged
      have hacc := congrArg List.length h.accepted
      rw [List.length_append] at hacc
      refine .inr ⟨(recorder_done _).mpr (.inr ⟨rfl, hr, hring⟩), ?_⟩
      simp only [step, recordStep, hr, hring]
      by_contra hge
      have h1 : s.inbound.length = 0 := by omega
      have h2 : (inHand s.matcher).length = 0 := by omega
      exact hleft ⟨List.length_eq_zero_iff.mp h1, List.length_eq_zero_iff.mp h2⟩
    | polling => rw [hr] at hbad; exact absurd trivial hbad
    | checking => rw [hr] at hbad; exact absurd trivial hbad
    | done => rw [hr] at hbad; exact absurd trivial hbad

/-- A run has met the condition so far and has lost nothing, or it has not and an event is lost. -/
theorem after_cases (cap : ℕ) (acts : List (InstrumentAct ε)) :
    Control (after cap acts) ∧ Counted (after cap acts) ∧
      (Admitted (step cap) Kept {} acts ∧ Conserved (after cap acts) ∨
        ¬ Admitted (step cap) Kept {} acts ∧ Broken (after cap acts)) := by
  induction acts using List.reverseRecOn with
  | nil =>
    refine ⟨control_start, ⟨rfl, Nat.le_refl _⟩, .inl ⟨trivial, rfl, fun h => ?_⟩⟩
    cases h
  | append_singleton acts a ih =>
    obtain ⟨hc, hn, hcase⟩ := ih
    have hstep : after cap (acts ++ [a]) = (after cap acts).step cap a := by
      unfold after
      rw [List.foldl_append, List.foldl_cons, List.foldl_nil]
    rw [hstep]
    refine ⟨control_step hc a, hn.moves (moves_step a), ?_⟩
    rw [admitted_concat]
    rcases hcase with ⟨hadm, hcons⟩ | ⟨hadm, hbr⟩
    · by_cases hk : (after cap acts).Kept a
      · exact .inl ⟨⟨hadm, hk⟩, hcons.step hc hk⟩
      · exact .inr ⟨fun hx => hk hx.2, broken_of_not_kept hn hk⟩
    · exact .inr ⟨fun hx => hadm hx.1, hbr.step a⟩

/-- **Accepted, applied, logged.** For every interleaving up to the return of `shutdown`: what was accepted was applied
and logged, each event once and in order, if and only if no push into the recorder ring was given up for the stop flag,
and the recorder thread left when the inbound ring was empty and the matching-engine thread had no event in hand. -/
theorem logged_iff (cap : ℕ) (acts : List (InstrumentAct ε)) (hret : (after cap acts).shutdown = .returned) :
    AllLogged (after cap acts) ↔ Admitted (step cap) Kept {} acts := by
  obtain ⟨hc, hn, hcase⟩ := after_cases cap acts
  have hmatcher := hc.joined (.inr hret)
  have hrec := hc.returned hret
  have hin := hc.emptied hmatcher
  have hhand : inHand (after cap acts).matcher = [] := by
    rw [hmatcher]
    rfl
  rcases hcase with ⟨hadm, hcons⟩ | ⟨hadm, hbr⟩
  · refine iff_of_true ⟨?_, ?_⟩ hadm
    · rw [hcons.applied, (hcons.left hrec).1, hhand, List.append_nil, List.append_nil]
    · rw [hn.accepted, hin, List.append_nil]
  · refine iff_of_false ?_ hadm
    rintro ⟨h1, h2⟩
    rcases hbr with hlt | ⟨-, hlt⟩
    · rw [h1] at hlt
      omega
    · rw [h1, h2] at hlt
      omega

/-- `RequestEvent` rings of 1024 places keep one free. -/
def ringRoom : ℕ := 1023

/-- One event passes through before the shutdown. -/
theorem logged_iff_one_event :
    let acts : List (InstrumentAct ℕ) :=
      [.submit 7, .submitter, .matcher, .matcher, .recorder, .shutdown, .matcher, .matcher, .matcher, .shutdown,
        .recorder, .recorder, .recorder, .shutdown]
    (after ringRoom acts).logged = [7] ∧ AllLogged (after ringRoom acts) := by
  intro acts
  exact ⟨by decide, (logged_iff ringRoom acts (by decide)).mpr (by decide)⟩

/-- The recorder thread sees the flag and its empty ring while the matching-engine thread still has an event to come. -/
theorem applied_not_logged :
    let acts : List (InstrumentAct ℕ) :=
      [.submit 7, .submitter, .shutdown, .recorder, .recorder, .recorder, .matcher, .matcher, .matcher, .matcher,
        .matcher, .shutdown, .shutdown]
    let s := after ringRoom acts
    s.shutdown = .returned ∧ s.accepted = [7] ∧ s.applied = [7] ∧ s.logged = [] ∧ ¬ AllLogged s := by
  intro acts s
  have hlog : s.logged = [] := by decide
  have happ : s.applied = [7] := by decide
  refine ⟨by decide, by decide, happ, hlog, fun h => ?_⟩
  have h1 := h.1
  rw [hlog, happ] at h1
  cases h1

end Instrument

end Wirekrak.Flashstrike

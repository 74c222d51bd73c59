import Wirekrak.Flashstrike.Instrument
import Wirekrak.Flashstrike.Status
import Wirekrak.Lib.Reactive

/-!
# Wirekrak.Flashstrike.Async — the asynchronous matching engine

`AsyncMatchingEngine` runs the matching engine on a thread of its own: a submitter pushes events into the inbound ring,
the thread pops and applies them and pushes the trades into the trades ring, from which a consumer pops them.  A trade
that finds the ring full is pushed again and again, whatever the stop flag says.  A push and a pop of a ring, a load and
the store of the flag are one step each; the book is the thread's own, so an event is applied in one step and its trades
are pushed one by one after that.

* `Kept.step`: the engine has applied what was accepted, in order, and its trades are popped, in the ring or to come.
* `applies_all_iff`: after `shutdown` everything accepted was applied just when no push came after the thread's last
  look at the ring.
* `returns_iff`: without a consumer `shutdown` returns just when the trades to come fit into the ring.
* `Engine.processEvent`: the matching engine as the component; alone it is `SyncMatchingEngine`.  A component is a total
  function, so that both results for the matching engine are about requests that it returns from.
* `Engine.async_refines_sync`, `Engine.async_shutdown_returns_iff`: these results.
-/

namespace Wirekrak.Flashstrike

open Wirekrak.Lib

/-- Where the matching-engine thread stands; `flush` is set in the loop that empties the ring after the flag was
seen. -/
inductive AsyncThread (τ : Type*) where
  | polling
  | checking
  | flushing
  | emitting (trades : List τ) (flush : Bool)
  | done
  deriving DecidableEq

inductive AsyncShutdown where
  | running
  | stopping
  | returned
  deriving DecidableEq

structure AsyncMatchingEngine (σ ε τ : Type*) where
  inboundRing : List ε := []
  tradesRing : List τ := []
  stopFlag : Bool := false
  submitter : Submitter ε := .idle
  thread : AsyncThread τ := .polling
  shutdown : AsyncShutdown := .running
  matchingEngine : σ
  accepted : List ε := []
  applied : List ε := []
  consumed : List τ := []

/-- A call of `submit_event`, and one step of a party. -/
inductive AsyncAct (ε : Type*) where
  | submit (ev : ε)
  | submitter
  | thread
  | consumer
  | shutdown

namespace AsyncMatchingEngine

variable {σ ε τ : Type*} (f : σ → ε → σ × List τ) (capIn capOut : ℕ)

def submitStep (s : AsyncMatchingEngine σ ε τ) : AsyncMatchingEngine σ ε τ :=
  match s.submitter with
  | .idle => s
  | .pushing ev =>
    match Fifo.push capIn s.inboundRing ev with
    | some q => { s with inboundRing := q, submitter := .idle, accepted := s.accepted ++ [ev] }
    | none => { s with submitter := .refused ev }
  | .refused ev => if s.stopFlag then { s with submitter := .idle } else { s with submitter := .pushing ev }

/-- Back to the loop that `process_event_` was called from. -/
def backTo (flush : Bool) : AsyncThread τ := if flush then .flushing else .polling

/-- `process_event_`: the event is applied, and its trades are to be pushed. -/
def process (s : AsyncMatchingEngine σ ε τ) (ev : ε) (q : List ε) (flush : Bool) : AsyncMatchingEngine σ ε τ :=
  { s with
    inboundRing := q
    matchingEngine := (f s.matchingEngine ev).1
    thread := .emitting (f s.matchingEngine ev).2 flush
    applied := s.applied ++ [ev] }

def threadStep (s : AsyncMatchingEngine σ ε τ) : AsyncMatchingEngine σ ε τ :=
  match s.thread with
  | .polling =>
    match s.inboundRing with
    | ev :: q => s.process f ev q false
    | [] => { s with thread := .checking }
  | .checking => if s.stopFlag then { s with thread := .flushing } else { s with thread := .polling }
  | .flushing =>
    match s.inboundRing with
    | ev :: q => s.process f ev q true
    | [] => { s with thread := .done }
  | .emitting [] flush => { s with thread := backTo flush }
  | .emitting (t :: ts) flush =>
    match Fifo.push capOut s.tradesRing t with
    | some r => { s with tradesRing := r, thread := .emitting ts flush }
    | none => s
  | .done => s

def consumeStep (s : AsyncMatchingEngine σ ε τ) : AsyncMatchingEngine σ ε τ :=
  match s.tradesRing with
  | t :: r => { s with tradesRing := r, consumed := s.consumed ++ [t] }
  | [] => s

/-- `shutdown`, and the destructor: store the flag, join the thread. -/
def shutdownStep (s : AsyncMatchingEngine σ ε τ) : AsyncMatchingEngine σ ε τ :=
  match s.shutdown with
  | .running => { s with stopFlag := true, shutdown := .stopping }
  | .stopping =>
    match s.thread with
    | .done => { s with shutdown := .returned }
    | _ => s
  | .returned => s

/-- One submitter: a call of `submit_event` begins when the last one has returned. -/
def step (s : AsyncMatchingEngine σ ε τ) : AsyncAct ε → AsyncMatchingEngine σ ε τ
  | .submit ev =>
    match s.submitter with
    | .idle => { s with submitter := .pushing ev }
    | _ => s
  | .submitter => s.submitStep capIn
  | .thread => s.threadStep f capOut
  | .consumer => s.consumeStep
  | .shutdown => s.shutdownStep

/-- After `initialize` and the steps of the parties, in this order. -/
def after (e : σ) (acts : List (AsyncAct ε)) : AsyncMatchingEngine σ ε τ :=
  acts.foldl (step f capIn capOut) { matchingEngine := e }

/-- The trades of the last event that have not been pushed. -/
def pending : AsyncThread τ → List τ
  | .emitting ts _ => ts
  | _ => []

/-! ## What is kept -/

/-- The parties together are the component on its own: what was accepted was applied in order or waits, and the trades
of what was applied are popped, in the ring or about to be pushed. -/
structure Kept (e : σ) (s : AsyncMatchingEngine σ ε τ) : Prop where
  accepted : s.accepted = s.applied ++ s.inboundRing
  engine : s.matchingEngine = Reactive.after f e s.applied
  trades : s.consumed ++ s.tradesRing ++ pending s.thread = Reactive.output f e s.applied
  bound : s.tradesRing.length ≤ capOut
  flag : s.stopFlag = true ↔ s.shutdown ≠ .running
  returned : s.shutdown = .returned → s.thread = .done

variable {f capIn capOut} {e : σ} {s : AsyncMatchingEngine σ ε τ}

theorem kept_new (f : σ → ε → σ × List τ) (capOut : ℕ) (e : σ) : Kept f capOut e { matchingEngine := e } := by
  refine ⟨rfl, rfl, rfl, Nat.zero_le _, ?_, fun h => by cases h⟩
  exact ⟨fun h => (by cases h), fun h => absurd rfl h⟩

theorem pending_backTo (flush : Bool) : pending (backTo flush : AsyncThread τ) = [] := by
  cases flush <;> rfl

theorem Kept.process (h : Kept f capOut e s) {ev : ε} {q : List ε} (hq : s.inboundRing = ev :: q)
    (hp : pending s.thread = []) (hd : s.thread ≠ .done) (flush : Bool) :
    Kept f capOut e (s.process f ev q flush) := by
  refine ⟨?_, ?_, ?_, h.bound, h.flag, fun hr => absurd (h.returned hr) hd⟩
  · show s.accepted = s.applied ++ [ev] ++ q
    rw [h.accepted, hq, List.append_assoc, List.singleton_append]
  · show (f s.matchingEngine ev).1 = _
    simp [AsyncMatchingEngine.process, h.engine]
  · have ht := h.trades
    rw [hp, List.append_nil] at ht
    simp [AsyncMatchingEngine.process, pending, ht, h.engine]

theorem Kept.threadStep (h : Kept f capOut e s) : Kept f capOut e (s.threadStep f capOut) := by
  have hmove : ∀ {t : AsyncThread τ}, pending t = pending s.thread → s.thread ≠ .done →
      Kept f capOut e { s with thread := t } := by
    intro t ht hd
    refine ⟨h.accepted, h.engine, ?_, h.bound, h.flag, fun hr => absurd (h.returned hr) hd⟩
    show s.consumed ++ s.tradesRing ++ pending t = _
    rw [ht]
    exact h.trades
  unfold AsyncMatchingEngine.threadStep
  split
  · next hs =>
    have hd : s.thread ≠ .done := by rw [hs]; rintro ⟨⟩
    split
    · next ev q hq => exact h.process hq (by rw [hs]; rfl) hd false
    · exact hmove (by rw [hs]; rfl) hd
  · next hs =>
    have hd : s.thread ≠ .done := by rw [hs]; rintro ⟨⟩
    split <;> exact hmove (by rw [hs]; rfl) hd
  · next hs =>
    have hd : s.thread ≠ .done := by rw [hs]; rintro ⟨⟩
    split
    · next ev q hq => exact h.process hq (by rw [hs]; rfl) hd true
    · exact hmove (by rw [hs]; rfl) hd
  · next flush hs => exact hmove (by rw [hs, pending_backTo]; rfl) (by rw [hs]; rintro ⟨⟩)
  · next t ts flush hs =>
    split
    · next r hr =>
      unfold Fifo.push at hr
      split at hr
      · next hlt =>
        cases hr
        refine ⟨h.accepted, h.engine, ?_, ?_, h.flag, fun hr => ?_⟩
        · have ht := h.trades
          rw [hs] at ht
          simpa [pending] using ht
        · rw [List.length_append, List.length_singleton]
          exact hlt
        · have hd := h.returned hr
          rw [hs] at hd
          cases hd
      · cases hr
    · exact h
  · exact h

/-- **Every step of every party keeps it.** -/
theorem Kept.step (h : Kept f capOut e s) (a : AsyncAct ε) : Kept f capOut e (s.step f capIn capOut a) := by
  cases a with
  | submit ev =>
    unfold AsyncMatchingEngine.step
    dsimp only
    split
    · exact ⟨h.accepted, h.engine, h.trades, h.bound, h.flag, h.returned⟩
    · exact h
  | submitter =>
    show Kept f capOut e (s.submitStep capIn)
    unfold submitStep
    split
    · exact h
    · next ev _ =>
      split
      · next q hq =>
        refine ⟨?_, h.engine, h.trades, h.bound, h.flag, h.returned⟩
        show s.accepted ++ [ev] = s.applied ++ q
        rw [h.accepted, Instrument.push_eq hq, List.append_assoc]
      · exact ⟨h.accepted, h.engine, h.trades, h.bound, h.flag, h.returned⟩
    · split <;> exact ⟨h.accepted, h.engine, h.trades, h.bound, h.flag, h.returned⟩
  | thread => exact h.threadStep
  | consumer =>
    show Kept f capOut e s.consumeStep
    unfold consumeStep
    split
    · next t r hr =>
      refine ⟨h.accepted, h.engine, ?_, ?_, h.flag, h.returned⟩
      · have ht := h.trades
        rw [hr] at ht
        simpa using ht
      · have hb := h.bound
        rw [hr, List.length_cons] at hb
        exact Nat.le_of_succ_le hb
    · exact h
  | shutdown =>
    show Kept f capOut e s.shutdownStep
    unfold shutdownStep
    split
    · next hs =>
      refine ⟨h.accepted, h.engine, h.trades, h.bound, ?_, fun hr => by cases hr⟩
      exact ⟨fun _ hr => (by cases hr), fun _ => rfl⟩
    · next hs =>
      split
      · next ht => exact ⟨h.accepted, h.engine, h.trades, h.bound,
          ⟨fun _ hr => (by cases hr), fun _ => h.flag.mpr (by rw [hs]; rintro ⟨⟩)⟩, fun _ => ht⟩
      · exact h
    · exact h

theorem kept_after (f : σ → ε → σ × List τ) (capIn capOut : ℕ) (e : σ) (acts : List (AsyncAct ε)) :
    Kept f capOut e (after f capIn capOut e acts) := by
  induction acts using List.reverseRecOn with
  | nil => exact kept_new f capOut e
  | append_singleton acts a ih =>
    unfold after
    rw [List.foldl_append]
    exact ih.step a

/-! ## What is accepted too late -/

/-- Nothing is pushed once the thread has left. -/
def InTime (capIn : ℕ) (s : AsyncMatchingEngine σ ε τ) : AsyncAct ε → Prop
  | .submitter => s.thread = .done → ∀ ev, s.submitter = .pushing ev → capIn ≤ s.inboundRing.length
  | _ => True

variable (f capIn capOut) in
/-- What the steps of the other parties do: the thread stands still, and events only come in. -/
theorem other_step {a : AsyncAct ε} (ha : a ≠ .thread) : (s.step f capIn capOut a).thread = s.thread ∧
    (s.thread = .done → s.inboundRing = [] → ((s.step f capIn capOut a).inboundRing = [] ↔ s.InTime capIn a)) ∧
    (s.inboundRing ≠ [] → (s.step f capIn capOut a).inboundRing ≠ []) := by
  have hrest : ∀ {u : AsyncMatchingEngine σ ε τ}, u.thread = s.thread → u.inboundRing = s.inboundRing →
      s.InTime capIn a → u.thread = s.thread ∧
        (s.thread = .done → s.inboundRing = [] → (u.inboundRing = [] ↔ s.InTime capIn a)) ∧
        (s.inboundRing ≠ [] → u.inboundRing ≠ []) := by
    intro u ht hq hin
    rw [hq]
    exact ⟨ht, fun _ h0 => iff_of_true h0 hin, id⟩
  cases a with
  | submit ev =>
    unfold step
    dsimp only
    split <;> exact hrest rfl rfl trivial
  | submitter =>
    unfold step submitStep
    dsimp only
    split
    · next hs => exact hrest rfl rfl (fun _ ev hev => by rw [hs] at hev; cases hev)
    · next ev hs =>
      by_cases hroom : s.inboundRing.length < capIn
      · rw [Fifo.push_some hroom]
        refine ⟨rfl, fun hd h0 => ?_, fun _ => by simp⟩
        refine iff_of_false (by simp) (fun hin => ?_)
        have := hin hd ev hs
        omega
      · rw [Fifo.push_none (not_lt.mp hroom)]
        exact hrest rfl rfl (fun _ _ _ => not_lt.mp hroom)
    · next ev hs =>
      have hin : s.InTime capIn .submitter := fun _ ev' hev => by rw [hs] at hev; cases hev
      split <;> exact hrest rfl rfl hin
  | thread => exact absurd rfl ha
  | consumer =>
    unfold step consumeStep
    dsimp only
    split <;> exact hrest rfl rfl trivial
  | shutdown =>
    unfold step shutdownStep
    dsimp only
    split
    · exact hrest rfl rfl trivial
    · split <;> exact hrest rfl rfl trivial
    · exact hrest rfl rfl trivial

/-- The thread leaves when it finds the ring empty, and does not come back. -/
theorem threadStep_done (h : (s.threadStep f capOut).thread = .done) :
    (s.threadStep f capOut).inboundRing = s.inboundRing ∧ (s.thread ≠ .done → s.inboundRing = []) := by
  unfold threadStep at h ⊢
  split at h
  · split at h <;> cases h
  · split at h <;> cases h
  · split at h
    · cases h
    · next hq => exact ⟨rfl, fun _ => hq⟩
  · next flush _ => cases flush <;> cases h
  · next hs =>
    split at h
    · cases h
    · rw [hs] at h
      cases h
  · next hs => exact ⟨rfl, fun hne => absurd hs hne⟩

theorem step_thread_of_done (h : s.thread = .done) : s.step f capIn capOut .thread = s := by
  unfold step threadStep
  dsimp only
  rw [h]

/-- As long as the thread is there nothing is too late; then the ring stays empty just as long as nothing comes in. -/
theorem inTime_iff (acts : List (AsyncAct ε)) :
    ((after f capIn capOut e acts).thread ≠ .done →
      Admitted (step f capIn capOut) (InTime capIn) { matchingEngine := e } acts) ∧
    ((after f capIn capOut e acts).thread = .done → ((after f capIn capOut e acts).inboundRing = [] ↔
      Admitted (step f capIn capOut) (InTime capIn) { matchingEngine := e } acts)) := by
  induction acts using List.reverseRecOn with
  | nil => exact ⟨fun _ => trivial, fun h => by cases h⟩
  | append_singleton acts a ih =>
    obtain ⟨s, hs⟩ : ∃ s, s = after f capIn capOut e acts := ⟨_, rfl⟩
    have hstep : after f capIn capOut e (acts ++ [a]) = s.step f capIn capOut a := by
      rw [hs]
      unfold after
      rw [List.foldl_append]
      rfl
    have hfold : acts.foldl (step f capIn capOut) { matchingEngine := e } = s := hs.symm
    rw [hstep, admitted_concat, hfold]
    rw [← hs] at ih
    have hearly : s.thread ≠ .done → s.InTime capIn a := by
      intro hne
      cases a with
      | submitter => exact fun hd => absurd hd hne
      | _ => trivial
    by_cases ha : a = .thread
    · subst ha
      have hin : s.InTime capIn .thread := trivial
      by_cases hd : s.thread = .done
      · rw [step_thread_of_done hd]
        exact ⟨fun h => absurd hd h, fun _ => (ih.2 hd).trans ⟨fun h => ⟨h, hin⟩, And.left⟩⟩
      · refine ⟨fun _ => ⟨ih.1 hd, hin⟩, fun h => ?_⟩
        obtain ⟨hq, h0⟩ := threadStep_done h
        exact iff_of_true (hq.trans (h0 hd)) ⟨ih.1 hd, hin⟩
    · obtain ⟨ht, hiff, hne⟩ := other_step f capIn capOut (s := s) ha
      rw [ht]
      refine ⟨fun h => ⟨ih.1 h, hearly h⟩, fun hd => ?_⟩
      by_cases h0 : s.inboundRing = []
      · exact (hiff hd h0).trans ⟨fun h => ⟨(ih.2 hd).mp h0, h⟩, And.right⟩
      · exact iff_of_false (hne h0) (fun h => h0 ((ih.2 hd).mpr h.1))

/-! ## A consumer that has gone -/

/-- The trades that are still to be pushed when nothing more comes in. -/
def backlog (f : σ → ε → σ × List τ) (s : AsyncMatchingEngine σ ε τ) : List τ :=
  match s.thread with
  | .done => []
  | t => pending t ++ Reactive.output f s.matchingEngine s.inboundRing

/-- How far the thread is from leaving. -/
def distance (f : σ → ε → σ × List τ) (s : AsyncMatchingEngine σ ε τ) : ℕ :=
  (s.backlog f).length + 5 * s.inboundRing.length +
    match s.thread with
    | .emitting _ _ => 4
    | .polling => 3
    | .checking => 2
    | .flushing => 1
    | .done => 0

theorem backlog_of_ne {t : AsyncThread τ} (hs : s.thread = t) (hd : t ≠ .done) :
    s.backlog f = pending t ++ Reactive.output f s.matchingEngine s.inboundRing := by
  unfold backlog
  rw [hs]
  cases t with
  | done => exact absurd rfl hd
  | _ => rfl

variable (f capIn capOut) in
/-- A step of the thread moves trades from the backlog to the ring, and brings the thread closer to its end unless the
ring is full. -/
theorem threadStep_backlog (hflag : s.stopFlag = true) :
    (s.threadStep f capOut).tradesRing ++ (s.threadStep f capOut).backlog f = s.tradesRing ++ s.backlog f ∧
      (s.threadStep f capOut).stopFlag = s.stopFlag ∧ (s.threadStep f capOut).shutdown = s.shutdown ∧
      (s.thread ≠ .done → (s.tradesRing ++ s.backlog f).length ≤ capOut →
        (s.threadStep f capOut).distance f < s.distance f) := by
  have hnil : ∀ {ev : ε} {q : List ε} (flush : Bool) {t : AsyncThread τ}, s.thread = t → t ≠ .done → pending t = [] →
      s.inboundRing = ev :: q → (s.process f ev q flush).backlog f = s.backlog f := by
    intro ev q flush t hs hd hp hq
    rw [backlog_of_ne hs hd, hp, hq]
    rfl
  unfold threadStep
  split
  · next hs =>
    have hb := backlog_of_ne (f := f) hs (by rintro ⟨⟩)
    split
    · next ev q hq =>
      have hback := hnil false hs (by rintro ⟨⟩) rfl hq
      refine ⟨by rw [hback]; rfl, rfl, rfl, fun _ _ => ?_⟩
      unfold distance
      rw [hback, hs, hq]
      simp only [AsyncMatchingEngine.process, List.length_cons]
      omega
    · next hq =>
      refine ⟨by rw [hb]; rfl, rfl, rfl, fun _ _ => ?_⟩
      unfold distance
      rw [hb, hs]
      exact Nat.lt_succ_self _
  · next hs =>
    have hb := backlog_of_ne (f := f) hs (by rintro ⟨⟩)
    rw [if_pos hflag]
    refine ⟨by rw [hb]; rfl, rfl, rfl, fun _ _ => ?_⟩
    unfold distance
    rw [hb, hs]
    exact Nat.lt_succ_self _
  · next hs =>
    have hb := backlog_of_ne (f := f) hs (by rintro ⟨⟩)
    split
    · next ev q hq =>
      have hback := hnil true hs (by rintro ⟨⟩) rfl hq
      refine ⟨by rw [hback]; rfl, rfl, rfl, fun _ _ => ?_⟩
      unfold distance
      rw [hback, hs, hq]
      simp only [AsyncMatchingEngine.process, List.length_cons]
      omega
    · next hq =>
      refine ⟨by rw [hb, hq]; rfl, rfl, rfl, fun _ _ => ?_⟩
      unfold distance
      rw [hb, hs, hq]
      exact Nat.zero_lt_one
  · next flush hs =>
    have hb := backlog_of_ne (f := f) hs (by rintro ⟨⟩)
    have hback : ({ s with thread := backTo flush } : AsyncMatchingEngine σ ε τ).backlog f = s.backlog f := by
      rw [hb, backlog_of_ne (t := backTo flush) rfl (by cases flush <;> rintro ⟨⟩), pending_backTo]
      rfl
    refine ⟨by rw [hback], rfl, rfl, fun _ _ => ?_⟩
    unfold distance
    rw [hback, hs]
    cases flush <;> simp [backTo]
  · next t ts flush hs =>
    have hb := backlog_of_ne (f := f) hs (by rintro ⟨⟩)
    split
    · next r hr =>
      rw [Instrument.push_eq hr]
      refine ⟨by rw [hb]; simp [backlog, pending], rfl, rfl, fun _ _ => ?_⟩
      unfold distance
      rw [hb, hs]
      simp [backlog, pending]
    · next hr =>
      -- the backlog fits, so that the ring is not full
      refine ⟨rfl, rfl, rfl, fun _ hfit => ?_⟩
      rw [hb] at hfit
      simp only [pending, List.length_append, List.length_cons] at hfit
      rw [Fifo.push_some (by omega)] at hr
      cases hr
  · next hs => exact ⟨rfl, rfl, rfl, fun hne => absurd hs hne⟩

theorem shutdownStep_backlog (hflag : s.stopFlag = true) :
    s.shutdownStep.tradesRing = s.tradesRing ∧ s.shutdownStep.backlog f = s.backlog f ∧
      s.shutdownStep.stopFlag = true := by
  unfold shutdownStep
  split
  · exact ⟨rfl, rfl, rfl⟩
  · split
    · exact ⟨rfl, rfl, hflag⟩
    · exact ⟨rfl, rfl, hflag⟩
  · exact ⟨rfl, rfl, hflag⟩

variable (f capIn capOut) in
/-- What is left to push fits into the ring: the thread leaves. -/
theorem drains (hflag : s.stopFlag = true) (hfit : (s.tradesRing ++ s.backlog f).length ≤ capOut) :
    ∃ n, ((List.replicate n .thread).foldl (step f capIn capOut) s).thread = .done ∧
      ((List.replicate n .thread).foldl (step f capIn capOut) s).shutdown = s.shutdown := by
  obtain ⟨d, hd⟩ : ∃ d, s.distance f = d := ⟨_, rfl⟩
  induction d using Nat.strongRecOn generalizing s with
  | ind d ih =>
    by_cases hdone : s.thread = .done
    · exact ⟨0, hdone, rfl⟩
    obtain ⟨hmove, hstop, hshut, hlt⟩ := threadStep_backlog f capOut hflag
    obtain ⟨n, hn, hsame⟩ := ih _ (hd ▸ hlt hdone hfit) (s := s.threadStep f capOut) (hstop.trans hflag)
      (by rw [hmove]; exact hfit) rfl
    exact ⟨n + 1, hn, hsame.trans hshut⟩

/-- **Without a consumer `shutdown` returns** just when the trades that are still to come fit into the ring: the thread
does not look at the stop flag while it waits for room. -/
theorem returns_iff {acts : List (AsyncAct ε)} (hs : s = after f capIn capOut e acts) (hstop : s.shutdown = .stopping) :
    (∃ as : List (AsyncAct ε), (∀ a ∈ as, a = .thread ∨ a = .shutdown) ∧
        (as.foldl (step f capIn capOut) s).shutdown = .returned) ↔
      (s.tradesRing ++ s.backlog f).length ≤ capOut := by
  have hk : Kept f capOut e s := by
    rw [hs]
    exact kept_after f capIn capOut e acts
  have hflag : s.stopFlag = true := hk.flag.mpr (by rw [hstop]; rintro ⟨⟩)
  constructor
  · rintro ⟨as, hall, hret⟩
    have hconst : ∀ as : List (AsyncAct ε), (∀ a ∈ as, a = .thread ∨ a = .shutdown) →
        Kept f capOut e (as.foldl (step f capIn capOut) s) ∧ (as.foldl (step f capIn capOut) s).stopFlag = true ∧
          (as.foldl (step f capIn capOut) s).tradesRing ++ (as.foldl (step f capIn capOut) s).backlog f =
            s.tradesRing ++ s.backlog f := by
      intro as hall
      induction as using List.reverseRecOn with
      | nil => exact ⟨hk, hflag, rfl⟩
      | append_singleton as a ih =>
        obtain ⟨hku, hfu, heq⟩ := ih (fun b hb => hall b (List.mem_append_left _ hb))
        rw [List.foldl_append]
        refine ⟨hku.step a, ?_⟩
        rcases hall a (List.mem_append_right _ List.mem_cons_self) with rfl | rfl
        · obtain ⟨h1, h2, -⟩ := threadStep_backlog f capOut hfu
          exact ⟨h2.trans hfu, h1.trans heq⟩
        · obtain ⟨h1, h2, h3⟩ := shutdownStep_backlog (f := f) hfu
          refine ⟨h3, ?_⟩
          rw [← heq]
          exact congrArg₂ (· ++ ·) h1 h2
    obtain ⟨hku, -, heq⟩ := hconst as hall
    have hdone := hku.returned hret
    rw [← heq]
    unfold backlog
    rw [hdone, List.append_nil]
    exact hku.bound
  · intro hfit
    obtain ⟨n, hn, hsame⟩ := drains f capIn capOut hflag hfit
    refine ⟨List.replicate n .thread ++ [.shutdown], fun a ha => ?_, ?_⟩
    · rcases List.mem_append.mp ha with ha | ha
      · exact Or.inl (List.eq_of_mem_replicate ha)
      · exact Or.inr (List.mem_singleton.mp ha)
    · rw [List.foldl_append]
      show (shutdownStep _).shutdown = _
      unfold shutdownStep
      rw [hsame, hstop]
      dsimp only
      rw [hn]

end AsyncMatchingEngine

/-! ## The matching engine -/

namespace Engine

variable (cfg : Config)

/-- `process_event_`: the request is decoded and given to the matching engine, which returns. -/
def processEvent (e : Engine) (req : Request) : Engine × List TradeEvent :=
  (e.after cfg req, e.newTrades (e.after cfg req))

/-- `SyncMatchingEngine`: `submit_event` calls `process_event_` directly. -/
def sync (reqs : List Request) : Engine := reqs.foldl (after cfg) (.new cfg)

/-- The trades of the engine that a call ends with continue those of before. -/
def Grows {α : Type} (ts : List TradeEvent) (r : Except Fault α) (g : α → Engine) : Prop :=
  ∀ x, r = .ok x → ts <+: (g x).trades

variable {cfg} {e : Engine} {ts : List TradeEvent} {t : Taker} {side : Side}

theorem Grows.bind {α β : Type} {r : Except Fault α} {g : α → Engine} {k : α → Except Fault β} {h : β → Engine}
    (hr : Grows ts r g) (hk : ∀ x, ts <+: (g x).trades → Grows ts (k x) h) : Grows ts (r >>= k) h := by
  cases r with
  | error e =>
    rintro y ⟨⟩
  | ok x => exact hk x (hr x rfl)

theorem grows_ok {α : Type} {x : α} {g : α → Engine} (h : ts <+: (g x).trades) : Grows ts (.ok x) g := by
  rintro y ⟨⟩
  exact h

/-- What happens to the book only. -/
theorem grows_book {α : Type} {r : Except Fault α} (h : ts <+: e.trades) : Grows ts r (fun _ => e) := fun _ _ => h

theorem grows_matchRound {k off r : ℕ} (h : ts <+: e.trades) :
    Grows ts (matchRound cfg side e t k off r) (fun x => x.1) := by
  unfold matchRound
  dsimp only
  exact (grows_book h).bind (fun b4 _ => grows_ok (h.trans (List.prefix_append _ _)))

theorem grows_matchLoop (fuel : ℕ) : ∀ (e : Engine) (t : Taker), ts <+: e.trades →
    Grows ts (matchLoop cfg side fuel e t) (fun x => x.1) := by
  induction fuel with
  | zero => rintro e t - x ⟨⟩
  | succ fuel ih =>
    intro e t h
    unfold matchLoop
    refine (grows_book h).bind (fun best _ => ?_)
    split
    · exact grows_ok h
    · split
      · exact grows_ok h
      · split_ifs
        · exact (grows_matchRound h).bind (fun x hx => ih x.1 x.2 hx)
        · exact grows_ok h

theorem grows_matchOrder (h : ts <+: e.trades) : Grows ts (matchOrder cfg side e t) (fun x => x.2.1) := by
  unfold matchOrder
  refine (grows_book h).bind (fun best _ => ?_)
  split_ifs
  · exact grows_ok h
  · exact (grows_matchLoop _ e t h).bind (fun x hx => grows_ok hx)

theorem grows_matchRestingOrder {i : ℕ} (h : ts <+: e.trades) :
    Grows ts (matchRestingOrder cfg side e i) (fun x => x.2) := by
  unfold matchRestingOrder
  refine (grows_matchOrder h).bind (fun x hx => (grows_book hx).bind (fun b1 _ => ?_))
  split_ifs
  · exact (grows_book hx).bind (fun y _ => grows_ok hx)
  · exact grows_ok hx

/-- **No request takes a trade back.** -/
theorem grows_step (req : Request) : Grows e.trades (step cfg e req) (fun x => x.2) := by
  have h : e.trades <+: e.trades := List.prefix_refl _
  cases req with
  | newOrder id type side price qty =>
    refine Grows.bind (g := fun x => x.2.2.2) ?_ (fun x hx => grows_ok hx)
    unfold processOrder
    dsimp only
    split_ifs
    · exact grows_ok h
    refine (grows_matchOrder h).bind (fun x hx => ?_)
    by_cases hend : type = .market ∨ x.1 = .fullFill
    · rw [if_pos hend]
      exact grows_ok hx
    · rw [if_neg hend]
      refine (grows_book hx).bind (fun y _ => ?_)
      split_ifs <;> exact grows_ok hx
  | modifyPrice id newPrice =>
    refine (grows_book h).bind (fun x _ => ?_)
    obtain ⟨st, idx, b⟩ := x
    dsimp only
    split
    · exact (grows_matchRestingOrder (e := { e with book := b }) h).bind (fun y hy => grows_ok hy)
    · exact grows_ok h
  | modifyQuantity id newQty => exact (grows_book h).bind (fun x _ => grows_ok h)
  | cancel id => exact (grows_book h).bind (fun x _ => grows_ok h)

theorem trades_after (e : Engine) (req : Request) :
    (e.after cfg req).trades = e.trades ++ e.newTrades (e.after cfg req) := by
  have hpre : e.trades <+: (e.after cfg req).trades := by
    unfold after
    cases hs : step cfg e req with
    | error f => exact List.prefix_refl _
    | ok x => exact grows_step req x hs
  obtain ⟨r, hr⟩ := hpre
  rw [newTrades_eq hr.symm, hr]

theorem sync_eq (reqs : List Request) : sync cfg reqs = Reactive.after (processEvent cfg) (.new cfg) reqs := by
  rw [Reactive.after_eq_foldl]
  rfl

theorem trades_sync (reqs : List Request) :
    (sync cfg reqs).trades = Reactive.output (processEvent cfg) (.new cfg) reqs := by
  rw [sync_eq, Reactive.output_eq_log Engine.trades (fun e req => trades_after e req)]
  rfl

variable (cfg) in
/-- `AsyncMatchingEngine` with its rings, after the steps of the parties. -/
def async (capIn capOut : ℕ) (acts : List (AsyncAct Request)) : AsyncMatchingEngine Engine Request TradeEvent :=
  AsyncMatchingEngine.after (processEvent cfg) capIn capOut (.new cfg) acts

variable {capIn capOut : ℕ} {acts : List (AsyncAct Request)} {s : AsyncMatchingEngine Engine Request TradeEvent}

theorem run_sync {reqs : List Request} (h : Admitted (after cfg) (Answers cfg) (.new cfg) reqs) :
    Run (Steps cfg) (Answers cfg) (.new cfg) reqs (sync cfg reqs) :=
  Run.of_admitted (fun _ _ hreq => steps_after hreq) h

theorem eq_sync {ok : Engine → Request → Prop} {reqs : List Request} (hrun : Run (Steps cfg) ok (.new cfg) reqs e) :
    e = sync cfg reqs := by
  induction hrun with
  | nil => rfl
  | snoc _ _ hstep ih =>
    obtain ⟨st, hst⟩ := hstep
    unfold sync
    rw [List.foldl_append]
    change _ = Engine.after cfg (sync cfg _) _
    rw [← ih]
    unfold after
    rw [hst]

open AsyncMatchingEngine in
/-- **The asynchronous engine is the synchronous one**, under every schedule of submitter, engine thread, consumer and
shutdown, as long as the matching engine returns from the requests that it is given: it has applied a first part of what
was accepted, and the trades of that are popped, in the ring or about to be pushed, in order.  After `shutdown` it has
applied all of it just when nothing was pushed after the thread had left. -/
theorem async_refines_sync (hs : s = async cfg capIn capOut acts)
    (hret : Admitted (after cfg) (Answers cfg) (.new cfg) s.applied) :
    s.accepted = s.applied ++ s.inboundRing ∧ Run (Steps cfg) (Answers cfg) (.new cfg) s.applied s.matchingEngine ∧
      s.consumed ++ s.tradesRing ++ pending s.thread = s.matchingEngine.trades ∧
      (s.shutdown = .returned → (s.applied = s.accepted ↔
        Admitted (AsyncMatchingEngine.step (processEvent cfg) capIn capOut) (InTime capIn)
          { matchingEngine := .new cfg } acts)) := by
  have hk : Kept (processEvent cfg) capOut (.new cfg) s := by
    rw [hs]
    exact kept_after _ _ _ _ acts
  have heng : s.matchingEngine = sync cfg s.applied := by
    rw [sync_eq]
    exact hk.engine
  refine ⟨hk.accepted, ?_, ?_, fun hdone => ?_⟩
  · rw [heng]
    exact run_sync hret
  · rw [heng, trades_sync]
    exact hk.trades
  · have hthread := hk.returned hdone
    rw [hs] at hthread
    have hiff := (inTime_iff acts).2 hthread
    rw [← hiff, hk.accepted, hs]
    simp [async]

/-- An ask and two bids that trade with it are submitted; the thread applies the first two and is shut down. -/
def twoTrades : List (AsyncAct Request) :=
  [.submit (.newOrder 1 .limit .ask 5 5), .submitter, .thread, .thread, .submit (.newOrder 2 .limit .bid 5 2),
   .submitter, .thread, .thread, .thread, .submit (.newOrder 3 .limit .bid 5 2), .submitter, .shutdown]

theorem async_refines_sync_two : (async small 3 1 twoTrades).consumed ++ (async small 3 1 twoTrades).tradesRing ++
    AsyncMatchingEngine.pending (async small 3 1 twoTrades).thread =
      (async small 3 1 twoTrades).matchingEngine.trades :=
  (async_refines_sync rfl (by decide +kernel)).2.2.1

open AsyncMatchingEngine in
/-- **`shutdown` and a consumer that has gone**, where the matching engine returns from every accepted request: it returns
just when the thread has left, or all trades but those already popped fit into the trades ring. -/
theorem async_shutdown_returns_iff (hs : s = async cfg capIn capOut acts) (hstop : s.shutdown = .stopping)
    (hrun : Run (Steps cfg) (Answers cfg) (.new cfg) s.accepted e) :
    (∃ as : List (AsyncAct Request), (∀ a ∈ as, a = .thread ∨ a = .shutdown) ∧
        (as.foldl (AsyncMatchingEngine.step (processEvent cfg) capIn capOut) s).shutdown = .returned) ↔
      s.thread = .done ∨ e.trades.length ≤ s.consumed.length + capOut := by
  have hk : Kept (processEvent cfg) capOut (.new cfg) s := by
    rw [hs]
    exact kept_after _ _ _ _ acts
  rw [returns_iff hs hstop]
  by_cases hdone : s.thread = .done
  · have hnil : s.backlog (processEvent cfg) = [] := by
      unfold backlog
      rw [hdone]
    rw [hnil, List.append_nil]
    exact iff_of_true hk.bound (Or.inl hdone)
  · -- popped, in the ring and to come are all the trades
    have hall : s.consumed ++ (s.tradesRing ++ s.backlog (processEvent cfg)) = e.trades := by
      rw [backlog_of_ne rfl hdone, eq_sync hrun, trades_sync, hk.accepted, Reactive.output_append, ← hk.engine, ← hk.trades]
      simp only [List.append_assoc]
    have hlen := congrArg List.length hall
    rw [List.length_append] at hlen
    constructor
    · exact fun hfit => Or.inr (by omega)
    · rintro (h | h)
      · exact absurd h hdone
      · omega

/-- There is place for one trade, and the second bid's is still to come. -/
theorem async_shutdown_waits : ¬ ∃ as : List (AsyncAct Request), (∀ a ∈ as, a = .thread ∨ a = .shutdown) ∧
    (as.foldl (AsyncMatchingEngine.step (processEvent small) 3 1) (async small 3 1 twoTrades)).shutdown = .returned :=
  fun h => absurd ((async_shutdown_returns_iff rfl (by decide +kernel) (run_sync (by decide +kernel))).mp h)
    (by decide +kernel)

end Engine

end Wirekrak.Flashstrike

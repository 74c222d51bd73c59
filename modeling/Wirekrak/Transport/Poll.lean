import Wirekrak.Transport.Silent

/-!
# Wirekrak.Transport.Poll — whole calls of a connection

`open` and `poll` without the cuts of `Host`: what they come to when no transport pushes while they run.  `run_poll`
says that the pieces of a poll, taken one after the other, do just this.

* `isIdle`: the source's observation that `poll` has nothing to do.
* `Unmoved p now c`: a poll at `now` has nothing to do; `isIdle` says less.
-/

namespace Wirekrak.Transport

open Wirekrak.Lib

namespace Connection

variable {p : Policy} {now : ℕ} {c d : Connection}

/-- The loop over the control ring, for at most `n` events. -/
def drain (p : Policy) (now : ℕ) : ℕ → Connection → Connection
  | 0, c => c
  | n + 1, c =>
    match c.controlRing with
    | [] => c
    | ev :: ring => drain p now n (onEvent p now ev { c with controlRing := ring })

/-- The reconnect attempt, when the timer has run out. -/
def retry (p : Policy) (now : ℕ) (answer : Error) (c : Connection) : Connection :=
  if c.state = .waitingReconnect ∧ c.nextRetry ≤ now then reconnectEnd p now answer (reconnectBegin p answer c) else c

def poll (p : Policy) (now : ℕ) (answer : Error) (c : Connection) : Connection :=
  if c.state = .disconnected then c
  else
    let c := retry p now answer (drain p now c.controlRing.length c)
    if p.livenessEnabled then c.enforceLivenessPolicy p now now else c

/-- `open`, with the answer of `ws_->connect`. -/
def openCall (p : Policy) (url : List Char) (now : ℕ) (answer : Error) (c : Connection) : Connection :=
  match openBegin p url answer c with
  | ⟨c, .opening a⟩ => openEnd p now a c
  | ⟨c, _⟩ => c

/-- `is_idle`: a retry timer that is zero counts as not ready. -/
def isIdle (now : ℕ) (c : Connection) : Bool :=
  c.signals = [] ∧ ¬ (c.state = .waitingReconnect ∧ c.nextRetry ≠ 0 ∧ c.nextRetry ≤ now)

/-! ## A poll is made of its pieces -/

/-- What every piece reads in a poll at one time. -/
def envAt (now : ℕ) (answer : Error) : Env :=
  ⟨now, now, answer⟩

theorem step_resume {e : Env} {h u : Host} (hpc : h.pc ≠ .idle) (he : h.resume p e = u) : Host.Step p h (.resume e) u :=
  ⟨hpc, he⟩

theorem run_drain (now : ℕ) (answer : Error) {n : ℕ} : ∀ {c : Connection}, c.controlRing.length = n →
    (drain p now n c).controlRing = [] ∧
    Run (Host.Step p) (fun _ _ => True) ⟨c, .draining⟩ (List.replicate (2 * n) (.resume (envAt now answer)))
      ⟨drain p now n c, .draining⟩ := by
  induction n with
  | zero =>
    intro c hn
    exact ⟨List.length_eq_zero_iff.mp hn, .nil⟩
  | succ n ih =>
    intro c hn
    obtain ⟨ev, ring, hring⟩ : ∃ ev ring, c.controlRing = ev :: ring :=
      List.exists_cons_of_length_eq_add_one hn
    have hlen : (onEvent p now ev { c with controlRing := ring }).controlRing.length = n := by
      rw [(frame_onEvent now ev _).ring]
      rw [hring] at hn
      exact Nat.succ.inj hn
    have hd : drain p now (n + 1) c = drain p now n (onEvent p now ev { c with controlRing := ring }) := by
      rw [drain, hring]
    obtain ⟨hnil, hrun⟩ := ih hlen
    rw [hd, show 2 * (n + 1) = 2 * n + 1 + 1 by omega, List.replicate_succ, List.replicate_succ]
    have hpop : Host.Step p ⟨c, .draining⟩ (.resume (envAt now answer)) ⟨{ c with controlRing := ring }, .handling ev⟩ :=
      step_resume (by simp) (Host.resume_pop (h := ⟨c, .draining⟩) rfl hring)
    have hhandle : Host.Step p ⟨{ c with controlRing := ring }, .handling ev⟩ (.resume (envAt now answer))
        ⟨onEvent p now ev { c with controlRing := ring }, .draining⟩ :=
      step_resume (by simp) (Host.resume_handling (h := ⟨{ c with controlRing := ring }, .handling ev⟩) rfl)
    exact ⟨hnil, .cons trivial hpop (.cons trivial hhandle hrun)⟩

/-- **The pieces of a poll come to `poll`** when nothing is pushed while it runs. -/
theorem run_poll (p : Policy) (now : ℕ) (answer : Error) (c : Connection) :
    ∃ n, Run (Host.Step p) (fun _ _ => True) ⟨c, .idle⟩ (.poll :: List.replicate n (.resume (envAt now answer)))
      ⟨c.poll p now answer, .idle⟩ := by
  by_cases hs : c.state = .disconnected
  · refine ⟨0, .cons trivial ⟨rfl, ?_⟩ .nil⟩
    simp only [Host.step, poll, if_pos hs]
  · have hstart : Host.Step p ⟨c, .idle⟩ .poll ⟨c, .draining⟩ := ⟨rfl, by simp only [Host.step, if_neg hs]⟩
    obtain ⟨hring, hdrain⟩ := run_drain (p := p) now answer (c := c) rfl
    have hpoll : c.poll p now answer =
        (if p.livenessEnabled then
          enforceLivenessPolicy p now now (retry p now answer (drain p now c.controlRing.length c))
        else retry p now answer (drain p now c.controlRing.length c)) := by
      simp only [poll, if_neg hs]
    generalize drain p now c.controlRing.length c = d at hring hdrain hpoll
    have hlast : Host.Step p ⟨retry p now answer d, .liveness⟩ (.resume (envAt now answer)) ⟨c.poll p now answer, .idle⟩ := by
      rw [hpoll]
      exact step_resume (by simp) (Host.resume_liveness (h := ⟨retry p now answer d, .liveness⟩) rfl)
    by_cases ht : d.state = .waitingReconnect ∧ d.nextRetry ≤ now
    · refine ⟨2 * c.controlRing.length + 1 + 1 + 1, .cons trivial hstart ?_⟩
      rw [List.replicate_succ', List.replicate_succ', List.replicate_succ']
      have hbegin : Host.Step p ⟨d, .draining⟩ (.resume (envAt now answer))
          ⟨reconnectBegin p answer d, .reconnecting answer⟩ :=
        step_resume (by simp) (Host.resume_reconnect (h := ⟨d, .draining⟩) rfl hring ht)
      have hend : Host.Step p ⟨reconnectBegin p answer d, .reconnecting answer⟩ (.resume (envAt now answer))
          ⟨retry p now answer d, .liveness⟩ := by
        rw [retry, if_pos ht]
        exact step_resume (by simp)
          (Host.resume_reconnecting (h := ⟨reconnectBegin p answer d, .reconnecting answer⟩) rfl)
      exact .snoc (.snoc (.snoc hdrain trivial hbegin) trivial hend) trivial hlast
    · refine ⟨2 * c.controlRing.length + 1 + 1, .cons trivial hstart ?_⟩
      rw [List.replicate_succ', List.replicate_succ']
      have hskip : Host.Step p ⟨d, .draining⟩ (.resume (envAt now answer)) ⟨retry p now answer d, .liveness⟩ := by
        rw [retry, if_neg ht]
        exact step_resume (by simp) (Host.resume_drained (h := ⟨d, .draining⟩) rfl hring ht)
      exact .snoc (.snoc hdrain trivial hskip) trivial hlast

/-! ## A poll with nothing to do -/

/-- Nothing waits for a poll at `now`: no event, no signal, no retry and no liveness check is due. -/
structure Unmoved (p : Policy) (now : ℕ) (c : Connection) : Prop where
  ring : c.controlRing = []
  signals : c.signals = []
  timer : ¬ (c.state = .waitingReconnect ∧ c.nextRetry ≤ now)
  warning : p.livenessEnabled = true → c.state = .connected → c.livenessWarningEmitted = false →
    warningThreshold p < c.livenessRemaining p now
  timeout : p.livenessEnabled = true → c.state = .connected → c.livenessTimeoutEmitted = false →
    c.isLivenessStale p now = false

/-- The liveness check re-arms the warning at most. -/
theorem enforceLivenessPolicy_unmoved (h : Unmoved p now c) (hp : p.livenessEnabled = true) :
    ∃ b, enforceLivenessPolicy p now now c = { c with livenessWarningEmitted := b } ∧
      (c.state = .connected → b = false → warningThreshold p < c.livenessRemaining p now) := by
  unfold enforceLivenessPolicy
  split
  · next hs =>
    have hx : ∀ b, expireLiveness p now { c with livenessWarningEmitted := b } = { c with livenessWarningEmitted := b } := by
      intro b
      unfold expireLiveness
      refine if_neg fun ht => ?_
      exact absurd ((h.timeout hp hs ht.1).symm.trans ht.2) (by decide)
    unfold warnLiveness
    split
    · next hf =>
      have hlt := h.warning hp hs hf
      rw [if_neg (by omega)]
      exact ⟨c.livenessWarningEmitted, hx c.livenessWarningEmitted, fun _ _ => hlt⟩
    · next hf =>
      split
      · next hlt => exact ⟨false, hx false, fun _ _ => hlt⟩
      · exact ⟨c.livenessWarningEmitted, hx c.livenessWarningEmitted, fun _ hb => absurd hb hf⟩
  · next hs => exact ⟨c.livenessWarningEmitted, rfl, fun hc => absurd hc hs⟩

/-- **A poll of an unmoved connection leaves it as it is**, but for the flag of the liveness warning, and unmoved. -/
theorem poll_unmoved (h : Unmoved p now c) (answer : Error) :
    (∃ b, c.poll p now answer = { c with livenessWarningEmitted := b }) ∧ Unmoved p now (c.poll p now answer) := by
  by_cases hs : c.state = .disconnected
  · rw [poll, if_pos hs]
    exact ⟨⟨c.livenessWarningEmitted, rfl⟩, h⟩
  · have hbody : retry p now answer (drain p now c.controlRing.length c) = c := by
      rw [h.ring]
      exact if_neg h.timer
    rw [poll, if_neg hs]
    simp only [hbody]
    split
    · next hp =>
      obtain ⟨b, hb, hw⟩ := enforceLivenessPolicy_unmoved h hp
      rw [hb]
      exact ⟨⟨b, rfl⟩, h.ring, h.signals, h.timer, fun _ => hw, h.timeout⟩
    · exact ⟨⟨c.livenessWarningEmitted, rfl⟩, h⟩

end Connection

end Wirekrak.Transport

import Wirekrak.Transport.Silent

/-!
# Wirekrak.Transport.Overflow — what follows a lost signal

`emit_` calls `close` when the signal ring is full, in the middle of a transition that goes on afterwards.  Two of the
emission points undo the decision: `Connected`, whose transition clears the disconnect reason behind the close, and a
backpressure signal in `Disconnecting`, where `close` does nothing and the earlier reason decides.

* `Overflows c d`: a signal was lost between `c` and `d`.
* `Resolute`: the step loses no `Connected`, and no backpressure signal while disconnecting for another reason than a
  local close; where the policy never retries there is nothing to undo.
* `overflow_fails_closed`: after a resolute step that lost a signal the connection is closed for good.
-/

namespace Wirekrak.Transport

open Wirekrak.Lib

namespace Connection

variable {p : Policy} {c d e : Connection}

/-- The log has grown by entries one of which is a lost signal. -/
def Overflows (c d : Connection) : Prop :=
  ∃ l, d.log = c.log ++ l ∧ ∃ sig, Mark.lost sig ∈ l

/-- The log has grown by entries none of which is a `Connected`. -/
def Unconnected (c d : Connection) : Prop :=
  ∃ l, d.log = c.log ++ l ∧ Mark.signal .connected ∉ l

theorem not_overflows_of_log (h : d.log = c.log) : ¬ Overflows c d := by
  rintro ⟨l, hl, sig, hs⟩
  rw [h] at hl
  rw [List.self_eq_append_right.mp hl] at hs
  exact absurd hs List.not_mem_nil

theorem Overflows.split (h : Overflows c e) (hf : Frame c d) (hf' : Frame d e) : Overflows c d ∨ Overflows d e := by
  obtain ⟨l, hl, sig, hs⟩ := h
  obtain ⟨l1, h1, -⟩ := hf.grows
  obtain ⟨l2, h2, -⟩ := hf'.grows
  rw [h2, h1, List.append_assoc, List.append_cancel_left_eq] at hl
  rw [← hl] at hs
  rcases List.mem_append.mp hs with hs | hs
  · exact .inl ⟨l1, h1, sig, hs⟩
  · exact .inr ⟨l2, h2, sig, hs⟩

theorem Overflows.of_log (h : Overflows c d) (hc : e.log = c.log) : Overflows e d := by
  obtain ⟨l, hl, hs⟩ := h
  exact ⟨l, by rw [hl, hc], hs⟩

theorem Unconnected.of_log (h : d.log = c.log) : Unconnected c d :=
  ⟨[], by rw [h, List.append_nil], List.not_mem_nil⟩

theorem Unconnected.trans (h : Unconnected c d) (h' : Unconnected d e) : Unconnected c e := by
  obtain ⟨l, hl, hm⟩ := h
  obtain ⟨l', hl', hm'⟩ := h'
  refine ⟨l ++ l', by rw [hl', hl, List.append_assoc], ?_⟩
  rw [List.mem_append, not_or]
  exact ⟨hm, hm'⟩

/-! ## Emission -/

/-- A signal is lost when the ring is full. -/
theorem Overflows.full {s : Signal} (h : Overflows c (emit s c)) : Full c := by
  by_contra hr
  rw [emit_room s hr] at h
  obtain ⟨l, hl, sig, hs⟩ := h
  rw [← List.append_cancel_left hl] at hs
  simp at hs

theorem full_emit (sig : Signal) (h : Full c) : Full (emit sig c) := by
  obtain ⟨l, -, hs⟩ := (frame_emit sig c).grows
  unfold Full at h ⊢
  rw [hs, List.length_append]
  omega

/-- A lost signal closes for good, unless a disconnect for a reason that is retried was under way. -/
theorem closed_of_lost {sig : Signal} (h : Full c)
    (hc : c.state = .disconnecting → c.disconnectReason = .localClose ∨ p.mode = .never) : Closed p (emit sig c) := by
  rw [emit_full sig h]
  exact (closed_close (c := { c with log := c.log ++ [.lost sig] }) hc).closed

theorem closed_arm (hw : c.state = .waitingReconnect) (err : Error) (h : Full c) :
    (armImmediateReconnect err c).state = .disconnected := by
  change (emit .retryImmediate c).state = .disconnected
  rw [emit_full _ h]
  simp [close, closeRequested, hw, destroyTransportIfNeeded]

/-! ## The emission points -/

/-- A full ring turns the immediate retry into a disconnect. -/
theorem resolveClosed_full (h : Full c) : (resolveClosed p c).state = .disconnected := by
  unfold resolveClosed
  split
  · exact closed_arm rfl _ h
  · rfl

theorem overflow_resolveClosed (h : Overflows c (resolveClosed p c)) : (resolveClosed p c).state = .disconnected := by
  by_cases hr : Full c
  · exact resolveClosed_full hr
  · unfold resolveClosed at h ⊢
    split
    · next hif =>
      rw [if_pos hif] at h
      refine closed_arm rfl _ (Overflows.full (s := .retryImmediate) ?_)
      exact h.of_log rfl
    · rfl

/-- The close event of the transport: whatever is lost, the connection is down. -/
theorem overflow_onTransportClosed {now : ℕ} (h : Overflows c (onTransportClosed p now c)) :
    (onTransportClosed p now c).state = .disconnected := by
  unfold onTransportClosed at h ⊢
  split
  · next hs => exact hs
  split
  · next hd hc =>
    rw [if_neg hd, if_pos hc] at h
    exact absurd h (not_overflows_of_log rfl)
  · next hd hc =>
    rw [if_neg hd, if_neg hc] at h
    have hsplit := h.split (frame_emit .disconnected c) (frame_transition _ _ _ _)
    have hst := emit_state .disconnected c
    cases hs' : (emit .disconnected c).state with
    | connecting =>
      rw [hs'] at hst
      rcases hst with hst | hst | hst
      · exact absurd hst.symm hc
      · cases hst
      · cases hst
    | disconnected => simp only [transition, hs']
    | waitingReconnect =>
      -- nothing was lost: the ring had room, and this event does nothing here
      exfalso
      simp only [transition, hs'] at hsplit
      rcases hsplit with hl | hl
      · have hclose := close_state { c with log := c.log ++ [.lost .disconnected] }
        rw [← emit_full .disconnected hl.full, hs'] at hclose
        rcases hclose with hx | hx <;> cases hx
      · exact not_overflows_of_log rfl hl
    | connected =>
      simp only [transition, hs'] at hsplit ⊢
      rcases hsplit with hl | hl
      · exact resolveClosed_full (full_emit _ hl.full)
      · exact overflow_resolveClosed hl
    | disconnecting =>
      simp only [transition, hs'] at hsplit ⊢
      rcases hsplit with hl | hl
      · exact resolveClosed_full (full_emit _ hl.full)
      · exact overflow_resolveClosed hl

theorem overflow_onEvent {ev : Websocket.Event} {now : ℕ} (h : Overflows c (onEvent p now ev c))
    (hc : ev.pressure ≠ [] → c.state = .disconnecting → c.disconnectReason = .localClose ∨ p.mode = .never) :
    Closed p (onEvent p now ev c) := by
  cases ev with
  | close => exact .inl (overflow_onTransportClosed h)
  | error err =>
    refine absurd h (not_overflows_of_log ?_)
    simp only [onEvent, onTransportError]
    split <;> rfl
  | backpressureDetected => exact closed_of_lost (Overflows.full h) (hc (by decide))
  | backpressureCleared => exact closed_of_lost (Overflows.full h) (hc (by decide))

theorem transition_outdated (hs : c.state = .connected) (now : ℕ) (err : Error) :
    transition p now .livenessOutdated err c = emit .livenessThreatened c := by
  simp only [transition, hs]

theorem transition_expired (hs : c.state ≠ .connected) (now : ℕ) (err : Error) :
    transition p now .livenessExpired err c = c := by
  cases hst : c.state with
  | connected => exact absurd hst hs
  | connecting | disconnecting | waitingReconnect | disconnected => simp only [transition, hst]

theorem Closed.expireLiveness (h : Closed p c) (now : ℕ) : Closed p (expireLiveness p now c) := by
  unfold Connection.expireLiveness
  split
  · have hs : ({ c with livenessTimeoutEmitted := true } : Connection).state ≠ .connected := h.not_connected.1
    rw [transition_expired hs]
    exact h
  · exact h

theorem overflow_enforceLivenessPolicy {now now' : ℕ} (h : Overflows c (enforceLivenessPolicy p now now' c)) :
    Closed p (enforceLivenessPolicy p now now' c) := by
  unfold enforceLivenessPolicy at h ⊢
  split
  · next hs =>
    rw [if_pos hs] at h
    rcases h.split (frame_warnLiveness now c) (frame_expireLiveness now' _) with hw | hw
    · -- the warning was lost; the timeout then finds the connection disconnecting
      unfold warnLiveness at hw ⊢
      split
      · next hf =>
        rw [if_pos hf] at hw
        split
        · next hr =>
          rw [if_pos hr] at hw
          have hs' : ({ c with livenessWarningEmitted := true } : Connection).state = .connected := hs
          rw [transition_outdated hs'] at hw ⊢
          have hfull : Full { c with livenessWarningEmitted := true } := Overflows.full (hw.of_log rfl)
          have hcl : Closed p (emit .livenessThreatened { c with livenessWarningEmitted := true }) :=
            closed_of_lost hfull fun hd => by rw [hs'] at hd; cases hd
          exact hcl.expireLiveness now'
        · next hr =>
          rw [if_neg hr] at hw
          exact absurd hw (not_overflows_of_log rfl)
      · next hf =>
        rw [if_neg hf] at hw
        refine absurd hw (not_overflows_of_log ?_)
        split <;> rfl
    · refine absurd hw (not_overflows_of_log ?_)
      obtain ⟨⟨l, hl, hlog⟩, -, -⟩ := aside_expireLiveness (p := p) now' (warnLiveness p now c)
      unfold expireLiveness
      split
      · unfold transition
        cases (warnLiveness p now c).state <;> simp only [closeTransport]
        split <;> rfl
      · rfl
  · next hs =>
    rw [if_neg hs] at h
    exact absurd h (not_overflows_of_log rfl)

/-- `Connected` itself: its transition goes on behind the close. -/
theorem overflow_enterConnected {now : ℕ} (h : Overflows c (enterConnected p now c))
    (hc : Full c → p.mode = .never) : Closed p (enterConnected p now c) := by
  have hfull : Full { c with state := .connected } := Overflows.full (h.of_log rfl)
  refine .inr ⟨?_, .inr (hc hfull)⟩
  change (emit .connected { c with state := .connected }).state = .disconnecting
  rw [emit_full _ hfull]
  simp [close, closeRequested, closeTransport]
  split <;> rfl

theorem overflow_openEnd (hs : c.state = .connecting) {now : ℕ} {answer : Error}
    (h : Overflows c (openEnd p now answer c)) (hc : answer = .none → Full c → p.mode = .never) :
    Closed p (openEnd p now answer c) := by
  unfold openEnd at h ⊢
  split
  · next ha =>
    rw [if_pos ha] at h
    simp only [transition, hs] at h ⊢
    split
    · next hr =>
      rw [if_pos hr] at h
      refine .inl (closed_arm rfl _ ?_)
      obtain ⟨l, hl, sig, hsig⟩ := h
      refine Overflows.full (s := .retryImmediate) ?_
      obtain ⟨l', hl', -⟩ := (frame_arm answer (destroyTransportIfNeeded
        { c with log := c.log ++ [.openFailed], state := .waitingReconnect })).grows
      refine ⟨l', hl', sig, ?_⟩
      have he : c.log ++ ([.openFailed] ++ l') = c.log ++ l := by
        rw [← hl, ← List.append_assoc]
        exact hl'.symm
      rw [← List.append_cancel_left he] at hsig
      simpa using hsig
    · exact .inl rfl
  · next ha =>
    rw [if_neg ha] at h
    simp only [transition, hs] at h ⊢
    exact overflow_enterConnected h (hc (not_not.mp ha))

theorem overflow_scheduleNextRetry {now : ℕ} (hw : c.state = .waitingReconnect)
    (h : Overflows c (scheduleNextRetry p now c)) : (scheduleNextRetry p now c).state = .disconnected := by
  rcases scheduleNextRetry_eq (p := p) now c with he | ⟨k, t, he⟩
  · rw [he]
  · rw [he] at h ⊢
    have hfull : Full c := Overflows.full (s := .retryScheduled) h
    change (emit .retryScheduled c).state = .disconnected
    rw [emit_full _ hfull]
    simp [close, closeRequested, hw, destroyTransportIfNeeded]

theorem overflow_reconnectEnd (hs : c.state = .connecting) {now : ℕ} {answer : Error}
    (h : Overflows c (reconnectEnd p now answer c)) (hc : answer = .none → Full c → p.mode = .never) :
    Closed p (reconnectEnd p now answer c) := by
  unfold reconnectEnd at h ⊢
  split
  · next ha =>
    rw [if_pos ha] at h
    simp only [transition, hs] at h ⊢
    split
    · next hr =>
      rw [if_pos hr] at h
      exact .inl (overflow_scheduleNextRetry rfl (h.of_log rfl))
    · exact .inl rfl
  · next ha =>
    rw [if_neg ha] at h
    simp only [transition, hs] at h ⊢
    exact overflow_enterConnected h (hc (not_not.mp ha))

theorem Silent.unconnected (h : Silent c d) : Unconnected c d :=
  h.not_mem rfl

end Connection

namespace Host

open Connection

variable {p : Policy} {h s t u : Host}

/-- The step loses no signal behind which the retry goes on. -/
def Resolute (p : Policy) (h : Host) : Act → Prop
  | .resume _ =>
    match h.pc with
    | .opening answer | .reconnecting answer => answer = .none → h.conn.Full → p.mode = .never
    | .handling ev => ev.pressure ≠ [] → h.conn.Full → h.conn.state = .disconnecting →
        h.conn.disconnectReason = .localClose ∨ p.mode = .never
    | _ => True
  | _ => True

theorem resolute_handling {ev : Websocket.Event} (hpc : h.pc = .handling ev) (hd : h.conn.state ≠ .disconnecting)
    {env : Env} : h.Resolute p (.resume env) := by
  unfold Resolute
  rw [hpc]
  exact fun _ _ hst => absurd hst hd

/-- **A resolute step that loses a signal closes for good.** -/
theorem closed_of_overflow (hs : h.conn.Sound) (hp : h.Placed) {a : Act} (ha : h.Enabled a) (hr : h.Resolute p a)
    (ho : Overflows h.conn (h.step p a).conn) :
    Connection.Closed p (h.step p a).conn ∧ (h.step p a).pc.waits = false := by
  cases a with
  | «open» url answer =>
    refine absurd ho (not_overflows_of_log ?_)
    obtain he | ⟨e, he⟩ | ⟨v, -, -, he⟩ := hs.openBegin_cases (p := p) url answer <;> rw [step, he]
  | close => exact absurd ho (not_overflows_of_log (close_history _).1)
  | send accepted now =>
    refine absurd ho (not_overflows_of_log ?_)
    obtain ⟨_, _, _, he⟩ := send_eq accepted now h.conn
    rw [step, he]
  | peekMessage found now =>
    refine absurd ho (not_overflows_of_log ?_)
    obtain ⟨_, _, he⟩ := peekMessage_eq found now h.conn
    rw [step, he]
  | pollSignal => exact absurd ho (not_overflows_of_log rfl)
  | poll =>
    refine absurd ho (not_overflows_of_log ?_)
    simp only [step]
    split <;> rfl
  | deliver ev =>
    refine absurd ho (not_overflows_of_log ?_)
    obtain ⟨_, he⟩ := deliver_eq ev h.conn
    rw [step, he]
  | resume env =>
    change Overflows h.conn (h.resume p env).conn at ho
    change Connection.Closed p (h.resume p env).conn ∧ (h.resume p env).pc.waits = false
    unfold Resolute at hr
    cases hpc : h.pc with
    | idle => exact absurd hpc ha
    | opening answer =>
      rw [hpc] at hr
      rw [resume_opening hpc] at ho ⊢
      exact ⟨overflow_openEnd (hp.mpr (by rw [hpc]; rfl)) ho hr, rfl⟩
    | reconnecting answer =>
      rw [hpc] at hr
      rw [resume_reconnecting hpc] at ho ⊢
      exact ⟨overflow_reconnectEnd (hp.mpr (by rw [hpc]; rfl)) ho hr, rfl⟩
    | handling ev =>
      rw [hpc] at hr
      rw [resume_handling hpc] at ho ⊢
      refine ⟨?_, rfl⟩
      by_cases hpr : ev.pressure = []
      · exact overflow_onEvent ho fun hne => absurd hpr hne
      · have hfull : h.conn.Full := by
          cases ev with
          | close | error => exact absurd rfl hpr
          | backpressureDetected | backpressureCleared => exact Overflows.full ho
        exact overflow_onEvent ho fun hne => hr hne hfull
    | draining =>
      exfalso
      refine not_overflows_of_log ?_ ho
      cases hring : h.conn.controlRing with
      | cons ev ring => rw [resume_pop hpc hring]
      | nil =>
        by_cases ht : h.conn.state = .waitingReconnect ∧ h.conn.nextRetry ≤ env.now
        · rw [resume_reconnect hpc hring ht, hs.reconnectBegin_eq ht.1]
        · rw [resume_drained hpc hring ht]
    | liveness =>
      rw [resume_liveness hpc] at ho ⊢
      refine ⟨?_, rfl⟩
      by_cases hl : p.livenessEnabled = true
      · simp only [hl, if_true] at ho ⊢
        exact overflow_enforceLivenessPolicy ho
      · simp only [hl, if_false, Bool.false_eq_true] at ho ⊢
        exact absurd ho (not_overflows_of_log rfl)

/-- A closed connection emits no `Connected`. -/
theorem unconnected_step (hs : h.conn.Sound) (hc : Connection.Closed p h.conn) (hw : h.pc.waits = false) (a : Act) :
    Unconnected h.conn (h.step p a).conn := by
  cases a with
  | resume env =>
    change Unconnected h.conn (h.resume p env).conn
    by_cases hpc : h.pc = .liveness
    · have hl : (if p.livenessEnabled = true then enforceLivenessPolicy p env.now env.now' h.conn else h.conn) =
          h.conn := by
        unfold enforceLivenessPolicy
        rw [if_neg hc.not_connected.1, ite_self]
      rw [resume_liveness hpc, hl]
      exact .of_log rfl
    · exact (unstamped_resume hs hw hpc env).toSilent.unconnected
  | «open» | close | send | peekMessage | pollSignal | poll | deliver =>
    exact (silent_call hs (by simp)).unconnected

theorem reachable_placed {ok : Host → Act → Prop} {as : List Act} (hr : Run (Step p) ok {} as h) :
    h.conn.Sound ∧ h.Placed := by
  refine hr.invariant (I := fun h => h.conn.Sound ∧ h.Placed) ⟨sound_new, placed_new⟩ ?_
  rintro h a _ ⟨hs, hp⟩ - ⟨ha, rfl⟩
  exact ⟨sound_step hs a, placed_step hs hp ha⟩

/-- **Signal overflow fails closed**: from any reachable state, a step that loses a signal and is resolute leaves the
connection disconnecting or disconnected, and as long as `open` is not called it stays so, makes no further connection
and emits no further `Connected`. -/
theorem overflow_fails_closed (p : Policy) {as : List Act} (hr : Run (Step p) (fun _ _ => True) {} as s) {a : Act}
    (hstep : Step p s a t) (hlost : ∃ l sig, t.conn.log = s.conn.log ++ l ∧ Mark.lost sig ∈ l) (hres : s.Resolute p a)
    {bs : List Act} (hcont : Run (Step p) (fun _ b => b.opens = false) t bs u) :
    (t.conn.state = .disconnecting ∨ t.conn.state = .disconnected) ∧
    (u.conn.state = .disconnecting ∨ u.conn.state = .disconnected) ∧ u.conn.epoch = t.conn.epoch ∧
    ∃ l, u.conn.log = t.conn.log ++ l ∧ Mark.signal .connected ∉ l := by
  obtain ⟨ha, rfl⟩ := hstep
  obtain ⟨hs, hp⟩ := reachable_placed hr
  obtain ⟨l, sig, hl, hsig⟩ := hlost
  obtain ⟨hc, hw⟩ := closed_of_overflow hs hp ha hres ⟨l, hl, sig, hsig⟩
  have hdown : ∀ {c : Connection}, Connection.Closed p c → c.state = .disconnecting ∨ c.state = .disconnected := by
    rintro c (h | ⟨h, -⟩)
    · exact .inr h
    · exact .inl h
  have hinv : u.conn.Sound ∧ Stays p (s.step p a).conn u.conn ∧ u.pc.waits = false ∧
      Unconnected (s.step p a).conn u.conn := by
    refine hcont.invariant (I := fun u => u.conn.Sound ∧ Stays p (s.step p a).conn u.conn ∧ u.pc.waits = false ∧
      Unconnected (s.step p a).conn u.conn) ⟨sound_step hs a, .of_eq hc rfl rfl, hw, .of_log rfl⟩ ?_
    rintro v b _ ⟨hsv, hv, hwv, hun⟩ hb ⟨-, rfl⟩
    obtain ⟨hst, hws⟩ := closed_step hv.closed hwv hb
    exact ⟨sound_step hsv b, hv.trans hst, hws, hun.trans (unconnected_step hsv hv.closed hwv b)⟩
  exact ⟨hdown hc, hdown hinv.2.1.closed, hinv.2.1.epoch, hinv.2.2.2⟩

/-! ## Two runs -/

/-- Connected, and `n` times backpressure that is detected and cleared, while nobody takes a signal. -/
def unread (n : ℕ) : List Act :=
  opened ++ (List.replicate n [.deliver .backpressureDetected, .deliver .backpressureCleared] : List (List Act)).flatten ++
    (.poll :: List.replicate (4 * n) (.resume ⟨2, 2, .none⟩) : List Act)

/-- The ring is full and one more event is being handled. -/
def unreadFull : List Act :=
  unread 31 ++ [.deliver .backpressureDetected, .resume ⟨2, 2, .none⟩]

/-- The transport closes, and its close event is handled. -/
def settled : List Act :=
  [.deliver .close, .resume ⟨2, 2, .none⟩, .resume ⟨2, 2, .none⟩]

/-- The backpressure signal does not fit; the connection settles. -/
theorem overflow_fails_closed_backpressure :
    (settled.foldl (step defaultPolicy)
      ((after defaultPolicy unreadFull).step defaultPolicy (.resume ⟨2, 2, .none⟩))).conn.epoch =
    ((after defaultPolicy unreadFull).step defaultPolicy (.resume ⟨2, 2, .none⟩)).conn.epoch := by
  have hrun : Run (Step defaultPolicy) (fun _ _ => True) {} unreadFull (after defaultPolicy unreadFull) :=
    run_steps unreadFull (by decide +kernel)
  have hstep : Step defaultPolicy (after defaultPolicy unreadFull) (.resume ⟨2, 2, .none⟩)
      ((after defaultPolicy unreadFull).step defaultPolicy (.resume ⟨2, 2, .none⟩)) :=
    ⟨by decide +kernel, rfl⟩
  have hlost : ∃ l sig, ((after defaultPolicy unreadFull).step defaultPolicy (.resume ⟨2, 2, .none⟩)).conn.log =
      (after defaultPolicy unreadFull).conn.log ++ l ∧ Mark.lost sig ∈ l :=
    ⟨[.lost .backpressureDetected], .backpressureDetected, by decide +kernel, List.mem_singleton.mpr rfl⟩
  have hpc : (after defaultPolicy unreadFull).pc = .handling .backpressureDetected := by decide +kernel
  have hup : (after defaultPolicy unreadFull).conn.state ≠ .disconnecting := by decide +kernel
  have hcont : Run (Step defaultPolicy) (fun _ b => b.opens = false)
      ((after defaultPolicy unreadFull).step defaultPolicy (.resume ⟨2, 2, .none⟩)) settled _ :=
    run_steps settled (by decide +kernel)
  -- the state is large: none of the facts about it may be unfolded here
  generalize after defaultPolicy unreadFull = s at *
  exact (overflow_fails_closed defaultPolicy hrun hstep hlost (resolute_handling hpc hup) hcont).2.2.1

/-- The peer closes; the retry that follows fills the ring.  Its connect has succeeded, and the new peer has already
closed as well: its receive thread has pushed both events and ended before the connection goes on. -/
def reconnectedFull : List Act :=
  unread 30 ++ ([.deliver (.error .remoteClosed), .deliver .close] : List Act) ++
    (List.replicate 5 (.resume ⟨2, 2, .none⟩) : List Act) ++
    ([.deliver (.error .remoteClosed), .deliver .close] : List Act)

/-- The poll ends, three signals are taken, and the next poll finds the two events. -/
def closedAgain : List Act :=
  ([.resume ⟨2, 2, .none⟩, .pollSignal, .pollSignal, .pollSignal, .poll] : List Act) ++
    (List.replicate 6 (.resume ⟨3, 3, .none⟩) : List Act)

/-- `Connected` does not fit: the connection closes, and then connects once more and says so. -/
theorem lost_connected_reconnects :
    Run (Step defaultPolicy) (fun _ _ => True) {} reconnectedFull (after defaultPolicy reconnectedFull) ∧
    Step defaultPolicy (after defaultPolicy reconnectedFull) (.resume ⟨2, 2, .none⟩)
      (after defaultPolicy (reconnectedFull ++ ([.resume ⟨2, 2, .none⟩] : List Act))) ∧
    (after defaultPolicy (reconnectedFull ++ ([.resume ⟨2, 2, .none⟩] : List Act))).conn.log =
      (after defaultPolicy reconnectedFull).conn.log ++ [.lost .connected] ∧
    Run (Step defaultPolicy) (fun _ a => a.opens = false)
      (after defaultPolicy (reconnectedFull ++ ([.resume ⟨2, 2, .none⟩] : List Act))) closedAgain
      (closedAgain.foldl (step defaultPolicy) (after defaultPolicy (reconnectedFull ++ ([.resume ⟨2, 2, .none⟩] : List Act)))) ∧
    (closedAgain.foldl (step defaultPolicy)
      (after defaultPolicy (reconnectedFull ++ ([.resume ⟨2, 2, .none⟩] : List Act)))).conn.state = .connected ∧
    (closedAgain.foldl (step defaultPolicy)
      (after defaultPolicy (reconnectedFull ++ ([.resume ⟨2, 2, .none⟩] : List Act)))).conn.log =
      (after defaultPolicy (reconnectedFull ++ ([.resume ⟨2, 2, .none⟩] : List Act))).conn.log ++
        [.signal .disconnected, .signal .retryImmediate, .signal .connected] :=
  ⟨run_steps reconnectedFull (by decide +kernel), ⟨by decide +kernel, by decide +kernel⟩, by decide +kernel,
    run_steps closedAgain (by decide +kernel), by decide +kernel, by decide +kernel⟩

end Host

end Wirekrak.Transport

import Wirekrak.Transport.History

/-!
# Wirekrak.Transport.Silent — what most of a connection does not say

A signal is pushed when there is a place and lost, with a close of the connection, when there is none.  `Connected` is
said by a connect that succeeds and `LivenessThreatened` by the liveness check; everything else is silent about both,
whether or not the signals it does emit are lost.  The timestamp is set by that connect, by `send` and by `peekMessage`.
-/

namespace Wirekrak.Transport

open Wirekrak.Lib

/-- Every entry but a `Connected` and a `LivenessThreatened`. -/
def Mark.routine : Mark → Bool
  | .signal .connected | .signal .livenessThreatened => false
  | _ => true

namespace Connection

variable {p : Policy} {c d e : Connection}

/-- There is no place in the signal ring. -/
def Full (c : Connection) : Prop :=
  signalPlaces ≤ c.signals.length

theorem emit_room (sig : Signal) (h : ¬ Full c) :
    emit sig c = { c with signals := c.signals ++ [sig], log := c.log ++ [.signal sig] } := by
  unfold emit
  rw [Fifo.push_some (Nat.lt_of_not_le h)]

theorem emit_full (sig : Signal) (h : Full c) : emit sig c = close { c with log := c.log ++ [.lost sig] } := by
  unfold emit
  rw [Fifo.push_none h]

/-- A scheduled retry emits, and then sets the timer. -/
theorem scheduleNextRetry_eq (now : ℕ) (c : Connection) :
    scheduleNextRetry p now c = { c with state := .disconnected } ∨
    ∃ k t, scheduleNextRetry p now c = { emit .retryScheduled c with retryAttempts := k, nextRetry := t } := by
  unfold scheduleNextRetry
  split
  · exact .inl rfl
  · split
    · exact .inl rfl
    · exact .inr ⟨_, _, rfl⟩

/-- No connection is made, no warning given and no liveness flag touched. -/
structure Silent (c d : Connection) : Prop where
  epoch : d.epoch = c.epoch
  state : d.state = .connected → c.state = .connected
  warning : d.livenessWarningEmitted = c.livenessWarningEmitted
  timeout : d.livenessTimeoutEmitted = c.livenessTimeoutEmitted
  log : ∃ l, d.log = c.log ++ l ∧ ∀ m ∈ l, m.routine = true

theorem Silent.refl (c : Connection) : Silent c c :=
  ⟨rfl, id, rfl, rfl, [], (List.append_nil _).symm, by simp⟩

theorem Silent.trans (h : Silent c d) (h' : Silent d e) : Silent c e := by
  obtain ⟨l, hl, hm⟩ := h.log
  obtain ⟨l', hl', hm'⟩ := h'.log
  refine ⟨h'.epoch.trans h.epoch, fun he => h.state (h'.state he), h'.warning.trans h.warning,
    h'.timeout.trans h.timeout, l ++ l', by rw [hl', hl, List.append_assoc], ?_⟩
  intro m hmem
  exact (List.mem_append.mp hmem).elim (hm m) (hm' m)

theorem Silent.not_mem (h : Silent c d) {m : Mark} (hm : m.routine = false) : ∃ l, d.log = c.log ++ l ∧ m ∉ l := by
  obtain ⟨l, hl, hr⟩ := h.log
  exact ⟨l, hl, fun hmem => absurd ((hr m hmem).symm.trans hm) (by decide)⟩

/-- `last_message_ts_` is kept too. -/
structure Unstamped (c d : Connection) : Prop extends Silent c d where
  ts : d.lastMessageTs = c.lastMessageTs

theorem Unstamped.refl (c : Connection) : Unstamped c c := ⟨.refl c, rfl⟩

theorem Unstamped.trans (h : Unstamped c d) (h' : Unstamped d e) : Unstamped c e :=
  ⟨h.toSilent.trans h'.toSilent, h'.ts.trans h.ts⟩

/-- The connection goes down and its transport is destroyed. -/
theorem unstamped_down {st : State} (hs : st ≠ .connected) (c : Connection) :
    Unstamped c (destroyTransportIfNeeded { c with state := st }) :=
  ⟨⟨rfl, fun h => absurd h hs, rfl, rfl, (Silent.refl c).log⟩, rfl⟩

theorem unstamped_close (c : Connection) : Unstamped c c.close := by
  unfold close
  split
  · exact .refl c
  split
  · exact .refl c
  · unfold closeRequested
    split
    · exact .refl c
    · exact unstamped_down (by decide) c
    · unfold closeTransport
      split <;> exact ⟨⟨rfl, by rintro ⟨⟩, rfl, rfl, (Silent.refl c).log⟩, rfl⟩
    · exact .refl c
    · exact unstamped_down (by decide) c

theorem unstamped_emit {s : Signal} (hs : (Mark.signal s).routine = true) (c : Connection) :
    Unstamped c (emit s c) := by
  by_cases hr : Full c
  · rw [emit_full s hr]
    have hl : Unstamped c { c with log := c.log ++ [.lost s] } :=
      ⟨⟨rfl, id, rfl, rfl, [.lost s], rfl, by simp [Mark.routine]⟩, rfl⟩
    exact hl.trans (unstamped_close _)
  · rw [emit_room s hr]
    exact ⟨⟨rfl, id, rfl, rfl, [.signal s], rfl, by simpa using hs⟩, rfl⟩

theorem unstamped_arm (err : Error) (c : Connection) : Unstamped c (armImmediateReconnect err c) := by
  have h := unstamped_emit (s := .retryImmediate) rfl c
  exact ⟨⟨h.epoch, h.state, h.warning, h.timeout, h.log⟩, h.ts⟩

theorem unstamped_scheduleNextRetry (now : ℕ) (c : Connection) : Unstamped c (scheduleNextRetry p now c) := by
  rcases scheduleNextRetry_eq (p := p) now c with he | ⟨k, t, he⟩
  · rw [he]
    exact ⟨⟨rfl, by rintro ⟨⟩, rfl, rfl, (Silent.refl c).log⟩, rfl⟩
  · rw [he]
    have h := unstamped_emit (s := .retryScheduled) rfl c
    exact ⟨⟨h.epoch, h.state, h.warning, h.timeout, h.log⟩, h.ts⟩

theorem unstamped_resolveClosed (c : Connection) : Unstamped c (resolveClosed p c) := by
  unfold resolveClosed
  split
  · exact (unstamped_down (by decide) c).trans (unstamped_arm _ _)
  · exact unstamped_down (by decide) c

theorem unstamped_onTransportClosed (now : ℕ) (c : Connection) : Unstamped c (onTransportClosed p now c) := by
  unfold onTransportClosed
  split
  · exact .refl c
  split
  · exact .refl c
  · have h := unstamped_emit (s := .disconnected) rfl c
    refine h.trans ?_
    generalize emit .disconnected c = d
    cases hst : d.state with
    | connecting =>
      simp only [transition, hst]
      exact unstamped_down (by decide) d
    | connected | disconnecting =>
      simp only [transition, hst]
      exact unstamped_resolveClosed d
    | waitingReconnect | disconnected =>
      simp only [transition, hst]
      exact .refl d

theorem unstamped_onEvent (now : ℕ) (ev : Websocket.Event) (c : Connection) : Unstamped c (onEvent p now ev c) := by
  cases ev with
  | close => exact unstamped_onTransportClosed now c
  | error err =>
    simp only [onEvent, onTransportError]
    split
    · exact .refl c
    · exact ⟨⟨rfl, id, rfl, rfl, (Silent.refl c).log⟩, rfl⟩
  | backpressureDetected => exact unstamped_emit (s := .backpressureDetected) rfl c
  | backpressureCleared => exact unstamped_emit (s := .backpressureCleared) rfl c

theorem unstamped_connectFailed (now : ℕ) (err : Error) (c : Connection) :
    Unstamped c (transition p now .transportConnectFailed err c) := by
  cases hst : c.state with
  | connecting =>
    simp only [transition, hst]
    split
    · exact (unstamped_down (by decide) c).trans (unstamped_arm _ _)
    · exact ⟨⟨rfl, by rintro ⟨⟩, rfl, rfl, (Silent.refl c).log⟩, rfl⟩
  | connected | disconnecting | waitingReconnect | disconnected =>
    simp only [transition, hst]
    exact .refl c

theorem unstamped_reconnectFailed (now : ℕ) (err : Error) (c : Connection) :
    Unstamped c (transition p now .transportReconnectFailed err c) := by
  have hr : Unstamped c { c with disconnectReason := .transportError } := ⟨⟨rfl, id, rfl, rfl, (Silent.refl c).log⟩, rfl⟩
  cases hst : c.state with
  | connecting =>
    simp only [transition, hst]
    split
    · exact (hr.trans (unstamped_down (by decide) _)).trans (unstamped_scheduleNextRetry now _)
    · exact hr.trans (unstamped_down (by decide) _)
  | connected | disconnecting | waitingReconnect | disconnected =>
    simp only [transition, hst]
    exact .refl c

/-! ## A connect that succeeds -/

theorem emit_epoch (sig : Signal) (c : Connection) : (emit sig c).epoch = c.epoch := by
  by_cases hr : Full c
  · rw [emit_full sig hr]
    exact (unstamped_close _).epoch
  · rw [emit_room sig hr]

/-- The epoch is raised, whether or not `Connected` is lost. -/
theorem epoch_enterConnected (now : ℕ) (c : Connection) : (enterConnected p now c).epoch = c.epoch + 1 := by
  change (emit .connected { c with state := .connected }).epoch + 1 = _
  rw [emit_epoch]

theorem connected_cases (now : ℕ) (c : Connection) :
    transition p now .transportConnected .none c = c ∨
    c.state = .connecting ∧ transition p now .transportConnected .none c = enterConnected p now c := by
  cases hst : c.state with
  | connecting => exact .inr ⟨rfl, by simp only [transition, hst]⟩
  | connected | disconnecting | waitingReconnect | disconnected => exact .inl (by simp only [transition, hst])

theorem unstamped_openFailed (now : ℕ) {answer : Error} (ha : answer ≠ .none) (c : Connection) :
    Unstamped c (openEnd p now answer c) := by
  unfold openEnd
  rw [if_pos ha]
  have hl : Unstamped c { c with log := c.log ++ [.openFailed] } :=
    ⟨⟨rfl, id, rfl, rfl, [.openFailed], rfl, by simp [Mark.routine]⟩, rfl⟩
  exact hl.trans (unstamped_connectFailed now answer _)

end Connection

namespace Host

open Connection

variable {p : Policy} {h : Host}

/-- Every call but a send and a look for a message, up to where it is cut. -/
theorem unstamped_call (hs : h.conn.Sound) {a : Act} (ha : ∀ env, a ≠ .resume env) (hsend : ∀ ok now, a ≠ .send ok now)
    (hpeek : ∀ found now, a ≠ .peekMessage found now) : Unstamped h.conn (h.step p a).conn := by
  have hsame : ∃ l, h.conn.log = h.conn.log ++ l ∧ ∀ m ∈ l, m.routine = true := (Silent.refl h.conn).log
  cases a with
  | «open» url answer =>
    obtain he | ⟨e, he⟩ | ⟨v, -, -, he⟩ := hs.openBegin_cases (p := p) url answer
    · rw [step, he]
      exact .refl _
    · rw [step, he]
      exact ⟨⟨rfl, id, rfl, rfl, hsame⟩, rfl⟩
    · rw [step, he]
      exact ⟨⟨rfl, by rintro ⟨⟩, rfl, rfl, hsame⟩, rfl⟩
  | close => exact unstamped_close h.conn
  | pollSignal => exact ⟨⟨rfl, id, rfl, rfl, hsame⟩, rfl⟩
  | poll =>
    simp only [step]
    split <;> exact .refl _
  | deliver ev =>
    obtain ⟨_, he⟩ := deliver_eq ev h.conn
    rw [step, he]
    exact ⟨⟨rfl, id, rfl, rfl, hsame⟩, rfl⟩
  | send ok now => exact absurd rfl (hsend ok now)
  | peekMessage found now => exact absurd rfl (hpeek found now)
  | resume env => exact absurd rfl (ha env)

/-- Every call, up to where it is cut, is silent. -/
theorem silent_call (hs : h.conn.Sound) {a : Act} (ha : ∀ env, a ≠ .resume env) : Silent h.conn (h.step p a).conn := by
  cases a with
  | send accepted now =>
    obtain ⟨_, _, _, he⟩ := send_eq accepted now h.conn
    rw [step, he]
    exact ⟨rfl, id, rfl, rfl, (Silent.refl h.conn).log⟩
  | peekMessage found now =>
    obtain ⟨_, _, he⟩ := peekMessage_eq found now h.conn
    rw [step, he]
    exact ⟨rfl, id, rfl, rfl, (Silent.refl h.conn).log⟩
  | resume env => exact absurd rfl (ha env)
  | «open» | close | pollSignal | poll | deliver => exact (unstamped_call hs ha (by simp) (by simp)).toSilent

/-- A piece of a call that follows, but for the end of a connect and the liveness check. -/
theorem unstamped_resume (hs : h.conn.Sound) (hw : h.pc.waits = false) (hpc : h.pc ≠ .liveness) (env : Env) :
    Unstamped h.conn (h.resume p env).conn := by
  cases hpc' : h.pc with
  | idle =>
    unfold resume
    rw [hpc']
    exact .refl _
  | opening answer | reconnecting answer =>
    rw [hpc'] at hw
    cases hw
  | handling ev =>
    rw [resume_handling hpc']
    exact unstamped_onEvent env.now ev h.conn
  | draining =>
    cases hring : h.conn.controlRing with
    | cons ev ring =>
      rw [resume_pop hpc' hring]
      exact ⟨⟨rfl, id, rfl, rfl, (Silent.refl h.conn).log⟩, rfl⟩
    | nil =>
      by_cases ht : h.conn.state = .waitingReconnect ∧ h.conn.nextRetry ≤ env.now
      · rw [resume_reconnect hpc' hring ht, hs.reconnectBegin_eq ht.1]
        exact ⟨⟨rfl, by rintro ⟨⟩, rfl, rfl, (Silent.refl h.conn).log⟩, rfl⟩
      · rw [resume_drained hpc' hring ht]
        exact .refl _
  | liveness => exact absurd hpc' hpc

end Host

end Wirekrak.Transport

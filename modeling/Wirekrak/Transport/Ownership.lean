import Wirekrak.Transport.Host

/-!
# Wirekrak.Transport.Ownership — who owns a transport, and when

`Sound c`: the connection holds a transport in `Connecting`, `Connected` and `Disconnecting` and in no other state,
it holds a parsed URL in every state but `Disconnected`, and no use of either has gone wrong.  Every function of the
connection keeps this; `Owned` adds that `Connecting` is the state of a call that waits for `ws_->connect`.
-/

namespace Wirekrak.Transport

open Wirekrak.Lib

/-- The states in which there is a transport. -/
def State.live : State → Bool
  | .connecting | .connected | .disconnecting => true
  | .waitingReconnect | .disconnected => false

/-- The signals of a log that were pushed. -/
def emitted (log : List Mark) : List Signal :=
  log.filterMap fun
    | .signal s => some s
    | _ => none

theorem emitted_append (l l' : List Mark) : emitted (l ++ l') = emitted l ++ emitted l' :=
  List.filterMap_append

namespace Connection

variable {p : Policy} {c : Connection}

/-! ## What no function but `open` and `create_transport_` touches -/

/-- The log has only grown, and every signal it has gained is in the signal ring. -/
def Grows (c d : Connection) : Prop :=
  ∃ l, d.log = c.log ++ l ∧ d.signals = c.signals ++ emitted l

theorem Grows.of_eq {d : Connection} (hl : d.log = c.log) (hs : d.signals = c.signals) : Grows c d :=
  ⟨[], by rw [hl, List.append_nil], by rw [hs]; exact (List.append_nil _).symm⟩

theorem Grows.same (c : Connection) : Grows c c :=
  .of_eq rfl rfl

theorem Grows.trans {d e : Connection} (h : Grows c d) (h' : Grows d e) : Grows c e := by
  obtain ⟨l, hl, hs⟩ := h
  obtain ⟨l', hl', hs'⟩ := h'
  refine ⟨l ++ l', by rw [hl', hl, List.append_assoc], ?_⟩
  rw [hs', hs, emitted_append, List.append_assoc]

/-- The URL and the control ring are as they were; the log has only grown. -/
structure Frame (c d : Connection) : Prop where
  url : d.parsedUrl = c.parsedUrl
  ring : d.controlRing = c.controlRing
  grows : Grows c d

theorem Frame.refl (c : Connection) : Frame c c :=
  ⟨rfl, rfl, .same c⟩

theorem Frame.trans {d e : Connection} (h : Frame c d) (h' : Frame d e) : Frame c e :=
  ⟨h'.url.trans h.url, h'.ring.trans h.ring, h.grows.trans h'.grows⟩

theorem Frame.after {d e : Connection} (h' : Frame d e) (h : Frame c d) : Frame c e :=
  h.trans h'

theorem frame_closeTransport (c : Connection) : Frame c c.closeTransport := by
  unfold closeTransport
  split <;> exact ⟨rfl, rfl, .of_eq rfl rfl⟩

theorem frame_closeRequested (c : Connection) : Frame c c.closeRequested := by
  unfold closeRequested
  split
  case h_3 => exact (frame_closeTransport _).after ⟨rfl, rfl, .of_eq rfl rfl⟩
  all_goals exact ⟨rfl, rfl, .of_eq rfl rfl⟩

theorem frame_close (c : Connection) : Frame c c.close := by
  unfold close
  split
  · exact .refl c
  · split
    · exact .refl c
    · exact frame_closeRequested c

theorem frame_emit (sig : Signal) (c : Connection) : Frame c (emit sig c) := by
  unfold emit
  by_cases hr : c.signals.length < signalPlaces
  · rw [Fifo.push_some hr]
    exact ⟨rfl, rfl, [.signal sig], rfl, rfl⟩
  · rw [Fifo.push_none (by omega)]
    exact (frame_close _).after ⟨rfl, rfl, [.lost sig], rfl, (List.append_nil _).symm⟩

theorem frame_arm (e : Error) (c : Connection) : Frame c (armImmediateReconnect e c) :=
  (frame_emit .retryImmediate c).trans ⟨rfl, rfl, .of_eq rfl rfl⟩

theorem frame_schedule (now : ℕ) (c : Connection) : Frame c (scheduleNextRetry p now c) := by
  unfold scheduleNextRetry
  split
  · exact ⟨rfl, rfl, .of_eq rfl rfl⟩
  · split
    · exact ⟨rfl, rfl, .of_eq rfl rfl⟩
    · exact (frame_emit .retryScheduled c).trans ⟨rfl, rfl, .of_eq rfl rfl⟩

theorem frame_resolveClosed (c : Connection) : Frame c (resolveClosed p c) := by
  unfold resolveClosed
  split
  · exact (frame_arm _ _).after ⟨rfl, rfl, .of_eq rfl rfl⟩
  · exact ⟨rfl, rfl, .of_eq rfl rfl⟩

theorem frame_enterConnected (now : ℕ) (c : Connection) : Frame c (enterConnected p now c) := by
  have he : Frame c (emit .connected { c with state := .connected }) := (frame_emit _ _).after ⟨rfl, rfl, .of_eq rfl rfl⟩
  exact he.trans ⟨rfl, rfl, .of_eq rfl rfl⟩

theorem frame_transition (now : ℕ) (ev : Event) (e : Error) (c : Connection) : Frame c (transition p now ev e c) := by
  unfold transition
  split
  case h_2 => exact frame_enterConnected now c
  case h_3 =>
    split
    · exact (frame_arm _ _).after ⟨rfl, rfl, .of_eq rfl rfl⟩
    · exact ⟨rfl, rfl, .of_eq rfl rfl⟩
  case h_4 =>
    split
    · exact (frame_schedule _ _).after ⟨rfl, rfl, .of_eq rfl rfl⟩
    · exact ⟨rfl, rfl, .of_eq rfl rfl⟩
  case h_6 => exact frame_emit _ c
  case h_7 => exact (frame_closeTransport _).after ⟨rfl, rfl, .of_eq rfl rfl⟩
  case h_8 => exact frame_resolveClosed c
  case h_9 => exact frame_resolveClosed c
  case h_12 => exact frame_closeRequested c
  all_goals exact ⟨rfl, rfl, .of_eq rfl rfl⟩

theorem frame_onEvent (now : ℕ) (ev : Websocket.Event) (c : Connection) : Frame c (onEvent p now ev c) := by
  cases ev with
  | close =>
    change Frame c (onTransportClosed p now c)
    unfold onTransportClosed
    split
    · exact .refl c
    · split
      · exact .refl c
      · exact (frame_emit _ c).trans (frame_transition _ _ _ _)
  | error e =>
    change Frame c (onTransportError e c)
    unfold onTransportError
    split <;> exact ⟨rfl, rfl, .of_eq rfl rfl⟩
  | backpressureDetected => exact frame_emit _ c
  | backpressureCleared => exact frame_emit _ c

theorem frame_warnLiveness (now : ℕ) (c : Connection) : Frame c (warnLiveness p now c) := by
  unfold warnLiveness
  split
  · split
    · exact (frame_transition _ _ _ _).after ⟨rfl, rfl, .of_eq rfl rfl⟩
    · exact .refl c
  · split <;> exact ⟨rfl, rfl, .of_eq rfl rfl⟩

theorem frame_expireLiveness (now : ℕ) (c : Connection) : Frame c (expireLiveness p now c) := by
  unfold expireLiveness
  split
  · exact (frame_transition _ _ _ _).after ⟨rfl, rfl, .of_eq rfl rfl⟩
  · exact .refl c

theorem frame_enforceLivenessPolicy (now now' : ℕ) (c : Connection) :
    Frame c (enforceLivenessPolicy p now now' c) := by
  unfold enforceLivenessPolicy
  split
  · exact (frame_warnLiveness _ _).trans (frame_expireLiveness _ _)
  · exact .refl c

theorem frame_openEnd (now : ℕ) (answer : Error) (c : Connection) : Frame c (openEnd p now answer c) := by
  unfold openEnd
  split
  · exact (frame_transition _ _ _ _).after ⟨rfl, rfl, [.openFailed], rfl, (List.append_nil _).symm⟩
  · exact frame_transition _ _ _ c

theorem frame_reconnectEnd (now : ℕ) (answer : Error) (c : Connection) : Frame c (reconnectEnd p now answer c) := by
  unfold reconnectEnd
  split <;> exact frame_transition _ _ _ c

/-! ## Ownership, function by function -/

structure Sound (c : Connection) : Prop where
  ws : c.ws.isSome = c.state.live
  url : c.state ≠ .disconnected → c.parsedUrl.isSome
  faults : c.faults = []

theorem Sound.present (h : Sound c) (hs : c.state.live = true) : ∃ w, c.ws = some w :=
  Option.isSome_iff_exists.mp (h.ws.trans hs)

theorem Sound.absent (h : Sound c) (hs : c.state.live = false) : c.ws = none :=
  Option.isSome_eq_false_iff.mp (h.ws.trans hs) |> Option.isNone_iff_eq_none.mp

/-- `close` ends in `Disconnected` or in `Disconnecting`. -/
theorem close_state (c : Connection) : c.close.state = .disconnected ∨ c.close.state = .disconnecting := by
  unfold close closeRequested closeTransport destroyTransportIfNeeded
  grind

theorem Sound.close (h : Sound c) : Sound c.close := by
  obtain ⟨hw, hu, hf⟩ := h
  unfold Connection.close closeRequested closeTransport destroyTransportIfNeeded
  grind [Sound, State.live]

/-- What `emit` does to the state: nothing, or what `close` does. -/
theorem emit_state (sig : Signal) (c : Connection) :
    (emit sig c).state = c.state ∨ (emit sig c).state = .disconnected ∨ (emit sig c).state = .disconnecting := by
  unfold emit
  split
  · exact .inl rfl
  · exact .inr (close_state _)

theorem Sound.emit (h : Sound c) (sig : Signal) : Sound (emit sig c) := by
  unfold Connection.emit
  split
  · exact ⟨h.ws, h.url, h.faults⟩
  · exact Sound.close ⟨h.ws, h.url, h.faults⟩

/-- The transport is destroyed on the way to a state without one. -/
theorem Sound.settle (h : Sound c) {s : State} (hs : s.live = false)
    (hu : s ≠ .disconnected → c.state ≠ .disconnected) :
    Sound (destroyTransportIfNeeded { c with state := s }) :=
  ⟨hs.symm, fun hn => h.url (hu hn), h.faults⟩

theorem Sound.armImmediateReconnect (h : Sound c) (e : Error) : Sound (armImmediateReconnect e c) := by
  have he := h.emit .retryImmediate
  exact ⟨he.ws, he.url, he.faults⟩

theorem Sound.scheduleNextRetry (h : Sound c) (hw : c.state = .waitingReconnect) (now : ℕ) :
    Sound (scheduleNextRetry p now c) := by
  have hs : Sound { c with state := .disconnected } := by
    refine ⟨?_, fun hn => absurd rfl hn, h.faults⟩
    rw [h.ws, hw]
    rfl
  unfold Connection.scheduleNextRetry
  split
  · exact hs
  · split
    · exact hs
    · have he := h.emit .retryScheduled
      exact ⟨he.ws, he.url, he.faults⟩

theorem Sound.resolveClosed (h : Sound c) (hl : c.state ≠ .disconnected) : Sound (resolveClosed p c) := by
  unfold Connection.resolveClosed
  split
  · exact (h.settle rfl fun _ => hl).armImmediateReconnect _
  · exact h.settle rfl fun hn => absurd rfl hn

theorem Sound.enterConnected (h : Sound c) (hs : c.state = .connecting) (now : ℕ) :
    Sound (enterConnected p now c) := by
  have hc : Sound { c with state := .connected } := by
    refine ⟨?_, fun _ => h.url (by rw [hs]; decide), h.faults⟩
    rw [h.ws, hs]
    rfl
  have he := hc.emit .connected
  exact ⟨he.ws, he.url, he.faults⟩

/-- The transport is closed where it stands; the state is `Disconnecting`. -/
theorem Sound.closeTransport (h : Sound c) (hs : c.state = .connected) (r : DisconnectReason) (e : Error) :
    Sound (closeTransport { c with lastError := e, disconnectReason := r, state := .disconnecting }) := by
  obtain ⟨w, hw⟩ := h.present (by rw [hs]; rfl)
  unfold Connection.closeTransport
  rw [hw]
  exact ⟨rfl, fun _ => h.url (by rw [hs]; decide), h.faults⟩

/-- Every event that does not start an attempt keeps the ownership. -/
theorem Sound.transition (h : Sound c) {ev : Event} (ho : ev ≠ .openRequested) (hr : ev ≠ .retryTimerExpired)
    (now : ℕ) (e : Error) : Sound (transition p now ev e c) := by
  unfold Connection.transition
  split
  case h_1 => exact absurd rfl ho
  case h_2 hs => exact h.enterConnected hs now
  case h_3 hs =>
    have hl : c.state ≠ .disconnected := by rw [hs]; decide
    split
    · exact (h.settle rfl fun _ => hl).armImmediateReconnect e
    · have hd := h.settle (s := .disconnected) rfl fun hn => absurd rfl hn
      exact ⟨hd.ws, hd.url, hd.faults⟩
  case h_4 hs =>
    have hl : c.state ≠ .disconnected := by rw [hs]; decide
    have h' : Sound { c with disconnectReason := .transportError } := ⟨h.ws, h.url, h.faults⟩
    split
    · exact (h'.settle rfl fun _ => hl).scheduleNextRetry rfl now
    · exact h'.settle rfl fun hn => absurd rfl hn
  case h_5 => exact h.settle rfl fun hn => absurd rfl hn
  case h_6 => exact h.emit _
  case h_7 hs => exact h.closeTransport hs _ _
  case h_8 hs => exact h.resolveClosed (by rw [hs]; decide)
  case h_9 hs => exact h.resolveClosed (by rw [hs]; decide)
  case h_10 => exact absurd rfl hr
  case h_11 => exact absurd rfl ho
  case h_12 =>
    have hc := h.close
    unfold Connection.close at hc
    grind [closeRequested]
  case h_13 => exact h

theorem Sound.onEvent (h : Sound c) (now : ℕ) (ev : Websocket.Event) : Sound (onEvent p now ev c) := by
  cases ev with
  | close =>
    change Sound (onTransportClosed p now c)
    unfold onTransportClosed
    split
    · exact h
    · split
      · exact h
      · exact (h.emit _).transition (by decide) (by decide) _ _
  | error e =>
    change Sound (onTransportError e c)
    unfold onTransportError
    split
    · exact h
    · exact ⟨h.ws, h.url, h.faults⟩
  | backpressureDetected => exact h.emit _
  | backpressureCleared => exact h.emit _

theorem Sound.warnLiveness (h : Sound c) (now : ℕ) : Sound (warnLiveness p now c) := by
  have h' : ∀ b, Sound { c with livenessWarningEmitted := b } := fun _ => ⟨h.ws, h.url, h.faults⟩
  unfold Connection.warnLiveness
  split
  · split
    · exact (h' true).transition (by decide) (by decide) _ _
    · exact h
  · split
    · exact h' false
    · exact h

theorem Sound.expireLiveness (h : Sound c) (now : ℕ) : Sound (expireLiveness p now c) := by
  have h' : Sound { c with livenessTimeoutEmitted := true } := ⟨h.ws, h.url, h.faults⟩
  unfold Connection.expireLiveness
  split
  · exact h'.transition (by decide) (by decide) _ _
  · exact h

theorem Sound.enforceLivenessPolicy (h : Sound c) (now now' : ℕ) : Sound (enforceLivenessPolicy p now now' c) := by
  unfold Connection.enforceLivenessPolicy
  split
  · exact (h.warnLiveness now).expireLiveness now'
  · exact h

/-- An admitted `open`, to the answer of the fresh transport. -/
theorem openBegin_ok {url : List Char} {u : ParsedUrl} (hs : c.state = .disconnected ∨ c.state = .waitingReconnect)
    (hw : c.ws = none) (hu : parseUrl url = .ok u) (answer : Error) :
    openBegin p url answer c =
      ⟨{ c with
          lastUrl := url, parsedUrl := some u, controlRing := [], ws := some ⟨false⟩, lastError := answer,
          state := .connecting }, .opening answer⟩ := by
  have hn : ¬ (c.state ≠ .disconnected ∧ c.state ≠ .waitingReconnect) := by tauto
  unfold openBegin
  rw [if_neg hn, hu]
  rcases hs with hs | hs <;> simp only [Connection.transition, hs, createTransport, hw, useTransport]

/-- An `open` is ignored, fails on its URL, or starts an attempt. -/
theorem Sound.openBegin_cases (h : Sound c) (url : List Char) (answer : Error) :
    openBegin p url answer c = ⟨c, .idle⟩ ∨
    (∃ e, openBegin p url answer c = ⟨{ c with lastUrl := url, lastError := e }, .idle⟩) ∨
    (∃ u, parseUrl url = .ok u ∧ (c.state = .disconnected ∨ c.state = .waitingReconnect) ∧
      openBegin p url answer c =
        ⟨{ c with
            lastUrl := url, parsedUrl := some u, controlRing := [], ws := some ⟨false⟩, lastError := answer,
            state := .connecting }, .opening answer⟩) := by
  by_cases hn : c.state ≠ .disconnected ∧ c.state ≠ .waitingReconnect
  · exact .inl (by rw [openBegin, if_pos hn])
  · have hs : c.state = .disconnected ∨ c.state = .waitingReconnect := by tauto
    cases hu : parseUrl url with
    | error e => exact .inr (.inl ⟨e, by rw [openBegin, if_neg hn, hu]⟩)
    | ok u =>
      have hw := h.absent (by rcases hs with hs | hs <;> rw [hs] <;> rfl)
      exact .inr (.inr ⟨u, rfl, hs, openBegin_ok hs hw hu answer⟩)

theorem Sound.openBegin (h : Sound c) (url : List Char) (answer : Error) : Sound (openBegin p url answer c).conn := by
  obtain ho | ⟨e, ho⟩ | ⟨u, -, -, ho⟩ := h.openBegin_cases (p := p) url answer
  · rw [ho]
    exact h
  · rw [ho]
    exact ⟨h.ws, h.url, h.faults⟩
  · rw [ho]
    exact ⟨rfl, fun _ => rfl, h.faults⟩

/-- A reconnect, to the answer of the fresh transport. -/
theorem Sound.reconnectBegin_eq (h : Sound c) (hs : c.state = .waitingReconnect) (answer : Error) :
    reconnectBegin p answer c =
      { c with controlRing := [], ws := some ⟨false⟩, lastError := answer, state := .connecting } := by
  obtain ⟨u, hu⟩ := Option.isSome_iff_exists.mp (h.url (by rw [hs]; decide))
  have hw := h.absent (by rw [hs]; rfl)
  simp only [reconnectBegin, hu, Connection.transition, hs, createTransport, hw, useTransport]

theorem Sound.reconnectBegin (h : Sound c) (hs : c.state = .waitingReconnect) (answer : Error) :
    Sound (reconnectBegin p answer c) := by
  rw [h.reconnectBegin_eq hs]
  exact ⟨rfl, fun _ => h.url (by rw [hs]; decide), h.faults⟩

end Connection

namespace Host

variable {p : Policy} {h : Host}

theorem sound_resume (hs : h.conn.Sound) (env : Env) : (h.resume p env).conn.Sound := by
  unfold resume
  split
  · exact hs
  · unfold Connection.openEnd
    have hs' : Connection.Sound { h.conn with log := h.conn.log ++ [.openFailed] } := ⟨hs.ws, hs.url, hs.faults⟩
    split
    · exact hs'.transition (by decide) (by decide) _ _
    · exact hs.transition (by decide) (by decide) _ _
  · split
    · exact ⟨hs.ws, hs.url, hs.faults⟩
    · split
      · next hw => exact hs.reconnectBegin hw.1 _
      · exact hs
  · exact hs.onEvent _ _
  · unfold Connection.reconnectEnd
    split <;> exact hs.transition (by decide) (by decide) _ _
  · change Connection.Sound (if p.livenessEnabled = true then _ else _)
    split
    · exact hs.enforceLivenessPolicy _ _
    · exact hs

/-- **One step keeps the ownership.** -/
theorem sound_step (hs : h.conn.Sound) (a : Act) : (h.step p a).conn.Sound := by
  cases a with
  | «open» url answer => exact hs.openBegin url answer
  | close => exact hs.close
  | send accepted now =>
    change Connection.Sound (Connection.send accepted now h.conn)
    unfold Connection.send
    split
    · exact hs
    · next hc =>
      obtain ⟨w, hw⟩ := hs.present (by rw [not_not.mp hc]; rfl)
      have hu : h.conn.useTransport = h.conn := by simp only [Connection.useTransport, hw]
      rw [hu]
      change Connection.Sound (if accepted = true then _ else _)
      split
      · exact ⟨hs.ws, hs.url, hs.faults⟩
      · exact hs
  | peekMessage found now =>
    obtain ⟨_, _, he⟩ := Connection.peekMessage_eq found now h.conn
    rw [step, he]
    exact ⟨hs.ws, hs.url, hs.faults⟩
  | pollSignal => exact ⟨hs.ws, hs.url, hs.faults⟩
  | poll =>
    change (if h.conn.state = .disconnected then h else _ : Host).conn.Sound
    split <;> exact hs
  | resume env => exact sound_resume hs env
  | deliver ev =>
    obtain ⟨_, he⟩ := Connection.deliver_eq ev h.conn
    rw [step, he]
    exact ⟨hs.ws, hs.url, hs.faults⟩

theorem sound_new : ({} : Host).conn.Sound :=
  ⟨rfl, fun hn => absurd rfl hn, rfl⟩

theorem reachable_sound {ok : Host → Act → Prop} {as : List Act} (hr : Run (Step p) ok {} as h) : h.conn.Sound := by
  refine hr.invariant (I := fun h => h.conn.Sound) sound_new ?_
  rintro h a _ hs - ⟨-, rfl⟩
  exact sound_step hs a

/-! ## The log and the stored URL -/

theorem grows_resume (hs : h.conn.Sound) (env : Env) : h.conn.Grows (h.resume p env).conn := by
  unfold resume
  split
  · exact .same _
  · exact (Connection.frame_openEnd _ _ _).grows
  · split
    · exact .of_eq rfl rfl
    · split
      · next hw =>
        rw [hs.reconnectBegin_eq hw.1]
        exact .of_eq rfl rfl
      · exact .same _
  · exact (Connection.frame_onEvent _ _ _).grows
  · exact (Connection.frame_reconnectEnd _ _ _).grows
  · change Connection.Grows _ (if p.livenessEnabled = true then _ else _ : Connection)
    split
    · exact (Connection.frame_enforceLivenessPolicy _ _ _).grows
    · exact .same _

/-- The log of a connection and its signal ring grow together, but for what is popped. -/
theorem grows_step (hs : h.conn.Sound) {a : Act} (ha : a ≠ .pollSignal) : h.conn.Grows (h.step p a).conn := by
  cases a with
  | «open» url answer =>
    obtain ho | ⟨e, ho⟩ | ⟨u, -, -, ho⟩ := hs.openBegin_cases (p := p) url answer
    all_goals
      rw [step, ho]
      exact .of_eq rfl rfl
  | close => exact (Connection.frame_close h.conn).grows
  | send accepted now =>
    obtain ⟨_, _, _, he⟩ := Connection.send_eq accepted now h.conn
    rw [step, he]
    exact .of_eq rfl rfl
  | peekMessage found now =>
    obtain ⟨_, _, he⟩ := Connection.peekMessage_eq found now h.conn
    rw [step, he]
    exact .of_eq rfl rfl
  | pollSignal => exact absurd rfl ha
  | poll =>
    simp only [step]
    split <;> exact .of_eq rfl rfl
  | resume env => exact grows_resume hs env
  | deliver ev =>
    obtain ⟨_, he⟩ := Connection.deliver_eq ev h.conn
    rw [step, he]
    exact .of_eq rfl rfl

/-- The log of a connection only grows. -/
theorem log_step (hs : h.conn.Sound) (a : Act) : h.conn.log <+: (h.step p a).conn.log := by
  by_cases ha : a = .pollSignal
  · rw [ha]
    exact List.prefix_rfl
  · obtain ⟨l, hl, -⟩ := grows_step (p := p) hs ha
    exact ⟨l, hl.symm⟩

theorem url_resume (hs : h.conn.Sound) (env : Env) : (h.resume p env).conn.parsedUrl = h.conn.parsedUrl := by
  unfold resume
  split
  · rfl
  · exact (Connection.frame_openEnd _ _ _).url
  · split
    · rfl
    · split
      · next hw => rw [hs.reconnectBegin_eq hw.1]
      · rfl
  · exact (Connection.frame_onEvent _ _ _).url
  · exact (Connection.frame_reconnectEnd _ _ _).url
  · change (if p.livenessEnabled = true then _ else _ : Connection).parsedUrl = _
    split
    · exact (Connection.frame_enforceLivenessPolicy _ _ _).url
    · rfl

/-- Only an `open` that has parsed its URL stores one. -/
theorem url_step (hs : h.conn.Sound) (a : Act) : (h.step p a).conn.parsedUrl = h.conn.parsedUrl ∨
    ∃ url answer u, a = .open url answer ∧ parseUrl url = .ok u ∧ (h.step p a).conn.parsedUrl = some u := by
  cases a with
  | «open» url answer =>
    obtain ho | ⟨e, ho⟩ | ⟨u, hu, -, ho⟩ := hs.openBegin_cases (p := p) url answer
    · exact .inl (by rw [step, ho])
    · exact .inl (by rw [step, ho])
    · exact .inr ⟨url, answer, u, rfl, hu, by rw [step, ho]⟩
  | close => exact .inl (Connection.frame_close h.conn).url
  | send accepted now =>
    obtain ⟨_, _, _, he⟩ := Connection.send_eq accepted now h.conn
    exact .inl (by rw [step, he])
  | peekMessage found now =>
    obtain ⟨_, _, he⟩ := Connection.peekMessage_eq found now h.conn
    exact .inl (by rw [step, he])
  | pollSignal => exact .inl rfl
  | poll =>
    simp only [step]
    split <;> exact .inl rfl
  | resume env => exact .inl (url_resume hs env)
  | deliver ev =>
    obtain ⟨_, he⟩ := Connection.deliver_eq ev h.conn
    exact .inl (by rw [step, he])

/-- **The transport is owned in `Connecting`, `Connected` and `Disconnecting`, and in no other state**; it is never
used when absent nor replaced when present, and a reconnect finds the URL of an earlier `open` that parsed it. -/
theorem transport_owned (p : Policy) {as : List Act} {h : Host} (hr : Run (Step p) (fun _ _ => True) {} as h) :
    (h.conn.ws.isSome = true ↔
      h.conn.state = .connecting ∨ h.conn.state = .connected ∨ h.conn.state = .disconnecting) ∧
    h.conn.faults = [] ∧
    (h.conn.state = .waitingReconnect → ∃ url answer u, Act.open url answer ∈ as ∧ parseUrl url = .ok u ∧
      h.conn.parsedUrl = some u) := by
  have hs := reachable_sound hr
  have hu : ∀ u, h.conn.parsedUrl = some u → ∃ url answer, Act.open url answer ∈ as ∧ parseUrl url = .ok u := by
    clear hs
    induction hr with
    | nil => intro u hu; cases hu
    | @snoc as g g' a hrun _ hstep ih =>
      obtain ⟨-, rfl⟩ := hstep
      intro u hu
      obtain hk | ⟨url, answer, v, rfl, hv, hk⟩ := url_step (p := p) (reachable_sound hrun) a
      · obtain ⟨url, answer, hm, hp⟩ := ih u (hk ▸ hu)
        exact ⟨url, answer, List.mem_append_left _ hm, hp⟩
      · rw [hk] at hu
        exact ⟨url, answer, by simp, hv.trans (by rw [Option.some.inj hu])⟩
  refine ⟨?_, hs.faults, ?_⟩
  · rw [hs.ws]
    cases h.conn.state <;> simp [State.live]
  · intro hw
    obtain ⟨u, hpu⟩ := Option.isSome_iff_exists.mp (hs.url (by rw [hw]; decide))
    obtain ⟨url, answer, hm, hp⟩ := hu u hpu
    exact ⟨url, answer, u, hm, hp, hpu⟩

/-- A first connect that fails, and the retry that fails as well. -/
def refusedTwice : List Act :=
  [.open "ws://a".toList .connectionFailed, .resume ⟨1, 1, .none⟩, .poll, .resume ⟨2, 2, .connectionFailed⟩,
   .resume ⟨3, 3, .none⟩, .resume ⟨4, 4, .none⟩]

theorem transport_owned_refused : (after defaultPolicy refusedTwice).conn.state = .waitingReconnect ∧
    ∃ url answer u, Act.open url answer ∈ refusedTwice ∧ parseUrl url = .ok u ∧
      (after defaultPolicy refusedTwice).conn.parsedUrl = some u :=
  ⟨by decide, (transport_owned defaultPolicy (run_steps _ (by decide))).2.2 (by decide)⟩

end Host

end Wirekrak.Transport

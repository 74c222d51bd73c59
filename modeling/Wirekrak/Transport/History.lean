import Mathlib.Data.List.Induction
import Wirekrak.Transport.UserClose

/-!
# Wirekrak.Transport.History — the signals of a connection as a history of its sessions

When no signal is lost, a step of the connection tells one of five things (`Tells`): nothing about the link, that the
backpressure has changed, that the link is up, that an attempt was refused, or that the link is down.  `tells_step` says
so for every step; the laws of the history (`Told`) follow from that alone.

A transport sends at most one close event, and none before its connect has succeeded.  `Net` keeps what is needed to
say so, and `Tracked` what follows from it: while a close event is in the ring, or may still come, the connection
is up.
-/

namespace Wirekrak.Transport

open Wirekrak.Lib

/-- `Connected` or `Disconnecting`: a transport has connected and its close has not been resolved. -/
def State.up : State → Bool
  | .connected | .disconnecting => true
  | _ => false

/-- The `Connected` and `Disconnected` signals of a log. -/
def linkSignals (log : List Mark) : List Signal :=
  log.filterMap fun
    | .signal .connected => some .connected
    | .signal .disconnected => some .disconnected
    | _ => none

/-- Entries that say nothing about the link. -/
def Mark.aside : Mark → Bool
  | .signal .livenessThreatened | .signal .retryScheduled | .openFailed => true
  | _ => false

/-- The signal that a backpressure event is passed on as. -/
def Websocket.Event.pressure : Websocket.Event → List Signal
  | .backpressureDetected => [.backpressureDetected]
  | .backpressureCleared => [.backpressureCleared]
  | _ => []

theorem linkSignals_append (l l' : List Mark) : linkSignals (l ++ l') = linkSignals l ++ linkSignals l' :=
  List.filterMap_append

theorem linkSignals_aside {l : List Mark} (h : ∀ m ∈ l, m.aside = true) : linkSignals l = [] := by
  refine List.filterMap_eq_nil_iff.mpr ?_
  intro m hm
  have ha := h m hm
  revert ha
  cases m with
  | signal s => cases s <;> simp [Mark.aside]
  | lost s => simp [Mark.aside]
  | openFailed => simp

/-- Every `RetryImmediate` stands right behind a `Disconnected` or a failed `open`. -/
def Prompt (log : List Mark) : Prop :=
  ∀ l r, log = l ++ Mark.signal .retryImmediate :: r →
    l.getLast? = some (.signal .disconnected) ∨ l.getLast? = some .openFailed

theorem prompt_concat {log : List Mark} {m : Mark} (h : Prompt log)
    (hm : m = .signal .retryImmediate →
      log.getLast? = some (.signal .disconnected) ∨ log.getLast? = some .openFailed) : Prompt (log ++ [m]) := by
  intro l r he
  rcases r.eq_nil_or_concat with rfl | ⟨r', x, rfl⟩
  · obtain ⟨rfl, hx⟩ := List.append_inj' he rfl
    exact hm (List.cons.inj hx).1
  · rw [List.concat_eq_append, ← List.cons_append, ← List.append_assoc] at he
    obtain ⟨hl, -⟩ := List.append_inj' he rfl
    exact h l r' hl

theorem prompt_append_aside {log l : List Mark} (h : Prompt log) (hl : ∀ m ∈ l, m.aside = true) :
    Prompt (log ++ l) := by
  induction l using List.reverseRecOn with
  | nil => rwa [List.append_nil]
  | append_singleton l m ih =>
    rw [← List.append_assoc]
    refine prompt_concat (ih fun x hx => hl x (List.mem_append_left _ hx)) ?_
    rintro rfl
    exact absurd (hl (.signal .retryImmediate) (by simp)) (by decide)

namespace Connection

variable {p : Policy} {c d : Connection}

/-- No signal has been lost. -/
def Lossless (c : Connection) : Prop :=
  ∀ s, Mark.lost s ∉ c.log

/-- The log says what it should, the state and the epoch agree with it. -/
structure Told (c : Connection) : Prop where
  alternates : Alternates .connected .disconnected (linkSignals c.log)
  parity : (linkSignals c.log).length % 2 = if c.state.up then 1 else 0
  epoch : c.epoch = (linkSignals c.log).count .connected
  prompt : Prompt c.log

/-- Nothing is told about the link, and it stays as it is. -/
structure Aside (c d : Connection) : Prop where
  log : ∃ l, (∀ m ∈ l, m.aside = true) ∧ d.log = c.log ++ l
  epoch : d.epoch = c.epoch
  up : d.state.up = c.state.up

/-- What a step tells; `ev` is the control event that it handles. -/
inductive Tells (ev : Option Websocket.Event) (c d : Connection) : Prop
  | aside (hq : ∀ x, ev = some x → x.pressure = []) (h : Aside c d)
  | pressure (x : Websocket.Event) (sig : Signal) (hev : ev = some x) (hx : x.pressure = [sig])
      (hlog : d.log = c.log ++ [Mark.signal sig]) (he : d.epoch = c.epoch) (hs : d.state = c.state)
  | up (hq : ev = none) (hs : c.state = .connecting) (hd : d.state = .connected)
      (hlog : d.log = c.log ++ [Mark.signal .connected]) (he : d.epoch = c.epoch + 1)
  | refused (hq : ev = none) (hs : c.state = .connecting) (hd : d.state = .waitingReconnect)
      (hlog : d.log = c.log ++ [Mark.openFailed, Mark.signal .retryImmediate]) (he : d.epoch = c.epoch)
  | down (hc : ev = some .close) (hs : c.state.up = true) (hd : d.state.up = false)
      (hlog : d.log = c.log ++ [Mark.signal .disconnected] ∨
        d.log = c.log ++ [Mark.signal .disconnected, Mark.signal .retryImmediate]) (he : d.epoch = c.epoch)

theorem Tells.quiet (h : Aside c d) : Tells none c d :=
  .aside (by simp) h

/-- **The laws of the history are kept by whatever a step tells.** -/
theorem Told.tells {ev : Option Websocket.Event} (h : Told c) (ht : Tells ev c d) : Told d := by
  obtain ⟨ha, hp, he, hr⟩ := h
  cases ht with
  | aside _ h =>
    obtain ⟨⟨l, hl, hlog⟩, hed, hs⟩ := h
    have hls : linkSignals d.log = linkSignals c.log := by
      rw [hlog, linkSignals_append, linkSignals_aside hl, List.append_nil]
    refine ⟨hls ▸ ha, by rw [hls, hs, hp], by rw [hls, hed, he], ?_⟩
    rw [hlog]
    exact prompt_append_aside hr hl
  | pressure x sig _ hx hlog hed hs =>
    have hsig : sig = .backpressureDetected ∨ sig = .backpressureCleared := by
      cases x <;> simp_all [Websocket.Event.pressure]
    have hls : linkSignals d.log = linkSignals c.log := by
      rw [hlog, linkSignals_append]
      rcases hsig with rfl | rfl <;> exact List.append_nil _
    refine ⟨hls ▸ ha, by rw [hls, hs, hp], by rw [hls, hed, he], ?_⟩
    rw [hlog]
    refine prompt_concat hr ?_
    rcases hsig with rfl | rfl <;> simp
  | up _ hs hd hlog hed =>
    have hls : linkSignals d.log = linkSignals c.log ++ [.connected] := by rw [hlog, linkSignals_append]; rfl
    rw [hs] at hp
    refine ⟨hls ▸ ha.concat_even hp, ?_, ?_, ?_⟩
    · rw [hls, List.length_append, hd]
      simp only [List.length_singleton, State.up, if_true]
      have hp' : (linkSignals c.log).length % 2 = 0 := hp
      omega
    · rw [hls, List.count_append, hed, he]
      rfl
    · rw [hlog]
      exact prompt_concat hr (by simp)
  | refused _ hs hd hlog hed =>
    have hls : linkSignals d.log = linkSignals c.log := by
      rw [hlog, linkSignals_append]
      exact List.append_nil _
    rw [hs] at hp
    refine ⟨hls ▸ ha, by rw [hls, hd, hp]; rfl, by rw [hls, hed, he], ?_⟩
    rw [hlog, List.append_cons]
    exact prompt_concat (prompt_concat hr (by simp)) fun _ => .inr (by simp)
  | down _ hs hd hlog hed =>
    have hls : linkSignals d.log = linkSignals c.log ++ [.disconnected] := by
      rcases hlog with hlog | hlog <;> rw [hlog, linkSignals_append] <;> rfl
    rw [hs, if_pos rfl] at hp
    refine ⟨hls ▸ ha.concat_odd hp, ?_, ?_, ?_⟩
    · rw [hls, List.length_append, hd]
      simp only [List.length_singleton, Bool.false_eq_true, if_false]
      omega
    · rw [hls, List.count_append, hed, he]
      rfl
    · have h1 : Prompt (c.log ++ [.signal .disconnected]) := prompt_concat hr (by simp)
      rcases hlog with hlog | hlog
      · rwa [hlog]
      · rw [hlog, List.append_cons]
        exact prompt_concat h1 fun _ => .inl (by simp)

/-! ## What each function tells -/

theorem Lossless.of_append {l : List Mark} (h : Lossless d) (hl : d.log = c.log ++ l) : Lossless c := by
  intro s hs
  exact h s (hl ▸ List.mem_append_left _ hs)

theorem Lossless.of_log (h : Lossless d) (hl : d.log = c.log) : Lossless c := by
  intro s hs
  exact h s (hl ▸ hs)

theorem close_history (c : Connection) : c.close.log = c.log ∧ c.close.epoch = c.epoch ∧
    c.close.state.up = c.state.up := by
  unfold close closeRequested closeTransport destroyTransportIfNeeded
  grind [State.up]

/-- A signal that is not lost is pushed, and that is all. -/
theorem emit_eq (sig : Signal) (h : Lossless (emit sig c)) :
    emit sig c = { c with signals := c.signals ++ [sig], log := c.log ++ [.signal sig] } := by
  unfold emit at h ⊢
  by_cases hr : c.signals.length < signalPlaces
  · rw [Fifo.push_some hr]
  · rw [Fifo.push_none (by omega)] at h
    refine absurd ?_ (h sig)
    simp only [(close_history _).1]
    simp

theorem arm_eq {e : Error} (h : Lossless (armImmediateReconnect e c)) :
    armImmediateReconnect e c =
      { c with
        signals := c.signals ++ [.retryImmediate], log := c.log ++ [.signal .retryImmediate],
        retryRootError := e, retryAttempts := 1, nextRetry := 0 } := by
  unfold armImmediateReconnect at h ⊢
  rw [emit_eq .retryImmediate (h.of_log rfl)]

theorem Aside.of_eq (hl : d.log = c.log) (he : d.epoch = c.epoch) (hs : d.state.up = c.state.up) : Aside c d :=
  ⟨⟨[], by simp, by rw [hl, List.append_nil]⟩, he, hs⟩

theorem Aside.trans {e : Connection} (h : Aside c d) (h' : Aside d e) : Aside c e := by
  obtain ⟨l, hl, hlog⟩ := h.log
  obtain ⟨l', hl', hlog'⟩ := h'.log
  refine ⟨⟨l ++ l', ?_, by rw [hlog', hlog, List.append_assoc]⟩, h'.epoch.trans h.epoch, h'.up.trans h.up⟩
  intro m hm
  exact (List.mem_append.mp hm).elim (hl m) (hl' m)

theorem aside_close (c : Connection) : Aside c c.close :=
  .of_eq (close_history c).1 (close_history c).2.1 (close_history c).2.2

theorem aside_emit {sig : Signal} (ha : (Mark.signal sig).aside = true) (h : Lossless (emit sig c)) :
    Aside c (emit sig c) := by
  rw [emit_eq sig h]
  exact ⟨⟨[.signal sig], by simp [ha], rfl⟩, rfl, rfl⟩

theorem tells_enterConnected (hs : c.state = .connecting) {now : ℕ}
    (h : Lossless (enterConnected p now c)) : Tells none c (enterConnected p now c) := by
  simp only [enterConnected] at h ⊢
  simp only [emit_eq .connected (h.of_log rfl)]
  exact .up rfl hs rfl rfl rfl

theorem tells_openEnd (hs : c.state = .connecting) {now : ℕ} {answer : Error}
    (h : Lossless (openEnd p now answer c)) : Tells none c (openEnd p now answer c) := by
  unfold openEnd at h ⊢
  split at h
  · next ha =>
    rw [if_pos ha]
    simp only [transition, hs] at h ⊢
    split at h
    · next hr =>
      rw [if_pos hr, arm_eq h]
      exact .refused rfl hs rfl (by simp [destroyTransportIfNeeded]) rfl
    · next hr =>
      rw [if_neg hr]
      exact .quiet ⟨⟨[.openFailed], by decide, rfl⟩, rfl, by rw [hs]; rfl⟩
  · next ha =>
    rw [if_neg ha]
    simp only [transition, hs] at h ⊢
    exact tells_enterConnected hs h

theorem tells_reconnectEnd (hs : c.state = .connecting) {now : ℕ} {answer : Error}
    (h : Lossless (reconnectEnd p now answer c)) : Tells none c (reconnectEnd p now answer c) := by
  unfold reconnectEnd at h ⊢
  split at h
  · next ha =>
    rw [if_pos ha]
    simp only [transition, hs] at h ⊢
    split at h
    · next hr =>
      rw [if_pos hr]
      unfold scheduleNextRetry at h ⊢
      split at h
      · next hn =>
        rw [if_pos hn]
        exact .quiet (.of_eq rfl rfl (by rw [hs]; rfl))
      · next hn =>
        rw [if_neg hn]
        split at h
        · next hm =>
          rw [if_pos hm]
          exact .quiet (.of_eq rfl rfl (by rw [hs]; rfl))
        · next hm =>
          rw [if_neg hm]
          simp only [emit_eq .retryScheduled (h.of_log rfl)]
          exact .quiet ⟨⟨[.signal .retryScheduled], by decide, rfl⟩, rfl, by rw [hs]; rfl⟩
    · next hr =>
      rw [if_neg hr]
      exact .quiet (.of_eq rfl rfl (by rw [hs]; rfl))
  · next ha =>
    rw [if_neg ha]
    simp only [transition, hs] at h ⊢
    exact tells_enterConnected hs h

theorem emit_log (sig : Signal) (c : Connection) : ∃ l, (emit sig c).log = c.log ++ l := by
  unfold emit
  split
  · exact ⟨_, rfl⟩
  · exact ⟨[.lost sig], (close_history _).1⟩

theorem resolveClosed_log (c : Connection) : ∃ l, (resolveClosed p c).log = c.log ++ l := by
  unfold resolveClosed
  split
  · exact emit_log .retryImmediate _
  · exact ⟨[], (List.append_nil _).symm⟩

/-- In an up state a close event is told, and then resolved. -/
theorem onTransportClosed_up (hs : c.state.up = true) {now : ℕ} :
    onTransportClosed p now c = resolveClosed p (emit .disconnected c) := by
  have hu : (emit .disconnected c).state = .connected ∨ (emit .disconnected c).state = .disconnecting := by
    unfold emit close closeRequested closeTransport destroyTransportIfNeeded
    grind [State.up]
  have hn : c.state ≠ .disconnected ∧ c.state ≠ .connecting := by
    constructor <;> intro he <;> rw [he] at hs <;> cases hs
  unfold onTransportClosed
  rw [if_neg hn.1, if_neg hn.2]
  rcases hu with hu | hu <;> simp only [transition, hu]

theorem tells_onTransportClosed (hw : c.state ≠ .waitingReconnect) {now : ℕ}
    (h : Lossless (onTransportClosed p now c)) : Tells (some .close) c (onTransportClosed p now c) := by
  by_cases hs : c.state.up = true
  · rw [onTransportClosed_up hs] at h ⊢
    obtain ⟨l, hl⟩ := resolveClosed_log (p := p) (emit .disconnected c)
    have he := emit_eq _ (h.of_append hl)
    rw [he] at h ⊢
    unfold resolveClosed at h ⊢
    split at h
    · next hr =>
      rw [if_pos hr]
      rw [arm_eq h]
      exact .down rfl hs rfl (.inr (by simp [destroyTransportIfNeeded])) rfl
    · next hr =>
      rw [if_neg hr]
      exact .down rfl hs rfl (.inl rfl) rfl
  · have hn : c.state = .disconnected ∨ c.state = .connecting := by
      cases hc : c.state <;> simp_all [State.up]
    have he : onTransportClosed p now c = c := by
      unfold onTransportClosed
      rcases hn with hn | hn
      · rw [if_pos hn]
      · rw [if_neg (by rw [hn]; decide), if_pos hn]
    rw [he]
    exact .aside (by rintro x ⟨⟩; rfl) (.of_eq rfl rfl rfl)

theorem tells_onEvent {ev : Websocket.Event} (hw : ev = .close → c.state ≠ .waitingReconnect) {now : ℕ}
    (h : Lossless (onEvent p now ev c)) : Tells (some ev) c (onEvent p now ev c) := by
  cases ev with
  | close => exact tells_onTransportClosed (hw rfl) h
  | error e =>
    change Tells _ c (onTransportError e c)
    unfold onTransportError
    split <;> exact .aside (by rintro x ⟨⟩; rfl) (.of_eq rfl rfl rfl)
  | backpressureDetected =>
    change Tells _ c (emit .backpressureDetected c)
    rw [emit_eq _ h]
    exact .pressure .backpressureDetected _ rfl rfl rfl rfl rfl
  | backpressureCleared =>
    change Tells _ c (emit .backpressureCleared c)
    rw [emit_eq _ h]
    exact .pressure .backpressureCleared _ rfl rfl rfl rfl rfl

theorem aside_livenessOutdated {now : ℕ} {e : Error} (h : Lossless (transition p now .livenessOutdated e c)) :
    Aside c (transition p now .livenessOutdated e c) := by
  by_cases hs : c.state = .connected
  · have ht : transition p now .livenessOutdated e c = emit .livenessThreatened c := by
      unfold transition
      rw [hs]
    rw [ht] at h ⊢
    exact aside_emit (by decide) h
  · have ht : transition p now .livenessOutdated e c = c := by
      unfold transition
      split <;> simp_all
    rw [ht]
    exact .of_eq rfl rfl rfl

/-- The timeout closes the transport and keeps the connection up; it tells nothing. -/
theorem aside_livenessExpired (now : ℕ) (e : Error) (c : Connection) :
    Aside c (transition p now .livenessExpired e c) := by
  unfold transition closeTransport
  refine .of_eq ?_ ?_ ?_ <;> grind [State.up]

theorem aside_warnLiveness {now : ℕ} (h : Lossless (warnLiveness p now c)) : Aside c (warnLiveness p now c) := by
  unfold warnLiveness at h ⊢
  split at h
  · next hw =>
    rw [if_pos hw]
    split at h
    · next hr =>
      rw [if_pos hr]
      exact Aside.trans (d := { c with livenessWarningEmitted := true }) (.of_eq rfl rfl rfl)
        (aside_livenessOutdated h)
    · next hr =>
      rw [if_neg hr]
      exact .of_eq rfl rfl rfl
  · next hw =>
    rw [if_neg hw]
    split <;> exact .of_eq rfl rfl rfl

theorem aside_expireLiveness (now : ℕ) (c : Connection) : Aside c (expireLiveness p now c) := by
  unfold expireLiveness
  split
  · exact Aside.trans (d := { c with livenessTimeoutEmitted := true }) (.of_eq rfl rfl rfl)
      (aside_livenessExpired _ _ _)
  · exact .of_eq rfl rfl rfl

theorem aside_enforceLivenessPolicy {now now' : ℕ} (h : Lossless (enforceLivenessPolicy p now now' c)) :
    Aside c (enforceLivenessPolicy p now now' c) := by
  unfold enforceLivenessPolicy at h ⊢
  split at h
  · next hs =>
    rw [if_pos hs]
    have hx := aside_expireLiveness (p := p) now' (warnLiveness p now c)
    obtain ⟨l, -, hl⟩ := hx.log
    exact (aside_warnLiveness (h.of_append hl)).trans hx
  · next hs =>
    rw [if_neg hs]
    exact .of_eq rfl rfl rfl

/-! ## `Connecting` is left by the answer of the transport, and entered by an attempt -/

theorem ne_connecting_emit {sig : Signal} (h : c.state ≠ .connecting) : (emit sig c).state ≠ .connecting := by
  rcases emit_state sig c with hs | hs | hs <;> rw [hs]
  · exact h
  · decide
  · decide

theorem ne_connecting_resolveClosed (c : Connection) : (resolveClosed p c).state ≠ .connecting := by
  unfold resolveClosed
  split
  · exact ne_connecting_emit (by simp [destroyTransportIfNeeded])
  · simp [destroyTransportIfNeeded]

theorem ne_connecting_scheduleNextRetry {now : ℕ} (h : c.state ≠ .connecting) :
    (scheduleNextRetry p now c).state ≠ .connecting := by
  unfold scheduleNextRetry
  split
  · simp
  · split
    · simp
    · exact ne_connecting_emit h

theorem ne_connecting_transition (ev : Event) (ho : ev ≠ .openRequested) (hr : ev ≠ .retryTimerExpired)
    (hc : c.state = .connecting →
      ev = .transportConnected ∨ ev = .transportConnectFailed ∨ ev = .transportReconnectFailed) {now : ℕ} {e : Error} :
    (transition p now ev e c).state ≠ .connecting := by
  unfold transition
  split
  case h_1 => exact absurd rfl ho
  case h_2 => exact ne_connecting_emit (by simp)
  case h_3 =>
    split
    · exact ne_connecting_emit (by simp [destroyTransportIfNeeded])
    · simp [destroyTransportIfNeeded]
  case h_4 =>
    split
    · exact ne_connecting_scheduleNextRetry (by simp [destroyTransportIfNeeded])
    · simp [destroyTransportIfNeeded]
  case h_5 => simp [destroyTransportIfNeeded]
  case h_6 hs => exact ne_connecting_emit (by rw [hs]; decide)
  case h_7 => unfold closeTransport; split <;> simp
  case h_8 => exact ne_connecting_resolveClosed c
  case h_9 => exact ne_connecting_resolveClosed c
  case h_10 => exact absurd rfl hr
  case h_11 => exact absurd rfl ho
  case h_12 => unfold closeRequested closeTransport destroyTransportIfNeeded; grind
  case h_13 => grind

theorem ne_connecting_onEvent {ev : Websocket.Event} (h : c.state ≠ .connecting) {now : ℕ} :
    (onEvent p now ev c).state ≠ .connecting := by
  cases ev with
  | close =>
    change (onTransportClosed p now c).state ≠ _
    unfold onTransportClosed
    split
    · exact h
    · exact ne_connecting_transition _ (by decide) (by decide) fun he => absurd he (ne_connecting_emit h)
  | error e =>
    change (onTransportError e c).state ≠ _
    unfold onTransportError
    split <;> exact h
  | backpressureDetected => exact ne_connecting_emit h
  | backpressureCleared => exact ne_connecting_emit h

theorem ne_connecting_warnLiveness (h : c.state ≠ .connecting) {now : ℕ} :
    (warnLiveness p now c).state ≠ .connecting := by
  unfold warnLiveness
  split
  · split
    · exact ne_connecting_transition _ (by decide) (by decide) (by intro he; exact absurd he h)
    · exact h
  · split <;> exact h

theorem ne_connecting_expireLiveness (h : c.state ≠ .connecting) {now : ℕ} :
    (expireLiveness p now c).state ≠ .connecting := by
  unfold expireLiveness
  split
  · exact ne_connecting_transition _ (by decide) (by decide) (by intro he; exact absurd he h)
  · exact h

theorem ne_connecting_enforceLivenessPolicy (h : c.state ≠ .connecting) {now now' : ℕ} :
    (enforceLivenessPolicy p now now' c).state ≠ .connecting := by
  unfold enforceLivenessPolicy
  split
  · exact ne_connecting_expireLiveness (ne_connecting_warnLiveness h)
  · exact h

/-- An attempt that has succeeded leaves the connection up, also when the signal ring is full. -/
theorem up_enterConnected (now : ℕ) (c : Connection) : (enterConnected p now c).state.up = true := by
  change (emit .connected { c with state := .connected }).state.up = true
  unfold emit close closeRequested closeTransport
  grind [State.up]

theorem up_openEnd (hs : c.state = .connecting) (now : ℕ) : (openEnd p now .none c).state.up = true := by
  have ht : openEnd p now .none c = enterConnected p now c := by
    unfold openEnd transition
    rw [if_neg (by simp), hs]
  rw [ht]
  exact up_enterConnected now c

theorem up_reconnectEnd (hs : c.state = .connecting) (now : ℕ) : (reconnectEnd p now .none c).state.up = true := by
  have ht : reconnectEnd p now .none c = enterConnected p now c := by
    unfold reconnectEnd transition
    rw [if_neg (by simp), hs]
  rw [ht]
  exact up_enterConnected now c

end Connection

/-- The control event that is being handled. -/
def Pc.event : Pc → Option Websocket.Event
  | .handling ev => some ev
  | _ => none

theorem Pc.event_eq_some {pc : Pc} {ev : Websocket.Event} (h : pc.event = some ev) : pc = .handling ev := by
  cases pc <;> simp_all [Pc.event]

/-- The control event that a step handles. -/
def Act.handles (a : Act) (pc : Pc) : Option Websocket.Event :=
  match a with
  | .resume _ => pc.event
  | _ => none

namespace Host

open Connection

variable {p : Policy} {h : Host}

/-- `Connecting` is the state of a call that waits for `ws_->connect`. -/
def Placed (h : Host) : Prop :=
  h.conn.state = .connecting ↔ h.pc.waits = true

theorem placed_of_idle {c : Connection} {pc : Pc} (hc : c.state ≠ .connecting) (hpc : pc.waits = false) :
    Placed ⟨c, pc⟩ := by
  constructor
  · exact fun h => absurd h hc
  · exact fun h => absurd (hpc.symm.trans h) (by decide)

theorem placed_resume (hs : h.conn.Sound) (hp : h.Placed) (env : Env) : (h.resume p env).Placed := by
  unfold resume
  cases hpc : h.pc with
  | idle => exact hp
  | opening answer =>
    refine placed_of_idle ?_ rfl
    unfold openEnd
    split <;> exact ne_connecting_transition _ (by decide) (by decide) (by simp)
  | draining =>
    have hc : h.conn.state ≠ .connecting := fun h => by simpa [hpc, Pc.waits] using hp.mp h
    simp only
    split
    · exact placed_of_idle hc rfl
    · split
      · next hr =>
        rw [hs.reconnectBegin_eq hr.1]
        exact ⟨fun _ => rfl, fun _ => rfl⟩
      · exact placed_of_idle hc rfl
  | handling ev =>
    have hc : h.conn.state ≠ .connecting := fun h => by simpa [hpc, Pc.waits] using hp.mp h
    exact placed_of_idle (ne_connecting_onEvent hc) rfl
  | reconnecting answer =>
    refine placed_of_idle ?_ rfl
    unfold reconnectEnd
    split <;> exact ne_connecting_transition _ (by decide) (by decide) (by simp)
  | liveness =>
    have hc : h.conn.state ≠ .connecting := fun h => by simpa [hpc, Pc.waits] using hp.mp h
    refine placed_of_idle ?_ rfl
    split
    · exact ne_connecting_enforceLivenessPolicy hc
    · exact hc

theorem placed_step (hs : h.conn.Sound) (hp : h.Placed) {a : Act} (ha : h.Enabled a) : (h.step p a).Placed := by
  cases a with
  | «open» url answer =>
    have hpc : h.pc = .idle := ha
    have hc : h.conn.state ≠ .connecting := fun h => by simpa [hpc, Pc.waits] using hp.mp h
    obtain ho | ⟨e, ho⟩ | ⟨u, -, hd, ho⟩ := hs.openBegin_cases (p := p) url answer
    · rw [step, ho]
      exact placed_of_idle hc rfl
    · rw [step, ho]
      exact placed_of_idle hc rfl
    · rw [step, ho]
      exact ⟨fun _ => rfl, fun _ => rfl⟩
  | close =>
    have hpc : h.pc = .idle := ha
    refine placed_of_idle ?_ (by rw [hpc]; rfl)
    rcases close_state h.conn with hd | hd <;> rw [hd] <;> decide
  | send accepted now =>
    obtain ⟨_, _, _, he⟩ := send_eq accepted now h.conn
    rw [step, he]
    exact hp
  | peekMessage found now =>
    obtain ⟨_, _, he⟩ := peekMessage_eq found now h.conn
    rw [step, he]
    exact hp
  | pollSignal => exact hp
  | poll =>
    have hpc : h.pc = .idle := ha
    have hc : h.conn.state ≠ .connecting := fun h => by simpa [hpc, Pc.waits] using hp.mp h
    simp only [step]
    split
    · exact hp
    · exact placed_of_idle hc rfl
  | resume env => exact placed_resume hs hp env
  | deliver ev =>
    obtain ⟨_, he⟩ := deliver_eq ev h.conn
    rw [step, he]
    exact hp

theorem tells_resume (hs : h.conn.Sound) (hp : h.Placed)
    (hw : h.pc = .handling .close → h.conn.state ≠ .waitingReconnect) {env : Env}
    (hl : Lossless (h.resume p env).conn) : Tells h.pc.event h.conn (h.resume p env).conn := by
  unfold resume at hl ⊢
  cases hpc : h.pc with
  | idle => exact .quiet (.of_eq rfl rfl rfl)
  | opening answer =>
    have hc : h.conn.state = .connecting := hp.mpr (by rw [hpc]; rfl)
    rw [hpc] at hl
    exact tells_openEnd hc hl
  | draining =>
    simp only
    split
    · exact .quiet (.of_eq rfl rfl rfl)
    · split
      · next hr =>
        refine .quiet ?_
        rw [hs.reconnectBegin_eq hr.1]
        exact .of_eq rfl rfl (by rw [hr.1]; rfl)
      · exact .quiet (.of_eq rfl rfl rfl)
  | handling ev =>
    rw [hpc] at hl hw
    exact tells_onEvent (fun he => hw (by rw [he])) hl
  | reconnecting answer =>
    have hc : h.conn.state = .connecting := hp.mpr (by rw [hpc]; rfl)
    rw [hpc] at hl
    exact tells_reconnectEnd hc hl
  | liveness =>
    rw [hpc] at hl
    refine .quiet ?_
    simp only at hl ⊢
    split at hl
    · next he =>
      rw [if_pos he]
      exact aside_enforceLivenessPolicy hl
    · next he =>
      rw [if_neg he]
      exact .of_eq rfl rfl rfl

/-- **What a step tells**, when it loses no signal. -/
theorem tells_step (hs : h.conn.Sound) (hp : h.Placed) {a : Act}
    (hw : h.pc = .handling .close → h.conn.state ≠ .waitingReconnect) (hl : Lossless (h.step p a).conn) :
    Tells (a.handles h.pc) h.conn (h.step p a).conn := by
  cases a with
  | «open» url answer =>
    obtain ho | ⟨e, ho⟩ | ⟨u, -, hd, ho⟩ := hs.openBegin_cases (p := p) url answer
    · rw [step, ho]
      exact .quiet (.of_eq rfl rfl rfl)
    · rw [step, ho]
      exact .quiet (.of_eq rfl rfl rfl)
    · rw [step, ho]
      refine .quiet (.of_eq rfl rfl ?_)
      rcases hd with hd | hd <;> rw [hd] <;> rfl
  | close => exact .quiet (aside_close _)
  | send accepted now =>
    obtain ⟨_, _, _, he⟩ := send_eq accepted now h.conn
    rw [step, he]
    exact .quiet (.of_eq rfl rfl rfl)
  | peekMessage found now =>
    obtain ⟨_, _, he⟩ := peekMessage_eq found now h.conn
    rw [step, he]
    exact .quiet (.of_eq rfl rfl rfl)
  | pollSignal => exact .quiet (.of_eq rfl rfl rfl)
  | poll =>
    simp only [step]
    split <;> exact .quiet (.of_eq rfl rfl rfl)
  | resume env => exact tells_resume hs hp hw hl
  | deliver ev =>
    obtain ⟨_, he⟩ := deliver_eq ev h.conn
    rw [step, he]
    exact .quiet (.of_eq rfl rfl rfl)

theorem placed_new : ({} : Host).Placed :=
  placed_of_idle (by decide) rfl

end Host

/-! ## One close event for each transport -/

/-- `ws_->connect` has answered without an error. -/
def Pc.succeeded : Pc → Bool
  | .opening .none | .reconnecting .none => true
  | _ => false

/-- A connection, and of its latest transport: has its connect succeeded, has it sent its close event? -/
structure Net where
  host : Host := {}
  connected : Bool := false
  closeSent : Bool := false
  deriving DecidableEq

namespace Net

open Connection Host

variable {p : Policy} {n : Net}

def step (p : Policy) (n : Net) (a : Act) : Net :=
  let h := n.host.step p a
  if n.host.pc.waits = false ∧ h.pc.waits = true then ⟨h, h.pc.succeeded, false⟩
  else ⟨h, n.connected, n.closeSent || a = .deliver .close⟩

def Step (p : Policy) (n : Net) (a : Act) (n' : Net) : Prop :=
  n.host.Enabled a ∧ n.step p a = n'

/-- A close event comes from a transport that has connected and has not sent one. -/
def Lawful (n : Net) (a : Act) : Prop :=
  a = .deliver .close → n.connected = true ∧ n.closeSent = false

instance (n : Net) (a : Act) : Decidable (n.Lawful a) :=
  inferInstanceAs (Decidable (_ → _))

/-- Close events that have been sent and not been handled. -/
def pending (h : Host) : ℕ :=
  h.conn.controlRing.count .close + if h.pc = .handling .close then 1 else 0

/-- While a close event is pending, or may still come, the connection is up or about to be. -/
structure Tracked (n : Net) : Prop where
  one : pending n.host ≤ 1
  sent : pending n.host = 1 → n.closeSent = true
  up : (n.connected = true ∧ n.closeSent = false) ∨ pending n.host = 1 →
    n.host.conn.state.up = true ∨ n.host.pc.succeeded = true

theorem Tracked.of_same (ht : Tracked n) {h : Host} (hp : pending h = pending n.host)
    (hu : n.host.conn.state.up = true ∨ n.host.pc.succeeded = true → h.conn.state.up = true ∨ h.pc.succeeded = true) :
    Tracked ⟨h, n.connected, n.closeSent⟩ :=
  ⟨hp ▸ ht.one, fun h1 => ht.sent (hp ▸ h1), fun h1 => hu (ht.up (hp ▸ h1))⟩

/-- A fresh transport: the ring is empty and no close event has been sent. -/
theorem tracked_fresh {h : Host} (hr : h.conn.controlRing = []) (hw : h.pc.waits = true) :
    Tracked ⟨h, h.pc.succeeded, false⟩ := by
  have hp : pending h = 0 := by
    unfold pending
    rw [hr, List.count_nil, if_neg]
    intro he
    rw [he] at hw
    cases hw
  exact ⟨by rw [hp]; omega, fun h1 => by simp [hp] at h1, fun h1 => .inr (by simpa [hp] using h1)⟩

theorem pending_eq {h h' : Host} (hr : h'.conn.controlRing = h.conn.controlRing) (hpc : h.pc ≠ .handling .close)
    (hpc' : h'.pc ≠ .handling .close) : pending h' = pending h := by
  unfold pending
  rw [hr, if_neg hpc, if_neg hpc']

/-- A step that creates no transport leaves what is known of the latest one. -/
theorem step_kept {a : Act} (ha : a ≠ .deliver .close)
    (hw : n.host.pc.waits = true ∨ (n.host.step p a).pc.waits = false) :
    n.step p a = ⟨n.host.step p a, n.connected, n.closeSent⟩ := by
  unfold Net.step
  rw [if_neg]
  · simp [ha]
  · rintro ⟨h1, h2⟩
    rcases hw with hw | hw
    · rw [h1] at hw
      cases hw
    · rw [h2] at hw
      cases hw

/-- A close event is handled in an up state. -/
theorem Tracked.closing (ht : Tracked n) (hpc : n.host.pc = .handling .close) :
    pending n.host = 1 ∧ n.host.conn.controlRing.count .close = 0 ∧ n.host.conn.state.up = true := by
  have h1 := ht.one
  have hu := ht.up
  unfold pending at h1 hu ⊢
  rw [if_pos hpc] at h1 hu ⊢
  refine ⟨by omega, by omega, (hu (.inr (by omega))).resolve_right ?_⟩
  rw [hpc]
  decide

theorem tracked_resume (hs : n.host.conn.Sound) (hp : n.host.Placed) (ht : Tracked n) {env : Env}
    (htell : Tells n.host.pc.event n.host.conn (n.host.resume p env).conn) : Tracked (n.step p (.resume env)) := by
  have hne : Act.resume env ≠ .deliver .close := by simp
  have hup : n.host.pc ≠ .handling .close → n.host.conn.state ≠ .connecting →
      (n.host.resume p env).conn.state.up = n.host.conn.state.up := by
    intro hpc hc
    cases htell with
    | aside _ h => exact h.up
    | pressure _ _ _ _ _ _ hs' => rw [hs']
    | up _ hs' => exact absurd hs' hc
    | refused _ hs' => exact absurd hs' hc
    | down hcl => exact absurd (Pc.event_eq_some hcl) hpc
  cases hpc : n.host.pc with
  | idle =>
    rw [step_kept hne (.inr (by simp only [Host.step, resume, hpc]; rfl))]
    refine ht.of_same ?_ ?_ <;> simp only [Host.step, resume, hpc]
    exact id
  | opening answer =>
    have hc : n.host.conn.state = .connecting := hp.mpr (by rw [hpc]; rfl)
    rw [step_kept hne (.inl (by rw [hpc]; rfl)), Host.step, resume_opening hpc]
    refine ht.of_same (pending_eq (frame_openEnd _ _ _).ring (by simp [hpc]) (by simp)) ?_
    rw [hc, hpc]
    rintro (hu | hu)
    · cases hu
    · have ha : answer = .none := by cases answer <;> first | rfl | cases hu
      exact .inl (ha ▸ up_openEnd hc _)
  | draining =>
    have hc : n.host.conn.state ≠ .connecting := fun h => by simpa [hpc, Pc.waits] using hp.mp h
    have hu := hup (by simp [hpc]) hc
    cases hring : n.host.conn.controlRing with
    | cons ev ring =>
      have hr := resume_pop (p := p) (e := env) hpc hring
      rw [step_kept hne (.inr (by rw [Host.step, hr]; rfl)), Host.step, hr]
      refine ht.of_same ?_ ?_
      · unfold pending
        rw [hring, hpc, List.count_cons]
        by_cases he : ev = .close <;> simp [he]
      · rw [hpc]
        exact fun h => .inl (h.resolve_right (by decide))
    | nil =>
      by_cases hretry : n.host.conn.state = .waitingReconnect ∧ n.host.conn.nextRetry ≤ env.now
      · have hr := resume_reconnect (p := p) hpc hring hretry
        have hst : n.step p (.resume env) = ⟨n.host.resume p env, (n.host.resume p env).pc.succeeded, false⟩ := by
          unfold Net.step
          rw [if_pos ⟨by rw [hpc]; rfl, by rw [Host.step, hr]; rfl⟩]
          rfl
        rw [hst]
        refine tracked_fresh ?_ (by rw [hr]; rfl)
        rw [hr, hs.reconnectBegin_eq hretry.1]
      · have hr := resume_drained (p := p) hpc hring hretry
        rw [step_kept hne (.inr (by rw [Host.step, hr]; rfl)), Host.step, hr]
        refine ht.of_same (pending_eq rfl (by simp [hpc]) (by simp)) ?_
        rw [hpc]
        exact fun h => .inl (h.resolve_right (by decide))
  | handling ev =>
    have hr := resume_handling (p := p) (e := env) hpc
    have hring : (n.host.resume p env).conn.controlRing = n.host.conn.controlRing := by
      rw [hr]
      exact (frame_onEvent _ _ _).ring
    rw [step_kept hne (.inr (by rw [Host.step, hr]; rfl))]
    by_cases he : ev = .close
    · -- The one close event that was pending has been handled.
      obtain ⟨h1, h0, -⟩ := ht.closing (by rw [hpc, he])
      have hp0 : pending (n.host.resume p env) = 0 := by
        unfold pending
        rw [hring, h0, hr]
        rfl
      refine ⟨by rw [Host.step, hp0]; omega, fun h => ?_, fun h => ?_⟩
      · rw [Host.step, hp0] at h
        omega
      · rw [Host.step, hp0, ht.sent h1] at h
        simp at h
    · have hc : n.host.conn.state ≠ .connecting := fun h => by simpa [hpc, Pc.waits] using hp.mp h
      have hu := hup (by simp [hpc, he]) hc
      refine ht.of_same (pending_eq hring (by simp [hpc, he]) (by rw [Host.step, hr]; simp)) ?_
      rw [Host.step, hu, hpc]
      exact fun h => .inl (h.resolve_right (by simp [Pc.succeeded]))
  | reconnecting answer =>
    have hc : n.host.conn.state = .connecting := hp.mpr (by rw [hpc]; rfl)
    rw [step_kept hne (.inl (by rw [hpc]; rfl)), Host.step, resume_reconnecting hpc]
    refine ht.of_same (pending_eq (frame_reconnectEnd _ _ _).ring (by simp [hpc]) (by simp)) ?_
    rw [hc, hpc]
    rintro (hu | hu)
    · cases hu
    · have ha : answer = .none := by cases answer <;> first | rfl | cases hu
      exact .inl (ha ▸ up_reconnectEnd hc _)
  | liveness =>
    have hc : n.host.conn.state ≠ .connecting := fun h => by simpa [hpc, Pc.waits] using hp.mp h
    have hu := hup (by simp [hpc]) hc
    have hr := resume_liveness (p := p) (e := env) hpc
    have hring : (n.host.resume p env).conn.controlRing = n.host.conn.controlRing := by
      rw [hr]
      simp only
      split
      · exact (frame_enforceLivenessPolicy _ _ _).ring
      · rfl
    rw [step_kept hne (.inr (by rw [Host.step, hr]; rfl))]
    refine ht.of_same (pending_eq hring (by simp [hpc]) (by rw [Host.step, hr]; simp)) ?_
    rw [Host.step, hu, hpc]
    exact fun h => .inl (h.resolve_right (by decide))

theorem pending_deliver (h : Host) (ev : Websocket.Event) :
    pending ⟨h.conn.deliver ev, h.pc⟩ =
      pending h + if ev = .close ∧ h.conn.controlRing.length < controlPlaces then 1 else 0 := by
  by_cases hroom : h.conn.controlRing.length < controlPlaces
  · rw [deliver_room hroom]
    simp only [pending, List.count_append, List.count_singleton, hroom, and_true, beq_iff_eq]
    omega
  · rw [deliver_full (by omega), if_neg (fun h => hroom h.2), Nat.add_zero]

theorem tracked_deliver (ht : Tracked n) {ev : Websocket.Event} (hlaw : n.Lawful (.deliver ev)) :
    Tracked (n.step p (.deliver ev)) := by
  have hst : n.step p (.deliver ev) =
      ⟨⟨n.host.conn.deliver ev, n.host.pc⟩, n.connected, n.closeSent || ev = .close⟩ := by
    unfold Net.step
    rw [if_neg]
    · simp [Host.step]
    · rintro ⟨h1, h2⟩
      exact absurd (h1.symm.trans h2) (by decide)
  obtain ⟨ring, he⟩ := deliver_eq ev n.host.conn
  have hp := pending_deliver n.host ev
  rw [hst]
  by_cases hev : ev = .close
  · -- The transport was live, so no close event was pending.
    obtain ⟨hc, hsent⟩ := hlaw (by rw [hev])
    have h0 : pending n.host = 0 := by
      have h1 := ht.one
      by_contra hne
      have := ht.sent (by omega)
      rw [hsent] at this
      cases this
    refine ⟨?_, fun _ => by simp [hev], fun _ => ?_⟩
    · change pending ⟨n.host.conn.deliver ev, n.host.pc⟩ ≤ 1
      rw [hp, h0]
      split <;> omega
    · have hu := ht.up (.inl ⟨hc, hsent⟩)
      rw [he]
      exact hu
  · rw [if_neg fun h => hev h.1] at hp
    have hs : (n.closeSent || decide (ev = .close)) = n.closeSent := by simp [hev]
    rw [hs]
    refine ht.of_same hp ?_
    rw [he]
    exact id

/-- The close events are tracked by every step that loses no signal. -/
theorem tracked_step (hs : n.host.conn.Sound) (hp : n.host.Placed) (ht : Tracked n) {a : Act} (ha : n.host.Enabled a)
    (hlaw : n.Lawful a)
    (htell : Tells (a.handles n.host.pc) n.host.conn (n.host.step p a).conn) : Tracked (n.step p a) := by
  cases a with
  | «open» url answer =>
    have hpc : n.host.pc = .idle := ha
    obtain ho | ⟨e, ho⟩ | ⟨u, -, hd, ho⟩ := hs.openBegin_cases (p := p) url answer
    · rw [step_kept (by simp) (.inr (by rw [Host.step, ho]; rfl)), Host.step, ho]
      refine ht.of_same (pending_eq rfl (by simp [hpc]) (by simp)) ?_
      rw [hpc]
      exact id
    · rw [step_kept (by simp) (.inr (by rw [Host.step, ho]; rfl)), Host.step, ho]
      refine ht.of_same (pending_eq rfl (by simp [hpc]) (by simp)) ?_
      rw [hpc]
      exact id
    · have hst : n.step p (.open url answer) =
          ⟨n.host.step p (.open url answer), (n.host.step p (.open url answer)).pc.succeeded, false⟩ := by
        unfold Net.step
        rw [if_pos ⟨by rw [hpc]; rfl, by rw [Host.step, ho]; rfl⟩]
      rw [hst]
      exact tracked_fresh (by rw [Host.step, ho]) (by rw [Host.step, ho]; rfl)
  | close =>
    have hpc : n.host.pc = .idle := ha
    rw [step_kept (by simp) (.inr (by rw [Host.step, hpc]; rfl))]
    refine ht.of_same (pending_eq (frame_close _).ring (by simp [hpc]) (by rw [Host.step, hpc]; simp)) ?_
    rw [Host.step, (close_history _).2.2]
    exact id
  | send accepted now =>
    have hpc : n.host.pc = .idle := ha
    obtain ⟨_, _, _, he⟩ := send_eq accepted now n.host.conn
    rw [step_kept (by simp) (.inr (by rw [Host.step, hpc]; rfl)), Host.step, he]
    exact ht.of_same rfl id
  | peekMessage found now =>
    have hpc : n.host.pc = .idle := ha
    obtain ⟨_, _, he⟩ := peekMessage_eq found now n.host.conn
    rw [step_kept (by simp) (.inr (by rw [Host.step, hpc]; rfl)), Host.step, he]
    exact ht.of_same rfl id
  | pollSignal =>
    have hpc : n.host.pc = .idle := ha
    rw [step_kept (by simp) (.inr (by rw [Host.step, hpc]; rfl))]
    exact ht.of_same rfl id
  | poll =>
    have hpc : n.host.pc = .idle := ha
    have hw : (n.host.step p .poll).pc.waits = false := by
      simp only [Host.step]
      split
      · rw [hpc]
        rfl
      · rfl
    rw [step_kept (by simp) (.inr hw)]
    simp only [Host.step]
    split
    · exact ht
    · refine ht.of_same (pending_eq rfl (by simp [hpc]) (by simp)) ?_
      rw [hpc]
      exact id
  | resume env => exact tracked_resume hs hp ht htell
  | deliver ev => exact tracked_deliver ht hlaw

/-- What holds in every state of a run, as long as no signal is lost. -/
structure Kept (n : Net) : Prop where
  sound : n.host.conn.Sound
  placed : n.host.Placed
  told : Lossless n.host.conn → Told n.host.conn
  tracked : Lossless n.host.conn → Tracked n

theorem kept_new : Kept {} := by
  refine ⟨sound_new, placed_new, fun _ => ⟨trivial, rfl, rfl, ?_⟩, fun _ => ⟨by decide, by decide, by decide⟩⟩
  intro l r he
  exact absurd he (by simp)

theorem kept_step {n' : Net} {a : Act} (hk : Kept n) (hlaw : n.Lawful a) (hstep : Step p n a n') : Kept n' := by
  obtain ⟨ha, rfl⟩ := hstep
  have hhost : (n.step p a).host = n.host.step p a := by
    unfold Net.step
    simp only
    split <;> rfl
  have hless : Lossless (n.step p a).host.conn → Lossless n.host.conn := by
    rw [hhost]
    intro hl
    obtain ⟨l, hlog⟩ := log_step hk.sound a (p := p)
    exact hl.of_append hlog.symm
  have htell : Lossless (n.step p a).host.conn →
      Tells (a.handles n.host.pc) n.host.conn (n.host.step p a).conn := by
    intro hl
    refine tells_step hk.sound hk.placed ?_ (hhost ▸ hl)
    intro hpc hw
    have hu := ((hk.tracked (hless hl)).closing hpc).2.2
    rw [hw] at hu
    cases hu
  refine ⟨hhost ▸ sound_step hk.sound a, hhost ▸ placed_step hk.sound hk.placed ha, ?_, ?_⟩
  · intro hl
    rw [hhost]
    exact (hk.told (hless hl)).tells (htell hl)
  · intro hl
    exact tracked_step hk.sound hk.placed (hk.tracked (hless hl)) ha hlaw (htell hl)

/-- **The signals tell a history of sessions**: in every run in which no signal is lost, `Connected` and
`Disconnected` alternate, beginning with `Connected`; every `RetryImmediate` stands right behind a `Disconnected` or
a failed `open`; and the epoch is the number of `Connected` signals. -/
theorem signals_tell_sessions (p : Policy) {as : List Act} {n : Net} (hr : Run (Step p) Lawful {} as n)
    (hl : ∀ s, Mark.lost s ∉ n.host.conn.log) :
    Alternates .connected .disconnected (linkSignals n.host.conn.log) ∧
    (∀ l r, n.host.conn.log = l ++ .signal .retryImmediate :: r →
      l.getLast? = some (.signal .disconnected) ∨ l.getLast? = some .openFailed) ∧
    n.host.conn.epoch = (linkSignals n.host.conn.log).count .connected := by
  have hk : Kept n := hr.invariant (I := Kept) kept_new fun _ _ _ hk hlaw hs => kept_step hk hlaw hs
  have ht := hk.told hl
  exact ⟨ht.alternates, ht.prompt, ht.epoch⟩

/-- Connected, closed by the transport, and connected again. -/
def reconnected : List Act :=
  opened ++ ([.deliver (.error .remoteClosed)] : List Act) ++ closeAndPoll ++
    ([.resume ⟨3, 3, .none⟩, .resume ⟨3, 3, .none⟩, .resume ⟨3, 3, .none⟩] : List Act)

theorem signals_tell_sessions_reconnected :
    Alternates .connected .disconnected
      (linkSignals ((reconnected.foldl (step defaultPolicy) {}).host.conn.log)) ∧
    (reconnected.foldl (step defaultPolicy) {}).host.conn.epoch = 2 := by
  have hr : Run (Step defaultPolicy) (fun n a => n.host.Enabled a ∧ Lawful n a) {} reconnected
      (reconnected.foldl (step defaultPolicy) {}) :=
    Run.of_admitted (fun _ _ ha => ⟨ha.1, rfl⟩) (by decide)
  exact ⟨(signals_tell_sessions defaultPolicy (hr.mono fun _ _ ha => ha.2) (by intro s; cases s <;> decide)).1, by decide⟩

end Net

end Wirekrak.Transport

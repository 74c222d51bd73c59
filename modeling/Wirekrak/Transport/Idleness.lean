import Wirekrak.Transport.Poll

/-!
# Wirekrak.Transport.Idleness — what `is_idle` promises, and when it keeps it

`is_idle` looks at the retry timer as `poll` does, but takes the timer that is not set for one that is not ready; to
`poll` it is ready at any time.

* `idleSound_iff`: `is_idle` is sound unless an immediate reconnect is armed and its signal has been taken.
* `poll_moves`: there, a poll makes the attempt, whatever the transport answers; the exception is none of a strict reading.
* `timed_run`, `armedUnseen_iff_of_run`: what the exception is in a run.  The timer is not set just while the first retry
  of a cycle waits.
-/

namespace Wirekrak.Transport

open Wirekrak.Lib

namespace Connection

variable {p : Policy} {now : ℕ} {c d e : Connection}

/-- The state, the epoch and the retry data are as they were, and no signal was emitted. -/
structure Still (c d : Connection) : Prop where
  state : d.state = c.state
  epoch : d.epoch = c.epoch
  nextRetry : d.nextRetry = c.nextRetry
  retryAttempts : d.retryAttempts = c.retryAttempts
  retryRootError : d.retryRootError = c.retryRootError
  log : d.log = c.log

/-- The liveness policy has nothing to do at `now`. -/
structure LivenessRests (p : Policy) (now : ℕ) (c : Connection) : Prop where
  warning : p.livenessEnabled = true → c.state = .connected → c.livenessWarningEmitted = false →
    warningThreshold p < c.livenessRemaining p now
  timeout : p.livenessEnabled = true → c.state = .connected → c.livenessTimeoutEmitted = false →
    c.isLivenessStale p now = false

/-- What `is_idle` promises: a poll at the same time does nothing, and a retry that waits to run is seen. -/
structure IdleSound (p : Policy) (now : ℕ) (c : Connection) : Prop where
  still : c.isIdle now = true → c.controlRing = [] → LivenessRests p now c → ∀ answer, Still c (c.poll p now answer)
  seen : c.state = .waitingReconnect → c.nextRetry ≤ now → c.isIdle now = false

/-- A reconnect waits for the next poll without a timer, and there is no signal left to say so. -/
def ArmedUnseen (c : Connection) : Prop := c.state = .waitingReconnect ∧ c.nextRetry = 0 ∧ c.signals = []

theorem isIdle_iff : c.isIdle now = true ↔
    c.signals = [] ∧ ¬ (c.state = .waitingReconnect ∧ c.nextRetry ≠ 0 ∧ c.nextRetry ≤ now) := by
  unfold isIdle
  exact decide_eq_true_iff

theorem isIdle_of_armedUnseen (h : ArmedUnseen c) (now : ℕ) : c.isIdle now = true :=
  isIdle_iff.mpr ⟨h.2.2, fun hc => hc.2.1 h.2.1⟩

/-- **`is_idle` is sound** unless an immediate reconnect is armed and its signal has been taken. -/
theorem idleSound_iff : IdleSound p now c ↔ ¬ ArmedUnseen c := by
  constructor
  · intro h ha
    have hfalse := h.seen ha.1 (by rw [ha.2.1]; exact Nat.zero_le now)
    rw [isIdle_of_armedUnseen ha] at hfalse
    cases hfalse
  · intro ha
    refine ⟨fun hidle hring hl answer => ?_, fun hs ht => ?_⟩
    · obtain ⟨hsig, htimer⟩ := isIdle_iff.mp hidle
      have hun : Unmoved p now c := by
        refine ⟨hring, hsig, fun hc => ?_, hl.warning, hl.timeout⟩
        exact htimer ⟨hc.1, fun h0 => ha ⟨hc.1, h0, hsig⟩, hc.2⟩
      obtain ⟨⟨b, hb⟩, -⟩ := poll_unmoved hun answer
      rw [hb]
      exact ⟨rfl, rfl, rfl, rfl, rfl, rfl⟩
    · rw [← Bool.not_eq_true, isIdle_iff]
      rintro ⟨hsig, htimer⟩
      exact htimer ⟨hs, fun h0 => ha ⟨hs, h0, hsig⟩, ht⟩

/-! ## What a poll does there -/

/-- A fresh transport changes neither the state nor the retry data, and says nothing. -/
theorem createTransport_facts (c : Connection) :
    (useTransport (createTransport c)).state = c.state ∧ (useTransport (createTransport c)).log = c.log ∧
      (useTransport (createTransport c)).signals = c.signals ∧
      (useTransport (createTransport c)).retryAttempts = c.retryAttempts := by
  cases hw : c.ws <;> simp [createTransport, useTransport, hw]

theorem reconnectBegin_facts (hs : c.state = .waitingReconnect) (answer : Error) :
    (reconnectBegin p answer c).state = .connecting ∧ (reconnectBegin p answer c).log = c.log ∧
      (reconnectBegin p answer c).signals = c.signals ∧
      (reconnectBegin p answer c).retryAttempts = c.retryAttempts := by
  cases hu : c.parsedUrl <;> simp [reconnectBegin, hu, transition, hs, createTransport_facts]

theorem scheduleNextRetry_moves (hroom : ¬ Full c) : (scheduleNextRetry p now c).state = .disconnected ∨
    (scheduleNextRetry p now c).log = c.log ++ [.signal .retryScheduled] := by
  rcases scheduleNextRetry_eq (p := p) now c with he | ⟨k, t, he⟩
  · exact .inl (by rw [he])
  · exact .inr (by rw [he, emit_room _ hroom])

theorem enterConnected_log (hroom : ¬ Full c) :
    (enterConnected p now c).log = c.log ++ [.signal .connected] :=
  congrArg Connection.log (emit_room .connected (c := { c with state := .connected }) hroom)

/-- A reconnect that ends leaves the connection down, or something in the log. -/
theorem reconnectEnd_moves (hs : c.state = .connecting) (hroom : ¬ Full c) (answer : Error) :
    (reconnectEnd p now answer c).state = .disconnected ∨
      ∃ m, (reconnectEnd p now answer c).log = c.log ++ [m] := by
  unfold reconnectEnd
  split_ifs with ha
  · simp only [transition, hs]
    split_ifs with hr
    · obtain ⟨d, hd⟩ : ∃ d : Connection,
          destroyTransportIfNeeded { c with disconnectReason := .transportError, state := .waitingReconnect } = d :=
        ⟨_, rfl⟩
      have hlog : d.log = c.log := by rw [← hd]; rfl
      have hd' : ¬ Full d := by rw [← hd]; exact hroom
      rw [hd]
      refine (scheduleNextRetry_moves hd').imp_right fun h => ⟨.signal .retryScheduled, ?_⟩
      rw [h, hlog]
    · exact .inl rfl
  · simp only [transition, hs]
    exact .inr ⟨_, enterConnected_log hroom⟩

/-- **The poll after it is not still**, whatever the transport answers. -/
theorem poll_moves (h : ArmedUnseen c) (hring : c.controlRing = []) (answer : Error) :
    ¬ Still c (c.poll p now answer) := by
  obtain ⟨hs, ht, hsig⟩ := h
  obtain ⟨hstate, hlog, hsignals, -⟩ := reconnectBegin_facts (p := p) hs answer
  have hroom : ¬ Full (reconnectBegin p answer c) := by
    unfold Full
    rw [hsignals, hsig]
    decide
  obtain ⟨r, hr⟩ : ∃ r, reconnectEnd p now answer (reconnectBegin p answer c) = r := ⟨_, rfl⟩
  have hretry : retry p now answer (drain p now c.controlRing.length c) = r := by
    have hdue : c.nextRetry ≤ now := by
      rw [ht]
      exact Nat.zero_le now
    rw [hring]
    exact (if_pos ⟨hs, hdue⟩).trans hr
  have hmoves : r.state = .disconnected ∨ ∃ m, r.log = c.log ++ [m] := by
    rw [← hr, ← hlog]
    exact reconnectEnd_moves hstate hroom answer
  have hpoll : c.poll p now answer = if p.livenessEnabled then r.enforceLivenessPolicy p now now else r := by
    unfold poll
    rw [if_neg (by rw [hs]; decide), hretry]
  rw [hpoll]
  rcases hmoves with hdown | ⟨m, hm⟩
  · have hsame : r.enforceLivenessPolicy p now now = r := by
      unfold enforceLivenessPolicy
      rw [if_neg (by rw [hdown]; decide)]
    rw [hsame, ite_self]
    intro hstill
    have hst := hstill.state
    rw [hdown, hs] at hst
    cases hst
  · obtain ⟨l', hl', -⟩ := (frame_enforceLivenessPolicy (p := p) now now r).grows
    intro hstill
    have hlen := congrArg List.length hstill.log
    split_ifs at hlen
    · rw [hl', hm] at hlen
      simp at hlen
    · rw [hm] at hlen
      simp at hlen

/-! ## The timer in a run -/

/-- A reconnect that waits is the first of its cycle and has no timer, or a later one and has one. -/
def Timed (c : Connection) : Prop :=
  c.state = .waitingReconnect →
    c.nextRetry = 0 ∧ c.retryAttempts = 1 ∨ 0 < c.nextRetry ∧ 1 < c.retryAttempts

/-- The retry data are as they were, and no wait for a reconnect has begun. -/
structure Apart (c d : Connection) : Prop where
  waits : d.state = .waitingReconnect → c.state = .waitingReconnect
  nextRetry : d.nextRetry = c.nextRetry
  retryAttempts : d.retryAttempts = c.retryAttempts

theorem Apart.refl (c : Connection) : Apart c c :=
  ⟨id, rfl, rfl⟩

theorem Apart.trans (h : Apart c d) (h' : Apart d e) : Apart c e :=
  ⟨fun he => h.waits (h'.waits he), h'.nextRetry.trans h.nextRetry, h'.retryAttempts.trans h.retryAttempts⟩

theorem Apart.after (h' : Apart d e) (h : Apart c d) : Apart c e :=
  h.trans h'

theorem Timed.apart (h : Timed c) (ha : Apart c d) : Timed d := by
  intro hd
  rw [ha.nextRetry, ha.retryAttempts]
  exact h (ha.waits hd)

theorem timed_of_ne (h : c.state ≠ .waitingReconnect) : Timed c :=
  fun hc => absurd hc h

theorem apart_closeTransport (c : Connection) : Apart c c.closeTransport := by
  unfold closeTransport
  split <;> exact ⟨id, rfl, rfl⟩

theorem apart_closeRequested (c : Connection) : Apart c c.closeRequested := by
  unfold closeRequested
  split
  · exact .refl c
  · exact ⟨by rintro ⟨⟩, rfl, rfl⟩
  · exact (apart_closeTransport _).after ⟨by rintro ⟨⟩, rfl, rfl⟩
  · exact .refl c
  · exact ⟨by rintro ⟨⟩, rfl, rfl⟩

theorem apart_close (c : Connection) : Apart c c.close := by
  unfold close
  split_ifs
  · exact .refl c
  · exact .refl c
  · exact apart_closeRequested c

theorem apart_emit (sig : Signal) (c : Connection) : Apart c (emit sig c) := by
  by_cases hr : Full c
  · rw [emit_full sig hr]
    exact (apart_close _).after ⟨id, rfl, rfl⟩
  · rw [emit_room sig hr]
    exact ⟨id, rfl, rfl⟩

theorem timed_arm (error : Error) (c : Connection) : Timed (armImmediateReconnect error c) :=
  fun _ => .inl ⟨rfl, rfl⟩

/-- A retry is scheduled after the first of its cycle, and past the clock. -/
theorem timed_scheduleNextRetry (hnow : 0 < now) (h : 1 ≤ c.retryAttempts) : Timed (scheduleNextRetry p now c) := by
  unfold scheduleNextRetry
  split_ifs
  · exact timed_of_ne (by simp)
  · exact timed_of_ne (by simp)
  · have ha := (apart_emit .retryScheduled c).retryAttempts
    refine fun _ => .inr ⟨Nat.add_pos_left hnow _, ?_⟩
    change 1 < (emit .retryScheduled c).retryAttempts + 1
    omega

theorem timed_resolveClosed (c : Connection) : Timed (resolveClosed p c) := by
  unfold resolveClosed
  split_ifs
  · exact timed_arm _ _
  · exact timed_of_ne (by simp [destroyTransportIfNeeded])

theorem timed_enterConnected (now : ℕ) (c : Connection) : Timed (enterConnected p now c) := by
  refine timed_of_ne fun hw => ?_
  have hd := (apart_emit .connected { c with state := .connected }).waits hw
  cases hd

/-- Every event keeps the timer right; a failed reconnect does so when its cycle has begun. -/
theorem timed_transition (h : Timed c) (ev : Event)
    (hev : ev = .transportReconnectFailed → 0 < now ∧ 1 ≤ c.retryAttempts) (error : Error) :
    Timed (transition p now ev error c) := by
  unfold transition
  split
  case h_2 => exact timed_enterConnected now c
  case h_3 =>
    split_ifs
    · exact timed_arm _ _
    · exact timed_of_ne (by simp [destroyTransportIfNeeded])
  case h_4 =>
    dsimp only
    split_ifs
    · exact timed_scheduleNextRetry (hev rfl).1 (hev rfl).2
    · exact timed_of_ne (by simp [destroyTransportIfNeeded])
  case h_6 => exact h.apart (apart_emit _ c)
  case h_7 => exact timed_of_ne fun hw => by cases (apart_closeTransport _).waits hw
  case h_8 => exact timed_resolveClosed c
  case h_9 => exact timed_resolveClosed c
  case h_12 => exact h.apart (apart_closeRequested c)
  case h_13 => exact h
  all_goals exact timed_of_ne (by simp [destroyTransportIfNeeded])

theorem timed_onEvent (h : Timed c) (ev : Websocket.Event) : Timed (onEvent p now ev c) := by
  cases ev with
  | close =>
    simp only [onEvent, onTransportClosed]
    split_ifs
    · exact h
    · exact h
    · exact timed_transition (h.apart (apart_emit _ c)) .transportClosed (by rintro ⟨⟩) _
  | error err =>
    simp only [onEvent, onTransportError]
    split_ifs
    · exact h
    · exact h.apart ⟨id, rfl, rfl⟩
  | backpressureDetected => exact h.apart (apart_emit _ c)
  | backpressureCleared => exact h.apart (apart_emit _ c)

theorem timed_enforceLivenessPolicy (h : Timed c) (now' : ℕ) : Timed (enforceLivenessPolicy p now now' c) := by
  have hw : Timed (warnLiveness p now c) := by
    unfold warnLiveness
    split_ifs
    · refine timed_transition ?_ .livenessOutdated (by rintro ⟨⟩) _
      exact h.apart ⟨id, rfl, rfl⟩
    · exact h
    · exact h.apart ⟨id, rfl, rfl⟩
    · exact h
  unfold enforceLivenessPolicy expireLiveness
  split_ifs
  · refine timed_transition ?_ .livenessExpired (by rintro ⟨⟩) _
    exact hw.apart ⟨id, rfl, rfl⟩
  · exact hw
  · exact h

theorem timed_openEnd (h : Timed c) (answer : Error) : Timed (openEnd p now answer c) := by
  unfold openEnd
  split_ifs
  · refine timed_transition ?_ .transportConnectFailed (by rintro ⟨⟩) _
    exact h.apart ⟨id, rfl, rfl⟩
  · exact timed_transition h .transportConnected (by rintro ⟨⟩) _

theorem timed_reconnectEnd (h : Timed c) (hnow : 0 < now) (h1 : 1 ≤ c.retryAttempts) (answer : Error) :
    Timed (reconnectEnd p now answer c) := by
  unfold reconnectEnd
  split_ifs
  · exact timed_transition h .transportReconnectFailed (fun _ => ⟨hnow, h1⟩) _
  · exact timed_transition h .transportConnected (by rintro ⟨⟩) _

end Connection

namespace Host

open Connection

variable {p : Policy} {h : Host}

/-- The timer is right, and an attempt in progress belongs to a cycle that has begun. -/
structure Timed (h : Host) : Prop where
  conn : h.conn.Timed
  begun : ∀ answer, h.pc = .reconnecting answer → 1 ≤ h.conn.retryAttempts

/-- The clock is past zero. -/
def Ticking : Host → Act → Prop
  | _, .resume env => 0 < env.now
  | _, _ => True

instance (h : Host) (a : Act) : Decidable (Ticking h a) :=
  match a with
  | .resume env => inferInstanceAs (Decidable (0 < env.now))
  | .open .. | .close | .send .. | .peekMessage .. | .pollSignal | .poll | .deliver _ =>
    inferInstanceAs (Decidable True)

theorem Timed.of_conn {c : Connection} {pc : Pc} (h : c.Timed) (hpc : ∀ answer, pc ≠ .reconnecting answer) :
    Timed ⟨c, pc⟩ :=
  ⟨h, fun answer ha => absurd ha (hpc answer)⟩

theorem timed_resume (ht : h.Timed) {env : Env} (hnow : 0 < env.now) : (h.resume p env).Timed := by
  cases hpc : h.pc with
  | idle =>
    unfold resume
    rw [hpc]
    exact ht
  | opening answer =>
    rw [resume_opening hpc]
    exact .of_conn (timed_openEnd ht.conn answer) (by simp)
  | draining =>
    cases hring : h.conn.controlRing with
    | cons ev ring =>
      rw [resume_pop hpc hring]
      exact .of_conn (ht.conn.apart ⟨id, rfl, rfl⟩) (by simp)
    | nil =>
      by_cases hw : h.conn.state = .waitingReconnect ∧ h.conn.nextRetry ≤ env.now
      · rw [resume_reconnect hpc hring hw]
        obtain ⟨hs, -, -, hr⟩ := reconnectBegin_facts (p := p) hw.1 env.answer
        refine ⟨timed_of_ne (by rw [hs]; decide), fun _ _ => ?_⟩
        change 1 ≤ (reconnectBegin p env.answer h.conn).retryAttempts
        rw [hr]
        rcases ht.conn hw.1 with ⟨-, h1⟩ | ⟨-, h1⟩ <;> omega
      · rw [resume_drained hpc hring hw]
        exact .of_conn ht.conn (by simp)
  | handling ev =>
    rw [resume_handling hpc]
    exact .of_conn (timed_onEvent ht.conn ev) (by simp)
  | reconnecting answer =>
    rw [resume_reconnecting hpc]
    exact .of_conn (timed_reconnectEnd ht.conn hnow (ht.begun answer hpc) answer) (by simp)
  | liveness =>
    rw [resume_liveness hpc]
    refine .of_conn ?_ (by simp)
    split_ifs
    · exact timed_enforceLivenessPolicy ht.conn env.now'
    · exact ht.conn

/-- One step keeps the timer right. -/
theorem timed_step (hs : h.conn.Sound) (ht : h.Timed) {a : Act} (ha : h.Enabled a) (hok : Ticking h a) :
    (h.step p a).Timed := by
  cases a with
  | «open» url answer =>
    obtain ho | ⟨e, ho⟩ | ⟨u, -, -, ho⟩ := hs.openBegin_cases (p := p) url answer
    · rw [step, ho]
      exact .of_conn ht.conn (by simp)
    · rw [step, ho]
      exact .of_conn (ht.conn.apart ⟨id, rfl, rfl⟩) (by simp)
    · rw [step, ho]
      exact .of_conn (timed_of_ne (by simp)) (by simp)
  | close =>
    have hpc : h.pc = .idle := ha
    exact .of_conn (ht.conn.apart (apart_close h.conn)) (by simp [hpc])
  | send accepted now =>
    obtain ⟨_, _, _, he⟩ := send_eq accepted now h.conn
    rw [step, he]
    exact ⟨ht.conn.apart ⟨id, rfl, rfl⟩, ht.begun⟩
  | peekMessage found now =>
    obtain ⟨_, _, he⟩ := peekMessage_eq found now h.conn
    rw [step, he]
    exact ⟨ht.conn.apart ⟨id, rfl, rfl⟩, ht.begun⟩
  | pollSignal => exact ⟨ht.conn.apart ⟨id, rfl, rfl⟩, ht.begun⟩
  | poll =>
    simp only [step]
    split_ifs
    · exact ht
    · exact .of_conn ht.conn (by simp)
  | resume env => exact timed_resume ht hok
  | deliver ev =>
    obtain ⟨_, he⟩ := deliver_eq ev h.conn
    rw [step, he]
    exact ⟨ht.conn.apart ⟨id, rfl, rfl⟩, ht.begun⟩

/-- **The timer in every state of a run**: it is not set just while the first retry of a cycle waits. -/
theorem timed_run {as : List Act} (hr : Run (Step p) Ticking {} as h) : h.Timed := by
  have hboth : h.conn.Sound ∧ h.Timed := by
    refine hr.invariant (I := fun h => h.conn.Sound ∧ h.Timed)
      ⟨sound_new, .of_conn (timed_of_ne (by decide)) (by simp)⟩ ?_
    rintro h a _ ⟨hs, ht⟩ hok ⟨ha, rfl⟩
    exact ⟨sound_step hs a, timed_step hs ht ha hok⟩
  exact hboth.2

/-- In a run, what `is_idle` misses is the first retry of a cycle, once its signal has been taken. -/
theorem armedUnseen_iff_of_run {as : List Act} (hr : Run (Step p) Ticking {} as h) :
    ArmedUnseen h.conn ↔ h.conn.state = .waitingReconnect ∧ h.conn.retryAttempts = 1 ∧ h.conn.signals = [] := by
  have ht := (timed_run hr).conn
  constructor
  · rintro ⟨hs, h0, hsig⟩
    rcases ht hs with ⟨-, h1⟩ | ⟨hpos, -⟩
    · exact ⟨hs, h1, hsig⟩
    · omega
  · rintro ⟨hs, h1, hsig⟩
    rcases ht hs with ⟨h0, -⟩ | ⟨-, h2⟩
    · exact ⟨hs, h0, hsig⟩
    · omega

/-- A refused `open`, its signal taken. -/
def refusedUnseen : List Act :=
  [.open "ws://a".toList .connectionFailed, .resume ⟨1, 1, .connectionFailed⟩, .pollSignal]

/-- `is_idle` holds there, and the next poll connects. -/
theorem refused_not_idle :
    Run (Step defaultPolicy) Ticking {} refusedUnseen (after defaultPolicy refusedUnseen) ∧
    (after defaultPolicy refusedUnseen).conn.isIdle 2 = true ∧
    (after defaultPolicy refusedUnseen).conn.controlRing = [] ∧
    LivenessRests defaultPolicy 2 (after defaultPolicy refusedUnseen).conn ∧
    (after defaultPolicy refusedUnseen).conn.state = .waitingReconnect ∧
    ((after defaultPolicy refusedUnseen).conn.poll defaultPolicy 2 .none).state = .connected ∧
    ¬ IdleSound defaultPolicy 2 (after defaultPolicy refusedUnseen).conn := by
  have hseen : (after defaultPolicy refusedUnseen).conn.nextRetry ≤ 2 := by decide
  have hidle : (after defaultPolicy refusedUnseen).conn.isIdle 2 = true := by decide
  have hwaits : (after defaultPolicy refusedUnseen).conn.state = .waitingReconnect := by decide
  have hrests : LivenessRests defaultPolicy 2 (after defaultPolicy refusedUnseen).conn :=
    ⟨fun _ hc => absurd (hwaits.symm.trans hc) (by decide), fun _ hc => absurd (hwaits.symm.trans hc) (by decide)⟩
  refine ⟨run_steps _ (by decide), hidle, by decide, hrests, hwaits, by decide, fun h => ?_⟩
  exact absurd (hidle.symm.trans (h.seen hwaits hseen)) (by decide)

end Host

end Wirekrak.Transport

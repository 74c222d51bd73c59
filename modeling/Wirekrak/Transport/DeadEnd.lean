import Wirekrak.Transport.Engine

/-!
# Wirekrak.Transport.DeadEnd — `Disconnecting` and the close event that ends it

`Disconnecting` is left by the close event of the transport and by nothing else.  The engine signals it once, when its
thread ends; a control ring that is full at that moment drops it, and the connection stays where it is.

* `Engine.Owes e`: the close event has still to be signalled, or to be pushed.
* `Awaited s`: while the connection is up its engine owes the close event, or the event is in the ring or being handled.
* `awaited_step`: every step keeps this, unless it pushes a close event into a full ring.
-/

namespace Wirekrak.Transport

open Wirekrak.Lib

namespace Connection

variable {p : Policy} {c : Connection}

/-! ## Which functions take a connection down -/

theorem up_emit (sig : Signal) (c : Connection) : (emit sig c).state.up = c.state.up := by
  unfold emit
  split
  · rfl
  · exact (close_history _).2.2

theorem up_resolveClosed (c : Connection) : (resolveClosed p c).state.up = false := by
  unfold resolveClosed
  split
  · exact up_emit .retryImmediate _
  · rfl

/-- The close event takes the connection down, whatever its state was. -/
theorem up_onTransportClosed (hc : c.state ≠ .connecting) {now : ℕ} :
    (onTransportClosed p now c).state.up = false := by
  by_cases hs : c.state.up = true
  · rw [onTransportClosed_up hs]
    exact up_resolveClosed _
  · have he := up_emit .disconnected c
    have hn : (emit .disconnected c).state ≠ .connecting := ne_connecting_emit hc
    unfold onTransportClosed transition
    grind [State.up, closeRequested]

theorem up_scheduleNextRetry {now : ℕ} (h : c.state.up = false) : (scheduleNextRetry p now c).state.up = false := by
  unfold scheduleNextRetry
  split
  · rfl
  · split
    · rfl
    · exact (up_emit .retryScheduled c).trans h

theorem up_openEnd_failed (hs : c.state = .connecting) {now : ℕ} {e : Error} (he : e ≠ .none) :
    (openEnd p now e c).state.up = false := by
  unfold openEnd
  rw [if_pos he]
  simp only [transition, hs]
  split
  · exact up_emit .retryImmediate _
  · rfl

theorem up_reconnectEnd_failed (hs : c.state = .connecting) {now : ℕ} {e : Error} (he : e ≠ .none) :
    (reconnectEnd p now e c).state.up = false := by
  unfold reconnectEnd
  rw [if_pos he]
  simp only [transition, hs]
  split
  · exact up_scheduleNextRetry rfl
  · rfl

theorem up_enforceLivenessPolicy (now now' : ℕ) (c : Connection) :
    (enforceLivenessPolicy p now now' c).state.up = c.state.up := by
  have hw : ∀ d : Connection, d.state = .connected → (warnLiveness p now d).state.up = d.state.up := by
    intro d hd
    unfold warnLiveness
    split
    · split
      · simp only [transition, hd]
        exact up_emit _ _
      · rfl
    · split <;> rfl
  unfold enforceLivenessPolicy
  split
  · next hs => exact (aside_expireLiveness _ _).up.trans (hw c hs)
  · rfl

end Connection

/-! ## The engine and its close event -/

namespace Engine

variable {q : Pressure} {e : Engine}

/-- The close event has still to be signalled, or to be pushed. -/
def Owes (e : Engine) : Prop :=
  Websocket.Event.close ∈ e.outbox ∨ e.closeSignaled = false

theorem Owes.emitEvent (h : Owes e) (ev : Websocket.Event) : Owes (emitEvent ev e) :=
  h.imp (List.mem_append_left _) id

theorem Owes.signalClose (h : Owes e) : Owes (signalClose e) := by
  unfold Engine.signalClose
  split
  · exact h
  · exact .inl (List.mem_append_right _ (List.mem_singleton_self _))

theorem Owes.exit (h : Owes e) : Owes (exit e) :=
  Owes.signalClose (e := { e with loop := .exited }) h

theorem Owes.handleFatalError (h : Owes e) (error : Error) : Owes (handleFatalError error e) := by
  unfold Engine.handleFatalError
  split
  · exact Owes.signalClose (Owes.emitEvent (e := { e with running := false }) h _)
  · exact h

theorem Owes.updateBackpressureState (h : Owes e) : Owes (updateBackpressureState e) := by
  unfold Engine.updateBackpressureState
  split
  · exact h
  · exact Owes.emitEvent (e := { e with backpressureActive := e.pressed }) h _

theorem Owes.noteRing (h : Owes e) (r : Hysteresis × Transition) : Owes (noteRing r e) := by
  have h' : Owes { e with ringBackpressure := r.1 } := h
  unfold Engine.noteRing
  split
  · exact h'
  · exact h'.updateBackpressureState

theorem Owes.notePool (h : Owes e) (r : Hysteresis × Transition) : Owes (notePool r e) := by
  have h' : Owes { e with poolBackpressure := r.1 } := h
  unfold Engine.notePool
  split
  · exact h'
  · exact h'.updateBackpressureState

theorem Owes.refuse (h : Owes e) (pool : Bool) : Owes (refuse q pool e) := by
  unfold Engine.refuse
  split
  · exact h.handleFatalError _
  · split
    · exact h.notePool _
    · exact h.noteRing _

theorem Owes.grant (h : Owes e) (got : Acquired) : Owes (grant q got e) := by
  unfold Engine.grant
  split
  · exact h
  · cases got with
    | slot => exact h.noteRing _
    | block => exact h.notePool _
    | nothing => exact h

theorem Owes.receive (h : Owes e) (r : Websocket.ReadResult) : Owes (receive r e) := by
  have hx : ∀ ev, Owes (Engine.exit { Engine.emitEvent ev e with running := false }) := by
    intro ev
    exact Owes.exit (e := { Engine.emitEvent ev e with running := false }) (h.emitEvent ev)
  unfold Engine.receive
  split
  · exact hx _
  · split
    · split
      · exact hx _
      · exact Owes.exit (e := { e with running := false }) h
    · split
      · exact hx _
      · exact h

theorem Owes.turn (h : Owes e) (t : Turn) : Owes (turn q t e) := by
  cases t with
  | saturated => exact h.refuse (q := q) false
  | exhausted => exact h.refuse (q := q) true
  | received got r => exact (h.grant got).receive r

theorem Owes.check (h : Owes e) : Owes (check e) := by
  unfold Engine.check
  split
  · exact h
  · exact h.exit

theorem Owes.close (h : Owes e) : Owes (close e) := by
  unfold Engine.close
  split <;> exact h

/-- Pushing any event but the close event leaves the close event owed. -/
theorem Owes.pushed (h : Owes e) {fits : Bool} {ev : Websocket.Event} {rest : List Websocket.Event}
    (ho : e.outbox = ev :: rest) (hev : ev ≠ .close) : Owes (pushed fits e) := by
  have hr : Owes { e with outbox := rest } := by
    refine h.imp (fun hm => ?_) id
    rw [ho] at hm
    exact (List.mem_cons.mp hm).resolve_left fun hc => hev hc.symm
  unfold Engine.pushed
  rw [ho]
  simp only
  split
  · exact hr
  · split
    · exact hr.handleFatalError _
    · exact hr

end Engine

/-! ## The system -/

namespace Sys

open Connection Host Net

variable {p : Policy} {q : Pressure} {s : Sys}

/-- Up, or about to be. -/
def Engaged (h : Host) : Prop :=
  h.conn.state.up = true ∨ h.pc.succeeded = true

/-- A close event of the current transport has been pushed and not been handled, or has still to be pushed. -/
def Outstanding (s : Sys) : Prop :=
  1 ≤ pending s.host ∨ ∃ e, s.engine = some e ∧ e.Owes

/-- While the connection is up its close event is outstanding. -/
structure Awaited (s : Sys) : Prop where
  sound : s.host.conn.Sound
  placed : s.host.Placed
  engaged : Engaged s.host → s.engine.isSome ∧ Outstanding s

/-- A step that keeps the ring and does not handle a close event keeps what is pending. -/
theorem pending_le {h h' : Host} (hr : h'.conn.controlRing = h.conn.controlRing) (hpc : h.pc ≠ .handling .close) :
    pending h ≤ pending h' := by
  unfold pending
  rw [hr, if_neg hpc]
  omega

/-- A piece of a call that starts no transport: the connection was engaged if it still is, and a close event that was
pending is so still. -/
theorem engaged_resume {h : Host} (hp : h.Placed) {env : Env}
    (hf : ¬ (h.pc.waits = false ∧ (h.resume p env).pc.waits = true)) (he : Engaged (h.resume p env)) :
    Engaged h ∧ pending h ≤ pending (h.resume p env) := by
  have hc : h.pc.waits = false → h.conn.state ≠ .connecting := by
    intro hw hs
    rw [hp.mp hs] at hw
    cases hw
  cases hpc : h.pc with
  | idle =>
    have hr : h.resume p env = h := by unfold resume; rw [hpc]
    rw [hr] at he ⊢
    exact ⟨he, Nat.le_refl _⟩
  | opening answer =>
    have hs : h.conn.state = .connecting := hp.mpr (by rw [hpc]; rfl)
    rw [resume_opening hpc] at he ⊢
    refine ⟨.inr ?_, pending_le (frame_openEnd _ _ _).ring (by simp [hpc])⟩
    by_contra hne
    have ha : answer ≠ .none := by
      rintro rfl
      exact hne (by rw [hpc]; rfl)
    rcases he with he | he
    · simp only at he
      rw [up_openEnd_failed hs ha] at he
      cases he
    · cases he
  | draining =>
    have hs := hc (by rw [hpc]; rfl)
    cases hring : h.conn.controlRing with
    | cons ev ring =>
      have hr := resume_pop (p := p) (e := env) hpc hring
      rw [hr] at he ⊢
      refine ⟨.inl (he.resolve_right (by simp [Pc.succeeded])), ?_⟩
      unfold pending
      rw [hring, hpc, List.count_cons]
      by_cases hev : ev = .close <;> simp [hev]
    | nil =>
      by_cases hretry : h.conn.state = .waitingReconnect ∧ h.conn.nextRetry ≤ env.now
      · refine absurd ⟨by rw [hpc]; rfl, ?_⟩ hf
        rw [resume_reconnect hpc hring hretry]
        rfl
      · rw [resume_drained hpc hring hretry] at he ⊢
        exact ⟨.inl (he.resolve_right (by simp [Pc.succeeded])), pending_le rfl (by simp [hpc])⟩
  | handling ev =>
    have hs := hc (by rw [hpc]; rfl)
    rw [resume_handling hpc] at he ⊢
    have hup := he.resolve_right (by simp [Pc.succeeded])
    cases ev with
    | close =>
      simp only [onEvent] at hup
      rw [up_onTransportClosed hs] at hup
      cases hup
    | error e =>
      refine ⟨.inl ?_, pending_le (frame_onEvent _ _ _).ring (by simp [hpc])⟩
      simp only [onEvent, onTransportError] at hup
      split at hup <;> exact hup
    | backpressureDetected =>
      exact ⟨.inl ((up_emit _ _).symm.trans hup), pending_le (frame_onEvent _ _ _).ring (by simp [hpc])⟩
    | backpressureCleared =>
      exact ⟨.inl ((up_emit _ _).symm.trans hup), pending_le (frame_onEvent _ _ _).ring (by simp [hpc])⟩
  | reconnecting answer =>
    have hs : h.conn.state = .connecting := hp.mpr (by rw [hpc]; rfl)
    rw [resume_reconnecting hpc] at he ⊢
    refine ⟨.inr ?_, pending_le (frame_reconnectEnd _ _ _).ring (by simp [hpc])⟩
    by_contra hne
    have ha : answer ≠ .none := by
      rintro rfl
      exact hne (by rw [hpc]; rfl)
    rcases he with he | he
    · simp only at he
      rw [up_reconnectEnd_failed hs ha] at he
      cases he
    · cases he
  | liveness =>
    rw [resume_liveness hpc] at he ⊢
    have hup := he.resolve_right (by simp [Pc.succeeded])
    simp only at hup ⊢
    split at hup
    · next hl =>
      rw [up_enforceLivenessPolicy] at hup
      exact ⟨.inl hup, by rw [if_pos hl]; exact pending_le (frame_enforceLivenessPolicy _ _ _).ring (by simp [hpc])⟩
    · next hl => exact ⟨.inl hup, by rw [if_neg hl]; exact pending_le rfl (by simp [hpc])⟩

theorem engaged_step {h : Host} (hs : h.conn.Sound) (hp : h.Placed) {a : Act} (ha : h.Enabled a)
    (hd : ∀ ev, a ≠ .deliver ev) (hf : ¬ (h.pc.waits = false ∧ (h.step p a).pc.waits = true))
    (he : Engaged (h.step p a)) : Engaged h ∧ pending h ≤ pending (h.step p a) := by
  cases a with
  | «open» url answer =>
    have hpc : h.pc = .idle := ha
    obtain ho | ⟨e, ho⟩ | ⟨u, -, -, ho⟩ := hs.openBegin_cases (p := p) url answer
    · rw [Host.step, ho] at he ⊢
      exact ⟨.inl (he.resolve_right (by simp [Pc.succeeded])), pending_le rfl (by simp [hpc])⟩
    · rw [Host.step, ho] at he ⊢
      exact ⟨.inl (he.resolve_right (by simp [Pc.succeeded])), pending_le rfl (by simp [hpc])⟩
    · exact absurd ⟨by rw [hpc]; rfl, by rw [Host.step, ho]; rfl⟩ hf
  | close =>
    have hpc : h.pc = .idle := ha
    refine ⟨?_, pending_le (frame_close _).ring (by simp [hpc])⟩
    exact he.imp (fun hu => (close_history _).2.2.symm.trans hu) id
  | send accepted now =>
    obtain ⟨_, _, _, hse⟩ := send_eq accepted now h.conn
    rw [Host.step, hse] at he ⊢
    exact ⟨he, Nat.le_refl _⟩
  | peekMessage found now =>
    obtain ⟨_, _, hse⟩ := peekMessage_eq found now h.conn
    rw [Host.step, hse] at he ⊢
    exact ⟨he, Nat.le_refl _⟩
  | pollSignal => exact ⟨he, Nat.le_refl _⟩
  | poll =>
    have hpc : h.pc = .idle := ha
    simp only [Host.step] at he ⊢
    split at he
    · next hd => exact ⟨he, Nat.le_of_eq (by rw [if_pos hd])⟩
    · next hd =>
      rw [if_neg hd]
      exact ⟨.inl (he.resolve_right (by simp [Pc.succeeded])), pending_le rfl (by simp [hpc])⟩
  | resume env => exact engaged_resume hp hf he
  | deliver ev => exact absurd rfl (hd ev)

/-- A push that fits is pending; the host is otherwise as it was. -/
theorem pending_push (h : Host) (ev : Websocket.Event) : pending h ≤ pending (h.step p (.deliver ev)) := by
  change _ ≤ pending ⟨h.conn.deliver ev, h.pc⟩
  rw [pending_deliver]
  omega

/-- Every push of a close event finds a place in the control ring. -/
def Signalled (s : Sys) (a : SysAct) : Prop :=
  a = .push → s.engine.bind (·.outbox.head?) = some .close → s.room = true

instance (s : Sys) (a : SysAct) : Decidable (s.Signalled a) :=
  inferInstanceAs (Decidable (_ → _ → _))

theorem engine_of_ready {l : Loop} (h : s.Ready l) : ∃ e, s.engine = some e := by
  unfold Ready at h
  cases he : s.engine with
  | none => rw [he] at h; cases h
  | some e => exact ⟨e, rfl⟩

/-- A step of the engine's thread that pushes nothing. -/
theorem Awaited.thread (h : Awaited s) {f : Engine → Engine} (hf : ∀ e, e.Owes → (f e).Owes) :
    Awaited { s with engine := s.engine.map f } := by
  refine ⟨h.sound, h.placed, fun he => ?_⟩
  obtain ⟨hi, ho⟩ := h.engaged he
  refine ⟨by simpa using hi, ho.imp id ?_⟩
  rintro ⟨e, heq, howes⟩
  exact ⟨f e, by simp [heq], hf e howes⟩

/-- **Every step keeps the close event outstanding**, unless it pushes that event into a full ring. -/
theorem awaited_step {s' : Sys} {a : SysAct} (h : Awaited s) (hok : s.Signalled a) (hstep : Step p q s a s') :
    Awaited s' := by
  obtain ⟨ha, rfl⟩ := hstep
  cases a with
  | host a =>
    have hd : ∀ ev, a ≠ .deliver ev := by
      rintro ev rfl
      exact ha
    have hen : s.host.Enabled a := by cases a <;> first | exact ha.1 | exact ha.elim
    refine ⟨sound_step h.sound a, placed_step h.sound h.placed hen, fun he => ?_⟩
    simp only [Sys.step] at he ⊢
    unfold settle
    split
    · next hf =>
      -- A fresh transport that has connected: its thread has signalled nothing.
      have hs : (s.host.step p a).pc.succeeded = true := by
        refine he.resolve_left fun hu => ?_
        have hc := (placed_step (p := p) h.sound h.placed hen).mpr hf.2
        rw [hc] at hu
        cases hu
      rw [if_pos hs]
      exact ⟨rfl, .inr ⟨{}, rfl, .inr rfl⟩⟩
    · next hf =>
      obtain ⟨he', hle⟩ := engaged_step h.sound h.placed hen hd hf he
      obtain ⟨hi, ho⟩ := h.engaged he'
      have hout : ∀ f : Engine → Engine, (∀ e, e.Owes → (f e).Owes) →
          (s.engine.map f).isSome ∧ Outstanding ⟨s.host.step p a, s.engine.map f⟩ := by
        intro f hfo
        refine ⟨by simpa using hi, ho.imp (fun h1 => Nat.le_trans h1 hle) ?_⟩
        rintro ⟨e, heq, howes⟩
        exact ⟨f e, by simp [heq], hfo e howes⟩
      split
      · have := hout id (fun _ h => h)
        simpa using this
      · exact hout Engine.close fun e h => h.close
  | check => exact h.thread fun e h => h.check
  | turn t => exact h.thread fun e h => h.turn t
  | push =>
    simp only [Sys.step]
    cases hh : s.engine.bind (·.outbox.head?) with
    | none => exact h
    | some ev =>
      refine ⟨sound_step h.sound _, placed_step h.sound h.placed trivial, fun he => ?_⟩
      have hold : Engaged s.host := by
        obtain ⟨_, hde⟩ := deliver_eq ev s.host.conn
        simp only [Host.step, hde] at he
        exact he
      obtain ⟨hi, ho⟩ := h.engaged hold
      refine ⟨by simpa using hi, ?_⟩
      rcases ho with ho | ⟨e, heq, howes⟩
      · exact .inl (Nat.le_trans ho (pending_push (p := p) _ _))
      · by_cases hev : ev = .close
        · left
          have hroom := hok rfl (by rw [hh, hev])
          change 1 ≤ pending ⟨s.host.conn.deliver ev, s.host.pc⟩
          rw [pending_deliver, if_pos ⟨hev, of_decide_eq_true hroom⟩]
          omega
        · right
          obtain ⟨rest, hrest⟩ : ∃ rest, e.outbox = ev :: rest := by
            rw [heq] at hh
            exact List.head?_eq_some_iff.mp hh
          exact ⟨_, by rw [heq]; rfl, howes.pushed hrest hev⟩

theorem awaited_new : Awaited {} := by
  refine ⟨sound_new, placed_new, ?_⟩
  rintro (h | h) <;> cases h

/-- **No dead end in `Disconnecting`**, in every run in which each push of a close event finds a place in the control
ring: the close event is in the ring, being handled, or still owed by the engine, and handling it leaves the state. -/
theorem disconnecting_awaits_close (p : Policy) (q : Pressure) {as : List SysAct}
    (hr : Run (Step p q) Signalled {} as s) (hd : s.host.conn.state = .disconnecting) :
    (.close ∈ s.host.conn.controlRing ∨ s.host.pc = .handling .close ∨
      ∃ e, s.engine = some e ∧ (.close ∈ e.outbox ∨ e.closeSignaled = false)) ∧
    ∀ now, (s.host.conn.onEvent p now .close).state ≠ .disconnecting := by
  have h : Awaited s := hr.invariant (I := Awaited) awaited_new fun _ _ _ h hok hs => awaited_step h hok hs
  obtain ⟨-, ho⟩ := h.engaged (.inl (by rw [hd]; rfl))
  refine ⟨?_, fun now he => ?_⟩
  · rcases ho with ho | ho
    · unfold pending at ho
      split at ho
      · next hpc => exact .inr (.inl hpc)
      · exact .inl (List.count_pos_iff.mp (by omega))
    · exact .inr (.inr ho)
  · have hu : (onTransportClosed p now s.host.conn).state.up = false := up_onTransportClosed (by rw [hd]; decide)
    change (onTransportClosed p now s.host.conn).state = _ at he
    rw [he] at hu
    cases hu

/-! ## Two runs -/

theorem run_steps {ok : Sys → SysAct → Prop} {as : List SysAct}
    (h : Admitted (step p q) (fun s a => s.Enabled a ∧ ok s a) {} as) :
    Run (Step p q) ok {} as (as.foldl (step p q) {}) := by
  have hr : Run (Step p q) (fun s a => s.Enabled a ∧ ok s a) {} as (as.foldl (step p q) {}) :=
    Run.of_admitted (fun _ _ ha => ⟨ha.1, rfl⟩) h
  exact hr.mono fun _ _ ha => ha.2

/-- `backpressure::Custom<1, 1, 1>`. -/
def custom : Pressure :=
  ⟨false, 1, 1⟩

/-- Connected and closed by the user; the thread ends and pushes its close event. -/
def closedByUser : List SysAct :=
  (opened.map .host : List SysAct) ++ ([.host .close, .check, .push] : List SysAct)

theorem disconnecting_awaits_close_user :
    (closedByUser.foldl (step defaultPolicy custom) {}).host.conn.state = .disconnecting ∧
    (.close ∈ (closedByUser.foldl (step defaultPolicy custom) {}).host.conn.controlRing ∨
      (closedByUser.foldl (step defaultPolicy custom) {}).host.pc = .handling .close ∨
      ∃ e, (closedByUser.foldl (step defaultPolicy custom) {}).engine = some e ∧
        (.close ∈ e.outbox ∨ e.closeSignaled = false)) :=
  ⟨by decide, (disconnecting_awaits_close defaultPolicy custom (run_steps (by decide)) (by decide)).1⟩

/-- The message ring is found full, then a slot is found: one event each. -/
def flicker : List SysAct :=
  [.check, .turn .saturated, .push, .check, .turn (.received .slot ⟨.ok, [0], .message, .none⟩), .push]

/-- Nobody polls while 255 events fill the control ring; then the user closes. -/
def closedOnFullRing : List SysAct :=
  (opened.map .host : List SysAct) ++ (List.replicate 127 flicker).flatten ++
    ([.check, .turn .saturated, .push] : List SysAct) ++ ([.host .close, .check, .push] : List SysAct)

/-- The host with another control ring. -/
def withRing (h : Host) (ring : List Websocket.Event) : Host :=
  { h with conn := { h.conn with controlRing := ring } }

theorem step_push_room {h : Host} {e : Engine} {ev : Websocket.Event} {rest : List Websocket.Event}
    (ho : e.outbox = ev :: rest) (hroom : h.conn.controlRing.length < controlPlaces) :
    step p q ⟨h, some e⟩ .push = ⟨withRing h (h.conn.controlRing ++ [ev]), some { e with outbox := rest }⟩ := by
  have hs : room ⟨h, some e⟩ = true := decide_eq_true hroom
  unfold step
  dsimp only [Option.bind_some, Option.map_some]
  rw [ho, hs]
  show Sys.mk ⟨h.conn.deliver ev, h.pc⟩ _ = _
  rw [Connection.deliver_room hroom]
  unfold Engine.pushed withRing
  rw [ho]
  rfl

/-- A close event that finds no place is dropped. -/
theorem step_push_close {h : Host} {e : Engine} {rest : List Websocket.Event} (ho : e.outbox = .close :: rest)
    (hfull : controlPlaces ≤ h.conn.controlRing.length) :
    step p q ⟨h, some e⟩ .push = ⟨h, some { e with outbox := rest }⟩ := by
  have hs : room ⟨h, some e⟩ = false := decide_eq_false (Nat.not_lt.mpr hfull)
  unfold step
  dsimp only [Option.bind_some, Option.map_some]
  rw [ho, hs]
  show Sys.mk ⟨h.conn.deliver .close, h.pc⟩ _ = _
  rw [Connection.deliver_full hfull]
  unfold Engine.pushed
  rw [ho]
  rfl

/-- The engine under backpressure. -/
def pressedEngine : Engine :=
  { ringBackpressure := ⟨true, 0, 0⟩, backpressureActive := true }

theorem run_detect (h : Host) (hlen : h.conn.controlRing.length < controlPlaces) :
    Run (Step p custom) (fun _ _ => True) ⟨h, some {}⟩ [.check, .turn .saturated, .push]
      ⟨withRing h (h.conn.controlRing ++ [.backpressureDetected]), some pressedEngine⟩ := by
  have h1 : Run (Step p custom) (fun _ _ => True) ⟨h, some {}⟩ [.check] ⟨h, some { loop := .body }⟩ :=
    .snoc .nil trivial ⟨rfl, rfl⟩
  have h2 : Run (Step p custom) (fun _ _ => True) ⟨h, some {}⟩ [.check, .turn .saturated]
      ⟨h, some { pressedEngine with outbox := [.backpressureDetected] }⟩ := .snoc h1 trivial ⟨rfl, rfl⟩
  exact .snoc h2 trivial ⟨rfl, step_push_room rfl hlen⟩

theorem run_clear (h : Host) (hlen : h.conn.controlRing.length < controlPlaces) :
    Run (Step p custom) (fun _ _ => True) ⟨h, some pressedEngine⟩
      [.check, .turn (.received .slot ⟨.ok, [0], .message, .none⟩), .push]
      ⟨withRing h (h.conn.controlRing ++ [.backpressureCleared]), some {}⟩ := by
  have h1 : Run (Step p custom) (fun _ _ => True) ⟨h, some pressedEngine⟩ [.check]
      ⟨h, some { pressedEngine with loop := .body }⟩ := .snoc .nil trivial ⟨rfl, rfl⟩
  have h2 : Run (Step p custom) (fun _ _ => True) ⟨h, some pressedEngine⟩
      [.check, .turn (.received .slot ⟨.ok, [0], .message, .none⟩)]
      ⟨h, some { outbox := [.backpressureCleared] }⟩ := .snoc h1 trivial ⟨rfl, rfl⟩
  exact .snoc h2 trivial ⟨rfl, step_push_room rfl hlen⟩

/-- As long as there is room, a round leaves the engine as it was. -/
theorem run_flicker (n : ℕ) (h : Host) (hlen : h.conn.controlRing.length + 2 * n ≤ controlPlaces)
    (hclose : .close ∉ h.conn.controlRing) :
    ∃ ring, Run (Step p custom) (fun _ _ => True) ⟨h, some {}⟩ (List.replicate n flicker).flatten
        ⟨withRing h ring, some {}⟩ ∧
      ring.length = h.conn.controlRing.length + 2 * n ∧ .close ∉ ring := by
  induction n with
  | zero => exact ⟨_, .nil, rfl, hclose⟩
  | succ n ih =>
    obtain ⟨ring, hrun, hring, hno⟩ := ih (by omega)
    have hroom : ring.length < controlPlaces := by omega
    have hroom' : (ring ++ [Websocket.Event.backpressureDetected]).length < controlPlaces := by
      rw [List.length_append, List.length_singleton]
      omega
    have h1 := run_detect (p := p) (withRing h ring) hroom
    have h2 := run_clear (p := p) (withRing h (ring ++ [Websocket.Event.backpressureDetected])) hroom'
    refine ⟨(ring ++ [.backpressureDetected]) ++ [.backpressureCleared], ?_, by simp; omega, by simp [hno]⟩
    rw [List.replicate_succ', List.flatten_append, List.flatten_singleton]
    exact hrun.trans (h1.trans h2)

/-- The user closes on a full ring. -/
theorem run_close_dropped {h h' : Host} (ring : List Websocket.Event) (hfull : controlPlaces ≤ ring.length)
    (henabled : (withRing h ring).Enabled .close) (hclose : (withRing h ring).step p .close = withRing h' ring)
    (hsettle : settle (withRing h ring) (withRing h' ring) (some pressedEngine) = some pressedEngine.close) :
    Run (Step p custom) (fun _ _ => True) ⟨withRing h ring, some pressedEngine⟩ [.host .close, .check, .push]
      ⟨withRing h' ring, some { pressedEngine.close with loop := .exited, closeSignaled := true }⟩ := by
  have h1 : Run (Step p custom) (fun _ _ => True) ⟨withRing h ring, some pressedEngine⟩ [.host .close]
      ⟨withRing h' ring, some pressedEngine.close⟩ := by
    refine .snoc .nil trivial ⟨⟨henabled, ?_⟩, ?_⟩
    · rintro ⟨e, he, hc, -⟩
      cases he
      cases hc
    · unfold step
      dsimp only
      rw [hclose, hsettle]
  have h2 : Run (Step p custom) (fun _ _ => True) ⟨withRing h ring, some pressedEngine⟩ [.host .close, .check]
      ⟨withRing h' ring,
        some { pressedEngine.close with loop := .exited, closeSignaled := true, outbox := [.close] }⟩ :=
    .snoc h1 trivial ⟨rfl, rfl⟩
  exact .snoc h2 trivial ⟨rfl, step_push_close rfl hfull⟩

theorem foldl_of_run {ok : Sys → SysAct → Prop} {s u : Sys} {as : List SysAct} (h : Run (Step p q) ok s as u) :
    as.foldl (step p q) s = u := by
  induction h with
  | nil => rfl
  | snoc _ _ hs ih => rw [List.foldl_concat, ih, hs.2]

/-- The connection once it is open. -/
def openedHost : Host :=
  ((opened.map .host : List SysAct).foldl (step defaultPolicy custom) {}).host

/-- The close event is dropped: the connection is `Disconnecting`, its transport has ended, and no close event is in
the ring, being handled, or owed. -/
theorem close_event_dropped :
    Run (Step defaultPolicy custom) (fun _ _ => True) {} closedOnFullRing
      (closedOnFullRing.foldl (step defaultPolicy custom) {}) ∧
    (closedOnFullRing.foldl (step defaultPolicy custom) {}).host.conn.state = .disconnecting ∧
    .close ∉ (closedOnFullRing.foldl (step defaultPolicy custom) {}).host.conn.controlRing ∧
    (closedOnFullRing.foldl (step defaultPolicy custom) {}).host.pc = .idle ∧
    (closedOnFullRing.foldl (step defaultPolicy custom) {}).engine.map
      (fun e => (e.finished, e.closeSignaled)) = some (true, true) := by
  have hopened : Run (Step defaultPolicy custom) (fun _ _ => True) {} (opened.map .host : List SysAct)
      ⟨openedHost, some {}⟩ := run_steps (by decide)
  obtain ⟨ring, hflicker, hlen, hno⟩ := run_flicker 127 openedHost (by decide) (by decide)
  have hroom : ring.length < controlPlaces := by
    rw [hlen]
    decide
  have hfull : controlPlaces ≤ (ring ++ [Websocket.Event.backpressureDetected]).length := by
    rw [List.length_append, hlen]
    decide
  have hdetect := run_detect (p := defaultPolicy) (withRing openedHost ring) hroom
  have hdrop := run_close_dropped (h := openedHost) (p := defaultPolicy) _ hfull rfl
    (show _ = withRing (openedHost.step defaultPolicy .close) _ from rfl) rfl
  have hrun : Run (Step defaultPolicy custom) (fun _ _ => True) {} closedOnFullRing _ :=
    ((hopened.trans hflicker).trans hdetect).trans hdrop
  rw [foldl_of_run hrun]
  refine ⟨hrun, rfl, ?_, rfl, rfl⟩
  show .close ∉ ring ++ [.backpressureDetected]
  simp [hno]

end Sys

end Wirekrak.Transport

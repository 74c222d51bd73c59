import Wirekrak.Transport.Backpressure
import Wirekrak.Transport.Overflow

/-!
# Wirekrak.Transport.Isolation — messages and the connection they came in on

Every transport of a connection writes into the same message ring, and the session reads that ring after it has
drained the signals.  Three things keep the connections apart: `Engine::close` joins the thread before it returns,
`create_transport_` clears the ring, and no `Connected` can be emitted between the signals and the messages of a poll.

* `Delivery`: a session with its message ring.  The transports are numbered as they are created; a message is the
  number of the transport that received it, what it consists of is not needed here.
* A transport that is replaced is kept: as long as its thread runs it may still write (`stray`).
* `epoch_isolated`: what is handed to the handler after `n` handled `Connected` was received by the transport of the
  `n`-th connection.
-/

namespace Wirekrak.Transport

open Wirekrak.Lib

/-- The turn ends with a complete message. -/
def Turn.completes : Turn → Bool
  | .received _ r => r.status = .ok ∧ r.frame = .message ∧ r.data ≠ []
  | _ => false

/-- `established` are the transports of the connections, in order; `delivered` what the message handler was given, and
how many `Connected` the session had handled by then. -/
structure Delivery where
  session : Session := {}
  created : ℕ := 0
  ring : List ℕ := []
  retired : List (ℕ × Engine) := []
  established : List ℕ := []
  delivered : List (ℕ × ℕ) := []
  deriving DecidableEq

inductive DeliveryAct
  | session (a : SessionAct)
  | stray (k : ℕ)
  deriving DecidableEq

namespace Delivery

open Connection Host Sys

variable {p : Policy} {q : Pressure} {n : ℕ} {d u : Delivery}

def host (d : Delivery) : Host :=
  d.session.sys.host

def engine (d : Delivery) : Option Engine :=
  d.session.sys.engine

/-- The `Connected` signals that the session has handled. -/
def handled (d : Delivery) : ℕ :=
  d.session.observed.count .connected

/-- The session goes on.  Where a transport is created the ring is cleared, and where the epoch rises the latest
transport has become that of a connection. -/
def follow (d : Delivery) (s : Session) : Delivery :=
  if d.host.pc.waits = false ∧ s.sys.host.pc.waits = true then
    { d with
      session := s
      created := d.created + 1
      ring := []
      retired := d.retired ++ d.engine.toList.map fun e => (d.created, e) }
  else if s.sys.host.conn.epoch = d.host.conn.epoch then { d with session := s }
  else { d with session := s, established := d.established ++ [d.created] }

/-- The first message of the ring is handed over and released. -/
def handOver (d : Delivery) : Delivery :=
  match d.ring with
  | [] => d
  | k :: rest => { d with ring := rest, delivered := d.delivered ++ [(d.handled, k)] }

def step (p : Policy) (q : Pressure) (n : ℕ) (d : Delivery) : DeliveryAct → Delivery
  | .session (.turn t) =>
    { d with
      session := d.session.step p q n (.turn t)
      ring := if t.completes then d.ring ++ [d.created] else d.ring }
  | .session (.peekMessage true now) => (d.follow (d.session.step p q n (.peekMessage true now))).handOver
  | .session a => d.follow (d.session.step p q n a)
  | .stray k => { d with ring := d.ring ++ [k] }

/-- Messages are read in one phase of a poll; a thread that has not ended may write. -/
def Enabled (d : Delivery) : DeliveryAct → Prop
  | .session (.peekMessage found now) =>
    d.session.Enabled (.peekMessage found now) ∧ d.session.phase = .messages ∧ (found = true ↔ d.ring ≠ [])
  | .session a => d.session.Enabled a
  | .stray k => ∃ x ∈ d.retired, x.1 = k ∧ x.2.finished = false

def Step (p : Policy) (q : Pressure) (n : ℕ) (d : Delivery) (a : DeliveryAct) (d' : Delivery) : Prop :=
  d.Enabled a ∧ d.step p q n a = d'

/-- What holds as long as no signal is lost. -/
structure Isolated (d : Delivery) : Prop where
  sound : d.host.conn.Sound
  placed : d.host.Placed
  joined : ∀ x ∈ d.retired, x.2.finished = true
  closed : d.host.conn.ws ≠ some ⟨false⟩ → ∀ e, d.engine = some e → e.closed = true
  tags : ∀ k ∈ d.ring, k = d.created
  source : d.engine ≠ none ∨ d.ring ≠ [] → d.host.pc.succeeded = true ∨ d.established.getLast? = some d.created
  epoch : d.host.conn.epoch = d.established.length
  ledger : d.handled + d.host.conn.signals.count .connected = d.established.length
  older : ∀ k ∈ d.established, k ≤ d.created ∧ (d.host.pc.waits = true → k < d.created)
  sorted : d.established.Pairwise (· < ·)
  calm : d.session.phase ≠ .idle → d.session.phase ≠ .polling → d.host.pc = .idle
  drained : d.session.phase = .messages → d.host.conn.signals = []
  right : ∀ x ∈ d.delivered, 0 < x.1 ∧ d.established[x.1 - 1]? = some x.2

/-! ## What a step of the connection announces -/

theorem count_emitted {l : List Mark} (h : Mark.signal .connected ∉ l) : (emitted l).count .connected = 0 := by
  refine List.count_eq_zero.mpr fun hm => h ?_
  obtain ⟨m, hm, hs⟩ := List.mem_filterMap.mp hm
  cases m with
  | signal sig =>
    cases hs
    exact hm
  | lost sig => cases hs
  | openFailed => cases hs

/-- The end of a connect that succeeds. -/
theorem resume_succeeded {h : Host} (hp : h.Placed) (hs : h.pc.succeeded = true) (env : Env) :
    (h.resume p env).conn = enterConnected p env.now h.conn ∧ h.pc.waits = true := by
  have hc : h.pc.waits = true → transition p env.now .transportConnected .none h.conn =
      enterConnected p env.now h.conn := by
    intro hw
    simp only [transition, hp.mpr hw]
  unfold Pc.succeeded at hs
  split at hs
  · next hpc =>
    rw [resume_opening hpc, openEnd, if_neg (by simp), hc (by rw [hpc]; rfl), hpc]
    exact ⟨rfl, rfl⟩
  · next hpc =>
    rw [resume_reconnecting hpc, reconnectEnd, if_neg (by simp), hc (by rw [hpc]; rfl), hpc]
    exact ⟨rfl, rfl⟩
  · cases hs

/-- A connect that fails is silent. -/
theorem silent_failed {h : Host} (hw : h.pc.waits = true) (hs : h.pc.succeeded = false) (env : Env) :
    Silent h.conn (h.resume p env).conn := by
  cases hpc : h.pc with
  | opening answer =>
    have ha : answer ≠ .none := by
      rintro rfl
      rw [hpc] at hs
      cases hs
    rw [resume_opening hpc]
    exact (unstamped_openFailed env.now ha h.conn).toSilent
  | reconnecting answer =>
    have ha : answer ≠ .none := by
      rintro rfl
      rw [hpc] at hs
      cases hs
    rw [resume_reconnecting hpc, reconnectEnd, if_pos ha]
    exact (unstamped_reconnectFailed env.now answer h.conn).toSilent
  | idle | draining | handling | liveness =>
    rw [hpc] at hw
    cases hw

/-- **The epoch counts the `Connected` signals**: a step that loses nothing raises it by one at the end of a connect
that succeeds, with one `Connected`, and by nothing elsewhere. -/
theorem announces_step {h : Host} (hs : h.conn.Sound) (hp : h.Placed) (a : Act) (hl : Lossless (h.step p a).conn) :
    ∃ l, (h.step p a).conn.log = h.conn.log ++ l ∧
      (h.step p a).conn.epoch = h.conn.epoch + (emitted l).count .connected ∧
      ((h.step p a).conn.epoch = h.conn.epoch ∨ h.pc.succeeded = true) := by
  have hsil : Silent h.conn (h.step p a).conn → ∃ l, (h.step p a).conn.log = h.conn.log ++ l ∧
      (h.step p a).conn.epoch = h.conn.epoch + (emitted l).count .connected ∧
      ((h.step p a).conn.epoch = h.conn.epoch ∨ h.pc.succeeded = true) := by
    intro hsil
    obtain ⟨l, hlog, hm⟩ := hsil.not_mem (m := .signal .connected) rfl
    exact ⟨l, hlog, by rw [count_emitted hm, hsil.epoch, Nat.add_zero], .inl hsil.epoch⟩
  cases a with
  | resume env =>
    by_cases hpc : h.pc = .liveness
    · have hres := resume_liveness (p := p) (e := env) hpc
      rw [Host.step, hres] at hl ⊢
      have ha : Aside h.conn (if p.livenessEnabled = true then
          enforceLivenessPolicy p env.now env.now' h.conn else h.conn) := by
        split
        · next hen =>
          rw [if_pos hen] at hl
          exact aside_enforceLivenessPolicy hl
        · exact .of_eq rfl rfl rfl
      obtain ⟨l, hm, hlog⟩ := ha.log
      have hno : Mark.signal .connected ∉ l := fun hmem => absurd (hm _ hmem) (by decide)
      exact ⟨l, hlog, by rw [count_emitted hno, Nat.add_zero]; exact ha.epoch, .inl ha.epoch⟩
    · cases hw : h.pc.waits with
      | false => exact hsil (unstamped_resume hs hw hpc env).toSilent
      | true =>
        cases hsucc : h.pc.succeeded with
        | false => exact hsucc ▸ hsil (silent_failed hw hsucc env)
        | true =>
          have hconn : (h.step p (.resume env)).conn = enterConnected p env.now h.conn :=
            (resume_succeeded hp hsucc env).1
          rw [hconn] at hl ⊢
          refine ⟨[.signal .connected], ?_, epoch_enterConnected env.now h.conn, .inr rfl⟩
          change (emit .connected { h.conn with state := .connected }).log = _
          rw [emit_eq .connected (hl.of_log rfl)]
  | «open» | close | send | peekMessage | pollSignal | poll | deliver => exact hsil (silent_call hs (by simp))

theorem follow_session (d : Delivery) (s : Session) : (d.follow s).session = s := by
  unfold follow
  split
  · rfl
  · split <;> rfl

theorem handOver_session (d : Delivery) : d.handOver.session = d.session := by
  unfold handOver
  split <;> rfl

/-- The session takes its own steps; a stray message is none. -/
theorem session_step (d : Delivery) (a : SessionAct) :
    (d.step p q n (.session a)).session = d.session.step p q n a := by
  cases a with
  | turn t => rfl
  | peekMessage found now =>
    cases found with
    | true =>
      change (d.follow _).handOver.session = _
      rw [handOver_session, follow_session]
    | false => exact follow_session d _
  | connect | close | send | poll | resume | next | check | push => exact follow_session d _

/-- A transport is created where there is none. -/
theorem fresh_step {h : Host} (hs : h.conn.Sound) {a : Act} (ha : h.Enabled a) (hf : Fresh h (h.step p a)) :
    h.conn.ws = none ∧ (h.step p a).conn.ws = some ⟨false⟩ := by
  obtain ⟨hw, hw'⟩ := hf
  cases a with
  | «open» url answer =>
    obtain he | ⟨e, he⟩ | ⟨v, -, hst, he⟩ := hs.openBegin_cases (p := p) url answer
    · rw [Host.step, he] at hw'
      cases hw'
    · rw [Host.step, he] at hw'
      cases hw'
    · rw [Host.step, he]
      refine ⟨hs.absent ?_, rfl⟩
      rcases hst with hst | hst <;> rw [hst] <;> rfl
  | resume env =>
    change (h.resume p env).pc.waits = true at hw'
    change _ ∧ (h.resume p env).conn.ws = _
    cases hpc : h.pc with
    | draining =>
      cases hring : h.conn.controlRing with
      | cons ev ring =>
        rw [resume_pop hpc hring] at hw'
        cases hw'
      | nil =>
        by_cases ht : h.conn.state = .waitingReconnect ∧ h.conn.nextRetry ≤ env.now
        · rw [resume_reconnect hpc hring ht, hs.reconnectBegin_eq ht.1]
          exact ⟨hs.absent (by rw [ht.1]; rfl), rfl⟩
        · rw [resume_drained hpc hring ht] at hw'
          cases hw'
    | idle => exact absurd hpc ha
    | opening | reconnecting =>
      rw [hpc] at hw
      cases hw
    | handling ev =>
      rw [resume_handling hpc] at hw'
      cases hw'
    | liveness =>
      rw [resume_liveness hpc] at hw'
      cases hw'
  | poll =>
    have hpc : h.pc = .idle := ha
    simp only [Host.step] at hw'
    split at hw'
    · rw [hpc] at hw'
      cases hw'
    · cases hw'
  | close | send | peekMessage | pollSignal | deliver => exact absurd (hw.symm.trans hw') (by decide)

/-- A connect that is waited for is ended by the next piece. -/
theorem waits_step {h : Host} {a : Act} (ha : h.Enabled a) (hd : ∀ ev, a ≠ .deliver ev) (hw : h.pc.waits = true) :
    (h.step p a).pc.waits = false ∧ ∃ env, a = .resume env := by
  have hidle : h.pc ≠ .idle := by
    intro hpc
    rw [hpc] at hw
    cases hw
  cases a with
  | resume env =>
    refine ⟨?_, env, rfl⟩
    change (h.resume p env).pc.waits = false
    cases hpc : h.pc with
    | opening answer => rw [resume_opening hpc]; rfl
    | reconnecting answer => rw [resume_reconnecting hpc]; rfl
    | idle | draining | handling | liveness =>
      rw [hpc] at hw
      cases hw
  | deliver ev => exact absurd rfl (hd ev)
  | «open» | close | send | peekMessage | pollSignal | poll => exact absurd ha hidle

/-! ## The session follows its connection -/

theorem signalClose_closed (e : Engine) : e.signalClose.closed = e.closed := by
  unfold Engine.signalClose
  split <;> rfl

theorem handleFatalError_closed (err : Error) (e : Engine) : (e.handleFatalError err).closed = e.closed := by
  unfold Engine.handleFatalError
  split
  · exact signalClose_closed _
  · rfl

theorem check_closed (e : Engine) : e.check.closed = e.closed := by
  unfold Engine.check
  split
  · rfl
  · exact signalClose_closed _

theorem update_closed (e : Engine) : e.updateBackpressureState.closed = e.closed := by
  unfold Engine.updateBackpressureState
  split <;> rfl

theorem note_closed (r : Hysteresis × Transition) (e : Engine) :
    (e.noteRing r).closed = e.closed ∧ (e.notePool r).closed = e.closed := by
  unfold Engine.noteRing Engine.notePool
  constructor <;> split <;> first | rfl | exact update_closed _

theorem turn_closed (t : Turn) (e : Engine) : (e.turn q t).closed = e.closed := by
  have hrefuse : ∀ pool, (e.refuse q pool).closed = e.closed := by
    intro pool
    unfold Engine.refuse
    split
    · exact handleFatalError_closed _ e
    · split
      · exact (note_closed _ e).2
      · exact (note_closed _ e).1
  cases t with
  | saturated => exact hrefuse false
  | exhausted => exact hrefuse true
  | received got r =>
    have hgrant : (e.grant q got).closed = e.closed := by
      unfold Engine.grant
      split
      · rfl
      · cases got with
        | slot => exact (note_closed _ e).1
        | block => exact (note_closed _ e).2
        | nothing => rfl
    change ((e.grant q got).receive r).closed = e.closed
    rw [← hgrant]
    unfold Engine.receive
    split
    · exact signalClose_closed _
    · split
      · split <;> exact signalClose_closed _
      · split
        · exact signalClose_closed _
        · rfl

theorem pushed_closed (fits : Bool) (e : Engine) : (e.pushed fits).closed = e.closed := by
  unfold Engine.pushed
  split
  · rfl
  · split
    · rfl
    · split
      · exact handleFatalError_closed _ _
      · rfl

theorem close_closed (e : Engine) : e.close.closed = true := by
  unfold Engine.close
  split
  · assumption
  · rfl

/-- **What a piece of the connection's code does to the invariant.**  The hypotheses are what is known of every such
piece: a transport is created where the thread of the last one has ended, the end of a connect that succeeds raises
the epoch, and each rise of the epoch is a `Connected` that is handled or waits to be. -/
theorem Isolated.follow (h : Isolated d) {s : Session} (hs : s.sys.host.conn.Sound) (hp : s.sys.host.Placed)
    (hen : s.sys.engine = settle d.host s.sys.host d.engine)
    (hfresh : Fresh d.host s.sys.host → s.sys.host.conn.ws = some ⟨false⟩ ∧ ∀ e, d.engine = some e → e.finished = true)
    (hwait : d.host.pc.waits = true → s.sys.host.pc.waits = false)
    (hup : d.host.pc.succeeded = true → s.sys.host.conn.epoch ≠ d.host.conn.epoch)
    (hepoch : s.sys.host.conn.epoch = d.host.conn.epoch ∨
      d.host.pc.waits = true ∧ s.sys.host.conn.epoch = d.host.conn.epoch + 1)
    (hled : s.observed.count .connected + s.sys.host.conn.signals.count .connected + d.host.conn.epoch =
      d.handled + d.host.conn.signals.count .connected + s.sys.host.conn.epoch)
    (hcalm : s.phase ≠ .idle → s.phase ≠ .polling → s.sys.host.pc = .idle)
    (hdr : s.phase = .messages → s.sys.host.conn.signals = []) : Isolated (d.follow s) := by
  have hep := h.epoch
  have hle := h.ledger
  by_cases hf : d.host.pc.waits = false ∧ s.sys.host.pc.waits = true
  · -- a transport is created
    obtain ⟨hws, hfin⟩ := hfresh hf
    have hsame : s.sys.host.conn.epoch = d.host.conn.epoch :=
      hepoch.resolve_right fun hw => absurd (hf.1.symm.trans hw.1) (by decide)
    have hset : s.sys.engine = if s.sys.host.pc.succeeded then some {} else none := by
      rw [hen, settle, if_pos hf]
    unfold Delivery.follow
    rw [if_pos hf]
    refine ⟨hs, hp, ?_, fun hne => absurd hws hne, by simp, ?_, by rw [← hep]; exact hsame, ?_, ?_, h.sorted, hcalm, hdr,
      h.right⟩
    · intro x hx
      rcases List.mem_append.mp hx with hx | hx
      · exact h.joined x hx
      · obtain ⟨e, he, rfl⟩ := List.mem_map.mp hx
        exact hfin e (Option.mem_toList.mp he)
    · rintro (hne | hne)
      · left
        change s.sys.engine ≠ none at hne
        change s.sys.host.pc.succeeded = true
        by_contra hno
        rw [hset, if_neg hno] at hne
        exact hne rfl
      · exact absurd rfl hne
    · change s.observed.count .connected + s.sys.host.conn.signals.count .connected = d.established.length
      omega
    · intro k hk
      have := (h.older k hk).1
      exact ⟨by change k ≤ d.created + 1; omega, fun _ => by change k < d.created + 1; omega⟩
  · have hf' : ¬ Fresh d.host s.sys.host := hf
    have hkept : s.sys.engine = d.engine ∨ s.sys.engine = d.engine.map Engine.close := by
      rw [hen]
      exact settle_kept hf' d.engine
    have hclosed : s.sys.host.conn.ws ≠ some ⟨false⟩ → ∀ e, s.sys.engine = some e → e.closed = true := by
      intro hne e he
      rw [hen, settle, if_neg hf, if_neg hne] at he
      obtain ⟨e', -, rfl⟩ := Option.map_eq_some_iff.mp he
      exact close_closed e'
    have hsource : s.sys.engine ≠ none ∨ d.ring ≠ [] →
        d.host.pc.succeeded = true ∨ d.established.getLast? = some d.created := by
      intro hne
      refine h.source (hne.imp (fun hne he => hne ?_) id)
      rcases hkept with hk | hk <;> rw [hk, he]
      rfl
    have hnw : s.sys.host.pc.waits = true → False := by
      intro hw
      cases hw' : d.host.pc.waits with
      | false => exact hf ⟨hw', hw⟩
      | true => exact absurd ((hwait hw').symm.trans hw) (by decide)
    unfold Delivery.follow
    rw [if_neg hf]
    by_cases hsame : s.sys.host.conn.epoch = d.host.conn.epoch
    · rw [if_pos hsame]
      refine ⟨hs, hp, h.joined, hclosed, h.tags, fun hne => ?_, hsame.trans hep, ?_, ?_, h.sorted, hcalm, hdr, h.right⟩
      · exact .inr ((hsource hne).resolve_left fun hsucc => hup hsucc hsame)
      · change s.observed.count .connected + s.sys.host.conn.signals.count .connected = d.established.length
        omega
      · exact fun k hk => ⟨(h.older k hk).1, fun hw => (hnw hw).elim⟩
    · rw [if_neg hsame]
      obtain ⟨hw, hsucc⟩ := hepoch.resolve_left hsame
      have hlen : (d.established ++ [d.created]).length = d.established.length + 1 := by simp
      refine ⟨hs, hp, h.joined, hclosed, h.tags, fun _ => .inr (by simp), ?_, ?_, ?_, ?_, hcalm, hdr, ?_⟩
      · change s.sys.host.conn.epoch = _
        rw [hlen, hsucc, hep]
      · change s.observed.count .connected + s.sys.host.conn.signals.count .connected = _
        rw [hlen]
        omega
      · intro k hk
        refine ⟨?_, fun hw' => (hnw hw').elim⟩
        rcases List.mem_append.mp hk with hk | hk
        · exact (h.older k hk).1
        · exact Nat.le_of_eq (List.mem_singleton.mp hk)
      · refine List.pairwise_append.mpr ⟨h.sorted, by simp, fun k hk k' hk' => ?_⟩
        rw [List.mem_singleton.mp hk']
        exact (h.older k hk).2 hw
      · exact fun x hx => ⟨(h.right x hx).1, getElem?_append_of_some (h.right x hx).2 _⟩

/-- A call on the connection, or a piece of one. -/
theorem Isolated.call (h : Isolated d) {a : Act} {s : Session} (hsys : s.sys = d.session.sys.step p q (.host a))
    (hd : ∀ ev, a ≠ .deliver ev) (ha : d.session.sys.Enabled (.host a)) (hl : Lossless s.sys.host.conn)
    (hled : ∀ l, s.sys.host.conn.log = d.host.conn.log ++ l →
      s.observed ++ s.sys.host.conn.signals = d.session.observed ++ d.host.conn.signals ++ emitted l)
    (hcalm : s.phase ≠ .idle → s.phase ≠ .polling → s.sys.host.pc = .idle)
    (hdr : s.phase = .messages → s.sys.host.conn.signals = []) : Isolated (d.follow s) := by
  have hhost : s.sys.host = d.host.step p a := by
    rw [hsys]
    rfl
  have hena : d.host.Enabled a := Session.enabled_host hd ha
  have hjoin : ¬ d.session.sys.Joining := by
    cases a <;> first | exact ha.2 | exact absurd rfl (hd _)
  rw [hhost] at hl hled hcalm hdr
  obtain ⟨l, hlog, hep, hsucc⟩ := announces_step h.sound h.placed a hl
  have hle := hled l hlog
  have hcount := congrArg (List.count Signal.connected) hle
  simp only [List.count_append] at hcount
  refine h.follow ?_ ?_ ?_ ?_ ?_ ?_ ?_ ?_ ?_ ?_
  · rw [hhost]
    exact sound_step h.sound a
  · rw [hhost]
    exact placed_step h.sound h.placed hena
  · rw [hsys]
    rfl
  · rw [hhost]
    intro hf
    obtain ⟨hw, hw'⟩ := fresh_step h.sound hena hf
    refine ⟨hw', fun e he => ?_⟩
    have hcl := h.closed (by rw [hw]; simp) e he
    by_contra hfin
    exact hjoin ⟨e, he, hcl, by simpa using hfin⟩
  · rw [hhost]
    exact fun hw => (waits_step hena hd hw).1
  · rw [hhost]
    intro hs
    have hw : d.host.pc.waits = true := (resume_succeeded (p := p) h.placed hs ⟨0, 0, .none⟩).2
    obtain ⟨-, env, rfl⟩ := waits_step (p := p) hena hd hw
    have hconn : (d.host.step p (.resume env)).conn = enterConnected p env.now d.host.conn :=
      (resume_succeeded h.placed hs env).1
    rw [hconn, epoch_enterConnected]
    omega
  · rw [hhost]
    rcases hsucc with hs | hs
    · exact .inl hs
    · have hw : d.host.pc.waits = true := (resume_succeeded (p := p) h.placed hs ⟨0, 0, .none⟩).2
      obtain ⟨-, env, rfl⟩ := waits_step (p := p) hena hd hw
      have hconn : (d.host.step p (.resume env)).conn = enterConnected p env.now d.host.conn :=
        (resume_succeeded h.placed hs env).1
      exact .inr ⟨hw, by rw [hconn, epoch_enterConnected]⟩
  · rw [hhost]
    unfold handled
    omega
  · rw [hhost]
    exact hcalm
  · rw [hhost]
    exact hdr

/-- The connection stays as it is, but for its control ring: the poll goes on to its next phase, or the engine's thread
takes a step and perhaps leaves a message. -/
theorem Isolated.aside (h : Isolated d) {s : Session} {evs : List Websocket.Event} {ring : List ℕ}
    (hhost : s.sys.host = ⟨{ d.host.conn with controlRing := evs }, d.host.pc⟩)
    (hen : ∀ e', s.sys.engine = some e' → ∃ e, d.engine = some e ∧ (e.closed = true → e'.closed = true))
    (hobs : s.observed = d.session.observed) (hcalm : s.phase ≠ .idle → s.phase ≠ .polling → d.host.pc = .idle)
    (hdr : s.phase = .messages → d.host.conn.signals = []) (htags : ∀ k ∈ ring, k = d.created)
    (hring : ring ≠ [] → d.engine ≠ none ∨ d.ring ≠ []) : Isolated { d with session := s, ring := ring } := by
  have hsome : s.sys.engine ≠ none → d.engine ≠ none := by
    intro hne
    obtain ⟨e', he'⟩ := Option.ne_none_iff_exists'.mp hne
    obtain ⟨e, he, -⟩ := hen e' he'
    rw [he]
    simp
  have hc : s.sys.host.conn = { d.host.conn with controlRing := evs } := congrArg Host.conn hhost
  have hpc : s.sys.host.pc = d.host.pc := by rw [hhost]
  constructor
  · change s.sys.host.conn.Sound
    rw [hc]
    exact ⟨h.sound.ws, h.sound.url, h.sound.faults⟩
  · change s.sys.host.conn.state = .connecting ↔ s.sys.host.pc.waits = true
    rw [hc, hpc]
    exact h.placed
  · exact h.joined
  · intro hne e' he'
    change s.sys.host.conn.ws ≠ _ at hne
    rw [hc] at hne
    obtain ⟨e, he, hcl⟩ := hen e' he'
    exact hcl (h.closed hne e he)
  · exact htags
  · intro hne
    change s.sys.host.pc.succeeded = true ∨ _
    rw [hpc]
    exact h.source (hne.elim (fun hn => .inl (hsome hn)) hring)
  · change s.sys.host.conn.epoch = _
    rw [hc]
    exact h.epoch
  · change s.observed.count .connected + s.sys.host.conn.signals.count .connected = _
    rw [hobs, hc]
    exact h.ledger
  · change ∀ k ∈ d.established, k ≤ d.created ∧ (s.sys.host.pc.waits = true → k < d.created)
    rw [hpc]
    exact h.older
  · exact h.sorted
  · change s.phase ≠ _ → s.phase ≠ _ → s.sys.host.pc = _
    rw [hpc]
    exact hcalm
  · change s.phase = _ → s.sys.host.conn.signals = _
    rw [hc]
    exact hdr
  · exact h.right

/-- Only the phase of the poll changes. -/
theorem Isolated.phase (h : Isolated d) {s : Session} (hsys : s.sys = d.session.sys)
    (hobs : s.observed = d.session.observed) (hpc : d.host.pc = .idle)
    (hdr : s.phase = .messages → d.host.conn.signals = []) : Isolated (d.follow s) := by
  have hhost : s.sys.host = d.host := congrArg Sys.host hsys
  have hf : ¬ (d.host.pc.waits = false ∧ s.sys.host.pc.waits = true) := by
    rw [hhost]
    exact fun hf => absurd (hf.1.symm.trans hf.2) (by decide)
  unfold Delivery.follow
  rw [if_neg hf, if_pos (by rw [hhost])]
  refine h.aside hhost (fun e' he' => ⟨e', ?_, id⟩) hobs (fun _ _ => hpc) hdr h.tags .inr
  rw [hsys] at he'
  exact he'

/-! ## Every step -/

theorem log_same {a : Act} {h : Host} (ha : a = .close ∨ (∃ b m, a = .send b m) ∨ ∃ b m, a = .peekMessage b m) :
    (h.step p a).conn.log = h.conn.log ∧ (h.step p a).pc = h.pc := by
  rcases ha with rfl | ⟨b, m, rfl⟩ | ⟨b, m, rfl⟩
  · exact ⟨(close_history _).1, rfl⟩
  · obtain ⟨_, _, _, he⟩ := send_eq b m h.conn
    rw [Host.step, he]
    exact ⟨rfl, rfl⟩
  · obtain ⟨_, _, he⟩ := peekMessage_eq b m h.conn
    rw [Host.step, he]
    exact ⟨rfl, rfl⟩

/-- What a piece of code other than `poll_signal` emits is appended to the signals. -/
theorem ledger_grows (h : Isolated d) (a : Act) (ha : a ≠ .pollSignal) {s : Session}
    (hhost : s.sys.host = d.host.step p a) (hobs : s.observed = d.session.observed) (l : List Mark)
    (hlog : s.sys.host.conn.log = d.host.conn.log ++ l) :
    s.observed ++ s.sys.host.conn.signals = d.session.observed ++ d.host.conn.signals ++ emitted l := by
  obtain ⟨l', hl', hs⟩ := grows_step (p := p) h.sound ha
  rw [hhost] at hlog ⊢
  obtain rfl : l' = l := List.append_cancel_left (hl'.symm.trans hlog)
  rw [hobs, hs, List.append_assoc]

/-- The calls that emit nothing and may come from within a poll. -/
theorem Isolated.plain (h : Isolated d) {a : Act}
    (ha : a = .close ∨ (∃ b m, a = .send b m) ∨ ∃ b m, a = .peekMessage b m)
    (hen : d.session.sys.Enabled (.host a)) {s : Session} (hsys : s.sys = d.session.sys.step p q (.host a))
    (hl : Lossless s.sys.host.conn) (hobs : s.observed = d.session.observed)
    (hph : s.phase = d.session.phase ∨ s.phase = .idle) : Isolated (d.follow s) := by
  have hd : ∀ ev, a ≠ .deliver ev := by
    rcases ha with rfl | ⟨b, m, rfl⟩ | ⟨b, m, rfl⟩ <;> simp
  have hps : a ≠ .pollSignal := by
    rcases ha with rfl | ⟨b, m, rfl⟩ | ⟨b, m, rfl⟩ <;> simp
  have hhost : s.sys.host = d.host.step p a := by
    rw [hsys]
    rfl
  obtain ⟨hlog, hpc⟩ := log_same (p := p) (h := d.host) ha
  have hled := ledger_grows h a hps hhost hobs
  refine h.call hsys hd hen hl hled ?_ ?_
  · intro h1 h2
    rw [hhost, hpc]
    rcases hph with hph | hph
    · exact h.calm (hph ▸ h1) (hph ▸ h2)
    · exact absurd hph h1
  · intro h1
    have hsig := hled [] (by rw [hhost, hlog, List.append_nil])
    rw [hobs, List.append_assoc] at hsig
    have hsig' := List.append_cancel_left hsig
    rcases hph with hph | hph
    · rw [hsig', h.drained (hph ▸ h1)]
      rfl
    · exact absurd (hph.symm.trans h1) (by decide)

theorem Isolated.next (h : Isolated d) (hen : d.session.Enabled .next)
    (hl : Lossless (d.session.next p q n).sys.host.conn) : Isolated (d.follow (d.session.next p q n)) := by
  obtain ⟨hph, hpoll⟩ := hen
  have hpc : d.host.pc = .idle := hpoll.1
  unfold Session.next at hl ⊢
  cases hphase : d.session.phase with
  | idle => exact absurd hphase hph
  | polling => exact h.phase rfl rfl hpc (by rintro ⟨⟩)
  | signals =>
    rw [hphase] at hl
    cases hsig : d.session.sys.host.conn.signals with
    | nil => exact h.phase rfl rfl hpc fun _ => hsig
    | cons sig rest =>
      simp only [hsig] at hl ⊢
      refine h.call (q := q) rfl (by simp) hpoll hl ?_ (fun _ _ => hpc) fun hm => ?_
      · intro l hlog
        have hlog' : d.host.conn.log ++ [] = d.host.conn.log ++ l := by
          rw [List.append_nil]
          exact hlog
        rw [← List.append_cancel_left hlog']
        change (d.session.observed ++ [sig]) ++ d.host.conn.signals.tail = _ ++ d.host.conn.signals ++ []
        rw [show d.host.conn.signals = sig :: rest from hsig]
        simp
      · exact absurd (hphase.symm.trans hm) (by decide)
  | messages => exact h.phase rfl rfl hpc (by rintro ⟨⟩)
  | enforcing =>
    rw [hphase] at hl
    simp only [Session.enforceBackpressurePolicy] at hl ⊢
    split at hl
    · next hesc =>
      rw [if_pos hesc]
      exact h.plain (q := q) (.inl rfl) ⟨hpc, hpoll.2⟩ rfl hl rfl (.inr rfl)
    · next hesc =>
      rw [if_neg hesc]
      exact h.phase rfl rfl hpc (by rintro ⟨⟩)

/-- The handler is given a message of the latest connection. -/
theorem Isolated.handOver (h : Isolated d) (hph : d.session.phase = .messages) : Isolated d.handOver := by
  unfold Delivery.handOver
  split
  · exact h
  · next k rest hring =>
    have hsig := h.drained hph
    have hpc := h.calm (by rw [hph]; decide) (by rw [hph]; decide)
    have hlast : d.established.getLast? = some d.created := by
      refine (h.source (.inr (by rw [hring]; simp))).resolve_left fun hs => ?_
      rw [hpc] at hs
      cases hs
    have hk : k = d.created := h.tags k (by rw [hring]; simp)
    have hhand : d.handled = d.established.length := by
      have := h.ledger
      rw [hsig] at this
      exact this
    refine { h with tags := ?_, source := ?_, right := ?_ }
    · exact fun k' hk' => h.tags k' (by rw [hring]; exact List.mem_cons_of_mem _ hk')
    · exact fun _ => .inr hlast
    · intro x hx
      rcases List.mem_append.mp hx with hx | hx
      · exact h.right x hx
      · rw [List.mem_singleton.mp hx, hhand, hk, ← List.getLast?_eq_getElem?]
        refine ⟨List.length_pos_iff.mpr ?_, hlast⟩
        rintro hnil
        rw [hnil] at hlast
        cases hlast

/-- The engine's thread, or its push into the control ring. -/
theorem Isolated.engine (h : Isolated d) {a : SysAct} (ha : a = .check ∨ (∃ t, a = .turn t) ∨ a = .push)
    {ring : List ℕ} (htags : ∀ k ∈ ring, k = d.created) (hring : ring ≠ [] → d.engine ≠ none ∨ d.ring ≠ []) :
    Isolated { d with session := Session.lift p q a d.session, ring := ring } := by
  have hmap : ∀ f : Engine → Engine, (∀ e, (f e).closed = e.closed) → ∀ e', d.engine.map f = some e' →
      ∃ e, d.engine = some e ∧ (e.closed = true → e'.closed = true) := by
    intro f hf e' he'
    obtain ⟨e, he, rfl⟩ := Option.map_eq_some_iff.mp he'
    exact ⟨e, he, fun hc => (hf e).trans hc⟩
  rcases ha with rfl | ⟨t, rfl⟩ | rfl
  · exact h.aside rfl (hmap _ check_closed) rfl h.calm h.drained htags hring
  · exact h.aside rfl (hmap _ (turn_closed t)) rfl h.calm h.drained htags hring
  · unfold Session.lift Sys.step
    simp only
    split
    · exact h.aside rfl (fun e' he' => ⟨e', he', id⟩) rfl h.calm h.drained htags hring
    · next ev _ =>
      obtain ⟨evs, hev⟩ := deliver_eq ev d.session.sys.host.conn
      have hhost : d.session.sys.host.step p (.deliver ev) = ⟨{ d.host.conn with controlRing := evs }, d.host.pc⟩ := by
        rw [Host.step, hev]
        rfl
      exact h.aside hhost (hmap _ (pushed_closed _)) rfl h.calm h.drained htags hring

theorem isolated_session (h : Isolated d) {a : SessionAct} (hturn : ∀ t, a ≠ .turn t)
    (ha : d.session.Enabled a) (hl : Lossless (d.session.step p q n a).sys.host.conn) :
    Isolated (d.follow (d.session.step p q n a)) := by
  have hquiet : ∀ b, (b = .check ∨ b = .push) → d.follow (Session.lift p q b d.session) =
      { d with session := Session.lift p q b d.session, ring := d.ring } := by
    intro b hb
    have hsame : (Session.lift p q b d.session).sys.host.pc = d.host.pc ∧
        (Session.lift p q b d.session).sys.host.conn.epoch = d.host.conn.epoch := by
      rcases hb with rfl | rfl
      · exact ⟨rfl, rfl⟩
      · unfold Session.lift Sys.step
        simp only
        split
        · exact ⟨rfl, rfl⟩
        · next ev _ =>
          obtain ⟨evs, hev⟩ := deliver_eq ev d.session.sys.host.conn
          rw [Host.step, hev]
          exact ⟨rfl, rfl⟩
    unfold Delivery.follow
    rw [if_neg (by rw [hsame.1]; exact fun hf => absurd (hf.1.symm.trans hf.2) (by decide)), if_pos hsame.2]
  cases a with
  | connect url answer =>
    obtain ⟨hph, hen⟩ := ha
    exact h.call (q := q) rfl (by simp) hen hl (ledger_grows h (.open url answer) (by simp) rfl rfl)
      (fun h1 => absurd hph h1)
      fun h1 => absurd (hph.symm.trans h1) (by decide)
  | close => exact h.plain (q := q) (.inl rfl) ha rfl hl rfl (.inl rfl)
  | send accepted now => exact h.plain (q := q) (.inr (.inl ⟨_, _, rfl⟩)) ha rfl hl rfl (.inl rfl)
  | peekMessage found now => exact h.plain (q := q) (.inr (.inr ⟨_, _, rfl⟩)) ha rfl hl rfl (.inl rfl)
  | poll =>
    exact h.call (q := q) rfl (by simp) ha.2 hl (ledger_grows (p := p) h .poll (by simp) rfl rfl)
      (fun _ h2 => absurd rfl h2) (by rintro ⟨⟩)
  | resume env =>
    have hpc : d.host.pc ≠ .idle := ha.1
    refine h.call (q := q) rfl (by simp) ha hl (ledger_grows h (.resume env) (by simp) rfl rfl)
      (fun h1 h2 => absurd (h.calm h1 h2) hpc) fun hm => ?_
    have hph : d.session.phase = .messages := hm
    exact absurd (h.calm (by rw [hph]; decide) (by rw [hph]; decide)) hpc
  | next => exact h.next ha hl
  | check =>
    change Isolated (d.follow (Session.lift p q .check d.session))
    rw [hquiet .check (.inl rfl)]
    exact h.engine (.inl rfl) h.tags .inr
  | push =>
    change Isolated (d.follow (Session.lift p q .push d.session))
    rw [hquiet .push (.inr rfl)]
    exact h.engine (.inr (.inr rfl)) h.tags .inr
  | turn t => exact absurd rfl (hturn t)

/-- **Every step that loses no signal keeps the connections apart.** -/
theorem isolated_step (h : Isolated d) {a : DeliveryAct} (hstep : Step p q n d a u)
    (hl : Lossless u.host.conn) : Isolated u := by
  obtain ⟨ha, rfl⟩ := hstep
  cases a with
  | stray k =>
    obtain ⟨x, hx, -, hfin⟩ := ha
    exact absurd ((h.joined x hx).symm.trans hfin) (by decide)
  | session a =>
    have hl' : Lossless (d.session.step p q n a).sys.host.conn := by
      rw [← session_step d a]
      exact hl
    cases a with
    | turn t =>
      have hsome : d.engine ≠ none := by
        intro hne
        have hready : d.session.sys.engine.any _ = true := ha
        rw [show d.session.sys.engine = none from hne] at hready
        cases hready
      refine h.engine (.inr (.inl ⟨t, rfl⟩)) ?_ fun _ => .inl hsome
      intro k hk
      split at hk
      · rcases List.mem_append.mp hk with hk | hk
        · exact h.tags k hk
        · exact List.mem_singleton.mp hk
      · exact h.tags k hk
    | peekMessage found now =>
      obtain ⟨hen, hph, -⟩ := ha
      cases found with
      | false => exact isolated_session h (by simp) hen hl'
      | true =>
        refine (isolated_session h (by simp) hen hl').handOver ?_
        rw [follow_session]
        exact hph
    | connect | close | send | poll | resume | next | check | push => exact isolated_session h (by simp) ha hl'

theorem isolated_new : Isolated {} := by
  refine ⟨sound_new, placed_new, by simp, fun _ _ he => (by cases he), by simp, ?_, rfl, rfl, by simp, by simp,
    fun hne => absurd rfl hne, by rintro ⟨⟩, by simp⟩
  rintro (hne | hne) <;> exact absurd rfl hne

/-- **Epoch isolation**, in every run in which the signal ring has dropped nothing: what the message handler was given
when the session had handled `n` `Connected` signals had been received by the transport of the `n`-th connection, and
every connection has a transport of its own. -/
theorem epoch_isolated (p : Policy) (q : Pressure) (n : ℕ) {as : List DeliveryAct}
    (hr : Run (Step p q n) (fun _ _ => True) {} as d) (hl : ∀ sig, Mark.lost sig ∉ d.host.conn.log) :
    (∀ x ∈ d.delivered, 0 < x.1 ∧ d.established[x.1 - 1]? = some x.2) ∧ d.established.Pairwise (· < ·) := by
  have hinv : d.host.conn.Sound ∧ (Lossless d.host.conn → Isolated d) := by
    refine hr.invariant (I := fun d => d.host.conn.Sound ∧ (Lossless d.host.conn → Isolated d))
      ⟨sound_new, fun _ => isolated_new⟩ ?_
    rintro d a u ⟨hs, hi⟩ - hstep
    have hhost : u.host = d.host ∨ ∃ b, u.host = d.host.step p b := by
      obtain ⟨-, rfl⟩ := hstep
      cases a with
      | stray k => exact .inl rfl
      | session a =>
        unfold host
        rw [session_step]
        exact Session.host_step d.session a
    rcases hhost with he | ⟨b, he⟩
    · exact ⟨he ▸ hs, fun hu => isolated_step (hi (he ▸ hu)) hstep hu⟩
    · refine ⟨he ▸ sound_step hs b, fun hu => isolated_step (hi ?_) hstep hu⟩
      obtain ⟨l, hlog⟩ := log_step (p := p) hs b
      rw [he] at hu
      exact hu.of_append hlog.symm
  have h := hinv.2 hl
  exact ⟨h.right, h.sorted⟩

/-! ## A run across a reconnect -/

instance (d : Delivery) (a : DeliveryAct) : Decidable (d.Enabled a) :=
  match a with
  | .session (.peekMessage found now) => inferInstanceAs (Decidable (d.session.Enabled (.peekMessage found now) ∧
      d.session.phase = .messages ∧ (found = true ↔ d.ring ≠ [])))
  | .session (.connect url answer) => inferInstanceAs (Decidable (d.session.Enabled (.connect url answer)))
  | .session .close => inferInstanceAs (Decidable (d.session.Enabled .close))
  | .session (.send accepted now) => inferInstanceAs (Decidable (d.session.Enabled (.send accepted now)))
  | .session .poll => inferInstanceAs (Decidable (d.session.Enabled .poll))
  | .session (.resume env) => inferInstanceAs (Decidable (d.session.Enabled (.resume env)))
  | .session .next => inferInstanceAs (Decidable (d.session.Enabled .next))
  | .session .check => inferInstanceAs (Decidable (d.session.Enabled .check))
  | .session (.turn t) => inferInstanceAs (Decidable (d.session.Enabled (.turn t)))
  | .session .push => inferInstanceAs (Decidable (d.session.Enabled .push))
  | .stray k => inferInstanceAs (Decidable (∃ x ∈ d.retired, x.1 = k ∧ x.2.finished = false))

theorem run_steps (as : List DeliveryAct) (h : Admitted (step p q n) (fun d a => d.Enabled a ∧ True) {} as) :
    Run (Step p q n) (fun _ _ => True) {} as (as.foldl (step p q n) {}) := by
  have hr : Run (Step p q n) (fun d a => d.Enabled a ∧ True) {} as (as.foldl (step p q n) {}) :=
    Run.of_admitted (fun _ _ ha => ⟨ha.1, rfl⟩) h
  exact hr.mono fun _ _ _ => trivial

/-- A message is received. -/
def arrival : List SessionAct :=
  [.check, .turn (.received .slot ⟨.ok, [0], .message, .none⟩)]

/-- A poll of `k` pieces that finds `m` signals and hands over one message. -/
def pollOnce (k m : ℕ) : List SessionAct :=
  ([.poll] : List SessionAct) ++ (List.replicate k (.resume Session.later) : List SessionAct) ++
    (List.replicate (m + 2) .next : List SessionAct) ++ ([.peekMessage true 1, .next, .next] : List SessionAct)

/-- Connected, a message read and another one left behind; the peer closes, and the poll that finds this connects again
and reads the first message of the new connection. -/
def acrossReconnect : List SessionAct :=
  ([.connect "ws://a".toList .none, .resume Session.later] : List SessionAct) ++ arrival ++ arrival ++ pollOnce 2 1 ++
    ([.check, .turn (.received .slot ⟨.ok, [], .close, .remoteClosed⟩), .push, .push] : List SessionAct) ++
    ([.poll] : List SessionAct) ++ (List.replicate 7 (.resume Session.later) : List SessionAct) ++ arrival ++
    (List.replicate 5 .next : List SessionAct) ++ ([.peekMessage true 1, .next, .next] : List SessionAct)

theorem epoch_isolated_reconnected :
    ((acrossReconnect.map .session).foldl (step defaultPolicy custom 8) {}).delivered = [(1, 1), (2, 2)] ∧
    ∀ x ∈ ((acrossReconnect.map .session).foldl (step defaultPolicy custom 8) {}).delivered, 0 < x.1 ∧
      ((acrossReconnect.map .session).foldl (step defaultPolicy custom 8) {}).established[x.1 - 1]? = some x.2 :=
  ⟨by decide +kernel, (epoch_isolated defaultPolicy custom 8 (run_steps (acrossReconnect.map .session) (by
    decide +kernel)) (by
      intro sig
      cases sig <;> decide +kernel)).1⟩

end Delivery

end Wirekrak.Transport

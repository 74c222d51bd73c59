import Wirekrak.Transport.Flow

/-!
# Wirekrak.Transport.Backpressure — the session's view of the transport's backpressure

A session polls its connection, drains the signals, reads messages and then enforces its backpressure policy; the
engine's thread runs all the while.  Between the engine's flag and the session's own stand two bounded rings.  The
engine drops a `BackpressureCleared` that meets a full control ring, and the connection drops a signal that meets a
full signal ring and closes itself.

* `Session.step`: the calls and polls of a session, cut where another thread can run.
* `Good`: what was told alternates in each connection, and the session's flag, once it has seen what is waiting for
  it, is raised only if the account of the current connection is odd.
* `backpressure_view_agrees`: what follows in every run in which neither ring drops anything.
-/

namespace Wirekrak.Transport

open Wirekrak.Lib

/-- The flag changes with every frame it is set; `consecutive` counts the frames, in 32 bits. -/
structure ConsecutiveStateCounter where
  active : Bool := false
  consecutive : ℕ := 0
  deriving DecidableEq, Repr

namespace ConsecutiveStateCounter

def setActive (value : Bool) (c : ConsecutiveStateCounter) : ConsecutiveStateCounter :=
  { c with active := value }

def nextFrame (c : ConsecutiveStateCounter) : ConsecutiveStateCounter :=
  { c with consecutive := if c.active then (c.consecutive + 1) % 2 ^ 32 else 0 }

def reset (_ : ConsecutiveStateCounter) : ConsecutiveStateCounter :=
  {}

end ConsecutiveStateCounter

/-- Where the session's `poll` stands. -/
inductive Phase
  | idle
  | polling
  | signals
  | messages
  | enforcing
  deriving DecidableEq, Repr

/-- `observed` is the history of the signals that the session has popped. -/
structure Session where
  sys : Sys := {}
  phase : Phase := .idle
  overload : ConsecutiveStateCounter := {}
  observed : List Signal := []
  deriving DecidableEq

/-- The calls on a session, the pieces of its `poll`, and the engine's thread. -/
inductive SessionAct
  | connect (url : List Char) (answer : Error)
  | close
  | send (accepted : Bool) (now : ℕ)
  | peekMessage (found : Bool) (now : ℕ)
  | poll
  | resume (env : Env)
  | next
  | check
  | turn (t : Turn)
  | push
  deriving DecidableEq

/-- `handle_connection_signal_`, as far as the overload state goes. -/
def handleConnectionSignal (sig : Signal) (o : ConsecutiveStateCounter) : ConsecutiveStateCounter :=
  match sig with
  | .disconnected => o.reset
  | .backpressureDetected => o.setActive true
  | .backpressureCleared => o.setActive false
  | _ => o

namespace Session

/-- A step of the connection or of the engine. -/
def lift (p : Policy) (q : Pressure) (a : SysAct) (s : Session) : Session :=
  { s with sys := s.sys.step p q a }

/-- `enforce_backpressure_policy_`, at the end of a poll. -/
def enforceBackpressurePolicy (p : Policy) (q : Pressure) (threshold : ℕ) (s : Session) : Session :=
  let o := s.overload.nextFrame
  if o.active = true ∧ q.zeroTolerance = false ∧ threshold ≤ o.consecutive then
    { lift p q (.host .close) s with overload := o.reset, phase := .idle }
  else { s with overload := o, phase := .idle }

/-- The next piece of `poll` once the connection's own poll has returned. -/
def next (p : Policy) (q : Pressure) (threshold : ℕ) (s : Session) : Session :=
  match s.phase with
  | .idle => s
  | .polling => { s with phase := .signals }
  | .signals =>
    match s.sys.host.conn.signals with
    | [] => { s with phase := .messages }
    | sig :: _ =>
      { lift p q (.host .pollSignal) s with
        overload := handleConnectionSignal sig s.overload, observed := s.observed ++ [sig] }
  | .messages => { s with phase := .enforcing }
  | .enforcing => enforceBackpressurePolicy p q threshold s

def step (p : Policy) (q : Pressure) (threshold : ℕ) (s : Session) : SessionAct → Session
  | .connect url answer => lift p q (.host (.open url answer)) s
  | .close => lift p q (.host .close) s
  | .send accepted now => lift p q (.host (.send accepted now)) s
  | .peekMessage found now => lift p q (.host (.peekMessage found now)) s
  | .poll => { lift p q (.host .poll) s with phase := .polling }
  | .resume env => lift p q (.host (.resume env)) s
  | .next => next p q threshold s
  | .check => lift p q .check s
  | .turn t => lift p q (.turn t) s
  | .push => lift p q .push s

/-- `connect` and `poll` are called between two polls; the other calls may also come from within one. -/
def Enabled (s : Session) : SessionAct → Prop
  | .connect url answer => s.phase = .idle ∧ s.sys.Enabled (.host (.open url answer))
  | .close => s.sys.Enabled (.host .close)
  | .send accepted now => s.sys.Enabled (.host (.send accepted now))
  | .peekMessage found now => s.sys.Enabled (.host (.peekMessage found now))
  | .poll => s.phase = .idle ∧ s.sys.Enabled (.host .poll)
  | .resume env => s.sys.Enabled (.host (.resume env))
  | .next => s.phase ≠ .idle ∧ s.sys.Enabled (.host .pollSignal)
  | .check => s.sys.Enabled .check
  | .turn t => s.sys.Enabled (.turn t)
  | .push => s.sys.Enabled .push

instance (s : Session) (a : SessionAct) : Decidable (s.Enabled a) := by
  cases a <;> unfold Enabled <;> infer_instance

def Step (p : Policy) (q : Pressure) (threshold : ℕ) (s : Session) (a : SessionAct) (s' : Session) : Prop :=
  s.Enabled a ∧ s.step p q threshold a = s'

/-- No `BackpressureCleared` is pushed into a full control ring. -/
def Unclogged (s : Session) (a : SessionAct) : Prop :=
  a = .push → s.sys.Unclogged .push

instance (s : Session) (a : SessionAct) : Decidable (s.Unclogged a) :=
  inferInstanceAs (Decidable (_ → _))

end Session

/-! ## The flag and the signals that are waiting -/

/-- What a signal does to the session's flag. -/
def sway (b : Bool) : Signal → Bool
  | .backpressureDetected => true
  | .backpressureCleared => false
  | .disconnected => false
  | _ => b

/-- Signals that leave the flag as it is. -/
def Signal.still : Signal → Bool
  | .backpressureDetected | .backpressureCleared | .disconnected => false
  | _ => true

theorem handleConnectionSignal_active (sig : Signal) (o : ConsecutiveStateCounter) :
    (handleConnectionSignal sig o).active = sway o.active sig := by
  cases sig <;> rfl

theorem sway_still {l : List Signal} (h : ∀ sig ∈ l, sig.still = true) (b : Bool) : l.foldl sway b = b := by
  induction l generalizing b with
  | nil => rfl
  | cons sig l ih =>
    have hs := h sig List.mem_cons_self
    rw [List.foldl_cons, ih fun x hx => h x (List.mem_cons_of_mem _ hx)]
    cases sig <;> first | rfl | cases hs

/-- A raised flag is not lowered where a lowered one is raised. -/
theorem sway_mono (l : List Signal) {b c : Bool} (hb : b = true → c = true) (h : l.foldl sway b = true) :
    l.foldl sway c = true := by
  induction l generalizing b c with
  | nil => exact hb h
  | cons sig l ih =>
    refine ih (b := sway b sig) (c := sway c sig) ?_ h
    cases sig <;> first | exact hb | exact id

theorem still_aside {l : List Mark} (h : ∀ m ∈ l, m.aside = true) : ∀ sig ∈ emitted l, sig.still = true := by
  intro sig hsig
  obtain ⟨m, hm, hsome⟩ := List.mem_filterMap.mp hsig
  have ha := h m hm
  cases m with
  | signal x =>
    cases hsome
    cases sig <;> first | rfl | cases ha
  | lost x => cases hsome
  | openFailed => cases hsome

/-! ## What was told alternates -/

/-- In each connection the backpressure signals alternate, up to any point. -/
def Steady (l : List Signal) : Prop :=
  ∀ pre, pre <+: l → Alternates .backpressureDetected .backpressureCleared (heard pre)

theorem Steady.self {l : List Signal} (h : Steady l) : Alternates .backpressureDetected .backpressureCleared (heard l) :=
  h l List.prefix_rfl

theorem Steady.concat {l : List Signal} (h : Steady l) {sig : Signal}
    (hs : Alternates .backpressureDetected .backpressureCleared (heard (l ++ [sig]))) : Steady (l ++ [sig]) := by
  intro pre hpre
  rcases List.prefix_concat_iff.mp hpre with rfl | hpre
  · exact hs
  · exact h pre hpre

/-- A signal that says nothing of backpressure. -/
theorem Steady.concat_same {l : List Signal} (h : Steady l) {sig : Signal} (hs : hear (heard l) sig = heard l) :
    Steady (l ++ [sig]) := by
  refine h.concat ?_
  rw [heard_concat, hs]
  exact h.self

theorem Steady.aside {log l : List Mark} (h : Steady (emitted log)) (hl : ∀ m ∈ l, m.aside = true) :
    Steady (emitted (log ++ l)) := by
  induction l using List.reverseRecOn with
  | nil => rwa [List.append_nil]
  | append_singleton l m ih =>
    have hprev := ih fun x hx => hl x (List.mem_append_left _ hx)
    have hm := hl m (by simp)
    rw [← List.append_assoc, emitted_append]
    cases m with
    | signal sig => cases sig <;> first | exact hprev.concat_same rfl | cases hm
    | lost sig => cases hm
    | openFailed => rwa [show emitted [Mark.openFailed] = [] from rfl, List.append_nil]

/-! ## The session along its connection -/

namespace Session

open Connection Host Sys

variable {p : Policy} {q : Pressure} {n : ℕ} {s : Session}

/-- What holds as long as neither ring has dropped anything. -/
structure Good (s : Session) : Prop where
  coherent : s.sys.Coherent
  ledger : emitted s.sys.host.conn.log = s.observed ++ s.sys.host.conn.signals
  steady : Steady (emitted s.sys.host.conn.log)
  flag : s.sys.host.conn.signals.foldl sway s.overload.active = true →
    s.sys.host.conn.state.up = true ∧ (heard (emitted s.sys.host.conn.log)).length % 2 = 1
  still : s.phase ≠ .polling → s.phase ≠ .signals → ∀ sig ∈ s.sys.host.conn.signals, sig.still = true
  calm : s.phase ≠ .polling → s.sys.host.pc = .idle ∨ ∃ answer, s.sys.host.pc = .opening answer

theorem calm_event {pc : Pc} (h : pc = .idle ∨ ∃ answer, pc = .opening answer) : pc.event = none := by
  rcases h with rfl | ⟨_, rfl⟩ <;> rfl

/-- A connection that is up tells what its account begins with. -/
theorem alternates_up (h : s.sys.Coherent) (hup : s.sys.host.conn.state.up = true) :
    Alternates .backpressureDetected .backpressureCleared (heard (emitted s.sys.host.conn.log)) := by
  obtain ⟨e, -, hb⟩ := h.engaged (.inl hup)
  have halt := hb.alternates
  unfold account at halt
  rw [if_pos hup] at halt
  exact halt.of_append

/-- **What a step of the connection tells**, as the session will see it. -/
theorem Good.told (h : Good s) {s' : Session} {ev : Option Websocket.Event} (hc : s'.sys.Coherent)
    (ht : Tells ev s.sys.host.conn s'.sys.host.conn) (hg : Grows s.sys.host.conn s'.sys.host.conn)
    (hup : ev.isSome → s.sys.host.conn.state.up = true) (hobs : s'.observed = s.observed)
    (hover : s'.overload.active = true → s.overload.active = true)
    (hstill : s'.phase ≠ .polling → s'.phase ≠ .signals → s.phase ≠ .polling ∧ s.phase ≠ .signals ∧ ev = none)
    (hcalm : s'.phase ≠ .polling → s'.sys.host.pc = .idle ∨ ∃ answer, s'.sys.host.pc = .opening answer) : Good s' := by
  obtain ⟨l, hlog, hsig⟩ := hg
  have hled : emitted s'.sys.host.conn.log = s'.observed ++ s'.sys.host.conn.signals := by
    rw [hlog, emitted_append, h.ledger, hobs, hsig, List.append_assoc]
  -- the flag before the step, if it is raised after the step by signals that leave it alone
  have hflag : (∀ sig ∈ emitted l, sig.still = true) →
      s'.sys.host.conn.signals.foldl sway s'.overload.active = true →
      s.sys.host.conn.state.up = true ∧ (heard (emitted s.sys.host.conn.log)).length % 2 = 1 := by
    intro hl hf
    rw [hsig, List.foldl_append, sway_still hl] at hf
    exact h.flag (sway_mono _ hover hf)
  have hquiet : (ev = none → ∀ sig ∈ emitted l, sig.still = true) →
      s'.phase ≠ .polling → s'.phase ≠ .signals → ∀ sig ∈ s'.sys.host.conn.signals, sig.still = true := by
    intro hl h1 h2 sig hm
    obtain ⟨h3, h4, h5⟩ := hstill h1 h2
    rw [hsig] at hm
    exact (List.mem_append.mp hm).elim (h.still h3 h4 sig) (hl h5 sig)
  cases ht with
  | aside _ ha =>
    obtain ⟨l', hl', hlog'⟩ := ha.log
    obtain rfl : l = l' := List.append_cancel_left (hlog.symm.trans hlog')
    have hst := still_aside hl'
    refine ⟨hc, hled, by rw [hlog]; exact h.steady.aside hl', fun hf => ?_, hquiet fun _ => hst, hcalm⟩
    rw [ha.up, hlog, heard_aside hl']
    exact hflag hst hf
  | pressure x sig hev hx hlog' _ hstate =>
    obtain rfl : l = [.signal sig] := List.append_cancel_left (hlog.symm.trans hlog')
    have hu : s'.sys.host.conn.state.up = true := by
      rw [hstate]
      exact hup (by rw [hev]; rfl)
    have halt := alternates_up hc hu
    have hheard : emitted s'.sys.host.conn.log = emitted s.sys.host.conn.log ++ [sig] := by
      rw [hlog, emitted_append]
      rfl
    refine ⟨hc, hled, by rw [hheard]; exact h.steady.concat (hheard ▸ halt), fun hf => ⟨hu, ?_⟩,
      hquiet fun hn => absurd (hn.symm.trans hev) (by simp), hcalm⟩
    rw [hsig, List.foldl_append] at hf
    rw [hheard, heard_concat] at halt ⊢
    cases x <;> simp only [Websocket.Event.pressure] at hx <;> cases hx
    · have heven := halt.even_of_concat (by decide)
      change (heard _ ++ [_]).length % 2 = 1
      rw [List.length_append, List.length_singleton]
      omega
    · cases hf
  | up hev hstate hd hlog' _ =>
    obtain rfl : l = [.signal .connected] := List.append_cancel_left (hlog.symm.trans hlog')
    have hst : ∀ sig ∈ emitted [Mark.signal .connected], sig.still = true := by decide
    refine ⟨hc, hled, ?_, fun hf => ?_, hquiet fun _ => hst, hcalm⟩
    · rw [hlog, emitted_append]
      exact h.steady.concat (by rw [heard_concat]; trivial)
    · obtain ⟨hu, -⟩ := hflag hst hf
      rw [hstate] at hu
      cases hu
  | refused hev hstate hd hlog' _ =>
    obtain rfl : l = [.openFailed, .signal .retryImmediate] := List.append_cancel_left (hlog.symm.trans hlog')
    have hst : ∀ sig ∈ emitted [Mark.openFailed, .signal .retryImmediate], sig.still = true := by decide
    refine ⟨hc, hled, ?_, fun hf => ?_, hquiet fun _ => hst, hcalm⟩
    · rw [hlog, emitted_append]
      exact h.steady.concat_same rfl
    · obtain ⟨hu, -⟩ := hflag hst hf
      rw [hstate] at hu
      cases hu
  | down hev _ hd hlog' _ =>
    have hdown : Steady (emitted s.sys.host.conn.log ++ [.disconnected]) := h.steady.concat_same rfl
    refine ⟨hc, hled, ?_, fun hf => ?_, hquiet fun hn => absurd (hn.symm.trans hev) (by simp), hcalm⟩
    · rcases hlog' with hlog' | hlog'
      · rw [hlog', emitted_append]
        exact hdown
      · rw [hlog', List.append_cons, emitted_append, emitted_append]
        exact hdown.concat_same rfl
    · have hl : emitted l = [.disconnected] ∨ emitted l = [.disconnected, .retryImmediate] := by
        rcases hlog' with hlog' | hlog' <;> rw [List.append_cancel_left (hlog.symm.trans hlog')]
        · exact .inl rfl
        · exact .inr rfl
      rw [hsig, List.foldl_append] at hf
      rcases hl with hl | hl <;> rw [hl] at hf <;> cases hf

/-- The connection is as it was, but for its control ring. -/
theorem Good.thread (h : Good s) {y : Sys} (hc : y.Coherent) (hlog : y.host.conn.log = s.sys.host.conn.log)
    (hsig : y.host.conn.signals = s.sys.host.conn.signals) (hst : y.host.conn.state = s.sys.host.conn.state)
    (hpc : y.host.pc = s.sys.host.pc) : Good { s with sys := y } :=
  ⟨hc, by rw [hlog, hsig]; exact h.ledger, by rw [hlog]; exact h.steady, by rw [hlog, hsig, hst]; exact h.flag,
    by rw [hsig]; exact h.still, by rw [hpc]; exact h.calm⟩

theorem enabled_host {a : Act} (hd : ∀ ev, a ≠ .deliver ev) (ha : s.sys.Enabled (.host a)) : s.sys.host.Enabled a := by
  cases a <;> first | exact ha.1 | exact absurd rfl (hd _)

/-- A call on the connection, or a piece of one. -/
theorem Good.host (h : Good s) {a : Act} (ph : Phase) (o : ConsecutiveStateCounter) (hd : ∀ ev, a ≠ .deliver ev)
    (hp : a ≠ .pollSignal) (ha : s.sys.Enabled (.host a)) (hl : Lossless (s.sys.host.step p a).conn)
    (ho : o.active = true → s.overload.active = true)
    (hph : ph ≠ .polling → s.phase ≠ .polling ∧ (ph ≠ .signals → s.phase ≠ .signals))
    (hcalm : ph ≠ .polling → (s.sys.host.step p a).pc = .idle ∨ ∃ answer, (s.sys.host.step p a).pc = .opening answer) :
    Good { lift p q (.host a) s with phase := ph, overload := o } := by
  obtain ⟨hc, ht⟩ := coherent_host (q := q) h.coherent (enabled_host hd ha) hd hl
  refine h.told hc ht (grows_step h.coherent.sound hp) ?_ rfl ho ?_ hcalm
  · intro hsome
    obtain ⟨x, hx⟩ := Option.isSome_iff_exists.mp hsome
    cases a with
    | resume env => exact h.coherent.handling (Pc.event_eq_some hx)
    | _ => cases hx
  · intro h1 h2
    obtain ⟨h3, h4⟩ := hph h1
    refine ⟨h3, h4 h2, ?_⟩
    cases a with
    | resume env => exact calm_event (h.calm h3)
    | _ => rfl

/-- The calls that leave the connection's thread where it stands. -/
theorem Good.call (h : Good s) {a : Act} (hd : ∀ ev, a ≠ .deliver ev) (hp : a ≠ .pollSignal)
    (ha : s.sys.Enabled (.host a)) (hl : Lossless (s.sys.host.step p a).conn)
    (hcalm : s.phase ≠ .polling → (s.sys.host.step p a).pc = .idle ∨ ∃ answer, (s.sys.host.step p a).pc = .opening answer) :
    Good (lift p q (.host a) s) :=
  h.host (q := q) s.phase s.overload hd hp ha hl id (fun h1 => ⟨h1, id⟩) hcalm

/-- The next signal is popped and handled. -/
theorem Good.pop (h : Good s) {sig : Signal} {rest : List Signal} (ha : s.sys.Enabled (.host .pollSignal))
    (hph : s.phase = .signals) (hsig : s.sys.host.conn.signals = sig :: rest)
    (hl : Lossless s.sys.host.conn) : Good { lift p q (.host .pollSignal) s with
      overload := handleConnectionSignal sig s.overload, observed := s.observed ++ [sig] } := by
  have hrest : (s.sys.host.step p .pollSignal).conn.signals = rest := by
    change s.sys.host.conn.signals.tail = rest
    rw [hsig]
    rfl
  obtain ⟨hc, -⟩ := coherent_host (p := p) (q := q) (a := .pollSignal) h.coherent ha.1 (by simp) hl
  have hpc : s.sys.host.pc = .idle := ha.1
  refine ⟨hc, ?_, h.steady, ?_, fun _ h2 => absurd hph h2, fun _ => .inl hpc⟩
  · have hled := h.ledger
    rw [hsig] at hled
    change emitted s.sys.host.conn.log = (s.observed ++ [sig]) ++ (s.sys.host.step p .pollSignal).conn.signals
    rw [hled, hrest, List.append_assoc]
    rfl
  · intro hf
    refine h.flag ?_
    change ((s.sys.host.step p .pollSignal).conn.signals).foldl sway _ = true at hf
    rw [hrest, handleConnectionSignal_active] at hf
    rw [hsig]
    exact hf

theorem good_next (h : Good s) (ha : s.Enabled .next) (hl : Lossless (next p q n s).sys.host.conn) :
    Good (next p q n s) := by
  obtain ⟨hph, hen⟩ := ha
  have hpc : s.sys.host.pc = .idle := hen.1
  unfold next at hl ⊢
  cases hphase : s.phase with
  | idle => exact absurd hphase hph
  | polling => exact ⟨h.coherent, h.ledger, h.steady, h.flag, fun _ h2 => absurd rfl h2, fun _ => .inl hpc⟩
  | signals =>
    rw [hphase] at hl
    cases hsig : s.sys.host.conn.signals with
    | nil =>
      refine ⟨h.coherent, h.ledger, h.steady, h.flag, fun _ _ => ?_, fun _ => .inl hpc⟩
      change ∀ sig ∈ s.sys.host.conn.signals, _
      rw [hsig]
      simp
    | cons sig rest =>
      simp only [hsig] at hl
      exact h.pop hen hphase hsig hl
  | messages =>
    exact ⟨h.coherent, h.ledger, h.steady, h.flag, fun _ _ => h.still (by simp [hphase]) (by simp [hphase]),
      fun _ => .inl hpc⟩
  | enforcing =>
    rw [hphase] at hl
    simp only [enforceBackpressurePolicy] at hl ⊢
    split at hl
    · next hesc =>
      rw [if_pos hesc]
      refine h.host _ _ (by simp) (by simp) ⟨hen.1, hen.2⟩ hl (fun hf => by cases hf) ?_ fun _ => .inl hpc
      rw [hphase]
      exact fun _ => ⟨by simp, fun _ => by simp⟩
    · next hesc =>
      rw [if_neg hesc]
      exact ⟨h.coherent, h.ledger, h.steady, h.flag, fun _ _ => h.still (by simp [hphase]) (by simp [hphase]),
        fun _ => .inl hpc⟩

/-- **One step of the session**, its connection or its engine. -/
theorem good_step {s' : Session} {a : SessionAct} (h : Good s) (hok : s.Unclogged a) (hstep : Step p q n s a s')
    (hl : Lossless s'.sys.host.conn) : Good s' := by
  obtain ⟨ha, rfl⟩ := hstep
  cases a with
  | connect url answer =>
    refine h.call (by simp) (by simp) ha.2 hl fun _ => ?_
    obtain ho | ⟨e, ho⟩ | ⟨u, -, -, ho⟩ := h.coherent.sound.openBegin_cases (p := p) url answer
    all_goals
      change (openBegin p url answer s.sys.host.conn).pc = _ ∨ ∃ x, (openBegin p url answer s.sys.host.conn).pc = _
      rw [ho]
      simp
  | close => exact h.call (by simp) (by simp) ha hl h.calm
  | send accepted now => exact h.call (by simp) (by simp) ha hl h.calm
  | peekMessage found now => exact h.call (by simp) (by simp) ha hl h.calm
  | poll =>
    exact h.host .polling s.overload (by simp) (by simp) ha.2 hl id (fun h1 => absurd rfl h1)
      fun h1 => absurd rfl h1
  | resume env =>
    refine h.call (by simp) (by simp) ha hl fun hph => ?_
    rcases h.calm hph with hpc | ⟨answer, hpc⟩
    · exact absurd hpc ha.1
    · left
      change (s.sys.host.resume p env).pc = _
      rw [resume_opening hpc]
  | next => exact good_next h ha hl
  | check => exact h.thread (coherent_check h.coherent ha) rfl rfl rfl rfl
  | turn t => exact h.thread (coherent_turn h.coherent ha t) rfl rfl rfl rfl
  | push =>
    have hc := coherent_push (p := p) (q := q) h.coherent (hok rfl)
    have hsame : (s.sys.step p q .push).host.conn.log = s.sys.host.conn.log ∧
        (s.sys.step p q .push).host.conn.signals = s.sys.host.conn.signals ∧
        (s.sys.step p q .push).host.conn.state = s.sys.host.conn.state ∧
        (s.sys.step p q .push).host.pc = s.sys.host.pc := by
      unfold Sys.step
      simp only
      split
      · exact ⟨rfl, rfl, rfl, rfl⟩
      · next ev _ =>
        obtain ⟨ring, hd⟩ := deliver_eq ev s.sys.host.conn
        rw [Host.step, hd]
        exact ⟨rfl, rfl, rfl, rfl⟩
    exact h.thread hc hsame.1 hsame.2.1 hsame.2.2.1 hsame.2.2.2

/-- A step leaves the connection's thread alone, or is a step of it, or a push of the engine. -/
theorem host_step (s : Session) (a : SessionAct) : (s.step p q n a).sys.host = s.sys.host ∨
    ∃ b, (s.step p q n a).sys.host = s.sys.host.step p b := by
  cases a with
  | next =>
    change (next p q n s).sys.host = _ ∨ ∃ b, (next p q n s).sys.host = _
    unfold next
    split
    · exact .inl rfl
    · exact .inl rfl
    · split
      · exact .inl rfl
      · exact .inr ⟨.pollSignal, rfl⟩
    · exact .inl rfl
    · simp only [enforceBackpressurePolicy]
      split
      · exact .inr ⟨.close, rfl⟩
      · exact .inl rfl
  | push =>
    change (s.sys.step p q .push).host = _ ∨ ∃ b, (s.sys.step p q .push).host = _
    unfold Sys.step
    simp only
    split
    · exact .inl rfl
    · next ev _ => exact .inr ⟨.deliver ev, rfl⟩
  | check => exact .inl rfl
  | turn t => exact .inl rfl
  | connect url answer => exact .inr ⟨.open url answer, rfl⟩
  | close => exact .inr ⟨.close, rfl⟩
  | send accepted now => exact .inr ⟨.send accepted now, rfl⟩
  | peekMessage found now => exact .inr ⟨.peekMessage found now, rfl⟩
  | poll => exact .inr ⟨.poll, rfl⟩
  | resume env => exact .inr ⟨.resume env, rfl⟩

theorem good_new : Good {} := by
  refine ⟨⟨sound_new, placed_new, by simp, by simp [flow, Host.inbox, Pc.event], ?_, ?_⟩, rfl, ?_, by simp, by simp,
    fun _ => .inl rfl⟩
  · exact fun _ => ⟨rfl, by simp⟩
  · rintro (h | h) <;> cases h
  · intro pre hpre
    rw [List.prefix_nil.mp hpre]
    trivial

/-- What holds in every state of a run. -/
theorem run_good {as : List SessionAct} (hr : Run (Step p q n) Unclogged {} as s) (hl : Lossless s.sys.host.conn) :
    Good s := by
  refine (hr.invariant (I := fun s => s.sys.host.conn.Sound ∧ (Lossless s.sys.host.conn → Good s))
    ⟨sound_new, fun _ => good_new⟩ ?_).2 hl
  rintro t a u ⟨hs, hg⟩ hok hstep
  have hback : Lossless u.sys.host.conn → Lossless t.sys.host.conn := by
    obtain ⟨-, rfl⟩ := hstep
    intro hu
    rcases host_step (p := p) (q := q) (n := n) t a with he | ⟨b, he⟩
    · rwa [he] at hu
    · obtain ⟨l, hlog⟩ := log_step (p := p) hs b
      rw [he] at hu
      exact hu.of_append hlog.symm
  refine ⟨?_, fun hu => good_step (hg (hback hu)) hok hstep hu⟩
  obtain ⟨-, rfl⟩ := hstep
  rcases host_step (p := p) (q := q) (n := n) t a with he | ⟨b, he⟩
  · rwa [he]
  · rw [he]
    exact sound_step hs b

theorem run_steps {ok : Session → SessionAct → Prop} (as : List SessionAct)
    (h : Admitted (step p q n) (fun s a => s.Enabled a ∧ ok s a) {} as) :
    Run (Step p q n) ok {} as (as.foldl (step p q n) {}) := by
  have hr : Run (Step p q n) (fun s a => s.Enabled a ∧ ok s a) {} as (as.foldl (step p q n) {}) :=
    Run.of_admitted (fun _ _ ha => ⟨ha.1, rfl⟩) h
  exact hr.mono fun _ _ ha => ha.2

def later : Env := ⟨1, 1, .none⟩

end Session

end Wirekrak.Transport

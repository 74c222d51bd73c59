import Wirekrak.Transport.Emission

/-!
# Wirekrak.Transport.Flow — backpressure events on their way from the engine to the signals

The engine announces every change of its backpressure flag by one event, so the events of a transport alternate, and
their number tells the flag.  On the way to the signal ring they are only moved: from the outbox to the control ring,
from there into the hands of the connection, and on as signals.

* `flow s`: the events that are on the way, in order; a push that fits and a pop leave it as it is.
* `account s`: the backpressure signals of the current connection, told and still to be told.
* `Coherent`: the account alternates and its parity is the engine's flag, unless a `BackpressureDetected` has met a
  full control ring, which ends the engine.
-/

namespace Wirekrak.Transport

open Wirekrak.Lib

/-! ## The account of a connection -/

/-- The backpressure signals since the last `Connected`. -/
def hear (acc : List Signal) : Signal → List Signal
  | .connected => []
  | .backpressureDetected => acc ++ [.backpressureDetected]
  | .backpressureCleared => acc ++ [.backpressureCleared]
  | _ => acc

def heard (l : List Signal) : List Signal :=
  l.foldl hear []

theorem heard_append (l l' : List Signal) : heard (l ++ l') = l'.foldl hear (heard l) :=
  List.foldl_append

theorem heard_concat (l : List Signal) (sig : Signal) : heard (l ++ [sig]) = hear (heard l) sig :=
  heard_append l [sig]

/-- Signals that say nothing about the link or its backpressure are not heard. -/
theorem heard_aside {log l : List Mark} (h : ∀ m ∈ l, m.aside = true) :
    heard (emitted (log ++ l)) = heard (emitted log) := by
  rw [emitted_append, heard_append]
  generalize heard (emitted log) = acc
  induction l generalizing acc with
  | nil => rfl
  | cons m l ih =>
    have hl := ih fun x hx => h x (List.mem_cons_of_mem _ hx)
    have hm := h m List.mem_cons_self
    cases m with
    | signal sig => cases sig <;> first | exact hl _ | cases hm
    | lost sig => cases hm
    | openFailed => exact hl _

/-- The control event being handled, and those in the ring. -/
def Host.inbox (h : Host) : List Websocket.Event :=
  h.pc.event.toList ++ h.conn.controlRing

namespace Sys

open Connection Host Net Engine

variable {p : Policy} {q : Pressure} {s : Sys} {e e' : Engine} {l : List Websocket.Event}

/-- The control events on their way to the connection, in order. -/
def flow (s : Sys) : List Websocket.Event :=
  s.host.inbox ++ s.engine.elim [] Engine.outbox

/-- The backpressure signals of the current connection, told and still to be told. -/
def account (s : Sys) : List Signal :=
  (if s.host.conn.state.up then heard (emitted s.host.conn.log) else []) ++ pressures s.flow

/-- The engine's part: the close event is said once and last, and at most one change of the flag is waiting. -/
structure Fit (s : Sys) (e : Engine) : Prop where
  quit : e.closeSignaled = true → e.running = false ∧ e.loop ≠ .body
  busy : e.outbox ≠ [] → e.loop ≠ .body
  single : (pressures e.outbox).length ≤ 1
  unsaid : e.closeSignaled = false → .close ∉ s.flow

/-- A `BackpressureDetected` has met a full ring: the flag is set, and the thread is on its way out. -/
def Struck (e : Engine) : Prop :=
  e.backpressureActive = true ∧ e.running = false ∧ e.loop ≠ .body

/-- The account alternates and its parity is the engine's flag. -/
structure Balanced (s : Sys) (e : Engine) : Prop where
  alternates : Alternates .backpressureDetected .backpressureCleared s.account
  parity : s.account.length % 2 = (if e.backpressureActive then 1 else 0) ∨ Struck e

structure Coherent (s : Sys) : Prop where
  sound : s.host.conn.Sound
  placed : s.host.Placed
  fit : ∀ e, s.engine = some e → Fit s e
  last : .close ∉ s.flow.dropLast
  resting : ¬ Engaged s.host → s.flow = [] ∧ ∀ e, s.engine = some e → e.closeSignaled = true
  engaged : Engaged s.host → ∃ e, s.engine = some e ∧ Balanced s e

theorem flow_of_says_eq (he : s.engine = some e) (hs : Says e e' l) : flow { s with engine := some e' } = s.flow ++ l := by
  unfold flow
  rw [he]
  simp only [Option.elim_some, hs.outbox, List.append_assoc]

/-- A change of the flag, or none, is booked. -/
theorem Balanced.says (h : Balanced s e) (he : s.engine = some e) (hs : Says e e' l)
    (hst : Struck e → Struck e' ∧ e'.backpressureActive = e.backpressureActive) :
    Balanced { s with engine := some e' } e' := by
  have hacc : account { s with engine := some e' } =
      s.account ++ change e.backpressureActive e'.backpressureActive := by
    unfold account
    rw [flow_of_says_eq he hs, pressures_append, hs.pressure, List.append_assoc]
  rcases h.parity with hp | hp
  · cases ha : e.backpressureActive <;> cases ha' : e'.backpressureActive <;> rw [ha] at hp hacc <;> rw [ha'] at hacc
    · exact ⟨by rw [hacc, change, if_pos rfl, List.append_nil]; exact h.alternates,
        .inl (by rw [hacc, change, if_pos rfl, List.append_nil, ha']; exact hp)⟩
    · have hd : change false true = [Signal.backpressureDetected] := rfl
      rw [hd] at hacc
      refine ⟨by rw [hacc]; exact h.alternates.concat_even hp, .inl ?_⟩
      rw [hacc, ha', List.length_append]
      simp at hp ⊢
      omega
    · have hd : change true false = [Signal.backpressureCleared] := rfl
      rw [hd] at hacc
      refine ⟨by rw [hacc]; exact h.alternates.concat_odd hp, .inl ?_⟩
      rw [hacc, ha', List.length_append]
      simp at hp ⊢
      omega
    · exact ⟨by rw [hacc, change, if_pos rfl, List.append_nil]; exact h.alternates,
        .inl (by rw [hacc, change, if_pos rfl, List.append_nil, ha']; exact hp)⟩
  · obtain ⟨hst', ha⟩ := hst hp
    have hnone : change e.backpressureActive e'.backpressureActive = [] := if_pos ha.symm
    rw [hnone, List.append_nil] at hacc
    exact ⟨hacc ▸ h.alternates, .inr hst'⟩

/-- A piece of the thread's code. -/
theorem Coherent.thread (h : Coherent s) (he : s.engine = some e) (hs : Says e e' l)
    (hc : e.closeSignaled = false ∨ l = []) (hquit : e'.closeSignaled = true → e'.running = false ∧ e'.loop ≠ .body)
    (hbusy : e'.outbox ≠ [] → e'.loop ≠ .body) (hone : (pressures e'.outbox).length ≤ 1)
    (hst : Struck e → Struck e' ∧ e'.backpressureActive = e.backpressureActive) :
    Coherent { s with engine := some e' } := by
  have hflow := flow_of_says_eq he hs
  have hfit := h.fit e he
  refine ⟨h.sound, h.placed, ?_, ?_, ?_, ?_⟩
  · intro e'' he''
    cases he''
    refine ⟨hquit, hbusy, hone, fun hn => ?_⟩
    rcases hs.close with ⟨hl, hsame⟩ | ⟨_, _, _, _, ht⟩
    · rw [hflow, List.mem_append]
      exact fun hm => hm.elim (hfit.unsaid (hsame.symm.trans hn)) hl
    · rw [ht] at hn
      cases hn
  · rw [hflow]
    rcases hc with hc | rfl
    · have hnot := hfit.unsaid hc
      rcases hs.close with ⟨hl, -⟩ | ⟨l₀, rfl, hl₀, -, -⟩
      · exact fun hm => (List.mem_append.mp (List.dropLast_subset _ hm)).elim hnot hl
      · rw [← List.append_assoc, List.dropLast_concat]
        exact fun hm => (List.mem_append.mp hm).elim hnot hl₀
    · rw [List.append_nil]
      exact h.last
  · intro hne
    obtain ⟨hf, hcl⟩ := h.resting hne
    have hct := hcl e he
    obtain rfl : l = [] := hc.resolve_left (by rw [hct]; decide)
    refine ⟨by rw [hflow, hf]; rfl, ?_⟩
    intro e'' he''
    cases he''
    rcases hs.close with ⟨-, hsame⟩ | ⟨_, _, _, _, ht⟩
    · exact hsame.trans hct
    · exact ht
  · intro heng
    obtain ⟨e₀, he₀, hb⟩ := h.engaged heng
    rw [he] at he₀
    cases he₀
    exact ⟨e', rfl, hb.says he hs hst⟩

theorem ready_iff {lp : Loop} (h : s.Ready lp) : ∃ e, s.engine = some e ∧ e.loop = lp ∧ e.outbox = [] := by
  obtain ⟨e, he⟩ := engine_of_ready h
  refine ⟨e, he, ?_⟩
  unfold Ready at h
  rw [he] at h
  simpa using h

theorem length_change (a b : Bool) : (change a b).length ≤ 1 := by
  unfold change
  split <;> simp

theorem coherent_check (h : Coherent s) (hr : s.Ready .head) : Coherent { s with engine := s.engine.map Engine.check } := by
  obtain ⟨e, he, -, ho⟩ := ready_iff hr
  have hfit := h.fit e he
  obtain ⟨l, hs, hc, ha, hrun, hq, hl⟩ := says_check fun hc => (hfit.quit hc).1
  rw [he]
  have hpr : pressures l = [] := by rw [hs.pressure, ha, change, if_pos rfl]
  refine h.thread he hs hc (fun hcl => ⟨hrun.trans (hq hcl), hl (hq hcl)⟩) ?_ ?_ ?_
  · intro hne hb
    have hcheck : check e = { e with loop := .body } := by
      unfold check
      rw [if_pos]
      by_contra hr'
      exact hl (by simpa using hr') hb
    rw [hcheck] at hne
    exact hne ho
  · rw [hs.outbox, ho, List.nil_append, hpr]
    exact Nat.zero_le _
  · rintro ⟨h1, h2, -⟩
    exact ⟨⟨ha.trans h1, hrun.trans h2, hl h2⟩, ha⟩

theorem coherent_turn (h : Coherent s) (hr : s.Ready .body) (t : Turn) :
    Coherent { s with engine := s.engine.map (Engine.turn q t) } := by
  obtain ⟨e, he, hbody, ho⟩ := ready_iff hr
  have hfit := h.fit e he
  have hc : e.closeSignaled = false := by
    by_contra hc
    exact (hfit.quit (by simpa using hc)).2 hbody
  obtain ⟨l, hs, hl, hq⟩ := says_turn (q := q) hc t
  rw [he]
  refine h.thread he hs (.inl hc) (fun hcl => ⟨hq hcl, hl⟩) (fun _ => hl) ?_ ?_
  · rw [hs.outbox, ho, List.nil_append, hs.pressure]
    exact length_change _ _
  · rintro ⟨-, -, h3⟩
    exact absurd hbody h3

/-! ## Pushes -/

/-- No `BackpressureCleared` is pushed into a full control ring. -/
def Unclogged (s : Sys) (a : SysAct) : Prop :=
  a = .push → s.engine.bind (·.outbox.head?) = some .backpressureCleared → s.room = true

instance (s : Sys) (a : SysAct) : Decidable (s.Unclogged a) :=
  inferInstanceAs (Decidable (_ → _ → _))

/-- A change of the host's control ring and nothing else. -/
theorem engaged_deliver (p : Policy) (ev : Websocket.Event) (h : Host) : Engaged (h.step p (.deliver ev)) ↔ Engaged h := by
  obtain ⟨ring, hd⟩ := deliver_eq ev h.conn
  rw [Host.step, hd]
  rfl

theorem account_of_flow {s' : Sys} (hup : s'.host.conn.state.up = s.host.conn.state.up)
    (hlog : s'.host.conn.log = s.host.conn.log) (hf : pressures s'.flow = pressures s.flow) : s'.account = s.account := by
  unfold account
  rw [hup, hlog, hf]

/-- A push that fits moves the event from the outbox to the ring. -/
theorem coherent_push_fits (h : Coherent s) {ev : Websocket.Event} {rest : List Websocket.Event}
    (he : s.engine = some e) (ho : e.outbox = ev :: rest) (hroom : s.room = true) :
    Coherent ⟨s.host.step p (.deliver ev), some { e with outbox := rest }⟩ := by
  have hd := deliver_room (of_decide_eq_true hroom) ev
  have hflow : flow ⟨s.host.step p (.deliver ev), some { e with outbox := rest }⟩ = s.flow := by
    unfold flow Host.inbox
    rw [Host.step, hd, he]
    simp [ho]
  have hfit := h.fit e he
  have hacc : account ⟨s.host.step p (.deliver ev), some { e with outbox := rest }⟩ = s.account := by
    refine account_of_flow ?_ ?_ (by rw [hflow]) <;> rw [Host.step, hd]
  have hone := hfit.single
  rw [ho, pressures_cons, List.length_append] at hone
  refine ⟨sound_step h.sound _, placed_step h.sound h.placed trivial, ?_, ?_, ?_, ?_⟩
  · intro e' he'
    cases he'
    exact ⟨hfit.quit, fun _ => hfit.busy (by rw [ho]; simp), by simp only; omega, fun hc => hflow ▸ hfit.unsaid hc⟩
  · rw [hflow]
    exact h.last
  · intro hne
    obtain ⟨hf, -⟩ := h.resting fun hen => hne ((engaged_deliver p ev s.host).mpr hen)
    unfold flow at hf
    rw [he] at hf
    simp [ho] at hf
  · intro hen
    obtain ⟨e₀, he₀, hb⟩ := h.engaged ((engaged_deliver p ev s.host).mp hen)
    rw [he] at he₀
    cases he₀
    exact ⟨_, rfl, hacc ▸ hb.alternates, by rw [hacc]; exact hb.parity⟩

/-- Dropping an event that is not the close event leaves the close event the last. -/
theorem last_of_drop {A B : List Websocket.Event} {ev : Websocket.Event}
    (h : Websocket.Event.close ∉ (A ++ ev :: B).dropLast) : Websocket.Event.close ∉ (A ++ B).dropLast := by
  cases B with
  | nil =>
    rw [List.dropLast_concat] at h
    rw [List.append_nil]
    exact fun hm => h (List.dropLast_subset _ hm)
  | cons x B =>
    intro hm
    refine h ?_
    rw [List.dropLast_append_cons] at hm
    rw [List.dropLast_append_cons, List.dropLast_cons_cons]
    rw [List.mem_append] at hm ⊢
    exact hm.imp id (List.mem_cons_of_mem _)

/-- An event that did not fit is gone; a lost `BackpressureDetected` finds the thread told to stop. -/
theorem coherent_drop (h : Coherent s) {ev : Websocket.Event} {rest : List Websocket.Event} {r : Bool}
    (he : s.engine = some e) (ho : e.outbox = ev :: rest) (hev : ev ≠ .backpressureCleared)
    (hr : e.running = false → r = false) (hd : ev = .backpressureDetected → r = false) :
    Coherent { s with engine := some { e with outbox := rest, running := r } } := by
  have hfit := h.fit e he
  have hloop := hfit.busy (by rw [ho]; simp)
  have hflow : s.flow = s.host.inbox ++ ev :: rest := by
    unfold flow
    rw [he]
    simp only [Option.elim_some, ho]
  have hflow' : flow { s with engine := some { e with outbox := rest, running := r } } =
      s.host.inbox ++ rest := rfl
  have hen : Engaged s.host := by
    by_contra hne
    have hnil := (h.resting hne).1
    rw [hflow] at hnil
    simp at hnil
  have hone := hfit.single
  rw [ho, pressures_cons, List.length_append] at hone
  refine ⟨h.sound, h.placed, ?_, ?_, fun hne => absurd hen hne, fun _ => ⟨_, rfl, ?_⟩⟩
  · intro e' he'
    cases he'
    refine ⟨fun hc => ⟨hr (hfit.quit hc).1, hloop⟩, fun _ => hloop, by simp only; omega, fun hc hm => hfit.unsaid hc ?_⟩
    rw [hflow', List.mem_append] at hm
    rw [hflow, List.mem_append]
    exact hm.imp id (List.mem_cons_of_mem _)
  · rw [hflow']
    exact last_of_drop (hflow ▸ h.last)
  · obtain ⟨e₀, he₀, hb⟩ := h.engaged hen
    rw [he] at he₀
    cases he₀
    by_cases hdet : ev = .backpressureDetected
    · -- The dropped event is the last of the account, so the flag is set.
      have hrest : pressures rest = [] := by
        rw [hdet] at hone
        exact List.length_eq_zero_iff.mp (by change 1 + _ ≤ 1 at hone; omega)
      have hacc : s.account = account { s with engine := some { e with outbox := rest, running := r } } ++
          [.backpressureDetected] := by
        unfold account
        rw [hflow, hflow', pressures_append s.host.inbox (ev :: rest), pressures_append s.host.inbox rest, pressures_cons, hrest,
          hdet, List.append_nil, List.append_nil, List.append_assoc]
        rfl
      have halt := hb.alternates
      rw [hacc] at halt
      have heven := halt.even_of_concat (by decide)
      refine ⟨halt.of_append, .inr ⟨?_, hd hdet, hloop⟩⟩
      rcases hb.parity with hp | hp
      · rw [hacc, List.length_append, List.length_singleton] at hp
        by_contra hna
        rw [if_neg hna] at hp
        omega
      · exact hp.1
    · have hpr : ev.pressure = [] := by
        cases ev <;> first | rfl | exact absurd rfl hev | exact absurd rfl hdet
      have hacc : account { s with engine := some { e with outbox := rest, running := r } } = s.account := by
        refine account_of_flow rfl rfl ?_
        rw [hflow, hflow', pressures_append s.host.inbox (ev :: rest), pressures_append s.host.inbox rest, pressures_cons, hpr,
          List.nil_append]
      exact ⟨hacc ▸ hb.alternates, hacc ▸ hb.parity.imp id fun hp => ⟨hp.1, hr hp.2.1, hp.2.2⟩⟩

/-- A push that does not fit: a lost `BackpressureDetected` ends the engine. -/
theorem coherent_push_full (h : Coherent s) {ev : Websocket.Event} {rest : List Websocket.Event}
    (he : s.engine = some e) (ho : e.outbox = ev :: rest) (hev : ev ≠ .backpressureCleared) :
    Coherent { s with engine := some (Engine.pushed false e) } := by
  have hfit := h.fit e he
  have hloop := hfit.busy (by rw [ho]; simp)
  have hpushed : Engine.pushed false e = if ev = .backpressureDetected then
      handleFatalError .backpressure { e with outbox := rest } else { e with outbox := rest } := by
    unfold Engine.pushed
    rw [ho]
    rfl
  by_cases hdet : ev = .backpressureDetected
  · rw [hpushed, if_pos hdet]
    have hdrop := coherent_drop (r := false) h he ho hev (fun _ => rfl) (fun _ => rfl)
    unfold handleFatalError
    by_cases hrun : e.running = true
    · have hc : e.closeSignaled = false := by
        by_contra hc
        have hq := (hfit.quit (by simpa using hc)).1
        rw [hq] at hrun
        cases hrun
      obtain ⟨hs, ha, hr, hl⟩ := says_signalClose (e := { e with outbox := rest, running := false })
        (f := emitEvent (.error .backpressure) { e with outbox := rest, running := false }) (l := [.error .backpressure])
        hc rfl (by simp) rfl rfl rfl
      rw [if_pos hrun]
      have hone := hfit.single
      rw [ho, pressures_cons, List.length_append] at hone
      refine hdrop.thread rfl hs (.inl hc) (fun _ => ⟨hr, by rw [hl]; exact hloop⟩) (fun _ => by rw [hl]; exact hloop) ?_ ?_
      · rw [hs.outbox, pressures_append]
        have hnone : pressures ([.error .backpressure] ++ [.close]) = [] := rfl
        rw [hnone, List.append_nil]
        simp only
        omega
      · rintro ⟨h1, -, h3⟩
        exact ⟨⟨ha.trans h1, hr, by rw [hl]; exact h3⟩, ha⟩
    · have hrun' : e.running = false := by simpa using hrun
      rw [if_neg hrun]
      rw [← hrun'] at hdrop
      exact hdrop
  · rw [hpushed, if_neg hdet]
    exact coherent_drop (r := e.running) h he ho hev id fun hd => absurd hd hdet

/-- **A push keeps the account**, unless it drops a `BackpressureCleared`. -/
theorem coherent_push (h : Coherent s) (hok : s.Unclogged .push) : Coherent (s.step p q .push) := by
  unfold Sys.step
  cases hh : s.engine.bind (·.outbox.head?) with
  | none => exact h
  | some ev =>
    obtain ⟨e, he, hhead⟩ := Option.bind_eq_some_iff.mp hh
    obtain ⟨rest, ho⟩ := List.head?_eq_some_iff.mp hhead
    simp only
    rw [he, Option.map_some]
    by_cases hroom : s.room = true
    · have hp : Engine.pushed s.room e = { e with outbox := rest } := by
        unfold Engine.pushed
        rw [ho, hroom]
        rfl
      rw [hp]
      exact coherent_push_fits h he ho hroom
    · have hroom' : s.room = false := by simpa using hroom
      have hev : ev ≠ .backpressureCleared := by
        rintro rfl
        exact hroom (hok rfl hh)
      have hd : s.host.step p (.deliver ev) = s.host := by
        have hfull := deliver_full (c := s.host.conn) (Nat.not_lt.mp (of_decide_eq_false hroom')) ev
        rw [Host.step, hfull]
      rw [hd, hroom']
      exact coherent_push_full h he ho hev

/-! ## Steps of the connection -/

/-- A call that starts a transport. -/
def Fresh (h h' : Host) : Prop :=
  h.pc.waits = false ∧ h'.pc.waits = true

theorem inbox_frame {h h' : Host} (hr : h'.conn.controlRing = h.conn.controlRing) (hpc : h.pc.event = none)
    (hpc' : h'.pc.event = none) : h'.inbox = h.inbox := by
  unfold Host.inbox
  rw [hr, hpc, hpc']

/-- A fresh transport finds the inbox empty; any other piece leaves it as it is, but for the event it handles. -/
theorem inbox_resume {h : Host} (hs : h.conn.Sound) (env : Env) :
    (Fresh h (h.resume p env) → (h.resume p env).inbox = []) ∧
    (¬ Fresh h (h.resume p env) → h.pc.event.toList ++ (h.resume p env).inbox = h.inbox) := by
  cases hpc : h.pc with
  | idle =>
    have hr : h.resume p env = h := by unfold resume; rw [hpc]
    rw [hr]
    exact ⟨fun hf => absurd (hf.1.symm.trans hf.2) (by decide), fun _ => rfl⟩
  | opening answer =>
    rw [resume_opening hpc]
    refine ⟨fun hf => absurd hf.2 (by simp [Pc.waits]), fun _ => ?_⟩
    exact inbox_frame (frame_openEnd _ _ _).ring (by rw [hpc]; rfl) rfl
  | draining =>
    cases hring : h.conn.controlRing with
    | cons ev ring =>
      rw [resume_pop hpc hring]
      refine ⟨fun hf => absurd hf.2 (by simp [Pc.waits]), fun _ => ?_⟩
      unfold Host.inbox
      rw [hpc, hring]
      rfl
    | nil =>
      by_cases hretry : h.conn.state = .waitingReconnect ∧ h.conn.nextRetry ≤ env.now
      · rw [resume_reconnect hpc hring hretry, hs.reconnectBegin_eq hretry.1]
        exact ⟨fun _ => rfl, fun hf => absurd ⟨by rw [hpc]; rfl, rfl⟩ hf⟩
      · rw [resume_drained hpc hring hretry]
        exact ⟨fun hf => absurd hf.2 (by simp [Pc.waits]), fun _ => inbox_frame rfl (by rw [hpc]; rfl) rfl⟩
  | handling ev =>
    rw [resume_handling hpc]
    refine ⟨fun hf => absurd hf.2 (by simp [Pc.waits]), fun _ => ?_⟩
    unfold Host.inbox
    rw [hpc, (frame_onEvent _ _ _).ring]
    rfl
  | reconnecting answer =>
    rw [resume_reconnecting hpc]
    refine ⟨fun hf => absurd hf.2 (by simp [Pc.waits]), fun _ => ?_⟩
    exact inbox_frame (frame_reconnectEnd _ _ _).ring (by rw [hpc]; rfl) rfl
  | liveness =>
    rw [resume_liveness hpc]
    refine ⟨fun hf => absurd hf.2 (by simp [Pc.waits]), fun _ => inbox_frame ?_ (by rw [hpc]; rfl) rfl⟩
    simp only
    split
    · exact (frame_enforceLivenessPolicy _ _ _).ring
    · rfl

theorem inbox_step {h : Host} (hs : h.conn.Sound) {a : Act} (ha : h.Enabled a) (hd : ∀ ev, a ≠ .deliver ev) :
    (Fresh h (h.step p a) → (h.step p a).inbox = []) ∧
    (¬ Fresh h (h.step p a) → (a.handles h.pc).toList ++ (h.step p a).inbox = h.inbox) := by
  have quiet : ∀ c : Connection, h.pc = .idle → h.step p a = ⟨c, .idle⟩ → c.controlRing = h.conn.controlRing →
      a.handles h.pc = none → (Fresh h (h.step p a) → (h.step p a).inbox = []) ∧
        (¬ Fresh h (h.step p a) → (a.handles h.pc).toList ++ (h.step p a).inbox = h.inbox) := by
    intro c hpc hst hc hn
    rw [hst, hn]
    exact ⟨fun hf => absurd hf.2 (by simp [Pc.waits]), fun _ => inbox_frame hc (by rw [hpc]; rfl) rfl⟩
  cases a with
  | «open» url answer =>
    have hpc : h.pc = .idle := ha
    obtain ho | ⟨e, ho⟩ | ⟨u, -, -, ho⟩ := hs.openBegin_cases (p := p) url answer
    · exact quiet _ hpc ho rfl rfl
    · exact quiet _ hpc ho rfl rfl
    · rw [Host.step, ho]
      exact ⟨fun _ => rfl, fun hf => absurd ⟨by rw [hpc]; rfl, rfl⟩ hf⟩
  | close =>
    have hpc : h.pc = .idle := ha
    exact quiet h.conn.close hpc (by rw [Host.step, hpc]) (frame_close _).ring rfl
  | send accepted now =>
    have hpc : h.pc = .idle := ha
    obtain ⟨_, _, _, hse⟩ := send_eq accepted now h.conn
    exact quiet (h.conn.send accepted now) hpc (by rw [Host.step, hpc]) (by rw [hse]) rfl
  | peekMessage found now =>
    have hpc : h.pc = .idle := ha
    obtain ⟨_, _, hse⟩ := peekMessage_eq found now h.conn
    exact quiet (h.conn.peekMessage found now) hpc (by rw [Host.step, hpc]) (by rw [hse]) rfl
  | pollSignal =>
    have hpc : h.pc = .idle := ha
    exact quiet h.conn.pollSignal hpc (by rw [Host.step, hpc]) rfl rfl
  | poll =>
    have hpc : h.pc = .idle := ha
    by_cases hdis : h.conn.state = .disconnected
    · exact quiet h.conn hpc (by rw [Host.step, if_pos hdis, ← hpc]) rfl rfl
    · rw [Host.step, if_neg hdis]
      exact ⟨fun hf => absurd hf.2 (by simp [Pc.waits]), fun _ => inbox_frame rfl (by rw [hpc]; rfl) rfl⟩
  | resume env => exact inbox_resume hs env
  | deliver ev => exact absurd rfl (hd ev)

/-- An engaged connection stays so until it handles its close event. -/
theorem engaged_kept {h : Host} (hp : h.Placed) {a : Act} (hen : h.Enabled a) (he : Engaged h)
    (ht : Tells (a.handles h.pc) h.conn (h.step p a).conn) (hc : a.handles h.pc ≠ some .close) :
    Engaged (h.step p a) := by
  by_cases hs : h.conn.state = .connecting
  · -- The call that waits for the transport's answer goes on.
    have hsucc : h.pc.succeeded = true := he.resolve_left (by rw [hs]; decide)
    have hw := hp.mp hs
    cases a with
    | resume env =>
      cases hpc : h.pc with
      | opening answer =>
        rw [hpc] at hsucc
        have ha : answer = .none := by cases answer <;> first | rfl | cases hsucc
        rw [Host.step, resume_opening hpc, ha]
        exact .inl (up_openEnd hs _)
      | reconnecting answer =>
        rw [hpc] at hsucc
        have ha : answer = .none := by cases answer <;> first | rfl | cases hsucc
        rw [Host.step, resume_reconnecting hpc, ha]
        exact .inl (up_reconnectEnd hs _)
      | _ => rw [hpc] at hw; cases hw
    | deliver ev => exact (engaged_deliver p ev h).mpr he
    | _ =>
      have hpc : h.pc = .idle := hen
      rw [hpc] at hw
      cases hw
  · have hup : h.conn.state.up = true := by
      refine he.resolve_right fun hsucc => hs (hp.mpr ?_)
      cases hpc : h.pc <;> rw [hpc] at hsucc <;> first | rfl | cases hsucc
    left
    cases ht with
    | aside _ h' => exact h'.up.trans hup
    | pressure _ _ _ _ _ _ hst => rw [hst]; exact hup
    | up _ hst => exact absurd hst hs
    | refused _ hst => exact absurd hst hs
    | down hev => exact absurd hev hc

/-- What is told moves from the events on their way to the signals told: the account is the same. -/
theorem account_tells {s' : Sys} {ev : Option Websocket.Event} (ht : Tells ev s.host.conn s'.host.conn)
    (hf : ev.toList ++ s'.flow = s.flow) (hup : ev.isSome → s.host.conn.state.up = true)
    (hc : ev ≠ some .close ∨ s'.host.conn.state.up = true) : s'.account = s.account := by
  unfold account
  rw [← hf, pressures_append]
  cases ht with
  | aside hq h =>
    obtain ⟨l, hl, hlog⟩ := h.log
    have hev : pressures ev.toList = [] := by
      cases ev with
      | none => rfl
      | some x =>
        change x.pressure ++ [] = []
        rw [hq x rfl]
        rfl
    rw [h.up, hlog, heard_aside hl, hev, List.nil_append]
  | pressure x sig hev hx hlog _ hst =>
    have hu := hup (by rw [hev]; rfl)
    have hsig : hear (heard (emitted s.host.conn.log)) sig = heard (emitted s.host.conn.log) ++ [sig] := by
      cases x <;> simp only [Websocket.Event.pressure] at hx <;> cases hx <;> rfl
    have hpr : pressures ev.toList = [sig] := by
      rw [hev]
      change x.pressure ++ [] = _
      rw [hx]
      rfl
    rw [hst, hu, if_pos rfl, if_pos rfl, hlog, emitted_append, hpr, ← List.append_assoc]
    change heard (_ ++ [sig]) ++ _ = _
    rw [heard_concat, hsig]
  | up hev hst hd hlog _ =>
    rw [hst, hd, hev, hlog, emitted_append]
    change heard (_ ++ [.connected]) ++ _ = _
    rw [heard_concat]
    rfl
  | refused hev hst hd _ _ =>
    rw [hst, hd, hev]
    rfl
  | down hev _ hd _ _ =>
    rcases hc with hc | hc
    · exact absurd hev hc
    · rw [hd] at hc
      cases hc

/-- What `settle` does to an engine that is not new: it may tell it to stop. -/
theorem settle_kept {h h' : Host} (hf : ¬ Fresh h h') (en : Option Engine) :
    settle h h' en = en ∨ settle h h' en = en.map Engine.close := by
  have hf' : ¬ (h.pc.waits = false ∧ h'.pc.waits = true) := hf
  unfold settle
  rw [if_neg hf']
  split
  · exact .inl rfl
  · exact .inr rfl

/-- An engine that is told to stop, or left alone. -/
structure Stopped (e e' : Engine) : Prop where
  outbox : e'.outbox = e.outbox
  active : e'.backpressureActive = e.backpressureActive
  signaled : e'.closeSignaled = e.closeSignaled
  loop : e'.loop = e.loop
  running : e.running = false → e'.running = false

theorem stopped_settle {h h' : Host} (hf : ¬ Fresh h h') (en : Option Engine) :
    (∀ e, en = some e → ∃ e', settle h h' en = some e' ∧ Stopped e e') ∧ (en = none → settle h h' en = none) := by
  rcases settle_kept hf en with hs | hs <;> rw [hs]
  · exact ⟨fun e he => ⟨e, he, rfl, rfl, rfl, rfl, id⟩, id⟩
  · refine ⟨fun e he => ⟨e.close, by rw [he]; rfl, ?_⟩, fun hn => by rw [hn]; rfl⟩
    unfold Engine.close
    split
    · exact ⟨rfl, rfl, rfl, rfl, id⟩
    · exact ⟨rfl, rfl, rfl, rfl, fun _ => rfl⟩

/-- A call that starts a transport begins a new account. -/
theorem coherent_fresh (hs : s.host.conn.Sound) (hp : s.host.Placed) (hw : s.host.pc.waits = true)
    (hi : s.host.inbox = []) (he : s.engine = if s.host.pc.succeeded then some {} else none) : Coherent s := by
  have hup : s.host.conn.state.up = false := by rw [hp.mpr hw]; rfl
  have hflow : s.flow = [] := by
    unfold flow
    rw [hi, he]
    split <;> rfl
  have hacc : s.account = [] := by
    unfold account
    rw [hflow, hup]
    rfl
  refine ⟨hs, hp, ?_, by rw [hflow]; simp, ?_, ?_⟩
  · intro e hsome
    rw [he] at hsome
    split at hsome
    · cases hsome
      refine ⟨?_, fun h => absurd rfl h, Nat.zero_le _, fun _ => by rw [hflow]; simp⟩
      intro hc
      cases hc
    · cases hsome
  · intro hne
    have hsucc : ¬ s.host.pc.succeeded = true := fun h => hne (.inr h)
    rw [if_neg hsucc] at he
    exact ⟨hflow, fun e hsome => by rw [he] at hsome; cases hsome⟩
  · intro hen
    have hsucc := hen.resolve_left (by rw [hup]; decide)
    rw [if_pos hsucc] at he
    exact ⟨{}, he, by rw [hacc]; trivial, .inl (by rw [hacc]; rfl)⟩

/-- What a connection tells, the event it handles taken off the flow. -/
theorem Coherent.told (h : Coherent s) {s' : Sys} {ev : Option Websocket.Event} (hs' : s'.host.conn.Sound)
    (hp' : s'.host.Placed) (ht : Tells ev s.host.conn s'.host.conn) (hflow : ev.toList ++ s'.flow = s.flow)
    (hup : ev.isSome → s.host.conn.state.up = true)
    (heng : ∀ e, s.engine = some e → ∃ e', s'.engine = some e' ∧ Stopped e e')
    (heng' : ∀ e', s'.engine = some e' → ∃ e, s.engine = some e ∧ Stopped e e')
    (hon : Engaged s'.host → Engaged s.host ∧ (ev ≠ some .close ∨ s'.host.conn.state.up = true))
    (hoff : ¬ Engaged s'.host → Engaged s.host → ev = some .close) : Coherent s' := by
  refine ⟨hs', hp', ?_, ?_, ?_, ?_⟩
  · intro e' he'
    obtain ⟨e, he, hst⟩ := heng' e' he'
    have hfit := h.fit e he
    refine ⟨?_, ?_, by rw [hst.outbox]; exact hfit.single, ?_⟩
    · rw [hst.signaled, hst.loop]
      exact fun hc => ⟨hst.running (hfit.quit hc).1, (hfit.quit hc).2⟩
    · rw [hst.outbox, hst.loop]
      exact hfit.busy
    · rw [hst.signaled]
      exact fun hc hm => hfit.unsaid hc (hflow ▸ List.mem_append_right _ hm)
  · intro hm
    have hne : s'.flow ≠ [] := by
      intro hnil
      rw [hnil] at hm
      cases hm
    refine h.last ?_
    rw [← hflow, List.dropLast_append_of_ne_nil hne]
    exact List.mem_append_right _ hm
  · intro hne
    by_cases hen : Engaged s.host
    · -- The close event has been handled: it was the last.
      rw [hoff hne hen] at hflow
      have hlast := h.last
      rw [← hflow] at hlast
      refine ⟨?_, ?_⟩
      · by_contra hnil
        rw [List.dropLast_append_of_ne_nil hnil] at hlast
        exact hlast (List.mem_append_left _ List.mem_cons_self)
      · intro e' he'
        obtain ⟨e, he, hst⟩ := heng' e' he'
        rw [hst.signaled]
        by_contra hc
        exact (h.fit e he).unsaid (by simpa using hc) (hflow ▸ List.mem_append_left _ List.mem_cons_self)
    · obtain ⟨hf, hcl⟩ := h.resting hen
      rw [hf] at hflow
      refine ⟨(List.append_eq_nil_iff.mp hflow).2, ?_⟩
      intro e' he'
      obtain ⟨e, he, hst⟩ := heng' e' he'
      rw [hst.signaled]
      exact hcl e he
  · intro hen
    obtain ⟨hen', hc⟩ := hon hen
    obtain ⟨e, he, hb⟩ := h.engaged hen'
    obtain ⟨e', he', hst⟩ := heng e he
    have hacc := account_tells ht hflow hup hc
    refine ⟨e', he', hacc ▸ hb.alternates, ?_⟩
    rw [hacc, hst.active]
    exact hb.parity.imp id fun hp => ⟨hst.active.trans hp.1, hst.running hp.2.1, by rw [hst.loop]; exact hp.2.2⟩

/-- An event that is handled comes from a connection that is up. -/
theorem Coherent.handling (h : Coherent s) {ev : Websocket.Event} (hpc : s.host.pc = .handling ev) :
    s.host.conn.state.up = true := by
  have hen : Engaged s.host := by
    by_contra hne
    have hnil := (h.resting hne).1
    unfold flow Host.inbox at hnil
    rw [hpc] at hnil
    simp [Pc.event] at hnil
  refine hen.resolve_right ?_
  rw [hpc]
  simp [Pc.succeeded]

/-- **A step of the connection that loses no signal keeps the account.** -/
theorem coherent_host (h : Coherent s) {a : Act} (ha : s.host.Enabled a) (hd : ∀ ev, a ≠ .deliver ev)
    (hl : Lossless (s.host.step p a).conn) : Coherent (s.step p q (.host a)) ∧
    Tells (a.handles s.host.pc) s.host.conn (s.host.step p a).conn := by
  have hs' := sound_step (p := p) h.sound a
  have hp' := placed_step (p := p) h.sound h.placed ha
  obtain ⟨hin, hout⟩ := inbox_step (p := p) h.sound ha hd
  change Coherent ⟨s.host.step p a, settle s.host (s.host.step p a) s.engine⟩ ∧ _
  have hpcOf : ∀ x, a.handles s.host.pc = some x → s.host.pc = .handling x := by
    intro x hx
    cases a <;> first | exact Pc.event_eq_some hx | cases hx
  have ht : Tells (a.handles s.host.pc) s.host.conn (s.host.step p a).conn := by
    refine tells_step h.sound h.placed (fun hpc hw => ?_) hl
    have hu := h.handling hpc
    rw [hw] at hu
    cases hu
  refine ⟨?_, ht⟩
  by_cases hf : Fresh s.host (s.host.step p a)
  · refine coherent_fresh hs' hp' hf.2 (hin hf) ?_
    have hf' : s.host.pc.waits = false ∧ (s.host.step p a).pc.waits = true := hf
    simp only [settle, if_pos hf']
  · obtain ⟨hkeep, hnone⟩ := stopped_settle hf s.engine
    have hup : (a.handles s.host.pc).isSome → s.host.conn.state.up = true := by
      intro hsome
      obtain ⟨x, hx⟩ := Option.isSome_iff_exists.mp hsome
      exact h.handling (hpcOf x hx)
    refine h.told hs' hp' ht ?_ hup hkeep ?_ ?_ ?_
    · unfold flow
      rw [← List.append_assoc, hout hf]
      rcases Option.eq_none_or_eq_some s.engine with he | ⟨e, he⟩
      · simp only [hnone he]
        rw [he]
      · obtain ⟨e', he', hst⟩ := hkeep e he
        simp only [he', Option.elim_some, hst.outbox]
        rw [he]
        rfl
    · intro e' he'
      cases he : s.engine with
      | none =>
        rw [hnone he] at he'
        cases he'
      | some e =>
        obtain ⟨e'', he'', hst⟩ := hkeep e he
        have heq : e'' = e' := Option.some.inj (he''.symm.trans he')
        exact ⟨e, rfl, heq ▸ hst⟩
    · intro hen
      refine ⟨(engaged_step h.sound h.placed ha hd hf hen).1, ?_⟩
      by_cases hc : a.handles s.host.pc = some .close
      · right
        refine hen.resolve_right ?_
        have hpc := hpcOf _ hc
        cases a with
        | resume env =>
          change ¬ (s.host.resume p env).pc.succeeded = true
          rw [resume_handling hpc]
          simp [Pc.succeeded]
        | _ => cases hc
      · exact .inl hc
    · intro hne hen
      by_contra hc
      exact hne (engaged_kept h.placed ha hen ht hc)

end Sys

end Wirekrak.Transport

import Wirekrak.Transport.Overflow

/-!
# Wirekrak.Transport.Liveness — a peer that has gone silent

The liveness policy compares the clock with `last_message_ts_`, which `send` sets as well as a received message.  A
session is one of the callers of a `Host`: what its user sends, its pings and its replays are `send`, what it takes from
the message ring is `peekMessage`, so a statement about every run of a `Host` covers every run of a session.

* `Watch`: a host, with the time of the last receipt, the last send and the warnings since then, and the reading of the
  last poll.
* `Unmasked`: at a liveness check no send since the last receipt hides a silence that is too long, or re-arms a warning
  that has been given.
* `dead_peer_detected`: in every run of unmasked steps, the connection a poll leaves `Connected` has received within the
  timeout, and one silence is warned of once.
-/

namespace Wirekrak.Transport

open Wirekrak.Lib

/-- The `LivenessThreatened` signals among the entries that `log'` has and `log` has not. -/
def warnings (log log' : List Mark) : ℕ :=
  (log'.drop log.length).count (.signal .livenessThreatened)

namespace Connection

variable {p : Policy} {c d e : Connection}

theorem warnings_append {log l : List Mark} : warnings log (log ++ l) = l.count (.signal .livenessThreatened) := by
  rw [warnings, List.drop_left]

/-- `liveness_remaining_` for a timestamp. -/
def remainingSince (p : Policy) (now ts : ℕ) : ℤ :=
  p.timeout - ((now : ℤ) - ts).tdiv ms

/-- The later the clock and the earlier the timestamp, the less remains. -/
theorem remainingSince_le {now now' ts ts' : ℕ} (hnow : now ≤ now') (hts : ts' ≤ ts) :
    remainingSince p now' ts' ≤ remainingSince p now ts := by
  have hms : (0 : ℤ) < ms := by decide
  have hdiff : (now : ℤ) - ts ≤ (now' : ℤ) - ts' := by omega
  have := Int.tdiv_le_tdiv hms hdiff
  unfold remainingSince
  omega

theorem send_ts (accepted : Bool) (now : ℕ) (c : Connection) :
    (c.send accepted now).lastMessageTs = if c.state = .connected ∧ accepted = true then now else c.lastMessageTs := by
  have hu : c.useTransport.lastMessageTs = c.lastMessageTs := by
    unfold useTransport
    split <;> rfl
  unfold send
  by_cases hs : c.state = .connected
  · cases accepted with
    | true => simp [hs]
    | false => simpa [hs] using hu
  · simp [hs]

theorem Silent.warnings_eq (h : Silent c d) : warnings c.log d.log = 0 := by
  obtain ⟨l, hl, hm⟩ := h.not_mem (m := .signal .livenessThreatened) rfl
  rw [hl, warnings_append]
  exact List.count_eq_zero.mpr hm

/-! ## A connect that is answered -/

/-- A new connection begins with its flags down and the time of its connect. -/
structure Renewed (now : ℕ) (c d : Connection) : Prop where
  epoch : d.epoch = c.epoch + 1
  ts : d.lastMessageTs = now
  warning : d.livenessWarningEmitted = false
  timeout : d.livenessTimeoutEmitted = false

theorem renewed_enterConnected (hp : p.livenessEnabled = true) (now : ℕ) (c : Connection) :
    Renewed now c (enterConnected p now c) := by
  refine ⟨epoch_enterConnected now c, rfl, ?_, ?_⟩
  · simp only [enterConnected, hp, if_true]
  · simp only [enterConnected, hp, if_true]

theorem unstamped_or_renewed_connected (hp : p.livenessEnabled = true) (now : ℕ) (c : Connection) :
    Unstamped c (transition p now .transportConnected .none c) ∨
    Renewed now c (transition p now .transportConnected .none c) := by
  rcases connected_cases (p := p) now c with he | ⟨-, he⟩
  · rw [he]
    exact .inl (.refl c)
  · rw [he]
    exact .inr (renewed_enterConnected hp now c)

/-! ## The liveness check -/

theorem close_connected (hs : c.state = .connected) :
    ∃ w fs, c.close = { c with disconnectReason := .localClose, state := .disconnecting, ws := w, faults := fs } := by
  unfold close
  rw [if_neg (by rw [hs]; decide), if_neg (by rw [hs]; decide)]
  unfold closeRequested
  rw [hs]
  simp only [closeTransport]
  split <;> exact ⟨_, _, rfl⟩

/-- The warning check of a connection that has given `n` warnings: at most one in all, and the flag says so; one that
has been given means that little time remains. -/
theorem warnLiveness_spec (hs : c.state = .connected) {n now : ℕ} (hn : n ≤ 1)
    (hflag : 0 < n → c.livenessWarningEmitted = true) (hrem : 0 < n → c.livenessRemaining p now ≤ warningThreshold p) :
    (warnLiveness p now c).epoch = c.epoch ∧ (warnLiveness p now c).lastMessageTs = c.lastMessageTs ∧
    (warnLiveness p now c).livenessTimeoutEmitted = c.livenessTimeoutEmitted ∧
    ∃ l, (warnLiveness p now c).log = c.log ++ l ∧ n + l.count (.signal .livenessThreatened) ≤ 1 ∧
      (0 < n + l.count (.signal .livenessThreatened) → c.livenessRemaining p now ≤ warningThreshold p) ∧
      ((warnLiveness p now c).state = .connected → 0 < n + l.count (.signal .livenessThreatened) →
        (warnLiveness p now c).livenessWarningEmitted = true) := by
  unfold warnLiveness
  split
  · next hf =>
    have hn0 : n = 0 := by
      by_contra h0
      rw [hflag (by omega)] at hf
      cases hf
    subst hn0
    split
    · next hle =>
      have hs' : ({ c with livenessWarningEmitted := true } : Connection).state = .connected := hs
      rw [transition_outdated hs']
      by_cases hr : Full { c with livenessWarningEmitted := true }
      · rw [emit_full _ hr]
        obtain ⟨w, fs, hcl⟩ := close_connected (c := { c with
          livenessWarningEmitted := true, log := c.log ++ [.lost .livenessThreatened] }) hs
        rw [hcl]
        exact ⟨rfl, rfl, rfl, [.lost .livenessThreatened], rfl, by decide, fun _ => hle, by rintro ⟨⟩⟩
      · rw [emit_room _ hr]
        exact ⟨rfl, rfl, rfl, [.signal .livenessThreatened], rfl, by decide, fun _ => hle, fun _ _ => rfl⟩
    · exact ⟨rfl, rfl, rfl, [], (List.append_nil _).symm, by decide, fun h0 => absurd h0 (by decide),
        fun _ h0 => absurd h0 (by decide)⟩
  · next hf =>
    split
    · next hlt =>
      -- re-armed: no warning has been given in this silence
      have hn0 : n = 0 := by
        by_contra h0
        have := hrem (by omega)
        omega
      subst hn0
      exact ⟨rfl, rfl, rfl, [], (List.append_nil _).symm, by decide, fun h0 => absurd h0 (by decide),
        fun _ h0 => absurd h0 (by decide)⟩
    · exact ⟨rfl, rfl, rfl, [], (List.append_nil _).symm, hn, hrem, fun _ _ => by simpa using hf⟩

/-- The timeout check: what is still `Connected` behind it was not stale. -/
theorem expireLiveness_spec (now : ℕ) (c : Connection) :
    (expireLiveness p now c).epoch = c.epoch ∧ (expireLiveness p now c).log = c.log ∧
    (expireLiveness p now c).lastMessageTs = c.lastMessageTs ∧
    ((expireLiveness p now c).state = .connected → expireLiveness p now c = c ∧
      (c.livenessTimeoutEmitted = false → now ≤ c.lastMessageTs + p.timeout * ms)) := by
  unfold expireLiveness
  split
  · cases hst : c.state with
    | connected =>
      simp only [transition, closeTransport]
      split <;> exact ⟨rfl, rfl, rfl, by rintro ⟨⟩⟩
    | connecting | disconnecting | waitingReconnect | disconnected =>
      simp only [transition]
      exact ⟨trivial, trivial, trivial, by rintro ⟨⟩⟩
  · next hst =>
    refine ⟨rfl, rfl, rfl, fun _ => ⟨rfl, fun hf => ?_⟩⟩
    have hstale : ¬ c.isLivenessStale p now = true := fun ht => hst ⟨hf, ht⟩
    simp only [isLivenessStale, decide_eq_true_eq] at hstale
    omega

end Connection

/-! ## What is observed of a silence -/

/-- A host under observation: the latest time at which a message was received, or the connection established; the time
of the last send accepted since then and the warnings since then; the clock readings of the last poll of this connection
and of the last warning check. -/
structure Watch where
  host : Host := {}
  lastRx : ℕ := 0
  sentAt : Option ℕ := none
  threatened : ℕ := 0
  polled : Option ℕ := none
  checked : ℕ := 0
  deriving DecidableEq, Repr

namespace Watch

open Connection

variable {p : Policy} {w u : Watch}

/-- A piece of `open` or `poll`: where it raises the epoch a connection has been established. -/
def resume (p : Policy) (env : Env) (w : Watch) : Watch :=
  let h := w.host.resume p env
  if h.conn.epoch ≠ w.host.conn.epoch then
    { host := h, lastRx := env.now, sentAt := none, threatened := 0, polled := none, checked := w.checked }
  else
    { host := h
      lastRx := w.lastRx
      sentAt := w.sentAt
      threatened := w.threatened + warnings w.host.conn.log h.conn.log
      polled := if w.host.pc = .liveness then some env.now' else w.polled
      checked := if w.host.pc = .liveness then env.now else w.checked }

def step (p : Policy) (w : Watch) : Act → Watch
  | .peekMessage true now =>
    { w with
      host := w.host.step p (.peekMessage true now), lastRx := max w.lastRx now, sentAt := none, threatened := 0 }
  | .send true now =>
    { w with
      host := w.host.step p (.send true now)
      sentAt := if w.host.conn.state = .connected then some now else w.sentAt }
  | .resume env => w.resume p env
  | a => { w with host := w.host.step p a }

/-- `steady_clock`: a warning check reads no earlier time than the one before. -/
def Steady (w : Watch) : Act → Prop
  | .resume env => w.host.pc = .liveness → w.checked ≤ env.now
  | _ => True

def Step (p : Policy) (w : Watch) (a : Act) (w' : Watch) : Prop :=
  (w.host.Enabled a ∧ w.Steady a) ∧ w.step p a = w'

/-- At a liveness check of a `Connected` connection: where the last receipt is more than the timeout ago, so is the last
send since then; and where a warning has been given since then, the time that remains since that send is still within
the threshold. -/
def Unmasked (p : Policy) (w : Watch) : Act → Prop
  | .resume env => w.host.pc = .liveness → w.host.conn.state = .connected →
      (w.lastRx + p.timeout * ms < env.now' → ∀ t ∈ w.sentAt, t + p.timeout * ms < env.now') ∧
      (0 < w.threatened → ∀ t ∈ w.sentAt, remainingSince p env.now t ≤ warningThreshold p)
  | _ => True

/-- The flags say what has been observed, and so does the poll; the timestamp is no later than what set it. -/
structure Inv (p : Policy) (w : Watch) : Prop where
  timeout : w.host.conn.state = .connected → w.host.conn.livenessTimeoutEmitted = false
  warning : w.host.conn.state = .connected → 0 < w.threatened → w.host.conn.livenessWarningEmitted = true
  once : w.threatened ≤ 1
  heard : ∀ t, w.polled = some t → w.host.conn.state = .connected → t ≤ w.lastRx + p.timeout * ms
  stamp : w.host.conn.lastMessageTs ≤ w.sentAt.getD w.lastRx
  warned : w.host.conn.state = .connected → 0 < w.threatened → w.sentAt = none →
    w.host.conn.livenessRemaining p w.checked ≤ warningThreshold p

/-- A step that is silent and sets no timestamp keeps the invariant. -/
theorem Inv.unstamped (h : Inv p w) (hs : Unstamped w.host.conn u.host.conn) (hu : u = { w with host := u.host }) :
    Inv p u := by
  obtain ⟨hst, sentAt, n, hpl, hch⟩ : u.lastRx = w.lastRx ∧ u.sentAt = w.sentAt ∧ u.threatened = w.threatened ∧
      u.polled = w.polled ∧ u.checked = w.checked := by
    rw [hu]
    exact ⟨rfl, rfl, rfl, rfl, rfl⟩
  refine ⟨fun hc => ?_, fun hc h0 => ?_, n ▸ h.once, fun t hpt hc => ?_, ?_, fun hc h0 hnone => ?_⟩
  · rw [hs.timeout]
    exact h.timeout (hs.state hc)
  · rw [hs.warning]
    exact h.warning (hs.state hc) (n ▸ h0)
  · rw [hst]
    exact h.heard t (hpl ▸ hpt) (hs.state hc)
  · rw [hs.ts, sentAt, hst]
    exact h.stamp
  · change remainingSince p u.checked u.host.conn.lastMessageTs ≤ _
    rw [hs.ts, hch]
    exact h.warned (hs.state hc) (n ▸ h0) (sentAt ▸ hnone)

/-- A send that is accepted sets the timestamp, and its time is noted. -/
theorem inv_send (h : Inv p w) {now : ℕ} (hs : Silent w.host.conn (w.host.step p (.send true now)).conn) :
    Inv p (w.step p (.send true now)) := by
  have hts : (w.host.step p (.send true now)).conn.lastMessageTs = _ := send_ts true now w.host.conn
  by_cases hc : w.host.conn.state = .connected
  · rw [if_pos ⟨hc, rfl⟩] at hts
    unfold step
    simp only [if_pos hc]
    refine ⟨fun hu => ?_, fun hu h0 => ?_, h.once, fun t hpt hu => h.heard t hpt hc, Nat.le_of_eq hts,
      fun _ _ hnone => (by cases hnone)⟩
    · exact hs.timeout.trans (h.timeout hc)
    · exact hs.warning.trans (h.warning hc h0)
  · rw [if_neg fun hx => hc hx.1] at hts
    unfold step
    simp only [if_neg hc]
    exact h.unstamped ⟨hs, hts⟩ rfl

/-- A message that is received ends the silence. -/
theorem inv_peekMessage (h : Inv p w) {now : ℕ}
    (hs : Silent w.host.conn (w.host.step p (.peekMessage true now)).conn) :
    Inv p (w.step p (.peekMessage true now)) := by
  refine ⟨fun hc => ?_, fun _ h0 => absurd h0 (Nat.lt_irrefl 0), Nat.zero_le 1, fun t hpt hc => ?_,
    Nat.le_max_right _ _, fun _ h0 => absurd h0 (Nat.lt_irrefl 0)⟩
  · exact hs.timeout.trans (h.timeout (hs.state hc))
  · have hle := h.heard t hpt (hs.state hc)
    have hmax := Nat.le_max_left w.lastRx now
    change t ≤ max w.lastRx now + p.timeout * ms
    omega

/-- Neither the receipt nor a send hides the staleness of a connection. -/
theorem Inv.stale (h : Inv p w) {now : ℕ} (hrx : w.lastRx + p.timeout * ms < now)
    (hsent : ∀ t ∈ w.sentAt, t + p.timeout * ms < now) : w.host.conn.lastMessageTs + p.timeout * ms < now := by
  have hstamp := h.stamp
  cases hat : w.sentAt with
  | none =>
    rw [hat] at hstamp
    change _ ≤ w.lastRx at hstamp
    omega
  | some t =>
    rw [hat] at hstamp
    change _ ≤ t at hstamp
    have := hsent t hat
    omega

/-- In a silence that has been warned of little time remains, unless a send has given more. -/
theorem Inv.remaining (h : Inv p w) {now : ℕ} (hc : w.host.conn.state = .connected) (hclock : w.checked ≤ now)
    (h0 : 0 < w.threatened) (hsent : ∀ t ∈ w.sentAt, remainingSince p now t ≤ warningThreshold p) :
    w.host.conn.livenessRemaining p now ≤ warningThreshold p := by
  cases hat : w.sentAt with
  | none => exact Int.le_trans (remainingSince_le hclock (Nat.le_refl _)) (h.warned hc h0 hat)
  | some t =>
    have hstamp := h.stamp
    rw [hat] at hstamp
    exact Int.le_trans (remainingSince_le (Nat.le_refl now) hstamp) (hsent t hat)

/-- **The liveness check keeps the invariant**, and notes its own readings. -/
theorem inv_liveness (h : Inv p w) (hp : p.livenessEnabled = true) (hpc : w.host.pc = .liveness) {env : Env}
    (hclock : w.checked ≤ env.now) (hok : w.Unmasked p (.resume env)) : Inv p (w.resume p env) := by
  have hres : w.host.resume p env = ⟨w.host.conn.enforceLivenessPolicy p env.now env.now', .idle⟩ := by
    rw [Host.resume_liveness hpc, if_pos hp]
  unfold resume
  simp only [hres, hpc, if_true]
  by_cases hc : w.host.conn.state = .connected
  · obtain ⟨hstale, hrem⟩ := hok hpc hc
    obtain ⟨he, hts, hto, l, hl, hle, hlate, hfl⟩ := warnLiveness_spec hc h.once (h.warning hc)
      fun h0 => h.remaining hc hclock h0 (hrem h0)
    obtain ⟨he', hl', hts', hx⟩ := expireLiveness_spec (p := p) env.now' (warnLiveness p env.now w.host.conn)
    have hto' := hto.trans (h.timeout hc)
    have hw : warnings w.host.conn.log (w.host.conn.enforceLivenessPolicy p env.now env.now').log =
        l.count (.signal .livenessThreatened) := by
      unfold enforceLivenessPolicy
      rw [if_pos hc, hl', hl, warnings_append]
    have hep : (w.host.conn.enforceLivenessPolicy p env.now env.now').epoch = w.host.conn.epoch := by
      unfold enforceLivenessPolicy
      rw [if_pos hc, he', he]
    rw [if_neg (not_not.mpr hep)]
    rw [hw]
    unfold enforceLivenessPolicy
    rw [if_pos hc]
    refine ⟨fun hst => ?_, fun hst h0 => ?_, hle, fun t ht hst => ?_, ?_, fun _ h0 _ => ?_⟩
    · change (expireLiveness p env.now' _).livenessTimeoutEmitted = false
      rw [(hx hst).1]
      exact hto'
    · change (expireLiveness p env.now' _).livenessWarningEmitted = true
      have hsame := (hx hst).1
      rw [hsame]
      exact hfl (hsame ▸ hst) h0
    · have hle' := (hx hst).2 hto'
      rw [hts] at hle'
      cases ht
      change env.now' ≤ w.lastRx + p.timeout * ms
      by_contra hlt
      have := h.stale (by omega) (hstale (by omega))
      omega
    · change (expireLiveness p env.now' _).lastMessageTs ≤ w.sentAt.getD w.lastRx
      rw [hts', hts]
      exact h.stamp
    · change remainingSince p env.now (expireLiveness p env.now' _).lastMessageTs ≤ _
      rw [hts', hts]
      exact hlate h0
  · have hsame : w.host.conn.enforceLivenessPolicy p env.now env.now' = w.host.conn := by
      unfold enforceLivenessPolicy
      rw [if_neg hc]
    rw [hsame, if_neg (not_not.mpr rfl)]
    have hw : warnings w.host.conn.log w.host.conn.log = 0 := (Silent.refl _).warnings_eq
    refine ⟨fun hst => absurd hst hc, fun hst => absurd hst hc, ?_, fun _ _ hst => absurd hst hc, h.stamp,
      fun hst => absurd hst hc⟩
    change w.threatened + warnings _ _ ≤ 1
    rw [hw]
    exact h.once

/-- Every other piece of a call is silent and sets no timestamp, or it establishes a connection. -/
theorem unstamped_or_renewed_resume {h : Host} (hs : h.conn.Sound) (hp : p.livenessEnabled = true)
    (hpc : h.pc ≠ .liveness) (env : Env) :
    Unstamped h.conn (h.resume p env).conn ∨ Renewed env.now h.conn (h.resume p env).conn := by
  cases hw : h.pc.waits with
  | false => exact .inl (Host.unstamped_resume hs hw hpc env)
  | true =>
    cases hpc' : h.pc with
    | opening answer =>
      rw [Host.resume_opening hpc']
      by_cases ha : answer = .none
      · unfold openEnd
        rw [if_neg (not_not.mpr ha)]
        exact unstamped_or_renewed_connected hp env.now h.conn
      · exact .inl (unstamped_openFailed env.now ha h.conn)
    | reconnecting answer =>
      rw [Host.resume_reconnecting hpc']
      unfold reconnectEnd
      split
      · exact .inl (unstamped_reconnectFailed env.now answer h.conn)
      · exact unstamped_or_renewed_connected hp env.now h.conn
    | idle | draining | handling | liveness =>
      rw [hpc'] at hw
      cases hw

theorem inv_resume (h : Inv p w) (hs : w.host.conn.Sound) (hp : p.livenessEnabled = true) {env : Env}
    (hsteady : w.Steady (.resume env)) (hok : w.Unmasked p (.resume env)) : Inv p (w.resume p env) := by
  by_cases hpc : w.host.pc = .liveness
  · exact inv_liveness h hp hpc (hsteady hpc) hok
  · rcases unstamped_or_renewed_resume hs hp hpc env with huns | hnew
    · unfold resume
      simp only [huns.epoch, ne_eq, not_true_eq_false, if_false, if_neg hpc, huns.toSilent.warnings_eq, Nat.add_zero]
      exact h.unstamped huns rfl
    · have hne : (w.host.resume p env).conn.epoch ≠ w.host.conn.epoch := by
        rw [hnew.epoch]
        omega
      unfold resume
      simp only [if_pos hne]
      exact ⟨fun _ => hnew.timeout, fun _ h0 => absurd h0 (Nat.lt_irrefl 0), Nat.zero_le 1, fun t ht => (by cases ht),
        Nat.le_of_eq hnew.ts, fun _ h0 => absurd h0 (Nat.lt_irrefl 0)⟩

/-- **Every unmasked step keeps the invariant.** -/
theorem inv_step (h : Inv p w) (hs : w.host.conn.Sound) (hp : p.livenessEnabled = true) {a : Act}
    (hsteady : w.Steady a) (hok : w.Unmasked p a) : Inv p (w.step p a) := by
  have hcall : (∀ env, a ≠ .resume env) → Silent w.host.conn (w.host.step p a).conn := Host.silent_call hs
  cases a with
  | resume env => exact inv_resume h hs hp hsteady hok
  | peekMessage found now =>
    cases found with
    | true => exact inv_peekMessage h (hcall (by simp))
    | false => exact h.unstamped ⟨hcall (by simp), rfl⟩ rfl
  | send accepted now =>
    cases accepted with
    | true => exact inv_send h (hcall (by simp))
    | false => exact h.unstamped ⟨hcall (by simp), (send_ts false now w.host.conn).trans (if_neg (by simp))⟩ rfl
  | «open» | close | pollSignal | poll | deliver =>
    exact h.unstamped (Host.unstamped_call hs (by simp) (by simp) (by simp)) rfl

theorem host_step (p : Policy) (w : Watch) (a : Act) : (w.step p a).host = w.host.step p a := by
  cases a with
  | resume env =>
    simp only [step, resume]
    split <;> rfl
  | peekMessage found now => cases found <;> rfl
  | send accepted now => cases accepted <;> rfl
  | _ => rfl

/-- **A dead peer is detected** in every run of unmasked steps: a connection that is `Connected` after a poll has
received a message, or been established, at most the liveness timeout before the clock reading of the poll, and
`LivenessThreatened` has been emitted at most once since then. -/
theorem dead_peer_detected (p : Policy) (hp : p.livenessEnabled = true) {as : List Act}
    (hr : Run (Step p) (Unmasked p) {} as w) :
    (∀ t, w.polled = some t → w.host.conn.state = .connected → t ≤ w.lastRx + p.timeout * ms) ∧ w.threatened ≤ 1 := by
  have hinv : Inv p w ∧ w.host.conn.Sound := by
    refine hr.invariant (I := fun w => Inv p w ∧ w.host.conn.Sound)
      ⟨⟨by rintro ⟨⟩, by rintro ⟨⟩, Nat.zero_le 1, fun _ ht => (by cases ht), Nat.le_refl 0, by rintro ⟨⟩⟩,
        Host.sound_new⟩ ?_
    rintro w a _ ⟨h, hs⟩ hok ⟨⟨-, hsteady⟩, rfl⟩
    refine ⟨inv_step h hs hp hsteady hok, ?_⟩
    rw [host_step]
    exact Host.sound_step hs a
  exact ⟨hinv.1.heard, hinv.1.once⟩

/-! ## Two runs -/

theorem run_steps {ok : Watch → Act → Prop} (as : List Act)
    (h : Admitted (step p) (fun w a => (w.host.Enabled a ∧ w.Steady a) ∧ ok w a) {} as) :
    Run (Step p) ok {} as (as.foldl (step p) {}) := by
  have hr : Run (Step p) (fun w a => (w.host.Enabled a ∧ w.Steady a) ∧ ok w a) {} as (as.foldl (step p) {}) :=
    Run.of_admitted (fun _ _ ha => ⟨ha.1, rfl⟩) h
  exact hr.mono fun _ _ ha => ha.2

/-- A poll that finds the control ring empty, at `t` seconds. -/
def pollAt (t : ℕ) : List Act :=
  [.poll, .resume ⟨t * 1000 * ms, t * 1000 * ms, .none⟩, .resume ⟨t * 1000 * ms, t * 1000 * ms, .none⟩]

instance (w : Watch) (a : Act) : Decidable (w.Steady a) :=
  match a with
  | .resume env => inferInstanceAs (Decidable (w.host.pc = .liveness → w.checked ≤ env.now))
  | .open .. | .close | .send .. | .peekMessage .. | .pollSignal | .poll | .deliver _ => inferInstanceAs (Decidable True)

instance (p : Policy) (w : Watch) (a : Act) : Decidable (w.Unmasked p a) :=
  match a with
  | .resume env => inferInstanceAs (Decidable (w.host.pc = .liveness → w.host.conn.state = .connected →
      (w.lastRx + p.timeout * ms < env.now' → ∀ t ∈ w.sentAt, t + p.timeout * ms < env.now') ∧
      (0 < w.threatened → ∀ t ∈ w.sentAt, remainingSince p env.now t ≤ warningThreshold p)))
  | .open .. | .close | .send .. | .peekMessage .. | .pollSignal | .poll | .deliver _ => inferInstanceAs (Decidable True)

/-- Warned after 13 seconds, the session pings; the pong comes at once. -/
def answered : List Act :=
  Host.opened ++ pollAt 13 ++
    ([.pollSignal, .pollSignal, .send true (13000 * ms), .peekMessage true (13001 * ms)] : List Act) ++ pollAt 16

theorem dead_peer_detected_answered :
    (answered.foldl (step defaultPolicy) {}).polled = some (16000 * ms) ∧
    (answered.foldl (step defaultPolicy) {}).host.conn.state = .connected ∧
    16000 * ms ≤ (answered.foldl (step defaultPolicy) {}).lastRx + defaultPolicy.timeout * ms :=
  ⟨by decide, by decide, (dead_peer_detected defaultPolicy rfl (run_steps answered (by decide))).1 _ (by decide)
    (by decide)⟩

/-- Each warning is answered by a ping, and no ping by the peer. -/
def unanswered : List Act :=
  Host.opened ++ pollAt 13 ++ ([.pollSignal, .pollSignal, .send true (13000 * ms)] : List Act) ++ pollAt 16 ++ pollAt 26

/-- Nothing has been received for 26 seconds: the connection is up, and the second warning has been given. -/
theorem ping_hides_dead_peer :
    Run (Step defaultPolicy) (fun _ _ => True) {} unanswered (unanswered.foldl (step defaultPolicy) {}) ∧
    (unanswered.foldl (step defaultPolicy) {}).polled = some (26000 * ms) ∧
    (unanswered.foldl (step defaultPolicy) {}).host.conn.state = .connected ∧
    (unanswered.foldl (step defaultPolicy) {}).lastRx + defaultPolicy.timeout * ms < 26000 * ms ∧
    (unanswered.foldl (step defaultPolicy) {}).threatened = 2 :=
  ⟨run_steps unanswered (by decide), by decide, by decide, by decide, by decide⟩

end Watch

end Wirekrak.Transport

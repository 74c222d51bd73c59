import Wirekrak.Transport.Ownership

/-!
# Wirekrak.Transport.UserClose — what follows a `close()` of the user

`close` does nothing in `Disconnecting`: the reason of the disconnect stays what it was, and the close event of the
transport is then resolved by that reason.  So a user close is final when the connection was not already
disconnecting for another reason, or when the retry policy never retries.

* `Closed p h`: the connection is down, or on its way down for a reason that is not retried.
* `closed_step`: every step but `open` keeps it, with the epoch, and logs no retry.
* `user_close_final`: the run lemma.
-/

namespace Wirekrak.Transport

open Wirekrak.Lib

/-- Signals that announce another attempt. -/
def Mark.retries (m : Mark) : Bool :=
  m = .signal .retryImmediate ∨ m = .signal .retryScheduled

/-- A call of `open`. -/
def Act.opens : Act → Bool
  | .open .. => true
  | _ => false

namespace Connection

variable {p : Policy} {c d : Connection}

/-- Down, or going down for good. -/
def Closed (p : Policy) (c : Connection) : Prop :=
  c.state = .disconnected ∨ (c.state = .disconnecting ∧ (c.disconnectReason = .localClose ∨ p.mode = .never))

/-- `d` is closed as well; nothing between `c` and `d` was an attempt or announced one. -/
structure Stays (p : Policy) (c d : Connection) : Prop where
  closed : Closed p d
  epoch : d.epoch = c.epoch
  log : ∃ l, d.log = c.log ++ l ∧ ∀ m ∈ l, m.retries = false

theorem Stays.of_eq (h : Closed p d) (he : d.epoch = c.epoch) (hl : d.log = c.log) : Stays p c d :=
  ⟨h, he, [], by rw [hl, List.append_nil], by simp⟩

theorem Stays.trans {e : Connection} (h : Stays p c d) (h' : Stays p d e) : Stays p c e := by
  obtain ⟨l, hl, hm⟩ := h.log
  obtain ⟨l', hl', hm'⟩ := h'.log
  refine ⟨h'.closed, h'.epoch.trans h.epoch, l ++ l', by rw [hl', hl, List.append_assoc], ?_⟩
  intro m hmem
  exact (List.mem_append.mp hmem).elim (hm m) (hm' m)

theorem Closed.close_eq (h : Closed p c) : c.close = c := by
  unfold Connection.close
  rcases h with h | ⟨h, -⟩ <;> simp [h]

/-- Emitting into a closed connection changes the signal ring and the log, whether or not there is room. -/
theorem Closed.emit (h : Closed p c) (sig : Signal) (hs : (Mark.signal sig).retries = false) :
    Stays p c (emit sig c) ∧ (emit sig c).state = c.state ∧
      (emit sig c).disconnectReason = c.disconnectReason := by
  unfold Connection.emit
  split
  · refine ⟨⟨h, rfl, [.signal sig], rfl, ?_⟩, rfl, rfl⟩
    simp [hs]
  · have hc : Closed p { c with log := c.log ++ [.lost sig] } := h
    rw [hc.close_eq]
    refine ⟨⟨hc, rfl, [.lost sig], rfl, ?_⟩, rfl, rfl⟩
    simp [Mark.retries]

/-- The close event of the transport is not answered by a retry. -/
theorem Closed.onTransportClosed (h : Closed p c) (now : ℕ) : Stays p c (onTransportClosed p now c) := by
  unfold Connection.onTransportClosed
  rcases h with h | ⟨h, hr⟩
  · rw [if_pos h]
    exact .of_eq (.inl h) rfl rfl
  · rw [if_neg (by rw [h]; decide), if_neg (by rw [h]; decide)]
    obtain ⟨he, hst, hre⟩ := Closed.emit (p := p) (.inr ⟨h, hr⟩) .disconnected (by decide)
    refine he.trans ?_
    have hno : ¬ ((Connection.emit .disconnected c).disconnectReason ≠ .localClose ∧
        p.shouldRetry (Connection.emit .disconnected c).lastError = true) := by
      rw [hre]
      rintro ⟨hl, hretry⟩
      rcases hr with hr | hr
      · exact hl hr
      · simp [Policy.shouldRetry, hr] at hretry
    simp only [Connection.transition, hst.trans h, resolveClosed, if_neg hno]
    exact .of_eq (.inl rfl) rfl rfl

theorem Closed.onEvent (h : Closed p c) (now : ℕ) (ev : Websocket.Event) : Stays p c (onEvent p now ev c) := by
  cases ev with
  | close => exact h.onTransportClosed now
  | error e =>
    change Stays p c (onTransportError e c)
    unfold onTransportError
    split
    · exact .of_eq h rfl rfl
    · next hn =>
      refine .of_eq ?_ rfl rfl
      rcases h with h | ⟨h, hr⟩
      · exact .inl h
      · exact .inr ⟨h, .inr (hr.resolve_left fun hl => hn (.inr hl))⟩
  | backpressureDetected => exact (h.emit _ (by decide)).1
  | backpressureCleared => exact (h.emit _ (by decide)).1

theorem Closed.not_connected (h : Closed p c) : c.state ≠ .connected ∧ c.state ≠ .waitingReconnect ∧
    c.state ≠ .connecting := by
  rcases h with h | ⟨h, -⟩ <;> rw [h] <;> decide

/-- **`close` closes**, unless the connection was already going down for a reason that is retried. -/
theorem closed_close (h : c.state = .disconnecting → c.disconnectReason = .localClose ∨ p.mode = .never) :
    Stays p c c.close := by
  unfold Connection.close
  split
  · next hd => exact .of_eq (.inl hd) rfl rfl
  · split
    · next hd => exact .of_eq (.inr ⟨hd, h hd⟩) rfl rfl
    · unfold closeRequested closeTransport destroyTransportIfNeeded
      split
      · next hd => exact .of_eq (.inl hd) rfl rfl
      · exact .of_eq (.inl rfl) rfl rfl
      · split
        · exact .of_eq (.inr ⟨rfl, .inl rfl⟩) rfl rfl
        · exact .of_eq (.inr ⟨rfl, .inl rfl⟩) rfl rfl
      · next hd => exact .of_eq (.inr ⟨hd, h hd⟩) rfl rfl
      · exact .of_eq (.inl rfl) rfl rfl

end Connection

namespace Host

open Connection

variable {p : Policy} {h : Host}

/-- **Every step but `open` keeps a closed connection closed.** -/
theorem closed_step (hc : Connection.Closed p h.conn) (hw : h.pc.waits = false) {a : Act} (ha : a.opens = false) :
    Stays p h.conn (h.step p a).conn ∧ (h.step p a).pc.waits = false := by
  obtain ⟨hn1, hn2, hn3⟩ := hc.not_connected
  cases a with
  | «open» url e => cases ha
  | close =>
    rw [step, hc.close_eq]
    exact ⟨.of_eq hc rfl rfl, hw⟩
  | send accepted now =>
    have hs : h.conn.send accepted now = h.conn := by rw [send, if_pos hn1]
    rw [step, hs]
    exact ⟨.of_eq hc rfl rfl, hw⟩
  | peekMessage found now =>
    obtain ⟨_, _, he⟩ := peekMessage_eq found now h.conn
    rw [step, he]
    exact ⟨.of_eq hc rfl rfl, hw⟩
  | pollSignal => exact ⟨.of_eq hc rfl rfl, hw⟩
  | poll =>
    simp only [step]
    split
    · exact ⟨.of_eq hc rfl rfl, hw⟩
    · exact ⟨.of_eq hc rfl rfl, rfl⟩
  | resume env =>
    change Stays p h.conn (h.resume p env).conn ∧ (h.resume p env).pc.waits = false
    unfold resume
    split
    · exact ⟨.of_eq hc rfl rfl, hw⟩
    · next he => rw [he] at hw; cases hw
    · split
      · exact ⟨.of_eq hc rfl rfl, rfl⟩
      · rw [if_neg fun hr => hn2 hr.1]
        exact ⟨.of_eq hc rfl rfl, rfl⟩
    · exact ⟨hc.onEvent _ _, rfl⟩
    · next he => rw [he] at hw; cases hw
    · have hl : (if p.livenessEnabled = true then enforceLivenessPolicy p env.now env.now' h.conn else h.conn) =
          h.conn := by
        unfold enforceLivenessPolicy
        rw [if_neg hn1, ite_self]
      rw [hl]
      exact ⟨.of_eq hc rfl rfl, rfl⟩
  | deliver ev =>
    obtain ⟨_, he⟩ := deliver_eq ev h.conn
    rw [step, he]
    exact ⟨.of_eq hc rfl rfl, hw⟩

/-- **A user close is final** when it does not meet a disconnect that is under way for a reason that is retried:
without a further `open` no attempt is made or announced. -/
theorem user_close_final (p : Policy) {s : Host} (hi : s.pc = .idle)
    (hc : s.conn.state = .disconnecting → s.conn.disconnectReason = .localClose ∨ p.mode = .never)
    {bs : List Act} {t : Host}
    (hcont : Run (Step p) (fun _ a => a.opens = false) (s.step p .close) bs t) :
    t.conn.state ≠ .connecting ∧ t.conn.epoch = s.conn.epoch ∧
      ∃ l, t.conn.log = s.conn.log ++ l ∧ Mark.signal .retryImmediate ∉ l ∧ Mark.signal .retryScheduled ∉ l := by
  have hw : (s.step p .close).pc.waits = false := by
    change s.pc.waits = false
    rw [hi]
    rfl
  have hinv : Stays p s.conn t.conn ∧ t.pc.waits = false := by
    refine hcont.invariant (I := fun t => Stays p s.conn t.conn ∧ t.pc.waits = false) ⟨closed_close hc, hw⟩ ?_
    rintro u a _ ⟨hu, hwu⟩ ha ⟨-, rfl⟩
    obtain ⟨hs, hws⟩ := closed_step hu.closed hwu ha
    exact ⟨hu.trans hs, hws⟩
  obtain ⟨l, hl, hm⟩ := hinv.1.log
  refine ⟨hinv.1.closed.not_connected.2.2, hinv.1.epoch, l, hl, ?_, ?_⟩
  · exact fun hmem => absurd (hm _ hmem) (by decide)
  · exact fun hmem => absurd (hm _ hmem) (by decide)

/-- A connect that succeeds at time `1`. -/
def opened : List Act :=
  [.open "ws://a".toList .none, .resume ⟨1, 1, .none⟩]

/-- The transport closes and the connection polls, its connects succeeding. -/
def closeAndPoll : List Act :=
  [.deliver .close, .poll, .resume ⟨2, 2, .none⟩, .resume ⟨2, 2, .none⟩, .resume ⟨2, 2, .none⟩,
   .resume ⟨2, 2, .none⟩]

/-- Closed while `Connected`, the connection stays down. -/
theorem user_close_final_connected :
    (closeAndPoll.foldl (step defaultPolicy) ((after defaultPolicy opened).step defaultPolicy .close)).conn.epoch =
      (after defaultPolicy opened).conn.epoch :=
  (user_close_final defaultPolicy (s := after defaultPolicy opened) (by decide) (by decide)
    (run_steps _ (by decide))).2.1

/-- Nothing is received for 16 seconds: the poll forces the transport closed. -/
def expired : List Act :=
  opened ++ ([.poll, .resume ⟨2, 2, .none⟩, .resume ⟨16000000002, 16000000002, .none⟩] : List Act)

/-- Closed by the user after a liveness timeout, the connection announces a retry and connects again. -/
theorem close_after_timeout_reconnects :
    Run (Step defaultPolicy) (fun _ _ => True) {} expired (after defaultPolicy expired) ∧
    (after defaultPolicy expired).pc = .idle ∧ (after defaultPolicy expired).conn.state = .disconnecting ∧
    Run (Step defaultPolicy) (fun _ a => a.opens = false) ((after defaultPolicy expired).step defaultPolicy .close)
      closeAndPoll
      (closeAndPoll.foldl (step defaultPolicy) ((after defaultPolicy expired).step defaultPolicy .close)) ∧
    (after defaultPolicy expired).conn.epoch = 1 ∧ Mark.signal .retryImmediate ∉ (after defaultPolicy expired).conn.log ∧
    (closeAndPoll.foldl (step defaultPolicy)
      ((after defaultPolicy expired).step defaultPolicy .close)).conn.epoch = 2 ∧
    Mark.signal .retryImmediate ∈ (closeAndPoll.foldl (step defaultPolicy)
      ((after defaultPolicy expired).step defaultPolicy .close)).conn.log :=
  ⟨run_steps _ (by decide), by decide, by decide, run_steps _ (by decide), by decide, by decide, by decide, by decide⟩

end Host

end Wirekrak.Transport

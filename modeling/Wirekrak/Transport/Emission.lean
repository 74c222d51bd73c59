import Wirekrak.Transport.DeadEnd

/-!
# Wirekrak.Transport.Emission — what the engine's thread says

`Engine.Says e e' l`: a piece of the thread's code puts the events `l` into the outbox.  Every change of the
backpressure flag is announced by one event, and the close event is said once, as the last.
-/

namespace Wirekrak.Transport

open Wirekrak.Lib

/-- The signals that control events are passed on as. -/
def pressures (l : List Websocket.Event) : List Signal :=
  l.flatMap Websocket.Event.pressure

theorem pressures_append (l l' : List Websocket.Event) : pressures (l ++ l') = pressures l ++ pressures l' :=
  List.flatMap_append

theorem pressures_cons (ev : Websocket.Event) (l : List Websocket.Event) :
    pressures (ev :: l) = ev.pressure ++ pressures l :=
  List.flatMap_cons

/-! ## What the thread puts into its outbox -/

namespace Engine

variable {q : Pressure} {e e' : Engine} {l : List Websocket.Event}

/-- The signals that tell a change of the flag. -/
def change (before after : Bool) : List Signal :=
  if before = after then [] else [if after then .backpressureDetected else .backpressureCleared]

/-- The events `l` are put into the outbox: one for a change of the flag, and the close event as the last, once. -/
structure Says (e e' : Engine) (l : List Websocket.Event) : Prop where
  outbox : e'.outbox = e.outbox ++ l
  pressure : pressures l = change e.backpressureActive e'.backpressureActive
  close : (Websocket.Event.close ∉ l ∧ e'.closeSignaled = e.closeSignaled) ∨
    ∃ l₀ : List Websocket.Event, l = l₀ ++ [Websocket.Event.close] ∧ Websocket.Event.close ∉ l₀ ∧
      e.closeSignaled = false ∧ e'.closeSignaled = true

theorem Says.nothing (ho : e'.outbox = e.outbox) (ha : e'.backpressureActive = e.backpressureActive)
    (hc : e'.closeSignaled = e.closeSignaled) : Says e e' [] :=
  ⟨by rw [ho, List.append_nil], by rw [ha, change, if_pos rfl]; rfl, .inl ⟨List.not_mem_nil, hc⟩⟩

/-- What follows a piece that leaves the close event unsaid, and itself says nothing of backpressure. -/
theorem Says.andThen {e'' : Engine} {l' : List Websocket.Event} (h : Says e e' l) (hc : e'.closeSignaled = false)
    (h' : Says e' e'' l') (ha : e''.backpressureActive = e'.backpressureActive) : Says e e'' (l ++ l') := by
  have hl : .close ∉ l ∧ e'.closeSignaled = e.closeSignaled := by
    rcases h.close with h1 | ⟨_, _, _, _, h1⟩
    · exact h1
    · rw [hc] at h1
      cases h1
  refine ⟨by rw [h'.outbox, h.outbox, List.append_assoc], ?_, ?_⟩
  · rw [pressures_append, h.pressure, h'.pressure, ha]
    have hnone : change e'.backpressureActive e'.backpressureActive = [] := if_pos rfl
    rw [hnone, List.append_nil]
  · rcases h'.close with ⟨hn, hs⟩ | ⟨l₀, rfl, hn, hs, hs'⟩
    · exact .inl ⟨by simp [hl.1, hn], hs.trans hl.2⟩
    · exact .inr ⟨l ++ l₀, (List.append_assoc ..).symm, by simp [hl.1, hn], hl.2.symm.trans hs, hs'⟩

/-- A change of the flag is said; nothing else is touched. -/
theorem says_updateBackpressureState (e : Engine) : ∃ l, Says e (updateBackpressureState e) l ∧
    (updateBackpressureState e).closeSignaled = e.closeSignaled ∧ (updateBackpressureState e).running = e.running := by
  unfold updateBackpressureState
  split
  · exact ⟨[], .nothing rfl rfl rfl, rfl, rfl⟩
  · next hp =>
    refine ⟨_, ⟨rfl, ?_, .inl ⟨?_, rfl⟩⟩, rfl, rfl⟩
    · have hc : change e.backpressureActive e.pressed =
          [if e.pressed then .backpressureDetected else .backpressureCleared] := if_neg (Ne.symm hp)
      refine Eq.trans ?_ hc.symm
      cases e.pressed <;> rfl
    · cases e.pressed <;> simp

theorem says_noteRing (r : Hysteresis × Transition) (e : Engine) : ∃ l, Says e (noteRing r e) l ∧
    (noteRing r e).closeSignaled = e.closeSignaled ∧ (noteRing r e).running = e.running := by
  unfold noteRing
  split
  · exact ⟨[], .nothing rfl rfl rfl, rfl, rfl⟩
  · obtain ⟨l, hl, hc, hr⟩ := says_updateBackpressureState { e with ringBackpressure := r.1 }
    exact ⟨l, ⟨hl.outbox, hl.pressure, hl.close⟩, hc, hr⟩

theorem says_notePool (r : Hysteresis × Transition) (e : Engine) : ∃ l, Says e (notePool r e) l ∧
    (notePool r e).closeSignaled = e.closeSignaled ∧ (notePool r e).running = e.running := by
  unfold notePool
  split
  · exact ⟨[], .nothing rfl rfl rfl, rfl, rfl⟩
  · obtain ⟨l, hl, hc, hr⟩ := says_updateBackpressureState { e with poolBackpressure := r.1 }
    exact ⟨l, ⟨hl.outbox, hl.pressure, hl.close⟩, hc, hr⟩

theorem says_grant (got : Acquired) (e : Engine) : ∃ l, Says e (grant q got e) l ∧
    (grant q got e).closeSignaled = e.closeSignaled ∧ (grant q got e).running = e.running := by
  unfold grant
  split
  · exact ⟨[], .nothing rfl rfl rfl, rfl, rfl⟩
  · cases got with
    | slot => exact says_noteRing _ e
    | block => exact says_notePool _ e
    | nothing => exact ⟨[], .nothing rfl rfl rfl, rfl, rfl⟩

/-- The end of the thread: events that say nothing of backpressure, then the close event. -/
theorem says_signalClose {f : Engine} (hc : e.closeSignaled = false) (hl : pressures l = []) (hn : .close ∉ l)
    (ho : f.outbox = e.outbox ++ l) (ha : f.backpressureActive = e.backpressureActive)
    (hs : f.closeSignaled = e.closeSignaled) : Says e (signalClose f) (l ++ [.close]) ∧
    (signalClose f).backpressureActive = e.backpressureActive ∧ (signalClose f).running = f.running ∧
    (signalClose f).loop = f.loop := by
  have hne : ¬ f.closeSignaled = true := by
    rw [hs, hc]
    decide
  unfold signalClose
  rw [if_neg hne]
  refine ⟨⟨?_, ?_, .inr ⟨l, rfl, hn, hc, rfl⟩⟩, ha, rfl, rfl⟩
  · change f.outbox ++ [Websocket.Event.close] = _
    rw [ho, List.append_assoc]
  · rw [pressures_append, hl]
    have hnone : change e.backpressureActive f.backpressureActive = [] := if_pos ha.symm
    exact hnone.symm

theorem says_handleFatalError (hc : e.closeSignaled = false) (error : Error) :
    ∃ l, Says e (handleFatalError error e) l ∧ (handleFatalError error e).backpressureActive = e.backpressureActive ∧
      (handleFatalError error e).running = false ∧ (handleFatalError error e).loop = e.loop := by
  unfold handleFatalError
  split
  · obtain ⟨h, ha, hr, hl⟩ := says_signalClose (e := e) (l := [.error error])
      (f := emitEvent (.error error) { e with running := false }) hc rfl (by simp) rfl rfl rfl
    exact ⟨_, h, ha, hr, hl⟩
  · next hr => exact ⟨[], .nothing rfl rfl rfl, rfl, by simpa using hr, rfl⟩

/-- A read result ends the thread or sends it back to the loop condition. -/
theorem says_receive (hc : e.closeSignaled = false) (r : Websocket.ReadResult) :
    ∃ l, Says e (receive r e) l ∧ (receive r e).backpressureActive = e.backpressureActive ∧
      (receive r e).loop ≠ .body ∧ ((receive r e).closeSignaled = true → (receive r e).running = false) := by
  have herror : ∀ err : Error, ∃ l, Says e (exit { emitEvent (.error err) e with running := false }) l ∧
      (exit { emitEvent (.error err) e with running := false }).backpressureActive = e.backpressureActive ∧
      (exit { emitEvent (.error err) e with running := false }).loop ≠ .body ∧
      ((exit { emitEvent (.error err) e with running := false }).closeSignaled = true →
        (exit { emitEvent (.error err) e with running := false }).running = false) := by
    intro err
    obtain ⟨h, ha, hr, hl⟩ := says_signalClose (e := e) (l := [.error err])
      (f := { emitEvent (.error err) e with running := false, loop := .exited }) hc rfl (by simp) rfl rfl rfl
    exact ⟨_, h, ha, by rw [exit, hl]; simp, fun _ => hr⟩
  unfold receive
  split
  · exact herror _
  · split
    · split
      · exact herror _
      · obtain ⟨h, ha, hr, hl⟩ := says_signalClose (e := e) (l := [])
          (f := { e with running := false, loop := .exited }) hc rfl (by simp) (List.append_nil _).symm rfl rfl
        exact ⟨_, h, ha, by rw [exit, hl]; simp, fun _ => hr⟩
    · split
      · exact herror _
      · refine ⟨[], .nothing rfl rfl rfl, rfl, by simp, fun h => ?_⟩
        rw [show _ = e.closeSignaled from rfl, hc] at h
        cases h

/-- **A turn of the loop** says at most one change of the flag, and ends the thread if it says the close event. -/
theorem says_turn (hc : e.closeSignaled = false) (t : Turn) :
    ∃ l, Says e (turn q t e) l ∧ (turn q t e).loop ≠ .body ∧
      ((turn q t e).closeSignaled = true → (turn q t e).running = false) := by
  have hrefuse : ∀ pool, ∃ l, Says e { refuse q pool e with loop := .head } l ∧ Loop.head ≠ .body ∧
      ((refuse q pool e).closeSignaled = true → (refuse q pool e).running = false) := by
    intro pool
    unfold refuse
    split
    · obtain ⟨l, h, -, hr, -⟩ := says_handleFatalError hc .backpressure
      exact ⟨l, ⟨h.outbox, h.pressure, h.close⟩, by decide, fun _ => hr⟩
    · split
      · obtain ⟨l, h, hs, -⟩ := says_notePool (e.poolBackpressure.onActiveSignal q.activate) e
        refine ⟨l, ⟨h.outbox, h.pressure, h.close⟩, by decide, fun h' => ?_⟩
        rw [hs, hc] at h'
        cases h'
      · obtain ⟨l, h, hs, -⟩ := says_noteRing (e.ringBackpressure.onActiveSignal q.activate) e
        refine ⟨l, ⟨h.outbox, h.pressure, h.close⟩, by decide, fun h' => ?_⟩
        rw [hs, hc] at h'
        cases h'
  cases t with
  | saturated => exact hrefuse false
  | exhausted => exact hrefuse true
  | received got r =>
    obtain ⟨l, hl, hs, -⟩ := says_grant (q := q) got e
    have hc' := hs.trans hc
    obtain ⟨l', hl', ha, hloop, hq⟩ := says_receive hc' r
    exact ⟨l ++ l', hl.andThen hc' hl' ha, hloop, hq⟩

/-- The loop condition says nothing, or the close event for the first time. -/
theorem says_check (hq : e.closeSignaled = true → e.running = false) :
    ∃ l, Says e (check e) l ∧ (e.closeSignaled = false ∨ l = []) ∧
      (check e).backpressureActive = e.backpressureActive ∧ (check e).running = e.running ∧
      ((check e).closeSignaled = true → e.running = false) ∧ (e.running = false → (check e).loop ≠ .body) := by
  unfold check
  split
  · next hr =>
    refine ⟨[], .nothing rfl rfl rfl, .inr rfl, rfl, rfl, hq, fun h => ?_⟩
    rw [h] at hr
    cases hr
  · next hr =>
    have hr' : e.running = false := by simpa using hr
    by_cases hc : e.closeSignaled = true
    · have he : exit e = { e with loop := .exited } := by
        unfold exit signalClose
        rw [if_pos hc]
      rw [he]
      exact ⟨[], .nothing rfl rfl rfl, .inr rfl, rfl, rfl, fun _ => hr', fun _ => by simp⟩
    · have hc' : e.closeSignaled = false := by simpa using hc
      obtain ⟨h, ha, hrun, hl⟩ := says_signalClose (e := e) (l := []) (f := { e with loop := .exited })
        hc' rfl (by simp) (List.append_nil _).symm rfl rfl
      exact ⟨_, h, .inl hc', ha, hrun, fun _ => hr', fun _ => by rw [exit, hl]; simp⟩

end Engine

end Wirekrak.Transport

import Wirekrak.Protocol.Confluence
import Wirekrak.Protocol.Losses

/-!
# Wirekrak.Protocol.Recovery — what comes back after a loss

Over the runs of `Losses`, with connections that take every message while they are up.

* `AllAsked`: each pending request has been handed over on the connection that stands; one lemma for each operation.
* `pending_is_asked`: this holds in every live state, so that every pending request can be answered.
* `recovers`: after a loss, the replay and the ACKs of it, in every order, bring back what was subscribed.
-/

namespace Wirekrak.Protocol

open Wirekrak.Lib

namespace Session

variable {Sym P : Type} [DecidableEq Sym]

/-! ## What is pending has been asked for -/

/-- The message that asks for `(id, x)` has been handed over on this connection. -/
def Asked (s : Session Sym P) (kind : Kind) (ch : Channel) (id : ReqId) (x : Sym) : Prop :=
  ∃ m ∈ s.emitted, m.epoch = s.epoch ∧ m.kind = kind ∧ m.channel = ch ∧ m.Asks id x

/-- The pending requests of both directions have been asked for. -/
structure AllAsked (s : Session Sym P) : Prop where
  sub : ∀ ch id x, (s.managers ch).pendingSubscriptions.Owns id x → s.Asked .subscribe ch id x
  unsub : ∀ ch id x, (s.managers ch).pendingUnsubscriptions.Owns id x → s.Asked .unsubscribe ch id x

/-- While the connection is up, it takes every message. -/
def Untroubled (s : Session Sym P) : Event Sym P → Prop
  | .subscribe _ _ accept | .unsubscribe _ _ accept | .pollSignal _ accept => s.connected = true → ∀ m, accept m = true
  | _ => True

omit [DecidableEq Sym] in
theorem takes_of_connected {pol : Policy} {s : Session Sym P} {accept : Request Sym P → Bool}
    (hc : s.connected = true) (hall : ∀ m, accept m = true) (m : Request Sym P) : s.takes pol accept m = true := by
  unfold takes
  cases pol.mode <;> simp [hc, hall m]

omit [DecidableEq Sym] in
theorem Asked.mono {s u : Session Sym P} (he : u.epoch = s.epoch) (hem : ∀ m ∈ s.emitted, m ∈ u.emitted) {kind : Kind}
    {ch : Channel} {id : ReqId} {x : Sym} (h : s.Asked kind ch id x) : u.Asked kind ch id x := by
  obtain ⟨m, hm, h1, h2⟩ := h
  exact ⟨m, hem m hm, h1.trans he.symm, h2⟩

omit [DecidableEq Sym] in
/-- When nothing is refused, a request is asked for in all its symbols. -/
theorem asked_emitRequest {pol : Policy} {accept : Request Sym P → Bool} {s : Session Sym P}
    (hall : ∀ m, s.takes pol accept m = true) (kind : Kind) (ch : Channel) {req : Request Sym P} {id : ReqId}
    (hid : req.reqId = some id) {x : Sym} (hx : x ∈ req.symbols) :
    (s.emitRequest pol accept kind ch req).2.Asked kind ch id x := by
  obtain ⟨r, hr, hxr⟩ := mem_messages pol hx
  refine ⟨⟨s.epoch, kind, ch, r⟩, List.mem_append_right _ ?_, rfl, rfl, rfl, (messages_reqId hr).trans hid, hxr⟩
  rw [sendAll_of_accept fun m _ => hall m]
  exact List.mem_map.mpr ⟨r, hr, rfl⟩

omit [DecidableEq Sym] in
/-- What becomes of the pending requests when none is added. -/
theorem AllAsked.shrink {s u : Session Sym P} (h : s.AllAsked) (he : u.epoch = s.epoch) (hem : u.emitted = s.emitted)
    (hs : ∀ ch id x, (u.managers ch).pendingSubscriptions.Owns id x → (s.managers ch).pendingSubscriptions.Owns id x)
    (hu : ∀ ch id x, (u.managers ch).pendingUnsubscriptions.Owns id x →
      (s.managers ch).pendingUnsubscriptions.Owns id x) : u.AllAsked where
  sub := fun ch id x ho => (h.sub ch id x (hs ch id x ho)).mono he fun _ hm => hem ▸ hm
  unsub := fun ch id x ho => (h.unsub ch id x (hu ch id x ho)).mono he fun _ hm => hem ▸ hm

omit [DecidableEq Sym] in
theorem allAsked_of_empty {s : Session Sym P} (h : ∀ ch, s.managers ch = .empty) : s.AllAsked where
  sub := fun ch _ _ ho => absurd ho (not_owns_of_empty (h ch)).1
  unsub := fun ch _ _ ho => absurd ho (not_owns_of_empty (h ch)).2

section Asked

variable {pol : Policy} {accept : Request Sym P → Bool} {s : Session Sym P} (hs : s.Sound) (h : s.AllAsked)

include hs h

theorem allAsked_place (hall : ∀ m, s.takes pol accept m = true) (ch : Channel) (req : Request Sym P) (id : ReqId) :
    (s.place pol accept ch req id).2.AllAsked := by
  obtain ⟨hacc, -, -, hun, hown⟩ := Manager.registerSubscription_spec (hs.mgr ch) req.symbols id
  have hkeep : ∀ {kind c i y}, s.Asked kind c i y → (s.place pol accept ch req id).2.Asked kind c i y := fun ha =>
    ha.mono (place_epoch _ _ _ _ _) fun m hm => emitted_subset_place _ _ _ _ _ hm
  have hnew : ∀ x ∈ (s.managers ch).accepted req.symbols,
      (s.place pol accept ch req id).2.Asked .subscribe ch id x := by
    intro x hx
    rw [← hacc] at hx
    unfold place
    dsimp only
    rw [if_neg (List.ne_nil_of_mem hx)]
    split_ifs
    · exact asked_emitRequest hall .subscribe ch rfl hx
    · exact asked_emitRequest hall .subscribe ch rfl hx
  constructor
  · intro c i y ho
    rw [place_managers] at ho
    by_cases hc : c = ch
    · subst hc
      rw [Function.update_self] at ho
      rcases (hown i y).mp ho with ho | ⟨rfl, hy⟩
      · exact hkeep (h.sub c i y ho)
      · exact hnew y hy
    · rw [Function.update_of_ne hc] at ho
      exact hkeep (h.sub c i y ho)
  · intro c i y ho
    rw [place_managers] at ho
    by_cases hc : c = ch
    · subst hc
      rw [Function.update_self, hun] at ho
      exact hkeep (h.unsub c i y ho)
    · rw [Function.update_of_ne hc] at ho
      exact hkeep (h.unsub c i y ho)

theorem allAsked_subscribe (hall : s.connected = true → ∀ m, accept m = true) (hc : s.connected = true)
    (ch : Channel) (req : Request Sym P) : (s.subscribe pol accept ch req).2.AllAsked := by
  unfold subscribe
  split_ifs
  · exact h
  · refine allAsked_place ⟨?_, ?_⟩ (h.shrink ?_ ?_ (fun c i y ho => ?_) (fun c i y ho => ?_)) (fun m => ?_) ch req _
    · rw [assignReqId_managers]; exact hs.mgr
    · rw [assignReqId_replayDb]; exact hs.tab
    · exact congrArg Prod.fst link_assignReqId
    · exact assignReqId_emitted s req
    · rwa [assignReqId_managers] at ho
    · rwa [assignReqId_managers] at ho
    · exact takes_of_connected ((congrArg (fun l => l.2.2) link_assignReqId).trans hc) (hall hc) m

theorem allAsked_unsubscribe (hall : s.connected = true → ∀ m, accept m = true) (hc : s.connected = true)
    (ch : Channel) (req : Request Sym P) : (s.unsubscribe pol accept ch req).2.AllAsked := by
  set id := s.requestId req with hid
  set e := (s.assignReqId req).emitRequest pol accept .unsubscribe ch { req with reqId := some id } with he
  have htakes : ∀ m, (s.assignReqId req).takes pol accept m = true :=
    takes_of_connected ((congrArg (fun l => l.2.2) link_assignReqId).trans hc) (hall hc)
  have hman : e.2.managers = s.managers := by rw [he, emitRequest_managers, assignReqId_managers]
  have hkeep : ∀ {kind c i y}, s.Asked kind c i y → e.2.Asked kind c i y := by
    intro kind c i y ha
    have hepoch : e.2.epoch = s.epoch := (congrArg Prod.fst link_assignReqId : (s.assignReqId req).epoch = s.epoch)
    refine ha.mono hepoch fun m hm => ?_
    exact emitted_subset_emitRequest _ _ _ _ _ _ ((assignReqId_emitted s req).symm ▸ hm)
  have hnew : ∀ x ∈ req.symbols, e.2.Asked .unsubscribe ch id x := fun x hx =>
    asked_emitRequest (s := s.assignReqId req) htakes .unsubscribe ch rfl hx
  obtain ⟨-, -, -, hsub, -⟩ := Manager.registerUnsubscription_spec (hs.mgr ch) req.symbols id
  have hunsub := Manager.owns_registerUnsubscription (hs.mgr ch) req.symbols id
  have hall' : ∀ u : Session Sym P, u.epoch = e.2.epoch → u.emitted = e.2.emitted →
      u.managers = Function.update s.managers ch ((s.managers ch).registerUnsubscription req.symbols id).2 →
      u.AllAsked := by
    intro u hue hum hu
    have hto : ∀ {kind c i y}, e.2.Asked kind c i y → u.Asked kind c i y := fun ha =>
      ha.mono hue fun _ hm => hum ▸ hm
    constructor
    · intro c i y ho
      rw [hu] at ho
      by_cases hcc : c = ch
      · subst hcc
        rw [Function.update_self] at ho
        exact hto (hkeep (h.sub c i y ((hsub i y).mp ho).1))
      · rw [Function.update_of_ne hcc] at ho
        exact hto (hkeep (h.sub c i y ho))
    · intro c i y ho
      rw [hu] at ho
      by_cases hcc : c = ch
      · subst hcc
        rw [Function.update_self] at ho
        rcases (hunsub i y).mp ho with ho | ⟨rfl, hy, -⟩
        · exact hto (hkeep (h.unsub c i y ho))
        · exact hto (hnew y hy)
      · rw [Function.update_of_ne hcc] at ho
        exact hto (hkeep (h.unsub c i y ho))
  unfold unsubscribe
  dsimp only
  rw [← hid, ← he]
  split_ifs
  · exact hall' _ rfl rfl (by dsimp only; rw [hman])
  · exact hall' _ rfl rfl (by dsimp only; rw [hman])
  · exact ⟨fun c i y ho => hkeep (h.sub c i y (hman ▸ ho)), fun c i y ho => hkeep (h.unsub c i y (hman ▸ ho))⟩

theorem allAsked_replayChannel (hall : ∀ m, s.takes pol accept m = true) {order : Table.Order Sym P} (ch : Channel) :
    (s.replayChannel pol accept order ch).AllAsked := by
  have hfold : ∀ (reqs : List (Request Sym P)) (s : Session Sym P), s.Sound → s.AllAsked →
      (∀ m, s.takes pol accept m = true) → (reqs.foldl (reSubscribe pol accept ch) s).AllAsked := by
    intro reqs
    induction reqs with
    | nil => exact fun s _ h _ => h
    | cons r reqs ih =>
      intro s hs h hall
      refine ih _ (sound_place hs _ _ _ _) (allAsked_place hs h hall ch r _) fun m => ?_
      exact (takes_congr (place_connected accept s ch r _) m).trans (hall m)
  refine hfold _ _ ⟨hs.mgr, forall_update hs.tab Table.wf_empty⟩ ?_ hall
  exact h.shrink rfl rfl (fun _ _ _ ho => ho) fun _ _ _ ho => ho

theorem allAsked_doReplay (hall : ∀ m, s.takes pol accept m = true) {order : Table.Order Sym P} :
    (s.doReplay pol accept order).AllAsked := by
  unfold doReplay
  split_ifs
  · refine allAsked_replayChannel (sound_replayChannel hs _ _ _) (allAsked_replayChannel hs h hall .trade)
      (fun m => ?_) .book
    have hc : (s.replayChannel pol accept order .trade).connected = s.connected :=
      congrArg (fun l => l.2.2) link_replayChannel
    exact (takes_congr hc m).trans (hall m)
  · exact h

/-- No answer adds a pending request. -/
theorem allAsked_answer (op : Manager.Op Sym) (hop : ∀ i, ¬ op.Registers i) (ch : Channel) {u : Session Sym P}
    (he : u.epoch = s.epoch) (hem : u.emitted = s.emitted)
    (hu : u.managers = Function.update s.managers ch ((s.managers ch).apply op)) : u.AllAsked := by
  have hless : ∀ c i y, ((u.managers c).pendingSubscriptions.Owns i y → (s.managers c).pendingSubscriptions.Owns i y) ∧
      ((u.managers c).pendingUnsubscriptions.Owns i y → (s.managers c).pendingUnsubscriptions.Owns i y) := by
    intro c i y
    rw [hu]
    by_cases hc : c = ch
    · subst hc
      rw [Function.update_self]
      exact Manager.owns_of_apply (hs.mgr c) (hop i) y
    · rw [Function.update_of_ne hc]
      exact ⟨fun ho => ho, fun ho => ho⟩
  exact h.shrink he hem (fun c i y => (hless c i y).1) fun c i y => (hless c i y).2

theorem allAsked_onRejection (id : ReqId) (x : Sym) : (s.onRejection pol id x).AllAsked := by
  have hless : ∀ c, ((s.onRejection pol id x).managers c).Wf ∧ ∀ i y,
      (((s.onRejection pol id x).managers c).pendingSubscriptions.Owns i y →
        (s.managers c).pendingSubscriptions.Owns i y) ∧
      (((s.onRejection pol id x).managers c).pendingUnsubscriptions.Owns i y →
        (s.managers c).pendingUnsubscriptions.Owns i y) := by
    refine forall_firstDone_of (p := fun c (m : Manager Sym) => m.Wf ∧ ∀ i y,
      (m.pendingSubscriptions.Owns i y → (s.managers c).pendingSubscriptions.Owns i y) ∧
      (m.pendingUnsubscriptions.Owns i y → (s.managers c).pendingUnsubscriptions.Owns i y))
      (fun c m hm => ⟨Manager.wf_apply hm.1 (.rejection id x), fun i y => ?_⟩)
      (fun c => ⟨hs.mgr c, fun i y => ⟨fun ho => ho, fun ho => ho⟩⟩)
    have hno : ¬ (Manager.Op.rejection id x : Manager.Op Sym).Registers i := not_false
    have happly := Manager.owns_of_apply hm.1 hno y
    exact ⟨fun ho => (hm.2 i y).1 (happly.1 ho), fun ho => (hm.2 i y).2 (happly.2 ho)⟩
  exact h.shrink rfl rfl (fun c i y => ((hless c).2 i y).1) fun c i y => ((hless c).2 i y).2

end Asked

/-- One step: on a live connection that is up, what is pending stays asked for. -/
theorem allAsked_step {pol : Policy} (hr : pol.replay = true) {t : Session Sym P × Track Sym} (hs : t.1.Steady t.2)
    (h : Live t → t.1.connected = true → t.1.AllAsked) {ev : Event Sym P} (hok : Allowed t ev)
    (hall : t.1.Untroubled ev) (hlive : Live (watch pol t ev)) (hc : (watch pol t ev).1.connected = true) :
    (watch pol t ev).1.AllAsked := by
  obtain ⟨s, k⟩ := t
  cases ev with
  | subscribe ch req accept =>
    have hc : s.connected = true := (congrArg (fun l => l.2.2) link_subscribe).symm.trans hc
    exact allAsked_subscribe hs.sound (h hok.1 hc) hall hc ch req
  | unsubscribe ch req accept =>
    have hc : s.connected = true := (congrArg (fun l => l.2.2) link_unsubscribe).symm.trans hc
    exact allAsked_unsubscribe hs.sound (h hok.1 hc) hall hc ch req
  | subscribeAck ch id x success =>
    exact allAsked_answer hs.sound (h hlive hc) (.subscribeAck id x success) (fun _ => not_false) ch rfl rfl rfl
  | unsubscribeAck ch id x success =>
    have hlink : (s.onUnsubscribeAck pol ch id x success).link = s.link := link_onUnsubscribeAck
    have hsig : s.signals = [] := (congrArg (fun l => l.2.1) hlink).symm.trans hlive.2
    have hc : s.connected = true := (congrArg (fun l => l.2.2) hlink).symm.trans hc
    refine allAsked_answer hs.sound (h ⟨hlive.1, hsig⟩ hc) (.unsubscribeAck id x success)
      (fun _ => not_false) ch (congrArg Prod.fst hlink) ?_ ?_
    · simp only [watch, step, onUnsubscribeAck]
      split_ifs <;> rfl
    · simp only [watch, step, onUnsubscribeAck]
      split_ifs <;> rfl
  | rejection id x => exact allAsked_onRejection hs.sound (h hlive hc) id x
  | transportConnected => exact absurd hlive.2 (by simp [watch, step])
  | transportClosing => cases hc
  | transportClosed => cases hc
  | pollSignal order accept =>
    obtain ⟨told, hleads, hdown, -⟩ := hs.phase
    have hall : s.connected = true → ∀ m, accept m = true := hall
    simp only [watch, step, pollSignal] at hlive hc ⊢
    cases hsig : s.signals with
    | nil =>
      rw [hsig] at hlive hc
      exact h ⟨hlive.1, hsig⟩ hc
    | cons sig rest =>
      rw [hsig] at hleads hc
      cases sig with
      | disconnected => exact allAsked_of_empty fun _ => rfl
      | connected =>
        simp only [handleConnectionSignal, handleConnect, hr, if_true] at hc ⊢
        have hc : s.connected = true := (congrArg (fun l => l.2.2) link_doReplay).symm.trans hc
        refine allAsked_doReplay (s := { s with signals := rest }) ⟨hs.sound.mgr, hs.sound.tab⟩
          (allAsked_of_empty fun ch => hdown hleads.1 ch) fun m => ?_
        exact takes_of_connected (s := { s with signals := rest }) hc (hall hc) m

theorem allAsked_run {pol : Policy} (hr : pol.replay = true) {ok : Session Sym P × Track Sym → Event Sym P → Prop}
    (hok : ∀ t ev, ok t ev → Allowed t ev ∧ t.1.Untroubled ev) {evs : List (Event Sym P)}
    {t u : Session Sym P × Track Sym} (hrun : Run (fun t ev u => u = watch pol t ev) ok t evs u)
    (ht : t.1.Steady t.2) (hask : Live t → t.1.connected = true → t.1.AllAsked) :
    Live u → u.1.connected = true → u.1.AllAsked := by
  have hboth : u.1.Steady u.2 ∧ (Live u → u.1.connected = true → u.1.AllAsked) := by
    refine hrun.invariant (I := fun t => t.1.Steady t.2 ∧ (Live t → t.1.connected = true → t.1.AllAsked))
      ⟨ht, hask⟩ ?_
    rintro t ev v ⟨hs, ha⟩ hadm rfl
    obtain ⟨h1, h2⟩ := hok t ev hadm
    exact ⟨steady_step hr hs h1, allAsked_step hr hs ha h1 h2⟩
  exact hboth.2

/-- No call and no answer. -/
def OfLink : Event Sym P → Prop
  | .transportConnected | .transportClosing | .transportClosed | .pollSignal _ _ => True
  | _ => False

theorem admitted_subscribed : Admitted (watch defaultPolicy) (fun t ev => Allowed t ev ∧ t.1.Untroubled ev)
    ((opened, ⟨⟨[], []⟩, true⟩) : Session ℕ Unit × Track ℕ) subscribed :=
  ⟨⟨⟨⟨rfl, rfl⟩, by decide⟩, fun _ _ => rfl⟩, ⟨⟨rfl, fun _ => Or.inl rfl⟩, trivial⟩,
    ⟨⟨⟨rfl, rfl⟩, by decide⟩, fun _ _ => rfl⟩, trivial⟩

theorem admitted_interrupted : Admitted (watch defaultPolicy)
    (fun t ev => (Allowed t ev ∧ t.1.Untroubled ev) ∧ OfLink ev) (watched subscribed) interrupted := by
  have hperm : ∀ l : List (Request ℕ Unit), (id l).Perm l := fun l => List.Perm.refl l
  exact ⟨⟨⟨trivial, trivial⟩, trivial⟩, ⟨⟨hperm, fun _ _ => rfl⟩, trivial⟩, ⟨⟨rfl, trivial⟩, trivial⟩,
    ⟨⟨hperm, fun _ _ => rfl⟩, trivial⟩, trivial⟩

theorem run_subscribed : Run (fun t ev u => u = watch defaultPolicy t ev) (fun t ev => Allowed t ev ∧ t.1.Untroubled ev)
    (opened, ⟨⟨[], []⟩, true⟩) subscribed (watched subscribed) := run_watched admitted_subscribed

theorem run_interrupted : Run (fun t ev u => u = watch defaultPolicy t ev)
    (fun t ev => (Allowed t ev ∧ t.1.Untroubled ev) ∧ OfLink ev) (watched subscribed) interrupted
    (watched (subscribed ++ interrupted)) := by
  unfold watched
  rw [List.foldl_append]
  exact run_watched admitted_interrupted

/-- **What is pending has been asked for on this connection**: nothing waits for the answer to a request that was lost
with an earlier one.  With pacing `emitted` would only say that the scheduler has the request. -/
theorem pending_is_asked {pol : Policy} (hr : pol.replay = true) (_ : pol.mode ≠ .paced) {evs : List (Event Sym P)}
    {t : Session Sym P × Track Sym}
    (hrun : Run (fun t ev u => u = watch pol t ev) (fun t ev => Allowed t ev ∧ t.1.Untroubled ev)
      (opened, ⟨⟨[], []⟩, true⟩) evs t) (hlive : Live t) (hc : t.1.connected = true) (ch : Channel) (id : ReqId)
    (x : Sym) :
    ((t.1.managers ch).pendingSubscriptions.Owns id x → t.1.Asked .subscribe ch id x) ∧
    ((t.1.managers ch).pendingUnsubscriptions.Owns id x → t.1.Asked .unsubscribe ch id x) := by
  have h := allAsked_run hr (fun _ _ h => h) hrun steady_opened (fun _ _ => allAsked_of_empty fun _ => rfl) hlive hc
  exact ⟨h.sub ch id x, h.unsub ch id x⟩

theorem pending_is_asked_again :
    (((watched (subscribed ++ interrupted)).1.managers .trade).pendingSubscriptions.Owns 10 1 →
      (watched (subscribed ++ interrupted)).1.Asked .subscribe .trade 10 1) ∧
    (((watched (subscribed ++ interrupted)).1.managers .trade).pendingUnsubscriptions.Owns 10 1 →
      (watched (subscribed ++ interrupted)).1.Asked .unsubscribe .trade 10 1) :=
  pending_is_asked rfl (by decide) (run_subscribed.trans (run_interrupted.mono fun _ _ h => h.1)) ⟨rfl, rfl⟩ rfl .trade 10 1

/-! ## Recovery -/

/-- What an outage keeps of `t`, and what the session counts on a later connection: the symbols of the table, all of
them pending. -/
structure Outage (t u : Session Sym P × Track Sym) : Prop where
  owns : ∀ ch i x, (u.1.replayDb ch).Owns i x ↔ (t.1.replayDb ch).Owns i x
  later : Live u → t.1.epoch < u.1.epoch → ∀ ch, (u.1.managers ch).activeSymbols = ∅ ∧ ∀ i x,
    ¬ (u.1.managers ch).pendingUnsubscriptions.Owns i x ∧
    ((u.1.managers ch).pendingSubscriptions.Owns i x ↔ (t.1.replayDb ch).Owns i x)

theorem outage_step {pol : Policy} (hr : pol.replay = true) {t u : Session Sym P × Track Sym} (hs : u.1.Steady u.2)
    (h : Outage t u) {ev : Event Sym P} (hok : Allowed u ev) (hlink : OfLink ev) : Outage t (watch pol u ev) := by
  obtain ⟨s, k⟩ := u
  cases ev with
  | subscribe ch req accept => exact hlink.elim
  | unsubscribe ch req accept => exact hlink.elim
  | subscribeAck ch id x success => exact hlink.elim
  | unsubscribeAck ch id x success => exact hlink.elim
  | rejection id x => exact hlink.elim
  | transportConnected => exact ⟨h.owns, fun hlive => absurd hlive.2 (by simp [watch, step])⟩
  | transportClosing => exact ⟨h.owns, h.later⟩
  | transportClosed => exact ⟨h.owns, fun hlive => absurd hlive.2 (by simp [watch, step])⟩
  | pollSignal order accept =>
    obtain ⟨told, hleads, hdown, -⟩ := hs.phase
    simp only [watch, step, pollSignal]
    cases hsig : s.signals with
    | nil => exact h
    | cons sig rest =>
      rw [hsig] at hleads
      cases sig with
      | disconnected =>
        refine ⟨h.owns, fun hlive => ?_⟩
        -- a queue that ends with a loss does not lead to a connection
        obtain ⟨hup, hnil⟩ := hlive
        simp only [handleConnectionSignal, handleDisconnect] at hup hnil
        subst hnil
        exact absurd (hleads.trans hup) Bool.false_ne_true
      | connected =>
        let s' : Session Sym P := { s with signals := rest }
        have hres : Restored s' (s'.doReplay pol accept order) :=
          restored_doReplay hr accept (⟨hs.sound.mgr, hs.sound.tab⟩ : s'.Sound) (hdown hleads.1)
            (hs.epoch.2 (hsig ▸ List.mem_cons_self)) hok
        simp only [handleConnectionSignal, handleConnect, hr, if_true]
        refine ⟨fun ch i x => (hres.owns ch i x).trans (h.owns ch i x), fun _ _ ch => ⟨hres.active ch, fun i x => ?_⟩⟩
        exact ⟨hres.unsub ch, (hres.sub ch).trans (h.owns ch i x)⟩

/-- An ACK for each of `replies`, in their order. -/
def acknowledge (pol : Policy) (s : Session Sym P) (replies : List (Channel × ReqId × Sym)) : Session Sym P :=
  replies.foldl (fun s r => s.step pol (.subscribeAck r.1 r.2.1 r.2.2 true)) s

omit [DecidableEq Sym] in
/-- The ACK as the manager of `ch` sees it. -/
def ackOf (ch : Channel) (r : Channel × ReqId × Sym) : Option (Manager.Op Sym) :=
  if r.1 = ch then some (.subscribeAck r.2.1 r.2.2 true) else none

theorem acknowledge_spec (pol : Policy) (replies : List (Channel × ReqId × Sym)) : ∀ s : Session Sym P,
    (s.acknowledge pol replies).replayDb = s.replayDb ∧ ∀ ch,
      (s.acknowledge pol replies).managers ch = (replies.filterMap (ackOf ch)).foldl Manager.apply (s.managers ch) := by
  induction replies with
  | nil => exact fun s => ⟨rfl, fun ch => rfl⟩
  | cons r replies ih =>
    intro s
    obtain ⟨h1, h2⟩ := ih (s.step pol (.subscribeAck r.1 r.2.1 r.2.2 true))
    refine ⟨h1, fun ch => (h2 ch).trans ?_⟩
    by_cases hc : r.1 = ch
    · have hr : ackOf ch r = some (.subscribeAck r.2.1 r.2.2 true) := if_pos hc
      subst hc
      rw [List.filterMap_cons_some hr, List.foldl_cons, step, onSubscribeAck]
      dsimp only
      rw [Function.update_self]
      rfl
    · have hr : ackOf ch r = none := if_neg hc
      rw [List.filterMap_cons_none hr, step, onSubscribeAck]
      dsimp only
      rw [Function.update_of_ne (Ne.symm hc)]

/-- **Recovery.**  `t` is live; then come losses and connections, as many as there may be, and no calls; `u` is live on a
later connection.  Whatever subscription is asked for on it is acknowledged, in any order and any number of times.  In
the end just the symbols are active that were active or pending in `t`, nothing is pending, and the tables are those of
`t`. -/
theorem recovers {pol : Policy} (hr : pol.replay = true) {evs outage : List (Event Sym P)}
    {t u : Session Sym P × Track Sym}
    (hrun : Run (fun t ev u => u = watch pol t ev) (fun t ev => Allowed t ev ∧ t.1.Untroubled ev)
      (opened, ⟨⟨[], []⟩, true⟩) evs t) (ht : Live t)
    (hout : Run (fun t ev u => u = watch pol t ev) (fun t ev => (Allowed t ev ∧ t.1.Untroubled ev) ∧ OfLink ev)
      t outage u) (hu : Live u) (hc : u.1.connected = true) (hlater : t.1.epoch < u.1.epoch)
    {replies : List (Channel × ReqId × Sym)}
    (hall : ∀ ch id x, u.1.Asked .subscribe ch id x → (ch, id, x) ∈ replies) (ch : Channel) :
    ((u.1.acknowledge pol replies).managers ch).activeSymbols =
      (t.1.managers ch).activeSymbols ∪ (t.1.managers ch).pendingSubscriptions.pendingSymbols ∧
    ((u.1.acknowledge pol replies).managers ch).Settled ∧
    ∀ i x, ((u.1.acknowledge pol replies).replayDb ch).Owns i x ↔ (t.1.replayDb ch).Owns i x := by
  have hst : t.1.Steady t.2 := steady_run hr (fun _ _ h => h.1) hrun steady_opened
  have hask : u.1.AllAsked := by
    refine allAsked_run hr (fun _ _ h => h.1) hout hst ?_ hu hc
    exact allAsked_run hr (fun _ _ h => h) hrun steady_opened fun _ _ => allAsked_of_empty fun _ => rfl
  have hboth : u.1.Steady u.2 ∧ Outage t u := by
    refine hout.invariant (I := fun u => u.1.Steady u.2 ∧ Outage t u)
      ⟨hst, fun _ _ _ => Iff.rfl, fun _ hlt => absurd hlt (Nat.lt_irrefl _)⟩ ?_
    rintro v ev w ⟨hs, ho⟩ ⟨⟨hok, -⟩, hlink⟩ rfl
    exact ⟨steady_step hr hs hok, outage_step hr hs ho hok hlink⟩
  obtain ⟨hsu, ho⟩ := hboth
  obtain ⟨hact, hpend⟩ := ho.later hu hlater ch
  have hm : (u.1.managers ch).Wf := hsu.sound.mgr ch
  obtain ⟨htab, hman⟩ := acknowledge_spec pol replies u.1
  rw [hman ch, htab]
  set ops := replies.filterMap (ackOf ch) with hops
  have hmem : ∀ o, o ∈ ops ↔ ∃ id x, (ch, id, x) ∈ replies ∧ o = .subscribeAck id x true := by
    intro o
    rw [hops, List.mem_filterMap]
    constructor
    · rintro ⟨⟨c, id, x⟩, hr, ho⟩
      unfold ackOf at ho
      split_ifs at ho with hch
      subst hch
      exact ⟨id, x, hr, (Option.some.inj ho).symm⟩
    · rintro ⟨id, x, hr, rfl⟩
      exact ⟨(ch, id, x), hr, if_pos rfl⟩
  have hreply : ∀ o ∈ ops, o.answer?.isSome := by
    intro o ho
    obtain ⟨id, x, -, rfl⟩ := (hmem o).mp ho
    rfl
  -- every pending subscription is among the answers
  have hans : ∀ id x, (u.1.managers ch).pendingSubscriptions.Owns id x → .subscribeAck id x true ∈ ops :=
    fun id x h => (hmem _).mpr ⟨id, x, hall ch id x (hask.sub ch id x h), rfl⟩
  have hcount := (hst.inv ht).chan ch
  refine ⟨?_, ?_, ho.owns ch⟩
  · ext x
    rw [Manager.mem_active_answers ops _ hm hreply ?_ x, hact, Finset.mem_union]
    · rw [← Manager.Counts, ← hcount.agree x]
      simp only [Finset.notMem_empty, false_and, or_false]
      constructor
      · rintro ⟨id, -, h⟩
        exact ⟨id, ((hpend id x).2).mp h⟩
      · rintro ⟨id, h⟩
        have h := ((hpend id x).2).mpr h
        exact ⟨id, hans id x h, h⟩
    · intro o ho o' ho' _ _ heq
      obtain ⟨id, y, -, rfl⟩ := (hmem o).mp ho
      obtain ⟨id', y', -, rfl⟩ := (hmem o').mp ho'
      cases heq
      rfl
  · refine (Manager.wf_foldl hm ops).settled fun id x hp => ?_
    obtain ⟨hp, hnone⟩ := (Manager.pending_answers ops _ hm hreply id x).mp hp
    rcases hp with hp | hp
    · exact hnone _ (hans id x hp) hp rfl
    · exact (hpend id x).1 hp

/-- The ACKs of both channels, one of them twice. -/
def bothAcked : List (Channel × ReqId × ℕ) := [(.book, 11, 2), (.trade, 10, 1), (.book, 11, 2)]

theorem recovers_both :
    (((watched (subscribed ++ interrupted)).1.acknowledge defaultPolicy bothAcked).managers .book).activeSymbols =
      ((watched subscribed).1.managers .book).activeSymbols ∪
        ((watched subscribed).1.managers .book).pendingSubscriptions.pendingSymbols ∧
    (((watched (subscribed ++ interrupted)).1.acknowledge defaultPolicy bothAcked).managers .book).Settled ∧
    ∀ i x, (((watched (subscribed ++ interrupted)).1.acknowledge defaultPolicy bothAcked).replayDb .book).Owns i x ↔
      ((watched subscribed).1.replayDb .book).Owns i x := by
  refine recovers rfl run_subscribed ⟨rfl, rfl⟩ run_interrupted ⟨rfl, rfl⟩ rfl (by decide) ?_ .book
  have hasked : ∀ m ∈ (watched (subscribed ++ interrupted)).1.emitted, m.epoch = 2 →
      ∀ x ∈ m.request.symbols, (m.channel, m.request.reqId.getD 0, x) ∈ bothAcked := by decide
  rintro ch id x ⟨m, hm, hepoch, -, rfl, hid, hx⟩
  have hin := hasked m hm hepoch x hx
  rwa [hid] at hin

end Session

end Wirekrak.Protocol

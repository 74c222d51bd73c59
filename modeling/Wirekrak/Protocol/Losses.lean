import Wirekrak.Protocol.Agreement
import Wirekrak.Protocol.Reconnect

/-!
# Wirekrak.Protocol.Losses — runs over many connections

A run in which connections come and go.  Calls are made while a connection stands and its signals are handled (what an
earlier call does, `reconnect_no_loss_iff` says); answers may come at any time the queue of signals is empty, after the
loss of the connection too.

* `Allowed`: what may happen; `watch` observes it.
* `Restored`: the state after the replay of all channels.
* `Steady`: the invariant; one lemma for each kind of step.
* `agrees_across_losses`: on every connection, tables and managers agree.
-/

namespace Wirekrak.Protocol

open Wirekrak.Lib

/-- What is observed of a run: the calls, the answers of the current connection, and whether that connection stands. -/
structure Track (Sym : Type) where
  history : History Sym
  linked : Bool

namespace Session

variable {Sym P : Type}

/-! ## What calls and answers leave alone -/

/-- What only the transport and `poll_signal` change. -/
def link (s : Session Sym P) : ℕ × List Signal × Bool := (s.epoch, s.signals, s.connected)

section Frame

variable {pol : Policy} {accept : Request Sym P → Bool} {s : Session Sym P} {ch : Channel} {req : Request Sym P}

@[simp] theorem link_assignReqId : (s.assignReqId req).link = s.link := by
  unfold assignReqId
  split_ifs <;> rfl

variable [DecidableEq Sym]

@[simp] theorem link_place {id : ReqId} : (s.place pol accept ch req id).2.link = s.link := by
  unfold place
  dsimp only
  split_ifs <;> rfl

@[simp] theorem link_subscribe : (s.subscribe pol accept ch req).2.link = s.link := by
  unfold subscribe
  split_ifs
  · rfl
  · exact link_place.trans link_assignReqId

@[simp] theorem link_unsubscribe : (s.unsubscribe pol accept ch req).2.link = s.link := by
  have h : ((s.assignReqId req).emitRequest pol accept .unsubscribe ch
      { req with reqId := some (s.requestId req) }).2.link = s.link := link_assignReqId
  unfold unsubscribe
  dsimp only
  split_ifs <;> exact h

@[simp] theorem link_onUnsubscribeAck {id : ReqId} {x : Sym} {success : Bool} :
    (s.onUnsubscribeAck pol ch id x success).link = s.link := by
  unfold onUnsubscribeAck
  dsimp only
  split_ifs <;> rfl

theorem link_foldl_reSubscribe (reqs : List (Request Sym P)) : ∀ s : Session Sym P,
    (reqs.foldl (reSubscribe pol accept ch) s).link = s.link := by
  induction reqs with
  | nil => intro s; rfl
  | cons r reqs ih => intro s; exact (ih _).trans link_place

@[simp] theorem link_replayChannel {order : Table.Order Sym P} :
    (s.replayChannel pol accept order ch).link = s.link := link_foldl_reSubscribe _ _

@[simp] theorem link_doReplay {order : Table.Order Sym P} : (s.doReplay pol accept order).link = s.link := by
  unfold doReplay
  split_ifs
  · exact link_replayChannel.trans link_replayChannel
  · rfl

end Frame

variable [DecidableEq Sym]

/-! ## Runs -/

/-- One step, observed.  A new connection has answered nothing. -/
def watch (pol : Policy) (t : Session Sym P × Track Sym) (ev : Event Sym P) : Session Sym P × Track Sym :=
  (t.1.step pol ev, match ev with
    | .transportConnected => ⟨{ t.2.history with answered := [] }, true⟩
    | .transportClosed => ⟨t.2.history, false⟩
    | ev => ⟨t.1.record t.2.history ev, t.2.linked⟩)

/-- The connection stands, and the session knows. -/
def Live (t : Session Sym P × Track Sym) : Prop := t.2.linked = true ∧ t.1.signals = []

/-- Calls under fresh ids and answers that settle, on a connection that is live; a connection comes up when none
stands. -/
def Allowed (t : Session Sym P × Track Sym) (ev : Event Sym P) : Prop :=
  match ev with
  | .subscribe _ req _ | .unsubscribe _ req _ => Live t ∧ t.1.requestId req ∉ t.2.history.calls.map Prod.fst
  | .subscribeAck _ _ _ _ | .unsubscribeAck _ _ _ _ => t.1.signals = [] ∧ (t.2.linked = true → t.1.Settles ev)
  | .rejection id x => t.1.signals = [] ∧
    (t.2.linked = true → (∃ m ∈ t.1.emitted, m.Asks id x) ∧ (id, x) ∉ t.2.history.answered)
  | .transportConnected => t.2.linked = false
  | .transportClosing | .transportClosed => True
  | .pollSignal order _ => ∀ l, (order l).Perm l

/-- What the session has been told last, and the signals still to be told, lead to how the connection is. -/
def Leads : Bool → List Signal → Bool → Prop
  | told, [], linked => told = linked
  | _, .disconnected :: rest, linked => Leads false rest linked
  | told, .connected :: rest, linked => told = false ∧ Leads true rest linked

theorem leads_disconnected {told linked : Bool} {sigs : List Signal} (h : Leads told sigs linked) :
    Leads told (sigs ++ [.disconnected]) false := by
  induction sigs generalizing told with
  | nil => exact rfl
  | cons sig sigs ih =>
    cases sig with
    | connected => exact ⟨h.1, ih h.2⟩
    | disconnected =>
      have h : Leads false sigs _ := h
      exact ih h

theorem leads_connected {told : Bool} {sigs : List Signal} (h : Leads told sigs false) :
    Leads told (sigs ++ [.connected]) true := by
  induction sigs generalizing told with
  | nil => exact ⟨h, rfl⟩
  | cons sig sigs ih =>
    cases sig with
    | connected => exact ⟨h.1, ih h.2⟩
    | disconnected =>
      have h : Leads false sigs _ := h
      exact ih h

/-- The invariant.  `phase`: without a connection that it knows of, the session counts nothing; on a live one, `ChanInv`
holds of both channels. -/
structure Steady (s : Session Sym P) (k : Track Sym) : Prop where
  sound : s.Sound
  stored : ∀ ch id x, (s.replayDb ch).Owns id x → (id, .subscribe, ch) ∈ k.history.calls
  emitted : ∀ m ∈ s.emitted, ∀ id, m.request.reqId = some id → (id, m.kind, m.channel) ∈ k.history.calls
  once : ∀ id k₁ c₁ k₂ c₂, (id, k₁, c₁) ∈ k.history.calls → (id, k₂, c₂) ∈ k.history.calls → k₁ = k₂ ∧ c₁ = c₂
  epoch : 1 ≤ s.epoch ∧ (.connected ∈ s.signals → 1 < s.epoch)
  phase : ∃ told, Leads told s.signals k.linked ∧ (told = false → ∀ ch, s.managers ch = .empty) ∧
    (told = true → s.signals = [] → ∀ ch, ChanInv k.history ch (s.managers ch) (s.replayDb ch))

theorem steady_opened : Steady (opened : Session Sym P) ⟨⟨[], []⟩, true⟩ where
  sound := ⟨fun _ => Manager.wf_empty, fun _ => Table.wf_empty⟩
  stored := fun _ _ _ h => absurd h Table.not_owns_empty
  emitted := fun m hm => by simp [opened, new] at hm
  once := fun id _ _ _ _ hm => by simp at hm
  epoch := ⟨Nat.le_refl 1, fun h => by simp [opened, new] at h⟩
  phase := ⟨true, rfl, (fun h => by cases h), fun _ _ ch => ChanInv.empty _ ch⟩

namespace Steady

variable {s : Session Sym P} {k : Track Sym}

/-- On a live connection the invariant is that of one connection. -/
theorem inv (h : s.Steady k) (hlive : Live (s, k)) : Inv s k.history := by
  obtain ⟨told, hleads, -, hchan⟩ := h.phase
  rw [hlive.2, hlive.1] at hleads
  exact ⟨hchan hleads hlive.2, h.emitted, h.once⟩

theorem of_inv {hist : History Sym} (hi : Inv s hist) (hsig : s.signals = []) (hepoch : 1 ≤ s.epoch) :
    s.Steady ⟨hist, true⟩ where
  sound := ⟨fun ch => (hi.chan ch).mgr, fun ch => (hi.chan ch).tab⟩
  stored := fun ch => (hi.chan ch).stored
  emitted := hi.emitted
  once := hi.once
  epoch := ⟨hepoch, fun h => by simp [hsig] at h⟩
  phase := ⟨true, by rw [hsig]; rfl, (fun h => by cases h), fun _ _ => hi.chan⟩

/-- A step that `Agreement` knows, on a live connection. -/
theorem of_link {u : Session Sym P} {hist : History Sym} (h : s.Steady k) (hlive : Live (s, k)) (hi : Inv u hist)
    (hu : u.link = s.link) : u.Steady ⟨hist, k.linked⟩ := by
  simp only [link, Prod.mk.injEq] at hu
  rw [hlive.1]
  exact of_inv hi (hu.2.1.trans hlive.2) (hu.1.symm ▸ h.epoch.1)

/-- Nothing is counted while there is no connection, once the session has been told of the loss. -/
theorem managers_of_down (h : s.Steady k) (hsig : s.signals = []) (hlinked : k.linked = false) (ch : Channel) :
    s.managers ch = .empty := by
  obtain ⟨told, hleads, hdown, -⟩ := h.phase
  rw [hsig, hlinked] at hleads
  exact hdown hleads ch

/-- What a table keeps of the calls when its symbols become fewer, and nothing is counted. -/
theorem of_down {u : Session Sym P} {hist : History Sym} (h : s.Steady k) (hlinked : k.linked = false)
    (hu : u.link = s.link) (hsig : s.signals = []) (hman : ∀ ch, u.managers ch = .empty)
    (hsound : u.Sound) (hless : ∀ ch id x, (u.replayDb ch).Owns id x → (s.replayDb ch).Owns id x)
    (hem : u.emitted = s.emitted) (hcalls : hist.calls = k.history.calls) : u.Steady ⟨hist, k.linked⟩ := by
  simp only [link, Prod.mk.injEq] at hu
  have hsig' : u.signals = [] := hu.2.1.trans hsig
  refine ⟨hsound, fun ch id x ho => ?_, fun m hm id hid => ?_, ?_, ⟨hu.1.symm ▸ h.epoch.1, fun hc => ?_⟩, false, ?_⟩
  · rw [hcalls]
    exact h.stored ch id x (hless ch id x ho)
  · rw [hcalls]
    exact h.emitted m (hem ▸ hm) id hid
  · rw [hcalls]
    exact h.once
  · simp [hsig'] at hc
  · rw [hsig', hlinked]
    exact ⟨rfl, fun _ => hman, fun hc => by cases hc⟩

end Steady

/-! ## Answers after a loss -/

omit [DecidableEq Sym] in
theorem not_owns_of_empty {m : Manager Sym} (hm : m = .empty) {id : ReqId} {x : Sym} :
    ¬ m.pendingSubscriptions.Owns id x ∧ ¬ m.pendingUnsubscriptions.Owns id x := by
  subst hm
  exact ⟨PendingRequests.not_owns_empty, PendingRequests.not_owns_empty⟩

section Down

variable {pol : Policy} {s : Session Sym P} (hs : s.Sound) (hman : ∀ ch, s.managers ch = .empty)

include hman

theorem onSubscribeAck_of_down (ch : Channel) (id : ReqId) (x : Sym) (success : Bool) :
    s.onSubscribeAck ch id x success = s := by
  have h : ((s.managers ch).processSubscribeAck id x success).2 = s.managers ch := by
    rw [hman ch]
    rfl
  unfold onSubscribeAck
  rw [h, Function.update_eq_self]

include hs

/-- Its ACK still takes the symbol of an unsubscription out of the table. -/
theorem onUnsubscribeAck_of_down (hr : pol.replay = true) (ch : Channel) (id : ReqId) (x : Sym) (success : Bool) :
    (s.onUnsubscribeAck pol ch id x success).managers = s.managers ∧
    ∀ c i y, ((s.onUnsubscribeAck pol ch id x success).replayDb c).Owns i y → (s.replayDb c).Owns i y := by
  have h : Function.update s.managers ch ((s.managers ch).processUnsubscribeAck id x success).2 = s.managers := by
    have h : ((s.managers ch).processUnsubscribeAck id x success).2 = s.managers ch := by
      rw [hman ch]
      rfl
    rw [h, Function.update_eq_self]
  unfold onUnsubscribeAck
  dsimp only
  rw [hr, h]
  cases success with
  | false => exact ⟨rfl, fun c i y ho => ho⟩
  | true =>
    refine ⟨rfl, fun c i y ho => ?_⟩
    simp only [Bool.and_self, if_true] at ho
    by_cases hc : c = ch
    · subst hc
      rw [Function.update_self] at ho
      exact (((Table.eraseSymbol_spec (hs.tab c) x).2 i y).mp ho).1
    · rwa [Function.update_of_ne hc] at ho

theorem onRejection_of_down (hr : pol.replay = true) (id : ReqId) (x : Sym) :
    (s.onRejection pol id x).managers = s.managers ∧
    ∀ c i y, ((s.onRejection pol id x).replayDb c).Owns i y → (s.replayDb c).Owns i y := by
  constructor
  · have hno : ∀ c, (s.managers c).tryProcessRejection id x = (false, s.managers c) := by
      intro c
      rw [hman c]
      rfl
    exact (firstDone_eq (f := fun m : Manager Sym => m.tryProcessRejection id x) .trade fun c _ => hno c).trans
      (by rw [hno, Function.update_eq_self])
  · unfold onRejection
    rw [hr, if_pos rfl]
    intro c
    refine (forall_firstDone_of (p := fun c (t : Table Sym P) => t.Wf ∧ ∀ i y, t.Owns i y → (s.replayDb c).Owns i y)
      (fun c t ht => ?_) (fun c => ⟨hs.tab c, fun _ _ ho => ho⟩) c).2
    rcases Table.tryProcessRejection_cases ht.1 id x with ⟨-, heq⟩ | ⟨-, -, hwf, hown⟩
    · rw [heq]
      exact ht
    · exact ⟨hwf, fun i y ho => ht.2 i y ((hown i y).mp ho).1⟩

end Down

/-! ## The replay after a loss -/

omit [DecidableEq Sym] in
/-- The calls that a replay of `reqs` amounts to. -/
def placed (ch : Channel) (reqs : List (Request Sym P)) (h : History Sym) : History Sym :=
  reqs.foldl (fun h r => { h with calls := (r.reqId.getD invalidReqId, .subscribe, ch) :: h.calls }) h

omit [DecidableEq Sym] in
theorem placed_spec (ch : Channel) (reqs : List (Request Sym P)) : ∀ h : History Sym,
    (placed ch reqs h).answered = h.answered ∧ ∀ c ∈ (placed ch reqs h).calls,
      c ∈ h.calls ∨ ∃ r ∈ reqs, c = (r.reqId.getD invalidReqId, .subscribe, ch) := by
  induction reqs with
  | nil => exact fun h => ⟨rfl, fun c hc => Or.inl hc⟩
  | cons r reqs ih =>
    intro h
    obtain ⟨h1, h2⟩ := ih { h with calls := (r.reqId.getD invalidReqId, .subscribe, ch) :: h.calls }
    refine ⟨h1, fun c hc => ?_⟩
    rcases h2 c hc with h3 | ⟨q, hq, h3⟩
    · rcases List.mem_cons.mp h3 with rfl | h3
      · exact Or.inr ⟨r, List.mem_cons_self, rfl⟩
      · exact Or.inl h3
    · exact Or.inr ⟨q, List.mem_cons_of_mem r hq, h3⟩

theorem owns_iff_stored {t : Table Sym P} (ht : t.Wf) {i : ReqId} {x : Sym} :
    t.Owns i x ↔ ∃ r ∈ t.stored, r.reqId = some i ∧ x ∈ r.symbols := by
  constructor
  · intro h
    obtain ⟨r, hl, hx⟩ := ht.owned i x h
    exact ⟨r, Table.mem_stored.mpr ⟨i, hl⟩, (ht.stored i r hl).1, hx⟩
  · rintro ⟨r, hm, hi, hx⟩
    obtain ⟨j, hl⟩ := Table.mem_stored.mp hm
    obtain ⟨hj, -, hown⟩ := ht.stored j r hl
    obtain rfl : j = i := Option.some.inj (hj.symm.trans hi)
    exact hown x hx

section Replay

variable {pol : Policy} (hr : pol.replay = true) {accept : Request Sym P → Bool} {ch : Channel}

include hr

/-- Replaying is calling `subscribe` again, request by request. -/
theorem chanInv_foldl_reSubscribe (reqs : List (Request Sym P)) : ∀ (s : Session Sym P) (h : History Sym),
    ChanInv h ch (s.managers ch) (s.replayDb ch) → reqs.Pairwise Apart →
    (∀ r ∈ reqs, ∃ id, r.reqId = some id ∧ (id, .subscribe, ch) ∉ h.calls) →
    ChanInv (placed ch reqs h) ch ((reqs.foldl (reSubscribe pol accept ch) s).managers ch)
      ((reqs.foldl (reSubscribe pol accept ch) s).replayDb ch) := by
  induction reqs with
  | nil => exact fun s h hi _ _ => hi
  | cons r reqs ih =>
    intro s h hi hap hfresh
    obtain ⟨hap1, hap2⟩ := List.pairwise_cons.mp hap
    obtain ⟨id, hid, hno⟩ := hfresh r List.mem_cons_self
    have hget : r.reqId.getD invalidReqId = id := by rw [hid]; rfl
    have hacc := (Manager.registerSubscription_spec hi.mgr r.symbols id).1
    refine ih (reSubscribe pol accept ch s r) _ ?_ hap2 (fun q hq => ?_)
    · have hi' := hi.register hno r
      unfold reSubscribe
      dsimp only
      rw [hget, place_managers, place_replayDb _ _ _ _ _ hr, Function.update_self, Function.update_self, hacc]
      exact hi'
    · obtain ⟨j, hj, hjno⟩ := hfresh q (List.mem_cons_of_mem r hq)
      refine ⟨j, hj, fun hm => ?_⟩
      rcases List.mem_cons.mp hm with heq | hm
      · obtain rfl : j = id := by rw [← hget]; exact congrArg Prod.fst heq
        exact (hap1 q hq).1 (hid.trans hj.symm)
      · exact hjno hm

/-- Managers and tables do not look at what became of the messages. -/
theorem replayChannel_congr (accept accept' : Request Sym P → Bool) (order : Table.Order Sym P)
    {s s' : Session Sym P} (hm : s.managers = s'.managers) (ht : s.replayDb = s'.replayDb) :
    (s.replayChannel pol accept order ch).managers = (s'.replayChannel pol accept' order ch).managers ∧
    (s.replayChannel pol accept order ch).replayDb = (s'.replayChannel pol accept' order ch).replayDb := by
  have hfold : ∀ (reqs : List (Request Sym P)) (s s' : Session Sym P), s.managers = s'.managers →
      s.replayDb = s'.replayDb →
      (reqs.foldl (reSubscribe pol accept ch) s).managers = (reqs.foldl (reSubscribe pol accept' ch) s').managers ∧
      (reqs.foldl (reSubscribe pol accept ch) s).replayDb = (reqs.foldl (reSubscribe pol accept' ch) s').replayDb := by
    intro reqs
    induction reqs with
    | nil => exact fun s s' hm ht => ⟨hm, ht⟩
    | cons r reqs ih =>
      intro s s' hm ht
      refine ih _ _ ?_ ?_
      · simp only [reSubscribe, place_managers, hm]
      · simp only [reSubscribe, place_replayDb _ _ _ _ _ hr, hm, ht]
  unfold replayChannel Table.takeSubscriptions
  rw [ht]
  exact hfold _ _ _ hm rfl

variable {s : Session Sym P} (hs : s.Sound) (hman : s.managers ch = .empty) {order : Table.Order Sym P}
  (ho : ∀ l, (order l).Perm l)

include hs hman ho

/-- The round of a channel of which nothing is counted: all of its table becomes pending, under the ids it had. -/
theorem restored_replayChannel (accept : Request Sym P → Bool) :
    (∀ i x, ((s.replayChannel pol accept order ch).replayDb ch).Owns i x ↔ (s.replayDb ch).Owns i x) ∧
    (∀ c, c ≠ ch → (s.replayChannel pol accept order ch).replayDb c = s.replayDb c ∧
      (s.replayChannel pol accept order ch).managers c = s.managers c) ∧
    ∃ calls, (∀ c ∈ calls, ∃ id x, c = (id, .subscribe, ch) ∧ (s.replayDb ch).Owns id x) ∧
      ChanInv ⟨calls, []⟩ ch ((s.replayChannel pol accept order ch).managers ch)
        ((s.replayChannel pol accept order ch).replayDb ch) := by
  have hperm := ho (s.replayDb ch).stored
  have hempty : ∀ x, ¬ (s.managers ch).Counts x := by
    intro x
    rw [hman]
    simp [Manager.Counts, Manager.empty, PendingRequests.empty]
  -- the same round with nothing refused
  let s' : Session Sym P := { s with connected := true }
  obtain ⟨hcm, hct⟩ : (s.replayChannel pol accept order ch).managers =
        (s'.replayChannel pol (fun _ => true) order ch).managers ∧
      (s.replayChannel pol accept order ch).replayDb = (s'.replayChannel pol (fun _ => true) order ch).replayDb :=
    replayChannel_congr hr _ _ _ rfl rfl
  have hall : ∀ m, s'.takes pol (fun _ => true) m = true := by
    intro m
    unfold takes
    cases pol.mode <;> rfl
  have hrep : Replayed ch (order (s.replayDb ch).stored)
      { s' with replayDb := Function.update s.replayDb ch Table.empty }
      (s'.replayChannel pol (fun _ => true) order ch) :=
    replayed_replayChannel ch hr (⟨hs.mgr, hs.tab⟩ : s'.Sound) hall ho
  refine ⟨fun i x => ?_, fun c hc => ⟨?_, ?_⟩, (placed ch (order (s.replayDb ch).stored) ⟨[], []⟩).calls,
    fun c hc => ?_, ?_⟩
  · have hno : ∀ x, ¬ (s'.managers ch).Counts x := hempty
    rw [hct, hrep.owns, owns_iff_stored (hs.tab ch)]
    simp only [Function.update_self, Table.not_owns_empty, false_or, hno, not_false_eq_true, and_true,
      hperm.mem_iff]
  · rw [hct, hrep.replayDb_ne c hc]
    exact Function.update_of_ne hc _ _
  · rw [hcm, hrep.managers_ne c hc]
  · rcases (placed_spec ch _ _).2 c hc with h | ⟨r, hmem, rfl⟩
    · cases h
    · obtain ⟨id, hl⟩ := Table.mem_stored.mp (hperm.mem_iff.mp hmem)
      obtain ⟨hid, hne, hown⟩ := (hs.tab ch).stored id r hl
      obtain ⟨x, hx⟩ := List.exists_mem_of_ne_nil _ hne
      exact ⟨id, x, by rw [hid]; rfl, hown x hx⟩
  · have hans : (⟨(placed ch (order (s.replayDb ch).stored) ⟨[], []⟩).calls, []⟩ : History Sym) =
        placed ch (order (s.replayDb ch).stored) ⟨[], []⟩ :=
          congrArg (History.mk _) (placed_spec ch (order (s.replayDb ch).stored) ⟨[], []⟩).1.symm
    rw [hans]
    refine chanInv_foldl_reSubscribe hr _ { s with replayDb := Function.update s.replayDb ch Table.empty } _ ?_
      ((hperm.pairwise_iff Apart.symm).mpr (stored_apart (hs.tab ch))) (fun r hmem => ?_)
    · dsimp only
      rw [hman, Function.update_self]
      exact ChanInv.empty _ ch
    · obtain ⟨id, hl⟩ := Table.mem_stored.mp (hperm.mem_iff.mp hmem)
      exact ⟨id, ((hs.tab ch).stored id r hl).1, List.not_mem_nil⟩

omit hman hr in
/-- The messages of a round bear the ids of the table. -/
theorem mem_replayChannel_emitted {m : Message Sym P} (h : m ∈ (s.replayChannel pol accept order ch).emitted) :
    m ∈ s.emitted ∨ (m.kind = .subscribe ∧ m.channel = ch ∧
      ∀ id, m.request.reqId = some id → ∃ x, (s.replayDb ch).Owns id x) := by
  have hfold : ∀ (reqs : List (Request Sym P)) (s : Session Sym P),
      m ∈ (reqs.foldl (reSubscribe pol accept ch) s).emitted → m ∈ s.emitted ∨
        (m.kind = .subscribe ∧ m.channel = ch ∧ ∃ r ∈ reqs, m.request.reqId = some (r.reqId.getD invalidReqId)) := by
    intro reqs
    induction reqs with
    | nil => exact fun s h => Or.inl h
    | cons r reqs ih =>
      intro s h
      rcases ih _ h with h | ⟨h1, h2, q, hq, h3⟩
      · rcases mem_place_emitted _ _ _ _ _ h with h | ⟨h1, h2, h3⟩
        · exact Or.inl h
        · exact Or.inr ⟨h1, h2, r, List.mem_cons_self, h3⟩
      · exact Or.inr ⟨h1, h2, q, List.mem_cons_of_mem r hq, h3⟩
  rcases hfold _ _ h with h | ⟨h1, h2, r, hmem, h3⟩
  · exact Or.inl h
  · refine Or.inr ⟨h1, h2, fun id hid => ?_⟩
    obtain ⟨j, hl⟩ := Table.mem_stored.mp ((ho _).mem_iff.mp hmem)
    obtain ⟨hj, hne, hown⟩ := (hs.tab ch).stored j r hl
    obtain ⟨x, hx⟩ := List.exists_mem_of_ne_nil _ hne
    rw [h3, hj, Option.some.injEq] at hid
    exact ⟨x, hid ▸ hown x hx⟩

end Replay

/-- Everything that is stored is pending, and nothing else is counted: the state after the replay of all channels. -/
structure Restored (s u : Session Sym P) : Prop where
  owns : ∀ ch i x, (u.replayDb ch).Owns i x ↔ (s.replayDb ch).Owns i x
  chan : ∀ ch, ∃ calls, (∀ c ∈ calls, ∃ id x, c = (id, .subscribe, ch) ∧ (s.replayDb ch).Owns id x) ∧
    ChanInv ⟨calls, []⟩ ch (u.managers ch) (u.replayDb ch)
  emitted : ∀ m ∈ u.emitted, m ∈ s.emitted ∨ (m.kind = .subscribe ∧
    ∀ id, m.request.reqId = some id → ∃ x, (s.replayDb m.channel).Owns id x)

theorem restored_doReplay {pol : Policy} (hr : pol.replay = true) (accept : Request Sym P → Bool)
    {s : Session Sym P} (hs : s.Sound) (hman : ∀ ch, s.managers ch = .empty) (hepoch : 1 < s.epoch)
    {order : Table.Order Sym P} (ho : ∀ l, (order l).Perm l) : Restored s (s.doReplay pol accept order) := by
  have hdo : s.doReplay pol accept order =
      (s.replayChannel pol accept order .trade).replayChannel pol accept order .book := by
    unfold doReplay
    rw [if_pos hepoch]
    rfl
  obtain ⟨how1, hne1, hch1⟩ := restored_replayChannel hr hs (hman .trade) ho accept
  obtain ⟨htab, hmgr⟩ := hne1 .book (by decide)
  set v := s.replayChannel pol accept order .trade with hv
  have hvs : v.Sound := sound_replayChannel hs accept order .trade
  obtain ⟨how2, hne2, hch2⟩ := restored_replayChannel hr hvs (hmgr.trans (hman .book)) ho accept
  obtain ⟨htab2, hmgr2⟩ := hne2 .trade (by decide)
  rw [htab] at how2 hch2
  rw [hdo]
  refine ⟨fun ch => ?_, fun ch => ?_, fun m hm => ?_⟩
  · cases ch with
    | trade => rw [htab2]; exact how1
    | book => exact how2
  · cases ch with
    | trade => rw [htab2, hmgr2]; exact hch1
    | book => exact hch2
  · rcases mem_replayChannel_emitted hvs ho hm with h | ⟨h1, h2, h3⟩
    · rcases mem_replayChannel_emitted hs ho h with h | ⟨h1, h2, h3⟩
      · exact Or.inl h
      · exact Or.inr ⟨h1, by rw [h2]; exact h3⟩
    · refine Or.inr ⟨h1, ?_⟩
      rw [h2, ← htab]
      exact h3

namespace Restored

variable {s u : Session Sym P} (h : Restored s u) (ch : Channel)

include h

theorem active : (u.managers ch).activeSymbols = ∅ := by
  obtain ⟨calls, -, hi⟩ := h.chan ch
  rw [Finset.eq_empty_iff_forall_notMem]
  intro x hx
  obtain ⟨id, ho⟩ := (hi.agree x).mpr (Or.inl hx)
  exact absurd (hi.active id x hx ho) List.not_mem_nil

theorem unsub {id : ReqId} {x : Sym} : ¬ (u.managers ch).pendingUnsubscriptions.Owns id x := by
  obtain ⟨calls, hcalls, hi⟩ := h.chan ch
  intro ho
  obtain ⟨i, y, heq, -⟩ := hcalls _ (hi.unsub id x ho)
  cases heq

theorem sub {id : ReqId} {x : Sym} : (u.managers ch).pendingSubscriptions.Owns id x ↔ (s.replayDb ch).Owns id x := by
  obtain ⟨calls, -, hi⟩ := h.chan ch
  rw [← h.owns]
  refine ⟨hi.owner id x, fun ho => hi.owner_of_not_active ho ?_⟩
  rw [h.active ch]
  exact Finset.notMem_empty x

end Restored

/-! ## One step -/

section Steps

variable {pol : Policy} (hr : pol.replay = true) {s : Session Sym P} {k : Track Sym} (h : s.Steady k)

include h

variable (pol) in
/-- An answer, on a live connection or after a loss. -/
theorem steady_answer (ev : Event Sym P) (hsig : s.signals = []) (hlink : (s.step pol ev).link = s.link)
    (hcalls : (s.record k.history ev).calls = k.history.calls) (hem : (s.step pol ev).emitted = s.emitted)
    (hup : k.linked = true → Inv (s.step pol ev) (s.record k.history ev))
    (hdown : (∀ ch, s.managers ch = .empty) → (s.step pol ev).managers = s.managers ∧
      ∀ c i y, ((s.step pol ev).replayDb c).Owns i y → (s.replayDb c).Owns i y) :
    (s.step pol ev).Steady ⟨s.record k.history ev, k.linked⟩ := by
  cases hlinked : k.linked with
  | true =>
    rw [← hlinked]
    exact h.of_link ⟨hlinked, hsig⟩ (hup hlinked) hlink
  | false =>
    have hman := h.managers_of_down hsig hlinked
    obtain ⟨h1, h2⟩ := hdown hman
    rw [← hlinked]
    exact h.of_down hlinked hlink hsig (fun ch => h1 ▸ hman ch) (sound_step h.sound ev) h2 hem hcalls

include hr

/-- The signal that is due is handled. -/
theorem steady_pollSignal (accept : Request Sym P → Bool) {order : Table.Order Sym P} (ho : ∀ l, (order l).Perm l) :
    (s.pollSignal pol accept order).Steady k := by
  have hsound : (s.pollSignal pol accept order).Sound := sound_pollSignal h.sound accept order
  obtain ⟨told, hleads, hdown, hup⟩ := h.phase
  unfold pollSignal at hsound ⊢
  cases hsig : s.signals with
  | nil => exact h
  | cons sig rest =>
    rw [hsig] at hleads hsound
    have hlater : ∀ {c : Signal}, c ∈ rest → c ∈ s.signals := fun hc => hsig ▸ List.mem_cons_of_mem sig hc
    cases sig with
    | disconnected =>
      exact ⟨hsound, h.stored, h.emitted, h.once, ⟨h.epoch.1, fun hc => h.epoch.2 (hlater hc)⟩, false, hleads,
        fun _ _ => rfl, fun hc => by cases hc⟩
    | connected =>
      obtain ⟨rfl, hleads⟩ := hleads
      have hepoch : 1 < s.epoch := h.epoch.2 (hsig ▸ List.mem_cons_self)
      simp only [handleConnectionSignal, handleConnect, hr, if_true] at hsound ⊢
      let s' : Session Sym P := { s with signals := rest }
      have hres : Restored s' (s'.doReplay pol accept order) :=
        restored_doReplay hr accept (⟨h.sound.mgr, h.sound.tab⟩ : s'.Sound) (hdown rfl) hepoch ho
      have hlink : (s'.doReplay pol accept order).link = s'.link := link_doReplay
      simp only [link, Prod.mk.injEq] at hlink
      obtain ⟨he, hs, -⟩ := hlink
      refine ⟨hsound, fun ch id x hown => h.stored ch id x ((hres.owns ch id x).mp hown), fun m hm id hid => ?_,
        h.once, ⟨?_, fun _ => ?_⟩, true, ?_, fun hc => (by cases hc), fun _ _ ch => ?_⟩
      · rcases hres.emitted m hm with hm | ⟨hkind, hids⟩
        · exact h.emitted m hm id hid
        · obtain ⟨x, hown⟩ := hids id hid
          rw [hkind]
          exact h.stored m.channel id x hown
      · rw [he]; exact h.epoch.1
      · rw [he]; exact hepoch
      · rw [hs]; exact hleads
      · obtain ⟨calls, hcalls, hi⟩ := hres.chan ch
        refine hi.mono (fun c hc => ?_) (fun a ha => by cases ha)
        obtain ⟨id, x, rfl, hown⟩ := hcalls c hc
        exact h.stored ch id x hown

/-- One step keeps the invariant. -/
theorem steady_step {ev : Event Sym P} (hok : Allowed (s, k) ev) :
    (watch pol (s, k) ev).1.Steady (watch pol (s, k) ev).2 := by
  cases ev with
  | subscribe ch req accept =>
    exact h.of_link hok.1 (inv_subscribe hr (h.inv hok.1) ch req accept (fresh_of_not_mem hok.2)) link_subscribe
  | unsubscribe ch req accept =>
    exact h.of_link hok.1 (inv_unsubscribe hr (h.inv hok.1) ch req accept (fresh_of_not_mem hok.2)) link_unsubscribe
  | subscribeAck ch id x success =>
    refine steady_answer pol h (.subscribeAck ch id x success) hok.1 rfl rfl rfl (fun hup => ?_) (fun hman => ?_)
    · exact inv_subscribeAck (h.inv ⟨hup, hok.1⟩) ch id x success (hok.2 hup)
    · rw [step, onSubscribeAck_of_down hman]
      exact ⟨rfl, fun _ _ _ ho => ho⟩
  | unsubscribeAck ch id x success =>
    refine steady_answer pol h (.unsubscribeAck ch id x success) hok.1 link_onUnsubscribeAck rfl ?_ (fun hup => ?_)
      (fun hman => ?_)
    · simp only [step, onUnsubscribeAck]
      split_ifs <;> rfl
    · exact inv_unsubscribeAck hr (h.inv ⟨hup, hok.1⟩) ch id x success (hok.2 hup)
    · exact onUnsubscribeAck_of_down h.sound hman hr ch id x success
  | rejection id x =>
    refine steady_answer pol h (.rejection id x) hok.1 rfl rfl rfl (fun hup => ?_) (fun hman => ?_)
    · obtain ⟨⟨m, hm, hid, -⟩, hnew⟩ := hok.2 hup
      exact inv_rejection hr (h.inv ⟨hup, hok.1⟩) hm hid hnew
    · exact onRejection_of_down h.sound hman hr id x
  | transportConnected =>
    obtain ⟨told, hleads, hdown, hup⟩ := h.phase
    have hlinked : k.linked = false := hok
    rw [hlinked] at hleads
    exact ⟨⟨h.sound.mgr, h.sound.tab⟩, h.stored, h.emitted, h.once,
      ⟨Nat.le_add_left 1 _, fun _ => Nat.lt_add_of_pos_left h.epoch.1⟩, told, leads_connected hleads, hdown,
      fun _ hnil => by simp [watch, step] at hnil⟩
  | transportClosing => exact ⟨⟨h.sound.mgr, h.sound.tab⟩, h.stored, h.emitted, h.once, h.epoch, h.phase⟩
  | transportClosed =>
    obtain ⟨told, hleads, hdown, hup⟩ := h.phase
    refine ⟨⟨h.sound.mgr, h.sound.tab⟩, h.stored, h.emitted, h.once, ⟨h.epoch.1, fun hc => h.epoch.2 ?_⟩, told,
      leads_disconnected hleads, hdown, fun _ hnil => by simp [watch, step] at hnil⟩
    simpa [watch, step] using hc
  | pollSignal order accept => exact steady_pollSignal hr h accept hok

end Steps

theorem steady_run {pol : Policy} (hr : pol.replay = true) {ok : Session Sym P × Track Sym → Event Sym P → Prop}
    (hok : ∀ t ev, ok t ev → Allowed t ev) {evs : List (Event Sym P)} {t u : Session Sym P × Track Sym}
    (hrun : Run (fun t ev u => u = watch pol t ev) ok t evs u) (ht : t.1.Steady t.2) : u.1.Steady u.2 := by
  refine hrun.invariant (I := fun t => t.1.Steady t.2) ht ?_
  rintro t ev v hs hadm rfl
  exact steady_step hr hs (hok t ev hadm)

/-- The state a run from `opened` ends in. -/
def watched (evs : List (Event ℕ Unit)) : Session ℕ Unit × Track ℕ :=
  evs.foldl (watch defaultPolicy) (opened, ⟨⟨[], []⟩, true⟩)

/-- A trade symbol is acknowledged, a book symbol is asked for. -/
def subscribed : List (Event ℕ Unit) :=
  [.subscribe .trade (.single 1) (fun _ => true), .subscribeAck .trade 10 1 true,
   .subscribe .book (.single 2) (fun _ => true)]

/-- The connection is lost and comes up again. -/
def interrupted : List (Event ℕ Unit) :=
  [.transportClosed, .pollSignal id (fun _ => true), .transportConnected, .pollSignal id (fun _ => true)]

theorem run_watched {ok : Session ℕ Unit × Track ℕ → Event ℕ Unit → Prop} {s : Session ℕ Unit × Track ℕ}
    {evs : List (Event ℕ Unit)} (h : Admitted (watch defaultPolicy) ok s evs) :
    Run (fun t ev u => u = watch defaultPolicy t ev) ok s evs (evs.foldl (watch defaultPolicy) s) := by
  refine Run.of_admitted ?_ h
  intro t ev _
  rfl

/-- **Tables and managers agree on every connection**, however many were lost before. -/
theorem agrees_across_losses {pol : Policy} (hr : pol.replay = true) {evs : List (Event Sym P)}
    {t : Session Sym P × Track Sym}
    (hrun : Run (fun t ev u => u = watch pol t ev) Allowed (opened, ⟨⟨[], []⟩, true⟩) evs t) (hlive : Live t)
    (ch : Channel) : (t.1.replayDb ch).symbols =
      (t.1.managers ch).activeSymbols ∪ (t.1.managers ch).pendingSubscriptions.pendingSymbols := by
  have hs : t.1.Steady t.2 := steady_run hr (fun _ _ h => h) hrun steady_opened
  have hi := (hs.inv hlive).chan ch
  ext x
  rw [Table.mem_symbols hi.tab, hi.agree, Finset.mem_union]
  exact Iff.rfl

theorem agrees_after_interruption : ((watched (subscribed ++ interrupted)).1.replayDb .book).symbols =
    ((watched (subscribed ++ interrupted)).1.managers .book).activeSymbols ∪
      ((watched (subscribed ++ interrupted)).1.managers .book).pendingSubscriptions.pendingSymbols := by
  have hperm : ∀ l : List (Request ℕ Unit), (id l).Perm l := fun l => List.Perm.refl l
  refine agrees_across_losses rfl (run_watched ?_ : Run _ _ _ (subscribed ++ interrupted) _) ⟨rfl, rfl⟩ .book
  exact ⟨⟨⟨rfl, rfl⟩, by decide⟩, ⟨rfl, fun _ => Or.inl rfl⟩, ⟨⟨rfl, rfl⟩, by decide⟩, trivial, hperm, rfl, hperm,
    trivial⟩

end Session

end Wirekrak.Protocol

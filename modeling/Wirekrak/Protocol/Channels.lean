import Wirekrak.Protocol.Agreement
import Wirekrak.Protocol.Confluence
import Wirekrak.Protocol.Reconnect

/-!
# Wirekrak.Protocol.Channels — trade and book do not disturb each other

A rejection names a request and a symbol but no channel: controller and replay database each offer it to their channels
in order, up to the first that takes it.  The two hold different requests at one time (cancelled, acknowledged, stored
again), but both hold a request on the channel of its call only.

* `issued`: the ids given out, each with its channel; `DistinctIds`: no id is given out twice.
* `Issued`: what is pending or stored on a channel was issued on it; kept by every event, the replay included.
* `channels_isolated`: an event for one channel leaves the other alone, and a rejection that manager and table both
  take is taken on one channel.
-/

namespace Wirekrak.Protocol

open Wirekrak.Lib

variable {Sym P : Type} [DecidableEq Sym]

namespace Session

/-- The id a call is given, with its channel; a subscription that the symbol limit refuses is given none. -/
def issued (pol : Policy) (s : Session Sym P) : Event Sym P → Option (ReqId × Channel)
  | .subscribe ch req _ =>
    if pol.hardLimit && !(s.hardSymbolLimitEnforcement pol ch req) then none else some (s.requestId req, ch)
  | .unsubscribe ch req _ => some (s.requestId req, ch)
  | _ => none

/-- One step, observed together with the ids given out so far. -/
def observeIds (pol : Policy) (t : Session Sym P × List (ReqId × Channel)) (ev : Event Sym P) :
    Session Sym P × List (ReqId × Channel) :=
  (t.1.step pol ev, (t.1.issued pol ev).toList ++ t.2)

/-- The id of a call is new on all channels; the iteration order of the replay table invents no request. -/
def DistinctIds (pol : Policy) (t : Session Sym P × List (ReqId × Channel)) : Event Sym P → Prop
  | .pollSignal order _ => ∀ l, ∀ r ∈ order l, r ∈ l
  | ev => ∀ i ∈ t.1.issued pol ev, i.1 ∉ t.2.map Prod.fst

/-- The channel an event is for; a rejection is for the channel on which its id was given out. -/
def Addressed (ids : List (ReqId × Channel)) : Event Sym P → Channel → Prop
  | .subscribe ch _ _, c | .unsubscribe ch _ _, c => ch = c
  | .subscribeAck ch _ _ _, c | .unsubscribeAck ch _ _ _, c => ch = c
  | .rejection id _, c => (id, c) ∈ ids
  | _, _ => False

/-- The channel that `firstDone` ends at. -/
def consumer {σ : Type} (f : σ → Bool × σ) (comp : Channel → σ) : Option Channel :=
  if (f (comp .trade)).1 then some .trade else if (f (comp .book)).1 then some .book else none

omit [DecidableEq Sym] in
theorem of_consumer {σ : Type} {f : σ → Bool × σ} {comp : Channel → σ} {c : Channel}
    (h : consumer f comp = some c) : (f (comp c)).1 = true := by
  unfold consumer at h
  split_ifs at h with ht hb
  · cases h; exact ht
  · cases h; exact hb

end Session

/-! ## One channel -/

/-- Every request of the manager was issued on its channel. -/
structure Manager.IssuedOn (ids : List (ReqId × Channel)) (ch : Channel) (m : Manager Sym) : Prop where
  wf : m.Wf
  pending : ∀ i x, m.Pending i x → (i, ch) ∈ ids

/-- Every request of the table was issued on its channel. -/
structure Table.IssuedOn (ids : List (ReqId × Channel)) (ch : Channel) (t : Table Sym P) : Prop where
  wf : t.Wf
  stored : ∀ i x, t.Owns i x → (i, ch) ∈ ids

section Channel

variable {ids ids' : List (ReqId × Channel)} {ch : Channel} {m : Manager Sym} {t : Table Sym P}

omit [DecidableEq Sym] in
theorem Manager.IssuedOn.empty : (Manager.empty : Manager Sym).IssuedOn ids ch where
  wf := Manager.wf_empty
  pending := fun _ _ h => h.elim (absurd · PendingRequests.not_owns_empty) (absurd · PendingRequests.not_owns_empty)

/-- Only a registration brings a request in. -/
theorem Manager.IssuedOn.apply (h : m.IssuedOn ids ch) (op : Manager.Op Sym)
    (hop : ∀ i, op.Registers i → (i, ch) ∈ ids) : (m.apply op).IssuedOn ids ch := by
  refine ⟨Manager.wf_apply h.wf op, fun i x hp => ?_⟩
  by_cases hi : op.Registers i
  · exact hop i hi
  · obtain ⟨hs, hu⟩ := Manager.owns_of_apply h.wf hi x
    exact h.pending i x (hp.imp hs hu)

/-- A rejection of a request of another channel finds nothing. -/
theorem Manager.IssuedOn.rejection (h : m.IssuedOn ids ch) {id : ReqId} (hid : (id, ch) ∉ ids) (x : Sym) :
    m.tryProcessRejection id x = (false, m) := by
  rcases Manager.tryProcessRejection_cases h.wf id x with ⟨-, -, he⟩ | ⟨ho, -⟩ | ⟨ho, -⟩
  · exact he
  · exact absurd (h.pending id x (Or.inl ho)) hid
  · exact absurd (h.pending id x (Or.inr ho)) hid

theorem Table.IssuedOn.empty : (Table.empty : Table Sym P).IssuedOn ids ch where
  wf := Table.wf_empty
  stored := fun _ _ h => absurd h Table.not_owns_empty

theorem Table.IssuedOn.add (h : t.IssuedOn ids ch) {req : Request Sym P} {id : ReqId} (hreq : req.reqId = some id)
    (hid : (id, ch) ∈ ids) : (t.add req).2.IssuedOn ids ch := by
  refine ⟨Table.wf_add h.wf req, fun i x ho => ?_⟩
  cases hl : t.subscriptions.lookup id with
  | none =>
    rcases (Table.owns_add hreq hl i x).mp ho with ho | ⟨rfl, -⟩
    · exact h.stored i x ho
    · exact hid
  | some old =>
    -- a request under a stored id is not taken
    have hkeep : (t.add req).2 = t := by
      unfold Table.add
      rw [hreq]
      dsimp only
      split_ifs
      · rfl
      · rfl
      · next hno => exact absurd (by rw [hl]; rfl) hno
    exact h.stored i x (hkeep ▸ ho)

theorem Table.IssuedOn.eraseSymbols (h : t.IssuedOn ids ch) (xs : List Sym) :
    (xs.foldl Table.eraseSymbol t).IssuedOn ids ch := by
  obtain ⟨hwf, hown⟩ := Table.foldl_eraseSymbol_spec h.wf xs
  exact ⟨hwf, fun i x ho => h.stored i x ((hown i x).mp ho).1⟩

theorem Table.IssuedOn.tryProcessRejection (h : t.IssuedOn ids ch) (id : ReqId) (x : Sym) :
    (t.tryProcessRejection id x).2.IssuedOn ids ch := by
  rcases Table.tryProcessRejection_cases h.wf id x with ⟨-, he⟩ | ⟨-, -, hwf, hown⟩
  · rw [he]; exact h
  · exact ⟨hwf, fun i y ho => h.stored i y ((hown i y).mp ho).1⟩

theorem Table.IssuedOn.rejection (h : t.IssuedOn ids ch) {id : ReqId} (hid : (id, ch) ∉ ids) (x : Sym) :
    t.tryProcessRejection id x = (false, t) := by
  rcases Table.tryProcessRejection_cases h.wf id x with ⟨-, he⟩ | ⟨ho, -⟩
  · exact he
  · exact absurd (h.stored id x ho) hid

end Channel

/-! ## Every event -/

namespace Session

structure Issued (ids : List (ReqId × Channel)) (s : Session Sym P) : Prop where
  mgr : ∀ ch, (s.managers ch).IssuedOn ids ch
  tab : ∀ ch, (s.replayDb ch).IssuedOn ids ch

section Steps

variable {pol : Policy} {ids ids' : List (ReqId × Channel)} {s : Session Sym P}

theorem Issued.mono (h : s.Issued ids) (hsub : ∀ i ∈ ids, i ∈ ids') : s.Issued ids' where
  mgr := fun ch => ⟨(h.mgr ch).wf, fun i x hp => hsub _ ((h.mgr ch).pending i x hp)⟩
  tab := fun ch => ⟨(h.tab ch).wf, fun i x ho => hsub _ ((h.tab ch).stored i x ho)⟩

theorem Issued.manager (h : s.Issued ids) (ch : Channel) (op : Manager.Op Sym)
    (hop : ∀ i, op.Registers i → (i, ch) ∈ ids) :
    ∀ c, (Function.update s.managers ch ((s.managers ch).apply op) c).IssuedOn ids c :=
  forall_update_of (p := fun c m => Manager.IssuedOn ids c m) h.mgr ((h.mgr ch).apply op hop)

theorem Issued.table (h : s.Issued ids) (ch : Channel) {t : Table Sym P} (ht : t.IssuedOn ids ch) :
    ∀ c, (Function.update s.replayDb ch t c).IssuedOn ids c :=
  forall_update_of (p := fun c t => Table.IssuedOn ids c t) h.tab ht

theorem Issued.place (h : s.Issued ids) (accept : Request Sym P → Bool) (ch : Channel) (req : Request Sym P)
    {id : ReqId} (hid : (id, ch) ∈ ids) : (s.place pol accept ch req id).2.Issued ids := by
  constructor
  · rw [place_managers]
    exact h.manager ch (.registerSubscription req.symbols id) fun i (hi : id = i) => hi ▸ hid
  · by_cases hr : pol.replay = true
    · rw [place_replayDb _ _ _ _ _ hr]
      exact h.table ch ((h.tab ch).add rfl hid)
    · intro c
      unfold Session.place
      dsimp only
      split_ifs <;> exact h.tab c

theorem Issued.assign (h : s.Issued ids) (req : Request Sym P) : (s.assignReqId req).Issued ids := by
  constructor
  · rw [assignReqId_managers]; exact h.mgr
  · rw [assignReqId_replayDb]; exact h.tab

theorem Issued.subscribe (h : s.Issued ids) (accept : Request Sym P → Bool) (ch : Channel) (req : Request Sym P)
    (hid : ∀ i ∈ s.issued pol (.subscribe ch req accept), i ∈ ids) : (s.subscribe pol accept ch req).2.Issued ids := by
  unfold Session.subscribe
  split_ifs with hlim
  · exact h
  · refine (h.assign req).place accept ch req (hid _ ?_)
    show (if _ then none else _) = some _
    rw [if_neg hlim]

theorem Issued.unsubscribe (h : s.Issued ids) (accept : Request Sym P → Bool) (ch : Channel) (req : Request Sym P)
    (hid : (s.requestId req, ch) ∈ ids) : (s.unsubscribe pol accept ch req).2.Issued ids := by
  have h1 := h.assign req
  have hmgr := h1.manager ch (.registerUnsubscription req.symbols (s.requestId req))
    fun i (hi : s.requestId req = i) => hi ▸ hid
  unfold Session.unsubscribe
  dsimp only
  split_ifs
  · exact ⟨hmgr, h1.table ch ((h1.tab ch).eraseSymbols _)⟩
  · exact ⟨hmgr, h1.tab⟩
  · exact ⟨h1.mgr, h1.tab⟩

theorem Issued.onUnsubscribeAck (h : s.Issued ids) (ch : Channel) (id : ReqId) (x : Sym) (success : Bool) :
    (s.onUnsubscribeAck pol ch id x success).Issued ids := by
  have hmgr := h.manager ch (.unsubscribeAck id x success) fun i => False.elim
  unfold Session.onUnsubscribeAck
  dsimp only
  split_ifs
  · exact ⟨hmgr, h.table ch ((h.tab ch).eraseSymbols [x])⟩
  · exact ⟨hmgr, h.tab⟩

theorem Issued.onRejection (h : s.Issued ids) (id : ReqId) (x : Sym) : (s.onRejection pol id x).Issued ids := by
  constructor
  · refine forall_firstDone_of (p := fun c m => Manager.IssuedOn ids c m)
      (f := fun m : Manager Sym => m.tryProcessRejection id x) (fun c m hm => ?_) h.mgr
    exact hm.apply (.rejection id x) fun i => False.elim
  · unfold Session.onRejection
    dsimp only
    split_ifs
    · exact forall_firstDone_of (p := fun c t => Table.IssuedOn ids c t)
        (f := fun t : Table Sym P => t.tryProcessRejection id x) (fun c t ht => ht.tryProcessRejection id x) h.tab
    · exact h.tab

/-- A stored request is placed again under its own id, on its own channel. -/
theorem Issued.foldl_reSubscribe (accept : Request Sym P → Bool) (ch : Channel) (reqs : List (Request Sym P)) :
    ∀ {s : Session Sym P}, s.Issued ids → (∀ r ∈ reqs, ∃ id, r.reqId = some id ∧ (id, ch) ∈ ids) →
      (reqs.foldl (reSubscribe pol accept ch) s).Issued ids := by
  induction reqs with
  | nil => intro s h _; exact h
  | cons r reqs ih =>
    intro s h hreqs
    rw [List.forall_mem_cons] at hreqs
    obtain ⟨⟨id, hr, hid⟩, hrest⟩ := hreqs
    refine ih ?_ hrest
    unfold reSubscribe
    rw [hr]
    exact h.place accept ch r hid

theorem Issued.replayChannel (h : s.Issued ids) (accept : Request Sym P → Bool) {order : Table.Order Sym P}
    (hord : ∀ l, ∀ r ∈ order l, r ∈ l) (ch : Channel) : (s.replayChannel pol accept order ch).Issued ids := by
  refine Issued.foldl_reSubscribe accept ch _
    ⟨h.mgr, h.table ch Table.IssuedOn.empty⟩ fun r hr => ?_
  obtain ⟨id, hl⟩ := Table.mem_stored.mp (hord _ r hr)
  obtain ⟨hreq, hne, hown⟩ := (h.tab ch).wf.stored id r hl
  obtain ⟨x, hx⟩ := List.exists_mem_of_ne_nil _ hne
  exact ⟨id, hreq, (h.tab ch).stored id x (hown x hx)⟩

theorem Issued.pollSignal (h : s.Issued ids) (accept : Request Sym P → Bool) {order : Table.Order Sym P}
    (hord : ∀ l, ∀ r ∈ order l, r ∈ l) : (s.pollSignal pol accept order).Issued ids := by
  unfold Session.pollSignal
  cases s.signals with
  | nil => exact h
  | cons sig rest =>
    have h1 : ({ s with signals := rest } : Session Sym P).Issued ids := ⟨h.mgr, h.tab⟩
    cases sig with
    | connected =>
      simp only [handleConnectionSignal, handleConnect, doReplay]
      split_ifs
      · exact (h1.replayChannel accept hord _).replayChannel accept hord _
      · exact h1
      · exact h1
    | disconnected => exact ⟨fun _ => Manager.IssuedOn.empty, h.tab⟩

/-- What is pending or stored after an event was issued on its channel. -/
theorem Issued.step (h : s.Issued ids) {ev : Event Sym P} (hev : DistinctIds pol (s, ids) ev) :
    (s.step pol ev).Issued ((s.issued pol ev).toList ++ ids) := by
  have h1 : s.Issued ((s.issued pol ev).toList ++ ids) := h.mono fun i hi => List.mem_append_right _ hi
  have hnew : ∀ i ∈ s.issued pol ev, i ∈ (s.issued pol ev).toList ++ ids := fun i hi =>
    List.mem_append_left _ (Option.mem_toList.mpr hi)
  cases ev with
  | subscribe ch req accept => exact h1.subscribe accept ch req hnew
  | unsubscribe ch req accept => exact h1.unsubscribe accept ch req (hnew _ rfl)
  | subscribeAck ch id x success => exact ⟨h1.manager ch (.subscribeAck id x success) fun i => False.elim, h1.tab⟩
  | unsubscribeAck ch id x success => exact h1.onUnsubscribeAck ch id x success
  | rejection id x => exact h1.onRejection id x
  | transportConnected => exact ⟨h1.mgr, h1.tab⟩
  | transportClosing => exact ⟨h1.mgr, h1.tab⟩
  | transportClosed => exact ⟨h1.mgr, h1.tab⟩
  | pollSignal order accept => exact h1.pollSignal accept hev

end Steps

/-! ## Isolation -/

/-- The ids given out so far are all different, and every request is on the channel of its id. -/
structure Separate (t : Session Sym P × List (ReqId × Channel)) : Prop where
  issued : t.1.Issued t.2
  distinct : (t.2.map Prod.fst).Nodup

theorem separate_new : Separate ((new, []) : Session Sym P × List (ReqId × Channel)) where
  issued := ⟨fun _ => Manager.IssuedOn.empty, fun _ => Table.IssuedOn.empty⟩
  distinct := List.nodup_nil

theorem Separate.observeIds {pol : Policy} {t : Session Sym P × List (ReqId × Channel)} (h : Separate t)
    {ev : Event Sym P} (hev : DistinctIds pol t ev) : Separate (observeIds pol t ev) := by
  refine ⟨h.issued.step hev, ?_⟩
  show (((t.1.issued pol ev).toList ++ t.2).map Prod.fst).Nodup
  cases hi : t.1.issued pol ev with
  | none => exact h.distinct
  | some i =>
    have hfresh : i.1 ∉ t.2.map Prod.fst := by
      cases ev with
      | subscribe ch req accept => exact hev i hi
      | unsubscribe ch req accept => exact hev i hi
      | subscribeAck ch id x success => exact hev i hi
      | unsubscribeAck ch id x success => exact hev i hi
      | rejection id x => exact hev i hi
      | transportConnected => exact hev i hi
      | transportClosing => exact hev i hi
      | transportClosed => exact hev i hi
      | pollSignal order accept => cases hi
    exact List.nodup_cons.mpr ⟨hfresh, h.distinct⟩

/-- A request is issued on one channel. -/
theorem Separate.one_channel {t : Session Sym P × List (ReqId × Channel)} (h : Separate t) {id : ReqId}
    {c ch : Channel} (hne : c ≠ ch) (hid : (id, ch) ∈ t.2) : (id, c) ∉ t.2 := by
  intro hc
  have := List.inj_on_of_nodup_map h.distinct hc hid rfl
  exact hne (Prod.mk.inj this).2

section Frame

variable {pol : Policy} {s : Session Sym P} {c ch : Channel}

theorem place_of_ne (hne : c ≠ ch) (accept : Request Sym P → Bool) (req : Request Sym P) (id : ReqId) :
    (s.place pol accept ch req id).2.managers c = s.managers c ∧
      (s.place pol accept ch req id).2.replayDb c = s.replayDb c := by
  constructor
  · rw [place_managers, Function.update_of_ne hne]
  · by_cases hr : pol.replay = true
    · rw [place_replayDb _ _ _ _ _ hr, Function.update_of_ne hne]
    · unfold place
      dsimp only
      split_ifs <;> rfl

theorem subscribe_of_ne (hne : c ≠ ch) (accept : Request Sym P → Bool) (req : Request Sym P) :
    (s.subscribe pol accept ch req).2.managers c = s.managers c ∧
      (s.subscribe pol accept ch req).2.replayDb c = s.replayDb c := by
  unfold subscribe
  split_ifs
  · exact ⟨rfl, rfl⟩
  · have hm : (s.assignReqId req).managers c = s.managers c := by rw [assignReqId_managers]
    have ht : (s.assignReqId req).replayDb c = s.replayDb c := by rw [assignReqId_replayDb]
    rw [← hm, ← ht]
    exact place_of_ne hne accept req (s.requestId req)

theorem unsubscribe_of_ne (hne : c ≠ ch) (accept : Request Sym P → Bool) (req : Request Sym P) :
    (s.unsubscribe pol accept ch req).2.managers c = s.managers c ∧
      (s.unsubscribe pol accept ch req).2.replayDb c = s.replayDb c := by
  unfold unsubscribe
  dsimp only
  split_ifs <;> simp [Function.update_of_ne hne]

theorem onUnsubscribeAck_of_ne (hne : c ≠ ch) (id : ReqId) (x : Sym) (success : Bool) :
    (s.onUnsubscribeAck pol ch id x success).managers c = s.managers c ∧
      (s.onUnsubscribeAck pol ch id x success).replayDb c = s.replayDb c := by
  unfold onUnsubscribeAck
  dsimp only
  split_ifs <;> simp [Function.update_of_ne hne]

theorem onRejection_of_ne {ids : List (ReqId × Channel)} (h : Separate (s, ids)) (hne : c ≠ ch) {id : ReqId}
    (hid : (id, ch) ∈ ids) (x : Sym) : (s.onRejection pol id x).managers c = s.managers c ∧
      (s.onRejection pol id x).replayDb c = s.replayDb c := by
  have hm : firstDone (fun m => m.tryProcessRejection id x) s.managers =
      Function.update s.managers ch ((s.managers ch).tryProcessRejection id x).2 :=
    firstDone_eq ch fun c' hc' => (h.issued.mgr c').rejection (h.one_channel hc' hid) x
  have ht : firstDone (fun t => t.tryProcessRejection id x) s.replayDb =
      Function.update s.replayDb ch ((s.replayDb ch).tryProcessRejection id x).2 :=
    firstDone_eq ch fun c' hc' => (h.issued.tab c').rejection (h.one_channel hc' hid) x
  constructor
  · show firstDone (fun m => m.tryProcessRejection id x) s.managers c = _
    rw [hm, Function.update_of_ne hne]
  · unfold onRejection
    dsimp only
    split_ifs
    · rw [ht, Function.update_of_ne hne]
    · rfl

/-- The frame of an event. -/
theorem step_of_ne {ids : List (ReqId × Channel)} (h : Separate (s, ids)) {ev : Event Sym P}
    (hev : Addressed ids ev ch) (hne : c ≠ ch) :
    (s.step pol ev).managers c = s.managers c ∧ (s.step pol ev).replayDb c = s.replayDb c := by
  cases ev with
  | subscribe ch' req accept => cases hev; exact subscribe_of_ne hne accept req
  | unsubscribe ch' req accept => cases hev; exact unsubscribe_of_ne hne accept req
  | subscribeAck ch' id x success => cases hev; exact ⟨Function.update_of_ne hne _ _, rfl⟩
  | unsubscribeAck ch' id x success => cases hev; exact onUnsubscribeAck_of_ne hne id x success
  | rejection id x => exact onRejection_of_ne h hne hev x
  | transportConnected => exact hev.elim
  | transportClosing => exact hev.elim
  | transportClosed => exact hev.elim
  | pollSignal order accept => exact hev.elim

end Frame

theorem Separate.consumer_issued {t : Session Sym P × List (ReqId × Channel)} (h : Separate t) {id : ReqId} {x : Sym}
    {c : Channel} :
    (consumer (fun m : Manager Sym => m.tryProcessRejection id x) t.1.managers = some c → (id, c) ∈ t.2) ∧
      (consumer (fun u : Table Sym P => u.tryProcessRejection id x) t.1.replayDb = some c → (id, c) ∈ t.2) := by
  constructor
  · intro hc
    by_contra hid
    have htaken := of_consumer hc
    rw [(h.issued.mgr c).rejection hid x] at htaken
    cases htaken
  · intro hc
    by_contra hid
    have htaken := of_consumer hc
    rw [(h.issued.tab c).rejection hid x] at htaken
    cases htaken

/-- **Channels are isolated**: in every state of a run with distinct request ids, an event addressed to one channel
leaves manager and table of the other unchanged, and the manager and the table that take a rejection are of one
channel. -/
theorem channels_isolated {pol : Policy} {evs : List (Event Sym P)} {t : Session Sym P × List (ReqId × Channel)}
    (hrun : Run (fun t ev u => u = observeIds pol t ev) (DistinctIds pol) (new, []) evs t) :
    (∀ ev ch c, Addressed t.2 ev ch → c ≠ ch →
      (t.1.step pol ev).managers c = t.1.managers c ∧ (t.1.step pol ev).replayDb c = t.1.replayDb c) ∧
    ∀ id x c c', consumer (fun m : Manager Sym => m.tryProcessRejection id x) t.1.managers = some c →
      consumer (fun u : Table Sym P => u.tryProcessRejection id x) t.1.replayDb = some c' → c = c' := by
  have hsep : Separate t := by
    refine hrun.invariant separate_new ?_
    rintro t ev u h hev rfl
    exact h.observeIds hev
  refine ⟨fun ev ch c hev hne => step_of_ne hsep hev hne, fun id x c c' hm ht => ?_⟩
  by_contra hne
  exact hsep.one_channel hne (hsep.consumer_issued.2 ht) (hsep.consumer_issued.1 hm)

/-- One symbol on both channels, under two ids. -/
def bothPending : List (Event ℕ Unit) :=
  [.subscribe .trade (.single 7) (fun _ => true), .subscribe .book (.single 7) (fun _ => true)]

/-- The rejection of the book request takes the symbol from the book channel only. -/
theorem channels_isolated_bothPending :
    let t := bothPending.foldl (observeIds defaultPolicy) (new, [])
    (t.1.onRejection defaultPolicy 11 7).managers .trade = t.1.managers .trade ∧
      consumer (fun m => m.tryProcessRejection 11 7) t.1.managers = some .book ∧
      consumer (fun u => u.tryProcessRejection 11 7) t.1.replayDb = some .book := by
  intro t
  have hadm : Admitted (observeIds defaultPolicy) (DistinctIds defaultPolicy) (new, []) bothPending := by
    refine ⟨?_, ?_, trivial⟩
    · intro i hi
      exact List.not_mem_nil
    · rintro i hi
      cases hi
      decide
  have hrun : Run (fun t ev u => u = observeIds defaultPolicy t ev) (DistinctIds defaultPolicy) (new, []) bothPending t := by
    refine Run.of_admitted ?_ hadm
    intro s ev _
    rfl
  obtain ⟨hframe, -⟩ := channels_isolated hrun
  refine ⟨(hframe (.rejection 11 7) .book .trade ?_ (by decide)).1, by decide, by decide⟩
  show (11, Channel.book) ∈ _
  decide

end Session

end Wirekrak.Protocol

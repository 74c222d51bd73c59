import Wirekrak.Protocol.Paced
import Wirekrak.Protocol.Reconnect

/-!
# Wirekrak.Protocol.PacedReplay — a paced session across a reconnect

A request that waits in the scheduler may be cancelled, or belong to a connection that is gone; a replay enqueues the
stored symbols once more.

* `Orderly`: the condition on the steps of a run; `Ordered`: the invariant, with `Wanted` for what waits.
* `sent_once`: every enqueued batch is sent once, in order and on its own connection; a batch that is sent has not been
  cancelled, and after a replay the batches of the new connection name each symbol once.
* `Drains`: what is enqueued is on the wire after enough polls.
* `reconnect_no_loss_iff`: no intent is lost across a reconnect, under every batching mode, iff no stored symbol is
  registered yet.
-/

namespace Wirekrak.Protocol

open Wirekrak.Lib

/-- Every batch that can be made of the request fits its slot. -/
def Pace.Holds {Sym P : Type} (pace : Pace Sym P) (pol : Policy) (req : Request Sym P) : Prop :=
  ∀ l, l.Sublist req.symbols → l.length ≤ pol.batchSize → pace.fits { req with symbols := l } = true

namespace Paced

variable {Sym P : Type} {pol : Policy} {pace : Pace Sym P} {p u : Paced Sym P}

/-! ## The batches of a request -/

/-- The batches of a request, as they are enqueued. -/
def asks (pol : Policy) (epoch : ℕ) (kind : Kind) (ch : Channel) (req : Request Sym P) : List (Message Sym P) :=
  ((Session.batches pol.batchSize req.symbols.length req.symbols).map fun b => { req with symbols := b }).map
    fun m => ⟨epoch, kind, ch, m⟩

theorem mem_asks {epoch : ℕ} {kind : Kind} {ch : Channel} {req : Request Sym P} {m : Message Sym P}
    (h : m ∈ asks pol epoch kind ch req) : ∃ b ∈ Session.batches pol.batchSize req.symbols.length req.symbols,
      m = ⟨epoch, kind, ch, { req with symbols := b }⟩ := by
  obtain ⟨r, hr, rfl⟩ := List.mem_map.mp h
  obtain ⟨b, hb, rfl⟩ := List.mem_map.mp hr
  exact ⟨b, hb, rfl⟩

theorem fits_asks {req : Request Sym P} (h : pace.Holds pol req) {epoch : ℕ} {kind : Kind} {ch : Channel} :
    ∀ m ∈ asks pol epoch kind ch req, pace.fits m.request = true := by
  intro m hm
  obtain ⟨b, hb, rfl⟩ := mem_asks hm
  refine h b ?_ (Session.bounds_batches pol.batchSize_pos _ _ hb).2
  have hsub := List.sublist_flatten_of_mem hb
  rwa [Session.flatten_batches pol.batchSize_pos _ _ (Nat.le_refl _)] at hsub

theorem flatMap_asks (pol : Policy) (epoch : ℕ) (kind : Kind) (ch : Channel) (req : Request Sym P) :
    (asks pol epoch kind ch req).flatMap (fun m => m.request.symbols) = req.symbols := by
  have hflat := Session.flatten_batches pol.batchSize_pos req.symbols.length req.symbols (Nat.le_refl _)
  unfold asks
  rw [List.flatMap_map, List.flatMap_map, List.flatMap_def, List.map_id']
  exact hflat

/-! ## What enqueueing changes -/

/-- The messages `l` are enqueued. -/
def enqueued (p : Paced Sym P) (l : List (Message Sym P)) (overrun : Bool) : Paced Sym P :=
  { p with queue := p.queue ++ l, core := { p.core with emitted := p.core.emitted ++ l }, overrun := overrun }

theorem enqueued_nil (p : Paced Sym P) : p.enqueued [] p.overrun = p := by
  simp [enqueued]

theorem enqueued_cons (m : Message Sym P) (l : List (Message Sym P)) (o o' : Bool) :
    (p.enqueued [m] o).enqueued l o' = p.enqueued (m :: l) o' := by
  simp [enqueued]

/-- The batches are enqueued up to the first that is refused: all of them, where each fits and there is room. -/
theorem enqueueAll_spec (pace : Pace Sym P) (ms : List (Message Sym P)) : ∀ p : Paced Sym P, ∃ l o, l <+: ms ∧
    (p.enqueueAll pace ms).2 = p.enqueued l o ∧ ((∀ m ∈ ms, pace.fits m.request = true) →
      o = p.overrun ∧ (p.queue.length + ms.length < pace.queueCapacity → l = ms)) := by
  induction ms with
  | nil =>
    intro p
    exact ⟨[], p.overrun, List.prefix_rfl, (enqueued_nil p).symm, fun _ => ⟨rfl, fun _ => rfl⟩⟩
  | cons m ms ih =>
    intro p
    unfold enqueueAll enqueue
    by_cases hroom : p.queue.length + 1 < pace.queueCapacity
    · by_cases hfits : pace.fits m.request = true
      · simp only [if_pos hroom, if_pos hfits, if_true]
        obtain ⟨l, o, hl, heq, hall⟩ := ih (p.enqueued [m] p.overrun)
        refine ⟨m :: l, o, List.cons_prefix_cons.mpr ⟨rfl, hl⟩, ?_, fun hms => ?_⟩
        · rw [← enqueued_cons m l p.overrun o]
          exact heq
        · obtain ⟨ho, hl'⟩ := hall fun m' hm' => hms m' (List.mem_cons_of_mem _ hm')
          refine ⟨ho, fun hlen => ?_⟩
          rw [hl' (by simp only [enqueued, List.length_append, List.length_cons, List.length_nil] at hlen ⊢; omega)]
      · simp only [if_pos hroom, if_neg hfits, Bool.false_eq_true, if_false]
        exact ⟨[], true, List.nil_prefix, by simp [enqueued], fun hms => absurd (hms m List.mem_cons_self) hfits⟩
    · simp only [if_neg hroom, Bool.false_eq_true, if_false]
      refine ⟨[], p.overrun, List.nil_prefix, (enqueued_nil p).symm, fun _ => ⟨rfl, fun hlen => ?_⟩⟩
      simp only [List.length_cons] at hlen
      omega

variable [DecidableEq Sym]

/-- `place` registers and stores as the session does, and enqueues a first part of the batches. -/
theorem place_spec (pol : Policy) (pace : Pace Sym P) (hs : p.core.Sound) (ch : Channel) (req : Request Sym P)
    (id : ReqId) :
    ∃ l o, (p.place pol pace ch req id).2 =
        ({ p with core := (p.core.place pol (fun _ => false) ch req id).2 } : Paced Sym P).enqueued l o ∧
      l <+: asks pol p.core.epoch .subscribe ch
        { req with symbols := (p.core.managers ch).accepted req.symbols, reqId := some id } ∧
      (pace.Holds pol { req with reqId := some id } → o = p.overrun ∧
        (p.queue.length + (asks pol p.core.epoch .subscribe ch
            { req with symbols := (p.core.managers ch).accepted req.symbols, reqId := some id }).length <
            pace.queueCapacity →
          l = asks pol p.core.epoch .subscribe ch
            { req with symbols := (p.core.managers ch).accepted req.symbols, reqId := some id })) := by
  have hacc := (Manager.registerSubscription_spec (hs.mgr ch) req.symbols id).1
  unfold place
  dsimp only
  rw [hacc]
  by_cases hnil : (p.core.managers ch).accepted req.symbols = []
  · rw [if_pos hnil, hnil]
    exact ⟨[], p.overrun, (enqueued_nil _).symm, List.nil_prefix, fun _ => ⟨rfl, fun _ => rfl⟩⟩
  · rw [if_neg hnil]
    obtain ⟨l, o, hl, heq, hall⟩ := enqueueAll_spec pace (asks pol p.core.epoch .subscribe ch
      { req with symbols := (p.core.managers ch).accepted req.symbols, reqId := some id })
      { p with core := (p.core.place pol (fun _ => false) ch req id).2 }
    have hepoch : (p.core.place pol (fun _ => false) ch req id).2.epoch = p.core.epoch := Session.place_epoch _ _ _ _ _
    refine ⟨l, o, ?_, hl, fun hholds => hall (fits_asks fun b hb hlen => ?_)⟩
    · rw [← heq]
      unfold emitRequest
      rw [hepoch]
      rfl
    · exact hholds b (hb.trans List.filter_sublist) hlen

/-! ## What waits is wanted -/

/-- Every symbol of the batch is pending under its id. -/
def Wanted (p : Paced Sym P) (m : Message Sym P) : Prop :=
  ∀ x ∈ m.request.symbols, ∃ id, m.request.reqId = some id ∧
    (p.core.managers m.channel).pendingSubscriptions.Owns id x

/-- A subscribe batch of the connection that stands. -/
def Current (p : Paced Sym P) (m : Message Sym P) : Prop := m.kind = .subscribe ∧ m.epoch = p.core.epoch

structure Ordered (p : Paced Sym P) : Prop where
  sound : p.core.Sound
  once : SentOnce p
  intact : p.overrun = false
  epochs : ∀ m ∈ p.core.emitted, m.epoch ≤ p.core.epoch
  wanted : p.core.connected = true → ∀ m ∈ p.queue, p.Current m → p.Wanted m

theorem ordered_new : (new : Paced Sym P).Ordered where
  sound := Session.sound_new
  once := ⟨rfl, fun _ h => by cases h⟩
  intact := rfl
  epochs := fun _ h => by cases h
  wanted := fun h => by cases h

theorem Ordered.mem_emitted (h : p.Ordered) {m : Message Sym P} (hm : m ∈ p.queue) : m ∈ p.core.emitted := by
  rw [h.once.order]
  exact List.mem_append_right _ hm

/-- A step of the session that emits nothing. -/
theorem Ordered.of_core (h : p.Ordered) {c : Session Sym P} (hs : c.Sound) (hem : c.emitted = p.core.emitted)
    (hep : c.epoch = p.core.epoch) (hw : c.connected = true → p.core.connected = true ∧
      ∀ m ∈ p.queue, p.Current m → p.Wanted m → ({ p with core := c } : Paced Sym P).Wanted m) :
    ({ p with core := c } : Paced Sym P).Ordered := by
  refine ⟨hs, ⟨hem.trans h.once.order, h.once.epochs⟩, h.intact, fun m hm => ?_, fun hc m hm hcur => ?_⟩
  · change m.epoch ≤ c.epoch
    rw [hep]
    exact h.epochs m (hem ▸ hm)
  · obtain ⟨hc', hkeep⟩ := hw hc
    have hcur' : p.Current m := ⟨hcur.1, hcur.2.trans hep⟩
    exact hkeep m hm hcur' (h.wanted hc' m hm hcur')

theorem Ordered.enqueued (h : p.Ordered) {l : List (Message Sym P)}
    (hl : ∀ m ∈ l, m.epoch = p.core.epoch ∧ (m.kind = .subscribe → p.Wanted m)) : (p.enqueued l false).Ordered := by
  refine ⟨⟨h.sound.mgr, h.sound.tab⟩, ⟨?_, h.once.epochs⟩, rfl, fun m hm => ?_, fun hc m hm hcur => ?_⟩
  · change p.core.emitted ++ l = p.wire.map Prod.snd ++ (p.queue ++ l)
    rw [h.once.order, List.append_assoc]
  · rcases List.mem_append.mp hm with hm | hm
    · exact h.epochs m hm
    · exact Nat.le_of_eq (hl m hm).1
  · rcases List.mem_append.mp hm with hm | hm
    · exact h.wanted hc m hm hcur
    · exact (hl m hm).2 hcur.1

/-- Registering keeps the pending requests, and what it accepts is pending. -/
theorem Ordered.place (h : p.Ordered) {ch : Channel} {req : Request Sym P} {id : ReqId}
    (hfits : pace.Holds pol { req with reqId := some id }) : (p.place pol pace ch req id).2.Ordered := by
  obtain ⟨l, o, heq, hl, ho⟩ := place_spec pol pace h.sound ch req id
  obtain ⟨hacc, -, -, -, howns⟩ := Manager.registerSubscription_spec (h.sound.mgr ch) req.symbols id
  have hmgr : ∀ c i x, (p.core.managers c).pendingSubscriptions.Owns i x →
      ((p.core.place pol (fun _ => false) ch req id).2.managers c).pendingSubscriptions.Owns i x := by
    intro c i x hown
    rw [Session.place_managers]
    by_cases hc : c = ch
    · subst hc
      rw [Function.update_self]
      exact (howns i x).mpr (.inl hown)
    · rwa [Function.update_of_ne hc]
  have hbase : ({ p with core := (p.core.place pol (fun _ => false) ch req id).2 } : Paced Sym P).Ordered := by
    refine h.of_core (Session.sound_place h.sound _ _ _ _) (place_refused _ _ _ _) (Session.place_epoch _ _ _ _ _)
      fun hc => ⟨(Session.place_connected _ _ _ _ _).symm.trans hc, fun m _ _ hw x hx => ?_⟩
    obtain ⟨i, hi, hown⟩ := hw x hx
    exact ⟨i, hi, hmgr _ _ _ hown⟩
  have hwant : ∀ m ∈ l, m.epoch = (p.core.place pol (fun _ => false) ch req id).2.epoch ∧ (m.kind = .subscribe →
      ({ p with core := (p.core.place pol (fun _ => false) ch req id).2 } : Paced Sym P).Wanted m) := by
    intro m hm
    obtain ⟨b, hb, rfl⟩ := mem_asks (hl.subset hm)
    refine ⟨(Session.place_epoch _ _ _ _ _).symm, fun _ x hx => ⟨id, rfl, ?_⟩⟩
    have hsub := List.sublist_flatten_of_mem hb
    rw [Session.flatten_batches pol.batchSize_pos _ _ (Nat.le_refl _)] at hsub
    change ((p.core.place pol (fun _ => false) ch req id).2.managers ch).pendingSubscriptions.Owns id x
    rw [Session.place_managers, Function.update_self]
    exact (howns id x).mpr (.inr ⟨rfl, hsub.subset hx⟩)
  rw [heq, (ho hfits).1, h.intact]
  exact hbase.enqueued hwant

/-! ## The condition -/

omit [DecidableEq Sym] in
/-- No batch that waits asks for the symbol under this id. -/
def Unasked (p : Paced Sym P) (ch : Channel) (id : ReqId) (x : Sym) : Prop :=
  ∀ m ∈ p.queue, m.kind = .subscribe → m.channel = ch → m.request.reqId = some id → x ∉ m.request.symbols

omit [DecidableEq Sym] in
/-- No subscribe batch was enqueued on the connection that stands. -/
def Unstarted (p : Paced Sym P) : Prop := ∀ m ∈ p.core.emitted, ¬ p.Current m

instance (p : Paced Sym P) (m : Message Sym P) : Decidable (p.Current m) := inferInstanceAs (Decidable (_ ∧ _))

instance (p : Paced Sym P) : Decidable p.Unstarted :=
  inferInstanceAs (Decidable (∀ m ∈ p.core.emitted, ¬ p.Current m))

omit [DecidableEq Sym] in
/-- The batches fit their slots; nothing is unsubscribed while its batch waits, and nothing answered; a connection comes
up when none is; no subscribe call on a new connection comes before the session has handled its signals; and a batch that
is due is on time. -/
def Orderly (pol : Policy) (pace : Pace Sym P) (p : Paced Sym P) : PacedEvent Sym P → Prop
  | .subscribe _ req => pace.Holds pol { req with reqId := some (p.core.requestId req) }
  | .unsubscribe ch req => pace.Holds pol { req with reqId := some (p.core.requestId req) } ∧
      ∀ m ∈ p.queue, m.kind = .subscribe → m.channel = ch → ∀ x ∈ req.symbols, x ∉ m.request.symbols
  | .subscribeAck ch id x _ => p.Unasked ch id x
  | .unsubscribeAck .. => True
  | .rejection id x => ∀ ch, p.Unasked ch id x
  | .transportConnected => p.core.connected = false
  | .transportClosing => True
  | .transportClosed => True
  | .pollSignal order => (∀ l, (order l).Perm l) ∧
      (p.core.signals.head? = some .disconnected → p.core.connected = true → p.Unstarted) ∧
      (p.core.signals.head? = some .connected → pol.replay = true → 1 < p.core.epoch →
        p.Unstarted ∧ ∀ ch, ∀ r ∈ (p.core.replayDb ch).stored, pace.Holds pol r ∧ r.symbols.Nodup)
  | .pollPaced accept => p.OnTime pace (.pollPaced accept)

/-! ## One event -/

theorem Ordered.assignReqId (h : p.Ordered) (req : Request Sym P) :
    ({ p with core := p.core.assignReqId req } : Paced Sym P).Ordered := by
  have hmgr := Session.assignReqId_managers p.core req
  refine h.of_core ⟨?_, ?_⟩ (Session.assignReqId_emitted _ _) (Session.assignReqId_epoch _ _)
    fun hc => ⟨(Session.assignReqId_connected _ _).symm.trans hc, fun m _ _ hw x hx => ?_⟩
  · rw [hmgr]
    exact h.sound.mgr
  · rw [Session.assignReqId_replayDb]
    exact h.sound.tab
  · change ∃ id, _ ∧ ((p.core.assignReqId req).managers m.channel).pendingSubscriptions.Owns id x
    rw [hmgr]
    exact hw x hx

/-- An answer takes away the request that it names, which no batch that waits asks for. -/
theorem Ordered.answered (h : p.Ordered) {c : Session Sym P} (id : ReqId) (x : Sym) (hs : c.Sound)
    (hem : c.emitted = p.core.emitted) (hep : c.epoch = p.core.epoch) (hc : c.connected = p.core.connected)
    (hkeep : ∀ ch i y, (p.core.managers ch).pendingSubscriptions.Owns i y → (p.Unasked ch id x → ¬ (i = id ∧ y = x)) →
      (c.managers ch).pendingSubscriptions.Owns i y) : ({ p with core := c } : Paced Sym P).Ordered := by
  refine h.of_core hs hem hep fun hc' => ⟨hc ▸ hc', fun m hm hcur hw y hy => ?_⟩
  obtain ⟨i, hi, hown⟩ := hw y hy
  refine ⟨i, hi, hkeep _ _ _ hown fun hun hx => ?_⟩
  exact hun m hm hcur.1 rfl (hx.1 ▸ hi) (hx.2 ▸ hy)

theorem Ordered.subscribeAck (h : p.Ordered) {ch : Channel} {id : ReqId} {x : Sym} (success : Bool)
    (hun : p.Unasked ch id x) :
    ({ p with core := p.core.onSubscribeAck ch id x success } : Paced Sym P).Ordered := by
  refine h.answered id x (Session.sound_onSubscribeAck h.sound ch id x success) rfl rfl rfl
    fun c i y hown hne => ?_
  change ((Function.update p.core.managers ch _) c).pendingSubscriptions.Owns i y
  by_cases hc : c = ch
  · subst hc
    rw [Function.update_self]
    rcases Manager.processSubscribeAck_cases (h.sound.mgr c) id x success with ⟨-, heq⟩ | ⟨hx, -, -, howns, -⟩
    · rwa [heq]
    · refine (howns i y).mpr ⟨hown, fun hy => hne hun ⟨?_, hy⟩⟩
      exact (h.sound.mgr c).sub.owner_eq i id x (hy ▸ hown) hx
  · rwa [Function.update_of_ne hc]

theorem Ordered.unsubscribeAck (h : p.Ordered) (ch : Channel) (id : ReqId) (x : Sym) (success : Bool) :
    ({ p with core := p.core.onUnsubscribeAck pol ch id x success } : Paced Sym P).Ordered := by
  have hframe : (p.core.onUnsubscribeAck pol ch id x success).emitted = p.core.emitted ∧
      (p.core.onUnsubscribeAck pol ch id x success).epoch = p.core.epoch ∧
      (p.core.onUnsubscribeAck pol ch id x success).connected = p.core.connected ∧
      (p.core.onUnsubscribeAck pol ch id x success).managers =
        Function.update p.core.managers ch ((p.core.managers ch).processUnsubscribeAck id x success).2 := by
    unfold Session.onUnsubscribeAck
    dsimp only
    split_ifs
    · exact ⟨rfl, rfl, rfl, rfl⟩
    · exact ⟨rfl, rfl, rfl, rfl⟩
  obtain ⟨hem, hep, hc, hmgr⟩ := hframe
  refine h.answered id x (Session.sound_onUnsubscribeAck h.sound ch id x success) hem hep hc
    fun c i y hown _ => ?_
  rw [hmgr]
  by_cases hch : c = ch
  · subst hch
    rw [Function.update_self]
    rcases Manager.processUnsubscribeAck_cases (h.sound.mgr c) id x success with ⟨-, heq⟩ | ⟨-, -, hsub, -⟩
    · rwa [heq]
    · rwa [hsub]
  · rwa [Function.update_of_ne hch]

theorem Ordered.rejection (h : p.Ordered) {id : ReqId} {x : Sym} (hun : ∀ ch, p.Unasked ch id x) :
    ({ p with core := p.core.onRejection pol id x } : Paced Sym P).Ordered := by
  have hkeep : ∀ c, ((p.core.onRejection pol id x).managers c).Wf ∧ ∀ i y,
      (p.core.managers c).pendingSubscriptions.Owns i y → ¬ (i = id ∧ y = x) →
      ((p.core.onRejection pol id x).managers c).pendingSubscriptions.Owns i y := by
    refine Session.forall_firstDone_of (p := fun c (m : Manager Sym) => m.Wf ∧ ∀ i y,
      (p.core.managers c).pendingSubscriptions.Owns i y → ¬ (i = id ∧ y = x) → m.pendingSubscriptions.Owns i y)
      (f := fun m : Manager Sym => m.tryProcessRejection id x) (fun c m hm => ?_) fun c => ⟨h.sound.mgr c, fun _ _ ho _ => ho⟩
    obtain ⟨hwf, hm⟩ := hm
    rcases Manager.tryProcessRejection_cases hwf id x with ⟨-, -, heq⟩ | ⟨hx, -, hwf', -, -, howns⟩ |
      ⟨-, -, hwf', -, hsub, -⟩
    · rw [heq]
      exact ⟨hwf, hm⟩
    · refine ⟨hwf', fun i y hown hne => (howns i y).mpr ⟨hm i y hown hne, fun hy => hne ⟨?_, hy⟩⟩⟩
      exact hwf.sub.owner_eq i id x (hy ▸ hm i y hown hne) hx
    · refine ⟨hwf', fun i y hown hne => ?_⟩
      rw [hsub]
      exact hm i y hown hne
  exact h.answered id x (Session.sound_onRejection h.sound id x) rfl rfl rfl
    fun c i y hown hne => (hkeep c).2 i y hown (hne (hun c))

theorem Ordered.unsubscribe (h : p.Ordered) {ch : Channel} {req : Request Sym P}
    (hfits : pace.Holds pol { req with reqId := some (p.core.requestId req) })
    (hwait : ∀ m ∈ p.queue, m.kind = .subscribe → m.channel = ch → ∀ x ∈ req.symbols, x ∉ m.request.symbols) :
    (p.unsubscribe pol pace ch req).2.Ordered := by
  obtain ⟨l, o, hl, heq, ho⟩ := enqueueAll_spec pace
    (asks pol (p.core.assignReqId req).epoch .unsubscribe ch { req with reqId := some (p.core.requestId req) })
    { p with core := p.core.assignReqId req }
  have ho' : o = false := (ho (fits_asks hfits)).1.trans h.intact
  have hkind : ∀ m ∈ l, m.kind = .unsubscribe ∧ m.epoch = (p.core.assignReqId req).epoch := by
    intro m hm
    obtain ⟨b, -, rfl⟩ := mem_asks (hl.subset hm)
    exact ⟨rfl, rfl⟩
  have henq : (({ p with core := p.core.assignReqId req } : Paced Sym P).enqueued l false).Ordered :=
    (h.assignReqId req).enqueued fun m hm =>
      ⟨(hkind m hm).2, fun hs => by rw [(hkind m hm).1] at hs; cases hs⟩
  have hspec := Manager.registerUnsubscription_spec ((h.assignReqId req).sound.mgr ch) req.symbols (p.core.requestId req)
  have heq' : emitRequest pol pace { p with core := p.core.assignReqId req } .unsubscribe ch
      { req with reqId := some (p.core.requestId req) } =
      ((enqueueAll pace (asks pol (p.core.assignReqId req).epoch .unsubscribe ch
        { req with reqId := some (p.core.requestId req) }) { p with core := p.core.assignReqId req }).1,
        ({ p with core := p.core.assignReqId req } : Paced Sym P).enqueued l false) := by
    rw [← ho', ← heq]
    rfl
  unfold Paced.unsubscribe
  dsimp only
  rw [heq']
  split
  · have hcore : ∀ t : Channel → Table Sym P, (∀ c, (t c).Wf) →
        ({ ({ p with core := p.core.assignReqId req } : Paced Sym P).enqueued l false with
          core := { (({ p with core := p.core.assignReqId req } : Paced Sym P).enqueued l false).core with
            managers := Function.update (p.core.assignReqId req).managers ch
              (((p.core.assignReqId req).managers ch).registerUnsubscription req.symbols (p.core.requestId req)).2
            replayDb := t } } : Paced Sym P).Ordered := by
      intro t ht
      refine henq.of_core ⟨Session.forall_update henq.sound.mgr hspec.2.1, ht⟩ rfl rfl
        fun hc => ⟨hc, fun m hm hcur hw x hx => ?_⟩
      obtain ⟨i, hi, hown⟩ := hw x hx
      refine ⟨i, hi, ?_⟩
      by_cases hch : m.channel = ch
      · have hold : m ∈ p.queue := by
          rcases List.mem_append.mp hm with hm | hm
          · exact hm
          · exact absurd (hcur.1.symm.trans (hkind m hm).1) (by decide)
        change (Function.update (p.core.assignReqId req).managers ch _ m.channel).pendingSubscriptions.Owns i x
        rw [hch, Function.update_self]
        refine (hspec.2.2.2.1 i x).mpr ⟨hch ▸ hown, fun hxr => hwait m hold hcur.1 hch x hxr hx⟩
      · change (Function.update (p.core.assignReqId req).managers ch _ m.channel).pendingSubscriptions.Owns i x
        rw [Function.update_of_ne hch]
        exact hown
    by_cases hr : pol.replay = true
    · rw [if_pos hr]
      exact hcore _ (Session.forall_update henq.sound.tab (Table.foldl_eraseSymbol_spec (henq.sound.tab ch) _).1)
    · rw [if_neg hr]
      exact hcore _ henq.sound.tab
  · exact henq

theorem Ordered.pollPaced (h : p.Ordered) {accept : Bool} (hok : p.OnTime pace (.pollPaced accept)) :
    (p.pollPaced pace accept).Ordered := by
  have honce := (sentOnce_pollPaced_iff h.once accept).mpr hok
  have hframe : (p.pollPaced pace accept).core = p.core ∧ (p.pollPaced pace accept).overrun = p.overrun ∧
      ∀ m ∈ (p.pollPaced pace accept).queue, m ∈ p.queue := by
    unfold Paced.pollPaced
    cases hq : p.queue with
    | nil => exact ⟨rfl, rfl, fun m hm => absurd hm List.not_mem_nil⟩
    | cons m rest =>
      dsimp only
      split
      · exact ⟨rfl, rfl, fun m hm => hq ▸ hm⟩
      · exact ⟨rfl, rfl, fun m hm => List.mem_cons_of_mem _ hm⟩
  obtain ⟨hcore, hover, hqueue⟩ := hframe
  refine ⟨hcore ▸ h.sound, honce, hover.trans h.intact, fun m hm => ?_, fun hc m hm hcur x hx => ?_⟩
  · rw [hcore] at hm ⊢
    exact h.epochs m hm
  · rw [hcore] at hc ⊢
    exact h.wanted hc m (hqueue m hm) ⟨hcur.1, hcur.2.trans (congrArg Session.epoch hcore)⟩ x hx

/-! ## A replay -/

/-- The symbols that the subscribe batches of the connection that stands name, sent or not. -/
def asked (p : Paced Sym P) (ch : Channel) : List Sym :=
  (p.core.emitted.filter fun m => m.kind = .subscribe ∧ m.epoch = p.core.epoch ∧ m.channel = ch).flatMap
    fun m => m.request.symbols

/-- They are named once, and registered. -/
def AskedOnce (p : Paced Sym P) : Prop :=
  ∀ ch, (p.asked ch).Nodup ∧ ∀ x ∈ p.asked ch, (p.core.managers ch).Counts x

omit [DecidableEq Sym] in
theorem Unstarted.askedOnce (h : p.Unstarted) : p.AskedOnce := by
  have hnil : ∀ ch, p.asked ch = [] := by
    intro ch
    unfold asked
    rw [List.filter_eq_nil_iff.mpr fun m hm hc => ?_]
    · rfl
    · exact h m hm ⟨(of_decide_eq_true hc).1, (of_decide_eq_true hc).2.1⟩
  intro ch
  rw [hnil ch]
  exact ⟨List.nodup_nil, fun x hx => absurd hx List.not_mem_nil⟩

/-- A placing names what was not registered, and registers it. -/
theorem AskedOnce.place (h : p.AskedOnce) (hs : p.core.Sound) (ch : Channel) {req : Request Sym P} (id : ReqId)
    (hnd : req.symbols.Nodup) : (p.place pol pace ch req id).2.AskedOnce := by
  obtain ⟨l, o, heq, hl, -⟩ := place_spec pol pace hs ch req id
  have hnew : l.flatMap (fun m => m.request.symbols) <+: (p.core.managers ch).accepted req.symbols := by
    have h1 := flatMap_asks pol p.core.epoch .subscribe ch
      { req with symbols := (p.core.managers ch).accepted req.symbols, reqId := some id }
    obtain ⟨r, hr⟩ := hl
    rw [← hr, List.flatMap_append] at h1
    exact ⟨_, h1⟩
  have hbase : (p.core.place pol (fun _ => false) ch req id).2.emitted = p.core.emitted := place_refused _ _ _ _
  have hepoch : (p.core.place pol (fun _ => false) ch req id).2.epoch = p.core.epoch := Session.place_epoch _ _ _ _ _
  have hcounts := Manager.counts_registerSubscription (hs.mgr ch) req.symbols id
  intro c
  rw [heq]
  unfold asked enqueued
  dsimp only
  rw [hbase, hepoch, List.filter_append, List.flatMap_append, Session.place_managers]
  by_cases hc : c = ch
  · subst hc
    have hall : l.filter (fun m => decide (m.kind = .subscribe ∧ m.epoch = p.core.epoch ∧ m.channel = c)) = l := by
      refine List.filter_eq_self.mpr fun m hm => ?_
      obtain ⟨b, -, rfl⟩ := mem_asks (hl.subset hm)
      exact decide_eq_true ⟨rfl, rfl, rfl⟩
    rw [hall, Function.update_self]
    obtain ⟨hold, hreg⟩ := h c
    refine ⟨List.nodup_append'.mpr ⟨hold, ?_, fun x hx hx' => ?_⟩, fun x hx => ?_⟩
    · exact (hnd.sublist List.filter_sublist).sublist hnew.sublist
    · exact (Manager.mem_accepted.mp (hnew.subset hx')).2 (hreg x hx)
    · rw [hcounts]
      rcases List.mem_append.mp hx with hx | hx
      · exact .inl (hreg x hx)
      · exact .inr (Manager.mem_accepted.mp (hnew.subset hx)).1
  · have hnone : l.filter (fun m => decide (m.kind = .subscribe ∧ m.epoch = p.core.epoch ∧ m.channel = c)) = [] := by
      refine List.filter_eq_nil_iff.mpr fun m hm hd => ?_
      obtain ⟨b, -, rfl⟩ := mem_asks (hl.subset hm)
      exact hc (of_decide_eq_true hd).2.2.symm
    rw [hnone, List.flatMap_nil, List.append_nil, Function.update_of_ne hc]
    exact h c

/-- The requests of a table can be placed again. -/
def Placeable (pol : Policy) (pace : Pace Sym P) (req : Request Sym P) : Prop :=
  (∃ id, req.reqId = some id) ∧ pace.Holds pol req ∧ req.symbols.Nodup

theorem ordered_foldl (ch : Channel) (reqs : List (Request Sym P)) : ∀ p : Paced Sym P, p.Ordered → p.AskedOnce →
    (∀ r ∈ reqs, Placeable pol pace r) →
    (reqs.foldl (reSubscribe pol pace ch) p).Ordered ∧ (reqs.foldl (reSubscribe pol pace ch) p).AskedOnce := by
  induction reqs with
  | nil => exact fun p h ha _ => ⟨h, ha⟩
  | cons r reqs ih =>
    intro p h ha hreqs
    obtain ⟨⟨id, hid⟩, hfits, hnd⟩ := hreqs r List.mem_cons_self
    have hsame : ({ r with reqId := some id } : Request Sym P) = r := by rw [← hid]
    have hget : r.reqId.getD invalidReqId = id := by rw [hid]; rfl
    refine ih _ ?_ ?_ fun r' hr' => hreqs r' (List.mem_cons_of_mem _ hr')
    · unfold reSubscribe
      rw [hget]
      exact h.place (hsame.symm ▸ hfits)
    · exact ha.place h.sound ch _ hnd

theorem foldl_replayDb_ne (hr : pol.replay = true) {ch c : Channel} (hc : c ≠ ch) (reqs : List (Request Sym P)) :
    ∀ p : Paced Sym P, p.Ordered → p.AskedOnce → (∀ r ∈ reqs, Placeable pol pace r) →
      (reqs.foldl (reSubscribe pol pace ch) p).core.replayDb c = p.core.replayDb c := by
  induction reqs with
  | nil => exact fun _ _ _ _ => rfl
  | cons r reqs ih =>
    intro p h ha hreqs
    obtain ⟨h1, ha1⟩ := ordered_foldl ch [r] p h ha fun r' hr' => hreqs r' (by
      rw [List.mem_singleton.mp hr']
      exact List.mem_cons_self)
    obtain ⟨l, o, heq, -⟩ := place_spec pol pace h.sound ch r (r.reqId.getD invalidReqId)
    refine (ih _ h1 ha1 fun r' hr' => hreqs r' (List.mem_cons_of_mem _ hr')).trans ?_
    change (p.place pol pace ch r (r.reqId.getD invalidReqId)).2.core.replayDb c = _
    rw [heq]
    change ((p.core.place pol (fun _ => false) ch r _).2.replayDb) c = _
    rw [Session.place_replayDb _ _ _ _ _ hr, Function.update_of_ne hc]

theorem ordered_replayChannel (hr : pol.replay = true) (h : p.Ordered) (ha : p.AskedOnce) {order : Table.Order Sym P}
    (ho : ∀ l, (order l).Perm l) {ch : Channel}
    (hst : ∀ r ∈ (p.core.replayDb ch).stored, pace.Holds pol r ∧ r.symbols.Nodup) :
    (p.replayChannel pol pace order ch).Ordered ∧ (p.replayChannel pol pace order ch).AskedOnce ∧
      ∀ c, c ≠ ch → (p.replayChannel pol pace order ch).core.replayDb c = p.core.replayDb c := by
  have hstart : ({ p with core := { p.core with
      replayDb := Function.update p.core.replayDb ch Table.empty } } : Paced Sym P).Ordered :=
    h.of_core ⟨h.sound.mgr, Session.forall_update h.sound.tab Table.wf_empty⟩ rfl rfl fun hc => ⟨hc, fun _ _ _ hw => hw⟩
  have hreqs : ∀ r ∈ order (p.core.replayDb ch).stored, Placeable pol pace r := by
    intro r hmem
    have hmem' := (ho _).mem_iff.mp hmem
    obtain ⟨id, hid⟩ := Table.mem_stored.mp hmem'
    exact ⟨⟨id, ((h.sound.tab ch).stored id r hid).1⟩, hst r hmem'⟩
  obtain ⟨h1, h2⟩ := ordered_foldl ch _ _ hstart ha hreqs
  refine ⟨h1, h2, fun c hc => ?_⟩
  have h3 := foldl_replayDb_ne hr hc _ _ hstart ha hreqs
  exact h3.trans (Function.update_of_ne hc _ _)

theorem ordered_doReplay (hr : pol.replay = true) (h : p.Ordered) (hepoch : 1 < p.core.epoch) (ha : p.AskedOnce)
    {order : Table.Order Sym P} (ho : ∀ l, (order l).Perm l)
    (hst : ∀ ch, ∀ r ∈ (p.core.replayDb ch).stored, pace.Holds pol r ∧ r.symbols.Nodup) :
    (p.doReplay pol pace order).Ordered ∧ (p.doReplay pol pace order).AskedOnce := by
  obtain ⟨h1, ha1, hother⟩ := ordered_replayChannel hr h ha ho (hst .trade)
  have hbook : ∀ r ∈ ((p.replayChannel pol pace order .trade).core.replayDb .book).stored,
      pace.Holds pol r ∧ r.symbols.Nodup := by
    rw [hother .book (by decide)]
    exact hst .book
  obtain ⟨h2, ha2, -⟩ := ordered_replayChannel hr h1 ha1 ho hbook
  unfold doReplay
  rw [if_pos hepoch]
  exact ⟨h2, ha2⟩

/-- A signal that replays leaves the batches of the connection with each symbol named once. -/
theorem ordered_pollSignal (h : p.Ordered) {order : Table.Order Sym P} (hok : p.Orderly pol pace (.pollSignal order)) :
    (p.pollSignal pol pace order).Ordered ∧ (p.core.signals.head? = some .connected → pol.replay = true →
      1 < p.core.epoch → (p.pollSignal pol pace order).AskedOnce) := by
  obtain ⟨ho, hdown, hup⟩ := hok
  unfold Paced.pollSignal
  cases hsig : p.core.signals with
  | nil => exact ⟨h, fun h0 => by cases h0⟩
  | cons sig rest =>
    rw [hsig] at hdown hup
    have hrest : ({ p with core := { p.core with signals := rest } } : Paced Sym P).Ordered :=
      h.of_core ⟨h.sound.mgr, h.sound.tab⟩ rfl rfl fun hc => ⟨hc, fun _ _ _ hw => hw⟩
    cases sig with
    | disconnected =>
      refine ⟨h.of_core ⟨fun _ => Manager.wf_empty, h.sound.tab⟩ rfl rfl fun hc => ⟨hc, fun m hm hcur _ => ?_⟩,
        fun h0 => by cases h0⟩
      exact absurd hcur (hdown rfl hc m (h.mem_emitted hm))
    | connected =>
      simp only [handleConnectionSignal]
      by_cases hr : pol.replay = true
      · rw [if_pos hr]
        by_cases hepoch : 1 < p.core.epoch
        · obtain ⟨hun, hst⟩ := hup rfl hr hepoch
          have ha : ({ p with core := { p.core with signals := rest } } : Paced Sym P).AskedOnce := Unstarted.askedOnce hun
          obtain ⟨h1, h2⟩ := ordered_doReplay hr hrest hepoch ha ho hst
          exact ⟨h1, fun _ _ _ => h2⟩
        · unfold doReplay
          rw [if_neg hepoch]
          exact ⟨hrest, fun _ _ h1 => absurd h1 hepoch⟩
      · rw [if_neg hr]
        exact ⟨hrest, fun _ h1 _ => absurd h1 hr⟩

/-- **Every orderly step keeps the invariant.** -/
theorem ordered_step (h : p.Ordered) {ev : PacedEvent Sym P} (hok : p.Orderly pol pace ev) :
    (p.step pol pace ev).Ordered := by
  cases ev with
  | subscribe ch req =>
    simp only [step, subscribe]
    split
    · exact h
    · exact (h.assignReqId req).place hok
  | unsubscribe ch req => exact h.unsubscribe hok.1 hok.2
  | subscribeAck ch id x success => exact h.subscribeAck success hok
  | unsubscribeAck ch id x success => exact h.unsubscribeAck ch id x success
  | rejection id x => exact h.rejection hok
  | transportConnected =>
    -- no batch bears the new epoch
    have hnew : ∀ m ∈ p.core.emitted, m.epoch ≠ p.core.epoch + 1 := by
      intro m hm he
      have := h.epochs m hm
      omega
    refine ⟨⟨h.sound.mgr, h.sound.tab⟩, ⟨h.once.order, h.once.epochs⟩, h.intact, fun m hm => ?_, fun _ m hm hcur => ?_⟩
    · exact Nat.le_succ_of_le (h.epochs m hm)
    · exact absurd hcur.2 (hnew m (h.mem_emitted hm))
  | transportClosing => exact h.of_core ⟨h.sound.mgr, h.sound.tab⟩ rfl rfl fun hc => by cases hc
  | transportClosed => exact h.of_core ⟨h.sound.mgr, h.sound.tab⟩ rfl rfl fun hc => by cases hc
  | pollSignal order => exact (ordered_pollSignal h hok).1
  | pollPaced accept => exact h.pollPaced hok

/-! ## The result -/

/-- A batch that is sent has not been cancelled: its symbols are pending under its id. -/
def NoneCancelled (pace : Pace Sym P) (p : Paced Sym P) : PacedEvent Sym P → Prop
  | .pollPaced accept => ∀ m, p.queue.head? = some m → pace.emitInterval ≤ p.pollCounter + 1 →
      (p.core.connected && accept) = true → m.kind = .subscribe → p.Wanted m
  | _ => True

/-- After a replay, the subscribe batches enqueued for the new connection name each symbol of a channel once. -/
def NoneTwice (pol : Policy) (pace : Pace Sym P) (p : Paced Sym P) : PacedEvent Sym P → Prop
  | .pollSignal order => p.core.signals.head? = some .connected → pol.replay = true → 1 < p.core.epoch →
      ∀ ch, ((p.step pol pace (.pollSignal order)).asked ch).Nodup
  | _ => True

theorem Ordered.noneCancelled (h : p.Ordered) {ev : PacedEvent Sym P} (hok : p.Orderly pol pace ev) :
    p.NoneCancelled pace ev := by
  cases ev with
  | pollPaced accept =>
    intro m hm hdue hsend hkind
    obtain ⟨-, hepoch⟩ := hok m hm hdue
    exact h.wanted (Bool.and_eq_true_iff.mp hsend).1 m (List.mem_of_mem_head? hm) ⟨hkind, hepoch⟩
  | subscribe | unsubscribe | subscribeAck | unsubscribeAck | rejection | transportConnected | transportClosing |
    transportClosed | pollSignal => trivial

theorem Ordered.noneTwice (h : p.Ordered) {ev : PacedEvent Sym P} (hok : p.Orderly pol pace ev) :
    p.NoneTwice pol pace ev := by
  cases ev with
  | pollSignal order => exact fun hsig hr hepoch ch => ((ordered_pollSignal h hok).2 hsig hr hepoch ch).1
  | subscribe | unsubscribe | subscribeAck | unsubscribeAck | rejection | transportConnected | transportClosing |
    transportClosed | pollPaced => trivial

/-- **Paced requests are sent once, on their own connection**, in every orderly run: the enqueued batches are those on
the wire and those that wait, in order, each sent in its epoch, and none is written past its slot; no cancelled batch is
sent, and a replay asks for each symbol once. -/
theorem sent_once (pol : Policy) (pace : Pace Sym P) {evs : List (PacedEvent Sym P)}
    (hok : Admitted (step pol pace) (Orderly pol pace) new evs) :
    (∀ bs, bs <+: evs → SentOnce (after pol pace bs) ∧ (after pol pace bs).overrun = false) ∧
      ∀ bs ev, bs ++ [ev] <+: evs →
        (after pol pace bs).NoneCancelled pace ev ∧ (after pol pace bs).NoneTwice pol pace ev := by
  have hinv : ∀ bs, bs <+: evs → (after pol pace bs).Ordered := by
    intro bs hbs
    have hrun : Run (fun p ev u => step pol pace p ev = u) (Orderly pol pace) new bs (after pol pace bs) :=
      Run.of_admitted (fun _ _ _ => rfl) (hok.of_prefix bs hbs)
    refine hrun.invariant ordered_new ?_
    rintro p ev _ h hp rfl
    exact ordered_step h hp
  refine ⟨fun bs hbs => ⟨(hinv bs hbs).once, (hinv bs hbs).intact⟩, fun bs ev hbs => ?_⟩
  have h := hinv bs ((List.prefix_append bs [ev]).trans hbs)
  have hev := (admitted_concat.mp (hok.of_prefix _ hbs)).2
  exact ⟨h.noneCancelled hev, h.noneTwice hev⟩

/-- A connection is lost with nothing queued, and the replay is sent on the next one. -/
def calm : List (PacedEvent ℕ Unit) :=
  [.transportConnected, .pollSignal id, .subscribe .trade ⟨[1, 2, 3], none, ()⟩, .pollPaced true, .pollPaced true,
   .subscribeAck .trade 10 1 true, .transportClosed, .pollSignal id, .transportConnected, .pollSignal id, .pollPaced true]

theorem sent_once_calm : (after pairs eachPoll calm).wire.map (fun x => (x.1, x.2.epoch, x.2.request.symbols)) =
      [(1, 1, [1, 2]), (1, 1, [3]), (2, 2, [1, 2])] ∧ SentOnce (after pairs eachPoll calm) := by
  have hperm : ∀ l : List (Request ℕ Unit), (id l).Perm l := fun l => List.Perm.refl l
  have hfits : ∀ req : Request ℕ Unit, eachPoll.Holds pairs req := fun _ _ _ _ => rfl
  have hstored : ∀ ch, ∀ r ∈ ((after pairs eachPoll (calm.take 9)).core.replayDb ch).stored, r.symbols.Nodup := by
    intro ch
    cases ch <;> decide
  have hdue : ∀ k, k = 3 ∨ k = 4 ∨ k = 10 → Orderly pairs eachPoll (after pairs eachPoll (calm.take k)) (.pollPaced true) := by
    rintro k (rfl | rfl | rfl) <;>
      exact fun m h _ => (by cases h; exact ⟨rfl, rfl⟩)
  have hsent : Admitted (step pairs eachPoll) (Orderly pairs eachPoll) new calm :=
    ⟨rfl, ⟨hperm, fun h => (by cases h), fun _ _ h => absurd h (by decide)⟩, hfits _, hdue 3 (by decide), hdue 4 (by decide),
      fun _ hm => (by cases hm), trivial, ⟨hperm, fun _ h => (by cases h), fun h => (by cases h)⟩, rfl,
      ⟨hperm, fun h => (by cases h), fun _ _ _ => ⟨by decide, fun ch r hr => ⟨hfits r, hstored ch r hr⟩⟩⟩,
      hdue 10 (by decide), trivial⟩
  exact ⟨by decide, ((sent_once pairs eachPoll hsent).1 calm List.prefix_rfl).1⟩

/-! ## A replay with room -/

omit [DecidableEq Sym] in
theorem length_batches_le {n : ℕ} (hn : 0 < n) : ∀ (k k' : ℕ) (l l' : List Sym), l.length ≤ k → l'.length ≤ l.length →
    (Session.batches n k' l').length ≤ (Session.batches n k l).length := by
  intro k
  induction k with
  | zero =>
    intro k' l l' hl hl'
    rw [List.length_eq_zero_iff.mp (Nat.le_zero.mp (Nat.le_trans hl' hl))]
    cases k' <;> exact Nat.zero_le _
  | succ k ih =>
    intro k' l l' hl hl'
    cases k' with
    | zero => exact Nat.zero_le _
    | succ k' =>
      cases l' with
      | nil => exact Nat.zero_le _
      | cons x' rest' =>
        cases l with
        | nil => simp only [List.length_cons, List.length_nil] at hl'; omega
        | cons x rest =>
          simp only [Session.batches, List.length_cons]
          refine Nat.succ_le_succ (ih k' _ _ ?_ ?_)
          · simp only [List.length_drop, List.length_cons] at hl ⊢
            omega
          · simp only [List.length_drop, List.length_cons] at hl' ⊢
            omega

/-- In paced mode the session's own placing, with nothing refused, logs the batches. -/
theorem place_taken (hmode : pol.mode = .paced) {s : Session Sym P} (hs : s.Sound) (ch : Channel) (req : Request Sym P)
    (id : ReqId) : (s.place pol (fun _ => true) ch req id).2 =
      { (s.place pol (fun _ => false) ch req id).2 with
        emitted := (s.place pol (fun _ => false) ch req id).2.emitted ++ asks pol s.epoch .subscribe ch
          { req with symbols := (s.managers ch).accepted req.symbols, reqId := some id } } := by
  have hacc := (Manager.registerSubscription_spec (hs.mgr ch) req.symbols id).1
  have hemit : ∀ (t : Session Sym P) (r : Request Sym P), (t.emitRequest pol (fun _ => true) .subscribe ch r).2 =
      { (t.emitRequest pol (fun _ => false) .subscribe ch r).2 with
        emitted := (t.emitRequest pol (fun _ => false) .subscribe ch r).2.emitted ++ asks pol t.epoch .subscribe ch r } := by
    intro t r
    have htrue : t.takes pol (fun _ => true) = fun _ => true := by unfold Session.takes; rw [hmode]
    have hfalse : t.takes pol (fun _ => false) = fun _ => false := by unfold Session.takes; rw [hmode]
    have hnone : ∀ ms : List (Request Sym P), (Session.sendAll (fun _ => false) ms).2 = [] := by
      intro ms
      cases ms <;> rfl
    unfold Session.emitRequest asks Session.messages
    rw [htrue, hfalse, Session.sendAll_of_accept fun _ _ => rfl, hmode]
    dsimp only
    rw [hnone]
    simp
  unfold Session.place
  dsimp only
  rw [hacc]
  by_cases hnil : (s.managers ch).accepted req.symbols = []
  · rw [if_pos hnil, hnil]
    simp [asks, Session.batches]
  · rw [if_neg hnil]
    split <;> exact hemit _ _

/-- The batches that the requests can make. -/
def batchesOf (pol : Policy) (reqs : List (Request Sym P)) : List (List Sym) :=
  reqs.flatMap fun r => Session.batches pol.batchSize r.symbols.length r.symbols

/-- Where the batches fit and there is room, placing does what the session does when nothing is refused. -/
theorem place_room (hmode : pol.mode = .paced) (hs : p.core.Sound) (ch : Channel) {req : Request Sym P} (id : ReqId)
    (hfits : pace.Holds pol { req with reqId := some id })
    (hroom : p.queue.length + (batchesOf pol [req]).length < pace.queueCapacity) :
    (p.place pol pace ch req id).2.core = (p.core.place pol (fun _ => true) ch req id).2 ∧
      (p.place pol pace ch req id).2.queue.length ≤ p.queue.length + (batchesOf pol [req]).length := by
  obtain ⟨l, o, heq, -, hall⟩ := place_spec pol pace hs ch req id
  have hlen : (asks pol p.core.epoch .subscribe ch
      { req with symbols := (p.core.managers ch).accepted req.symbols, reqId := some id }).length ≤
      (batchesOf pol [req]).length := by
    simp only [asks, batchesOf, List.length_map, List.flatMap_cons, List.flatMap_nil, List.append_nil]
    exact length_batches_le pol.batchSize_pos _ _ _ _ (Nat.le_refl _) (List.length_filter_le _ _)
  have hl := (hall hfits).2 (Nat.lt_of_le_of_lt (Nat.add_le_add_left hlen _) hroom)
  rw [heq, hl]
  refine ⟨(place_taken hmode hs ch req id).symm, ?_⟩
  simp only [enqueued, List.length_append]
  exact Nat.add_le_add_left hlen _

theorem foldl_room (hmode : pol.mode = .paced) {ch : Channel} (reqs : List (Request Sym P)) : ∀ p : Paced Sym P,
    p.core.Sound → (∀ r ∈ reqs, (∃ id, r.reqId = some id) ∧ pace.Holds pol r) →
    p.queue.length + (batchesOf pol reqs).length < pace.queueCapacity →
    (reqs.foldl (reSubscribe pol pace ch) p).core = reqs.foldl (Session.reSubscribe pol (fun _ => true) ch) p.core ∧
      (reqs.foldl (reSubscribe pol pace ch) p).queue.length ≤ p.queue.length + (batchesOf pol reqs).length := by
  induction reqs with
  | nil => exact fun p _ _ _ => ⟨rfl, Nat.le_add_right _ _⟩
  | cons r reqs ih =>
    intro p hs hreqs hroom
    obtain ⟨⟨id, hid⟩, hfits⟩ := hreqs r List.mem_cons_self
    have hget : r.reqId.getD invalidReqId = id := by rw [hid]; rfl
    have hsame : ({ r with reqId := some id } : Request Sym P) = r := by rw [← hid]
    have hsplit : (batchesOf pol (r :: reqs)).length = (batchesOf pol [r]).length + (batchesOf pol reqs).length := by
      simp [batchesOf]
    rw [hsplit] at hroom ⊢
    obtain ⟨hcore, hlen⟩ := place_room hmode hs ch id (hsame.symm ▸ hfits)
      (Nat.lt_of_le_of_lt (by omega) hroom)
    have hstep : (reSubscribe pol pace ch p r).core = Session.reSubscribe pol (fun _ => true) ch p.core r := by
      unfold reSubscribe Session.reSubscribe
      rw [hget]
      exact hcore
    have hlen' : (reSubscribe pol pace ch p r).queue.length ≤ p.queue.length + (batchesOf pol [r]).length := by
      unfold reSubscribe
      rw [hget]
      exact hlen
    have hs' : (reSubscribe pol pace ch p r).core.Sound := by
      rw [hstep]
      exact Session.sound_place hs _ _ _ _
    obtain ⟨h1, h2⟩ := ih _ hs' (fun r' hr' => hreqs r' (List.mem_cons_of_mem _ hr')) (by omega)
    rw [List.foldl_cons, List.foldl_cons, ← hstep]
    exact ⟨h1, by omega⟩

theorem replayChannel_room (hmode : pol.mode = .paced) (hs : p.core.Sound) {order : Table.Order Sym P}
    (ho : ∀ l, (order l).Perm l) {ch : Channel} (hfits : ∀ r ∈ (p.core.replayDb ch).stored, pace.Holds pol r)
    (hroom : p.queue.length + (batchesOf pol (p.core.replayDb ch).stored).length < pace.queueCapacity) :
    (p.replayChannel pol pace order ch).core = p.core.replayChannel pol (fun _ => true) order ch ∧
      (p.replayChannel pol pace order ch).queue.length ≤
        p.queue.length + (batchesOf pol (p.core.replayDb ch).stored).length := by
  have hperm := ho (p.core.replayDb ch).stored
  have hlen : (batchesOf pol (order (p.core.replayDb ch).stored)).length =
      (batchesOf pol (p.core.replayDb ch).stored).length := (hperm.flatMap_right _).length_eq
  have hstart : ({ p with core := { p.core with
      replayDb := Function.update p.core.replayDb ch Table.empty } } : Paced Sym P).core.Sound :=
    ⟨hs.mgr, Session.forall_update hs.tab Table.wf_empty⟩
  rw [← hlen] at hroom ⊢
  refine foldl_room hmode _ _ hstart (fun r hmem => ?_) hroom
  have hmem' := hperm.mem_iff.mp hmem
  obtain ⟨id, hid⟩ := Table.mem_stored.mp hmem'
  exact ⟨⟨id, ((hs.tab ch).stored id r hid).1⟩, hfits r hmem'⟩

/-- The stored requests make batches that fit their slots, and the ring has room for them. -/
structure Room (pol : Policy) (pace : Pace Sym P) (p : Paced Sym P) : Prop where
  fits : ∀ ch, ∀ r ∈ (p.core.replayDb ch).stored, pace.Holds pol r
  slots : p.queue.length + (batchesOf pol (p.core.replayDb .trade).stored).length +
    (batchesOf pol (p.core.replayDb .book).stored).length < pace.queueCapacity

theorem doReplay_room (hr : pol.replay = true) (hmode : pol.mode = .paced) (hs : p.core.Sound)
    {order : Table.Order Sym P} (ho : ∀ l, (order l).Perm l) (hroom : p.Room pol pace) :
    (p.doReplay pol pace order).core = p.core.doReplay pol (fun _ => true) order := by
  have hslots := hroom.slots
  obtain ⟨h1, hlen1⟩ := replayChannel_room hmode hs ho (hroom.fits .trade)
    (Nat.lt_of_le_of_lt (Nat.le_add_right _ _) hslots)
  have hall : ∀ m, p.core.takes pol (fun _ => true) m = true := by
    intro m
    unfold Session.takes
    rw [hmode]
  -- the first round leaves the other table alone
  have hbook : (p.replayChannel pol pace order .trade).core.replayDb .book = p.core.replayDb .book := by
    rw [h1]
    exact (Session.replayed_replayChannel .trade hr hs hall ho).replayDb_ne .book (by decide)
  have hs1 : (p.replayChannel pol pace order .trade).core.Sound := by
    rw [h1]
    exact Session.sound_replayChannel hs _ _ _
  have hslots1 : (p.replayChannel pol pace order .trade).queue.length +
      (batchesOf pol (p.core.replayDb .book).stored).length < pace.queueCapacity :=
    Nat.lt_of_le_of_lt (Nat.add_le_add_right hlen1 _) hslots
  obtain ⟨h2, -⟩ := replayChannel_room hmode hs1 ho (hbook ▸ hroom.fits .book) (hbook ▸ hslots1)
  rw [h1] at h2
  unfold doReplay Session.doReplay
  split
  · exact h2
  · rfl

/-- **A replay with room does what the session's does when nothing is refused.** -/
theorem pollSignal_room (hr : pol.replay = true) (hmode : pol.mode = .paced) (hs : p.core.Sound)
    {order : Table.Order Sym P} (ho : ∀ l, (order l).Perm l) (hroom : p.Room pol pace) :
    (p.pollSignal pol pace order).core = p.core.pollSignal pol (fun _ => true) order := by
  unfold Paced.pollSignal Session.pollSignal
  cases p.core.signals with
  | nil => rfl
  | cons sig rest =>
    cases sig with
    | disconnected => rfl
    | connected =>
      simp only [handleConnectionSignal, Session.handleConnectionSignal, Session.handleConnect, hr, if_true]
      exact doReplay_room (p := { p with core := { p.core with signals := rest } }) hr hmode ⟨hs.mgr, hs.tab⟩ ho
        ⟨hroom.fits, hroom.slots⟩

/-! ## What waits goes out -/

omit [DecidableEq Sym] in
/-- `n` polls in a row, the connection taking what it is given. -/
def polls (pace : Pace Sym P) (p : Paced Sym P) : ℕ → Paced Sym P
  | 0 => p
  | n + 1 => polls pace (p.pollPaced pace true) n

omit [DecidableEq Sym] in
theorem polls_add (pace : Pace Sym P) (p : Paced Sym P) (n k : ℕ) :
    p.polls pace (n + k) = (p.polls pace n).polls pace k := by
  induction n generalizing p with
  | zero => rw [Nat.zero_add]; rfl
  | succ n ih =>
    rw [Nat.succ_add]
    exact ih _

omit [DecidableEq Sym] in
/-- The oldest batch is sent when its turn comes, after `k` polls that only count. -/
theorem exists_sent (pace : Pace Sym P) {m : Message Sym P} {rest : List (Message Sym P)} : ∀ (k : ℕ) (p : Paced Sym P),
    p.core.connected = true → p.queue = m :: rest → pace.emitInterval ≤ p.pollCounter + k →
    ∃ n, p.polls pace n = { p with pollCounter := 0, queue := rest, wire := p.wire ++ [(p.core.epoch, m)] } := by
  intro k
  induction k with
  | zero =>
    intro p hc hq hk
    refine ⟨1, ?_⟩
    simp only [polls, pollPaced, hq]
    rw [if_neg (by omega), hc]
    rfl
  | succ k ih =>
    intro p hc hq hk
    by_cases hdue : p.pollCounter + 1 < pace.emitInterval
    · obtain ⟨n, hn⟩ := ih { p with pollCounter := p.pollCounter + 1 } hc hq (by dsimp only; omega)
      have hcount : p.pollPaced pace true = { p with pollCounter := p.pollCounter + 1 } := by
        simp only [pollPaced, hq]
        rw [if_pos hdue]
      refine ⟨n + 1, ?_⟩
      unfold polls
      rw [hcount, hn]
    · refine ⟨1, ?_⟩
      simp only [polls, pollPaced, hq]
      rw [if_neg hdue, hc]
      rfl

omit [DecidableEq Sym] in
/-- **What is enqueued goes out on the connection that stands**, in order. -/
theorem exists_drained (pace : Pace Sym P) (q : List (Message Sym P)) : ∀ p : Paced Sym P, p.core.connected = true →
    p.queue = q → ∃ n, (p.polls pace n).wire = p.wire ++ q.map fun m => (p.core.epoch, m) := by
  induction q with
  | nil => exact fun p _ _ => ⟨0, by simp [polls]⟩
  | cons m rest ih =>
    intro p hc hq
    obtain ⟨n, hn⟩ := exists_sent pace pace.emitInterval p hc hq (Nat.le_add_left _ _)
    obtain ⟨n', hn'⟩ := ih (p.polls pace n) (by rw [hn]; exact hc) (by rw [hn])
    refine ⟨n + n', ?_⟩
    rw [polls_add, hn', hn]
    simp

/-! ## Every reachable core is sound -/

theorem sound_place (hs : p.core.Sound) (ch : Channel) (req : Request Sym P) (id : ReqId) :
    (p.place pol pace ch req id).2.core.Sound := by
  obtain ⟨l, o, heq, -⟩ := place_spec pol pace hs ch req id
  have hs' : (p.core.place pol (fun _ => false) ch req id).2.Sound := Session.sound_place hs _ _ _ _
  rw [heq]
  exact ⟨hs'.mgr, hs'.tab⟩

theorem sound_replayChannel (hs : p.core.Sound) (order : Table.Order Sym P) (ch : Channel) :
    (p.replayChannel pol pace order ch).core.Sound := by
  have hfold : ∀ (reqs : List (Request Sym P)) (q : Paced Sym P), q.core.Sound →
      (reqs.foldl (reSubscribe pol pace ch) q).core.Sound := by
    intro reqs
    induction reqs with
    | nil => exact fun _ hq => hq
    | cons r reqs ih => exact fun _ hq => ih _ (sound_place hq _ _ _)
  exact hfold _ _ ⟨hs.mgr, Session.forall_update hs.tab Table.wf_empty⟩

theorem sound_assignReqId (hs : p.core.Sound) (req : Request Sym P) : (p.core.assignReqId req).Sound := by
  refine ⟨?_, ?_⟩
  · rw [Session.assignReqId_managers]
    exact hs.mgr
  · rw [Session.assignReqId_replayDb]
    exact hs.tab

theorem sound_unsubscribe (hs : p.core.Sound) (ch : Channel) (req : Request Sym P) :
    (p.unsubscribe pol pace ch req).2.core.Sound := by
  obtain ⟨l, o, -, heq, -⟩ := enqueueAll_spec pace
    (asks pol (p.core.assignReqId req).epoch .unsubscribe ch { req with reqId := some (p.core.requestId req) })
    { p with core := p.core.assignReqId req }
  have henq : (emitRequest pol pace { p with core := p.core.assignReqId req } .unsubscribe ch
      { req with reqId := some (p.core.requestId req) }).2.core.Sound := by
    have hs' := sound_assignReqId hs req
    change (enqueueAll pace _ _).2.core.Sound
    exact heq.symm ▸ (⟨hs'.mgr, hs'.tab⟩ : (({ p with core := p.core.assignReqId req } : Paced Sym P).enqueued l o).core.Sound)
  have hreg := (Manager.registerUnsubscription_spec (henq.mgr ch) req.symbols (p.core.requestId req)).2.1
  unfold Paced.unsubscribe
  dsimp only
  split_ifs
  · exact ⟨Session.forall_update henq.mgr hreg,
      Session.forall_update henq.tab (Table.foldl_eraseSymbol_spec (henq.tab ch) _).1⟩
  · exact ⟨Session.forall_update henq.mgr hreg, henq.tab⟩
  · exact henq

theorem sound_step (hs : p.core.Sound) (ev : PacedEvent Sym P) : (p.step pol pace ev).core.Sound := by
  cases ev with
  | subscribe ch req =>
    simp only [step, subscribe]
    split
    · exact hs
    · exact sound_place (p := { p with core := p.core.assignReqId req }) (sound_assignReqId hs req) _ _ _
  | unsubscribe ch req => exact sound_unsubscribe hs ch req
  | subscribeAck ch id x success => exact Session.sound_onSubscribeAck hs ch id x success
  | unsubscribeAck ch id x success => exact Session.sound_onUnsubscribeAck hs ch id x success
  | rejection id x => exact Session.sound_onRejection hs id x
  | transportConnected => exact ⟨hs.mgr, hs.tab⟩
  | transportClosing => exact ⟨hs.mgr, hs.tab⟩
  | transportClosed => exact ⟨hs.mgr, hs.tab⟩
  | pollSignal order =>
    simp only [step, Paced.pollSignal]
    cases p.core.signals with
    | nil => exact hs
    | cons sig rest =>
      have hs' : ({ p with core := { p.core with signals := rest } } : Paced Sym P).core.Sound := ⟨hs.mgr, hs.tab⟩
      cases sig with
      | connected =>
        simp only [handleConnectionSignal, doReplay]
        split_ifs
        · exact sound_replayChannel (sound_replayChannel hs' _ _) _ _
        · exact hs'
        · exact hs'
      | disconnected => exact ⟨fun _ => Manager.wf_empty, hs.tab⟩
  | pollPaced accept =>
    have hcore : (p.pollPaced pace accept).core = p.core := by
      unfold Paced.pollPaced
      split
      · rfl
      · split <;> rfl
    exact hcore.symm ▸ hs

theorem sound_after (pol : Policy) (pace : Pace Sym P) (evs : List (PacedEvent Sym P)) :
    (after pol pace evs).core.Sound :=
  List.foldlRecOn (motive := fun p => p.core.Sound) evs (step pol pace) Session.sound_new fun _ hs ev _ => sound_step hs ev

/-! ## Nothing is lost -/

/-- Every stored symbol of `p` is still stored and registered in `u`, and has been asked for by a batch that is enqueued
since and goes out on the connection of `u`. -/
def NoLoss (pace : Pace Sym P) (p u : Paced Sym P) : Prop :=
  ∀ ch, ∀ x ∈ (p.core.replayDb ch).symbols, x ∈ (u.core.replayDb ch).symbols ∧ (u.core.managers ch).Counts x ∧
    ∃ l, u.core.emitted = p.core.emitted ++ l ∧ ∃ m ∈ l,
      m.epoch = u.core.epoch ∧ m.kind = .subscribe ∧ m.channel = ch ∧ x ∈ m.request.symbols ∧
      ∃ n w, (u.polls pace n).wire = u.wire ++ w ∧ (u.core.epoch, m) ∈ w

/-- While the connection stands, what is kept goes out. -/
theorem noLoss_iff (ha : Adds p u) (hc : u.core.connected = true) : NoLoss pace p u ↔ Session.NoLoss p.core u.core := by
  constructor
  · intro h ch x hx
    obtain ⟨hst, hcount, l, hl, m, hm, he, hk, hch, hxm, -⟩ := h ch x hx
    exact ⟨hst, hcount, l, hl, m, hm, he, hk, hch, hxm⟩
  · intro h ch x hx
    obtain ⟨hst, hcount, l, hl, m, hm, he, hk, hch, hxm⟩ := h ch x hx
    obtain ⟨ms, hms, hq, -⟩ := ha
    obtain ⟨n, hn⟩ := exists_drained pace u.queue u hc rfl
    refine ⟨hst, hcount, l, hl, m, hm, he, hk, hch, hxm, n, _, hn, ?_⟩
    rw [hq, List.append_cancel_left (hms.symm.trans hl)]
    exact List.mem_map.mpr ⟨m, List.mem_append_right _ hm, rfl⟩

end Paced

namespace Session

section

variable {Sym P : Type} [DecidableEq Sym]

/-- The signal of a new connection is next, and the connection still stands. -/
structure Reconnecting (s : Session Sym P) : Prop where
  signal : s.signals.head? = some .connected
  epoch : 1 < s.epoch
  up : s.connected = true

/-- **No intent is lost across a reconnect**, exactly when the manager counts no stored symbol: every stored symbol is
then still stored, registered and sent on the new connection.  In paced mode it is sent within some polls, where the
ring has room for the batches. -/
theorem reconnect_no_loss_iff {pol : Policy} (hr : pol.replay = true) :
    (pol.mode ≠ .paced → ∀ (evs : List (Event Sym P)) (s : Session Sym P) (accept : Request Sym P → Bool)
      (order : Table.Order Sym P), Run (fun s ev u => u = s.step pol ev) Possible new evs s → s.Reconnecting →
      (∀ m, accept m = true) → (∀ l, (order l).Perm l) →
      (NoLoss s (s.step pol (.pollSignal order accept)) ↔ s.Unregistered)) ∧
    (pol.mode = .paced → ∀ (pace : Pace Sym P) (evs : List (PacedEvent Sym P)) (order : Table.Order Sym P),
      (Paced.after pol pace evs).core.Reconnecting → (Paced.after pol pace evs).Room pol pace → (∀ l, (order l).Perm l) →
      (Paced.NoLoss pace (Paced.after pol pace evs) ((Paced.after pol pace evs).step pol pace (.pollSignal order)) ↔
        (Paced.after pol pace evs).core.Unregistered)) := by
  refine ⟨fun hmode evs s accept order hrun hnew hacc ho => ?_, fun hmode pace evs order hnew hroom ho => ?_⟩
  · obtain ⟨rest, hsig⟩ := List.head?_eq_some_iff.mp hnew.signal
    refine noLoss_pollSignal_iff hr (sound_run hrun) hsig hnew.epoch (fun m => ?_) ho
    unfold takes
    rw [hnew.up, hacc m]
    cases h : pol.mode with
    | immediate => rfl
    | batch => rfl
    | paced => rfl
  · obtain ⟨rest, hsig⟩ := List.head?_eq_some_iff.mp hnew.signal
    have hs := Paced.sound_after pol pace evs
    have hcore := Paced.pollSignal_room hr hmode hs ho hroom
    have hall : ∀ m, (Paced.after pol pace evs).core.takes pol (fun _ => true) m = true := by
      intro m
      unfold takes
      rw [hmode]
    have hiff := noLoss_pollSignal_iff hr hs hsig hnew.epoch hall ho
    have hup : ((Paced.after pol pace evs).pollSignal pol pace order).core.connected = true := by
      rw [hcore, pollSignal_connected]
      exact hnew.up
    refine (Paced.noLoss_iff (Paced.adds_pollSignal order _) hup).trans ?_
    rw [hcore]
    exact hiff

end

/-! ## Two reconnects -/

/-- The state a run from `new` ends in. -/
def reach (evs : List (Event ℕ Unit)) : Session ℕ Unit := evs.foldl (fun s ev => s.step defaultPolicy ev) new

theorem run_reach {evs : List (Event ℕ Unit)} (h : Admitted (fun s ev => s.step defaultPolicy ev) Possible new evs) :
    Run (fun s ev u => u = s.step defaultPolicy ev) Possible new evs (reach evs) := by
  refine Run.of_admitted ?_ h
  intro t ev _
  rfl

/-- Connected, subscribed to `1`, acknowledged, disconnected. -/
def lostLink : List (Event ℕ Unit) :=
  [.transportConnected, .pollSignal id (fun _ => true), .subscribe .trade (.single 1) (fun _ => true),
   .subscribeAck .trade 10 1 true, .transportClosed, .pollSignal id (fun _ => true)]

theorem reconnect_no_loss_quiet :
    NoLoss (reach (lostLink ++ ([.transportConnected] : List (Event ℕ Unit))))
      ((reach (lostLink ++ ([.transportConnected] : List (Event ℕ Unit)))).step defaultPolicy
        (.pollSignal id (fun _ => true))) ∧
    Paced.NoLoss Paced.eachPoll (Paced.after Paced.pairs Paced.eachPoll (Paced.calm.take 9))
      ((Paced.after Paced.pairs Paced.eachPoll (Paced.calm.take 9)).step Paced.pairs Paced.eachPoll (.pollSignal id)) := by
  have hperm : ∀ l : List (Request ℕ Unit), (id l).Perm l := fun l => List.Perm.refl l
  constructor
  · refine ((@reconnect_no_loss_iff ℕ Unit _ defaultPolicy rfl).1 (by decide) _ _ _ _ (run_reach ?_) ⟨rfl, by decide, rfl⟩
      (fun _ => rfl) hperm).mpr ?_
    · exact ⟨rfl, hperm, trivial, trivial, trivial, hperm, rfl, trivial⟩
    · intro ch
      cases ch <;> decide
  · refine ((@reconnect_no_loss_iff ℕ Unit _ Paced.pairs rfl).2 rfl _ _ _ ⟨rfl, by decide, rfl⟩ ⟨fun _ _ _ _ _ _ => rfl, ?_⟩
      hperm).mpr ?_
    · decide
    · intro ch
      cases ch <;> decide

/-- The symbol `2` is asked for while the connection is down. -/
def askedWhileDown : List (Event ℕ Unit) :=
  lostLink ++ ([.subscribe .trade (.single 2) (fun _ => true), .transportConnected] : List (Event ℕ Unit))

/-- Replaying filters `2` as pending: it is neither stored any more nor asked for on the new connection. -/
theorem reconnect_loses_symbol_asked_while_down :
    Run (fun s ev u => u = s.step defaultPolicy ev) Possible new askedWhileDown (reach askedWhileDown) ∧
    (reach askedWhileDown).signals = [.connected] ∧ 1 < (reach askedWhileDown).epoch ∧
    (reach askedWhileDown).connected = true ∧
    2 ∈ ((reach askedWhileDown).replayDb .trade).symbols ∧
    2 ∉ (((reach askedWhileDown).step defaultPolicy (.pollSignal id (fun _ => true))).replayDb .trade).symbols ∧
    ∀ m ∈ ((reach askedWhileDown).step defaultPolicy (.pollSignal id (fun _ => true))).emitted,
      2 ∉ m.request.symbols := by
  have hperm : ∀ l : List (Request ℕ Unit), (id l).Perm l := fun l => List.Perm.refl l
  refine ⟨run_reach ?_, rfl, by decide, rfl, by decide, by decide, by decide⟩
  exact ⟨rfl, hperm, trivial, trivial, trivial, hperm, trivial, rfl, trivial⟩


end Session

end Wirekrak.Protocol

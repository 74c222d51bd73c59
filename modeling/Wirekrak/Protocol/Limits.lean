import Wirekrak.Protocol.Lifecycle
import Wirekrak.Protocol.Reconnect

/-!
# Wirekrak.Protocol.Limits — the hard symbol limits over whole runs

`hard_symbol_limit_enforcement_` compares what the managers count with the limits before it lets a request through.
A disconnect empties the managers and keeps the replay tables, so requests made while the connection is down are
checked against nothing, and `do_replay_` registers the stored symbols without a check.

* `Within`: the symbols each channel counts are within the limits.
* `within_step_iff`: every event keeps the limits, except a replay whose stored symbols do not fit.
* `limits_iff`: the same over whole runs.
-/

namespace Wirekrak.Protocol

open Wirekrak.Lib

variable {Sym P : Type} [DecidableEq Sym]

namespace Manager

/-- The symbols that are active or pending-subscribe. -/
def counted (m : Manager Sym) : Finset Sym := m.activeSymbols ∪ m.pendingSubscriptions.pendingSymbols

theorem mem_counted {m : Manager Sym} {x : Sym} : x ∈ m.counted ↔ m.Counts x := Finset.mem_union

theorem counted_registerSubscription {m : Manager Sym} (hm : m.Wf) (symbols : List Sym) (id : ReqId) :
    (m.registerSubscription symbols id).2.counted = m.counted ∪ symbols.toFinset := by
  ext x
  rw [mem_counted, counts_registerSubscription hm, Finset.mem_union, mem_counted, List.mem_toFinset]

/-- Only a registration adds to the counted symbols. -/
theorem counted_apply_subset {m : Manager Sym} (hm : m.Wf) (op : Op Sym)
    (hop : ∀ symbols id, op ≠ .registerSubscription symbols id) : (m.apply op).counted ⊆ m.counted := by
  -- what is pending stays pending or comes from the pending subscription of a subscribe ACK
  have hpend : ∀ x, x ∈ (m.apply op).pendingSubscriptions.pendingSymbols →
      x ∈ m.pendingSubscriptions.pendingSymbols := by
    intro x hx
    obtain ⟨i, hi⟩ := ((wf_apply hm op).sub.mem_iff x).mp hx
    refine (hm.sub.mem_iff x).mpr ⟨i, ?_⟩
    by_cases hreg : op.Registers i
    · cases op with
      | registerSubscription symbols id => exact absurd rfl (hop symbols id)
      | registerUnsubscription symbols id =>
        exact (((registerUnsubscription_spec hm symbols id).2.2.2.1 i x).mp hi).1
      | subscribeAck | unsubscribeAck | rejection | clearAll => exact absurd hreg id
    · exact (owns_of_apply hm hreg x).1 hi
  intro x hx
  rw [mem_counted] at hx ⊢
  rcases hx with hx | hx
  · rcases active_apply hm op with he | ⟨i, s, -, hown, he⟩ | ⟨i, s, -, -, he⟩ | rfl
    · exact Or.inl (he ▸ hx)
    · rw [he] at hx
      rcases Finset.mem_insert.mp hx with rfl | hx
      · exact Or.inr (hown.mem hm.sub)
      · exact Or.inl hx
    · rw [he] at hx
      exact Or.inl (Finset.mem_of_mem_erase hx)
    · simp [apply, empty] at hx
  · exact Or.inr (hpend x hx)

end Manager

/-- The configured bounds hold for these symbols; a bound of `0` is none. -/
def Policy.Holds (pol : Policy) (f : Channel → Finset Sym) : Prop :=
  (0 < pol.maxPerChannel → ∀ ch, (f ch).card ≤ pol.maxPerChannel) ∧
  (0 < pol.maxGlobal → (f .trade).card + (f .book).card ≤ pol.maxGlobal)

omit [DecidableEq Sym] in
theorem Policy.Holds.mono {pol : Policy} {f g : Channel → Finset Sym} (h : pol.Holds f) (hsub : ∀ ch, g ch ⊆ f ch) :
    pol.Holds g := by
  have hcard : ∀ ch, (g ch).card ≤ (f ch).card := fun ch => Finset.card_le_card (hsub ch)
  refine ⟨fun hp ch => (hcard ch).trans (h.1 hp ch), fun hp => ?_⟩
  have := h.2 hp
  have := hcard .trade
  have := hcard .book
  omega

namespace Session

/-- Each channel counts no more symbols than its bound, all channels no more than the global one. -/
def Within (pol : Policy) (s : Session Sym P) : Prop := pol.Holds fun ch => (s.managers ch).counted

/-- The replay of a reconnect finds that what is stored and what is registered fits together. -/
def Fits (pol : Policy) (s : Session Sym P) : Event Sym P → Prop
  | .pollSignal _ _ => s.signals.head? = some .connected → pol.replay = true → 1 < s.epoch →
      pol.Holds fun ch => (s.managers ch).counted ∪ (s.replayDb ch).symbols
  | _ => True

/-- The session after a list of events. -/
def after (pol : Policy) (evs : List (Event Sym P)) : Session Sym P := evs.foldl (step pol) new

variable {pol : Policy} {s u : Session Sym P}

/-- An event of one channel. -/
theorem counted_update (hs : s.Sound) (ch : Channel) (op : Manager.Op Sym)
    (hop : ∀ symbols id, op ≠ .registerSubscription symbols id) (c : Channel) :
    (Function.update s.managers ch ((s.managers ch).apply op) c).counted ⊆ (s.managers c).counted := by
  by_cases hc : c = ch
  · subst hc
    rw [Function.update_self]
    exact Manager.counted_apply_subset (hs.mgr c) op hop
  · rw [Function.update_of_ne hc]

theorem firstDone_cases {σ : Type} (f : σ → Bool × σ) (comp : Channel → σ) (c : Channel) :
    firstDone f comp c = comp c ∨ firstDone f comp c = (f (comp c)).2 := by
  unfold firstDone
  dsimp only
  cases c <;> split_ifs <;> simp

/-! ## Subscribing -/

/-- The check compares the number of counted symbols. -/
theorem totalSymbols_eq (hs : s.Sound) (ch : Channel) : (s.managers ch).totalSymbols = (s.managers ch).counted.card :=
  (hs.mgr ch).counted

theorem within_subscribe (hh : pol.hardLimit = true) (hs : s.Sound) (hw : Within pol s)
    (accept : Request Sym P → Bool) (ch : Channel) (req : Request Sym P) :
    Within pol (s.subscribe pol accept ch req).2 := by
  by_cases hcheck : s.hardSymbolLimitEnforcement pol ch req = true
  · have hsub : (s.subscribe pol accept ch req).2.managers = Function.update s.managers ch
        ((s.managers ch).registerSubscription req.symbols (s.requestId req)).2 := by
      unfold subscribe
      rw [hh, hcheck]
      simp [place_managers]
    have hlen := List.toFinset_card_le req.symbols
    have hnew : ((s.managers ch).counted ∪ req.symbols.toFinset).card ≤
        (s.managers ch).totalSymbols + req.symbols.length := by
      have := Finset.card_union_le (s.managers ch).counted req.symbols.toFinset
      rw [totalSymbols_eq hs]
      omega
    unfold hardSymbolLimitEnforcement at hcheck
    simp only [Bool.and_eq_true, Bool.or_eq_true, decide_eq_true_eq] at hcheck
    obtain ⟨hper, hglobal⟩ := hcheck
    unfold Within
    rw [hsub]
    refine ⟨fun hp c => ?_, fun hp => ?_⟩
    · by_cases hc : c = ch
      · subst hc
        simp only [Function.update_self, Manager.counted_registerSubscription (hs.mgr c)]
        omega
      · simp only [Function.update_of_ne hc]
        exact hw.1 hp c
    · have htrade := totalSymbols_eq hs .trade
      have hbook := totalSymbols_eq hs .book
      unfold totalSymbols at hglobal
      cases ch with
      | trade =>
        simp only [Function.update_self, Manager.counted_registerSubscription (hs.mgr _),
          Function.update_of_ne (show Channel.book ≠ .trade from by decide)]
        omega
      | book =>
        simp only [Function.update_self, Manager.counted_registerSubscription (hs.mgr _),
          Function.update_of_ne (show Channel.trade ≠ .book from by decide)]
        omega
  · have hsame : (s.subscribe pol accept ch req).2 = s := by
      unfold subscribe
      rw [hh, Bool.eq_false_iff.mpr hcheck]
      rfl
    rw [hsame]
    exact hw

/-! ## Replay -/

theorem counted_foldl_reSubscribe (accept : Request Sym P → Bool) (ch : Channel) (reqs : List (Request Sym P)) :
    ∀ s : Session Sym P, s.Sound → ∀ c, ((reqs.foldl (reSubscribe pol accept ch) s).managers c).counted =
      if c = ch then (s.managers c).counted ∪ (reqs.flatMap fun r => r.symbols).toFinset else (s.managers c).counted := by
  induction reqs with
  | nil =>
    intro s _ c
    by_cases hc : c = ch <;> simp [hc]
  | cons r reqs ih =>
    intro s hs c
    have hs1 : (reSubscribe pol accept ch s r).Sound := sound_place hs _ _ _ _
    rw [List.foldl_cons, ih _ hs1]
    unfold reSubscribe
    rw [place_managers]
    by_cases hc : c = ch
    · subst hc
      rw [if_pos rfl, if_pos rfl, Function.update_self, Manager.counted_registerSubscription (hs.mgr c),
        List.flatMap_cons, List.toFinset_append, Finset.union_assoc]
    · rw [if_neg hc, if_neg hc, Function.update_of_ne hc]

theorem replayDb_foldl_reSubscribe (accept : Request Sym P → Bool) (ch : Channel) (reqs : List (Request Sym P)) :
    ∀ (s : Session Sym P) (c : Channel), c ≠ ch →
      (reqs.foldl (reSubscribe pol accept ch) s).replayDb c = s.replayDb c := by
  induction reqs with
  | nil => intro s c _; rfl
  | cons r reqs ih =>
    intro s c hc
    rw [List.foldl_cons, ih _ c hc]
    unfold reSubscribe place
    dsimp only
    split_ifs
    · rfl
    · exact Function.update_of_ne hc _ _
    · rfl

/-- One channel's round registers all the channel has stored. -/
theorem counted_replayChannel (hs : s.Sound) (accept : Request Sym P → Bool) {order : Table.Order Sym P}
    (ho : ∀ l, (order l).Perm l) (ch c : Channel) :
    ((s.replayChannel pol accept order ch).managers c).counted =
      if c = ch then (s.managers c).counted ∪ (s.replayDb c).symbols else (s.managers c).counted := by
  have hs1 : Sound { s with replayDb := Function.update s.replayDb ch Table.empty } :=
    ⟨hs.mgr, forall_update hs.tab Table.wf_empty⟩
  refine (counted_foldl_reSubscribe accept ch _ _ hs1 c).trans ?_
  by_cases hc : c = ch
  · subst hc
    rw [if_pos rfl, if_pos rfl]
    congr 1
    unfold Table.takeSubscriptions Table.symbols
    exact List.toFinset_eq_of_perm _ _ ((ho _).flatMap_right _)
  · rw [if_neg hc, if_neg hc]

/-- The replay registers all that is stored, on both channels. -/
theorem counted_doReplay (pol : Policy) (hs : s.Sound) (hepoch : 1 < s.epoch) (accept : Request Sym P → Bool)
    {order : Table.Order Sym P} (ho : ∀ l, (order l).Perm l) (c : Channel) :
    ((s.doReplay pol accept order).managers c).counted = (s.managers c).counted ∪ (s.replayDb c).symbols := by
  have hbook : (s.replayChannel pol accept order .trade).replayDb .book = s.replayDb .book := by
    have hne : Channel.book ≠ .trade := by decide
    exact (replayDb_foldl_reSubscribe accept .trade _ _ .book hne).trans (Function.update_of_ne hne Table.empty _)
  unfold doReplay
  rw [if_pos hepoch, List.foldl_cons, List.foldl_cons, List.foldl_nil,
    counted_replayChannel (sound_replayChannel hs _ _ _) accept ho, counted_replayChannel hs accept ho]
  cases c with
  | trade => rfl
  | book => rw [if_pos rfl, if_neg (by decide), hbook]

/-! ## One event -/

theorem within_pollSignal_iff (hs : s.Sound) (hw : Within pol s) (accept : Request Sym P → Bool)
    {order : Table.Order Sym P} (ho : ∀ l, (order l).Perm l) :
    Within pol (s.pollSignal pol accept order) ↔ s.Fits pol (.pollSignal order accept) := by
  unfold Fits pollSignal
  cases hsig : s.signals with
  | nil => exact iff_of_true hw fun h => by cases h
  | cons sig rest =>
    cases sig with
    | disconnected =>
      refine iff_of_true (hw.mono fun ch => ?_) fun h => by cases h
      exact Finset.union_subset (Finset.empty_subset _) (Finset.empty_subset _)
    | connected =>
      simp only [List.head?_cons, true_implies, handleConnectionSignal, handleConnect]
      by_cases hr : pol.replay = true
      · rw [if_pos hr]
        simp only [hr, true_implies]
        by_cases hepoch : 1 < s.epoch
        · have hcounted := counted_doReplay pol (s := { s with signals := rest }) ⟨hs.mgr, hs.tab⟩ hepoch
            accept ho
          unfold Within
          rw [funext hcounted]
          exact (true_imp_iff.symm).trans (imp_congr (by simp [hepoch]) Iff.rfl)
        · refine iff_of_true ?_ fun h => absurd h hepoch
          unfold doReplay
          rw [if_neg hepoch]
          exact hw
      · rw [if_neg hr]
        exact iff_of_true hw fun h => absurd h hr

theorem within_step_iff (hh : pol.hardLimit = true) (hs : s.Sound) (hw : Within pol s) {ev : Event Sym P}
    (hp : s.Possible ev) : Within pol (s.step pol ev) ↔ s.Fits pol ev := by
  cases ev with
  | pollSignal order accept => exact within_pollSignal_iff hs hw accept hp
  | subscribe ch req accept => exact iff_of_true (within_subscribe hh hs hw accept ch req) trivial
  | unsubscribe ch req accept =>
    refine iff_of_true (hw.mono fun c => ?_) trivial
    have hreg := counted_update hs ch (.registerUnsubscription req.symbols (s.requestId req)) (by simp) c
    simp only [step, unsubscribe]
    split_ifs
    · simpa only [emitRequest_managers, assignReqId_managers, Manager.apply] using hreg
    · simpa only [emitRequest_managers, assignReqId_managers, Manager.apply] using hreg
    · simp only [emitRequest_managers, assignReqId_managers, Finset.Subset.refl]
  | subscribeAck ch id x success =>
    refine iff_of_true (hw.mono fun c => ?_) trivial
    exact counted_update hs ch (.subscribeAck id x success) (by simp) c
  | unsubscribeAck ch id x success =>
    refine iff_of_true (hw.mono fun c => ?_) trivial
    simp only [step, onUnsubscribeAck]
    split_ifs
    · exact counted_update hs ch (.unsubscribeAck id x success) (by simp) c
    · exact counted_update hs ch (.unsubscribeAck id x success) (by simp) c
  | rejection id x =>
    refine iff_of_true (hw.mono fun c => ?_) trivial
    rcases firstDone_cases (fun m : Manager Sym => m.tryProcessRejection id x) s.managers c with he | he
    · simp only [step, onRejection, he, Finset.Subset.refl]
    · simp only [step, onRejection, he]
      exact Manager.counted_apply_subset (hs.mgr c) (.rejection id x) (by simp)
  | transportConnected => exact iff_of_true hw trivial
  | transportClosing => exact iff_of_true hw trivial
  | transportClosed => exact iff_of_true hw trivial

/-! ## Whole runs -/

theorem sound_after (pol : Policy) (evs : List (Event Sym P)) : (after pol evs).Sound := by
  unfold after
  induction evs using List.reverseRecOn with
  | nil => exact sound_new
  | append_singleton evs ev ih =>
    rw [List.foldl_concat]
    exact sound_step ih ev

/-- **The hard limits hold throughout a run** exactly when every replay finds that the stored symbols fit. -/
theorem limits_iff {pol : Policy} (hh : pol.hardLimit = true) {evs : List (Event Sym P)}
    (hp : Admitted (step pol) Possible new evs) :
    (∀ p, p <+: evs → Within pol (after pol p)) ↔ Admitted (step pol) (Fits pol) new evs := by
  refine forall_prefix_iff_admitted ⟨fun _ _ => Nat.zero_le _, fun _ => Nat.zero_le _⟩ fun bs ev hbs _ hw => ?_
  exact within_step_iff hh (sound_after pol bs) hw (admitted_concat.mp (hp.of_prefix _ hbs)).2

/-- One symbol a channel, two in all. -/
def bounded : Policy := { defaultPolicy with hardLimit := true, maxPerChannel := 1, maxGlobal := 2 }

/-- Two symbols on two channels, a lost connection, and the reconnect. -/
def bothChannels : List (Event ℕ Unit) :=
  [.transportConnected, .pollSignal id (fun _ => true), .subscribe .trade (.single 1) (fun _ => true),
   .subscribe .book (.single 1) (fun _ => true), .subscribe .trade (.single 2) (fun _ => true), .transportClosed,
   .pollSignal id (fun _ => true), .transportConnected, .pollSignal id (fun _ => true)]

theorem limits_iff_bothChannels : (∀ p, p <+: bothChannels → Within bounded (after bounded p)) ∧
    (((after bounded bothChannels).managers .trade).counted = {1}) := by
  have hperm : ∀ l : List (Request ℕ Unit), (id l).Perm l := fun l => List.Perm.refl l
  have hposs : Admitted (step bounded) Possible new bothChannels :=
    ⟨rfl, hperm, trivial, trivial, trivial, trivial, hperm, rfl, hperm, trivial⟩
  refine ⟨(limits_iff rfl hposs).mpr ?_, by decide⟩
  refine ⟨trivial, fun _ _ h => absurd h (by decide), trivial, trivial, trivial, trivial, fun h => absurd h (by decide),
    trivial, fun _ _ _ => ⟨fun _ ch => ?_, fun _ => by decide⟩, trivial⟩
  cases ch <;> decide

/-- One symbol is subscribed before the connection is lost, another one while it is down. -/
def whileDown : List (Event ℕ Unit) :=
  [.transportConnected, .pollSignal id (fun _ => true), .subscribe .trade (.single 1) (fun _ => true), .transportClosed,
   .pollSignal id (fun _ => true), .subscribe .trade (.single 2) (fun _ => true), .transportConnected,
   .pollSignal id (fun _ => true)]

/-- The replay takes the channel over its bound. -/
theorem replay_exceeds_limit : Admitted (step bounded) Possible new whileDown ∧
    ¬ ∀ p, p <+: whileDown → Within bounded (after bounded p) := by
  have hperm : ∀ l : List (Request ℕ Unit), (id l).Perm l := fun l => List.Perm.refl l
  refine ⟨⟨rfl, hperm, trivial, trivial, hperm, trivial, rfl, hperm, trivial⟩, fun h => ?_⟩
  exact absurd ((h whileDown List.prefix_rfl).1 (by decide) .trade) (by decide)

end Session

end Wirekrak.Protocol

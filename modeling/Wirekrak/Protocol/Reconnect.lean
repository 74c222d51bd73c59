import Wirekrak.Lib.Run
import Wirekrak.Protocol.Session

/-!
# Wirekrak.Protocol.Reconnect — what a reconnect keeps

`do_replay_` empties a channel's table and places its requests again through the manager, which filters every symbol
it already counts.  A filtered symbol is stored nowhere any more.

* `Sound`: managers and tables are well formed; kept by every event.
* `Replayed`: what placing a list of requests does to a channel.
* `noLoss_pollSignal_iff`: where nothing refuses a message, the replay loses nothing iff the manager counts no stored
  symbol.
-/

namespace Wirekrak.Protocol

open Wirekrak.Lib

namespace Session

variable {Sym P : Type} [DecidableEq Sym]

/-! ## Every reachable state is sound -/

structure Sound (s : Session Sym P) : Prop where
  mgr : ∀ ch, (s.managers ch).Wf
  tab : ∀ ch, (s.replayDb ch).Wf

/-- What the transport and the containers can do. -/
def Possible (s : Session Sym P) : Event Sym P → Prop
  | .transportConnected => s.connected = false
  | .pollSignal order _ => ∀ l, (order l).Perm l
  | _ => True

theorem sound_new : Sound (new : Session Sym P) := ⟨fun _ => Manager.wf_empty, fun _ => Table.wf_empty⟩

omit [DecidableEq Sym] in
theorem forall_update_of {σ : Type} {p : Channel → σ → Prop} {comp : Channel → σ} (h : ∀ c, p c (comp c)) {ch : Channel}
    {v : σ} (hv : p ch v) (c : Channel) : p c (Function.update comp ch v c) := by
  by_cases hc : c = ch
  · subst hc; rwa [Function.update_self]
  · rw [Function.update_of_ne hc]; exact h c

omit [DecidableEq Sym] in
theorem forall_firstDone_of {σ : Type} {p : Channel → σ → Prop} {f : σ → Bool × σ} (hf : ∀ c x, p c x → p c (f x).2)
    {comp : Channel → σ} (h : ∀ c, p c (comp c)) (c : Channel) : p c (firstDone f comp c) := by
  unfold firstDone
  dsimp only
  split_ifs
  · exact forall_update_of h (hf _ _ (h _)) c
  · have h1 : ∀ c, p c (Function.update comp .trade (f (comp .trade)).2 c) :=
      forall_update_of h (hf _ _ (h .trade))
    exact forall_update_of h1 (hf _ _ (h1 _)) c

theorem forall_update {σ : Type} {p : σ → Prop} {comp : Channel → σ} (h : ∀ c, p (comp c)) {ch : Channel} {v : σ}
    (hv : p v) (c : Channel) : p (Function.update comp ch v c) :=
  forall_update_of (p := fun _ x => p x) h hv c

theorem forall_firstDone {σ : Type} {p : σ → Prop} {f : σ → Bool × σ} (hf : ∀ x, p x → p (f x).2)
    {comp : Channel → σ} (h : ∀ c, p (comp c)) (c : Channel) : p (firstDone f comp c) :=
  forall_firstDone_of (p := fun _ x => p x) (fun _ => hf) h c

section Sound

variable {pol : Policy} {s : Session Sym P}

theorem sound_place (hs : s.Sound) (accept : Request Sym P → Bool) (ch : Channel) (req : Request Sym P)
    (id : ReqId) : (s.place pol accept ch req id).2.Sound := by
  constructor
  · rw [place_managers]
    exact forall_update hs.mgr (Manager.registerSubscription_spec (hs.mgr ch) req.symbols id).2.1
  · by_cases hr : pol.replay = true
    · rw [place_replayDb _ _ _ _ _ hr]
      exact forall_update hs.tab (Table.wf_add (hs.tab ch) _)
    · intro c
      unfold place
      dsimp only
      split_ifs <;> exact hs.tab c

theorem sound_subscribe (hs : s.Sound) (accept : Request Sym P → Bool) (ch : Channel) (req : Request Sym P) :
    (s.subscribe pol accept ch req).2.Sound := by
  unfold subscribe
  split_ifs
  · exact hs
  · refine sound_place ⟨?_, ?_⟩ _ _ _ _
    · rw [assignReqId_managers]; exact hs.mgr
    · rw [assignReqId_replayDb]; exact hs.tab

theorem sound_unsubscribe (hs : s.Sound) (accept : Request Sym P → Bool) (ch : Channel) (req : Request Sym P) :
    (s.unsubscribe pol accept ch req).2.Sound := by
  have hm : ∀ c, ((s.assignReqId req).managers c).Wf := by rw [assignReqId_managers]; exact hs.mgr
  have ht : ∀ c, ((s.assignReqId req).replayDb c).Wf := by rw [assignReqId_replayDb]; exact hs.tab
  have hreg := (Manager.registerUnsubscription_spec (hm ch) req.symbols (s.requestId req)).2.1
  unfold unsubscribe
  dsimp only
  split_ifs
  · exact ⟨forall_update hm hreg, forall_update ht (Table.foldl_eraseSymbol_spec (ht ch) _).1⟩
  · exact ⟨forall_update hm hreg, ht⟩
  · exact ⟨hm, ht⟩

theorem sound_onSubscribeAck (hs : s.Sound) (ch : Channel) (id : ReqId) (x : Sym) (success : Bool) :
    (s.onSubscribeAck ch id x success).Sound := by
  refine ⟨forall_update hs.mgr ?_, hs.tab⟩
  rcases Manager.processSubscribeAck_cases (hs.mgr ch) id x success with ⟨-, h⟩ | ⟨-, h, -⟩
  · rw [h]; exact hs.mgr ch
  · exact h

theorem sound_onUnsubscribeAck (hs : s.Sound) (ch : Channel) (id : ReqId) (x : Sym) (success : Bool) :
    (s.onUnsubscribeAck pol ch id x success).Sound := by
  have hm : ((s.managers ch).processUnsubscribeAck id x success).2.Wf := by
    rcases Manager.processUnsubscribeAck_cases (hs.mgr ch) id x success with ⟨-, h⟩ | ⟨-, h, -⟩
    · rw [h]; exact hs.mgr ch
    · exact h
  unfold onUnsubscribeAck
  dsimp only
  split_ifs
  · exact ⟨forall_update hs.mgr hm, forall_update hs.tab (Table.eraseSymbol_spec (hs.tab ch) x).1⟩
  · exact ⟨forall_update hs.mgr hm, hs.tab⟩

theorem sound_onRejection (hs : s.Sound) (id : ReqId) (x : Sym) : (s.onRejection pol id x).Sound := by
  constructor
  · refine forall_firstDone (f := fun m : Manager Sym => m.tryProcessRejection id x) (fun m hm => ?_) hs.mgr
    rcases Manager.tryProcessRejection_cases hm id x with ⟨-, -, h⟩ | ⟨-, -, h, -⟩ | ⟨-, -, h, -⟩
    · rw [h]; exact hm
    · exact h
    · exact h
  · unfold onRejection
    dsimp only
    split_ifs
    · refine forall_firstDone (fun t ht => ?_) hs.tab
      rcases Table.tryProcessRejection_cases ht id x with ⟨-, h⟩ | ⟨-, -, h, -⟩
      · rw [h]; exact ht
      · exact h
    · exact hs.tab

theorem sound_foldl_reSubscribe (accept : Request Sym P → Bool) (ch : Channel) (reqs : List (Request Sym P)) :
    ∀ {s : Session Sym P}, s.Sound → (reqs.foldl (reSubscribe pol accept ch) s).Sound := by
  induction reqs with
  | nil => intro s hs; exact hs
  | cons r reqs ih => intro s hs; exact ih (sound_place hs _ _ _ _)

theorem sound_replayChannel (hs : s.Sound) (accept : Request Sym P → Bool) (order : Table.Order Sym P)
    (ch : Channel) : (s.replayChannel pol accept order ch).Sound :=
  sound_foldl_reSubscribe accept ch _ ⟨hs.mgr, forall_update hs.tab Table.wf_empty⟩

theorem sound_pollSignal (hs : s.Sound) (accept : Request Sym P → Bool) (order : Table.Order Sym P) :
    (s.pollSignal pol accept order).Sound := by
  unfold pollSignal
  cases s.signals with
  | nil => exact hs
  | cons sig rest =>
    have hs' : ({ s with signals := rest } : Session Sym P).Sound := ⟨hs.mgr, hs.tab⟩
    cases sig with
    | connected =>
      simp only [handleConnectionSignal, handleConnect, doReplay]
      split_ifs
      · exact sound_replayChannel (sound_replayChannel hs' _ _ _) _ _ _
      · exact hs'
      · exact hs'
    | disconnected => exact ⟨fun _ => Manager.wf_empty, hs.tab⟩

theorem sound_step (hs : s.Sound) (ev : Event Sym P) : (s.step pol ev).Sound := by
  cases ev with
  | subscribe ch req accept => exact sound_subscribe hs accept ch req
  | unsubscribe ch req accept => exact sound_unsubscribe hs accept ch req
  | subscribeAck ch id x success => exact sound_onSubscribeAck hs ch id x success
  | unsubscribeAck ch id x success => exact sound_onUnsubscribeAck hs ch id x success
  | rejection id x => exact sound_onRejection hs id x
  | transportConnected => exact ⟨hs.mgr, hs.tab⟩
  | transportClosing => exact ⟨hs.mgr, hs.tab⟩
  | transportClosed => exact ⟨hs.mgr, hs.tab⟩
  | pollSignal order accept => exact sound_pollSignal hs accept order

theorem replayChannel_connected (accept : Request Sym P → Bool) (order : Table.Order Sym P) (s : Session Sym P)
    (ch : Channel) : (s.replayChannel pol accept order ch).connected = s.connected := by
  have hfold : ∀ (reqs : List (Request Sym P)) (t : Session Sym P),
      (reqs.foldl (reSubscribe pol accept ch) t).connected = t.connected := by
    intro reqs
    induction reqs with
    | nil => exact fun _ => rfl
    | cons r reqs ih => exact fun t => (ih _).trans (place_connected _ _ _ _ _)
  exact hfold _ _

theorem pollSignal_connected (accept : Request Sym P → Bool) (order : Table.Order Sym P) (s : Session Sym P) :
    (s.pollSignal pol accept order).connected = s.connected := by
  unfold pollSignal
  cases s.signals with
  | nil => rfl
  | cons sig rest =>
    cases sig with
    | connected =>
      simp only [handleConnectionSignal, handleConnect, doReplay]
      split_ifs
      · exact (replayChannel_connected _ _ _ _).trans (replayChannel_connected _ _ _ _)
      · rfl
      · rfl
    | disconnected => rfl

end Sound

/-! ## Placing the stored requests again -/

/-- Two requests of one table: other ids, other symbols. -/
def Apart (r r' : Request Sym P) : Prop := r.reqId ≠ r'.reqId ∧ ∀ x ∈ r.symbols, x ∉ r'.symbols

omit [DecidableEq Sym] in
theorem Apart.symm {r r' : Request Sym P} (h : Apart r r') : Apart r' r :=
  ⟨h.1.symm, fun x hx hx' => h.2 x hx' hx⟩

theorem stored_apart {t : Table Sym P} (ht : t.Wf) : t.stored.Pairwise Apart := by
  have hkeys : t.subscriptions.entries.Pairwise (fun a b => a.1 ≠ b.1) :=
    List.nodupKeys_iff_pairwise.mp t.subscriptions.nodupKeys
  unfold Table.stored
  rw [List.pairwise_map]
  refine hkeys.imp_of_mem ?_
  intro a b ha hb hab
  obtain ⟨ha1, -, ha3⟩ := ht.stored a.1 a.2 (AList.mem_lookup_iff.mpr ha)
  obtain ⟨hb1, -, hb3⟩ := ht.stored b.1 b.2 (AList.mem_lookup_iff.mpr hb)
  refine ⟨?_, fun x hx hx' => ?_⟩
  · rw [ha1, hb1]
    exact fun h => hab (Option.some.inj h)
  · exact hab ((ha3 x hx).unique (hb3 x hx'))

/-- What placing `reqs` does to the channel `ch`. -/
structure Replayed (ch : Channel) (reqs : List (Request Sym P)) (s u : Session Sym P) : Prop where
  managers_ne : ∀ c, c ≠ ch → u.managers c = s.managers c
  replayDb_ne : ∀ c, c ≠ ch → u.replayDb c = s.replayDb c
  counts : ∀ x, (u.managers ch).Counts x ↔ (s.managers ch).Counts x ∨ ∃ r ∈ reqs, x ∈ r.symbols
  owns : ∀ i x, (u.replayDb ch).Owns i x ↔ (s.replayDb ch).Owns i x ∨
    ∃ r ∈ reqs, r.reqId = some i ∧ x ∈ r.symbols ∧ ¬ (s.managers ch).Counts x
  sent : ∃ l, u.emitted = s.emitted ++ l ∧ ∀ r ∈ reqs, ∀ x ∈ r.symbols, ¬ (s.managers ch).Counts x →
    ∃ m ∈ l, m.epoch = s.epoch ∧ m.kind = .subscribe ∧ m.channel = ch ∧ x ∈ m.request.symbols
  epoch : u.epoch = s.epoch
  connected : u.connected = s.connected

section Replay

variable {pol : Policy} {accept : Request Sym P → Bool} {ch : Channel}

theorem replayed_reSubscribe (hr : pol.replay = true) {s : Session Sym P} (hs : s.Sound)
    (hall : ∀ m, s.takes pol accept m = true) {r : Request Sym P} {id : ReqId} (hid : r.reqId = some id)
    (hfresh : ∀ x, ¬ (s.replayDb ch).Owns id x) (hnew : ∀ x ∈ r.symbols, ∀ i, ¬ (s.replayDb ch).Owns i x) :
    Replayed ch [r] s (reSubscribe pol accept ch s r) := by
  have hacc := (Manager.registerSubscription_spec (hs.mgr ch) r.symbols id).1
  have hgetD : r.reqId.getD invalidReqId = id := by rw [hid]; rfl
  unfold reSubscribe
  rw [hgetD]
  refine ⟨fun c hc => ?_, fun c hc => ?_, fun x => ?_, fun i x => ?_, ?_, ?_, ?_⟩
  · rw [place_managers, Function.update_of_ne hc]
  · rw [place_replayDb _ _ _ _ _ hr, Function.update_of_ne hc]
  · rw [place_managers, Function.update_self, Manager.counts_registerSubscription (hs.mgr ch)]
    simp only [List.mem_singleton, exists_eq_left]
  · have hnone : (s.replayDb ch).subscriptions.lookup id = none :=
      Table.lookup_eq_none_of_not_owns (hs.tab ch) hfresh
    rw [place_replayDb _ _ _ _ _ hr, Function.update_self, Table.owns_add rfl hnone, hacc]
    simp only [List.mem_singleton, exists_eq_left, hid, Option.some.injEq, Manager.mem_accepted]
    constructor
    · rintro (h | ⟨rfl, h, -⟩)
      · exact Or.inl h
      · exact Or.inr ⟨rfl, h⟩
    · rintro (h | ⟨rfl, h⟩)
      · exact Or.inl h
      · exact Or.inr ⟨rfl, h, hnew x h.1⟩
  · obtain ⟨l, hl, hsent⟩ := place_all accept s ch r id hall
    refine ⟨l, hl, fun r' hr' x hx hno => hsent x ?_⟩
    rw [List.mem_singleton.mp hr'] at hx
    rw [hacc, Manager.mem_accepted]
    exact ⟨hx, hno⟩
  · exact place_epoch _ _ _ _ _
  · exact place_connected _ _ _ _ _

/-- Two placings in a row. -/
theorem Replayed.trans {r : Request Sym P} {reqs : List (Request Sym P)} {s t u : Session Sym P}
    (h1 : Replayed ch [r] s t) (h2 : Replayed ch reqs t u) (hap : ∀ r' ∈ reqs, Apart r r') :
    Replayed ch (r :: reqs) s u := by
  -- the first placing adds no symbol of the later requests
  have hsame : ∀ r' ∈ reqs, ∀ x ∈ r'.symbols, ((t.managers ch).Counts x ↔ (s.managers ch).Counts x) := by
    intro r' hr' x hx
    rw [h1.counts]
    simp only [List.mem_singleton, exists_eq_left]
    refine ⟨fun h => h.resolve_right (fun h' => (hap r' hr').2 x h' hx), Or.inl⟩
  refine ⟨fun c hc => ?_, fun c hc => ?_, fun x => ?_, fun i x => ?_, ?_, h2.epoch.trans h1.epoch,
    h2.connected.trans h1.connected⟩
  · rw [h2.managers_ne c hc, h1.managers_ne c hc]
  · rw [h2.replayDb_ne c hc, h1.replayDb_ne c hc]
  · rw [h2.counts, h1.counts]
    simp only [List.mem_cons, List.not_mem_nil, or_false, exists_eq_left, exists_eq_or_imp, or_assoc]
  · rw [h2.owns, h1.owns]
    simp only [List.mem_cons, List.not_mem_nil, or_false, exists_eq_left, exists_eq_or_imp, or_assoc]
    refine or_congr Iff.rfl (or_congr Iff.rfl ?_)
    constructor
    · rintro ⟨r', hr', hi, hx, hno⟩
      exact ⟨r', hr', hi, hx, fun h => hno ((hsame r' hr' x hx).mpr h)⟩
    · rintro ⟨r', hr', hi, hx, hno⟩
      exact ⟨r', hr', hi, hx, fun h => hno ((hsame r' hr' x hx).mp h)⟩
  · obtain ⟨l1, hl1, hsent1⟩ := h1.sent
    obtain ⟨l2, hl2, hsent2⟩ := h2.sent
    refine ⟨l1 ++ l2, by rw [hl2, hl1, List.append_assoc], fun r' hr' x hx hno => ?_⟩
    rcases List.mem_cons.mp hr' with rfl | hr'
    · obtain ⟨m, hm, h⟩ := hsent1 r' (List.mem_singleton.mpr rfl) x hx hno
      exact ⟨m, List.mem_append_left _ hm, h⟩
    · obtain ⟨m, hm, he, h⟩ := hsent2 r' hr' x hx (fun h => hno ((hsame r' hr' x hx).mp h))
      exact ⟨m, List.mem_append_right _ hm, he.trans h1.epoch, h⟩

omit [DecidableEq Sym] in
theorem takes_congr {s t : Session Sym P} (h : t.connected = s.connected) (m : Request Sym P) :
    t.takes pol accept m = s.takes pol accept m := by
  unfold takes
  rw [h]

theorem replayed_foldl (hr : pol.replay = true) : ∀ (reqs : List (Request Sym P)) (s : Session Sym P), s.Sound →
    (∀ m, s.takes pol accept m = true) → reqs.Pairwise Apart → (∀ r ∈ reqs, ∃ id, r.reqId = some id) →
    (∀ r ∈ reqs, ∀ id x, (s.replayDb ch).Owns id x → r.reqId ≠ some id ∧ x ∉ r.symbols) →
    Replayed ch reqs s (reqs.foldl (reSubscribe pol accept ch) s) := by
  intro reqs
  induction reqs with
  | nil =>
    intro s _ _ _ _ _
    exact ⟨fun _ _ => rfl, fun _ _ => rfl, by simp, by simp, ⟨[], by simp, by simp⟩, rfl, rfl⟩
  | cons r reqs ih =>
    intro s hs hall hap hids hfree
    obtain ⟨hap1, hap2⟩ := List.pairwise_cons.mp hap
    obtain ⟨id, hid⟩ := hids r List.mem_cons_self
    have h1 : Replayed ch [r] s (reSubscribe pol accept ch s r) := by
      refine replayed_reSubscribe hr hs hall hid (fun x h => ?_) (fun x hx i h => ?_)
      · exact (hfree r List.mem_cons_self id x h).1 hid
      · exact (hfree r List.mem_cons_self i x h).2 hx
    refine h1.trans (ih _ (sound_place hs _ _ _ _) ?_ hap2 (fun r' h => hids r' (List.mem_cons_of_mem _ h)) ?_) hap1
    · intro m
      rw [takes_congr h1.connected]
      exact hall m
    · intro r' hr' i x ho
      rcases (h1.owns i x).mp ho with h | ⟨q, hq, hqi, hqx, -⟩
      · exact hfree r' (List.mem_cons_of_mem _ hr') i x h
      · rw [List.mem_singleton.mp hq] at hqi hqx
        refine ⟨fun h => (hap1 r' hr').1 (hqi.trans h.symm), (hap1 r' hr').2 x hqx⟩

/-- One channel's round: its table is rebuilt from the stored symbols the manager did not count. -/
theorem replayed_replayChannel (ch : Channel) (hr : pol.replay = true) {s : Session Sym P} (hs : s.Sound)
    (hall : ∀ m, s.takes pol accept m = true) {order : Table.Order Sym P} (ho : ∀ l, (order l).Perm l) :
    Replayed ch (order (s.replayDb ch).stored) { s with replayDb := Function.update s.replayDb ch Table.empty }
      (s.replayChannel pol accept order ch) := by
  have hperm := ho (s.replayDb ch).stored
  refine replayed_foldl hr _ _ ⟨hs.mgr, forall_update hs.tab Table.wf_empty⟩ hall ?_ ?_ ?_
  · exact (hperm.pairwise_iff Apart.symm).mpr (stored_apart (hs.tab ch))
  · intro r hmem
    obtain ⟨id, hid⟩ := Table.mem_stored.mp (hperm.mem_iff.mp hmem)
    exact ⟨id, ((hs.tab ch).stored id r hid).1⟩
  · intro r _ id x h
    dsimp only at h
    rw [Function.update_self] at h
    exact absurd h Table.not_owns_empty

/-- From `s` to `u` the symbol has been asked for on the connection of `u`, and it is still stored and registered. -/
def Kept (s u : Session Sym P) (ch : Channel) (x : Sym) : Prop :=
  x ∈ (u.replayDb ch).symbols ∧ (u.managers ch).Counts x ∧
  ∃ l, u.emitted = s.emitted ++ l ∧ ∃ m ∈ l,
    m.epoch = u.epoch ∧ m.kind = .subscribe ∧ m.channel = ch ∧ x ∈ m.request.symbols

section

variable (hr : pol.replay = true) {s : Session Sym P} (hs : s.Sound) (hall : ∀ m, s.takes pol accept m = true)
  {order : Table.Order Sym P} (ho : ∀ l, (order l).Perm l) {x : Sym}

include hr hs hall ho

/-- What the round of a channel leaves in its table, the manager did not count before. -/
theorem not_counts_of_stored (hst : x ∈ ((s.replayChannel pol accept order ch).replayDb ch).symbols) :
    ¬ (s.managers ch).Counts x := by
  have hu : (s.replayChannel pol accept order ch).Sound := sound_replayChannel hs accept order ch
  obtain ⟨i, hi⟩ := (Table.mem_symbols (hu.tab ch)).mp hst
  rcases ((replayed_replayChannel ch hr hs hall ho).owns i x).mp hi with h | ⟨-, -, -, -, h⟩
  · dsimp only at h
    rw [Function.update_self] at h
    exact absurd h Table.not_owns_empty
  · exact h

theorem kept_of_not_counts (hx : x ∈ (s.replayDb ch).symbols) (hno : ¬ (s.managers ch).Counts x) :
    Kept s (s.replayChannel pol accept order ch) ch x := by
  have hrep := replayed_replayChannel ch hr hs hall ho
  have hu : (s.replayChannel pol accept order ch).Sound := sound_replayChannel hs accept order ch
  obtain ⟨id, hid⟩ := (Table.mem_symbols (hs.tab ch)).mp hx
  obtain ⟨r, hlook, hxr⟩ := (hs.tab ch).owned id x hid
  have hrid := ((hs.tab ch).stored id r hlook).1
  have hmem : r ∈ order (s.replayDb ch).stored := (ho _).mem_iff.mpr (Table.mem_stored.mpr ⟨id, hlook⟩)
  refine ⟨(Table.mem_symbols (hu.tab ch)).mpr ⟨id, ?_⟩, ?_, ?_⟩
  · exact (hrep.owns id x).mpr (Or.inr ⟨r, hmem, hrid, hxr, hno⟩)
  · exact (hrep.counts x).mpr (Or.inr ⟨r, hmem, hxr⟩)
  · obtain ⟨l, hl, hsent⟩ := hrep.sent
    rw [hrep.epoch]
    exact ⟨l, hl, hsent r hmem x hxr hno⟩

end

end Replay

/-- Every stored symbol of `s` is kept in `u`. -/
def NoLoss (s u : Session Sym P) : Prop := ∀ ch, ∀ x ∈ (s.replayDb ch).symbols, Kept s u ch x

/-- No stored symbol is active or pending. -/
def Unregistered (s : Session Sym P) : Prop := ∀ ch, ∀ x ∈ (s.replayDb ch).symbols, ¬ (s.managers ch).Counts x

theorem noLoss_doReplay_iff {pol : Policy} (hr : pol.replay = true) {s : Session Sym P} (hs : s.Sound)
    (hepoch : 1 < s.epoch) {accept : Request Sym P → Bool} (hall : ∀ m, s.takes pol accept m = true)
    {order : Table.Order Sym P} (ho : ∀ l, (order l).Perm l) :
    NoLoss s (s.doReplay pol accept order) ↔ s.Unregistered := by
  set s1 := s.replayChannel pol accept order .trade with hs1
  have hdo : s.doReplay pol accept order = s1.replayChannel pol accept order .book := by
    unfold doReplay
    rw [if_pos hepoch]
    rfl
  have h1 := replayed_replayChannel .trade hr hs hall ho
  have hsound : s1.Sound := sound_replayChannel hs accept order .trade
  have hall1 : ∀ m, s1.takes pol accept m = true := fun m => (takes_congr h1.connected m).trans (hall m)
  have h2 := replayed_replayChannel .book hr hsound hall1 ho
  -- each round leaves the other channel alone
  have hbook : s1.replayDb .book = s.replayDb .book ∧ s1.managers .book = s.managers .book := by
    refine ⟨?_, h1.managers_ne .book (by decide)⟩
    rw [h1.replayDb_ne .book (by decide)]
    rfl
  have htrade : (s1.replayChannel pol accept order .book).replayDb .trade = s1.replayDb .trade := by
    rw [h2.replayDb_ne .trade (by decide)]
    rfl
  rw [hdo]
  constructor
  · intro h ch x hx
    cases ch with
    | trade => exact not_counts_of_stored hr hs hall ho (htrade ▸ (h .trade x hx).1)
    | book =>
      rw [← hbook.2]
      exact not_counts_of_stored hr hsound hall1 ho (h .book x hx).1
  · intro h ch x hx
    cases ch with
    | trade =>
      obtain ⟨hst, hc, l, hl, m, hm, he, hrest⟩ := kept_of_not_counts hr hs hall ho hx (h .trade x hx)
      obtain ⟨l2, hl2, -⟩ := h2.sent
      refine ⟨htrade ▸ hst, ?_, l ++ l2, ?_, m, List.mem_append_left _ hm, he.trans h2.epoch.symm, hrest⟩
      · rw [h2.managers_ne .trade (by decide)]
        exact hc
      · rw [← List.append_assoc, ← hl]
        exact hl2
    | book =>
      rw [← hbook.1] at hx
      have hno := h .book x (hbook.1 ▸ hx)
      rw [← hbook.2] at hno
      obtain ⟨hst, hc, l, hl, m, hm, hrest⟩ := kept_of_not_counts hr hsound hall1 ho hx hno
      obtain ⟨l1, hl1, -⟩ := h1.sent
      refine ⟨hst, hc, l1 ++ l, ?_, m, List.mem_append_right _ hm, hrest⟩
      rw [← List.append_assoc, hl]
      exact congrArg (· ++ l) hl1

theorem sound_run {pol : Policy} {evs : List (Event Sym P)} {s : Session Sym P}
    (hrun : Run (fun s ev u => u = s.step pol ev) Possible new evs s) : s.Sound := by
  refine hrun.invariant sound_new ?_
  rintro t ev v ht - rfl
  exact sound_step ht ev

/-- The signal `Connected` is next, the connection is a new one, and nothing refuses a message. -/
theorem noLoss_pollSignal_iff {pol : Policy} (hr : pol.replay = true) {s : Session Sym P} (hs : s.Sound)
    {rest : List Signal} (hsig : s.signals = .connected :: rest) (hepoch : 1 < s.epoch)
    {accept : Request Sym P → Bool} (hall : ∀ m, s.takes pol accept m = true) {order : Table.Order Sym P}
    (ho : ∀ l, (order l).Perm l) :
    NoLoss s (s.step pol (.pollSignal order accept)) ↔ s.Unregistered := by
  have hpoll : s.step pol (.pollSignal order accept) =
      ({ s with signals := rest } : Session Sym P).doReplay pol accept order := by
    simp only [step, pollSignal, hsig, handleConnectionSignal, handleConnect, hr, if_true]
  rw [hpoll]
  exact noLoss_doReplay_iff hr (s := { s with signals := rest }) ⟨hs.mgr, hs.tab⟩ hepoch hall ho

end Session

end Wirekrak.Protocol

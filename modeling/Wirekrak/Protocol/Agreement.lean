import Wirekrak.Lib.Run
import Wirekrak.Protocol.Session

/-!
# Wirekrak.Protocol.Agreement — the replay tables and the managers agree

A run is observed together with its `History`: the calls made, by request id, and the `(request, symbol)` pairs the
server has answered.  `Admissible` is what a run of one connection may do: calls under fresh ids and with distinct
symbols, answers to emitted requests, each pair answered once.

Two answers break the agreement of table and manager, a failed subscribe ACK of a pending symbol (the table keeps it)
and a successful unsubscribe ACK of a symbol that has meanwhile been taken up again (the table drops it); `Settles`
excludes exactly these.

* `ChanInv`: the invariant of one channel; one lemma for each operation.
* `replay_agrees`: with it, table and manager agree in every state of every run.
-/

namespace Wirekrak.Protocol

open Wirekrak.Lib

structure History (Sym : Type) where
  calls : List (ReqId × Kind × Channel)
  answered : List (ReqId × Sym)

/-- The message asks for `(id, sym)`. -/
def Message.Asks {Sym P : Type} (m : Message Sym P) (id : ReqId) (sym : Sym) : Prop :=
  m.request.reqId = some id ∧ sym ∈ m.request.symbols

namespace Session

variable {Sym P : Type} [DecidableEq Sym]

/-- A session after `connect` and the first `poll`. -/
def opened : Session Sym P := { new with connected := true, epoch := 1 }

def record (s : Session Sym P) (h : History Sym) : Event Sym P → History Sym
  | .subscribe ch req _ => { h with calls := (s.requestId req, .subscribe, ch) :: h.calls }
  | .unsubscribe ch req _ => { h with calls := (s.requestId req, .unsubscribe, ch) :: h.calls }
  | .subscribeAck _ id sym _ => { h with answered := (id, sym) :: h.answered }
  | .unsubscribeAck _ id sym _ => { h with answered := (id, sym) :: h.answered }
  | .rejection id sym => { h with answered := (id, sym) :: h.answered }
  | _ => h

/-- One step, observed. -/
def observe (pol : Policy) (t : Session Sym P × History Sym) (ev : Event Sym P) : Session Sym P × History Sym :=
  (t.1.step pol ev, t.1.record t.2 ev)

instance {Sym P : Type} [DecidableEq Sym] (m : Message Sym P) (id : ReqId) (sym : Sym) : Decidable (m.Asks id sym) :=
  inferInstanceAs (Decidable (_ ∧ _))

/-- What a run of one connection may do. -/
def Admissible (t : Session Sym P × History Sym) : Event Sym P → Prop
  | .subscribe _ req _ | .unsubscribe _ req _ =>
    t.1.connected = true ∧ req.symbols.Nodup ∧ t.1.requestId req ∉ t.2.calls.map Prod.fst
  | .subscribeAck ch id sym _ =>
    (∃ m ∈ t.1.emitted, m.kind = .subscribe ∧ m.channel = ch ∧ m.Asks id sym) ∧ (id, sym) ∉ t.2.answered
  | .unsubscribeAck ch id sym _ =>
    (∃ m ∈ t.1.emitted, m.kind = .unsubscribe ∧ m.channel = ch ∧ m.Asks id sym) ∧ (id, sym) ∉ t.2.answered
  | .rejection id sym => (∃ m ∈ t.1.emitted, m.Asks id sym) ∧ (id, sym) ∉ t.2.answered
  | .transportConnected | .transportClosing | .transportClosed | .pollSignal _ _ => False

instance (t : Session Sym P × History Sym) : ∀ ev, Decidable (Admissible t ev)
  | .subscribe _ _ _ | .unsubscribe _ _ _ => inferInstanceAs (Decidable (_ ∧ _))
  | .subscribeAck _ _ _ _ | .unsubscribeAck _ _ _ _ | .rejection _ _ => inferInstanceAs (Decidable (_ ∧ _))
  | .transportConnected | .transportClosing | .transportClosed | .pollSignal _ _ => inferInstanceAs (Decidable False)

/-- The answer is none of the two that the tables and the managers take differently. -/
def Settles (s : Session Sym P) : Event Sym P → Prop
  | .subscribeAck ch id sym success => success = true ∨ ¬ (s.managers ch).pendingSubscriptions.Owns id sym
  | .unsubscribeAck ch id sym success =>
    success = false ∨ (s.managers ch).pendingUnsubscriptions.Owns id sym ∨ ¬ (s.managers ch).Counts sym
  | _ => True

instance (s : Session Sym P) : ∀ ev, Decidable (s.Settles ev)
  | .subscribeAck _ _ _ _ => inferInstanceAs (Decidable (_ ∨ _))
  | .unsubscribeAck _ _ _ _ => inferInstanceAs (Decidable (_ ∨ _ ∨ ¬ (_ ∨ _)))
  | .subscribe _ _ _ | .unsubscribe _ _ _ | .rejection _ _ | .transportConnected | .transportClosing
  | .transportClosed | .pollSignal _ _ => inferInstanceAs (Decidable True)

/-! ## One channel -/

/-- The invariant of a channel: `agree` is the result, the rest tells an answer of the current request of a symbol
from the answer of an earlier one. -/
structure ChanInv (h : History Sym) (ch : Channel) (m : Manager Sym) (t : Table Sym P) : Prop where
  mgr : m.Wf
  tab : t.Wf
  agree : ∀ x, (∃ id, t.Owns id x) ↔ m.Counts x
  owner : ∀ id x, m.pendingSubscriptions.Owns id x → t.Owns id x
  active : ∀ id x, x ∈ m.activeSymbols → t.Owns id x → (id, x) ∈ h.answered
  stored : ∀ id x, t.Owns id x → (id, .subscribe, ch) ∈ h.calls
  unsub : ∀ id x, m.pendingUnsubscriptions.Owns id x → (id, .unsubscribe, ch) ∈ h.calls

namespace ChanInv

variable {h h' : History Sym} {ch : Channel} {m : Manager Sym} {t : Table Sym P}

theorem mono (hi : ChanInv h ch m t) (hc : ∀ c ∈ h.calls, c ∈ h'.calls) (ha : ∀ a ∈ h.answered, a ∈ h'.answered) :
    ChanInv h' ch m t :=
  { hi with
    active := fun id x h1 h2 => ha _ (hi.active id x h1 h2)
    stored := fun id x h1 => hc _ (hi.stored id x h1)
    unsub := fun id x h1 => hc _ (hi.unsub id x h1) }

theorem empty (h : History Sym) (ch : Channel) : ChanInv h ch Manager.empty (Table.empty : Table Sym P) where
  mgr := Manager.wf_empty
  tab := Table.wf_empty
  agree := fun x => by simp; simp [Manager.Counts, Manager.empty, PendingRequests.empty]
  owner := fun id x hx => absurd hx PendingRequests.not_owns_empty
  active := fun id x hx => by simp [Manager.empty] at hx
  stored := fun id x hx => absurd hx Table.not_owns_empty
  unsub := fun id x hx => absurd hx PendingRequests.not_owns_empty

/-- The owner of a pending symbol is the table's. -/
theorem owner_of_not_active (hi : ChanInv h ch m t) {id : ReqId} {x : Sym} (ho : t.Owns id x)
    (hx : x ∉ m.activeSymbols) : m.pendingSubscriptions.Owns id x := by
  have hp : x ∈ m.pendingSubscriptions.pendingSymbols := ((hi.agree x).mp ⟨id, ho⟩).resolve_left hx
  obtain ⟨j, hj⟩ := (hi.mgr.sub.mem_iff x).mp hp
  rw [ho.unique (hi.owner j x hj)]
  exact hj

/-- Registering a fresh subscription and storing what was accepted. -/
theorem register (hi : ChanInv h ch m t) {id : ReqId} (hfresh : (id, Kind.subscribe, ch) ∉ h.calls)
    (req : Request Sym P) :
    ChanInv { h with calls := (id, .subscribe, ch) :: h.calls } ch (m.registerSubscription req.symbols id).2
      (t.add { req with symbols := m.accepted req.symbols, reqId := some id }).2 := by
  obtain ⟨-, hwf, hact, hun, hown⟩ := Manager.registerSubscription_spec hi.mgr req.symbols id
  have hnone : t.subscriptions.lookup id = none :=
    Table.lookup_eq_none_of_not_owns hi.tab (fun s hs => hfresh (hi.stored id s hs))
  have hadd : ∀ i x, (t.add { req with symbols := m.accepted req.symbols, reqId := some id }).2.Owns i x ↔
      t.Owns i x ∨ (i = id ∧ x ∈ m.accepted req.symbols) := by
    intro i x
    rw [Table.owns_add rfl hnone]
    constructor
    · rintro (h1 | ⟨h1, h2, -⟩)
      · exact Or.inl h1
      · exact Or.inr ⟨h1, h2⟩
    · rintro (h1 | ⟨h1, h2⟩)
      · exact Or.inl h1
      · -- an accepted symbol is not counted, so the table does not store it
        refine Or.inr ⟨h1, h2, fun j hj => ?_⟩
        exact (Manager.mem_accepted.mp h2).2 ((hi.agree x).mp ⟨j, hj⟩)
  have hpend : ∀ x, x ∈ (m.registerSubscription req.symbols id).2.pendingSubscriptions.pendingSymbols ↔
      x ∈ m.pendingSubscriptions.pendingSymbols ∨ x ∈ m.accepted req.symbols := by
    intro x
    rw [hwf.sub.mem_iff, hi.mgr.sub.mem_iff]
    simp only [hown]
    constructor
    · rintro ⟨i, h1 | ⟨-, h1⟩⟩
      · exact Or.inl ⟨i, h1⟩
      · exact Or.inr h1
    · rintro (⟨i, h1⟩ | h1)
      · exact ⟨i, Or.inl h1⟩
      · exact ⟨id, Or.inr ⟨rfl, h1⟩⟩
  refine ⟨hwf, Table.wf_add hi.tab _, fun x => ?_, fun i x hx => ?_, fun i x hx ho => ?_, fun i x ho => ?_,
    fun i x hx => ?_⟩
  · have hag := hi.agree x
    unfold Manager.Counts at hag ⊢
    rw [hact, hpend x, ← or_assoc, ← hag]
    simp only [hadd]
    constructor
    · rintro ⟨i, h1 | ⟨-, h1⟩⟩
      · exact Or.inl ⟨i, h1⟩
      · exact Or.inr h1
    · rintro (⟨i, h1⟩ | h1)
      · exact ⟨i, Or.inl h1⟩
      · exact ⟨id, Or.inr ⟨rfl, h1⟩⟩
  · rw [hadd]
    exact ((hown i x).mp hx).imp_left (hi.owner i x)
  · rw [hact] at hx
    rcases (hadd i x).mp ho with h1 | ⟨-, h1⟩
    · exact hi.active i x hx h1
    · exact absurd (Or.inl hx) (Manager.mem_accepted.mp h1).2
  · rcases (hadd i x).mp ho with h1 | ⟨rfl, -⟩
    · exact List.mem_cons_of_mem _ (hi.stored i x h1)
    · exact List.mem_cons_self
  · rw [hun] at hx
    exact List.mem_cons_of_mem _ (hi.unsub i x hx)

/-- The cancelled subscriptions leave the table with the manager. -/
theorem unsubscribe (hi : ChanInv h ch m t) (symbols : List Sym) (id : ReqId) :
    ChanInv { h with calls := (id, .unsubscribe, ch) :: h.calls } ch (m.registerUnsubscription symbols id).2
      ((m.registerUnsubscription symbols id).1.foldl Table.eraseSymbol t) := by
  obtain ⟨hcan, hwf, hact, hown, hun⟩ := Manager.registerUnsubscription_spec hi.mgr symbols id
  obtain ⟨htwf, htown⟩ := Table.foldl_eraseSymbol_spec hi.tab (m.registerUnsubscription symbols id).1
  have hpend : ∀ x, x ∈ (m.registerUnsubscription symbols id).2.pendingSubscriptions.pendingSymbols ↔
      x ∈ m.pendingSubscriptions.pendingSymbols ∧ x ∉ symbols := by
    intro x
    rw [hwf.sub.mem_iff, hi.mgr.sub.mem_iff]
    simp only [hown]
    exact exists_and_right
  refine ⟨hwf, htwf, fun x => ?_, fun i x hx => ?_, fun i x hx ho => ?_, fun i x ho => ?_, fun i x hx => ?_⟩
  · have hag := hi.agree x
    have hdisj := hi.mgr.active_not_sub x
    unfold Manager.Counts at hag ⊢
    rw [hact, hpend x]
    simp only [htown, exists_and_right, hag, hcan]
    tauto
  · have hx' := (hown i x).mp hx
    rw [htown]
    exact ⟨hi.owner i x hx'.1, fun hc => hx'.2 ((hcan x).mp hc).1⟩
  · rw [hact] at hx
    exact hi.active i x hx ((htown i x).mp ho).1
  · exact List.mem_cons_of_mem _ (hi.stored i x ((htown i x).mp ho).1)
  · rcases hun i x hx with h1 | rfl
    · exact List.mem_cons_of_mem _ (hi.unsub i x h1)
    · exact List.mem_cons_self

theorem subscribeAck (hi : ChanInv h ch m t) (id : ReqId) (x : Sym) (success : Bool)
    (hok : success = true ∨ ¬ m.pendingSubscriptions.Owns id x) :
    ChanInv { h with answered := (id, x) :: h.answered } ch (m.processSubscribeAck id x success).2 t := by
  have hgrow : ChanInv { h with answered := (id, x) :: h.answered } ch m t :=
    hi.mono (fun _ hc => hc) (fun _ ha => List.mem_cons_of_mem _ ha)
  rcases Manager.processSubscribeAck_cases hi.mgr id x success with ⟨-, heq⟩ | ⟨hown, hwf, hun, hrest, hact⟩
  · rw [heq]; exact hgrow
  · have hs : success = true := hok.resolve_right (not_not_intro hown)
    rw [hs, if_pos rfl] at hact
    have hpend : ∀ y, y ∈ (m.processSubscribeAck id x success).2.pendingSubscriptions.pendingSymbols ↔
        y ∈ m.pendingSubscriptions.pendingSymbols ∧ y ≠ x := by
      intro y
      rw [hwf.sub.mem_iff, hi.mgr.sub.mem_iff]
      simp only [hrest]
      exact exists_and_right
    refine ⟨hwf, hi.tab, fun y => ?_, fun i y hy => ?_, fun i y hy ho => ?_, hi.stored, fun i y hy => ?_⟩
    · have hxp := hown.mem hi.mgr.sub
      rw [hi.agree y]
      unfold Manager.Counts
      rw [hs] at hpend ⊢
      rw [hact, hpend, Finset.mem_insert]
      by_cases hyx : y = x
      · subst hyx; simp [hxp]
      · simp [hyx]
    · exact hi.owner i y ((hrest i y).mp hy).1
    · rw [hs, hact] at hy
      rcases Finset.mem_insert.mp hy with rfl | hy
      · rw [ho.unique (hi.owner id y hown)]
        exact List.mem_cons_self
      · exact hgrow.active i y hy ho
    · rw [hun] at hy
      exact hi.unsub i y hy

/-- An unsubscription that was refused is forgotten, and nothing else. -/
theorem forget (hi : ChanInv h ch m t) {m' : Manager Sym} (hwf : m'.Wf)
    (hsub : m'.pendingSubscriptions = m.pendingSubscriptions) (hact : m'.activeSymbols = m.activeSymbols)
    (hunsub : ∀ i y, m'.pendingUnsubscriptions.Owns i y → m.pendingUnsubscriptions.Owns i y) : ChanInv h ch m' t := by
  refine ⟨hwf, hi.tab, fun y => ?_, fun i y hy => ?_, fun i y hy ho => ?_, hi.stored, fun i y hy => ?_⟩
  · rw [hi.agree y]
    unfold Manager.Counts
    rw [hact, hsub]
  · exact hi.owner i y (hsub ▸ hy)
  · exact hi.active i y (hact ▸ hy) ho
  · exact hi.unsub i y (hunsub i y hy)

theorem unsubscribeAck_failed (hi : ChanInv h ch m t) (id : ReqId) (x : Sym) :
    ChanInv { h with answered := (id, x) :: h.answered } ch (m.processUnsubscribeAck id x false).2 t := by
  have hgrow : ChanInv { h with answered := (id, x) :: h.answered } ch m t :=
    hi.mono (fun _ hc => hc) (fun _ ha => List.mem_cons_of_mem _ ha)
  rcases Manager.processUnsubscribeAck_cases hi.mgr id x false with ⟨-, heq⟩ | ⟨-, hwf, hsub, hrest, hact⟩
  · rw [heq]; exact hgrow
  · rw [if_neg Bool.false_ne_true] at hact
    exact hgrow.forget hwf hsub hact fun i y hy => ((hrest i y).mp hy).1

/-- A successful ACK removes the symbol on both sides: it answers the pending unsubscription, or there is nothing to
remove. -/
theorem unsubscribeAck_done (hi : ChanInv h ch m t) (id : ReqId) (x : Sym)
    (hok : m.pendingUnsubscriptions.Owns id x ∨ ¬ m.Counts x) :
    ChanInv { h with answered := (id, x) :: h.answered } ch (m.processUnsubscribeAck id x true).2
      (t.eraseSymbol x) := by
  have hgrow : ChanInv { h with answered := (id, x) :: h.answered } ch m t :=
    hi.mono (fun _ hc => hc) (fun _ ha => List.mem_cons_of_mem _ ha)
  obtain ⟨htwf, htown⟩ := Table.eraseSymbol_spec hi.tab x
  rcases Manager.processUnsubscribeAck_cases hi.mgr id x true with ⟨hno, heq⟩ | ⟨hown, hwf, hsub, hrest, hact⟩
  · rw [heq]
    have hx : ¬ m.Counts x := hok.resolve_left hno
    refine ⟨hi.mgr, htwf, fun y => ?_, fun i y hy => ?_, fun i y hy ho => ?_, fun i y ho => ?_, hi.unsub⟩
    · simp only [htown, exists_and_right, hi.agree y]
      constructor
      · exact And.left
      · intro hy
        refine ⟨hy, ?_⟩
        rintro rfl
        exact hx hy
    · rw [htown]
      refine ⟨hi.owner i y hy, ?_⟩
      rintro rfl
      exact hx (Or.inr (hy.mem hi.mgr.sub))
    · exact hgrow.active i y hy ((htown i y).mp ho).1
    · exact hi.stored i y ((htown i y).mp ho).1
  · rw [if_pos rfl] at hact
    have hxa : x ∈ m.activeSymbols := hi.mgr.unsub_active x (hown.mem hi.mgr.unsub)
    have hxp : x ∉ m.pendingSubscriptions.pendingSymbols := hi.mgr.active_not_sub x hxa
    refine ⟨hwf, htwf, fun y => ?_, fun i y hy => ?_, fun i y hy ho => ?_, fun i y ho => ?_, fun i y hy => ?_⟩
    · simp only [htown, exists_and_right, hi.agree y]
      unfold Manager.Counts
      rw [hact, hsub, Finset.mem_erase]
      by_cases hyx : y = x
      · subst hyx; simp [hxp]
      · simp [hyx]
    · rw [hsub] at hy
      rw [htown]
      refine ⟨hi.owner i y hy, ?_⟩
      rintro rfl
      exact hxp (hy.mem hi.mgr.sub)
    · rw [hact] at hy
      exact hgrow.active i y (Finset.mem_of_mem_erase hy) ((htown i y).mp ho).1
    · exact hi.stored i y ((htown i y).mp ho).1
    · exact hi.unsub i y ((hrest i y).mp hy).1

/-- A rejection of an unanswered pair: of the pending subscription on both sides, of an unsubscription only in the
manager, else of something neither side holds. -/
theorem rejection (hi : ChanInv h ch m t) {id : ReqId} {x : Sym} (hnew : (id, x) ∉ h.answered)
    (hone : (id, Kind.subscribe, ch) ∈ h.calls → (id, Kind.unsubscribe, ch) ∉ h.calls) :
    ChanInv { h with answered := (id, x) :: h.answered } ch (m.tryProcessRejection id x).2
      (t.tryProcessRejection id x).2 := by
  have hgrow : ChanInv { h with answered := (id, x) :: h.answered } ch m t :=
    hi.mono (fun _ hc => hc) (fun _ ha => List.mem_cons_of_mem _ ha)
  -- the table stores `(id, x)` only as the pending subscription
  have htab : t.Owns id x → m.pendingSubscriptions.Owns id x := by
    intro ho
    exact hi.owner_of_not_active ho (fun hx => hnew (hi.active id x hx ho))
  rcases Manager.tryProcessRejection_cases hi.mgr id x with
    ⟨hns, -, heq⟩ | ⟨hs, -, hwf, hact, hun, hrest⟩ | ⟨hu, -, hwf, hact, hsub, hrest⟩
  · rcases Table.tryProcessRejection_cases hi.tab id x with ⟨-, hteq⟩ | ⟨ho, -⟩
    · rw [heq, hteq]; exact hgrow
    · exact absurd (htab ho) hns
  · rcases Table.tryProcessRejection_cases hi.tab id x with ⟨hno, -⟩ | ⟨ho, -, htwf, htown⟩
    · exact absurd (hi.owner id x hs) hno
    · have hpend : ∀ y, y ∈ (m.tryProcessRejection id x).2.pendingSubscriptions.pendingSymbols ↔
          y ∈ m.pendingSubscriptions.pendingSymbols ∧ y ≠ x := by
        intro y
        rw [hwf.sub.mem_iff, hi.mgr.sub.mem_iff]
        simp only [hrest]
        exact exists_and_right
      have hxa : x ∉ m.activeSymbols := fun hx => hi.mgr.active_not_sub x hx (hs.mem hi.mgr.sub)
      refine ⟨hwf, htwf, fun y => ?_, fun i y hy => ?_, fun i y hy hoy => ?_, fun i y hoy => ?_, fun i y hy => ?_⟩
      · simp only [htown, exists_and_right, hi.agree y]
        unfold Manager.Counts
        rw [hact, hpend]
        by_cases hyx : y = x
        · subst hyx; simp [hxa]
        · simp [hyx]
      · rw [htown]
        exact ⟨hi.owner i y ((hrest i y).mp hy).1, ((hrest i y).mp hy).2⟩
      · exact hgrow.active i y (hact ▸ hy) ((htown i y).mp hoy).1
      · exact hi.stored i y ((htown i y).mp hoy).1
      · exact hi.unsub i y (hun ▸ hy)
  · rcases Table.tryProcessRejection_cases hi.tab id x with ⟨-, hteq⟩ | ⟨ho, -⟩
    · rw [hteq]
      exact hgrow.forget hwf hsub hact fun i y hy => ((hrest i y).mp hy).1
    · exact absurd (hi.unsub id x hu) (hone (hi.stored id x ho))

/-- A channel in which the request was not made ignores its rejection. -/
theorem rejection_other (hi : ChanInv h ch m t) {id : ReqId} (x : Sym) (hno : ∀ k, (id, k, ch) ∉ h.calls) :
    m.tryProcessRejection id x = (false, m) ∧ t.tryProcessRejection id x = (false, t) := by
  constructor
  · rcases Manager.tryProcessRejection_cases hi.mgr id x with ⟨-, -, heq⟩ | ⟨hs, -⟩ | ⟨hu, -⟩
    · exact heq
    · exact absurd (hi.stored id x (hi.owner id x hs)) (hno _)
    · exact absurd (hi.unsub id x hu) (hno _)
  · rcases Table.tryProcessRejection_cases hi.tab id x with ⟨-, heq⟩ | ⟨ho, -⟩
    · exact heq
    · exact absurd (hi.stored id x ho) (hno _)

end ChanInv

/-! ## The session -/

structure Inv (s : Session Sym P) (h : History Sym) : Prop where
  chan : ∀ ch, ChanInv h ch (s.managers ch) (s.replayDb ch)
  emitted : ∀ m ∈ s.emitted, ∀ id, m.request.reqId = some id → (id, m.kind, m.channel) ∈ h.calls
  once : ∀ id k c k' c', (id, k, c) ∈ h.calls → (id, k', c') ∈ h.calls → k = k' ∧ c = c'

theorem inv_opened : Inv (opened : Session Sym P) ⟨[], []⟩ where
  chan := fun ch => ChanInv.empty _ ch
  emitted := fun m hm => by simp [opened, new] at hm
  once := fun id k c k' c' hm => by simp at hm

/-- What every step shows of the invariant: one channel moved, the history grew. -/
theorem inv_of_chan {s u : Session Sym P} {h h' : History Sym} (hi : Inv s h) (ch : Channel) {m : Manager Sym}
    {t : Table Sym P} (hm : u.managers = Function.update s.managers ch m)
    (ht : u.replayDb = Function.update s.replayDb ch t) (hc : ∀ c ∈ h.calls, c ∈ h'.calls)
    (ha : ∀ a ∈ h.answered, a ∈ h'.answered) (hch : ChanInv h' ch m t)
    (hem : ∀ m ∈ u.emitted, m ∈ s.emitted ∨ ∀ id, m.request.reqId = some id → (id, m.kind, m.channel) ∈ h'.calls)
    (honce : ∀ id k c k' c', (id, k, c) ∈ h'.calls → (id, k', c') ∈ h'.calls → k = k' ∧ c = c') : Inv u h' := by
  refine ⟨fun c => ?_, fun x hx id hid => ?_, honce⟩
  · rw [hm, ht]
    by_cases hcc : c = ch
    · subst hcc; simpa using hch
    · rw [Function.update_of_ne hcc, Function.update_of_ne hcc]
      exact (hi.chan c).mono hc ha
  · rcases hem x hx with h1 | h1
    · exact hc _ (hi.emitted x h1 id hid)
    · exact h1 id hid

omit [DecidableEq Sym] in
theorem once_cons {h : History Sym} {id : ReqId} {k : Kind} {c : Channel} (hfresh : ∀ k c, (id, k, c) ∉ h.calls)
    (honce : ∀ id k c k' c', (id, k, c) ∈ h.calls → (id, k', c') ∈ h.calls → k = k' ∧ c = c') :
    ∀ i k1 c1 k2 c2, (i, k1, c1) ∈ (id, k, c) :: h.calls → (i, k2, c2) ∈ (id, k, c) :: h.calls →
      k1 = k2 ∧ c1 = c2 := by
  intro i k1 c1 k2 c2 h1 h2
  rcases List.mem_cons.mp h1 with e1 | h1 <;> rcases List.mem_cons.mp h2 with e2 | h2
  · cases e1; cases e2; exact ⟨rfl, rfl⟩
  · cases e1; exact absurd h2 (hfresh _ _)
  · cases e2; exact absurd h1 (hfresh _ _)
  · exact honce i k1 c1 k2 c2 h1 h2

omit [DecidableEq Sym] in
theorem fresh_of_not_mem {h : History Sym} {id : ReqId} (hid : id ∉ h.calls.map Prod.fst) (k : Kind) (c : Channel) :
    (id, k, c) ∉ h.calls := fun hm => hid (List.mem_map.mpr ⟨_, hm, rfl⟩)

/-- The channel that took the call, and only it, is offered the rejection to effect. -/
theorem firstDone_eq {σ : Type} {f : σ → Bool × σ} {comp : Channel → σ} (ch : Channel)
    (hother : ∀ c, c ≠ ch → f (comp c) = (false, comp c)) :
    firstDone f comp = Function.update comp ch (f (comp ch)).2 := by
  unfold firstDone
  cases ch with
  | trade =>
    have hb := hother .book (by decide)
    by_cases hd : (f (comp .trade)).1 = true
    · simp [hd]
    · simp [hd, hb]
  | book =>
    have hb := hother .trade (by decide)
    simp [hb]

section Steps

variable {pol : Policy} {s : Session Sym P} {h : History Sym}

theorem inv_subscribe (hr : pol.replay = true) (hi : Inv s h) (ch : Channel) (req : Request Sym P)
    (accept : Request Sym P → Bool) (hfresh : ∀ k c, (s.requestId req, k, c) ∉ h.calls) :
    Inv (s.subscribe pol accept ch req).2 { h with calls := (s.requestId req, .subscribe, ch) :: h.calls } := by
  have hc : ∀ c ∈ h.calls, c ∈ (s.requestId req, Kind.subscribe, ch) :: h.calls :=
    fun c hc => List.mem_cons_of_mem _ hc
  unfold subscribe
  split_ifs
  · -- refused by the symbol limit
    refine inv_of_chan hi ch (Function.update_eq_self _ _).symm (Function.update_eq_self _ _).symm hc (fun _ ha => ha)
      ((hi.chan ch).mono hc (fun _ ha => ha)) (fun m hm => Or.inl hm) (once_cons hfresh hi.once)
  · have hreg := (hi.chan ch).register (hfresh _ _) req
    have hacc := (Manager.registerSubscription_spec (hi.chan ch).mgr req.symbols (s.requestId req)).1
    refine inv_of_chan hi ch (by rw [place_managers, assignReqId_managers]) ?_ hc (fun _ ha => ha) hreg
      (fun m hm => ?_) (once_cons hfresh hi.once)
    · rw [place_replayDb _ _ _ _ _ hr, assignReqId_managers, assignReqId_replayDb, hacc]
    · rcases mem_place_emitted _ _ _ _ _ hm with h1 | ⟨h1, h2, h3⟩
      · rw [assignReqId_emitted] at h1
        exact Or.inl h1
      · refine Or.inr (fun id hid => ?_)
        rw [h3, Option.some.injEq] at hid
        rw [h1, h2, ← hid]
        exact List.mem_cons_self

theorem inv_unsubscribe (hr : pol.replay = true) (hi : Inv s h) (ch : Channel) (req : Request Sym P)
    (accept : Request Sym P → Bool) (hfresh : ∀ k c, (s.requestId req, k, c) ∉ h.calls) :
    Inv (s.unsubscribe pol accept ch req).2 { h with calls := (s.requestId req, .unsubscribe, ch) :: h.calls } := by
  have hc : ∀ c ∈ h.calls, c ∈ (s.requestId req, Kind.unsubscribe, ch) :: h.calls :=
    fun c hc => List.mem_cons_of_mem _ hc
  have hem : ∀ m ∈ ((s.assignReqId req).emitRequest pol accept .unsubscribe ch
      { req with reqId := some (s.requestId req) }).2.emitted, m ∈ s.emitted ∨
      ∀ id, m.request.reqId = some id → (id, m.kind, m.channel) ∈ (s.requestId req, Kind.unsubscribe, ch) :: h.calls := by
    intro m hm
    rcases mem_emitRequest _ _ _ _ _ _ hm with h1 | ⟨h1, h2, h3⟩
    · rw [assignReqId_emitted] at h1
      exact Or.inl h1
    · refine Or.inr (fun id hid => ?_)
      rw [h3, Option.some.injEq] at hid
      rw [h1, h2, ← hid]
      exact List.mem_cons_self
  unfold unsubscribe
  dsimp only
  split_ifs
  · refine inv_of_chan hi ch ?_ ?_ hc (fun _ ha => ha) ((hi.chan ch).unsubscribe req.symbols (s.requestId req)) hem
      (once_cons hfresh hi.once)
    · simp
    · simp
  · refine inv_of_chan hi ch (m := s.managers ch) (t := s.replayDb ch) ?_ ?_ hc (fun _ ha => ha)
      ((hi.chan ch).mono hc (fun _ ha => ha)) hem (once_cons hfresh hi.once)
    · simp
    · simp

theorem inv_subscribeAck (hi : Inv s h) (ch : Channel) (id : ReqId) (x : Sym) (success : Bool)
    (hok : success = true ∨ ¬ (s.managers ch).pendingSubscriptions.Owns id x) :
    Inv (s.onSubscribeAck ch id x success) { h with answered := (id, x) :: h.answered } := by
  refine inv_of_chan hi ch rfl (Function.update_eq_self _ _).symm (fun _ hc => hc)
    (fun _ ha => List.mem_cons_of_mem _ ha) ((hi.chan ch).subscribeAck id x success hok) (fun m hm => Or.inl hm) hi.once

theorem inv_unsubscribeAck (hr : pol.replay = true) (hi : Inv s h) (ch : Channel) (id : ReqId) (x : Sym)
    (success : Bool) (hok : success = false ∨ (s.managers ch).pendingUnsubscriptions.Owns id x ∨
      ¬ (s.managers ch).Counts x) :
    Inv (s.onUnsubscribeAck pol ch id x success) { h with answered := (id, x) :: h.answered } := by
  unfold onUnsubscribeAck
  rw [hr]
  cases success with
  | false =>
    exact inv_of_chan hi ch rfl (Function.update_eq_self _ _).symm (fun _ hc => hc)
      (fun _ ha => List.mem_cons_of_mem _ ha) ((hi.chan ch).unsubscribeAck_failed id x) (fun m hm => Or.inl hm) hi.once
  | true =>
    exact inv_of_chan hi ch rfl rfl (fun _ hc => hc) (fun _ ha => List.mem_cons_of_mem _ ha)
      ((hi.chan ch).unsubscribeAck_done id x (hok.resolve_left (by decide))) (fun m hm => Or.inl hm) hi.once

theorem inv_rejection (hr : pol.replay = true) (hi : Inv s h) {msg : Message Sym P} {id : ReqId} {x : Sym}
    (hmsg : msg ∈ s.emitted) (hid : msg.request.reqId = some id) (hnew : (id, x) ∉ h.answered) :
    Inv (s.onRejection pol id x) { h with answered := (id, x) :: h.answered } := by
  have hcall := hi.emitted msg hmsg id hid
  have hother : ∀ c, c ≠ msg.channel → ∀ k, (id, k, c) ∉ h.calls :=
    fun c hc k hk => hc (hi.once _ _ _ _ _ hk hcall).2
  have hone : (id, Kind.subscribe, msg.channel) ∈ h.calls → (id, Kind.unsubscribe, msg.channel) ∉ h.calls := by
    intro h1 h2
    have := (hi.once _ _ _ _ _ h1 h2).1
    cases this
  refine inv_of_chan hi msg.channel ?_ ?_ (fun _ hc => hc) (fun _ ha => List.mem_cons_of_mem _ ha)
    ((hi.chan msg.channel).rejection hnew hone) (fun m hm => Or.inl hm) hi.once
  · exact firstDone_eq (f := fun m : Manager Sym => m.tryProcessRejection id x) msg.channel
      (fun c hc => ((hi.chan c).rejection_other x (hother c hc)).1)
  · unfold onRejection
    rw [hr, if_pos rfl]
    exact firstDone_eq (f := fun t : Table Sym P => t.tryProcessRejection id x) msg.channel
      (fun c hc => ((hi.chan c).rejection_other x (hother c hc)).2)

/-- One step keeps the invariant. -/
theorem inv_step (hr : pol.replay = true) (hi : Inv s h) (ev : Event Sym P) (hadm : Admissible (s, h) ev)
    (hset : s.Settles ev) : Inv (s.step pol ev) (s.record h ev) := by
  cases ev with
  | subscribe ch req accept => exact inv_subscribe hr hi ch req accept (fresh_of_not_mem hadm.2.2)
  | unsubscribe ch req accept => exact inv_unsubscribe hr hi ch req accept (fresh_of_not_mem hadm.2.2)
  | subscribeAck ch id x success => exact inv_subscribeAck hi ch id x success hset
  | unsubscribeAck ch id x success => exact inv_unsubscribeAck hr hi ch id x success hset
  | rejection id x =>
    obtain ⟨⟨msg, hmsg, hid, -⟩, hnew⟩ := hadm
    exact inv_rejection hr hi hmsg hid hnew
  | transportConnected => exact hadm.elim
  | transportClosing => exact hadm.elim
  | transportClosed => exact hadm.elim
  | pollSignal order accept => exact hadm.elim

end Steps

/-- **Replay intent agrees with the subscription state** in every state of every run whose answers all settle. -/
theorem replay_agrees {pol : Policy} (hr : pol.replay = true) {evs : List (Event Sym P)}
    {t : Session Sym P × History Sym}
    (hrun : Run (fun t ev u => u = observe pol t ev) (fun t ev => Admissible t ev ∧ t.1.Settles ev)
      (opened, ⟨[], []⟩) evs t) (ch : Channel) :
    (t.1.replayDb ch).symbols =
      (t.1.managers ch).activeSymbols ∪ (t.1.managers ch).pendingSubscriptions.pendingSymbols := by
  have hinv : Inv t.1 t.2 := by
    refine hrun.invariant (I := fun t => Inv t.1 t.2) inv_opened ?_
    rintro t ev v hi ⟨hadm, hset⟩ rfl
    exact inv_step hr hi ev hadm hset
  ext x
  rw [Table.mem_symbols (hinv.chan ch).tab, (hinv.chan ch).agree, Finset.mem_union]
  exact Iff.rfl

/-! ## Two runs -/

/-- The state a run from `opened` ends in. -/
def finish (evs : List (Event ℕ Unit)) : Session ℕ Unit × History ℕ :=
  evs.foldl (observe defaultPolicy) (opened, ⟨[], []⟩)

theorem run_finish {ok : Session ℕ Unit × History ℕ → Event ℕ Unit → Prop} {evs : List (Event ℕ Unit)}
    (h : Admitted (observe defaultPolicy) ok (opened, ⟨[], []⟩) evs) :
    Run (fun t ev u => u = observe defaultPolicy t ev) ok (opened, ⟨[], []⟩) evs (finish evs) := by
  refine Run.of_admitted ?_ h
  intro t ev _
  rfl

/-- Acknowledged, given up, acknowledged again, taken up again. -/
def resubscribed : List (Event ℕ Unit) :=
  [.subscribe .trade (.single 7) (fun _ => true), .subscribeAck .trade 10 7 true,
   .unsubscribe .trade (.single 7) (fun _ => true), .unsubscribeAck .trade 11 7 true,
   .subscribe .trade (.single 7) (fun _ => true)]

theorem replay_agrees_resubscribed : ((finish resubscribed).1.replayDb .trade).symbols =
    ((finish resubscribed).1.managers .trade).activeSymbols ∪
      ((finish resubscribed).1.managers .trade).pendingSubscriptions.pendingSymbols :=
  replay_agrees rfl (run_finish (by decide)) .trade

/-- Given up before its ACK and taken up again; then the ACK of the unsubscription comes. -/
def lateAck : List (Event ℕ Unit) :=
  [.subscribe .trade (.single 7) (fun _ => true), .unsubscribe .trade (.single 7) (fun _ => true),
   .subscribe .trade (.single 7) (fun _ => true), .unsubscribeAck .trade 11 7 true]

/-- The late ACK takes the symbol out of the table while the manager holds it pending. -/
theorem late_unsubscribe_ack_loses_symbol :
    Run (fun t ev u => u = observe defaultPolicy t ev) Admissible (opened, ⟨[], []⟩) lateAck (finish lateAck) ∧
    7 ∈ ((finish lateAck).1.managers .trade).pendingSubscriptions.pendingSymbols ∧
    7 ∉ ((finish lateAck).1.replayDb .trade).symbols :=
  ⟨run_finish (by decide), by decide, by decide⟩

end Session

end Wirekrak.Protocol

import Wirekrak.Protocol.Lifecycle

/-!
# Wirekrak.Protocol.Intent — two opposite requests for one symbol

A symbol is unsubscribed and subscribed again, or the other way round, while answers to the first request are still to
come.

* `Op.Spares s`: an operation on other symbols.
* `Op.Late id s`: an operation on other symbols, or an answer that is not one to the subscription `id`.
* `EndsSubscribed`, `NeverActivated`: what the later request is to decide.
* `latest_intent_wins_iff`: it does, unless the symbol is active at the first request: `register_subscription` ignores
  active symbols before it looks for a pending unsubscription to cancel.
-/

namespace Wirekrak.Protocol.Manager

variable {Sym : Type}

theorem SameState.trans {m u v : Manager Sym} {s : Sym} (h : SameState m u s) (h' : SameState u v s) :
    SameState m v s :=
  ⟨h'.active.trans h.active, fun i => (h'.sub i).trans (h.sub i), fun i => (h'.unsub i).trans (h.unsub i)⟩

/-- The operation is about other symbols. -/
def Op.Spares (s : Sym) : Op Sym → Prop
  | .registerSubscription symbols _ => s ∉ symbols
  | .registerUnsubscription symbols _ => s ∉ symbols
  | .subscribeAck _ x _ => x ≠ s
  | .unsubscribeAck _ x _ => x ≠ s
  | .rejection _ x => x ≠ s
  | .clearAll => False

/-- The operation is about other symbols, or it answers another request than the subscription `id`. -/
def Op.Late (id : ReqId) (s : Sym) : Op Sym → Prop
  | .subscribeAck i x _ => x ≠ s ∨ i ≠ id
  | .unsubscribeAck _ _ _ => True
  | .rejection i x => x ≠ s ∨ i ≠ id
  | op => op.Spares s

/-- The operation asks for the symbol. -/
def Op.Subscribes (s : Sym) : Op Sym → Prop
  | .registerSubscription symbols _ => s ∈ symbols
  | _ => False

variable [DecidableEq Sym]

/-- `register_unsubscription`, and later `register_subscription`: whatever is answered to the other requests, the symbol
is active or pending-subscribe. -/
def EndsSubscribed (m : Manager Sym) (s : Sym) (symbols : List Sym) (id : ReqId) (between : List (Op Sym))
    (symbols' : List Sym) (id' : ReqId) : Prop :=
  ∀ late : List (Op Sym), (∀ op ∈ late, op.Late id' s) →
    (late.foldl apply ((between.foldl apply (m.apply (.registerUnsubscription symbols id))).apply
      (.registerSubscription symbols' id'))).Counts s

/-- `register_subscription`, and later `register_unsubscription`: as long as nobody asks for the symbol again, nothing
makes it active. -/
def NeverActivated (m : Manager Sym) (s : Sym) (symbols : List Sym) (id : ReqId) (between : List (Op Sym))
    (symbols' : List Sym) (id' : ReqId) : Prop :=
  ∀ (late : List (Op Sym)) (op : Op Sym), (∀ o ∈ late, ¬ o.Subscribes s) →
    let u := late.foldl apply ((between.foldl apply (m.apply (.registerSubscription symbols id))).apply
      (.registerUnsubscription symbols' id'))
    s ∉ u.activeSymbols → s ∉ (u.apply op).activeSymbols

/-! ## Operations on other symbols -/

theorem sameState_of_spares {m : Manager Sym} (hm : m.Wf) {op : Op Sym} {s : Sym} (h : op.Spares s) :
    SameState m (m.apply op) s := by
  cases op with
  | registerSubscription symbols id =>
    obtain ⟨-, -, hact, hunsub, hown⟩ := registerSubscription_spec hm symbols id
    refine ⟨by simp only [apply, hact], fun i => (hown i s).trans (or_iff_left ?_), fun i => by simp only [apply, hunsub]⟩
    exact fun hi => h (mem_accepted.mp hi.2).1
  | registerUnsubscription symbols id =>
    obtain ⟨-, -, hact, hown, -⟩ := registerUnsubscription_spec hm symbols id
    refine ⟨by simp only [apply, hact], fun i => (hown i s).trans (and_iff_left h), fun i => ?_⟩
    exact (owns_registerUnsubscription hm symbols id i s).trans (or_iff_left fun hi => h hi.2.1)
  | subscribeAck id x success => exact sameState_of_answer hm rfl (Ne.symm h)
  | unsubscribeAck id x success => exact sameState_of_answer hm rfl (Ne.symm h)
  | rejection id x => exact sameState_of_answer hm rfl (Ne.symm h)
  | clearAll => exact h.elim

theorem sameState_foldl {m : Manager Sym} (hm : m.Wf) {s : Sym} {ops : List (Op Sym)} (h : ∀ op ∈ ops, op.Spares s) :
    SameState m (ops.foldl apply m) s := by
  induction ops generalizing m with
  | nil => exact SameState.refl m s
  | cons op ops ih =>
    rw [List.forall_mem_cons] at h
    exact (sameState_of_spares hm h.1).trans (ih (wf_apply hm op) h.2)

/-! ## Unsubscribed, then subscribed -/

/-- The pending subscription stays, whatever is answered to other requests. -/
theorem owns_of_late {m : Manager Sym} (hm : m.Wf) {id : ReqId} {s : Sym} (h : m.pendingSubscriptions.Owns id s)
    {op : Op Sym} (hop : op.Late id s) : (m.apply op).pendingSubscriptions.Owns id s := by
  have hact : s ∉ m.activeSymbols := fun ha => hm.active_not_sub s ha (h.mem hm.sub)
  have hunsub : ∀ i, ¬ m.pendingUnsubscriptions.Owns i s := fun i ho => hact (hm.unsub_active s (ho.mem hm.unsub))
  have hkeep : ∀ {op : Op Sym}, ¬ m.Awaits op → (m.apply op).pendingSubscriptions.Owns id s := by
    intro op ha
    rw [apply_of_not_awaits hm ha]
    exact h
  cases op with
  | registerSubscription symbols i =>
    have hsame : SameState m (m.apply (.registerSubscription symbols i)) s := sameState_of_spares hm hop
    exact (hsame.sub id).mpr h
  | registerUnsubscription symbols i =>
    have hsame : SameState m (m.apply (.registerUnsubscription symbols i)) s := sameState_of_spares hm hop
    exact (hsame.sub id).mpr h
  | subscribeAck i x success =>
    by_cases hx : x = s
    · subst hx
      exact hkeep fun ho => hop.resolve_left (fun hne => hne rfl) (hm.sub.owner_eq i id x ho h)
    · exact ((sameState_of_answer hm rfl (Ne.symm hx)).sub id).mpr h
  | unsubscribeAck i x success =>
    by_cases hx : x = s
    · subst hx
      exact hkeep (hunsub i)
    · exact ((sameState_of_answer hm rfl (Ne.symm hx)).sub id).mpr h
  | rejection i x =>
    by_cases hx : x = s
    · subst hx
      refine hkeep (not_or.mpr ⟨fun ho => ?_, hunsub i⟩)
      exact hop.resolve_left (fun hne => hne rfl) (hm.sub.owner_eq i id x ho h)
    · exact ((sameState_of_answer hm rfl (Ne.symm hx)).sub id).mpr h
  | clearAll => exact hop.elim

theorem owns_foldl_late {m : Manager Sym} (hm : m.Wf) {id : ReqId} {s : Sym} (h : m.pendingSubscriptions.Owns id s)
    {late : List (Op Sym)} (hlate : ∀ op ∈ late, op.Late id s) :
    (late.foldl apply m).pendingSubscriptions.Owns id s := by
  induction late generalizing m with
  | nil => exact h
  | cons op late ih =>
    rw [List.forall_mem_cons] at hlate
    exact ih (wf_apply hm op) (owns_of_late hm h hlate.1) hlate.2

/-- The ACK of the unsubscription leaves nothing of the symbol. -/
theorem not_counts_of_unsubscribeAck {m : Manager Sym} (hm : m.Wf) {id : ReqId} {s : Sym}
    (h : m.pendingUnsubscriptions.Owns id s) : ¬ (m.apply (.unsubscribeAck id s true)).Counts s := by
  rcases processUnsubscribeAck_cases hm id s true with ⟨hno, -⟩ | ⟨-, -, hsub, -, hact⟩
  · exact absurd h hno
  · rintro (hin | hin)
    · change s ∈ (m.processUnsubscribeAck id s true).2.activeSymbols at hin
      rw [hact, if_pos rfl] at hin
      exact Finset.notMem_erase s _ hin
    · change s ∈ (m.processUnsubscribeAck id s true).2.pendingSubscriptions.pendingSymbols at hin
      rw [hsub] at hin
      exact hm.active_not_sub s (hm.unsub_active s (h.mem hm.unsub)) hin

section Opposite

variable {m : Manager Sym} (hm : m.Wf) {s : Sym} {symbols symbols' : List Sym} (h : s ∈ symbols) (id id' : ReqId)
  {between : List (Op Sym)} (hbetween : ∀ op ∈ between, op.Spares s)

include hm h hbetween

/-- A symbol that is not active is forgotten, and then asked for again. -/
theorem endsSubscribed_of_not_active (h' : s ∈ symbols') (hs : s ∉ m.activeSymbols) :
    m.EndsSubscribed s symbols id between symbols' id' := by
  intro late hlate
  obtain ⟨-, hwf, hact, hown, -⟩ := registerUnsubscription_spec hm symbols id
  have hsame := sameState_foldl hwf hbetween
  have hwf' := wf_foldl hwf between
  obtain ⟨-, hwf2, -, -, hown'⟩ := registerSubscription_spec hwf' symbols' id'
  have hnot : ¬ (between.foldl apply (m.apply (.registerUnsubscription symbols id))).Counts s := by
    rintro (hin | hin)
    · exact hs (hact ▸ hsame.active.mp hin)
    · obtain ⟨i, ho⟩ := (hwf'.sub.mem_iff s).mp hin
      exact ((hown i s).mp ((hsame.sub i).mp ho)).2 h
  have hpending := (hown' id' s).mpr (.inr ⟨rfl, mem_accepted.mpr ⟨h', hnot⟩⟩)
  have hwf3 := wf_foldl hwf2 late
  exact .inr ((owns_foldl_late hwf2 hpending hlate).mem hwf3.sub)

/-- An active symbol stays pending-unsubscribe, and the ACK of that request takes it away. -/
theorem not_endsSubscribed_of_active (hs : s ∈ m.activeSymbols) :
    ¬ m.EndsSubscribed s symbols id between symbols' id' := by
  intro hends
  obtain ⟨-, hwf, -, -, -⟩ := registerUnsubscription_spec hm symbols id
  have hsame := sameState_foldl hwf hbetween
  have hwf' := wf_foldl hwf between
  obtain ⟨-, hwf2, -, hunsub, -⟩ := registerSubscription_spec hwf' symbols' id'
  obtain ⟨i, ho⟩ := (hwf.unsub.mem_iff s).mp ((mem_registerUnsubscription hm symbols id s).mpr (.inr ⟨h, hs⟩))
  have ho2 : ((between.foldl apply (m.apply (.registerUnsubscription symbols id))).apply
      (.registerSubscription symbols' id')).pendingUnsubscriptions.Owns i s := by
    simp only [apply, hunsub]
    exact (hsame.unsub i).mpr ho
  refine not_counts_of_unsubscribeAck hwf2 ho2 (hends [.unsubscribeAck i s true] fun op hop => ?_)
  rw [List.mem_singleton.mp hop]
  trivial

end Opposite

/-! ## Subscribed, then unsubscribed -/

/-- Nobody waits for the subscription of a symbol that nobody asks for. -/
theorem not_owns_apply {m : Manager Sym} (hm : m.Wf) {s : Sym} (h : ∀ i, ¬ m.pendingSubscriptions.Owns i s)
    {op : Op Sym} (hop : ¬ op.Subscribes s) (i : ReqId) : ¬ (m.apply op).pendingSubscriptions.Owns i s := by
  intro ho
  cases op with
  | registerSubscription symbols id =>
    obtain ⟨-, -, -, -, hown⟩ := registerSubscription_spec hm symbols id
    rcases (hown i s).mp ho with hold | ⟨-, hacc⟩
    · exact h i hold
    · exact hop (mem_accepted.mp hacc).1
  | registerUnsubscription symbols id =>
    exact h i (((registerUnsubscription_spec hm symbols id).2.2.2.1 i s).mp ho).1
  | subscribeAck id x success =>
    have hreg : ¬ Op.Registers i (.subscribeAck id x success : Op Sym) := not_false
    exact h i ((owns_of_apply hm hreg s).1 ho)
  | unsubscribeAck id x success =>
    have hreg : ¬ Op.Registers i (.unsubscribeAck id x success : Op Sym) := not_false
    exact h i ((owns_of_apply hm hreg s).1 ho)
  | rejection id x =>
    have hreg : ¬ Op.Registers i (.rejection id x : Op Sym) := not_false
    exact h i ((owns_of_apply hm hreg s).1 ho)
  | clearAll => exact PendingRequests.not_owns_empty ho

theorem not_owns_foldl {m : Manager Sym} (hm : m.Wf) {s : Sym} (h : ∀ i, ¬ m.pendingSubscriptions.Owns i s)
    {ops : List (Op Sym)} (hops : ∀ op ∈ ops, ¬ op.Subscribes s) (i : ReqId) :
    ¬ (ops.foldl apply m).pendingSubscriptions.Owns i s := by
  induction ops generalizing m with
  | nil => exact h i
  | cons op ops ih =>
    rw [List.forall_mem_cons] at hops
    exact ih (wf_apply hm op) (fun i => not_owns_apply hm h hops.1 i) hops.2

/-- Without a pending subscription nothing makes the symbol active. -/
theorem not_active_apply {m : Manager Sym} (hm : m.Wf) {s : Sym} (h : ∀ i, ¬ m.pendingSubscriptions.Owns i s)
    (hout : s ∉ m.activeSymbols) (op : Op Sym) : s ∉ (m.apply op).activeSymbols := by
  intro hin
  rcases active_apply hm op with he | ⟨i, x, -, ho, he⟩ | ⟨i, x, -, -, he⟩ | rfl
  · exact hout (he ▸ hin)
  · rw [he] at hin
    rcases Finset.mem_insert.mp hin with rfl | hin
    · exact h i ho
    · exact hout hin
  · rw [he] at hin
    exact hout (Finset.mem_of_mem_erase hin)
  · exact Finset.notMem_empty s hin

/-- What is cancelled is not waited for, so that its ACK finds nothing. -/
theorem neverActivated {m : Manager Sym} (hm : m.Wf) {s : Sym} {symbols' : List Sym} (h' : s ∈ symbols')
    (symbols : List Sym) (id id' : ReqId) (between : List (Op Sym)) :
    m.NeverActivated s symbols id between symbols' id' := by
  intro late op hlate u hout
  have hwf := wf_foldl (wf_apply hm (.registerSubscription symbols id)) between
  obtain ⟨-, hwf2, -, hown, -⟩ := registerUnsubscription_spec hwf symbols' id'
  have hnone := not_owns_foldl hwf2 (fun i ho => ((hown i s).mp ho).2 h') hlate
  exact not_active_apply (wf_foldl hwf2 late) hnone hout op

/-- **The latest intent wins** just for the symbols that are not active. -/
theorem latest_intent_wins_iff (ops : List (Op Sym)) (s : Sym) {symbols symbols' : List Sym} (h : s ∈ symbols)
    (h' : s ∈ symbols') (id id' : ReqId) {between : List (Op Sym)} (hbetween : ∀ op ∈ between, op.Spares s) :
    ((after ops).EndsSubscribed s symbols id between symbols' id' ∧
      (after ops).NeverActivated s symbols id between symbols' id') ↔ s ∉ (after ops).activeSymbols := by
  have hm := wf_after ops
  constructor
  · rintro ⟨hends, -⟩ hs
    exact not_endsSubscribed_of_active hm h id id' hbetween hs hends
  · exact fun hs => ⟨endsSubscribed_of_not_active hm h id id' hbetween h' hs,
      neverActivated hm h' symbols id id' between⟩

/-- The symbol 7 is pending-subscribe while 8 is asked for. -/
theorem latest_intent_wins_pending :
    (after [.registerSubscription [7] 1]).EndsSubscribed 7 [7] 2 [.registerSubscription [8] 3] [7, 9] 4 :=
  ((latest_intent_wins_iff [.registerSubscription [7] 1] 7 (List.mem_singleton.mpr rfl) (by decide) 2 4
    (fun op hop => by rw [List.mem_singleton.mp hop]; exact (by decide : (7 : ℕ) ∉ [8]))).mpr (by decide)).1

/-- Active, unsubscribed and subscribed again: the ACK of the unsubscription removes the symbol. -/
theorem resubscription_lost : ¬ ∀ (ops : List (Op ℕ)) (s : ℕ) (symbols : List ℕ) (id : ReqId) (symbols' : List ℕ)
    (id' : ReqId), s ∈ symbols → s ∈ symbols' → (after ops).EndsSubscribed s symbols id [] symbols' id' := by
  intro hall
  have hcounts := hall [.registerSubscription [7] 1, .subscribeAck 1 7 true] 7 [7] 2 [7] 3 (by decide) (by decide)
    [.unsubscribeAck 2 7 true] (fun op hop => by rw [List.mem_singleton.mp hop]; trivial)
  revert hcounts
  decide

end Wirekrak.Protocol.Manager

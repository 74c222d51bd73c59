import Wirekrak.Protocol.Lifecycle

/-!
# Wirekrak.Protocol.Confluence — the order of the answers does not matter

A manager with pending requests, and a list of answers in which every pending symbol has its one outcome; an answer may
be repeated, and answers to requests that are no longer pending may stand anywhere between them.

* `Answers`: the list answers all that is pending, and no pending symbol in two ways.
* `owns_answers`, `mem_active_answers`: what is pending and what is active in the end, said without the order.
* `confluent`: every order of the answers ends with the same active symbols and nothing pending.
-/

namespace Wirekrak.Protocol.Manager

variable {Sym : Type}

deriving instance DecidableEq for Op

/-- The symbol `s` waits for an answer to the request `id`. -/
def Pending (m : Manager Sym) (id : ReqId) (s : Sym) : Prop :=
  m.pendingSubscriptions.Owns id s ∨ m.pendingUnsubscriptions.Owns id s

/-- Neither store holds a request or a symbol. -/
structure Settled (m : Manager Sym) : Prop where
  sub : m.pendingSubscriptions.requests.entries = []
  subSymbols : m.pendingSubscriptions.pendingSymbols = ∅
  unsub : m.pendingUnsubscriptions.requests.entries = []
  unsubSymbols : m.pendingUnsubscriptions.pendingSymbols = ∅

/-- A symbol waits for one answer: of one request, in one direction. -/
theorem Wf.pending_unique {m : Manager Sym} (hm : m.Wf) {i j : ReqId} {s : Sym} (hi : m.Pending i s)
    (hj : m.Pending j s) : i = j := by
  rcases hi with hi | hi
  · rcases hj with hj | hj
    · exact hm.sub.owner_eq i j s hi hj
    · exact absurd (hi.mem hm.sub) (hm.active_not_sub s (hm.unsub_active s (hj.mem hm.unsub)))
  · rcases hj with hj | hj
    · exact absurd (hj.mem hm.sub) (hm.active_not_sub s (hm.unsub_active s (hi.mem hm.unsub)))
    · exact hm.unsub.owner_eq i j s hi hj

theorem settled_of_not_owns {p : PendingRequests Sym} (hp : p.Wf) (h : ∀ i s, ¬ p.Owns i s) :
    p.requests.entries = [] ∧ p.pendingSymbols = ∅ := by
  constructor
  · rw [List.eq_nil_iff_forall_not_mem]
    rintro ⟨i, vec⟩ he
    have hlook : p.requests.lookup i = some vec := AList.mem_lookup_iff.mpr he
    obtain ⟨s, hs⟩ := List.exists_mem_of_ne_nil vec (hp.ne_nil i vec hlook)
    exact h i s ⟨vec, hlook, hs⟩
  · rw [Finset.eq_empty_iff_forall_notMem]
    intro s hs
    obtain ⟨i, hi⟩ := (hp.mem_iff s).mp hs
    exact h i s hi

theorem Wf.settled {m : Manager Sym} (hm : m.Wf) (h : ∀ i s, ¬ m.Pending i s) : m.Settled := by
  obtain ⟨hs1, hs2⟩ := settled_of_not_owns hm.sub fun i s ho => h i s (Or.inl ho)
  obtain ⟨hu1, hu2⟩ := settled_of_not_owns hm.unsub fun i s ho => h i s (Or.inr ho)
  exact ⟨hs1, hs2, hu1, hu2⟩

/-- Every pending symbol is answered, and its answers are all the same; the others find nothing that waits. -/
structure Answers (m : Manager Sym) (replies : List (Op Sym)) : Prop where
  reply : ∀ r ∈ replies, r.answer?.isSome
  complete : ∀ id s, m.Pending id s → ∃ r ∈ replies, r.answer? = some (id, s) ∧ m.Awaits r
  fixed : ∀ r ∈ replies, ∀ r' ∈ replies, m.Awaits r → m.Awaits r' → r.answer? = r'.answer? → r = r'

/-! ## One answer -/

theorem Awaits.pending {m : Manager Sym} {r : Op Sym} (h : m.Awaits r) {id : ReqId} {s : Sym}
    (hr : r.answer? = some (id, s)) : m.Pending id s := by
  cases r with
  | registerSubscription symbols i => cases hr
  | registerUnsubscription symbols i => cases hr
  | clearAll => cases hr
  | subscribeAck i x success => cases hr; exact Or.inl h
  | unsubscribeAck i x success => cases hr; exact Or.inr h
  | rejection i x => cases hr; exact h

theorem not_registers_of_answer {r : Op Sym} {id : ReqId} {s : Sym} (hr : r.answer? = some (id, s)) (i : ReqId) :
    ¬ r.Registers i := by
  cases r with
  | registerSubscription symbols i => cases hr
  | registerUnsubscription symbols i => cases hr
  | clearAll => cases hr
  | subscribeAck i x success => exact not_false
  | unsubscribeAck i x success => exact not_false
  | rejection i x => exact not_false

theorem SameState.awaits_iff {m u : Manager Sym} {t : Sym} (h : SameState m u t) {o : Op Sym} {i : ReqId}
    (ho : o.answer? = some (i, t)) : u.Awaits o ↔ m.Awaits o := by
  cases o with
  | registerSubscription symbols j => cases ho
  | registerUnsubscription symbols j => cases ho
  | clearAll => cases ho
  | subscribeAck j x success => cases ho; exact h.sub i
  | unsubscribeAck j x success => cases ho; exact h.unsub i
  | rejection j x => cases ho; exact or_congr (h.sub i) (h.unsub i)

variable [DecidableEq Sym]

instance (m : Manager Sym) : DecidablePred m.Awaits
  | .subscribeAck id s _ => inferInstanceAs (Decidable (m.pendingSubscriptions.Owns id s))
  | .unsubscribeAck id s _ => inferInstanceAs (Decidable (m.pendingUnsubscriptions.Owns id s))
  | .rejection _ _ => inferInstanceAs (Decidable (_ ∨ _))
  | .registerSubscription _ _ | .registerUnsubscription _ _ | .clearAll => inferInstanceAs (Decidable True)

/-- What is waited for after an answer was waited for before. -/
theorem awaits_of_apply_answer {m : Manager Sym} (hm : m.Wf) {r o : Op Sym} {id : ReqId} {s : Sym}
    (hr : r.answer? = some (id, s)) (ho : o.answer?.isSome) (h : (m.apply r).Awaits o) : m.Awaits o := by
  obtain ⟨⟨i, x⟩, hix⟩ := Option.isSome_iff_exists.mp ho
  exact awaits_of_apply hm hix (not_registers_of_answer hr i) h

/-- An answer that is waited for settles its symbol. -/
theorem not_pending_apply {m : Manager Sym} (hm : m.Wf) {r : Op Sym} {id : ReqId} {s : Sym}
    (hr : r.answer? = some (id, s)) (h : m.Awaits r) (i : ReqId) : ¬ (m.apply r).Pending i s := by
  intro hp
  have hno := not_registers_of_answer hr i
  have hwas : m.Pending i s := hp.imp (owns_of_apply hm hno s).1 (owns_of_apply hm hno s).2
  obtain rfl : i = id := hm.pending_unique hwas (h.pending hr)
  have hgone := not_awaits_apply hm hr
  cases r with
  | registerSubscription symbols j => cases hr
  | registerUnsubscription symbols j => cases hr
  | clearAll => cases hr
  | subscribeAck j x success =>
    cases hr
    rcases hp with hp | hp
    · exact hgone hp
    · -- the symbol was pending-subscribe, so it was not pending-unsubscribe
      have hu : m.pendingUnsubscriptions.Owns i s := (owns_of_apply hm hno s).2 hp
      exact hm.active_not_sub s (hm.unsub_active s (hu.mem hm.unsub)) (h.mem hm.sub)
  | unsubscribeAck j x success =>
    cases hr
    rcases hp with hp | hp
    · have hs : m.pendingSubscriptions.Owns i s := (owns_of_apply hm hno s).1 hp
      exact hm.active_not_sub s (hm.unsub_active s (h.mem hm.unsub)) (hs.mem hm.sub)
    · exact hgone hp
  | rejection j x =>
    cases hr
    exact hgone hp

/-- An answer leaves what is pending under the other symbols. -/
theorem pending_apply_of_ne {m : Manager Sym} (hm : m.Wf) {r : Op Sym} {id : ReqId} {s t : Sym}
    (hr : r.answer? = some (id, s)) (hne : t ≠ s) (i : ReqId) : (m.apply r).Pending i t ↔ m.Pending i t := by
  have hsame := sameState_of_answer hm hr hne
  unfold Pending
  rw [hsame.sub, hsame.unsub]

/-- What an answer can make of its own symbol. -/
theorem active_apply_self {m : Manager Sym} (hm : m.Wf) {r : Op Sym} {id : ReqId} {s : Sym}
    (hr : r.answer? = some (id, s)) (h : m.Awaits r) :
    s ∈ (m.apply r).activeSymbols ↔
      r = .subscribeAck id s true ∨ (m.pendingUnsubscriptions.Owns id s ∧ r ≠ .unsubscribeAck id s true) := by
  have hsub : m.pendingSubscriptions.Owns id s → s ∉ m.activeSymbols ∧ ¬ m.pendingUnsubscriptions.Owns id s := by
    intro ho
    have hout : s ∉ m.activeSymbols := fun ha => hm.active_not_sub s ha (ho.mem hm.sub)
    exact ⟨hout, fun hu => hout (hm.unsub_active s (hu.mem hm.unsub))⟩
  have hunsub : m.pendingUnsubscriptions.Owns id s → s ∈ m.activeSymbols :=
    fun hu => hm.unsub_active s (hu.mem hm.unsub)
  cases r with
  | registerSubscription symbols i => cases hr
  | registerUnsubscription symbols i => cases hr
  | clearAll => cases hr
  | subscribeAck i x success =>
    cases hr
    rcases processSubscribeAck_cases hm id s success with ⟨hno, -⟩ | ⟨hown, -, -, -, hact⟩
    · exact absurd h hno
    · obtain ⟨hout, hnu⟩ := hsub hown
      simp only [apply, hact]
      cases success <;> simp [hout, hnu]
  | unsubscribeAck i x success =>
    cases hr
    rcases processUnsubscribeAck_cases hm id s success with ⟨hno, -⟩ | ⟨hown, -, -, -, hact⟩
    · exact absurd h hno
    · have hin := hunsub hown
      simp only [apply, hact]
      cases success <;> simp [hin, hown]
  | rejection i x =>
    cases hr
    rw [active_of_failed hm (show (Op.rejection id s : Op Sym).Failed from trivial)]
    rcases h with hown | hown
    · obtain ⟨hout, hnu⟩ := hsub hown
      simp [hout, hnu]
    · simp [hunsub hown, hown]

/-! ## A list of answers -/

theorem fixed_cons {m : Manager Sym} (hm : m.Wf) {r : Op Sym} {rs : List (Op Sym)}
    (hreply : ∀ o ∈ r :: rs, o.answer?.isSome)
    (hfixed : ∀ o ∈ r :: rs, ∀ o' ∈ r :: rs, m.Awaits o → m.Awaits o' → o.answer? = o'.answer? → o = o') :
    ∀ o ∈ rs, ∀ o' ∈ rs, (m.apply r).Awaits o → (m.apply r).Awaits o' → o.answer? = o'.answer? → o = o' := by
  obtain ⟨⟨id, s⟩, hr⟩ := Option.isSome_iff_exists.mp (hreply r List.mem_cons_self)
  intro o ho o' ho' hw hw' heq
  have hin := List.mem_cons_of_mem r ho
  have hin' := List.mem_cons_of_mem r ho'
  exact hfixed o hin o' hin' (awaits_of_apply_answer hm hr (hreply o hin) hw)
    (awaits_of_apply_answer hm hr (hreply o' hin') hw') heq

/-- What is still pending after the answers: what none of them is for. -/
theorem pending_answers (rs : List (Op Sym)) : ∀ m : Manager Sym, m.Wf → (∀ r ∈ rs, r.answer?.isSome) →
    ∀ i s, (rs.foldl apply m).Pending i s ↔
      m.Pending i s ∧ ∀ r ∈ rs, m.Awaits r → r.answer? ≠ some (i, s) := by
  induction rs with
  | nil => intro m _ _ i s; simp
  | cons r rs ih =>
    intro m hm hreply i s
    obtain ⟨⟨id, x⟩, hr⟩ := Option.isSome_iff_exists.mp (hreply r List.mem_cons_self)
    have hrest : ∀ o ∈ rs, o.answer?.isSome := fun o ho => hreply o (List.mem_cons_of_mem r ho)
    rw [List.foldl_cons, ih (m.apply r) (wf_apply hm r) hrest]
    by_cases hw : m.Awaits r
    · by_cases hsx : s = x
      · subst hsx
        refine iff_of_false (fun h => not_pending_apply hm hr hw i h.1) ?_
        rintro ⟨hp, hnone⟩
        obtain rfl : i = id := hm.pending_unique hp (hw.pending hr)
        exact hnone r List.mem_cons_self hw hr
      · rw [pending_apply_of_ne hm hr hsx]
        refine and_congr_right fun _ => ?_
        rw [List.forall_mem_cons]
        constructor
        · intro h
          refine ⟨fun _ he => hsx ?_, fun o ho hwo he => ?_⟩
          · rw [hr] at he; cases he; rfl
          · exact h o ho (((sameState_of_answer hm hr hsx).awaits_iff he).mpr hwo) he
        · rintro ⟨-, h⟩ o ho hwo
          exact h o ho (awaits_of_apply_answer hm hr (hrest o ho) hwo)
    · rw [apply_of_not_awaits hm hw, List.forall_mem_cons]
      exact and_congr_right fun _ => ⟨fun h => ⟨fun h' => absurd h' hw, h⟩, fun h => h.2⟩

/-- What is active after the answers: a symbol whose subscription is confirmed, or that was active and whose
unsubscription is not. -/
theorem mem_active_answers (rs : List (Op Sym)) : ∀ m : Manager Sym, m.Wf → (∀ r ∈ rs, r.answer?.isSome) →
    (∀ r ∈ rs, ∀ r' ∈ rs, m.Awaits r → m.Awaits r' → r.answer? = r'.answer? → r = r') → ∀ s,
    (s ∈ (rs.foldl apply m).activeSymbols ↔
      (∃ id, .subscribeAck id s true ∈ rs ∧ m.pendingSubscriptions.Owns id s) ∨
      (s ∈ m.activeSymbols ∧ ∀ id, m.pendingUnsubscriptions.Owns id s → .unsubscribeAck id s true ∉ rs)) := by
  induction rs with
  | nil => intro m _ _ _ s; simp
  | cons r rs ih =>
    intro m hm hreply hfixed s
    obtain ⟨⟨id, x⟩, hr⟩ := Option.isSome_iff_exists.mp (hreply r List.mem_cons_self)
    have hrest : ∀ o ∈ rs, o.answer?.isSome := fun o ho => hreply o (List.mem_cons_of_mem r ho)
    rw [List.foldl_cons, ih (m.apply r) (wf_apply hm r) hrest (fixed_cons hm hreply hfixed)]
    by_cases hsx : s = x
    · subst hsx
      by_cases hw : m.Awaits r
      · -- nothing is left to be said about the symbol: its other answers are this one again
        have hgone : ∀ i, ¬ (m.apply r).Pending i s := not_pending_apply hm hr hw
        have hself : ∀ o ∈ r :: rs, o.answer? = some (id, s) → m.Awaits o → o = r := fun o ho he hwo =>
          hfixed o ho r List.mem_cons_self hwo hw (he.trans hr.symm)
        have hpend : m.Pending id s := hw.pending hr
        have hleft : ((∃ i, .subscribeAck i s true ∈ rs ∧ (m.apply r).pendingSubscriptions.Owns i s) ∨
            (s ∈ (m.apply r).activeSymbols ∧
              ∀ i, (m.apply r).pendingUnsubscriptions.Owns i s → .unsubscribeAck i s true ∉ rs)) ↔
            s ∈ (m.apply r).activeSymbols := by
          constructor
          · rintro (⟨i, -, ho⟩ | h)
            · exact absurd (Or.inl ho) (hgone i)
            · exact h.1
          · exact fun h => Or.inr ⟨h, fun i ho => absurd (Or.inr ho) (hgone i)⟩
        rw [hleft, active_apply_self hm hr hw]
        constructor
        · rintro (rfl | ⟨hu, hne⟩)
          · exact Or.inl ⟨id, List.mem_cons_self, hw⟩
          · refine Or.inr ⟨hm.unsub_active s (hu.mem hm.unsub), fun i ho hmem => hne ?_⟩
            obtain rfl : i = id := hm.pending_unique (Or.inr ho) hpend
            exact (hself _ hmem rfl hu).symm
        · rintro (⟨i, hmem, ho⟩ | ⟨ha, hnone⟩)
          · obtain rfl : i = id := hm.pending_unique (Or.inl ho) hpend
            exact Or.inl (hself _ hmem rfl ho).symm
          · have hu : m.pendingUnsubscriptions.Owns id s :=
              hpend.resolve_left fun ho => hm.active_not_sub s ha (ho.mem hm.sub)
            exact Or.inr ⟨hu, fun he => hnone id hu (he ▸ List.mem_cons_self)⟩
      · rw [apply_of_not_awaits hm hw]
        refine or_congr (exists_congr fun i => and_congr_left fun ho => ?_)
          (and_congr_right fun _ => forall_congr' fun i => imp_congr_right fun ho => not_congr ?_)
        · exact ⟨List.mem_cons_of_mem r, fun h => (List.mem_cons.mp h).resolve_left (fun he => hw (he ▸ ho))⟩
        · exact ⟨List.mem_cons_of_mem r, fun h => (List.mem_cons.mp h).resolve_left (fun he => hw (he ▸ ho))⟩
    · have hsame := sameState_of_answer hm hr hsx
      have hne : ∀ i, (.subscribeAck i s true : Op Sym) ≠ r ∧ (.unsubscribeAck i s true : Op Sym) ≠ r := by
        intro i
        constructor <;>
        · rintro rfl
          cases hr
          exact hsx rfl
      simp only [hsame.active, hsame.sub, hsame.unsub, List.mem_cons, (hne _).1, (hne _).2, false_or]

/-! ## Every order -/

/-- **Delivery order does not matter**: after every list of operations, however the answers to what is pending are
ordered, the same symbols are active in the end and nothing is pending. -/
theorem confluent (ops replies order : List (Op Sym)) (h : (after ops).Answers replies) (hp : order.Perm replies) :
    (after (ops ++ order)).activeSymbols = (after (ops ++ replies)).activeSymbols ∧
      (after (ops ++ order)).Settled := by
  have hm : (after ops).Wf := wf_after ops
  have hsplit : ∀ rs, after (ops ++ rs) = rs.foldl apply (after ops) := by
    intro rs
    simp [after]
  have hmem : ∀ r, r ∈ order ↔ r ∈ replies := fun r => hp.mem_iff
  have hreply : ∀ r ∈ order, r.answer?.isSome := fun r hr => h.reply r ((hmem r).mp hr)
  constructor
  · ext s
    rw [hsplit, hsplit, mem_active_answers replies _ hm h.reply h.fixed, mem_active_answers order _ hm hreply]
    · simp only [hmem]
    · intro r hr r' hr'
      exact h.fixed r ((hmem r).mp hr) r' ((hmem r').mp hr')
  · refine (wf_after _).settled fun i s hpend => ?_
    rw [hsplit, pending_answers order _ hm hreply] at hpend
    obtain ⟨r, hr, hans, hw⟩ := h.complete i s hpend.1
    exact hpend.2 r ((hmem r).mpr hr) hw hans

/-- Symbol 7 is being unsubscribed and 8 and 9 subscribed; 8 is confirmed twice, 9 rejected, and a late ACK stands
between. -/
theorem confluent_three_symbols :
    let ops : List (Op ℕ) := [.registerSubscription [7] 1, .subscribeAck 1 7 true, .registerSubscription [8, 9] 2,
      .registerUnsubscription [7] 3]
    let replies : List (Op ℕ) := [.subscribeAck 2 8 true, .subscribeAck 1 7 false, .rejection 2 9,
      .unsubscribeAck 3 7 true, .subscribeAck 2 8 true]
    (after ops).Answers replies ∧ (after (ops ++ replies.reverse)).activeSymbols = {8} ∧
      (after (ops ++ replies.reverse)).Settled := by
  intro ops replies
  have hm : (after ops).Wf := wf_after ops
  have hans : (after ops).Answers replies := by
    refine ⟨by decide, ?_, ?_⟩
    · rintro id s (ho | ho)
      · have hpend : (after ops).pendingSubscriptions.pendingSymbols = {8, 9} := by decide
        have hs := hpend ▸ ho.mem hm.sub
        rcases Finset.mem_insert.mp hs with rfl | hs
        · obtain rfl := hm.sub.owner_eq id 2 8 ho (by decide)
          exact ⟨.subscribeAck 2 8 true, by decide, rfl, ho⟩
        · obtain rfl := Finset.mem_singleton.mp hs
          obtain rfl := hm.sub.owner_eq id 2 9 ho (by decide)
          exact ⟨.rejection 2 9, by decide, rfl, Or.inl ho⟩
      · have hpend : (after ops).pendingUnsubscriptions.pendingSymbols = {7} := by decide
        have hs := hpend ▸ ho.mem hm.unsub
        obtain rfl := Finset.mem_singleton.mp hs
        obtain rfl := hm.unsub.owner_eq id 3 7 ho (by decide)
        exact ⟨.unsubscribeAck 3 7 true, by decide, rfl, ho⟩
    · decide
  obtain ⟨hact, hset⟩ := confluent ops replies replies.reverse hans replies.reverse_perm
  exact ⟨hans, hact.trans (by decide), hset⟩

end Wirekrak.Protocol.Manager

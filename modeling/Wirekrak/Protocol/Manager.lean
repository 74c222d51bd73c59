import Wirekrak.Protocol.PendingRequests

/-!
# Wirekrak.Protocol.Manager — the symbol-level subscription state machine of one channel

A symbol is active, pending-subscribe or pending-unsubscribe.  `registerUnsubscription` leaves an active symbol in
`activeSymbols` until the ACK, so in every state `Manager.Wf` holds: the pending-unsubscribe symbols are active, the
pending-subscribe symbols are not.  Under it the "cancel pending unsubscribe" branch of `registerSubscription` is
never taken (`registerSubscription_eq`).
-/

namespace Wirekrak.Protocol

structure Manager (Sym : Type) where
  pendingSubscriptions : PendingRequests Sym
  pendingUnsubscriptions : PendingRequests Sym
  activeSymbols : Finset Sym

namespace Manager

variable {Sym : Type}

/-- A manager as constructed; also what `clear_all` leaves. -/
def empty : Manager Sym := ⟨.empty, .empty, ∅⟩

variable [DecidableEq Sym]

/-- The loop body of `register_subscription`: the accepted symbols so far and the manager. -/
def filterSubscription (acc : List Sym × Manager Sym) (sid : Sym) : List Sym × Manager Sym :=
  let m := acc.2
  if sid ∈ m.activeSymbols then acc
  else if m.pendingSubscriptions.contains sid then acc
  else if m.pendingUnsubscriptions.contains sid then
    let r := m.pendingUnsubscriptions.removeSymbol sid
    (acc.1, { m with
      pendingUnsubscriptions := r.2
      activeSymbols := if r.1 then insert sid m.activeSymbols else m.activeSymbols })
  else (acc.1 ++ [sid], m)

/-- The accepted symbols and the new state. -/
def registerSubscription (m : Manager Sym) (symbols : List Sym) (reqId : ReqId) : List Sym × Manager Sym :=
  let r := symbols.foldl filterSubscription ([], m)
  if r.1 = [] then r
  else (r.1, { r.2 with pendingSubscriptions := r.2.pendingSubscriptions.add reqId r.1 })

/-- The loop state of `register_unsubscription`. -/
structure UnsubAcc (Sym : Type) where
  cancelled : List Sym
  filtered : List Sym
  manager : Manager Sym

/-- The loop body of `register_unsubscription`. -/
def filterUnsubscription (acc : UnsubAcc Sym) (sid : Sym) : UnsubAcc Sym :=
  let m := acc.manager
  if m.pendingSubscriptions.contains sid then
    let r := m.pendingSubscriptions.removeSymbol sid
    { acc with
      cancelled := if r.1 then acc.cancelled ++ [sid] else acc.cancelled
      manager := { m with pendingSubscriptions := r.2 } }
  else if sid ∉ m.activeSymbols then acc
  else if m.pendingUnsubscriptions.contains sid then acc
  else { acc with filtered := acc.filtered ++ [sid] }

/-- The cancelled symbols and the new state. -/
def registerUnsubscription (m : Manager Sym) (symbols : List Sym) (reqId : ReqId) : List Sym × Manager Sym :=
  let r := symbols.foldl filterUnsubscription ⟨[], [], m⟩
  if r.filtered = [] then (r.cancelled, r.manager)
  else (r.cancelled, { r.manager with
    pendingUnsubscriptions := r.manager.pendingUnsubscriptions.add reqId r.filtered })

def confirmSubscription (m : Manager Sym) (reqId : ReqId) (sid : Sym) : Manager Sym :=
  let r := m.pendingSubscriptions.remove reqId sid
  if r.1 then { m with pendingSubscriptions := r.2, activeSymbols := insert sid m.activeSymbols } else m

def rejectSubscription (m : Manager Sym) (reqId : ReqId) (sid : Sym) : Manager Sym :=
  { m with pendingSubscriptions := (m.pendingSubscriptions.remove reqId sid).2 }

def confirmUnsubscription (m : Manager Sym) (reqId : ReqId) (sid : Sym) : Manager Sym :=
  let r := m.pendingUnsubscriptions.remove reqId sid
  if r.1 then { m with pendingUnsubscriptions := r.2, activeSymbols := m.activeSymbols.erase sid } else m

def rejectUnsubscription (m : Manager Sym) (reqId : ReqId) (sid : Sym) : Manager Sym :=
  { m with pendingUnsubscriptions := (m.pendingUnsubscriptions.remove reqId sid).2 }

def processSubscribeAck (m : Manager Sym) (reqId : ReqId) (sid : Sym) (success : Bool) : Bool × Manager Sym :=
  if m.pendingSubscriptions.contains sid then
    (true, if success then m.confirmSubscription reqId sid else m.rejectSubscription reqId sid)
  else (false, m)

def processUnsubscribeAck (m : Manager Sym) (reqId : ReqId) (sid : Sym) (success : Bool) : Bool × Manager Sym :=
  if m.pendingUnsubscriptions.contains sid then
    (true, if success then m.confirmUnsubscription reqId sid else m.rejectUnsubscription reqId sid)
  else (false, m)

def tryProcessRejection (m : Manager Sym) (reqId : ReqId) (sid : Sym) : Bool × Manager Sym :=
  let r := m.pendingSubscriptions.remove reqId sid
  if r.1 then (true, { m with pendingSubscriptions := r.2 })
  else
    let r' := m.pendingUnsubscriptions.remove reqId sid
    if r'.1 then (true, { m with pendingUnsubscriptions := r'.2 }) else (false, m)

/-- `active + pending_subscribe`. -/
def totalSymbols (m : Manager Sym) : ℕ := m.activeSymbols.card + m.pendingSubscriptions.symbolCount

end Manager

namespace Manager

variable {Sym : Type}

/-- The symbols `total_symbols` counts. -/
def Counts (m : Manager Sym) (s : Sym) : Prop :=
  s ∈ m.activeSymbols ∨ s ∈ m.pendingSubscriptions.pendingSymbols

structure Wf (m : Manager Sym) : Prop where
  sub : m.pendingSubscriptions.Wf
  unsub : m.pendingUnsubscriptions.Wf
  active_not_sub : ∀ s ∈ m.activeSymbols, s ∉ m.pendingSubscriptions.pendingSymbols
  unsub_active : ∀ s ∈ m.pendingUnsubscriptions.pendingSymbols, s ∈ m.activeSymbols

theorem wf_empty : (empty : Manager Sym).Wf where
  sub := PendingRequests.wf_empty
  unsub := PendingRequests.wf_empty
  active_not_sub := fun s h => by simp [empty] at h
  unsub_active := fun s h => by simp [empty, PendingRequests.empty] at h

variable [DecidableEq Sym]

instance (m : Manager Sym) (s : Sym) : Decidable (m.Counts s) := inferInstanceAs (Decidable (_ ∨ _))

/-! ## Registration -/

/-- The symbols `register_subscription` keeps, in request order. -/
def accepted (m : Manager Sym) (symbols : List Sym) : List Sym :=
  symbols.filter (fun s => decide (s ∉ m.activeSymbols ∧ s ∉ m.pendingSubscriptions.pendingSymbols))

theorem mem_accepted {m : Manager Sym} {symbols : List Sym} {s : Sym} :
    s ∈ m.accepted symbols ↔ s ∈ symbols ∧ ¬ m.Counts s := by
  simp [accepted, Counts]

theorem foldl_filterSubscription {m : Manager Sym} (hm : m.Wf) (symbols : List Sym) : ∀ acc : List Sym,
    symbols.foldl filterSubscription (acc, m) = (acc ++ m.accepted symbols, m) := by
  induction symbols with
  | nil => intro acc; simp [accepted]
  | cons x symbols ih =>
    intro acc
    rw [List.foldl_cons]
    by_cases ha : x ∈ m.activeSymbols
    · have hstep : filterSubscription (acc, m) x = (acc, m) := by simp [filterSubscription, ha]
      rw [hstep, ih]
      simp [accepted, ha]
    · by_cases hs : x ∈ m.pendingSubscriptions.pendingSymbols
      · have hstep : filterSubscription (acc, m) x = (acc, m) := by simp [filterSubscription, ha, hs]
        rw [hstep, ih]
        simp [accepted, hs]
      · -- a pending-unsubscribe symbol would be active
        have hu : x ∉ m.pendingUnsubscriptions.pendingSymbols := fun h => ha (hm.unsub_active x h)
        have hstep : filterSubscription (acc, m) x = (acc ++ [x], m) := by simp [filterSubscription, ha, hs, hu]
        rw [hstep, ih]
        simp [accepted, ha, hs]

/-- `register_subscription` without its dead branch. -/
theorem registerSubscription_eq {m : Manager Sym} (hm : m.Wf) (symbols : List Sym) (id : ReqId) :
    m.registerSubscription symbols id = (m.accepted symbols, if m.accepted symbols = [] then m
      else { m with pendingSubscriptions := m.pendingSubscriptions.add id (m.accepted symbols) }) := by
  unfold registerSubscription
  rw [foldl_filterSubscription hm, List.nil_append]
  by_cases h : m.accepted symbols = [] <;> simp [h]

theorem registerSubscription_spec {m : Manager Sym} (hm : m.Wf) (symbols : List Sym) (id : ReqId) :
    (m.registerSubscription symbols id).1 = m.accepted symbols ∧
    (m.registerSubscription symbols id).2.Wf ∧
    (m.registerSubscription symbols id).2.activeSymbols = m.activeSymbols ∧
    (m.registerSubscription symbols id).2.pendingUnsubscriptions = m.pendingUnsubscriptions ∧
    ∀ i s, (m.registerSubscription symbols id).2.pendingSubscriptions.Owns i s ↔
      m.pendingSubscriptions.Owns i s ∨ (i = id ∧ s ∈ m.accepted symbols) := by
  rw [registerSubscription_eq hm]
  by_cases hnil : m.accepted symbols = []
  · rw [if_pos hnil]
    exact ⟨rfl, hm, rfl, rfl, by simp [hnil]⟩
  · rw [if_neg hnil]
    refine ⟨rfl, ⟨PendingRequests.wf_add hm.sub _ _, hm.unsub, ?_, hm.unsub_active⟩, rfl, rfl, ?_⟩
    · intro s hs
      rw [PendingRequests.mem_add, not_or]
      refine ⟨hm.active_not_sub s hs, fun h => ?_⟩
      exact (mem_accepted.mp h).2 (Or.inl hs)
    · intro i s
      rw [PendingRequests.owns_add]
      constructor
      · rintro (h | ⟨h1, h2, -⟩)
        · exact Or.inl h
        · exact Or.inr ⟨h1, h2⟩
      · rintro (h | ⟨h1, h2⟩)
        · exact Or.inl h
        · exact Or.inr ⟨h1, h2, fun h3 => (mem_accepted.mp h2).2 (Or.inr h3)⟩

/-- Registering counts the symbols of the request, next to those that are counted already. -/
theorem counts_registerSubscription {m : Manager Sym} (hm : m.Wf) (symbols : List Sym) (id : ReqId) (x : Sym) :
    (m.registerSubscription symbols id).2.Counts x ↔ m.Counts x ∨ x ∈ symbols := by
  obtain ⟨-, hwf, hact, -, hown⟩ := registerSubscription_spec hm symbols id
  have hmem : x ∈ (m.registerSubscription symbols id).2.pendingSubscriptions.pendingSymbols ↔
      x ∈ m.pendingSubscriptions.pendingSymbols ∨ x ∈ m.accepted symbols := by
    rw [hwf.sub.mem_iff, hm.sub.mem_iff]
    simp only [hown]
    constructor
    · rintro ⟨j, h | ⟨-, h⟩⟩
      · exact Or.inl ⟨j, h⟩
      · exact Or.inr h
    · rintro (⟨j, h⟩ | h)
      · exact ⟨j, Or.inl h⟩
      · exact ⟨id, Or.inr ⟨rfl, h⟩⟩
  have hc : m.Counts x ∨ x ∈ m.accepted symbols ↔ m.Counts x ∨ x ∈ symbols := by
    rw [mem_accepted]
    tauto
  rw [← hc]
  unfold Counts
  rw [hact, hmem, or_assoc]

/-- The loop of `register_unsubscription`: pending subscriptions are cancelled on the spot. -/
theorem foldl_filterUnsubscription (symbols : List Sym) : ∀ (c f : List Sym) (m : Manager Sym), m.Wf →
    ∃ c' f' m', symbols.foldl filterUnsubscription ⟨c, f, m⟩ = ⟨c', f', m'⟩ ∧ m'.Wf ∧
      m'.activeSymbols = m.activeSymbols ∧ m'.pendingUnsubscriptions = m.pendingUnsubscriptions ∧
      (∀ i s, m'.pendingSubscriptions.Owns i s ↔ m.pendingSubscriptions.Owns i s ∧ s ∉ symbols) ∧
      (∀ s, s ∈ c' ↔ s ∈ c ∨ (s ∈ symbols ∧ s ∈ m.pendingSubscriptions.pendingSymbols)) ∧
      (∀ s, s ∈ f' ↔ s ∈ f ∨
        (s ∈ symbols ∧ s ∈ m.activeSymbols ∧ s ∉ m.pendingUnsubscriptions.pendingSymbols)) := by
  induction symbols with
  | nil => intro c f m hm; exact ⟨c, f, m, rfl, hm, rfl, rfl, by simp, by simp, by simp⟩
  | cons x symbols ih =>
    intro c f m hm
    rw [List.foldl_cons]
    by_cases hs : x ∈ m.pendingSubscriptions.pendingSymbols
    · obtain ⟨hr, hwf, hown⟩ := PendingRequests.removeSymbol_spec hm.sub hs
      have hpend : ∀ s, s ∈ (m.pendingSubscriptions.removeSymbol x).2.pendingSymbols ↔
          s ∈ m.pendingSubscriptions.pendingSymbols ∧ s ≠ x := by
        intro s
        rw [hwf.mem_iff, hm.sub.mem_iff]
        simp only [hown]
        exact exists_and_right
      have hxa : x ∉ m.activeSymbols := fun h => hm.active_not_sub x h hs
      have hm1 : ({ m with pendingSubscriptions := (m.pendingSubscriptions.removeSymbol x).2 } : Manager Sym).Wf :=
        ⟨hwf, hm.unsub, fun s h h' => hm.active_not_sub s h ((hpend s).mp h').1, hm.unsub_active⟩
      have hstep : filterUnsubscription ⟨c, f, m⟩ x = ⟨c ++ [x], f,
          { m with pendingSubscriptions := (m.pendingSubscriptions.removeSymbol x).2 }⟩ := by
        simp [filterUnsubscription, hs, hr]
      rw [hstep]
      obtain ⟨c', f', m', h1, h2, h3, h4, h5, h6, h7⟩ := ih (c ++ [x]) f _ hm1
      refine ⟨c', f', m', h1, h2, h3, h4, ?_, ?_, ?_⟩
      · intro i s
        rw [h5, hown, List.mem_cons, not_or]
        tauto
      · intro s
        rw [h6]
        simp only [hpend, List.mem_append, List.mem_cons]
        by_cases hsx : s = x
        · subst hsx; simp [hs]
        · simp [hsx]
      · intro s
        rw [h7]
        by_cases hsx : s = x
        · subst hsx; simp [hxa]
        · simp [hsx]
    · -- the symbol is not pending, so the pending subscriptions stay as they are
      have hkeep : ∀ i s, m.pendingSubscriptions.Owns i s → s ≠ x := by
        rintro i s h rfl
        exact hs (h.mem hm.sub)
      have hdone : ∀ f1, filterUnsubscription ⟨c, f, m⟩ x = ⟨c, f1, m⟩ →
          (∀ s, s ∈ f1 ↔ s ∈ f ∨ (s = x ∧ s ∈ m.activeSymbols ∧ s ∉ m.pendingUnsubscriptions.pendingSymbols)) →
          ∃ c' f' m', symbols.foldl filterUnsubscription (filterUnsubscription ⟨c, f, m⟩ x) = ⟨c', f', m'⟩ ∧ m'.Wf ∧
            m'.activeSymbols = m.activeSymbols ∧ m'.pendingUnsubscriptions = m.pendingUnsubscriptions ∧
            (∀ i s, m'.pendingSubscriptions.Owns i s ↔ m.pendingSubscriptions.Owns i s ∧ s ∉ x :: symbols) ∧
            (∀ s, s ∈ c' ↔ s ∈ c ∨ (s ∈ x :: symbols ∧ s ∈ m.pendingSubscriptions.pendingSymbols)) ∧
            (∀ s, s ∈ f' ↔ s ∈ f ∨
              (s ∈ x :: symbols ∧ s ∈ m.activeSymbols ∧ s ∉ m.pendingUnsubscriptions.pendingSymbols)) := by
        intro f1 hstep hf1
        rw [hstep]
        obtain ⟨c', f', m', h1, h2, h3, h4, h5, h6, h7⟩ := ih c f1 m hm
        refine ⟨c', f', m', h1, h2, h3, h4, ?_, ?_, ?_⟩
        · intro i s
          rw [h5, List.mem_cons, not_or]
          exact ⟨fun h => ⟨h.1, hkeep i s h.1, h.2⟩, fun h => ⟨h.1, h.2.2⟩⟩
        · intro s
          rw [h6, List.mem_cons]
          by_cases hsx : s = x
          · subst hsx; simp [hs]
          · simp [hsx]
        · intro s
          rw [h7, hf1, List.mem_cons]
          tauto
      by_cases ha : x ∈ m.activeSymbols
      · by_cases hu : x ∈ m.pendingUnsubscriptions.pendingSymbols
        · refine hdone f (by simp [filterUnsubscription, hs, ha, hu]) (fun s => ?_)
          by_cases hsx : s = x
          · subst hsx; simp [hu]
          · simp [hsx]
        · refine hdone (f ++ [x]) (by simp [filterUnsubscription, hs, ha, hu]) (fun s => ?_)
          by_cases hsx : s = x
          · subst hsx; simp [ha, hu]
          · simp [hsx]
      · refine hdone f (by simp [filterUnsubscription, hs, ha]) (fun s => ?_)
        by_cases hsx : s = x
        · subst hsx; simp [ha]
        · simp [hsx]

theorem registerUnsubscription_spec {m : Manager Sym} (hm : m.Wf) (symbols : List Sym) (id : ReqId) :
    (∀ s, s ∈ (m.registerUnsubscription symbols id).1 ↔
      s ∈ symbols ∧ s ∈ m.pendingSubscriptions.pendingSymbols) ∧
    (m.registerUnsubscription symbols id).2.Wf ∧
    (m.registerUnsubscription symbols id).2.activeSymbols = m.activeSymbols ∧
    (∀ i s, (m.registerUnsubscription symbols id).2.pendingSubscriptions.Owns i s ↔
      m.pendingSubscriptions.Owns i s ∧ s ∉ symbols) ∧
    (∀ i s, (m.registerUnsubscription symbols id).2.pendingUnsubscriptions.Owns i s →
      m.pendingUnsubscriptions.Owns i s ∨ i = id) := by
  obtain ⟨c, f, m', h1, h2, h3, h4, h5, h6, h7⟩ := foldl_filterUnsubscription symbols [] [] m hm
  unfold registerUnsubscription
  rw [h1]
  by_cases hnil : f = []
  · simp only [hnil, if_true]
    refine ⟨by simpa using h6, h2, h3, h5, fun i s h => Or.inl (h4 ▸ h)⟩
  · simp only [hnil, if_false]
    refine ⟨by simpa using h6, ⟨h2.sub, PendingRequests.wf_add h2.unsub _ _, h2.active_not_sub, ?_⟩, h3, h5, ?_⟩
    · intro s hs
      rcases PendingRequests.mem_add.mp hs with h | h
      · exact h2.unsub_active s h
      · rw [h3]
        rcases (h7 s).mp h with h | h
        · simp at h
        · exact h.2.1
    · intro i s h
      rcases PendingRequests.owns_add.mp h with h | ⟨h, -⟩
      · exact Or.inl (h4 ▸ h)
      · exact Or.inr h

/-- Who waits for an unsubscription: whoever did, and the request for the active symbols it names. -/
theorem owns_registerUnsubscription {m : Manager Sym} (hm : m.Wf) (symbols : List Sym) (id i : ReqId) (s : Sym) :
    (m.registerUnsubscription symbols id).2.pendingUnsubscriptions.Owns i s ↔
      m.pendingUnsubscriptions.Owns i s ∨
        (i = id ∧ s ∈ symbols ∧ s ∈ m.activeSymbols ∧ s ∉ m.pendingUnsubscriptions.pendingSymbols) := by
  obtain ⟨c, f, m', h1, -, -, h4, -, -, h7⟩ := foldl_filterUnsubscription symbols [] [] m hm
  have hf : s ∈ f ↔ s ∈ symbols ∧ s ∈ m.activeSymbols ∧ s ∉ m.pendingUnsubscriptions.pendingSymbols := by
    simpa using h7 s
  unfold registerUnsubscription
  rw [h1, ← hf]
  by_cases hnil : f = []
  · simp [hnil, h4]
  · simp only [hnil, if_false]
    rw [PendingRequests.owns_add, h4]
    exact or_congr_right (and_congr_right fun _ => and_iff_left_of_imp fun h => (hf.mp h).2.2)

/-- An accepted unsubscription stays active and becomes pending-unsubscribe. -/
theorem mem_registerUnsubscription {m : Manager Sym} (hm : m.Wf) (symbols : List Sym) (id : ReqId) (s : Sym) :
    s ∈ (m.registerUnsubscription symbols id).2.pendingUnsubscriptions.pendingSymbols ↔
      s ∈ m.pendingUnsubscriptions.pendingSymbols ∨ (s ∈ symbols ∧ s ∈ m.activeSymbols) := by
  obtain ⟨c, f, m', h1, -, -, h4, -, -, h7⟩ := foldl_filterUnsubscription symbols [] [] m hm
  have hf : s ∈ f ↔ s ∈ symbols ∧ s ∈ m.activeSymbols ∧ s ∉ m.pendingUnsubscriptions.pendingSymbols := by
    simpa using h7 s
  unfold registerUnsubscription
  rw [h1]
  by_cases hnil : f = []
  · simp only [hnil, if_true, h4]
    rw [hnil] at hf
    simp only [List.not_mem_nil, false_iff] at hf
    tauto
  · simp only [hnil, if_false]
    rw [PendingRequests.mem_add, h4, hf]
    tauto

/-! ## Answers -/

/-- A subscribe ACK acts iff `(id, s)` is the pending subscription. -/
theorem processSubscribeAck_cases {m : Manager Sym} (hm : m.Wf) (id : ReqId) (s : Sym) (success : Bool) :
    (¬ m.pendingSubscriptions.Owns id s ∧ (m.processSubscribeAck id s success).2 = m) ∨
    (m.pendingSubscriptions.Owns id s ∧ (m.processSubscribeAck id s success).2.Wf ∧
      (m.processSubscribeAck id s success).2.pendingUnsubscriptions = m.pendingUnsubscriptions ∧
      (∀ i t, (m.processSubscribeAck id s success).2.pendingSubscriptions.Owns i t ↔
        m.pendingSubscriptions.Owns i t ∧ t ≠ s) ∧
      (m.processSubscribeAck id s success).2.activeSymbols =
        if success then insert s m.activeSymbols else m.activeSymbols) := by
  rcases PendingRequests.remove_cases hm.sub id s with ⟨hno, hr⟩ | ⟨hown, hr, hwf, hrest⟩
  · refine Or.inl ⟨hno, ?_⟩
    unfold processSubscribeAck
    cases success <;> split_ifs <;> simp_all [confirmSubscription, rejectSubscription]
  · refine Or.inr ⟨hown, ?_⟩
    have hmem : s ∈ m.pendingSubscriptions.pendingSymbols := hown.mem hm.sub
    have hgone : s ∉ (m.pendingSubscriptions.remove id s).2.pendingSymbols := by
      rw [hwf.mem_iff]
      rintro ⟨i, h⟩
      exact ((hrest i s).mp h).2 rfl
    have hless : ∀ t, t ∈ (m.pendingSubscriptions.remove id s).2.pendingSymbols →
        t ∈ m.pendingSubscriptions.pendingSymbols := by
      intro t ht
      obtain ⟨i, h⟩ := (hwf.mem_iff t).mp ht
      exact ((hrest i t).mp h).1.mem hm.sub
    cases success with
    | true =>
      have heq : (m.processSubscribeAck id s true).2 =
          { m with pendingSubscriptions := (m.pendingSubscriptions.remove id s).2
                   activeSymbols := insert s m.activeSymbols } := by
        simp [processSubscribeAck, hmem, confirmSubscription, hr]
      rw [heq]
      refine ⟨⟨hwf, hm.unsub, ?_, fun t ht => Finset.mem_insert_of_mem (hm.unsub_active t ht)⟩, rfl, hrest, rfl⟩
      intro t ht
      rcases Finset.mem_insert.mp ht with rfl | ht
      · exact hgone
      · exact fun h => hm.active_not_sub t ht (hless t h)
    | false =>
      have heq : (m.processSubscribeAck id s false).2 =
          { m with pendingSubscriptions := (m.pendingSubscriptions.remove id s).2 } := by
        simp [processSubscribeAck, hmem, rejectSubscription]
      rw [heq]
      exact ⟨⟨hwf, hm.unsub, fun t ht h => hm.active_not_sub t ht (hless t h), hm.unsub_active⟩, rfl, hrest, rfl⟩

/-- An unsubscribe ACK acts iff `(id, s)` is the pending unsubscription. -/
theorem processUnsubscribeAck_cases {m : Manager Sym} (hm : m.Wf) (id : ReqId) (s : Sym) (success : Bool) :
    (¬ m.pendingUnsubscriptions.Owns id s ∧ (m.processUnsubscribeAck id s success).2 = m) ∨
    (m.pendingUnsubscriptions.Owns id s ∧ (m.processUnsubscribeAck id s success).2.Wf ∧
      (m.processUnsubscribeAck id s success).2.pendingSubscriptions = m.pendingSubscriptions ∧
      (∀ i t, (m.processUnsubscribeAck id s success).2.pendingUnsubscriptions.Owns i t ↔
        m.pendingUnsubscriptions.Owns i t ∧ t ≠ s) ∧
      (m.processUnsubscribeAck id s success).2.activeSymbols =
        if success then m.activeSymbols.erase s else m.activeSymbols) := by
  rcases PendingRequests.remove_cases hm.unsub id s with ⟨hno, hr⟩ | ⟨hown, hr, hwf, hrest⟩
  · refine Or.inl ⟨hno, ?_⟩
    unfold processUnsubscribeAck
    cases success <;> split_ifs <;> simp_all [confirmUnsubscription, rejectUnsubscription]
  · refine Or.inr ⟨hown, ?_⟩
    have hmem : s ∈ m.pendingUnsubscriptions.pendingSymbols := hown.mem hm.unsub
    have hless : ∀ t, t ∈ (m.pendingUnsubscriptions.remove id s).2.pendingSymbols →
        t ∈ m.pendingUnsubscriptions.pendingSymbols ∧ t ≠ s := by
      intro t ht
      obtain ⟨i, h⟩ := (hwf.mem_iff t).mp ht
      exact ⟨((hrest i t).mp h).1.mem hm.unsub, ((hrest i t).mp h).2⟩
    cases success with
    | true =>
      have heq : (m.processUnsubscribeAck id s true).2 =
          { m with pendingUnsubscriptions := (m.pendingUnsubscriptions.remove id s).2
                   activeSymbols := m.activeSymbols.erase s } := by
        simp [processUnsubscribeAck, hmem, confirmUnsubscription, hr]
      rw [heq]
      refine ⟨⟨hm.sub, hwf, fun t ht => hm.active_not_sub t (Finset.mem_of_mem_erase ht), fun t ht => ?_⟩,
        rfl, hrest, rfl⟩
      exact Finset.mem_erase.mpr ⟨(hless t ht).2, hm.unsub_active t (hless t ht).1⟩
    | false =>
      have heq : (m.processUnsubscribeAck id s false).2 =
          { m with pendingUnsubscriptions := (m.pendingUnsubscriptions.remove id s).2 } := by
        simp [processUnsubscribeAck, hmem, rejectUnsubscription]
      rw [heq]
      exact ⟨⟨hm.sub, hwf, hm.active_not_sub, fun t ht => hm.unsub_active t (hless t ht).1⟩, rfl, hrest, rfl⟩

/-- A rejection takes the pending subscription or the pending unsubscription `(id, s)`, or does nothing. -/
theorem tryProcessRejection_cases {m : Manager Sym} (hm : m.Wf) (id : ReqId) (s : Sym) :
    (¬ m.pendingSubscriptions.Owns id s ∧ ¬ m.pendingUnsubscriptions.Owns id s ∧
      m.tryProcessRejection id s = (false, m)) ∨
    (m.pendingSubscriptions.Owns id s ∧ (m.tryProcessRejection id s).1 = true ∧
      (m.tryProcessRejection id s).2.Wf ∧
      (m.tryProcessRejection id s).2.activeSymbols = m.activeSymbols ∧
      (m.tryProcessRejection id s).2.pendingUnsubscriptions = m.pendingUnsubscriptions ∧
      ∀ i t, (m.tryProcessRejection id s).2.pendingSubscriptions.Owns i t ↔
        m.pendingSubscriptions.Owns i t ∧ t ≠ s) ∨
    (m.pendingUnsubscriptions.Owns id s ∧ (m.tryProcessRejection id s).1 = true ∧
      (m.tryProcessRejection id s).2.Wf ∧
      (m.tryProcessRejection id s).2.activeSymbols = m.activeSymbols ∧
      (m.tryProcessRejection id s).2.pendingSubscriptions = m.pendingSubscriptions ∧
      ∀ i t, (m.tryProcessRejection id s).2.pendingUnsubscriptions.Owns i t ↔
        m.pendingUnsubscriptions.Owns i t ∧ t ≠ s) := by
  unfold tryProcessRejection
  rcases PendingRequests.remove_cases hm.sub id s with ⟨hno, hr⟩ | ⟨hown, hr, hwf, hrest⟩
  · rcases PendingRequests.remove_cases hm.unsub id s with ⟨hno', hr'⟩ | ⟨hown', hr', hwf', hrest'⟩
    · exact Or.inl ⟨hno, hno', by simp [hr, hr']⟩
    · refine Or.inr (Or.inr ⟨hown', ?_⟩)
      simp only [hr, Bool.false_eq_true, if_false, hr', if_true, true_and]
      refine ⟨⟨hm.sub, hwf', hm.active_not_sub, fun t ht => ?_⟩, hrest'⟩
      obtain ⟨i, h⟩ := (hwf'.mem_iff t).mp ht
      exact hm.unsub_active t (((hrest' i t).mp h).1.mem hm.unsub)
  · refine Or.inr (Or.inl ⟨hown, ?_⟩)
    simp only [hr, if_true, true_and]
    refine ⟨⟨hwf, hm.unsub, fun t ht h => ?_, hm.unsub_active⟩, hrest⟩
    obtain ⟨i, h⟩ := (hwf.mem_iff t).mp h
    exact hm.active_not_sub t ht (((hrest i t).mp h).1.mem hm.sub)

end Manager

end Wirekrak.Protocol

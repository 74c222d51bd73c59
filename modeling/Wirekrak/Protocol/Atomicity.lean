import Wirekrak.Protocol.Emission

/-!
# Wirekrak.Protocol.Atomicity — calls that answer `INVALID_REQ_ID`

`subscribe` registers with the manager and the replay table before it emits, and does not take it back when a message
is refused.  `unsubscribe` emits first.

* `ChangesNothingOnFailure`: a failed call leaves the managers and the replay tables as they were.
* `subscribeEach_failure_iff`, `unsubscribeEach_failure_iff`: when this holds, for one call.
* `protocolBase_le_after`: the ids a session draws itself are valid, so only a caller can use the reserved `0`.
* `failed_call_changes_nothing_iff`: the two together, in every state of a run.
-/

namespace Wirekrak.Protocol.Session

variable {Sym P : Type} [DecidableEq Sym]

omit [DecidableEq Sym] in
/-- Every id the session draws itself is a valid one. -/
theorem requestId_ne_invalid {s : Session Sym P} (hseq : protocolBase ≤ s.reqIdSeq) (req : Request Sym P) :
    s.requestId req ≠ invalidReqId ↔ req.reqId ≠ some invalidReqId := by
  unfold requestId
  cases req.reqId with
  | none =>
    refine iff_of_true (fun h => ?_) (by simp)
    rw [Option.getD_none] at h
    rw [h] at hseq
    exact absurd hseq (by decide)
  | some id => simp

/-- A call that answers `INVALID_REQ_ID` has left the managers and the replay tables as they were. -/
def ChangesNothingOnFailure (s : Session Sym P) (r : ReqId × Session Sym P) : Prop :=
  r.1 = invalidReqId → r.2.managers = s.managers ∧ r.2.replayDb = s.replayDb

/-- The unsubscription finds nothing to cancel and nothing to wait for. -/
def NothingToUnsubscribe (s : Session Sym P) (ch : Channel) (req : Request Sym P) : Prop :=
  ∀ x ∈ req.symbols, x ∉ (s.managers ch).pendingSubscriptions.pendingSymbols ∧
    (x ∈ (s.managers ch).activeSymbols → x ∈ (s.managers ch).pendingUnsubscriptions.pendingSymbols)

section Failed

variable {pol : Policy} {s : Session Sym P} {ch : Channel} {req : Request Sym P} {answer : ℕ → Bool}

theorem subscribeEach_changes (hs : s.Sound) (h : s.turnsAway pol ch req = false)
    (hne : (s.managers ch).accepted req.symbols ≠ []) : (s.subscribeEach pol answer ch req).2.managers ≠ s.managers := by
  obtain ⟨x, hx⟩ := List.exists_mem_of_ne_nil _ hne
  intro hsame
  have hown : ((s.subscribeEach pol answer ch req).2.managers ch).pendingSubscriptions.Owns (s.requestId req) x :=
    (owns_subscribeEach hs h (s.requestId req) x).mpr (Or.inr ⟨rfl, hx⟩)
  rw [hsame] at hown
  exact (Manager.mem_accepted.mp hx).2 (Or.inr (hown.mem (hs.mgr ch).sub))

theorem subscribeEach_failure_iff (hs : s.Sound) (hseq : protocolBase ≤ s.reqIdSeq) :
    ChangesNothingOnFailure s (s.subscribeEach pol answer ch req) ↔
      s.turnsAway pol ch req = true ∨ (∀ x ∈ req.symbols, (s.managers ch).Counts x) ∨
      (req.reqId ≠ some invalidReqId ∧ Taken pol answer (s.asked ch req)) := by
  have hnil : (∀ x ∈ req.symbols, (s.managers ch).Counts x) ↔ (s.managers ch).accepted req.symbols = [] := by
    rw [List.eq_nil_iff_forall_not_mem]
    refine forall_congr' fun x => ?_
    rw [Manager.mem_accepted, not_and_not_right]
  rw [hnil]
  by_cases hturn : s.turnsAway pol ch req = true
  · refine iff_of_true (fun _ => ?_) (Or.inl hturn)
    rw [subscribeEach_of_turnsAway hturn]
    exact ⟨rfl, rfl⟩
  have hoff := Bool.eq_false_iff.mpr hturn
  rw [or_iff_right hturn]
  by_cases hacc : (s.managers ch).accepted req.symbols = []
  · refine iff_of_true (fun _ => ?_) (Or.inl hacc)
    rw [(subscribeEach_of_filtered hs hoff hacc).2]
    exact ⟨assignReqId_managers s req, assignReqId_replayDb s req⟩
  · rw [or_iff_right hacc, ← requestId_ne_invalid hseq]
    have hchange : (s.subscribeEach pol answer ch req).2.managers ≠ s.managers := subscribeEach_changes hs hoff hacc
    -- the symbols are registered by now, so the call must not fail
    have hiff : ChangesNothingOnFailure s (s.subscribeEach pol answer ch req) ↔
        (s.subscribeEach pol answer ch req).1 ≠ invalidReqId :=
      ⟨fun h hinv => hchange (h hinv).1, fun h hinv => absurd hinv h⟩
    rw [hiff, subscribeEach_of_accepted hs hoff hacc]
    have hfst : (((s.assignReqId req).register pol ch req (s.requestId req)).2.emit pol answer .subscribe ch
        (s.asked ch req)).1 = true ↔ Taken pol answer (s.asked ch req) := emit_fst
    dsimp only
    rw [← hfst]
    split_ifs with he
    · simp [he]
    · simp [he]

/-- `register_unsubscription` with nothing to do. -/
theorem registerUnsubscription_of_nothing (h : s.NothingToUnsubscribe ch req) (id : ReqId) :
    (s.managers ch).registerUnsubscription req.symbols id = ([], s.managers ch) := by
  have hfold : ∀ xs : List Sym, (∀ x ∈ xs, x ∉ (s.managers ch).pendingSubscriptions.pendingSymbols ∧
      (x ∈ (s.managers ch).activeSymbols → x ∈ (s.managers ch).pendingUnsubscriptions.pendingSymbols)) →
      xs.foldl Manager.filterUnsubscription ⟨[], [], s.managers ch⟩ = ⟨[], [], s.managers ch⟩ := by
    intro xs
    induction xs with
    | nil => intro _; rfl
    | cons x xs ih =>
      intro hxs
      obtain ⟨hx, hrest⟩ := List.forall_mem_cons.mp hxs
      have hstep : Manager.filterUnsubscription ⟨[], [], s.managers ch⟩ x = ⟨[], [], s.managers ch⟩ := by
        by_cases ha : x ∈ (s.managers ch).activeSymbols
        · simp [Manager.filterUnsubscription, hx.1, ha, hx.2 ha]
        · simp [Manager.filterUnsubscription, hx.1, ha]
      rw [List.foldl_cons, hstep, ih hrest]
  unfold Manager.registerUnsubscription
  rw [hfold _ h]
  simp

/-- Otherwise it changes the manager: it drops a pending subscription, or waits for an unsubscription. -/
theorem registerUnsubscription_changes (hm : (s.managers ch).Wf) (h : ¬ s.NothingToUnsubscribe ch req) (id : ReqId) :
    ((s.managers ch).registerUnsubscription req.symbols id).2 ≠ s.managers ch := by
  unfold NothingToUnsubscribe at h
  push Not at h
  obtain ⟨x, hx, hdo⟩ := h
  intro hsame
  by_cases hp : x ∈ (s.managers ch).pendingSubscriptions.pendingSymbols
  · obtain ⟨i, hi⟩ := (hm.sub.mem_iff x).mp hp
    have hown := ((Manager.registerUnsubscription_spec hm req.symbols id).2.2.2.1 i x).not
    rw [hsame] at hown
    exact hown.mpr (fun h => h.2 hx) hi
  · obtain ⟨ha, hu⟩ := hdo hp
    have hmem := Manager.mem_registerUnsubscription hm req.symbols id x
    rw [hsame] at hmem
    exact hu (hmem.mpr (Or.inr ⟨hx, ha⟩))

theorem unsubscribeEach_of_refused (h : ¬ Taken pol answer { req with reqId := some (s.requestId req) }) :
    ChangesNothingOnFailure s (s.unsubscribeEach pol answer ch req) := by
  intro _
  unfold unsubscribeEach
  dsimp only
  rw [if_neg (fun he => h (emit_fst.mp he))]
  exact ⟨assignReqId_managers s req, assignReqId_replayDb s req⟩

theorem unsubscribeEach_of_taken (h : Taken pol answer { req with reqId := some (s.requestId req) }) :
    (s.unsubscribeEach pol answer ch req).1 = s.requestId req ∧
    (s.unsubscribeEach pol answer ch req).2.managers = Function.update s.managers ch
      ((s.managers ch).registerUnsubscription req.symbols (s.requestId req)).2 ∧
    (s.unsubscribeEach pol answer ch req).2.replayDb = if pol.replay then Function.update s.replayDb ch
      (((s.managers ch).registerUnsubscription req.symbols (s.requestId req)).1.foldl Table.eraseSymbol (s.replayDb ch))
      else s.replayDb := by
  unfold unsubscribeEach
  dsimp only
  rw [if_pos (emit_fst.mpr h)]
  have hm : ((s.assignReqId req).emit pol answer .unsubscribe ch
      { req with reqId := some (s.requestId req) }).2.managers = s.managers := assignReqId_managers s req
  have ht : ((s.assignReqId req).emit pol answer .unsubscribe ch
      { req with reqId := some (s.requestId req) }).2.replayDb = s.replayDb := assignReqId_replayDb s req
  split_ifs <;> simp only [hm, ht, and_self]

theorem unsubscribeEach_failure_iff (hs : s.Sound) (hseq : protocolBase ≤ s.reqIdSeq) :
    ChangesNothingOnFailure s (s.unsubscribeEach pol answer ch req) ↔
      req.reqId ≠ some invalidReqId ∨ ¬ Taken pol answer { req with reqId := some (s.requestId req) } ∨
      s.NothingToUnsubscribe ch req := by
  rw [← requestId_ne_invalid hseq]
  by_cases htaken : Taken pol answer { req with reqId := some (s.requestId req) }
  · obtain ⟨hid, hmgr, htab⟩ : (s.unsubscribeEach pol answer ch req).1 = s.requestId req ∧ _ :=
      unsubscribeEach_of_taken htaken
    rw [or_iff_right (not_not_intro htaken)]
    by_cases hinv : s.requestId req = invalidReqId
    · rw [or_iff_right (not_not_intro hinv)]
      constructor
      · intro h
        by_contra hno
        have hsame := congrFun (hmgr.symm.trans (h (hid.trans hinv)).1) ch
        rw [Function.update_self] at hsame
        exact registerUnsubscription_changes (hs.mgr ch) hno _ hsame
      · intro h _
        rw [hmgr, htab, registerUnsubscription_of_nothing h]
        simp
    · exact iff_of_true (fun h => absurd (hid.symm.trans h) hinv) (Or.inl hinv)
  · exact iff_of_true (unsubscribeEach_of_refused htaken) (Or.inr (Or.inl htaken))

end Failed

/-! ## The id sequence -/

theorem place_reqIdSeq (pol : Policy) (accept : Request Sym P → Bool) (s : Session Sym P) (ch : Channel)
    (req : Request Sym P) (id : ReqId) : (s.place pol accept ch req id).2.reqIdSeq = s.reqIdSeq := by
  unfold place
  dsimp only
  split_ifs <;> rfl

omit [DecidableEq Sym] in
theorem le_assignReqId (s : Session Sym P) (req : Request Sym P) : s.reqIdSeq ≤ (s.assignReqId req).reqIdSeq := by
  unfold assignReqId
  split_ifs
  · exact Nat.le_refl _
  · exact Nat.le_succ _

theorem replayChannel_reqIdSeq (pol : Policy) (accept : Request Sym P → Bool) (order : Table.Order Sym P)
    (s : Session Sym P) (ch : Channel) : (s.replayChannel pol accept order ch).reqIdSeq = s.reqIdSeq := by
  have hfold : ∀ (rs : List (Request Sym P)) (u : Session Sym P),
      (rs.foldl (reSubscribe pol accept ch) u).reqIdSeq = u.reqIdSeq := by
    intro rs
    induction rs with
    | nil => intro u; rfl
    | cons r rs ih => intro u; exact (ih _).trans (place_reqIdSeq _ _ _ _ _ _)
  exact hfold _ _

theorem pollSignal_reqIdSeq (pol : Policy) (accept : Request Sym P → Bool) (order : Table.Order Sym P)
    (s : Session Sym P) : (s.pollSignal pol accept order).reqIdSeq = s.reqIdSeq := by
  unfold pollSignal
  split
  · rfl
  · rename_i sig rest _
    cases sig with
    | connected =>
      simp only [handleConnectionSignal, handleConnect, doReplay]
      split_ifs
      · exact (replayChannel_reqIdSeq _ _ _ _ _).trans (replayChannel_reqIdSeq _ _ _ _ _)
      · rfl
      · rfl
    | disconnected => rfl

/-- Ids are drawn upwards. -/
theorem le_reqIdSeq_step (pol : Policy) (s : Session Sym P) (ev : Event Sym P) :
    s.reqIdSeq ≤ (step pol s ev).reqIdSeq := by
  cases ev with
  | subscribe ch req accept =>
    simp only [step, subscribe]
    split
    · exact Nat.le_refl _
    · rw [place_reqIdSeq]
      exact le_assignReqId s req
  | unsubscribe ch req accept =>
    simp only [step, unsubscribe]
    split_ifs <;> exact le_assignReqId s req
  | unsubscribeAck ch id sym success =>
    simp only [step, onUnsubscribeAck]
    split_ifs <;> exact Nat.le_refl _
  | pollSignal order accept => exact (pollSignal_reqIdSeq pol accept order s).ge
  | subscribeAck | rejection | transportConnected | transportClosing | transportClosed => exact Nat.le_refl _

theorem protocolBase_le_after (pol : Policy) (evs : List (Event Sym P)) :
    protocolBase ≤ (after pol evs).reqIdSeq := by
  unfold after
  induction evs using List.reverseRecOn with
  | nil => exact Nat.le_refl _
  | append_singleton evs ev ih =>
    rw [List.foldl_concat]
    exact ih.trans (le_reqIdSeq_step pol _ ev)

/-- **A failed call changes nothing** exactly in these cases: a `subscribe` is turned away by the limits, or asks for
nothing new, or every message of it is taken; an `unsubscribe` fails only while nothing is registered yet.  A request
under the reserved id `0` answers `INVALID_REQ_ID` even when it succeeds. -/
theorem failed_call_changes_nothing_iff (pol : Policy) (evs : List (Event Sym P)) (answer : ℕ → Bool) (ch : Channel)
    (req : Request Sym P) :
    (ChangesNothingOnFailure (after pol evs) ((after pol evs).subscribeEach pol answer ch req) ↔
      (after pol evs).turnsAway pol ch req = true ∨
      (∀ x ∈ req.symbols, ((after pol evs).managers ch).Counts x) ∨
      (req.reqId ≠ some invalidReqId ∧ Taken pol answer ((after pol evs).asked ch req))) ∧
    (ChangesNothingOnFailure (after pol evs) ((after pol evs).unsubscribeEach pol answer ch req) ↔
      req.reqId ≠ some invalidReqId ∨
      ¬ Taken pol answer { req with reqId := some ((after pol evs).requestId req) } ∨
      (after pol evs).NothingToUnsubscribe ch req) :=
  ⟨subscribeEach_failure_iff (sound_after pol evs) (protocolBase_le_after pol evs),
    unsubscribeEach_failure_iff (sound_after pol evs) (protocolBase_le_after pol evs)⟩

/-- A `subscribe` before the connection is up fails, and the symbol stays pending and stored for replay. -/
theorem failed_subscribe_stays_registered :
    ((new : Session ℕ Unit).subscribeEach defaultPolicy (fun _ => false) .trade (.single 1)).1 = invalidReqId ∧
    ¬ ChangesNothingOnFailure (new : Session ℕ Unit)
      ((new : Session ℕ Unit).subscribeEach defaultPolicy (fun _ => false) .trade (.single 1)) := by
  refine ⟨by decide, fun h => ?_⟩
  have hsame := congrArg (fun m => (m Channel.trade).pendingSubscriptions.pendingSymbols) (h (by decide)).1
  exact absurd hsame (by decide)

end Wirekrak.Protocol.Session

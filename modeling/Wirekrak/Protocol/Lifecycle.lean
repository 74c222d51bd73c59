import Wirekrak.Protocol.Manager
import Wirekrak.Lib.Run

/-!
# Wirekrak.Protocol.Lifecycle — one manager under every order of requests and answers

* `Op`, `apply`: the operations of a manager; a run is any list of them, with requests, ACKs and rejections in any
  order, repeated or lost.
* `acks_decide`: a symbol becomes active by its own subscribe ACK only and stops being active by its own
  unsubscribe ACK or by `clear_all` only; every other answer changes nothing.
* `exclusive_iff`: the states `manager.hpp` documents as exclusive are so exactly as long as no active symbol is
  unsubscribed: `register_unsubscription` keeps it in `active_symbols_`.
-/

namespace Wirekrak.Protocol.Manager

open Wirekrak.Lib

variable {Sym : Type}

inductive Op (Sym : Type)
  | registerSubscription (symbols : List Sym) (id : ReqId)
  | registerUnsubscription (symbols : List Sym) (id : ReqId)
  | subscribeAck (id : ReqId) (s : Sym) (success : Bool)
  | unsubscribeAck (id : ReqId) (s : Sym) (success : Bool)
  | rejection (id : ReqId) (s : Sym)
  | clearAll

/-- `s` is in the same sets, under the same requests. -/
structure SameState (m u : Manager Sym) (s : Sym) : Prop where
  active : s ∈ u.activeSymbols ↔ s ∈ m.activeSymbols
  sub : ∀ i, u.pendingSubscriptions.Owns i s ↔ m.pendingSubscriptions.Owns i s
  unsub : ∀ i, u.pendingUnsubscriptions.Owns i s ↔ m.pendingUnsubscriptions.Owns i s

theorem SameState.refl (m : Manager Sym) (s : Sym) : SameState m m s := ⟨Iff.rfl, fun _ => Iff.rfl, fun _ => Iff.rfl⟩

variable [DecidableEq Sym]

def apply (m : Manager Sym) : Op Sym → Manager Sym
  | .registerSubscription symbols id => (m.registerSubscription symbols id).2
  | .registerUnsubscription symbols id => (m.registerUnsubscription symbols id).2
  | .subscribeAck id s success => (m.processSubscribeAck id s success).2
  | .unsubscribeAck id s success => (m.processUnsubscribeAck id s success).2
  | .rejection id s => (m.tryProcessRejection id s).2
  | .clearAll => empty

/-- The manager after a list of operations, from the constructor on. -/
def after (ops : List (Op Sym)) : Manager Sym := ops.foldl apply empty

/-- The request and the symbol of an answer. -/
def Op.answer? : Op Sym → Option (ReqId × Sym)
  | .subscribeAck id s _ => some (id, s)
  | .unsubscribeAck id s _ => some (id, s)
  | .rejection id s => some (id, s)
  | _ => none

/-- `m` is waiting for this answer. -/
def Awaits (m : Manager Sym) : Op Sym → Prop
  | .subscribeAck id s _ => m.pendingSubscriptions.Owns id s
  | .unsubscribeAck id s _ => m.pendingUnsubscriptions.Owns id s
  | .rejection id s => m.pendingSubscriptions.Owns id s ∨ m.pendingUnsubscriptions.Owns id s
  | _ => True

/-- The operation registers symbols under `id`. -/
def Op.Registers (id : ReqId) : Op Sym → Prop
  | .registerSubscription _ i => i = id
  | .registerUnsubscription _ i => i = id
  | _ => False

/-! ## One operation -/

theorem wf_apply {m : Manager Sym} (hm : m.Wf) (op : Op Sym) : (m.apply op).Wf := by
  cases op with
  | registerSubscription symbols id => exact (registerSubscription_spec hm symbols id).2.1
  | registerUnsubscription symbols id => exact (registerUnsubscription_spec hm symbols id).2.1
  | subscribeAck id s success =>
    rcases processSubscribeAck_cases hm id s success with ⟨-, h⟩ | ⟨-, h, -⟩
    · simpa only [apply, h] using hm
    · exact h
  | unsubscribeAck id s success =>
    rcases processUnsubscribeAck_cases hm id s success with ⟨-, h⟩ | ⟨-, h, -⟩
    · simpa only [apply, h] using hm
    · exact h
  | rejection id s =>
    rcases tryProcessRejection_cases hm id s with ⟨-, -, h⟩ | ⟨-, -, h, -⟩ | ⟨-, -, h, -⟩
    · simpa only [apply, h] using hm
    · exact h
    · exact h
  | clearAll => exact wf_empty

theorem wf_foldl {m : Manager Sym} (hm : m.Wf) (ops : List (Op Sym)) : (ops.foldl apply m).Wf := by
  induction ops generalizing m with
  | nil => exact hm
  | cons op ops ih => exact ih (wf_apply hm op)

theorem wf_after (ops : List (Op Sym)) : (after ops).Wf :=
  wf_foldl wf_empty ops

/-- What every operation can do to the active set. -/
theorem active_apply {m : Manager Sym} (hm : m.Wf) (op : Op Sym) :
    (m.apply op).activeSymbols = m.activeSymbols ∨
    (∃ id s, op = .subscribeAck id s true ∧ m.pendingSubscriptions.Owns id s ∧
      (m.apply op).activeSymbols = insert s m.activeSymbols) ∨
    (∃ id s, op = .unsubscribeAck id s true ∧ m.pendingUnsubscriptions.Owns id s ∧
      (m.apply op).activeSymbols = m.activeSymbols.erase s) ∨
    op = .clearAll := by
  cases op with
  | registerSubscription symbols id => exact Or.inl (registerSubscription_spec hm symbols id).2.2.1
  | registerUnsubscription symbols id => exact Or.inl (registerUnsubscription_spec hm symbols id).2.2.1
  | subscribeAck id s success =>
    rcases processSubscribeAck_cases hm id s success with ⟨-, h⟩ | ⟨hown, -, -, -, h⟩
    · exact Or.inl (congrArg activeSymbols h)
    · cases success with
      | true => exact Or.inr (Or.inl ⟨id, s, rfl, hown, h⟩)
      | false => exact Or.inl h
  | unsubscribeAck id s success =>
    rcases processUnsubscribeAck_cases hm id s success with ⟨-, h⟩ | ⟨hown, -, -, -, h⟩
    · exact Or.inl (congrArg activeSymbols h)
    · cases success with
      | true => exact Or.inr (Or.inr (Or.inl ⟨id, s, rfl, hown, h⟩))
      | false => exact Or.inl h
  | rejection id s =>
    rcases tryProcessRejection_cases hm id s with ⟨-, -, h⟩ | ⟨-, -, -, h, -⟩ | ⟨-, -, -, h, -⟩
    · exact Or.inl (congrArg (fun r => r.2.activeSymbols) h)
    · exact Or.inl h
    · exact Or.inl h
  | clearAll => exact Or.inr (Or.inr (Or.inr rfl))

/-- An answer nobody waits for changes nothing. -/
theorem apply_of_not_awaits {m : Manager Sym} (hm : m.Wf) {op : Op Sym} (h : ¬ m.Awaits op) : m.apply op = m := by
  cases op with
  | registerSubscription symbols id => exact absurd trivial h
  | registerUnsubscription symbols id => exact absurd trivial h
  | clearAll => exact absurd trivial h
  | subscribeAck id s success =>
    rcases processSubscribeAck_cases hm id s success with ⟨-, he⟩ | ⟨hown, -⟩
    · exact he
    · exact absurd hown h
  | unsubscribeAck id s success =>
    rcases processUnsubscribeAck_cases hm id s success with ⟨-, he⟩ | ⟨hown, -⟩
    · exact he
    · exact absurd hown h
  | rejection id s =>
    rcases tryProcessRejection_cases hm id s with ⟨-, -, he⟩ | ⟨hown, -⟩ | ⟨hown, -⟩
    · exact congrArg Prod.snd he
    · exact absurd (Or.inl hown) h
    · exact absurd (Or.inr hown) h

/-- An answer is about its own symbol only. -/
theorem sameState_of_answer {m : Manager Sym} (hm : m.Wf) {op : Op Sym} {id : ReqId} {s t : Sym}
    (h : op.answer? = some (id, s)) (hne : t ≠ s) : SameState m (m.apply op) t := by
  have hid : ∀ {A B : Prop}, (A ↔ B ∧ t ≠ s) → (A ↔ B) := fun h => h.trans (and_iff_left hne)
  cases op with
  | registerSubscription symbols i => simp [Op.answer?] at h
  | registerUnsubscription symbols i => simp [Op.answer?] at h
  | clearAll => simp [Op.answer?] at h
  | subscribeAck i x success =>
    obtain ⟨rfl, rfl⟩ : i = id ∧ x = s := by simpa [Op.answer?] using h
    rcases processSubscribeAck_cases hm i x success with ⟨-, he⟩ | ⟨-, -, hu, hs, ha⟩
    · simpa only [apply, he] using SameState.refl m t
    · refine ⟨?_, fun j => hid (hs j t), fun j => ?_⟩
      · simp only [apply, ha]
        cases success <;> simp [hne]
      · simp only [apply, hu]
  | unsubscribeAck i x success =>
    obtain ⟨rfl, rfl⟩ : i = id ∧ x = s := by simpa [Op.answer?] using h
    rcases processUnsubscribeAck_cases hm i x success with ⟨-, he⟩ | ⟨-, -, hs, hu, ha⟩
    · simpa only [apply, he] using SameState.refl m t
    · refine ⟨?_, fun j => ?_, fun j => hid (hu j t)⟩
      · simp only [apply, ha]
        cases success <;> simp [hne]
      · simp only [apply, hs]
  | rejection i x =>
    obtain ⟨rfl, rfl⟩ : i = id ∧ x = s := by simpa [Op.answer?] using h
    rcases tryProcessRejection_cases hm i x with ⟨-, -, he⟩ | ⟨-, -, -, ha, hu, hs⟩ | ⟨-, -, -, ha, hs, hu⟩
    · simpa only [apply, he] using SameState.refl m t
    · exact ⟨by simp only [apply, ha], fun j => hid (hs j t), fun j => by simp only [apply, hu]⟩
    · exact ⟨by simp only [apply, ha], fun j => by simp only [apply, hs], fun j => hid (hu j t)⟩

/-- A failed answer keeps the active set. -/
def Op.Failed : Op Sym → Prop
  | .subscribeAck _ _ success => success = false
  | .unsubscribeAck _ _ success => success = false
  | .rejection _ _ => True
  | _ => False

theorem active_of_failed {m : Manager Sym} (hm : m.Wf) {op : Op Sym} (h : op.Failed) :
    (m.apply op).activeSymbols = m.activeSymbols := by
  rcases active_apply hm op with he | ⟨id, s, rfl, -⟩ | ⟨id, s, rfl, -⟩ | rfl
  · exact he
  · exact absurd h (by simp [Op.Failed])
  · exact absurd h (by simp [Op.Failed])
  · exact absurd h (by simp [Op.Failed])

/-! ## Repeated answers -/

/-- An answer uses up what it answers. -/
theorem not_awaits_apply {m : Manager Sym} (hm : m.Wf) {op : Op Sym} {id : ReqId} {s : Sym}
    (h : op.answer? = some (id, s)) : ¬ (m.apply op).Awaits op := by
  cases op with
  | registerSubscription symbols i => simp [Op.answer?] at h
  | registerUnsubscription symbols i => simp [Op.answer?] at h
  | clearAll => simp [Op.answer?] at h
  | subscribeAck i x success =>
    rcases processSubscribeAck_cases hm i x success with ⟨hno, he⟩ | ⟨-, -, -, hs, -⟩
    · simpa only [apply, he, Awaits] using hno
    · exact fun hown => ((hs i x).mp hown).2 rfl
  | unsubscribeAck i x success =>
    rcases processUnsubscribeAck_cases hm i x success with ⟨hno, he⟩ | ⟨-, -, -, hu, -⟩
    · simpa only [apply, he, Awaits] using hno
    · exact fun hown => ((hu i x).mp hown).2 rfl
  | rejection i x =>
    rcases tryProcessRejection_cases hm i x with ⟨hs, hu, he⟩ | ⟨hown, -, hwf, ha, hu, hs⟩ | ⟨hown, -, hwf, ha, hs, hu⟩
    · simpa only [apply, he, Awaits] using not_or.mpr ⟨hs, hu⟩
    · rintro (h' | h')
      · exact ((hs i x).mp h').2 rfl
      · -- a symbol is never pending in both directions
        have hact : x ∈ m.activeSymbols := hm.unsub_active x ((hu ▸ h').mem hm.unsub)
        exact hm.active_not_sub x hact (hown.mem hm.sub)
    · rintro (h' | h')
      · have hact : x ∈ m.activeSymbols := hm.unsub_active x (hown.mem hm.unsub)
        exact hm.active_not_sub x hact ((hs ▸ h').mem hm.sub)
      · exact ((hu i x).mp h').2 rfl

/-- Only a registration under `i` gives `i` a symbol. -/
theorem owns_of_apply {m : Manager Sym} (hm : m.Wf) {op : Op Sym} {i : ReqId} (hop : ¬ op.Registers i) (s : Sym) :
    ((m.apply op).pendingSubscriptions.Owns i s → m.pendingSubscriptions.Owns i s) ∧
    ((m.apply op).pendingUnsubscriptions.Owns i s → m.pendingUnsubscriptions.Owns i s) := by
  cases op with
  | registerSubscription symbols j =>
    obtain ⟨-, -, -, hu, hs⟩ := registerSubscription_spec hm symbols j
    refine ⟨fun h => ?_, fun h => by simpa only [apply, hu] using h⟩
    rcases (hs i s).mp h with h | ⟨rfl, -⟩
    · exact h
    · exact absurd rfl hop
  | registerUnsubscription symbols j =>
    obtain ⟨-, -, -, hs, hu⟩ := registerUnsubscription_spec hm symbols j
    refine ⟨fun h => ((hs i s).mp h).1, fun h => ?_⟩
    rcases hu i s h with h | rfl
    · exact h
    · exact absurd rfl hop
  | subscribeAck j x success =>
    rcases processSubscribeAck_cases hm j x success with ⟨-, he⟩ | ⟨-, -, hu, hs, -⟩
    · exact ⟨fun h => by simpa only [apply, he] using h, fun h => by simpa only [apply, he] using h⟩
    · exact ⟨fun h => ((hs i s).mp h).1, fun h => by simpa only [apply, hu] using h⟩
  | unsubscribeAck j x success =>
    rcases processUnsubscribeAck_cases hm j x success with ⟨-, he⟩ | ⟨-, -, hs, hu, -⟩
    · exact ⟨fun h => by simpa only [apply, he] using h, fun h => by simpa only [apply, he] using h⟩
    · exact ⟨fun h => by simpa only [apply, hs] using h, fun h => ((hu i s).mp h).1⟩
  | rejection j x =>
    rcases tryProcessRejection_cases hm j x with ⟨-, -, he⟩ | ⟨-, -, -, -, hu, hs⟩ | ⟨-, -, -, -, hs, hu⟩
    · exact ⟨fun h => by simpa only [apply, he] using h, fun h => by simpa only [apply, he] using h⟩
    · exact ⟨fun h => ((hs i s).mp h).1, fun h => by simpa only [apply, hu] using h⟩
    · exact ⟨fun h => by simpa only [apply, hs] using h, fun h => ((hu i s).mp h).1⟩
  | clearAll =>
    exact ⟨fun h => absurd h PendingRequests.not_owns_empty, fun h => absurd h PendingRequests.not_owns_empty⟩

theorem awaits_of_apply {m : Manager Sym} (hm : m.Wf) {op o : Op Sym} {i : ReqId} {s : Sym}
    (ho : o.answer? = some (i, s)) (hop : ¬ op.Registers i) (h : (m.apply op).Awaits o) : m.Awaits o := by
  obtain ⟨hs, hu⟩ := owns_of_apply hm hop s
  cases o with
  | registerSubscription symbols j => exact trivial
  | registerUnsubscription symbols j => exact trivial
  | clearAll => exact trivial
  | subscribeAck j x success =>
    obtain ⟨rfl, rfl⟩ : j = i ∧ x = s := by simpa [Op.answer?] using ho
    exact hs h
  | unsubscribeAck j x success =>
    obtain ⟨rfl, rfl⟩ : j = i ∧ x = s := by simpa [Op.answer?] using ho
    exact hu h
  | rejection j x =>
    obtain ⟨rfl, rfl⟩ : j = i ∧ x = s := by simpa [Op.answer?] using ho
    exact h.imp hs hu

theorem awaits_of_foldl {o : Op Sym} {i : ReqId} {s : Sym} (ho : o.answer? = some (i, s)) (later : List (Op Sym)) :
    ∀ m : Manager Sym, m.Wf → (∀ op ∈ later, ¬ op.Registers i) → (later.foldl apply m).Awaits o → m.Awaits o := by
  induction later with
  | nil => intro m _ _ h; exact h
  | cons op later ih =>
    intro m hm hreg h
    rw [List.forall_mem_cons] at hreg
    exact awaits_of_apply hm ho hreg.1 (ih (m.apply op) (wf_apply hm op) hreg.2 h)

/-! ## Every run -/

theorem after_concat (ops : List (Op Sym)) (op : Op Sym) : after (ops ++ [op]) = (after ops).apply op := by
  simp [after]

/-- **Active symbols change only by matching ACKs**, after every list of operations. -/
theorem acks_decide (ops : List (Op Sym)) (op : Op Sym) (s : Sym) :
    (s ∉ (after ops).activeSymbols → s ∈ (after (ops ++ [op])).activeSymbols →
      ∃ id, op = .subscribeAck id s true ∧ (after ops).pendingSubscriptions.Owns id s) ∧
    (s ∈ (after ops).activeSymbols → s ∉ (after (ops ++ [op])).activeSymbols →
      (∃ id, op = .unsubscribeAck id s true ∧ (after ops).pendingUnsubscriptions.Owns id s) ∨ op = .clearAll) ∧
    ∀ id x, op.answer? = some (id, x) →
      (¬ (after ops).Awaits op → after (ops ++ [op]) = after ops) ∧
      (op.Failed → (after (ops ++ [op])).activeSymbols = (after ops).activeSymbols) ∧
      (s ≠ x → SameState (after ops) (after (ops ++ [op])) s) ∧
      ∀ later, (∀ o ∈ later, ¬ o.Registers id) →
        after (ops ++ [op] ++ later ++ [op]) = after (ops ++ [op] ++ later) := by
  have hm : (after ops).Wf := wf_after ops
  simp only [after_concat]
  refine ⟨fun hout hin => ?_, fun hin hout => ?_, fun id x hans => ⟨fun h => ?_, fun h => ?_, fun h => ?_, ?_⟩⟩
  · rcases active_apply hm op with he | ⟨id, x, rfl, hown, he⟩ | ⟨id, x, rfl, -, he⟩ | rfl
    · exact absurd (he ▸ hin) hout
    · rw [he] at hin
      rcases Finset.mem_insert.mp hin with rfl | hin
      · exact ⟨id, rfl, hown⟩
      · exact absurd hin hout
    · rw [he] at hin
      exact absurd (Finset.mem_of_mem_erase hin) hout
    · simp [apply, empty] at hin
  · rcases active_apply hm op with he | ⟨id, x, rfl, -, he⟩ | ⟨id, x, rfl, hown, he⟩ | rfl
    · exact absurd (he ▸ hin) hout
    · rw [he] at hout
      exact absurd (Finset.mem_insert_of_mem hin) hout
    · rw [he] at hout
      by_cases hsx : s = x
      · exact Or.inl ⟨id, by rw [hsx], hsx ▸ hown⟩
      · exact absurd (Finset.mem_erase.mpr ⟨hsx, hin⟩) hout
    · exact Or.inr rfl
  · exact apply_of_not_awaits hm h
  · exact active_of_failed hm h
  · exact sameState_of_answer hm hans h
  · intro later hreg
    have hsplit : after (ops ++ [op] ++ later) = later.foldl apply ((after ops).apply op) := by
      simp [after]
    refine apply_of_not_awaits (wf_after _) (fun h => ?_)
    rw [hsplit] at h
    exact not_awaits_apply hm hans (awaits_of_foldl hans later _ (wf_apply hm op) hreg h)

/-! ## Exclusive states -/

/-- A symbol is in at most one of the three sets, and `total_symbols` counts it once. -/
structure Exclusive (m : Manager Sym) : Prop where
  active_sub : ∀ s ∈ m.activeSymbols, s ∉ m.pendingSubscriptions.pendingSymbols
  active_unsub : ∀ s ∈ m.activeSymbols, s ∉ m.pendingUnsubscriptions.pendingSymbols
  sub_unsub : ∀ s ∈ m.pendingSubscriptions.pendingSymbols, s ∉ m.pendingUnsubscriptions.pendingSymbols
  counted : m.totalSymbols = (m.activeSymbols ∪ m.pendingSubscriptions.pendingSymbols).card

/-- The call unsubscribes no active symbol. -/
def KeepsActive (m : Manager Sym) : Op Sym → Prop
  | .registerUnsubscription symbols _ => ∀ s ∈ symbols, s ∉ m.activeSymbols
  | _ => True

instance (m : Manager Sym) : ∀ op, Decidable (m.KeepsActive op)
  | .registerUnsubscription symbols _ => inferInstanceAs (Decidable (∀ s ∈ symbols, s ∉ m.activeSymbols))
  | .registerSubscription _ _ | .subscribeAck _ _ _ | .unsubscribeAck _ _ _ | .rejection _ _ | .clearAll =>
    inferInstanceAs (Decidable True)

/-- `total_symbols` counts each symbol once in every state. -/
theorem Wf.counted {m : Manager Sym} (hm : m.Wf) :
    m.totalSymbols = (m.activeSymbols ∪ m.pendingSubscriptions.pendingSymbols).card := by
  have hdis : Disjoint m.activeSymbols m.pendingSubscriptions.pendingSymbols :=
    Finset.disjoint_left.mpr hm.active_not_sub
  rw [Finset.card_union_of_disjoint hdis, totalSymbols, PendingRequests.symbolCount]

/-- The pending-unsubscribe symbols are active, so exclusive states are those without any. -/
theorem Wf.exclusive_unsub_iff {m : Manager Sym} (hm : m.Wf) :
    m.Exclusive ↔ m.pendingUnsubscriptions.pendingSymbols = ∅ := by
  constructor
  · intro h
    rw [Finset.eq_empty_iff_forall_notMem]
    exact fun s hs => h.active_unsub s (hm.unsub_active s hs) hs
  · intro h
    refine ⟨hm.active_not_sub, ?_, ?_, hm.counted⟩
    · intro s _; rw [h]; exact Finset.notMem_empty s
    · intro s _; rw [h]; exact Finset.notMem_empty s

theorem unsub_apply_iff {m : Manager Sym} (hm : m.Wf) (h : m.pendingUnsubscriptions.pendingSymbols = ∅) (op : Op Sym) :
    (m.apply op).pendingUnsubscriptions.pendingSymbols = ∅ ↔ m.KeepsActive op := by
  have hown : ∀ i s, ¬ m.pendingUnsubscriptions.Owns i s := by
    intro i s ho
    exact Finset.notMem_empty s (h ▸ ho.mem hm.unsub)
  cases op with
  | registerSubscription symbols id =>
    simp only [apply, (registerSubscription_spec hm symbols id).2.2.2.1, h, KeepsActive]
  | registerUnsubscription symbols id =>
    rw [Finset.eq_empty_iff_forall_notMem]
    simp only [apply, mem_registerUnsubscription hm, h, Finset.notMem_empty, false_or, not_and, KeepsActive]
  | subscribeAck id s success =>
    refine iff_of_true ?_ trivial
    rcases processSubscribeAck_cases hm id s success with ⟨-, he⟩ | ⟨-, -, hu, -⟩
    · simpa only [apply, he] using h
    · simpa only [apply, hu] using h
  | unsubscribeAck id s success =>
    refine iff_of_true ?_ trivial
    rcases processUnsubscribeAck_cases hm id s success with ⟨-, he⟩ | ⟨ho, -⟩
    · simpa only [apply, he] using h
    · exact absurd ho (hown id s)
  | rejection id s =>
    refine iff_of_true ?_ trivial
    rcases tryProcessRejection_cases hm id s with ⟨-, -, he⟩ | ⟨-, -, -, -, hu, -⟩ | ⟨ho, -⟩
    · simpa only [apply, he] using h
    · simpa only [apply, hu] using h
    · exact absurd ho (hown id s)
  | clearAll => exact iff_of_true rfl trivial

/-- **The states are exclusive** throughout a run exactly when no call unsubscribes an active symbol. -/
theorem exclusive_iff (ops : List (Op Sym)) :
    (∀ p, p <+: ops → (after p).Exclusive) ↔ Admitted apply KeepsActive empty ops := by
  refine forall_prefix_iff_admitted (wf_empty.exclusive_unsub_iff.mpr rfl) fun bs op _ _ h => ?_
  have hm : (after bs).Wf := wf_after bs
  refine (wf_apply hm op).exclusive_unsub_iff.trans ?_
  exact unsub_apply_iff hm (hm.exclusive_unsub_iff.mp h) op

/-- Subscribe, ACK, unsubscribe: the symbol is active and pending-unsubscribe. -/
theorem unsubscribe_stays_active :
    ¬ (after [.registerSubscription [7] 1, .subscribeAck 1 7 true, .registerUnsubscription [7] 2]).Exclusive := by
  intro h
  exact absurd (h.active_unsub 7) (by decide)

end Wirekrak.Protocol.Manager

import Mathlib.Data.Set.Card
import Wirekrak.Lib.Multimap
import Wirekrak.Lib.Partition
import Wirekrak.Lib.Run
import Wirekrak.Protocol.Table

/-!
# Wirekrak.Protocol.Containers — `PendingRequests` and the replay table over whole runs

Both keep the symbols by request and, beside it, an index over all symbols.

* `PendingRequests.Represents`, `represents_after`: the pending set is the disjoint union of the lists, after every
  sequence of operations; a search for the owner of a pending symbol finds it, in whatever order the map is visited.
* `Table.Consistent`: the stored requests and the owner map are one relation, each symbol stored once.
* `Table.consistent_iff`: the table stays consistent exactly as long as no `add` stores a symbol twice.
-/

namespace Wirekrak.Protocol

open Wirekrak.Lib

/-! ## Pending requests -/

namespace PendingRequests

variable {Sym : Type}

/-- What can be done with the container; a search visits the requests in some order. -/
inductive Op (Sym : Type)
  | add (reqId : ReqId) (sids : List Sym)
  | remove (reqId : ReqId) (sid : Sym)
  | removeSymbol (it : Iteration (Σ _ : ReqId, List Sym)) (sid : Sym)
  | clear

/-- The pending set is the disjoint union of the lists, none of which is empty. -/
structure Represents (p : PendingRequests Sym) : Prop where
  ne_nil : ∀ id vec, p.requests.lookup id = some vec → vec ≠ []
  nodup : (items id p.requests).Nodup
  union : ∀ s, s ∈ p.pendingSymbols ↔ s ∈ items id p.requests
  count : (items id p.requests).length = p.symbolCount

theorem Wf.disjointed {p : PendingRequests Sym} (hp : p.Wf) : Disjointed id p.requests :=
  fun k k' v v' x hv hv' hx hx' => hp.owner_eq k k' x ⟨v, hv, hx⟩ ⟨v', hv', hx'⟩

theorem Wf.represents {p : PendingRequests Sym} (hp : p.Wf) : p.Represents := by
  classical
  have hnd : (items id p.requests).Nodup := nodup_items_iff.mpr ⟨hp.nodup, hp.disjointed⟩
  have hunion : ∀ s, s ∈ p.pendingSymbols ↔ s ∈ items id p.requests := fun s => by
    rw [hp.mem_iff, mem_items]
    rfl
  refine ⟨hp.ne_nil, hnd, hunion, ?_⟩
  rw [← List.toFinset_card_of_nodup hnd]
  exact congrArg Finset.card (Finset.ext fun s => by rw [List.mem_toFinset, hunion])

variable [DecidableEq Sym]

/-- `remove(sid)`, its loop over the requests in the order of `it`. -/
def removeSymbolBy (it : Iteration (Σ _ : ReqId, List Sym)) (p : PendingRequests Sym) (sid : Sym) :
    Bool × PendingRequests Sym :=
  if sid ∈ p.pendingSymbols then
    match (it.arrange p.requests.entries).find? (fun e => decide (sid ∈ e.2)) with
    | some e => (true, p.dropFrom e.1 e.2 sid)
    | none => (false, p)   -- `LCR_UNREACHABLE`
  else (false, p)

theorem removeSymbol_eq (p : PendingRequests Sym) (sid : Sym) :
    p.removeSymbol sid = p.removeSymbolBy .inOrder sid := rfl

def apply (p : PendingRequests Sym) : Op Sym → PendingRequests Sym
  | .add reqId sids => p.add reqId sids
  | .remove reqId sid => (p.remove reqId sid).2
  | .removeSymbol it sid => (p.removeSymbolBy it sid).2
  | .clear => empty

def after (ops : List (Op Sym)) : PendingRequests Sym := ops.foldl apply empty

/-- The search ends at the owner of the symbol. -/
theorem find?_of_owns {p : PendingRequests Sym} (hp : p.Wf) (it : Iteration (Σ _ : ReqId, List Sym)) {id : ReqId}
    {vec : List Sym} {s : Sym} (hv : p.requests.lookup id = some vec) (hs : s ∈ vec) :
    (it.arrange p.requests.entries).find? (fun e => decide (s ∈ e.2)) = some ⟨id, vec⟩ :=
  find?_owner hp.disjointed hv hs (it.perm _)

/-- `remove(sid)` is `remove(owner, sid)`. -/
theorem removeSymbolBy_eq_remove {p : PendingRequests Sym} (hp : p.Wf) (it : Iteration (Σ _ : ReqId, List Sym))
    {id : ReqId} {s : Sym} (h : p.Owns id s) : p.removeSymbolBy it s = p.remove id s := by
  obtain ⟨vec, hv, hs⟩ := h
  unfold removeSymbolBy remove
  rw [if_pos (Owns.mem hp ⟨vec, hv, hs⟩), find?_of_owns hp it hv hs, hv]
  simp [hs]

theorem removeSymbolBy_of_not_pending {p : PendingRequests Sym} (it : Iteration (Σ _ : ReqId, List Sym)) {s : Sym}
    (h : s ∉ p.pendingSymbols) : p.removeSymbolBy it s = (false, p) := if_neg h

theorem wf_remove {p : PendingRequests Sym} (hp : p.Wf) (id : ReqId) (s : Sym) : (p.remove id s).2.Wf := by
  rcases remove_cases hp id s with ⟨-, h⟩ | ⟨-, -, h, -⟩
  · rw [h]
    exact hp
  · exact h

theorem wf_apply {p : PendingRequests Sym} (hp : p.Wf) (op : Op Sym) : (p.apply op).Wf := by
  cases op with
  | add reqId sids => exact wf_add hp reqId sids
  | remove reqId sid => exact wf_remove hp reqId sid
  | removeSymbol it sid =>
    by_cases h : sid ∈ p.pendingSymbols
    · obtain ⟨id, hown⟩ := (hp.mem_iff sid).mp h
      simp only [apply, removeSymbolBy_eq_remove hp it hown]
      exact wf_remove hp id sid
    · simp only [apply, removeSymbolBy_of_not_pending it h]
      exact hp
  | clear => exact wf_empty

theorem wf_after (ops : List (Op Sym)) : (after ops).Wf := by
  unfold after
  induction ops using List.reverseRecOn with
  | nil => exact wf_empty
  | append_singleton ops op ih =>
    rw [List.foldl_concat]
    exact wf_apply ih op

/-- **After every sequence of operations** the pending set is the disjoint union of the lists, and `remove(sid)` of a
pending symbol, in whatever order it visits the requests, finds its only owner and does what `remove(owner, sid)` does. -/
theorem represents_after (ops : List (Op Sym)) : (after ops).Represents ∧
    ∀ s ∈ (after ops).pendingSymbols, ∃ id vec, (after ops).requests.lookup id = some vec ∧ s ∈ vec ∧
      (∀ id', (after ops).Owns id' s → id' = id) ∧
      ∀ it : Iteration (Σ _ : ReqId, List Sym),
        (it.arrange (after ops).requests.entries).find? (fun e => decide (s ∈ e.2)) = some ⟨id, vec⟩ ∧
        (after ops).removeSymbolBy it s = (after ops).remove id s := by
  have hp := wf_after ops
  refine ⟨hp.represents, fun s hs => ?_⟩
  obtain ⟨id, vec, hv, hmem⟩ := (hp.mem_iff s).mp hs
  refine ⟨id, vec, hv, hmem, fun id' h => hp.owner_eq id' id s h ⟨vec, hv, hmem⟩, fun it => ?_⟩
  exact ⟨find?_of_owns hp it hv hmem, removeSymbolBy_eq_remove hp it ⟨vec, hv, hmem⟩⟩

end PendingRequests

/-! ## The replay table -/

namespace Table

variable {Sym P : Type}

inductive Op (Sym P : Type)
  | add (req : Request Sym P)
  | tryProcessRejection (id : ReqId) (s : Sym)
  | eraseSymbol (s : Sym)
  | takeSubscriptions (order : Order Sym P)

/-- All stored symbols, request by request. -/
def storedSymbols (t : Table Sym P) : List Sym := items Request.symbols t.subscriptions

variable [DecidableEq Sym]

/-- The stored requests and the owner map describe one relation, and each symbol is stored once; `total` is
`assert_consistency`. -/
structure Consistent (t : Table Sym P) : Prop where
  wf : t.Wf
  once : t.storedSymbols.Nodup
  owned : t.totalSymbols = Set.ncard {s | ∃ id, t.Owns id s}
  total : t.storedSymbols.length = t.totalSymbols

def apply (t : Table Sym P) : Op Sym P → Table Sym P
  | .add req => (t.add req).2
  | .tryProcessRejection id s => (t.tryProcessRejection id s).2
  | .eraseSymbol s => t.eraseSymbol s
  | .takeSubscriptions order => (t.takeSubscriptions order).2

def after (ops : List (Op Sym P)) : Table Sym P := ops.foldl apply empty

/-- An `add` whose request id is free names no symbol twice that has no owner. -/
def StoresOnce (t : Table Sym P) : Op Sym P → Prop
  | .add req => ∀ id, req.reqId = some id → t.subscriptions.lookup id = none →
      ∀ s, (∀ i, ¬ t.Owns i s) → req.symbols.count s ≤ 1
  | _ => True

theorem totalSymbols_eq (t : Table Sym P) : t.totalSymbols = Set.ncard {s | ∃ id, t.Owns id s} := by
  have hset : {s | ∃ id, t.Owns id s} = ↑t.symbolOwner.keys.toFinset := by
    ext s
    simp only [Owns, Set.mem_ofPred_eq, List.coe_toFinset]
    rw [← Option.isSome_iff_exists, AList.lookup_isSome]
    rfl
  rw [hset, Set.ncard_coe_finset, List.toFinset_card_of_nodup t.symbolOwner.keys_nodup]
  unfold totalSymbols AList.keys List.keys
  rw [List.length_map]

theorem Wf.disjointed {t : Table Sym P} (ht : t.Wf) : Disjointed Request.symbols t.subscriptions :=
  fun k k' v v' x hv hv' hx hx' => ((ht.stored k v hv).2.2 x hx).unique ((ht.stored k' v' hv').2.2 x hx')

theorem Wf.mem_storedSymbols {t : Table Sym P} (ht : t.Wf) {s : Sym} : s ∈ t.storedSymbols ↔ ∃ id, t.Owns id s := by
  unfold storedSymbols
  rw [mem_items]
  constructor
  · rintro ⟨id, req, hreq, hs⟩
    exact ⟨id, (ht.stored id req hreq).2.2 s hs⟩
  · rintro ⟨id, h⟩
    exact ⟨id, ht.owned id s h⟩

/-- For a well-formed table all that is left to check is that no stored request repeats a symbol. -/
theorem Wf.consistent_iff_nodup {t : Table Sym P} (ht : t.Wf) :
    t.Consistent ↔ ∀ id req, t.subscriptions.lookup id = some req → req.symbols.Nodup := by
  constructor
  · intro h
    exact (nodup_items_iff.mp h.once).1
  · intro h
    have hnd : t.storedSymbols.Nodup := nodup_items_iff.mpr ⟨h, ht.disjointed⟩
    refine ⟨ht, hnd, totalSymbols_eq t, ?_⟩
    rw [totalSymbols_eq, ← List.toFinset_card_of_nodup hnd, ← Set.ncard_coe_finset]
    congr 1
    ext s
    rw [Finset.mem_coe, List.mem_toFinset, ht.mem_storedSymbols]
    rfl

theorem wf_apply {t : Table Sym P} (ht : t.Wf) (op : Op Sym P) : (t.apply op).Wf := by
  cases op with
  | add req => exact wf_add ht req
  | tryProcessRejection id s =>
    rcases tryProcessRejection_cases ht id s with ⟨-, h⟩ | ⟨-, -, h, -⟩
    · simp only [apply, h]
      exact ht
    · exact h
  | eraseSymbol s => exact (eraseSymbol_spec ht s).1
  | takeSubscriptions order => exact wf_empty

/-- What `add` stores: nothing, or the symbols without an owner under an id that was free. -/
theorem add_cases (t : Table Sym P) (req : Request Sym P) :
    t.add req = (false, t) ∨
    ∃ id, req.reqId = some id ∧ t.subscriptions.lookup id = none ∧ (t.add req).1 = true ∧
      (t.add req).2.subscriptions = t.subscriptions.insert id
        { req with symbols := req.symbols.filter (fun s => (t.symbolOwner.lookup s).isNone) } := by
  unfold add
  cases hid : req.reqId with
  | none => exact Or.inl rfl
  | some id =>
    dsimp only
    split_ifs with hnil hsome
    · exact Or.inl rfl
    · exact Or.inl rfl
    · refine Or.inr ⟨id, rfl, ?_, rfl, rfl⟩
      rwa [Bool.not_eq_true, Option.isSome_eq_false_iff, Option.isNone_iff_eq_none] at hsome

theorem add_eq_false {t : Table Sym P} {req : Request Sym P} {id : ReqId} (hid : req.reqId = some id)
    (hfree : t.subscriptions.lookup id = none) (h : t.add req = (false, t)) : ∀ s ∈ req.symbols, ∃ i, t.Owns i s := by
  intro s hs
  by_contra hno
  have := (owns_add hid hfree id s).mpr (Or.inr ⟨rfl, hs, fun j hj => hno ⟨j, hj⟩⟩)
  rw [h] at this
  exact hno ⟨id, this⟩

theorem lookup_dropSymbol {t : Table Sym P} {id i : ReqId} {req r : Request Sym P} {x : Sym}
    (h : (t.dropSymbol id req x).subscriptions.lookup i = some r) : r = req ∨ t.subscriptions.lookup i = some r := by
  unfold dropSymbol at h
  dsimp only at h
  by_cases hi : i = id
  · subst hi
    split_ifs at h
    · simp at h
    · rw [AList.lookup_insert, Option.some.injEq] at h
      exact Or.inl h.symm
  · split_ifs at h
    · exact Or.inr (AList.lookup_erase_ne hi ▸ h)
    · exact Or.inr (AList.lookup_insert_ne hi ▸ h)

/-- A removal only takes symbols out of stored requests. -/
theorem lookup_apply {t : Table Sym P} {op : Op Sym P} (hop : ∀ req, op ≠ .add req) {i : ReqId} {r : Request Sym P}
    (h : (t.apply op).subscriptions.lookup i = some r) :
    ∃ j req, t.subscriptions.lookup j = some req ∧ r.symbols.Sublist req.symbols := by
  have hkeep : t.subscriptions.lookup i = some r →
      ∃ j req, t.subscriptions.lookup j = some req ∧ r.symbols.Sublist req.symbols :=
    fun h => ⟨i, r, h, List.Sublist.refl _⟩
  have hdrop : ∀ id req x, t.subscriptions.lookup id = some req →
      (t.dropSymbol id (req.eraseSymbol x).2 x).subscriptions.lookup i = some r →
      ∃ j req, t.subscriptions.lookup j = some req ∧ r.symbols.Sublist req.symbols := by
    intro id req x hl h
    rcases lookup_dropSymbol h with rfl | h
    · exact ⟨id, req, hl, List.filter_sublist⟩
    · exact hkeep h
  cases op with
  | add req => exact absurd rfl (hop req)
  | tryProcessRejection id s =>
    simp only [apply, tryProcessRejection] at h
    split at h
    · exact hkeep h
    · next req hl =>
      by_cases hid : req.reqId = some id
      · simp only [Request.tryProcessRejection, if_pos hid] at h
        split_ifs at h
        · exact hdrop id req s hl h
        · exact hkeep h
      · simp only [Request.tryProcessRejection, if_neg hid, Bool.false_eq_true, if_false] at h
        exact hkeep h
  | eraseSymbol s =>
    simp only [apply, eraseSymbol] at h
    split at h
    · exact hkeep h
    · split at h
      · exact hkeep h
      · next id _ _ req hl =>
        split_ifs at h
        · exact hdrop id req s hl h
        · exact hkeep h
  | takeSubscriptions order => simp [apply, takeSubscriptions, empty] at h

theorem consistent_empty : (empty : Table Sym P).Consistent :=
  wf_empty.consistent_iff_nodup.mpr fun id req h => by simp [empty] at h

theorem consistent_add_iff {t : Table Sym P} (ht : t.Consistent) (req : Request Sym P) :
    (t.add req).2.Consistent ↔ t.StoresOnce (.add req) := by
  have hnone : ∀ s, (∀ i, ¬ t.Owns i s) ↔ (t.symbolOwner.lookup s).isNone = true := by
    intro s
    rw [Option.isNone_iff_eq_none, Option.eq_none_iff_forall_ne_some]
    rfl
  have hcount : (∀ s, (∀ i, ¬ t.Owns i s) → req.symbols.count s ≤ 1) ↔
      (req.symbols.filter (fun s => (t.symbolOwner.lookup s).isNone)).Nodup := by
    rw [List.nodup_iff_count_le_one]
    refine forall_congr' fun s => ?_
    rw [hnone]
    by_cases h : (t.symbolOwner.lookup s).isNone = true
    · rw [List.count_filter (p := fun s => (t.symbolOwner.lookup s).isNone) h]
      exact ⟨fun hc => hc h, fun hc _ => hc⟩
    · have hno : s ∉ req.symbols.filter (fun s => (t.symbolOwner.lookup s).isNone) :=
        fun hmem => h (List.mem_filter.mp hmem).2
      rw [List.count_eq_zero.mpr hno]
      exact iff_of_true (fun hn => absurd hn h) (Nat.zero_le _)
  rcases add_cases t req with h | ⟨id, hid, hfree, -, hsub⟩
  · rw [h]
    refine iff_of_true ht fun id hid hfree s hs => ?_
    rw [List.count_eq_zero.mpr fun hmem => ?_]
    · exact Nat.zero_le _
    · obtain ⟨i, hi⟩ := add_eq_false hid hfree h s hmem
      exact hs i hi
  · rw [(wf_add ht.wf req).consistent_iff_nodup, hsub]
    constructor
    · intro hnd id' hid' _
      rw [hcount]
      exact hnd id _ (AList.lookup_insert _)
    · intro hone i r hr
      by_cases hi : i = id
      · subst hi
        rw [AList.lookup_insert, Option.some.injEq] at hr
        subst hr
        exact hcount.mp (hone i hid hfree)
      · rw [AList.lookup_insert_ne hi] at hr
        exact ht.wf.consistent_iff_nodup.mp ht i r hr

/-- One operation keeps the table consistent exactly when it stores no symbol twice. -/
theorem consistent_apply_iff {t : Table Sym P} (ht : t.Consistent) (op : Op Sym P) :
    (t.apply op).Consistent ↔ t.StoresOnce op := by
  by_cases hadd : ∃ req, op = .add req
  · obtain ⟨req, rfl⟩ := hadd
    exact consistent_add_iff ht req
  · have hop : ∀ req, op ≠ .add req := fun req h => hadd ⟨req, h⟩
    refine iff_of_true ((wf_apply ht.wf op).consistent_iff_nodup.mpr fun i r hr => ?_) ?_
    · obtain ⟨j, req, hj, hsub⟩ := lookup_apply hop hr
      exact (ht.wf.consistent_iff_nodup.mp ht j req hj).sublist hsub
    · cases op with
      | add req => exact absurd rfl (hop req)
      | tryProcessRejection | eraseSymbol | takeSubscriptions => trivial

theorem wf_after (ops : List (Op Sym P)) : (after ops).Wf := by
  unfold after
  induction ops using List.reverseRecOn with
  | nil => exact wf_empty
  | append_singleton ops op ih =>
    rw [List.foldl_concat]
    exact wf_apply ih op

/-- An `add` that returns true leaves every symbol of its request with an owner that stores it. -/
theorem stored_of_add {t : Table Sym P} (ht : t.Wf) {req : Request Sym P} (h : (t.add req).1 = true) {s : Sym}
    (hs : s ∈ req.symbols) :
    ∃ id r, (t.add req).2.subscriptions.lookup id = some r ∧ s ∈ r.symbols ∧ (t.add req).2.Owns id s := by
  rcases add_cases t req with heq | ⟨id, hid, hfree, -, -⟩
  · rw [heq] at h
    exact absurd h Bool.false_ne_true
  · have hown : ∃ i, (t.add req).2.Owns i s := by
      by_cases hold : ∃ i, t.Owns i s
      · obtain ⟨i, hi⟩ := hold
        exact ⟨i, (owns_add hid hfree i s).mpr (Or.inl hi)⟩
      · exact ⟨id, (owns_add hid hfree id s).mpr (Or.inr ⟨rfl, hs, fun j hj => hold ⟨j, hj⟩⟩)⟩
    obtain ⟨i, hi⟩ := hown
    obtain ⟨r, hr, hsr⟩ := (wf_add ht req).owned i s hi
    exact ⟨i, r, hr, hsr, hi⟩

/-- **The table is consistent throughout a run** exactly when no `add` of it stores a symbol twice; and every `add` that
returns true has stored what it was given. -/
theorem consistent_iff (ops : List (Op Sym P)) :
    ((∀ bs, bs <+: ops → (after bs).Consistent) ↔ Admitted apply StoresOnce empty ops) ∧
    ∀ req : Request Sym P, ((after ops).add req).1 = true → ∀ s ∈ req.symbols,
      ∃ id r, (after (ops ++ [.add req])).subscriptions.lookup id = some r ∧ s ∈ r.symbols ∧
        (after (ops ++ [.add req])).Owns id s := by
  refine ⟨forall_prefix_iff_admitted consistent_empty fun bs op _ _ hc => consistent_apply_iff hc op, ?_⟩
  intro req h s hs
  unfold after
  rw [List.foldl_concat]
  exact stored_of_add (wf_after ops) h hs

/-- One request that names a symbol twice: the owner map has it once, the stored request twice. -/
theorem repeated_symbol_stored_twice :
    ¬ (after [.add (⟨[1, 1], some 10, ()⟩ : Request ℕ Unit)]).Consistent := by
  intro h
  exact absurd h.total (by decide)

end Table

end Wirekrak.Protocol

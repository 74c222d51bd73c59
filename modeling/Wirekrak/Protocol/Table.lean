import Wirekrak.Protocol.Manager

/-!
# Wirekrak.Protocol.Table — the replay table of one channel

`subscriptions` maps a request id to the stored request, `symbolOwner` a symbol to the request that stores it.
`Table.Owns t id s` is the owner relation; `Table.Wf` ties the stored requests to it.  The `unordered_map` iterates
in an unspecified order: `takeSubscriptions` is given the order, any permutation of the entries.
-/

namespace Wirekrak.Protocol

/-- A subscribe or unsubscribe request; `params` stands for the channel's other fields (depth, snapshot). -/
structure Request (Sym P : Type) where
  symbols : List Sym
  reqId : Option ReqId
  params : P
  deriving DecidableEq

namespace Request

variable {Sym P : Type} [DecidableEq Sym]

/-- `Subscription::erase_symbol`: whether the symbol was there, and the request without it. -/
def eraseSymbol (req : Request Sym P) (s : Sym) : Bool × Request Sym P :=
  (decide (s ∈ req.symbols), { req with symbols := req.symbols.filter (fun t => decide (t ≠ s)) })

/-- `Subscription::try_process_rejection`. -/
def tryProcessRejection (req : Request Sym P) (id : ReqId) (s : Sym) : Bool × Request Sym P :=
  if req.reqId = some id then req.eraseSymbol s else (false, req)

end Request

structure Table (Sym P : Type) where
  subscriptions : AList (fun _ : ReqId => Request Sym P)
  symbolOwner : AList (fun _ : Sym => ReqId)

namespace Table

variable {Sym P : Type}

def empty : Table Sym P := ⟨∅, ∅⟩

/-- An iteration order of the stored requests. -/
abbrev Order (Sym P : Type) := List (Request Sym P) → List (Request Sym P)

/-- The stored requests, in the order of the entries. -/
def stored (t : Table Sym P) : List (Request Sym P) := t.subscriptions.entries.map (fun e => e.2)

/-- The stored requests in the map's iteration order, and the emptied table. -/
def takeSubscriptions (t : Table Sym P) (order : Order Sym P) : List (Request Sym P) × Table Sym P :=
  (order t.stored, empty)

variable [DecidableEq Sym]

/-- `symbol_owner_.emplace` for every symbol: an existing owner stays. -/
def emplaceOwners (owner : AList (fun _ : Sym => ReqId)) (id : ReqId) (symbols : List Sym) :
    AList (fun _ : Sym => ReqId) :=
  symbols.foldl (fun o s => if (o.lookup s).isSome then o else o.insert s id) owner

def add (t : Table Sym P) (req : Request Sym P) : Bool × Table Sym P :=
  match req.reqId with
  | none => (false, t)
  | some id =>
    -- first write wins: symbols that have an owner are dropped from the incoming request
    let symbols := req.symbols.filter (fun s => (t.symbolOwner.lookup s).isNone)
    if symbols = [] then (false, t)
    else if (t.subscriptions.lookup id).isSome then (false, t)
    else (true, { subscriptions := t.subscriptions.insert id { req with symbols := symbols }
                  symbolOwner := emplaceOwners t.symbolOwner id symbols })

/-- The owner entry goes, and the request with it when nothing is left. -/
def dropSymbol (t : Table Sym P) (id : ReqId) (req : Request Sym P) (s : Sym) : Table Sym P :=
  { subscriptions := if req.symbols = [] then t.subscriptions.erase id else t.subscriptions.insert id req
    symbolOwner := t.symbolOwner.erase s }

def tryProcessRejection (t : Table Sym P) (id : ReqId) (s : Sym) : Bool × Table Sym P :=
  match t.subscriptions.lookup id with
  | none => (false, t)
  | some req =>
    let r := req.tryProcessRejection id s
    if r.1 then (true, t.dropSymbol id r.2 s) else (false, t)

def eraseSymbol (t : Table Sym P) (s : Sym) : Table Sym P :=
  match t.symbolOwner.lookup s with
  | none => t
  | some id =>
    match t.subscriptions.lookup id with
    | none => { t with symbolOwner := t.symbolOwner.erase s }
    | some req =>
      let r := req.eraseSymbol s
      if r.1 then t.dropSymbol id r.2 s else t

def totalSymbols (t : Table Sym P) : ℕ := t.symbolOwner.entries.length

/-- The symbols stored in the table's requests. -/
def symbols (t : Table Sym P) : Finset Sym := (t.stored.flatMap (fun req => req.symbols)).toFinset

def Owns (t : Table Sym P) (id : ReqId) (s : Sym) : Prop := t.symbolOwner.lookup s = some id

structure Wf (t : Table Sym P) : Prop where
  stored : ∀ id req, t.subscriptions.lookup id = some req →
    req.reqId = some id ∧ req.symbols ≠ [] ∧ ∀ s ∈ req.symbols, t.Owns id s
  owned : ∀ id s, t.Owns id s → ∃ req, t.subscriptions.lookup id = some req ∧ s ∈ req.symbols

@[simp] theorem not_owns_empty {id : ReqId} {s : Sym} : ¬ (empty : Table Sym P).Owns id s := by
  simp [Owns, empty]

theorem wf_empty : (empty : Table Sym P).Wf where
  stored := fun id req h => by simp [empty] at h
  owned := fun id s h => absurd h not_owns_empty

theorem Owns.unique {t : Table Sym P} {id id' : ReqId} {s : Sym} (h : t.Owns id s) (h' : t.Owns id' s) :
    id = id' := by
  unfold Owns at h h'
  rw [h] at h'
  exact Option.some.inj h'

omit [DecidableEq Sym] in
theorem mem_stored {t : Table Sym P} {req : Request Sym P} :
    req ∈ t.stored ↔ ∃ id, t.subscriptions.lookup id = some req := by
  constructor
  · intro h
    obtain ⟨e, he, rfl⟩ := List.mem_map.mp h
    exact ⟨e.1, AList.mem_lookup_iff.mpr he⟩
  · rintro ⟨id, h⟩
    exact List.mem_map.mpr ⟨⟨id, req⟩, AList.mem_lookup_iff.mp h, rfl⟩

theorem mem_symbols {t : Table Sym P} (ht : t.Wf) {s : Sym} : s ∈ t.symbols ↔ ∃ id, t.Owns id s := by
  unfold symbols
  rw [List.mem_toFinset, List.mem_flatMap]
  constructor
  · rintro ⟨req, hreq, hs⟩
    obtain ⟨id, hid⟩ := mem_stored.mp hreq
    exact ⟨id, (ht.stored id req hid).2.2 s hs⟩
  · rintro ⟨id, h⟩
    obtain ⟨req, hreq, hs⟩ := ht.owned id s h
    exact ⟨req, mem_stored.mpr ⟨id, hreq⟩, hs⟩

theorem lookup_eq_none_of_not_owns {t : Table Sym P} (ht : t.Wf) {id : ReqId} (h : ∀ s, ¬ t.Owns id s) :
    t.subscriptions.lookup id = none := by
  cases hl : t.subscriptions.lookup id with
  | none => rfl
  | some req =>
    obtain ⟨-, hne, hs⟩ := ht.stored id req hl
    obtain ⟨s, hmem⟩ := List.exists_mem_of_ne_nil _ hne
    exact absurd (hs s hmem) (h s)

/-! ## `add` -/

theorem lookup_emplaceOwners (id : ReqId) (symbols : List Sym) : ∀ (o : AList (fun _ : Sym => ReqId)) (s : Sym),
    (emplaceOwners o id symbols).lookup s =
      if (o.lookup s).isSome then o.lookup s else if s ∈ symbols then some id else none := by
  induction symbols with
  | nil =>
    intro o s
    cases h : o.lookup s <;> simp [emplaceOwners, h]
  | cons x symbols ih =>
    intro o s
    have hstep : emplaceOwners o id (x :: symbols) =
        emplaceOwners (if (o.lookup x).isSome then o else o.insert x id) id symbols := rfl
    rw [hstep, ih]
    by_cases hx : (o.lookup x).isSome
    · rw [if_pos hx]
      by_cases hs : s = x
      · subst hs; simp [hx]
      · simp [hs]
    · rw [if_neg hx]
      by_cases hs : s = x
      · subst hs; simp [hx]
      · rw [AList.lookup_insert_ne hs]; simp [hs]

/-- The symbols of the request that have no owner yet are the request's. -/
theorem owns_add {t : Table Sym P} {req : Request Sym P} {id : ReqId} (hid : req.reqId = some id)
    (hfresh : t.subscriptions.lookup id = none) (i : ReqId) (s : Sym) :
    (t.add req).2.Owns i s ↔ t.Owns i s ∨ (i = id ∧ s ∈ req.symbols ∧ ∀ j, ¬ t.Owns j s) := by
  have hnone : (∀ j, ¬ t.Owns j s) ↔ t.symbolOwner.lookup s = none := by
    unfold Owns
    constructor
    · intro h
      cases hl : t.symbolOwner.lookup s with
      | none => rfl
      | some j => exact absurd hl (h j)
    · intro h j hj
      rw [h] at hj
      cases hj
  rw [hnone]
  unfold add Owns
  rw [hid]
  dsimp only
  by_cases hnil : req.symbols.filter (fun s => (t.symbolOwner.lookup s).isNone) = []
  · rw [if_pos hnil]
    have hno : ¬ (s ∈ req.symbols ∧ t.symbolOwner.lookup s = none) := by
      rintro ⟨h1, h2⟩
      have : s ∈ req.symbols.filter (fun s => (t.symbolOwner.lookup s).isNone) := by simp [h1, h2]
      rw [hnil] at this
      simp at this
    constructor
    · exact Or.inl
    · rintro (h | ⟨-, h1, h2⟩)
      · exact h
      · exact absurd ⟨h1, h2⟩ hno
  · rw [if_neg hnil, hfresh]
    simp only [Option.isSome_none, Bool.false_eq_true, if_false, lookup_emplaceOwners, List.mem_filter]
    cases hl : t.symbolOwner.lookup s with
    | none => by_cases hs : s ∈ req.symbols <;> simp [hs, eq_comm]
    | some j => simp

theorem wf_add {t : Table Sym P} (ht : t.Wf) (req : Request Sym P) : (t.add req).2.Wf := by
  cases hid : req.reqId with
  | none =>
    have : t.add req = (false, t) := by simp [add, hid]
    rw [this]; exact ht
  | some id =>
    by_cases hnil : req.symbols.filter (fun s => (t.symbolOwner.lookup s).isNone) = []
    · have : t.add req = (false, t) := by
        unfold add; rw [hid]; dsimp only; rw [if_pos hnil]
      rw [this]; exact ht
    · cases hl : t.subscriptions.lookup id with
      | some old =>
        have : t.add req = (false, t) := by
          unfold add; rw [hid]; dsimp only; rw [if_neg hnil, hl]; simp
        rw [this]; exact ht
      | none =>
        have hown := owns_add hid hl
        have hsub : (t.add req).2.subscriptions = t.subscriptions.insert id
            { req with symbols := req.symbols.filter (fun s => (t.symbolOwner.lookup s).isNone) } := by
          unfold add; rw [hid]; dsimp only; rw [if_neg hnil, hl]; simp
        constructor
        · intro i r hr
          rw [hsub] at hr
          by_cases hi : i = id
          · subst hi
            rw [AList.lookup_insert, Option.some.injEq] at hr
            subst hr
            refine ⟨hid, hnil, fun s hs => ?_⟩
            obtain ⟨hs1, hs2⟩ := List.mem_filter.mp hs
            rw [hown]
            refine Or.inr ⟨rfl, hs1, fun j hj => ?_⟩
            unfold Owns at hj
            rw [hj] at hs2
            simp at hs2
          · rw [AList.lookup_insert_ne hi] at hr
            obtain ⟨h1, h2, h3⟩ := ht.stored i r hr
            exact ⟨h1, h2, fun s hs => (hown i s).mpr (Or.inl (h3 s hs))⟩
        · intro i s h
          rw [hsub]
          rcases (hown i s).mp h with h | ⟨rfl, hs, hno⟩
          · obtain ⟨r, hr, hrs⟩ := ht.owned i s h
            have hi : i ≠ id := by rintro rfl; rw [hl] at hr; cases hr
            exact ⟨r, by rw [AList.lookup_insert_ne hi]; exact hr, hrs⟩
          · refine ⟨_, AList.lookup_insert _, ?_⟩
            refine List.mem_filter.mpr ⟨hs, ?_⟩
            cases ho : t.symbolOwner.lookup s with
            | none => rfl
            | some j => exact absurd ho (hno j)

/-! ## Removal -/

section Removal

variable {t : Table Sym P} {id : ReqId} {req : Request Sym P} {x : Sym}

theorem owns_dropSymbol (i : ReqId) (s : Sym) : (t.dropSymbol id req x).Owns i s ↔ t.Owns i s ∧ s ≠ x := by
  unfold dropSymbol Owns
  dsimp only
  by_cases hs : s = x
  · subst hs; simp
  · rw [AList.lookup_erase_ne hs]; simp [hs]

theorem wf_dropSymbol (ht : t.Wf) (hl : t.subscriptions.lookup id = some req) (hx : x ∈ req.symbols) :
    (t.dropSymbol id (req.eraseSymbol x).2 x).Wf := by
  have hown : t.Owns id x := (ht.stored id req hl).2.2 x hx
  have hmem : ∀ s, s ∈ (req.eraseSymbol x).2.symbols ↔ s ∈ req.symbols ∧ s ≠ x := by
    intro s; simp [Request.eraseSymbol]
  constructor
  · intro i r hr
    unfold dropSymbol at hr
    dsimp only at hr
    by_cases hi : i = id
    · subst hi
      split_ifs at hr with hnil
      · simp at hr
      · rw [AList.lookup_insert, Option.some.injEq] at hr
        subst hr
        refine ⟨(ht.stored i req hl).1, hnil, fun s hs => ?_⟩
        rw [owns_dropSymbol]
        exact ⟨(ht.stored i req hl).2.2 s ((hmem s).mp hs).1, ((hmem s).mp hs).2⟩
    · have hr' : t.subscriptions.lookup i = some r := by
        split_ifs at hr
        · rwa [AList.lookup_erase_ne hi] at hr
        · rwa [AList.lookup_insert_ne hi] at hr
      obtain ⟨h1, h2, h3⟩ := ht.stored i r hr'
      refine ⟨h1, h2, fun s hs => ?_⟩
      rw [owns_dropSymbol]
      refine ⟨h3 s hs, ?_⟩
      rintro rfl
      exact hi ((h3 s hs).unique hown)
  · intro i s h
    rw [owns_dropSymbol] at h
    obtain ⟨r, hr, hs⟩ := ht.owned i s h.1
    unfold dropSymbol
    dsimp only
    by_cases hi : i = id
    · subst hi
      rw [hl, Option.some.injEq] at hr
      subst hr
      have hs' : s ∈ (req.eraseSymbol x).2.symbols := (hmem s).mpr ⟨hs, h.2⟩
      rw [if_neg (List.ne_nil_of_mem hs')]
      exact ⟨_, AList.lookup_insert _, hs'⟩
    · refine ⟨r, ?_, hs⟩
      split_ifs
      · rwa [AList.lookup_erase_ne hi]
      · rwa [AList.lookup_insert_ne hi]

/-- A rejection takes the stored `(id, x)` out, or does nothing. -/
theorem tryProcessRejection_cases (ht : t.Wf) (id : ReqId) (x : Sym) :
    (¬ t.Owns id x ∧ t.tryProcessRejection id x = (false, t)) ∨
    (t.Owns id x ∧ (t.tryProcessRejection id x).1 = true ∧ (t.tryProcessRejection id x).2.Wf ∧
      ∀ i s, (t.tryProcessRejection id x).2.Owns i s ↔ t.Owns i s ∧ s ≠ x) := by
  unfold tryProcessRejection
  cases hl : t.subscriptions.lookup id with
  | none =>
    refine Or.inl ⟨fun h => ?_, rfl⟩
    obtain ⟨r, hr, -⟩ := ht.owned id x h
    rw [hl] at hr
    cases hr
  | some req =>
    have hid := (ht.stored id req hl).1
    dsimp only
    unfold Request.tryProcessRejection
    rw [if_pos hid]
    by_cases hx : x ∈ req.symbols
    · have h1 : (req.eraseSymbol x).1 = true := by simp [Request.eraseSymbol, hx]
      rw [if_pos h1]
      exact Or.inr ⟨(ht.stored id req hl).2.2 x hx, rfl, wf_dropSymbol ht hl hx, fun i s => owns_dropSymbol i s⟩
    · have h1 : ¬ (req.eraseSymbol x).1 = true := by simp [Request.eraseSymbol, hx]
      rw [if_neg h1]
      refine Or.inl ⟨fun h => hx ?_, rfl⟩
      obtain ⟨r, hr, hs⟩ := ht.owned id x h
      rw [hl, Option.some.injEq] at hr
      exact hr ▸ hs

theorem eraseSymbol_spec (ht : t.Wf) (x : Sym) : (t.eraseSymbol x).Wf ∧
    ∀ i s, (t.eraseSymbol x).Owns i s ↔ t.Owns i s ∧ s ≠ x := by
  unfold eraseSymbol
  cases ho : t.symbolOwner.lookup x with
  | none =>
    refine ⟨ht, fun i s => ⟨fun h => ⟨h, ?_⟩, And.left⟩⟩
    rintro rfl
    unfold Owns at h
    rw [ho] at h
    cases h
  | some id =>
    -- the owner stores the symbol
    obtain ⟨req, hl, hx⟩ := ht.owned id x ho
    have h1 : (req.eraseSymbol x).1 = true := by simp [Request.eraseSymbol, hx]
    simp only [hl, h1, if_true]
    exact ⟨wf_dropSymbol ht hl hx, fun i s => owns_dropSymbol i s⟩

end Removal

theorem foldl_eraseSymbol_spec {t : Table Sym P} (ht : t.Wf) (xs : List Sym) : (xs.foldl eraseSymbol t).Wf ∧
    ∀ i s, (xs.foldl eraseSymbol t).Owns i s ↔ t.Owns i s ∧ s ∉ xs := by
  induction xs generalizing t with
  | nil => exact ⟨ht, by simp⟩
  | cons x xs ih =>
    obtain ⟨h1, h2⟩ := eraseSymbol_spec ht x
    obtain ⟨h3, h4⟩ := ih h1
    refine ⟨h3, fun i s => ?_⟩
    rw [List.foldl_cons, h4, h2, List.mem_cons, not_or, and_assoc]

end Table

end Wirekrak.Protocol

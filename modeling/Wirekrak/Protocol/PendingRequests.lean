import Mathlib.Data.List.AList
import Mathlib.Data.Finset.Card

/-!
# Wirekrak.Protocol.PendingRequests — symbols awaiting an ACK, by request

`requests` is the `unordered_map` from a request id to the symbols it still waits for, `pendingSymbols` the
`unordered_set` of all of them.  A symbol id is interned from its symbol one to one, so the model uses the symbol
itself (`Sym`) for both.

The two containers are one relation, `Owns p id s`; `Wf` says so, and every operation has its lemma on `Owns`:
`owns_add`, `owns_remove`, `owns_removeSymbol`.
-/

namespace Wirekrak.Protocol

/-- `ctrl::req_id_t`. -/
abbrev ReqId := ℕ

structure PendingRequests (Sym : Type) where
  requests : AList (fun _ : ReqId => List Sym)
  pendingSymbols : Finset Sym

namespace PendingRequests

variable {Sym : Type}

def empty : PendingRequests Sym := ⟨∅, ∅⟩

/-- Request `id` waits for the symbol `s`. -/
def Owns (p : PendingRequests Sym) (id : ReqId) (s : Sym) : Prop :=
  ∃ vec, p.requests.lookup id = some vec ∧ s ∈ vec

/-- The two containers describe the same relation, in which a symbol has one owner. -/
structure Wf (p : PendingRequests Sym) : Prop where
  ne_nil : ∀ id vec, p.requests.lookup id = some vec → vec ≠ []
  nodup : ∀ id vec, p.requests.lookup id = some vec → vec.Nodup
  mem_iff : ∀ s, s ∈ p.pendingSymbols ↔ ∃ id, p.Owns id s
  owner_eq : ∀ id id' s, p.Owns id s → p.Owns id' s → id = id'

theorem Owns.mem {p : PendingRequests Sym} (hp : p.Wf) {id : ReqId} {s : Sym} (h : p.Owns id s) :
    s ∈ p.pendingSymbols := (hp.mem_iff s).mpr ⟨id, h⟩

@[simp] theorem not_owns_empty {id : ReqId} {s : Sym} : ¬ (empty : PendingRequests Sym).Owns id s := by
  rintro ⟨vec, h, -⟩
  simp [empty] at h

theorem wf_empty : (empty : PendingRequests Sym).Wf where
  ne_nil := fun id vec h => by simp [empty] at h
  nodup := fun id vec h => by simp [empty] at h
  mem_iff := fun s => by simp; simp [empty]
  owner_eq := fun id id' s h => absurd h not_owns_empty

theorem mem_getD_lookup {p : PendingRequests Sym} {id : ReqId} {s : Sym} :
    s ∈ (p.requests.lookup id).getD [] ↔ p.Owns id s := by
  unfold Owns
  cases h : p.requests.lookup id with
  | none => simp
  | some vec => simp

variable [DecidableEq Sym]

instance (p : PendingRequests Sym) (id : ReqId) (s : Sym) : Decidable (p.Owns id s) :=
  decidable_of_iff (s ∈ (p.requests.lookup id).getD []) mem_getD_lookup

/-- The loop body of `add`: a symbol already pending under any request is skipped. -/
def addSymbol (acc : List Sym × Finset Sym) (sid : Sym) : List Sym × Finset Sym :=
  if sid ∈ acc.2 then acc else (acc.1 ++ [sid], insert sid acc.2)

def add (p : PendingRequests Sym) (reqId : ReqId) (sids : List Sym) : PendingRequests Sym :=
  let r := sids.foldl addSymbol ((p.requests.lookup reqId).getD [], p.pendingSymbols)
  { requests := if r.1 = [] then p.requests.erase reqId else p.requests.insert reqId r.1
    pendingSymbols := r.2 }

/-- What both `remove`s do once the request and the symbol are found. -/
def dropFrom (p : PendingRequests Sym) (reqId : ReqId) (vec : List Sym) (sid : Sym) : PendingRequests Sym :=
  { requests := if vec.erase sid = [] then p.requests.erase reqId else p.requests.insert reqId (vec.erase sid)
    pendingSymbols := p.pendingSymbols.erase sid }

/-- `remove(req_id, sid)`. -/
def remove (p : PendingRequests Sym) (reqId : ReqId) (sid : Sym) : Bool × PendingRequests Sym :=
  match p.requests.lookup reqId with
  | none => (false, p)
  | some vec => if sid ∈ vec then (true, p.dropFrom reqId vec sid) else (false, p)

/-- `remove(sid)`: the owner is searched for. -/
def removeSymbol (p : PendingRequests Sym) (sid : Sym) : Bool × PendingRequests Sym :=
  if sid ∈ p.pendingSymbols then
    match p.requests.entries.find? (fun e => decide (sid ∈ e.2)) with
    | some e => (true, p.dropFrom e.1 e.2 sid)
    | none => (false, p)   -- `LCR_UNREACHABLE`
  else (false, p)

def contains (p : PendingRequests Sym) (sid : Sym) : Bool := decide (sid ∈ p.pendingSymbols)

def isEmpty (p : PendingRequests Sym) : Bool := p.requests.entries.isEmpty

def count (p : PendingRequests Sym) : ℕ := p.requests.entries.length

def symbolCount (p : PendingRequests Sym) : ℕ := p.pendingSymbols.card

@[simp] theorem contains_iff {p : PendingRequests Sym} {s : Sym} : p.contains s = true ↔ s ∈ p.pendingSymbols := by
  simp [contains]

/-! ## `add` -/

theorem foldl_addSymbol_fst (sids : List Sym) : ∀ (vec : List Sym) (P : Finset Sym) (s : Sym),
    s ∈ (sids.foldl addSymbol (vec, P)).1 ↔ s ∈ vec ∨ (s ∈ sids ∧ s ∉ P) := by
  induction sids with
  | nil => intro vec P s; simp
  | cons x sids ih =>
    intro vec P s
    rw [List.foldl_cons, addSymbol]
    by_cases hx : x ∈ P
    · simp only [hx, if_true, ih, List.mem_cons]
      constructor
      · rintro (h | ⟨h1, h2⟩)
        · exact Or.inl h
        · exact Or.inr ⟨Or.inr h1, h2⟩
      · rintro (h | ⟨rfl | h1, h2⟩)
        · exact Or.inl h
        · exact absurd hx h2
        · exact Or.inr ⟨h1, h2⟩
    · simp only [hx, if_false, ih, List.mem_append, List.mem_cons, Finset.mem_insert, not_or]
      by_cases hs : s = x
      · subst hs; simp [hx]
      · simp [hs]

theorem addSymbol_snd (acc : List Sym × Finset Sym) (x : Sym) : (addSymbol acc x).2 = insert x acc.2 := by
  unfold addSymbol
  split_ifs with hx
  · exact (Finset.insert_eq_of_mem hx).symm
  · rfl

theorem foldl_addSymbol_snd (sids : List Sym) : ∀ (vec : List Sym) (P : Finset Sym) (s : Sym),
    s ∈ (sids.foldl addSymbol (vec, P)).2 ↔ s ∈ P ∨ s ∈ sids := by
  induction sids with
  | nil => intro vec P s; simp
  | cons x sids ih =>
    intro vec P s
    rw [List.foldl_cons, ← Prod.mk.eta (p := addSymbol (vec, P) x), ih, addSymbol_snd, Finset.mem_insert, List.mem_cons]
    tauto

theorem foldl_addSymbol_nodup (sids : List Sym) : ∀ (vec : List Sym) (P : Finset Sym), vec.Nodup →
    (∀ s ∈ vec, s ∈ P) → (sids.foldl addSymbol (vec, P)).1.Nodup := by
  induction sids with
  | nil => intro vec P h _; simpa using h
  | cons x sids ih =>
    intro vec P hv hP
    rw [List.foldl_cons, addSymbol]
    by_cases hx : x ∈ P
    · simp only [hx, if_true]
      exact ih vec P hv hP
    · simp only [hx, if_false]
      refine ih _ _ ?_ ?_
      · rw [List.nodup_append]
        refine ⟨hv, List.nodup_singleton x, fun a ha b hb => ?_⟩
        rintro rfl
        exact hx (List.mem_singleton.mp hb ▸ hP a ha)
      · intro s hs
        rcases List.mem_append.mp hs with h | h
        · exact Finset.mem_insert_of_mem (hP s h)
        · exact Finset.mem_insert.mpr (Or.inl (List.mem_singleton.mp h))

/-- Request `id` becomes the owner of the symbols that nothing was waiting for. -/
theorem owns_add {p : PendingRequests Sym} {id i : ReqId} {sids : List Sym} {s : Sym} :
    (p.add id sids).Owns i s ↔ p.Owns i s ∨ (i = id ∧ s ∈ sids ∧ s ∉ p.pendingSymbols) := by
  have hmem := foldl_addSymbol_fst sids ((p.requests.lookup id).getD []) p.pendingSymbols
  set r := sids.foldl addSymbol ((p.requests.lookup id).getD [], p.pendingSymbols) with hr
  have hadd : p.add id sids =
      ⟨if r.1 = [] then p.requests.erase id else p.requests.insert id r.1, r.2⟩ := rfl
  by_cases hi : i = id
  · subst hi
    rw [← mem_getD_lookup, hadd]
    dsimp only
    rw [← mem_getD_lookup]
    have hs := hmem s
    by_cases hnil : r.1 = []
    · rw [hnil] at hs
      simp only [List.not_mem_nil, false_iff] at hs
      simp only [if_pos hnil, AList.lookup_erase, Option.getD_none, List.not_mem_nil, true_and, false_iff]
      exact hs
    · simp only [if_neg hnil, AList.lookup_insert, Option.getD_some, true_and]
      exact hs
  · have hkeep : (p.add id sids).requests.lookup i = p.requests.lookup i := by
      rw [hadd]
      dsimp only
      split_ifs with hnil
      · exact AList.lookup_erase_ne hi
      · exact AList.lookup_insert_ne hi
    simp [Owns, hkeep, hi]

theorem mem_add {p : PendingRequests Sym} {id : ReqId} {sids : List Sym} {s : Sym} :
    s ∈ (p.add id sids).pendingSymbols ↔ s ∈ p.pendingSymbols ∨ s ∈ sids :=
  foldl_addSymbol_snd sids _ _ s

theorem wf_add {p : PendingRequests Sym} (hp : p.Wf) (id : ReqId) (sids : List Sym) : (p.add id sids).Wf := by
  have hother : ∀ i, i ≠ id → (p.add id sids).requests.lookup i = p.requests.lookup i := by
    intro i hi
    unfold add
    dsimp only
    split_ifs
    · exact AList.lookup_erase_ne hi
    · exact AList.lookup_insert_ne hi
  have hself : ∀ vec, (p.add id sids).requests.lookup id = some vec → vec ≠ [] ∧ vec.Nodup := by
    intro vec h
    unfold add at h
    dsimp only at h
    split_ifs at h with hnil
    · simp at h
    · simp only [AList.lookup_insert, Option.some.injEq] at h
      subst h
      refine ⟨hnil, foldl_addSymbol_nodup sids _ _ ?_ ?_⟩
      · cases h0 : p.requests.lookup id with
        | none => simp
        | some v => simpa using hp.nodup id v h0
      · intro s hs
        exact Owns.mem hp (mem_getD_lookup.mp hs)
  constructor
  · intro i vec h
    by_cases hi : i = id
    · subst hi; exact (hself vec h).1
    · exact hp.ne_nil i vec (hother i hi ▸ h)
  · intro i vec h
    by_cases hi : i = id
    · subst hi; exact (hself vec h).2
    · exact hp.nodup i vec (hother i hi ▸ h)
  · intro s
    rw [mem_add, hp.mem_iff]
    simp only [owns_add]
    constructor
    · rintro (⟨i, h⟩ | h)
      · exact ⟨i, Or.inl h⟩
      · by_cases hs : s ∈ p.pendingSymbols
        · obtain ⟨i, hi⟩ := (hp.mem_iff s).mp hs
          exact ⟨i, Or.inl hi⟩
        · exact ⟨id, Or.inr ⟨rfl, h, hs⟩⟩
    · rintro ⟨i, h | ⟨-, h, -⟩⟩
      · exact Or.inl ⟨i, h⟩
      · exact Or.inr h
  · intro i i' s h h'
    rw [owns_add] at h h'
    rcases h with h | ⟨rfl, -, hn⟩ <;> rcases h' with h' | ⟨rfl, -, hn'⟩
    · exact hp.owner_eq i i' s h h'
    · exact absurd (h.mem hp) hn'
    · exact absurd (h'.mem hp) hn
    · rfl

/-! ## Removal -/

theorem owns_dropFrom {p : PendingRequests Sym} (hp : p.Wf) {id i : ReqId} {vec : List Sym} {s x : Sym}
    (hv : p.requests.lookup id = some vec) (hx : x ∈ vec) :
    (p.dropFrom id vec x).Owns i s ↔ p.Owns i s ∧ s ≠ x := by
  have hown : p.Owns id x := ⟨vec, hv, hx⟩
  by_cases hi : i = id
  · subst hi
    rw [← mem_getD_lookup, ← mem_getD_lookup, hv]
    have hmem : s ∈ vec.erase x ↔ s ∈ vec ∧ s ≠ x := by
      rw [(hp.nodup i vec hv).mem_erase_iff]; tauto
    unfold dropFrom
    dsimp only
    split_ifs with hnil
    · rw [hnil] at hmem
      simpa using hmem
    · simpa using hmem
  · have hkeep : (p.dropFrom id vec x).requests.lookup i = p.requests.lookup i := by
      unfold dropFrom
      dsimp only
      split_ifs
      · exact AList.lookup_erase_ne hi
      · exact AList.lookup_insert_ne hi
    have hne : p.Owns i s → s ≠ x := by
      rintro h rfl
      exact hi (hp.owner_eq i id s h hown)
    constructor
    · intro h
      have h' : p.Owns i s := by simpa [Owns, hkeep] using h
      exact ⟨h', hne h'⟩
    · rintro ⟨h, -⟩
      simpa [Owns, hkeep] using h

theorem wf_dropFrom {p : PendingRequests Sym} (hp : p.Wf) {id : ReqId} {vec : List Sym} {x : Sym}
    (hv : p.requests.lookup id = some vec) (hx : x ∈ vec) : (p.dropFrom id vec x).Wf := by
  have hlook : ∀ i w, (p.dropFrom id vec x).requests.lookup i = some w →
      (p.requests.lookup i = some w) ∨ (w = vec.erase x ∧ w ≠ []) := by
    intro i w h
    unfold dropFrom at h
    dsimp only at h
    by_cases hi : i = id
    · subst hi
      split_ifs at h with hnil
      · simp at h
      · simp only [AList.lookup_insert, Option.some.injEq] at h
        exact Or.inr ⟨h.symm, h ▸ hnil⟩
    · split_ifs at h
      · exact Or.inl (AList.lookup_erase_ne hi ▸ h)
      · exact Or.inl (AList.lookup_insert_ne hi ▸ h)
  constructor
  · intro i w h
    rcases hlook i w h with h | ⟨-, h⟩
    · exact hp.ne_nil i w h
    · exact h
  · intro i w h
    rcases hlook i w h with h | ⟨rfl, -⟩
    · exact hp.nodup i w h
    · exact (hp.nodup id vec hv).erase x
  · intro s
    simp only [owns_dropFrom hp hv hx]
    show s ∈ p.pendingSymbols.erase x ↔ _
    rw [Finset.mem_erase, hp.mem_iff]
    constructor
    · rintro ⟨hne, i, h⟩; exact ⟨i, h, hne⟩
    · rintro ⟨i, h, hne⟩; exact ⟨hne, i, h⟩
  · intro i i' s h h'
    rw [owns_dropFrom hp hv hx] at h h'
    exact hp.owner_eq i i' s h.1 h'.1

/-- What `remove(req_id, sid)` does: nothing unless `id` owns `x`. -/
theorem remove_cases {p : PendingRequests Sym} (hp : p.Wf) (id : ReqId) (x : Sym) :
    (¬ p.Owns id x ∧ p.remove id x = (false, p)) ∨
    (p.Owns id x ∧ (p.remove id x).1 = true ∧ (p.remove id x).2.Wf ∧
      ∀ i s, (p.remove id x).2.Owns i s ↔ p.Owns i s ∧ s ≠ x) := by
  unfold remove
  cases hv : p.requests.lookup id with
  | none => exact Or.inl ⟨by rintro ⟨vec, h, -⟩; simp [hv] at h, rfl⟩
  | some vec =>
    by_cases hx : x ∈ vec
    · refine Or.inr ⟨⟨vec, hv, hx⟩, ?_⟩
      simp only [hx, if_true, true_and]
      exact ⟨wf_dropFrom hp hv hx, fun i s => owns_dropFrom hp hv hx⟩
    · refine Or.inl ⟨?_, by simp [hx]⟩
      rintro ⟨w, h, hw⟩
      rw [hv, Option.some.injEq] at h
      exact hx (h ▸ hw)

/-- What `remove(sid)` does: its owner, which exists, gives the symbol up. -/
theorem removeSymbol_spec {p : PendingRequests Sym} (hp : p.Wf) {x : Sym} (hx : x ∈ p.pendingSymbols) :
    (p.removeSymbol x).1 = true ∧ (p.removeSymbol x).2.Wf ∧
      ∀ i s, (p.removeSymbol x).2.Owns i s ↔ p.Owns i s ∧ s ≠ x := by
  obtain ⟨id, vec, hv, hmem⟩ := (hp.mem_iff x).mp hx
  unfold removeSymbol
  rw [if_pos hx]
  cases hf : p.requests.entries.find? (fun e => decide (x ∈ e.2)) with
  | none =>
    -- the owner's entry is in the list, so the search cannot fail
    have hin : (⟨id, vec⟩ : Sigma fun _ : ReqId => List Sym) ∈ p.requests.entries :=
      AList.mem_lookup_iff.mp hv
    have := List.find?_eq_none.mp hf _ hin
    simp [hmem] at this
  | some e =>
    have hxe : x ∈ e.2 := by simpa using List.find?_some hf
    have hve : p.requests.lookup e.1 = some e.2 := AList.mem_lookup_iff.mpr (List.mem_of_find?_eq_some hf)
    exact ⟨rfl, wf_dropFrom hp hve hxe, fun i s => owns_dropFrom hp hve hxe⟩

end PendingRequests

end Wirekrak.Protocol

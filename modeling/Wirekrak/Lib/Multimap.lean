import Mathlib.Data.List.AList

/-!
# Wirekrak.Lib.Multimap — hash maps whose values are vectors

`Multimap K V` is a map from keys to lists of values.  A missing key and an empty list are told apart by the iteration,
not by `get`.  The order in which a hash map is iterated is not specified: `Iteration` stands for any order.

* `get_push`, `get_erase`, `get_clearValues`: what each operation does to the list of a key.
* `flatMap_arrange`: an iteration meets a key at most once, with its list, so that the order does not matter to it.
-/

namespace Wirekrak.Lib

variable {K V : Type*}

/-- An order in which the entries of a map may be visited. -/
structure Iteration (α : Type*) where
  arrange : List α → List α
  perm : ∀ l, (arrange l).Perm l

def Iteration.inOrder {α : Type*} : Iteration α := ⟨id, fun _ => List.Perm.refl _⟩

abbrev Multimap (K V : Type*) := AList (fun _ : K => List V)

namespace Multimap

/-- Every list is emptied; the keys stay. -/
def clearValues (m : Multimap K V) : Multimap K V :=
  ⟨m.entries.map (Sigma.map id fun _ _ => []), m.nodupKeys.map₂ _ _⟩

variable [DecidableEq K]

def get (m : Multimap K V) (k : K) : List V := (m.lookup k).getD []

/-- `map[k].push_back(v)`. -/
def push (m : Multimap K V) (k : K) (v : V) : Multimap K V := AList.insert k (m.get k ++ [v]) m

@[simp] theorem get_empty (k : K) : get (∅ : Multimap K V) k = [] := rfl

theorem get_push (m : Multimap K V) (k k' : K) (v : V) :
    (m.push k v).get k' = if k' = k then m.get k ++ [v] else m.get k' := by
  unfold push
  split
  · next h =>
    subst h
    rw [get, AList.lookup_insert, Option.getD_some]
  · next h => rw [get, AList.lookup_insert_ne h, get]

theorem get_erase (m : Multimap K V) (k k' : K) :
    get (AList.erase k m) k' = if k' = k then [] else m.get k' := by
  split
  · next h =>
    subst h
    rw [get, AList.lookup_erase, Option.getD_none]
  · next h => rw [get, AList.lookup_erase_ne h, get]

@[simp] theorem get_clearValues (m : Multimap K V) (k : K) : m.clearValues.get k = [] := by
  unfold get
  cases h : m.clearValues.lookup k with
  | none => rfl
  | some vs =>
    have hmem : (⟨k, vs⟩ : Σ _ : K, List V) ∈ m.clearValues.entries := List.of_mem_dlookup h
    obtain ⟨e, -, he⟩ := List.mem_map.mp hmem
    cases he
    rfl

/-- Values pushed one after the other, each under a key of its own. -/
theorem get_foldl_push (key : V → K) (vs : List V) (k : K) : ∀ m : Multimap K V,
    (vs.foldl (fun m v => m.push (key v) v) m).get k = m.get k ++ vs.filter (fun v => key v = k) := by
  induction vs with
  | nil =>
    intro m
    rw [List.foldl_nil, List.filter_nil, List.append_nil]
  | cons v vs ih =>
    intro m
    rw [List.foldl_cons, ih, get_push, List.filter_cons]
    by_cases h : key v = k
    · simp [h]
    · simp [h, Ne.symm h]

/-- The entry of a key holds its list. -/
theorem mem_entries_iff {m : Multimap K V} {k : K} {vs : List V} :
    (⟨k, vs⟩ : Σ _ : K, List V) ∈ m.entries ↔ k ∈ m ∧ vs = m.get k := by
  rw [← AList.mem_lookup_iff, Option.mem_def]
  constructor
  · intro h
    exact ⟨AList.lookup_isSome.mp (by rw [h]; rfl), by rw [get, h, Option.getD_some]⟩
  · rintro ⟨hk, rfl⟩
    obtain ⟨vs, hvs⟩ := Option.isSome_iff_exists.mp (AList.lookup_isSome.mpr hk)
    rw [get, hvs, Option.getD_some]

theorem mem_push {m : Multimap K V} {k k' : K} {v : V} : k' ∈ m.push k v ↔ k' = k ∨ k' ∈ m := AList.mem_insert m

omit [DecidableEq K] in
@[simp] theorem mem_clearValues {m : Multimap K V} {k : K} : k ∈ m.clearValues ↔ k ∈ m := by
  simp only [AList.mem_keys, AList.keys, clearValues, List.keys, List.map_map]
  rfl

/-- The keys are those that were there and those of the values. -/
theorem mem_foldl_push (key : V → K) (vs : List V) (k : K) : ∀ m : Multimap K V,
    k ∈ vs.foldl (fun m v => m.push (key v) v) m ↔ k ∈ vs.map key ∨ k ∈ m := by
  induction vs with
  | nil => simp
  | cons v vs ih =>
    intro m
    rw [List.foldl_cons, ih, mem_push, List.map_cons, List.mem_cons]
    tauto

/-- One value pushed under each of several keys. -/
theorem get_foldl_push_const (v : V) (ks : List K) (k : K) : ∀ m : Multimap K V,
    (ks.foldl (fun m k' => m.push k' v) m).get k = m.get k ++ List.replicate (ks.count k) v := by
  induction ks with
  | nil =>
    intro m
    rw [List.foldl_nil, List.count_nil, List.replicate_zero, List.append_nil]
  | cons k' ks ih =>
    intro m
    rw [List.foldl_cons, ih, get_push, List.count_cons]
    by_cases h : k' = k
    · simp [h, List.replicate_succ]
    · simp [h, Ne.symm h]

theorem get_foldl_erase (ks : List K) (k : K) : ∀ m : Multimap K V,
    get (ks.foldl (fun m k' => AList.erase k' m) m) k = if k ∈ ks then [] else m.get k := by
  induction ks with
  | nil =>
    intro m
    rw [List.foldl_nil, if_neg List.not_mem_nil]
  | cons k' ks ih =>
    intro m
    rw [List.foldl_cons, ih, get_erase]
    by_cases h : k = k'
    · simp [h]
    · simp [h]

/-- An iteration meets a key at most once. -/
theorem lookupAll_arrange (m : Multimap K V) (it : Iteration (Σ _ : K, List V)) (k : K) :
    (it.arrange m.entries).lookupAll k = (m.lookup k).toList := by
  have hperm := it.perm m.entries
  have hnodup := (List.perm_nodupKeys hperm).mpr m.nodupKeys
  rw [List.perm_lookupAll k hnodup hperm, List.lookupAll_eq_dlookup k m.nodupKeys]
  rfl

theorem flatMap_eq_lookupAll {β : Type*} {f : (Σ _ : K, List V) → List β} {k : K}
    (hother : ∀ e, e.1 ≠ k → f e = []) : ∀ l : List (Σ _ : K, List V),
    l.flatMap f = (l.lookupAll k).flatMap fun vs => f ⟨k, vs⟩ := by
  intro l
  induction l with
  | nil => rfl
  | cons e l ih =>
    obtain ⟨k', vs⟩ := e
    rw [List.flatMap_cons, ih]
    by_cases h : k' = k
    · subst h
      rw [List.lookupAll_cons_eq, List.flatMap_cons]
    · rw [hother ⟨k', vs⟩ h, List.nil_append, List.lookupAll_cons_ne _ _ (Ne.symm h)]

/-- What an iteration yields for one key is what its list yields, in whatever order the entries are visited. -/
theorem flatMap_arrange {β : Type*} (m : Multimap K V) (it : Iteration (Σ _ : K, List V)) {k : K}
    {f : (Σ _ : K, List V) → List β} (hother : ∀ e, e.1 ≠ k → f e = []) (hnil : f ⟨k, []⟩ = []) :
    (it.arrange m.entries).flatMap f = f ⟨k, m.get k⟩ := by
  rw [flatMap_eq_lookupAll hother, lookupAll_arrange, get]
  cases m.lookup k with
  | none => exact hnil.symm
  | some vs => exact List.append_nil _

end Multimap

end Wirekrak.Lib

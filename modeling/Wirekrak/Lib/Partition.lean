import Mathlib.Data.List.AList
import Mathlib.Data.Finset.Card

/-!
# Wirekrak.Lib.Partition — a map that keeps every item under one key

`m` maps keys to records, `f` reads the items of a record.  `items f m` are all of them, record by record.

* `nodup_items_iff`: no item occurs twice iff no record repeats one and no two keys share one.
* `find?_owner`: a search through the entries, in whatever order, finds the key an item is under.
-/

namespace Wirekrak.Lib

variable {K V A : Type*}

def items (f : V → List A) (m : AList fun _ : K => V) : List A := m.entries.flatMap fun e => f e.2

variable [DecidableEq K] {f : V → List A} {m : AList fun _ : K => V} {x : A}

theorem mem_items : x ∈ items f m ↔ ∃ k v, m.lookup k = some v ∧ x ∈ f v := by
  unfold items
  rw [List.mem_flatMap]
  constructor
  · rintro ⟨e, he, hx⟩
    exact ⟨e.1, e.2, AList.mem_lookup_iff.mpr he, hx⟩
  · rintro ⟨k, v, hv, hx⟩
    exact ⟨⟨k, v⟩, AList.mem_lookup_iff.mp hv, hx⟩

/-- Every item is under one key. -/
def Disjointed (f : V → List A) (m : AList fun _ : K => V) : Prop :=
  ∀ k k' v v' x, m.lookup k = some v → m.lookup k' = some v' → x ∈ f v → x ∈ f v' → k = k'

theorem nodup_items_iff : (items f m).Nodup ↔ (∀ k v, m.lookup k = some v → (f v).Nodup) ∧ Disjointed f m := by
  unfold items
  rw [List.nodup_flatMap]
  refine and_congr ⟨fun h k v hv => h ⟨k, v⟩ (AList.mem_lookup_iff.mp hv), fun h e he => ?_⟩ ⟨fun h => ?_, fun h => ?_⟩
  · exact h e.1 e.2 (AList.mem_lookup_iff.mpr he)
  · intro k k' v v' x hv hv' hx hx'
    by_contra hne
    have : Std.Symm (Function.onFun List.Disjoint fun e : Σ _ : K, V => f e.2) := ⟨fun _ _ h => h.symm⟩
    have hd := h.forall (AList.mem_lookup_iff.mp hv) (AList.mem_lookup_iff.mp hv')
      (fun he => hne (congrArg Sigma.fst he))
    exact hd hx hx'
  · refine (List.nodupKeys_iff_pairwise.mp m.nodupKeys).imp_of_mem fun {e e'} he he' hne x hx hx' => ?_
    exact hne (h e.1 e'.1 e.2 e'.2 x (AList.mem_lookup_iff.mpr he) (AList.mem_lookup_iff.mpr he') hx hx')

theorem find?_owner [DecidableEq A] (hm : Disjointed f m) {k : K} {v : V} (hv : m.lookup k = some v) (hx : x ∈ f v)
    {l : List (Σ _ : K, V)} (hl : l.Perm m.entries) : l.find? (fun e => decide (x ∈ f e.2)) = some ⟨k, v⟩ := by
  cases hf : l.find? (fun e => decide (x ∈ f e.2)) with
  | none =>
    have := List.find?_eq_none.mp hf _ (hl.mem_iff.mpr (AList.mem_lookup_iff.mp hv))
    simp [hx] at this
  | some e =>
    have he : m.lookup e.1 = some e.2 := AList.mem_lookup_iff.mpr (hl.mem_iff.mp (List.mem_of_find?_eq_some hf))
    have hk : e.1 = k := hm _ _ _ _ x he hv (by simpa using List.find?_some hf) hx
    obtain ⟨k', v'⟩ := e
    subst hk
    rw [hv, Option.some.injEq] at he
    rw [he]

end Wirekrak.Lib

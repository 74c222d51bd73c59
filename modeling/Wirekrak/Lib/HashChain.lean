import Mathlib.Data.Set.Function

/-!
# Wirekrak.Lib.HashChain — a list bound by its last hash

Every item is hashed with the hash before it as the seed.  `links` lists what is hashed on the way; where these inputs
do not collide, the last hash binds all the items and the first seed (`foldl_binding`).
-/

namespace Wirekrak.Lib

variable {α σ : Type*} {h : α → σ → σ}

/-- The inputs of the hash along the chain. -/
def links (h : α → σ → σ) : σ → List α → List (α × σ)
  | _, [] => []
  | s, a :: l => (a, s) :: links h (h a s) l

theorem foldl_binding {l l' : List α} {s s' : σ}
    (hinj : Set.InjOn (fun p => h p.1 p.2) {p | p ∈ links h s l ∨ p ∈ links h s' l'}) (hlen : l.length = l'.length)
    (heq : l.foldl (fun s a => h a s) s = l'.foldl (fun s a => h a s) s') : l = l' ∧ s = s' := by
  induction l generalizing s s' l' with
  | nil =>
    cases l' with
    | nil => exact ⟨rfl, heq⟩
    | cons a' l' => cases hlen
  | cons a l ih =>
    cases l' with
    | nil => cases hlen
    | cons a' l' =>
      -- the rest binds the hash that its seed is, and this one binds the item
      have hrest : Set.InjOn (fun p => h p.1 p.2) {p | p ∈ links h (h a s) l ∨ p ∈ links h (h a' s') l'} :=
        hinj.mono fun p hp => hp.imp (List.mem_cons_of_mem _) (List.mem_cons_of_mem _)
      obtain ⟨rfl, hseed⟩ := ih hrest (Nat.succ.inj hlen) heq
      have hpair : (a, s) = (a', s') := hinj (.inl List.mem_cons_self) (.inr List.mem_cons_self) hseed
      cases hpair
      exact ⟨rfl, rfl⟩

end Wirekrak.Lib

import Wirekrak.Protocol.Lite

/-!
# Wirekrak.Protocol.Partitioner — the views of a response, after any number of earlier ones

A partitioner cuts a response into one view per symbol.  Its buckets outlive the call: `reset` empties them, fills them
from the response and makes a view of each, the empty ones included.

* `Traits`: how a type of response is taken apart; `trades` is the one of the trade responses.
* `Partitioner.after`: the state after a sequence of resets, each with an order in which the hash map is iterated.
* `mem_buckets_after`: a symbol never leaves the buckets; `mem_views`: there is a view for each of them.
* `IsPartition`: what the views of a response are to be; `views_after_iff`: when they are.
-/

namespace Wirekrak.Protocol

open Wirekrak.Lib

/-- `response::traits`. -/
structure Traits (R M : Type) where
  messages : R → List M
  symbolOf : M → Symbol
  payloadType : R → PayloadType

/-- `schema::trade::ResponseView`. -/
structure ResponseView (M : Type) where
  symbol : Symbol
  type : PayloadType
  messages : List M
  deriving DecidableEq

structure Partitioner (M : Type) where
  buckets : Multimap Symbol M := ∅
  views : List (ResponseView M) := []

variable {R M : Type}

namespace Partitioner

/-- `classify_`, on the buckets. -/
def classify (T : Traits R M) (buckets : Multimap Symbol M) (r : R) : Multimap Symbol M :=
  (T.messages r).foldl (fun m msg => m.push (T.symbolOf msg) msg) buckets.clearValues

def reset (T : Traits R M) (p : Partitioner M) (it : Iteration (Σ _ : Symbol, List M)) (r : R) : Partitioner M where
  buckets := classify T p.buckets r
  views := (it.arrange (classify T p.buckets r).entries).map fun e => ⟨e.1, T.payloadType r, e.2⟩

/-- The state after a sequence of resets. -/
def after (T : Traits R M) (calls : List (Iteration (Σ _ : Symbol, List M) × R)) : Partitioner M :=
  calls.foldl (fun p call => p.reset T call.1 call.2) {}

end Partitioner

/-- The partition of trade responses. -/
def Traits.trades (D : Type) : Traits (TradeResponse D) (Trade D) where
  messages r := r.trades
  symbolOf t := t.symbol
  payloadType r := r.type

/-- It is the one that the client with callbacks uses. -/
theorem classify_trades {D : Type} (buckets : Multimap Symbol (Trade D)) (r : TradeResponse D) :
    Partitioner.classify (.trades D) buckets r = classify buckets r := rfl

/-! ## What the views are -/

/-- The symbols of a response. -/
def Traits.symbols (T : Traits R M) (r : R) : List Symbol := (T.messages r).map T.symbolOf

/-- One view per symbol of the response, with its messages in their order, and the type of the response. -/
structure IsPartition (T : Traits R M) (r : R) (views : List (ResponseView M)) : Prop where
  nodup : (views.map ResponseView.symbol).Nodup
  mem_iff : ∀ v, v ∈ views ↔ v.symbol ∈ T.symbols r ∧ v.type = T.payloadType r ∧
    v.messages = (T.messages r).filter fun msg => T.symbolOf msg = v.symbol

namespace IsPartition

variable {T : Traits R M} {r : R} {views : List (ResponseView M)} (h : IsPartition T r views)

include h

theorem messages_ne_nil {v : ResponseView M} (hv : v ∈ views) : v.messages ≠ [] := by
  obtain ⟨hsymbol, -, hmessages⟩ := (h.mem_iff v).mp hv
  obtain ⟨msg, hmsg, heq⟩ := List.mem_map.mp hsymbol
  rw [hmessages]
  exact List.ne_nil_of_mem (List.mem_filter.mpr ⟨hmsg, by simpa using heq⟩)

/-- Every message is in one view. -/
theorem existsUnique_view {msg : M} (hmsg : msg ∈ T.messages r) : ∃! v, v ∈ views ∧ msg ∈ v.messages := by
  refine ⟨⟨T.symbolOf msg, T.payloadType r, (T.messages r).filter fun m => T.symbolOf m = T.symbolOf msg⟩,
    ⟨(h.mem_iff _).mpr ⟨List.mem_map_of_mem hmsg, rfl, rfl⟩, List.mem_filter.mpr ⟨hmsg, by simp⟩⟩, ?_⟩
  rintro ⟨s, type, messages⟩ ⟨hv, hin⟩
  obtain ⟨-, htype, hmessages⟩ := (h.mem_iff _).mp hv
  dsimp only at htype hmessages hin
  rw [hmessages] at hin
  have hs : T.symbolOf msg = s := by simpa using (List.mem_filter.mp hin).2
  rw [htype, hmessages, hs]

end IsPartition

/-! ## The views of a history -/

namespace Partitioner

variable (T : Traits R M)

theorem get_classify (buckets : Multimap Symbol M) (r : R) (s : Symbol) :
    (classify T buckets r).get s = (T.messages r).filter fun msg => T.symbolOf msg = s := by
  refine (Multimap.get_foldl_push T.symbolOf (T.messages r) s buckets.clearValues).trans ?_
  rw [Multimap.get_clearValues, List.nil_append]

theorem mem_classify {buckets : Multimap Symbol M} {r : R} {s : Symbol} :
    s ∈ classify T buckets r ↔ s ∈ T.symbols r ∨ s ∈ buckets :=
  (Multimap.mem_foldl_push T.symbolOf (T.messages r) s buckets.clearValues).trans (by simp [Traits.symbols])

/-- A symbol never leaves the buckets. -/
theorem mem_buckets_after {calls : List (Iteration (Σ _ : Symbol, List M) × R)} {s : Symbol} :
    s ∈ (after T calls).buckets ↔ ∃ call ∈ calls, s ∈ T.symbols call.2 := by
  induction calls using List.reverseRecOn with
  | nil => simp [after]
  | append_singleton calls call ih =>
    have hstep : after T (calls ++ [call]) = (after T calls).reset T call.1 call.2 := by
      rw [after, List.foldl_append]
      rfl
    rw [hstep, reset, mem_classify, ih]
    simp [or_comm, or_and_right, exists_or]

/-- There is a view for every bucket. -/
theorem mem_views {p : Partitioner M} {it : Iteration (Σ _ : Symbol, List M)} {r : R} {v : ResponseView M} :
    v ∈ (p.reset T it r).views ↔ v.symbol ∈ classify T p.buckets r ∧ v.type = T.payloadType r ∧
      v.messages = (T.messages r).filter fun msg => T.symbolOf msg = v.symbol := by
  obtain ⟨s, type, messages⟩ := v
  simp only [reset, List.mem_map, (it.perm _).mem_iff]
  constructor
  · rintro ⟨⟨s', ms⟩, hmem, he⟩
    obtain ⟨hs, rfl⟩ := Multimap.mem_entries_iff.mp hmem
    cases he
    exact ⟨hs, rfl, get_classify T p.buckets r s'⟩
  · rintro ⟨hs, htype, hmessages⟩
    exact ⟨⟨s, messages⟩, Multimap.mem_entries_iff.mpr ⟨hs, by rw [get_classify, hmessages]⟩, by rw [htype]⟩

theorem nodup_views (p : Partitioner M) (it : Iteration (Σ _ : Symbol, List M)) (r : R) :
    ((p.reset T it r).views.map ResponseView.symbol).Nodup := by
  have hkeys : ((it.arrange (classify T p.buckets r).entries).map Sigma.fst).Nodup :=
    (List.perm_nodupKeys (it.perm _)).mpr (classify T p.buckets r).nodupKeys
  simpa [reset, List.map_map, Function.comp_def] using hkeys

/-- **After any history, the views of a response are its partition just when every symbol seen before occurs in it.** -/
theorem views_after_iff (calls : List (Iteration (Σ _ : Symbol, List M) × R)) (it : Iteration (Σ _ : Symbol, List M))
    (r : R) :
    (IsPartition T r ((after T calls).reset T it r).views ∧
      ∀ v, v ∈ ((after T calls).reset T it r).views ↔ v ∈ (reset T {} it r).views) ↔
    ∀ call ∈ calls, ∀ s ∈ T.symbols call.2, s ∈ T.symbols r := by
  constructor
  · rintro ⟨hpart, -⟩ call hcall s hs
    have hbucket : s ∈ classify T (after T calls).buckets r :=
      (mem_classify T).mpr (Or.inr ((mem_buckets_after T).mpr ⟨call, hcall, hs⟩))
    have hview : (⟨s, T.payloadType r, (T.messages r).filter fun msg => T.symbolOf msg = s⟩ : ResponseView M) ∈
        ((after T calls).reset T it r).views := (mem_views T).mpr ⟨hbucket, rfl, rfl⟩
    exact ((hpart.mem_iff _).mp hview).1
  · intro hseen
    have hkeys : ∀ s, s ∈ classify T (after T calls).buckets r ↔ s ∈ T.symbols r := by
      intro s
      rw [mem_classify, mem_buckets_after]
      exact or_iff_left_of_imp fun ⟨call, hcall, hs⟩ => hseen call hcall s hs
    have hfresh : ∀ s, s ∈ classify T ∅ r ↔ s ∈ T.symbols r := by
      intro s
      rw [mem_classify]
      exact or_iff_left (AList.notMem_empty s)
    refine ⟨⟨nodup_views T _ it r, fun v => ?_⟩, fun v => ?_⟩
    · rw [mem_views, hkeys]
    · rw [mem_views, mem_views, hkeys, hfresh]

def symbolA : Symbol := ⟨['A'], by decide⟩

def symbolB : Symbol := ⟨['B'], by decide⟩

/-- A response with one trade of a symbol. -/
def oneTrade (s : Symbol) : TradeResponse ℤ := ⟨.update, [⟨⟨.buy, 1, 1, 0, 0, none⟩, s⟩]⟩

/-- After a trade in one symbol, a response with a trade in another has an empty view of the first. -/
theorem stale_view :
    ((after (.trades ℤ) [(.inOrder, oneTrade symbolA)]).reset (.trades ℤ) .inOrder (oneTrade symbolB)).views =
      [⟨symbolB, .update, (oneTrade symbolB).trades⟩, ⟨symbolA, .update, []⟩] ∧
    ¬ IsPartition (.trades ℤ) (oneTrade symbolB)
      ((after (.trades ℤ) [(.inOrder, oneTrade symbolA)]).reset (.trades ℤ) .inOrder (oneTrade symbolB)).views := by
  refine ⟨rfl, fun hpart => ?_⟩
  exact hpart.messages_ne_nil (v := ⟨symbolA, .update, []⟩) (List.mem_cons_of_mem _ List.mem_cons_self) rfl

end Partitioner

end Wirekrak.Protocol

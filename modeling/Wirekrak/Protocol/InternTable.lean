import Mathlib.Algebra.GroupWithZero.Nat
import Wirekrak.Lib.Run
import Wirekrak.Protocol.Router

/-!
# Wirekrak.Protocol.InternTable — many threads intern symbols

`InternTable::intern` looks a symbol up under a shared lock, gives that up, takes the exclusive one and looks again
before it appends.  The calls under way are steps of one system; what holds for them holds for any number of threads.
A symbol is stored before it is entered into the map, whose keys are views into the store; the store never grows beyond
what was reserved, so that it is never moved.

`intern` of the router is the same function seen as one step.

* `Turned`: what one step of a call does.
* `Inv`: who holds the lock, and how store and map belong together.
* `interned_once`: every symbol has one id, for good, and the ids are those of the sequential function.
* `calls_return`: on every schedule all calls return, or the table is full.
-/

namespace Wirekrak.Protocol

open Wirekrak.Lib

namespace InternTable

/-- A call of `intern`: the lock that it holds, or waits for, and what it has found. -/
inductive Call
  | enter (s : Symbol)
  | find (s : Symbol)
  | found (s : Symbol) (id : ℕ)
  | missed (s : Symbol)
  | upgrade (s : Symbol)
  | recheck (s : Symbol)
  | push (s : Symbol)
  | link (s : Symbol) (id : ℕ)
  | leave (s : Symbol) (id : ℕ)

namespace Call

/-- The call holds the lock shared. -/
def reading : Call → Bool
  | .find _ | .found _ _ | .missed _ => true
  | _ => false

/-- The call holds the lock exclusively. -/
def writing : Call → Bool
  | .recheck _ | .push _ | .link _ _ | .leave _ _ => true
  | _ => false

/-- The symbol is stored, and not in the map yet. -/
def stored : Call → Option Symbol
  | .link s _ => some s
  | _ => none

/-- The id that the call has for its symbol. -/
def result : Call → Option (Symbol × ℕ)
  | .found s id | .link s id | .leave s id => some (s, id)
  | _ => none

/-- The steps that a call has still to take, at most. -/
def left : Call → ℕ
  | .enter _ => 8
  | .find _ => 7
  | .missed _ => 6
  | .upgrade _ => 5
  | .recheck _ => 4
  | .push _ => 3
  | .link _ _ => 2
  | .found _ _ | .leave _ _ => 1

end Call

end InternTable

/-- The table with its `std::shared_mutex`, the calls under way, and the history of what calls have returned. -/
structure InternTable where
  symbols : List Symbol := []
  map : List (Symbol × ℕ) := []
  readers : ℕ := 0
  writer : Bool := false
  calls : List InternTable.Call := []
  returned : List (Symbol × ℕ) := []
  trapped : Bool := false

namespace InternTable

/-- `name`. -/
def name (t : InternTable) (id : ℕ) : Option Symbol := t.symbols[id]?

/-- One step of a call; `none` while the lock cannot be had.  A call without a successor has returned. -/
def turn (t : InternTable) : Call → Option (InternTable × Option Call)
  | .enter s => if t.writer = false then some ({ t with readers := t.readers + 1 }, some (.find s)) else none
  | .find s =>
    match t.map.lookup s with
    | some id => some (t, some (.found s id))
    | none => some (t, some (.missed s))
  | .found s id => some ({ t with readers := t.readers - 1, returned := t.returned ++ [(s, id)] }, none)
  | .missed s => some ({ t with readers := t.readers - 1 }, some (.upgrade s))
  | .upgrade s =>
    if t.writer = false ∧ t.readers = 0 then some ({ t with writer := true }, some (.recheck s)) else none
  | .recheck s =>
    match t.map.lookup s with
    | some id => some (t, some (.leave s id))
    | none => some (t, some (.push s))
  | .push s =>
    if maxSymbols ≤ t.symbols.length then some ({ t with trapped := true }, some (.push s))
    else some ({ t with symbols := t.symbols ++ [s] }, some (.link s t.symbols.length))
  | .link s id => some ({ t with map := t.map ++ [(s, id)] }, some (.leave s id))
  | .leave s id => some ({ t with writer := false, returned := t.returned ++ [(s, id)] }, none)

/-- A thread calls `intern`, or the `i`-th call takes a step. -/
inductive Act
  | intern (s : Symbol)
  | turn (i : ℕ)

/-- Nothing happens after a trap. -/
def step (t : InternTable) : Act → Option InternTable
  | .intern s => if t.trapped then none else some { t with calls := t.calls ++ [.enter s] }
  | .turn i =>
    if t.trapped then none
    else t.calls[i]?.bind fun c => (t.turn c).map fun v =>
      { v.1 with calls := t.calls.take i ++ v.2.toList ++ t.calls.drop (i + 1) }

def Steps (t : InternTable) (a : Act) (t' : InternTable) : Prop := t.step a = some t'

variable {t t' : InternTable}

/-- What one step of a call does. -/
inductive Turned (t : InternTable) : Call → InternTable → Option Call → Prop
  | enter {s : Symbol} : t.writer = false → Turned t (.enter s) { t with readers := t.readers + 1 } (some (.find s))
  | hit {s : Symbol} {id : ℕ} : t.map.lookup s = some id → Turned t (.find s) t (some (.found s id))
  | miss {s : Symbol} : t.map.lookup s = none → Turned t (.find s) t (some (.missed s))
  | found {s : Symbol} {id : ℕ} :
    Turned t (.found s id) { t with readers := t.readers - 1, returned := t.returned ++ [(s, id)] } none
  | missed {s : Symbol} : Turned t (.missed s) { t with readers := t.readers - 1 } (some (.upgrade s))
  | upgrade {s : Symbol} : t.writer = false → t.readers = 0 →
    Turned t (.upgrade s) { t with writer := true } (some (.recheck s))
  | hitAgain {s : Symbol} {id : ℕ} : t.map.lookup s = some id → Turned t (.recheck s) t (some (.leave s id))
  | missAgain {s : Symbol} : t.map.lookup s = none → Turned t (.recheck s) t (some (.push s))
  | full {s : Symbol} : maxSymbols ≤ t.symbols.length → Turned t (.push s) { t with trapped := true } (some (.push s))
  | push {s : Symbol} : t.symbols.length < maxSymbols →
    Turned t (.push s) { t with symbols := t.symbols ++ [s] } (some (.link s t.symbols.length))
  | link {s : Symbol} {id : ℕ} : Turned t (.link s id) { t with map := t.map ++ [(s, id)] } (some (.leave s id))
  | leave {s : Symbol} {id : ℕ} :
    Turned t (.leave s id) { t with writer := false, returned := t.returned ++ [(s, id)] } none

theorem turned {c : Call} {u : InternTable} {next : Option Call} (h : t.turn c = some (u, next)) : Turned t c u next := by
  cases c with
  | enter s =>
    rw [turn] at h
    split at h
    · rename_i hw
      cases h
      exact .enter hw
    · cases h
  | find s =>
    rw [turn] at h
    split at h
    · rename_i id hl
      cases h
      exact .hit hl
    · rename_i hl
      cases h
      exact .miss hl
  | found s id =>
    cases h
    exact .found
  | missed s =>
    cases h
    exact .missed
  | upgrade s =>
    rw [turn] at h
    split at h
    · rename_i hw
      cases h
      exact .upgrade hw.1 hw.2
    · cases h
  | recheck s =>
    rw [turn] at h
    split at h
    · rename_i id hl
      cases h
      exact .hitAgain hl
    · rename_i hl
      cases h
      exact .missAgain hl
  | push s =>
    rw [turn] at h
    split at h
    · rename_i hfull
      cases h
      exact .full hfull
    · rename_i hroom
      cases h
      exact .push (Nat.lt_of_not_le hroom)
  | link s id =>
    cases h
    exact .link
  | leave s id =>
    cases h
    exact .leave

theorem exists_turn {i : ℕ} (h : t.step (.turn i) = some t') : t.trapped = false ∧
    ∃ l₁ c l₂ u next, t.calls = l₁ ++ c :: l₂ ∧ Turned t c u next ∧
      t' = { u with calls := l₁ ++ next.toList ++ l₂ } := by
  unfold step at h
  cases htr : t.trapped with
  | true =>
    rw [htr] at h
    cases h
  | false =>
    rw [htr] at h
    simp only [Bool.false_eq_true, if_false, Option.bind_eq_some_iff, Option.map_eq_some_iff] at h
    obtain ⟨c, hc, v, hv, rfl⟩ := h
    obtain ⟨hi, hci⟩ := List.getElem?_eq_some_iff.mp hc
    refine ⟨rfl, t.calls.take i, c, t.calls.drop (i + 1), v.1, v.2, ?_, turned hv, rfl⟩
    rw [← hci, ← List.drop_eq_getElem_cons hi, List.take_append_drop]

/-! ## The invariant -/

/-- The symbols that the map has, in the order of their ids. -/
def keys (t : InternTable) : List Symbol := t.map.map Prod.fst

structure Inv (t : InternTable) : Prop where
  readers : t.readers = t.calls.countP Call.reading
  writer : t.writer.toNat = t.calls.countP Call.writing
  excluded : t.writer = true → t.readers = 0
  map : t.map = t.keys.zipIdx
  symbols : t.symbols = t.keys ++ t.calls.filterMap Call.stored
  nodup : t.symbols.Nodup
  bound : t.symbols.length ≤ maxSymbols
  fresh : ∀ s, .push s ∈ t.calls → s ∉ t.symbols
  result : ∀ c ∈ t.calls, ∀ v, c.result = some v → t.name v.2 = some v.1
  linking : ∀ s id, .link s id ∈ t.calls → id = t.keys.length
  returned : ∀ v ∈ t.returned, t.name v.2 = some v.1

variable {l₁ l₂ : List Call} {c : Call}

theorem inv_empty : Inv {} where
  readers := rfl
  writer := rfl
  excluded := fun _ => rfl
  map := rfl
  symbols := rfl
  nodup := List.nodup_nil
  bound := Nat.zero_le _
  fresh := by simp
  result := by simp
  linking := by simp
  returned := by simp

/-- What the map finds is right, and what it does not find is not in it. -/
theorem Inv.lookup_some (h : Inv t) {s : Symbol} {id : ℕ} (hl : t.map.lookup s = some id) : t.name id = some s := by
  obtain ⟨l₁, l₂, hsplit, -⟩ := List.lookup_eq_some_iff.mp hl
  have hmem : (s, id) ∈ t.map := by simp [hsplit]
  rw [h.map, List.mk_mem_zipIdx_iff_getElem?] at hmem
  unfold name
  rw [h.symbols]
  exact getElem?_append_of_some hmem _

theorem not_mem_keys {s : Symbol} (hl : t.map.lookup s = none) : s ∉ t.keys := by
  intro hs
  obtain ⟨v, hv, rfl⟩ := List.mem_map.mp hs
  simpa using List.lookup_eq_none_iff.mp hl v hv

section Split

variable (hsplit : t.calls = l₁ ++ c :: l₂)

include hsplit

theorem mem_calls_self : c ∈ t.calls := by
  rw [hsplit]
  simp

theorem mem_calls {d : Call} (hd : d ∈ l₁ ++ l₂) : d ∈ t.calls := by
  rw [hsplit]
  rcases List.mem_append.mp hd with hd | hd
  · exact List.mem_append_left _ hd
  · exact List.mem_append_right _ (List.mem_cons_of_mem _ hd)

/-- A call with the exclusive lock is the only one that has a lock. -/
theorem Inv.alone (h : Inv t) (hc : c.writing = true) :
    t.writer = true ∧ ∀ d ∈ l₁ ++ l₂, d.writing = false ∧ d.stored = none := by
  have hw := h.writer
  rw [hsplit, List.countP_append, List.countP_cons_of_pos hc] at hw
  have hle := t.writer.toNat_le
  have hzero : (l₁ ++ l₂).countP Call.writing = 0 := by
    rw [List.countP_append]
    omega
  refine ⟨by cases hb : t.writer <;> simp [hb] at hw ⊢, fun d hd => ?_⟩
  have hdw := List.countP_eq_zero.mp hzero d hd
  refine ⟨by simpa using hdw, ?_⟩
  cases d with
  | link s id => exact absurd rfl hdw
  | _ => rfl

theorem Inv.stored_others (h : Inv t) (hc : c.writing = true) :
    l₁.filterMap Call.stored = [] ∧ l₂.filterMap Call.stored = [] := by
  obtain ⟨-, hall⟩ := h.alone hsplit hc
  simp only [List.filterMap_eq_nil_iff]
  exact ⟨fun d hd => (hall d (List.mem_append_left _ hd)).2, fun d hd => (hall d (List.mem_append_right _ hd)).2⟩

/-- A step that stores nothing and enters nothing into the map. -/
theorem Inv.frame (h : Inv t) {next : Option Call} {readers : ℕ} {writer : Bool} {returned : List (Symbol × ℕ)}
    {trapped : Bool} (hstored : next.bind Call.stored = c.stored)
    (hreaders : readers + c.reading.toNat = t.readers + (next.elim false Call.reading).toNat)
    (hwriter : writer.toNat + c.writing.toNat = t.writer.toNat + (next.elim false Call.writing).toNat)
    (hexcluded : writer = true → readers = 0)
    (hfresh : ∀ s, next = some (.push s) → s ∉ t.symbols)
    (hresult : ∀ d, next = some d → ∀ v, d.result = some v → t.name v.2 = some v.1)
    (hlinking : ∀ s id, next = some (.link s id) → id = t.keys.length)
    (hreturned : ∀ v ∈ returned, v ∈ t.returned ∨ c.result = some v) :
    Inv { t with
      readers := readers
      writer := writer
      returned := returned
      trapped := trapped
      calls := l₁ ++ next.toList ++ l₂ } where
  readers := by
    have hr := h.readers
    rw [hsplit, List.countP_append, List.countP_cons] at hr
    simp only [List.countP_append]
    cases next with
    | none => cases hc : c.reading <;> simp [hc] at hr hreaders ⊢ <;> omega
    | some d =>
      cases hc : c.reading <;> cases hd : d.reading <;> simp [hc, hd] at hr hreaders ⊢ <;> omega
  writer := by
    have hw := h.writer
    rw [hsplit, List.countP_append, List.countP_cons] at hw
    simp only [List.countP_append]
    cases next with
    | none => cases hc : c.writing <;> simp [hc] at hw hwriter ⊢ <;> omega
    | some d =>
      cases hc : c.writing <;> cases hd : d.writing <;> simp [hc, hd] at hw hwriter ⊢ <;> omega
  excluded := hexcluded
  map := h.map
  symbols := by
    have hs := h.symbols
    rw [hsplit, List.filterMap_append, List.filterMap_cons] at hs
    simp only [List.filterMap_append]
    rw [hs]
    cases next with
    | none => simp [← hstored, keys]
    | some d => cases hd : d.stored <;> simp [← hstored, hd, keys]
  nodup := h.nodup
  bound := h.bound
  fresh := by
    intro s hs
    rw [List.mem_append, List.mem_append, or_right_comm, ← List.mem_append] at hs
    rcases hs with hs | hs
    · exact h.fresh s (mem_calls hsplit hs)
    · exact hfresh s (by simpa using hs)
  result := by
    intro d hd
    rw [List.mem_append, List.mem_append, or_right_comm, ← List.mem_append] at hd
    rcases hd with hd | hd
    · exact h.result d (mem_calls hsplit hd)
    · exact hresult d (by simpa using hd)
  linking := by
    intro s id hs
    rw [List.mem_append, List.mem_append, or_right_comm, ← List.mem_append] at hs
    rcases hs with hs | hs
    · exact h.linking s id (mem_calls hsplit hs)
    · exact hlinking s id (by simpa using hs)
  returned := by
    intro v hv
    rcases hreturned v hv with hv | hv
    · exact h.returned v hv
    · exact h.result c (mem_calls_self hsplit) v hv

/-- The symbol is stored. -/
theorem Inv.store {s : Symbol} (h : Inv t) (hc : c = .push s) (hroom : t.symbols.length < maxSymbols) :
    Inv { t with
      symbols := t.symbols ++ [s]
      calls := l₁ ++ (some (Call.link s t.symbols.length)).toList ++ l₂ } := by
  subst hc
  obtain ⟨hw, hall⟩ := h.alone hsplit rfl
  obtain ⟨hn₁, hn₂⟩ := h.stored_others hsplit rfl
  have hkeys : t.symbols = t.keys := by
    have hs := h.symbols
    rw [hsplit, List.filterMap_append, List.filterMap_cons, hn₁, hn₂] at hs
    simpa [Call.stored] using hs
  have hgrow : ∀ v : Symbol × ℕ, t.name v.2 = some v.1 → (t.symbols ++ [s])[v.2]? = some v.1 := fun v hv =>
    getElem?_append_of_some hv _
  have hmem : ∀ d, d ∈ l₁ ++ (some (Call.link s t.symbols.length)).toList ++ l₂ →
      d ∈ l₁ ++ l₂ ∨ d = .link s t.symbols.length := by
    intro d hd
    rw [List.mem_append, List.mem_append, or_right_comm, ← List.mem_append] at hd
    simpa using hd
  have hothers : ∀ d ∈ l₁ ++ l₂, d.writing = false := fun d hd => (hall d hd).1
  refine ⟨?_, ?_, h.excluded, h.map, ?_, ?_, ?_, ?_, ?_, ?_, ?_⟩
  · have hr := h.readers
    rw [hsplit] at hr
    simpa [Call.reading] using hr
  · have hw := h.writer
    rw [hsplit] at hw
    simpa [Call.writing, List.countP_cons] using hw
  · simp only [keys, List.filterMap_append, hn₁, hn₂, hkeys]
    simp [Call.stored]
  · refine List.nodup_append.mpr ⟨h.nodup, List.nodup_singleton s, fun a ha b hb => ?_⟩
    rw [List.mem_singleton.mp hb]
    rintro rfl
    exact h.fresh a (mem_calls_self hsplit) ha
  · simp only [List.length_append, List.length_singleton]
    omega
  · intro x hx
    rcases hmem _ hx with hx | hx
    · exact absurd (hothers _ hx) (by simp [Call.writing])
    · cases hx
  · intro d hd v hv
    rcases hmem d hd with hd | rfl
    · exact hgrow v (h.result d (mem_calls hsplit hd) v hv)
    · cases hv
      exact List.getElem?_concat_length
  · intro x id hx
    rcases hmem _ hx with hx | hx
    · exact absurd (hothers _ hx) (by simp [Call.writing])
    · cases hx
      rw [hkeys]
      rfl
  · exact fun v hv => hgrow v (h.returned v hv)

/-- The symbol is entered into the map. -/
theorem Inv.enter {s : Symbol} {id : ℕ} (h : Inv t) (hc : c = .link s id) :
    Inv { t with map := t.map ++ [(s, id)], calls := l₁ ++ (some (Call.leave s id)).toList ++ l₂ } := by
  subst hc
  obtain ⟨hw, hall⟩ := h.alone hsplit rfl
  obtain ⟨hn₁, hn₂⟩ := h.stored_others hsplit rfl
  have hid := h.linking s id (mem_calls_self hsplit)
  have hothers : ∀ d ∈ l₁ ++ l₂, d.writing = false := fun d hd => (hall d hd).1
  have hmem : ∀ d, d ∈ l₁ ++ (some (Call.leave s id)).toList ++ l₂ → d ∈ l₁ ++ l₂ ∨ d = .leave s id := by
    intro d hd
    rw [List.mem_append, List.mem_append, or_right_comm, ← List.mem_append] at hd
    simpa using hd
  have hsymbols : t.symbols = t.keys ++ [s] := by
    have hs := h.symbols
    rw [hsplit, List.filterMap_append, List.filterMap_cons, hn₁, hn₂] at hs
    simpa [Call.stored] using hs
  have hkeys : (t.map ++ [(s, id)]).map Prod.fst = t.keys ++ [s] := by simp [keys]
  refine ⟨?_, ?_, h.excluded, ?_, ?_, h.nodup, h.bound, ?_, ?_, ?_, h.returned⟩
  · have hr := h.readers
    rw [hsplit] at hr
    simpa [Call.reading] using hr
  · have hw := h.writer
    rw [hsplit] at hw
    simpa [Call.writing, List.countP_cons] using hw
  · unfold keys
    dsimp only
    rw [hkeys, List.zipIdx_append, ← h.map, hid, Nat.zero_add]
    rfl
  · simp only [keys, List.filterMap_append, hn₁, hn₂, hkeys, hsymbols]
    simp [Call.stored]
  · intro x hx
    rcases hmem _ hx with hx | hx
    · exact absurd (hothers _ hx) (by simp [Call.writing])
    · cases hx
  · intro d hd v hv
    rcases hmem d hd with hd | rfl
    · exact h.result d (mem_calls hsplit hd) v hv
    · exact h.result (.link s id) (mem_calls_self hsplit) v hv
  · intro x i hx
    rcases hmem _ hx with hx | hx
    · exact absurd (hothers _ hx) (by simp [Call.writing])
    · cases hx

end Split

/-- **Step lemma.** -/
theorem Inv.step (h : Inv t) {a : Act} (hs : t.step a = some t') : Inv t' := by
  cases a with
  | intern s =>
    rw [InternTable.step] at hs
    split at hs
    · cases hs
    · cases hs
      have hmem : ∀ d, d ∈ t.calls ++ [Call.enter s] → d ∈ t.calls ∨ d = .enter s := by simp
      refine ⟨?_, ?_, h.excluded, h.map, ?_, h.nodup, h.bound, ?_, ?_, ?_, h.returned⟩
      · simpa [Call.reading] using h.readers
      · simpa [Call.writing] using h.writer
      · simpa [Call.stored, keys, List.filterMap_cons] using h.symbols
      · intro x hx
        exact h.fresh x (by simpa using hx)
      · intro d hd v hv
        rcases hmem d hd with hd | rfl
        · exact h.result d hd v hv
        · cases hv
      · intro x id hx
        exact h.linking x id (by simpa using hx)
  | turn i =>
    obtain ⟨-, l₁, c, l₂, u, next, hsplit, hturn, rfl⟩ := exists_turn hs
    have hself := mem_calls_self hsplit
    cases hturn with
    | enter hw =>
      refine h.frame hsplit rfl rfl rfl (fun hw' => ?_) (by simp) ?_ (by simp) (fun v hv => .inl hv)
      · rw [hw] at hw'
        cases hw'
      · rintro d ⟨⟩ v hv
        cases hv
    | hit hl | hitAgain hl =>
      refine h.frame hsplit rfl rfl rfl h.excluded (by simp) ?_ (by simp) (fun v hv => .inl hv)
      rintro d ⟨⟩ v hv
      cases hv
      exact h.lookup_some hl
    | miss =>
      refine h.frame hsplit rfl rfl rfl h.excluded (by simp) ?_ (by simp) (fun v hv => .inl hv)
      rintro d ⟨⟩ v hv
      cases hv
    | found =>
      have hpos : 0 < t.readers := by
        rw [h.readers]
        exact List.countP_pos_iff.mpr ⟨_, hself, rfl⟩
      refine h.frame hsplit rfl ?_ rfl (fun hw => ?_) (by simp) (by simp) (by simp) (fun v hv => ?_)
      · simp only [Call.reading, Option.elim, Bool.toNat_true, Bool.toNat_false]
        omega
      · rw [h.excluded hw]
      · rcases List.mem_append.mp hv with hv | hv
        · exact .inl hv
        · rw [List.mem_singleton.mp hv]
          exact .inr rfl
    | missed =>
      have hpos : 0 < t.readers := by
        rw [h.readers]
        exact List.countP_pos_iff.mpr ⟨_, hself, rfl⟩
      refine h.frame hsplit rfl ?_ rfl (fun hw => ?_) (by simp) ?_ (by simp) (fun v hv => .inl hv)
      · simp only [Call.reading, Option.elim, Bool.toNat_true, Bool.toNat_false]
        omega
      · rw [h.excluded hw]
      · rintro d ⟨⟩ v hv
        cases hv
    | upgrade hw hr =>
      refine h.frame hsplit rfl rfl ?_ (fun _ => hr) (by simp) ?_ (by simp) (fun v hv => .inl hv)
      · rw [hw]
        rfl
      · rintro d ⟨⟩ v hv
        cases hv
    | missAgain hl =>
      refine h.frame hsplit rfl rfl rfl h.excluded ?_ ?_ (by simp) (fun v hv => .inl hv)
      · rintro x ⟨⟩
        -- no other call has stored a symbol that the map lacks
        obtain ⟨hn₁, hn₂⟩ := h.stored_others hsplit rfl
        rw [h.symbols, hsplit, List.filterMap_append, List.filterMap_cons, hn₁, hn₂]
        simpa [Call.stored] using not_mem_keys hl
      · rintro d ⟨⟩ v hv
        cases hv
    | full =>
      refine h.frame hsplit rfl rfl rfl h.excluded ?_ ?_ (by simp) (fun v hv => .inl hv)
      · rintro x ⟨⟩
        exact h.fresh _ hself
      · rintro d ⟨⟩ v hv
        cases hv
    | push hroom => exact h.store hsplit rfl hroom
    | link => exact h.enter hsplit rfl
    | leave =>
      obtain ⟨hw, -⟩ := h.alone hsplit rfl
      refine h.frame hsplit rfl rfl ?_ (by simp) (by simp) (by simp) (by simp) (fun v hv => ?_)
      · rw [hw]
        rfl
      · rcases List.mem_append.mp hv with hv | hv
        · exact .inl hv
        · rw [List.mem_singleton.mp hv]
          exact .inr rfl

theorem step_grows {a : Act} (hs : t.step a = some t') : t.symbols <+: t'.symbols := by
  cases a with
  | intern s =>
    rw [step] at hs
    split at hs
    · cases hs
    · cases hs
      exact List.prefix_rfl
  | turn i =>
    obtain ⟨-, l₁, c, l₂, u, next, -, hturn, rfl⟩ := exists_turn hs
    cases hturn with
    | push => exact List.prefix_append _ _
    | _ => exact List.prefix_rfl

/-- What is promised of a table: the names belong to the ids that were returned, every symbol has one id, and the
symbols are what the sequential function makes of them. -/
structure Sound (t : InternTable) : Prop where
  names : ∀ v ∈ t.returned, t.name v.2 = some v.1
  ids : ∀ v ∈ t.returned, ∀ v' ∈ t.returned, v.1 = v'.1 ↔ v.2 = v'.2
  sequential : t.symbols.foldlM intern [] = .ok t.symbols
  bound : t.symbols.length ≤ maxSymbols
  full : t.trapped = true → ∃ s, .push s ∈ t.calls ∧ intern t.symbols s = .error .internOverflow

/-- A trap is a push into a full table. -/
def Full (t : InternTable) : Prop := t.trapped = true → maxSymbols ≤ t.symbols.length ∧ ∃ s, .push s ∈ t.calls

theorem full_step {a : Act} (hs : t.step a = some t') : Full t' := by
  intro htr
  cases a with
  | intern s =>
    rw [step] at hs
    split at hs
    · cases hs
    · rename_i hf
      cases hs
      exact absurd htr hf
  | turn i =>
    obtain ⟨hf, l₁, c, l₂, u, next, -, hturn, rfl⟩ := exists_turn hs
    cases hturn with
    | @full s hfull => exact ⟨hfull, s, by simp⟩
    | _ => simp [hf] at htr

theorem foldlM_intern {symbols : List Symbol} (hn : symbols.Nodup) (hb : symbols.length ≤ maxSymbols) :
    symbols.foldlM intern [] = .ok symbols := by
  induction symbols using List.reverseRecOn with
  | nil => rfl
  | append_singleton symbols s ih =>
    obtain ⟨hn', -, hs⟩ := List.nodup_append.mp hn
    rw [List.length_append, List.length_singleton] at hb
    have hnot : s ∉ symbols := fun hmem => hs s hmem s (List.mem_singleton_self s) rfl
    have hs' : intern symbols s = .ok (symbols ++ [s]) := by
      unfold intern
      rw [if_neg hnot, if_neg (by omega)]
    rw [List.foldlM_append, ih hn' (by omega)]
    change [s].foldlM intern symbols = _
    rw [List.foldlM_cons, hs']
    rfl

theorem Inv.sound (h : Inv t) (hfull : Full t) : Sound t where
  names := h.returned
  ids := by
    intro v hv v' hv'
    have hn := h.returned v hv
    have hn' := h.returned v' hv'
    constructor
    · intro he
      rw [← he] at hn'
      exact (List.getElem?_inj (List.getElem?_eq_some_iff.mp hn).1 h.nodup).mp (hn.trans hn'.symm)
    · intro he
      rw [← he, hn] at hn'
      exact Option.some.inj hn'
  sequential := foldlM_intern h.nodup h.bound
  bound := h.bound
  full := by
    intro htr
    obtain ⟨hlen, s, hs⟩ := hfull htr
    refine ⟨s, hs, ?_⟩
    unfold intern
    rw [if_neg (h.fresh s hs), if_pos hlen]

/-- **Every symbol has one id, for good**: whatever calls run at the same time, what they return names their symbols
then and later. -/
theorem interned_once (acts acts' : List Act) (t u : InternTable) (hrun : Run Steps (fun _ _ => True) {} acts t)
    (hrun' : Run Steps (fun _ _ => True) t acts' u) : Sound u ∧ t.symbols <+: u.symbols := by
  have hinv : Inv u ∧ Full u := (hrun.trans hrun').invariant (I := fun u => Inv u ∧ Full u)
    ⟨inv_empty, fun h => by cases h⟩ fun _ _ _ h _ hs => ⟨h.1.step hs, full_step hs⟩
  refine ⟨hinv.1.sound hinv.2, ?_⟩
  exact hrun'.invariant (I := fun u => t.symbols <+: u.symbols) List.prefix_rfl
    fun _ _ _ h _ hs => h.trans (step_grows hs)

/-- Two calls miss the same symbol under the shared lock. -/
def bothMiss : List Act := [.intern .empty, .intern .empty, .turn 0, .turn 1, .turn 0, .turn 1, .turn 0, .turn 1]

theorem interned_once_raced : ∃ t u, Run Steps (fun _ _ => True) {} bothMiss t ∧
    Run Steps (fun _ _ => True) t (List.replicate 8 (.turn 0)) u ∧ (Sound u ∧ t.symbols <+: u.symbols) ∧
    u.returned = [(.empty, 0), (.empty, 0)] := by
  have heval : (bothMiss.foldlM step {}).bind (fun t => ((List.replicate 8 (.turn 0)).foldlM step t).map
      InternTable.returned) = some [(.empty, 0), (.empty, 0)] := by decide
  obtain ⟨t, ht, hu⟩ := Option.bind_eq_some_iff.mp heval
  obtain ⟨u, hu, hret⟩ := Option.map_eq_some_iff.mp hu
  have hrun : Run Steps (fun _ _ => True) {} bothMiss t := Run.of_foldlM ht
  have hrun' : Run Steps (fun _ _ => True) t _ u := Run.of_foldlM hu
  exact ⟨t, u, hrun, hrun', interned_once bothMiss _ t u hrun hrun', hret⟩

/-! ## All calls return -/

def left (t : InternTable) : ℕ := (t.calls.map Call.left).sum

theorem Turned.left_lt {c : Call} {u : InternTable} {next : Option Call} (h : Turned t c u next) :
    u.trapped = true ∨ next.elim 0 Call.left < c.left := by
  cases h with
  | full => exact .inl rfl
  | _ => exact .inr (by simp [Call.left])

/-- A call that does not wait for the lock can take a step. -/
theorem exists_turn_of_locked {c : Call} (h : c.reading = true ∨ c.writing = true) : ∃ v, t.turn c = some v := by
  cases c with
  | enter s | upgrade s => simp [Call.reading, Call.writing] at h
  | find s | recheck s =>
    rw [turn]
    split <;> exact ⟨_, rfl⟩
  | found s id | missed s | link s id | leave s id => exact ⟨_, rfl⟩
  | push s =>
    rw [turn]
    split <;> exact ⟨_, rfl⟩

/-- The lock is free, or some call that has it can go on. -/
theorem Inv.exists_turn (h : Inv t) (hcalls : t.calls ≠ []) : ∃ c ∈ t.calls, ∃ v, t.turn c = some v := by
  by_cases hlocked : ∃ c ∈ t.calls, c.reading = true ∨ c.writing = true
  · obtain ⟨c, hc, hl⟩ := hlocked
    exact ⟨c, hc, exists_turn_of_locked hl⟩
  · simp only [not_exists, not_and, not_or, Bool.not_eq_true] at hlocked
    have hw : t.writer = false := by
      have hw := h.writer
      rw [List.countP_eq_zero.mpr fun c hc => by simp [(hlocked c hc).2]] at hw
      simpa using hw
    have hr : t.readers = 0 := by
      rw [h.readers]
      exact List.countP_eq_zero.mpr fun c hc => by simp [(hlocked c hc).1]
    obtain ⟨c, l, hl⟩ := List.exists_cons_of_ne_nil hcalls
    have hc : c ∈ t.calls := by simp [hl]
    refine ⟨c, hc, ?_⟩
    obtain ⟨hcr, hcw⟩ := hlocked c hc
    cases c with
    | enter s => exact ⟨_, by rw [turn, if_pos hw]⟩
    | upgrade s => exact ⟨_, by rw [turn, if_pos ⟨hw, hr⟩]⟩
    | find s | found s id | missed s => cases hcr
    | recheck s | push s | link s id | leave s id => cases hcw

/-- A step of a call, not a new one. -/
def Act.Turn : Act → Prop
  | .intern _ => False
  | .turn _ => True

/-- **All calls return**, on every schedule of their steps, or the table is full: no call waits for the lock for ever. -/
theorem calls_return (acts : List Act) (t : InternTable) (hrun : Run Steps (fun _ _ => True) {} acts t) :
    Inevitable (fun t a u => a.Turn ∧ Steps t a u) (fun t => t.calls = [] ∨ t.trapped = true) t := by
  have hinv : Inv t := hrun.invariant inv_empty fun _ _ _ h _ hs => h.step hs
  refine Inevitable.of_measure (I := fun t => Inv t) (f := fun t => if t.trapped then 0 else left t + 1) ?_ ?_ hinv
  · intro t h hP
    obtain ⟨hcalls, htr⟩ := not_or.mp hP
    obtain ⟨c, hc, v, hv⟩ := h.exists_turn hcalls
    obtain ⟨i, hi⟩ := List.mem_iff_getElem?.mp hc
    have hs : t.step (.turn i) =
        some { v.1 with calls := t.calls.take i ++ v.2.toList ++ t.calls.drop (i + 1) } := by
      rw [step, if_neg htr, hi, Option.bind_some, hv]
      rfl
    exact ⟨.turn i, _, trivial, hs⟩
  · rintro t a u h hP ⟨ha, hs⟩
    refine ⟨h.step hs, ?_⟩
    cases a with
    | intern s => cases ha
    | turn i =>
      obtain ⟨htr, l₁, c, l₂, u, next, hsplit, hturn, rfl⟩ := InternTable.exists_turn hs
      change (if u.trapped = true then 0 else _) < if t.trapped = true then 0 else left t + 1
      rw [if_neg (show ¬ t.trapped = true by simp [htr])]
      split
      · omega
      · rename_i hu
        have hlt := hturn.left_lt.resolve_left hu
        have hleft : left t = (l₁.map Call.left).sum + (c.left + (l₂.map Call.left).sum) := by
          simp [left, hsplit]
        have hnext : (next.toList.map Call.left).sum = next.elim 0 Call.left := by
          cases next <;> simp
        simp only [left, List.map_append, List.sum_append, hnext] at hleft ⊢
        omega

theorem calls_return_raced : ∃ t, Run Steps (fun _ _ => True) {} bothMiss t ∧ t.calls.length = 2 ∧
    Inevitable (fun t a u => a.Turn ∧ Steps t a u) (fun t => t.calls = [] ∨ t.trapped = true) t := by
  have heval : (bothMiss.foldlM step {}).map (fun t => t.calls.length) = some 2 := by decide
  obtain ⟨t, ht, hlen⟩ := Option.map_eq_some_iff.mp heval
  have hrun : Run Steps (fun _ _ => True) {} bothMiss t := Run.of_foldlM ht
  exact ⟨t, hrun, hlen, calls_return bothMiss t hrun⟩

end InternTable

end Wirekrak.Protocol

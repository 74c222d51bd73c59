import Mathlib.Tactic.Ring
import Wirekrak.Lib.Race
import Wirekrak.Lib.Run
import Wirekrak.Metrics.Stats

/-!
# Wirekrak.Metrics.AtomicStats — the statistics under concurrent records

Any number of threads record samples at the same time, every operation of a record being one atomic step.  The two
extremes are kept by compare-and-exchange loops, whose loads may be stale and whose exchanges may fail without a reason;
the counters are kept by additions, which see the latest value.

* `Turned`: what one step of a thread does.
* `Inv`: a counter lacks what the records in flight have still to add; an extreme lacks only samples still in flight.
* `atomic_exact`: whenever no record is in flight, the statistics are the plain ones.
* `records_finish`: with loads that are not stale, all records finish, whatever the schedule.
* `size_exact`: `size` is the plain one over the operations in the order in which they reached `last_`.
-/

namespace Wirekrak.Metrics

open Wirekrak.Lib

/-- A record under way: the operations left, and the local variable `prev` of the loop it is in. -/
structure Flight where
  sample : Sample
  rest : List Instr
  prev : Option ℕ := none

/-- The atomic statistics and the records under way; `begun` is the history of all samples. -/
structure Atomic where
  counter : Counter → ℕ
  bound : Side → Cell ℕ
  flights : List Flight := []
  begun : List Sample := []

/-- A thread starts a record, or the thread of the `i`-th record takes a step.  A load returns the `k`-th latest value. -/
inductive Act
  | begin (r : Sample)
  | turn (i k : ℕ) (spurious : Bool)

namespace Atomic

def fresh (w : ℕ) : Atomic := { counter := fun _ => 0, bound := fun s => { value := s.initial w } }

/-- The values that are read when nothing runs. -/
def stats (a : Atomic) : Stats := { counter := a.counter, bound := fun s => (a.bound s).value }

/-- One operation of a record: an addition, the load in front of a loop, or a turn of the loop. -/
def advance (f : Flight) (k : ℕ) (spurious : Bool) (a : Atomic) : Option (Atomic × Option Flight) :=
  match f.rest with
  | [] => some (a, none)
  | .count c :: rest =>
    some ({ a with counter := Function.update a.counter c ((a.counter c + c.amount f.sample) % 2 ^ 64) },
      some { sample := f.sample, rest := rest })
  | .bound s :: rest =>
    match f.prev with
    | none => (a.bound s).seen[k]?.map fun q => (a, some { f with prev := some q })
    | some prev =>
      ((a.bound s).turn s.Better f.sample.value prev k spurious).map fun v =>
        ({ a with bound := Function.update a.bound s v.1 },
          some (v.2.elim { sample := f.sample, rest := rest } fun q => { f with prev := some q }))

def step (p : Program) (a : Atomic) : Act → Option Atomic
  | .begin r =>
    some { a with flights := a.flights ++ [{ sample := r, rest := p.steps }], begun := a.begun ++ [r] }
  | .turn i k spurious =>
    a.flights[i]?.bind fun f => (a.advance f k spurious).map fun v =>
      { v.1 with flights := a.flights.take i ++ v.2.toList ++ a.flights.drop (i + 1) }

def Steps (p : Program) (a : Atomic) (b : Act) (a' : Atomic) : Prop := a.step p b = some a'

/-! ## What a step does -/

/-- The record is left out, or goes on as `f'`; the others stay. -/
inductive Turned (a : Atomic) (l₁ l₂ : List Flight) (f : Flight) (k : ℕ) (spurious : Bool) : Atomic → Prop
  | done : f.rest = [] → Turned a l₁ l₂ f k spurious { a with flights := l₁ ++ l₂ }
  | count {c : Counter} {rest : List Instr} : f.rest = .count c :: rest → Turned a l₁ l₂ f k spurious
      { a with
        counter := Function.update a.counter c ((a.counter c + c.amount f.sample) % 2 ^ 64)
        flights := l₁ ++ { sample := f.sample, rest := rest } :: l₂ }
  | load {s : Side} {rest : List Instr} {q : ℕ} : f.rest = .bound s :: rest → f.prev = none →
      (a.bound s).seen[k]? = some q → Turned a l₁ l₂ f k spurious
        { a with flights := l₁ ++ { f with prev := some q } :: l₂ }
  | leave {s : Side} {rest : List Instr} {prev : ℕ} {c : Cell ℕ} : f.rest = .bound s :: rest → f.prev = some prev →
      (a.bound s).turn s.Better f.sample.value prev k spurious = some (c, none) → Turned a l₁ l₂ f k spurious
        { a with
          bound := Function.update a.bound s c
          flights := l₁ ++ { sample := f.sample, rest := rest } :: l₂ }
  | again {s : Side} {rest : List Instr} {prev q : ℕ} {c : Cell ℕ} : f.rest = .bound s :: rest → f.prev = some prev →
      (a.bound s).turn s.Better f.sample.value prev k spurious = some (c, some q) → Turned a l₁ l₂ f k spurious
        { a with
          bound := Function.update a.bound s c
          flights := l₁ ++ { f with prev := some q } :: l₂ }

theorem turned_of_step {p : Program} {a a' : Atomic} {i k : ℕ} {spurious : Bool}
    (h : a.step p (.turn i k spurious) = some a') :
    ∃ l₁ f l₂, a.flights = l₁ ++ f :: l₂ ∧ Turned a l₁ l₂ f k spurious a' := by
  simp only [step, Option.bind_eq_some_iff, Option.map_eq_some_iff] at h
  obtain ⟨f, hf, v, hv, rfl⟩ := h
  obtain ⟨hi, hfi⟩ := List.getElem?_eq_some_iff.mp hf
  refine ⟨a.flights.take i, f, a.flights.drop (i + 1), ?_, ?_⟩
  · rw [← hfi, ← List.drop_eq_getElem_cons hi, List.take_append_drop]
  · unfold advance at hv
    cases hrest : f.rest with
    | nil =>
      rw [hrest] at hv
      cases hv
      simpa using Turned.done hrest
    | cons x rest =>
      rw [hrest] at hv
      cases x with
      | count c =>
        cases hv
        simpa using Turned.count hrest
      | bound s =>
        cases hprev : f.prev with
        | none =>
          simp only [hprev, Option.map_eq_some_iff] at hv
          obtain ⟨q, hq, rfl⟩ := hv
          simpa [hrest] using Turned.load hrest hprev hq
        | some prev =>
          simp only [hprev, Option.map_eq_some_iff] at hv
          obtain ⟨v, hv, rfl⟩ := hv
          obtain ⟨c, o⟩ := v
          cases o with
          | none => simpa using Turned.leave hrest hprev hv
          | some q => simpa [hrest] using Turned.again hrest hprev hv

/-! ## The invariant -/

/-- What the record has still to add to the counter. -/
def due (c : Counter) (f : Flight) : ℕ := if .count c ∈ f.rest then c.amount f.sample else 0

def pending (c : Counter) (fs : List Flight) : ℕ := (fs.map (due c)).sum

/-- The sample has not been compared with the extreme yet. -/
def Unseen (s : Side) (fs : List Flight) (r : Sample) : Prop := ∃ f ∈ fs, f.sample = r ∧ .bound s ∈ f.rest

/-- What a cell has to do with the samples. -/
structure Kept (w : ℕ) (s : Side) (rs : List Sample) (fs : List Flight) (c : Cell ℕ) : Prop where
  improving : c.Improving s.Better
  initial : ¬ s.Better (s.initial w) c.value
  origin : c.value = s.initial w ∨ ∃ r ∈ rs, r.value = c.value
  reached : ∀ r ∈ rs, ¬ s.Better r.value c.value ∨ Unseen s fs r

structure Inv (p : Program) (w : ℕ) (a : Atomic) : Prop where
  rest : ∀ f ∈ a.flights, f.rest <:+ p.steps
  sample : ∀ f ∈ a.flights, f.sample ∈ a.begun
  loaded : ∀ f ∈ a.flights, ∀ (s : Side) (q : ℕ), (∃ rest, f.rest = .bound s :: rest) → f.prev = some q →
    ¬ s.Better q (a.bound s).value
  counted : ∀ c, .count c ∈ p.steps → a.counter c < 2 ^ 64 ∧
    (a.counter c + pending c a.flights) % 2 ^ 64 = (a.begun.map c.amount).sum % 2 ^ 64
  uncounted : ∀ c, .count c ∉ p.steps → a.counter c = 0
  kept : ∀ s, .bound s ∈ p.steps → Kept w s a.begun a.flights (a.bound s)
  unkept : ∀ s : Side, .bound s ∉ p.steps → (a.bound s).value = s.initial w

variable {p : Program} {w : ℕ} {a a' : Atomic} {l₁ l₂ : List Flight} {f f' : Flight} {c : Counter} {s : Side}

theorem ranking (s : Side) : Cell.Ranking s.Better := ⟨Side.asymm, Side.trans⟩

theorem pending_split : pending c (l₁ ++ f :: l₂) = due c f + pending c (l₁ ++ l₂) := by
  simp only [pending, List.map_append, List.map_cons, List.sum_append, List.sum_cons]
  omega

theorem unseen_split {r : Sample} :
    Unseen s (l₁ ++ f :: l₂) r ↔ (f.sample = r ∧ .bound s ∈ f.rest) ∨ Unseen s (l₁ ++ l₂) r := by
  unfold Unseen
  simp only [List.mem_append, List.mem_cons]
  constructor
  · rintro ⟨g, hg | rfl | hg, h⟩
    · exact .inr ⟨g, .inl hg, h⟩
    · exact .inl h
    · exact .inr ⟨g, .inr hg, h⟩
  · rintro (h | ⟨g, hg | hg, h⟩)
    · exact ⟨f, .inr (.inl rfl), h⟩
    · exact ⟨g, .inl hg, h⟩
    · exact ⟨g, .inr (.inr hg), h⟩

theorem inv_fresh (p : Program) (w : ℕ) : Inv p w (fresh w) where
  rest := by simp [fresh]
  sample := by simp [fresh]
  loaded := by simp [fresh]
  counted := by simp [fresh, pending]
  uncounted := fun _ _ => rfl
  kept := fun s _ =>
    { improving := by simp [Cell.Improving, Cell.seen, fresh, (ranking s).irrefl]
      initial := (ranking s).irrefl _
      origin := .inl rfl
      reached := by simp [fresh] }
  unkept := fun _ _ => rfl

theorem Inv.begin (h : Inv p w a) (r : Sample) : Inv p w
    { a with flights := a.flights ++ [{ sample := r, rest := p.steps }], begun := a.begun ++ [r] } where
  rest := by
    intro f hf
    rcases List.mem_append.mp hf with hf | hf
    · exact h.rest f hf
    · obtain rfl := List.mem_singleton.mp hf
      exact List.suffix_rfl
  sample := by
    intro f hf
    rcases List.mem_append.mp hf with hf | hf
    · exact List.mem_append_left _ (h.sample f hf)
    · rw [List.mem_singleton.mp hf]
      simp
  loaded := by
    intro f hf s q hs hq
    rcases List.mem_append.mp hf with hf | hf
    · exact h.loaded f hf s q hs hq
    · rw [List.mem_singleton.mp hf] at hq
      cases hq
  counted := by
    intro c hc
    obtain ⟨hlt, hsum⟩ := h.counted c hc
    refine ⟨hlt, ?_⟩
    simp only [pending, due, List.map_append, List.map_cons, List.map_nil, List.sum_append, List.sum_singleton,
      if_pos hc] at hsum ⊢
    omega
  uncounted := h.uncounted
  kept := by
    intro s hs
    have hk := h.kept s hs
    refine ⟨hk.improving, hk.initial, ?_, fun q hq => ?_⟩
    · obtain hi | ⟨q, hq, hv⟩ := hk.origin
      · exact .inl hi
      · exact .inr ⟨q, List.mem_append_left _ hq, hv⟩
    · rcases List.mem_append.mp hq with hq | hq
      · rcases hk.reached q hq with hv | ⟨f, hf, hu⟩
        · exact .inl hv
        · exact .inr ⟨f, List.mem_append_left _ hf, hu⟩
      · rw [List.mem_singleton.mp hq]
        exact .inr ⟨_, List.mem_append_right _ (List.mem_singleton_self _), rfl, hs⟩
  unkept := h.unkept

theorem Kept.move {rs : List Sample} {fs fs' : List Flight} {o o' : Cell ℕ} (h : Kept w s rs fs o)
    (hi : o'.Improving s.Better) (hv : ¬ s.Better o.value o'.value)
    (ho : o'.value = o.value ∨ ∃ r ∈ rs, r.value = o'.value)
    (hu : ∀ r, Unseen s fs r → Unseen s fs' r ∨ ¬ s.Better r.value o'.value) : Kept w s rs fs' o' where
  improving := hi
  initial := Side.trans h.initial hv
  origin := by
    obtain ho | ho := ho
    · rw [ho]
      exact h.origin
    · exact .inr ho
  reached := by
    intro r hr
    rcases h.reached r hr with hb | hun
    · exact .inl (Side.trans hb hv)
    · exact (hu r hun).symm

theorem Kept.frame {rs : List Sample} {fs fs' : List Flight} {o : Cell ℕ} (h : Kept w s rs fs o)
    (hu : ∀ r, Unseen s fs r → Unseen s fs' r) : Kept w s rs fs' o :=
  h.move h.improving ((ranking s).irrefl _) (.inl rfl) fun r hr => .inl (hu r hr)

/-- What a record has to add before and after an operation. -/
theorem due_cons {x : Instr} {rest : List Instr} (hf : f.rest = x :: rest) (hn : f.rest.Nodup) :
    due c f = due c { sample := f.sample, rest := rest } + if x = .count c then c.amount f.sample else 0 := by
  unfold due
  rw [hf] at hn ⊢
  obtain ⟨hx, -⟩ := List.nodup_cons.mp hn
  by_cases hc : x = .count c
  · subst hc
    simp [hx]
  · simp [hc, Ne.symm hc]

/-- What a record may change when it goes on from `f` to `f'`. -/
structure Moves (a : Atomic) (f f' : Flight) (counter : Counter → ℕ) (bound : Side → Cell ℕ) : Prop where
  sample : f'.sample = f.sample
  rest : f'.rest <:+ f.rest
  loaded : ∀ (s : Side) (q : ℕ), (∃ rest, f'.rest = .bound s :: rest) → f'.prev = some q → ¬ s.Better q (bound s).value
  counted : ∀ c, a.counter c < 2 ^ 64 → counter c < 2 ^ 64 ∧
    (counter c + due c f') % 2 ^ 64 = (a.counter c + due c f) % 2 ^ 64
  uncounted : ∀ c, .count c ∉ f.rest → counter c = a.counter c
  improving : ∀ s : Side, (a.bound s).Improving s.Better → (bound s).Improving s.Better
  better : ∀ s : Side, ¬ s.Better (a.bound s).value (bound s).value
  origin : ∀ s : Side, (bound s).value = (a.bound s).value ∨ (bound s).value = f.sample.value
  seen : ∀ s : Side, .bound s ∈ f.rest → .bound s ∈ f'.rest ∨ ¬ s.Better f.sample.value (bound s).value
  unkept : ∀ s : Side, .bound s ∉ f.rest → bound s = a.bound s

section Step

variable (hfs : a.flights = l₁ ++ f :: l₂)

include hfs

theorem mem_self_of_split : f ∈ a.flights := by
  rw [hfs]
  simp

theorem mem_of_split {g : Flight} (hg : g ∈ l₁ ++ l₂) : g ∈ a.flights := by
  rw [hfs]
  rcases List.mem_append.mp hg with hg | hg
  · exact List.mem_append_left _ hg
  · exact List.mem_append_right _ (List.mem_cons_of_mem _ hg)

/-- Behind a step: the record that took it, and the others. -/
theorem mem_split_iff {g : Flight} (hg : g ∈ l₁ ++ f' :: l₂) : g = f' ∨ g ∈ a.flights := by
  rcases List.mem_append.mp hg with hg | hg
  · exact .inr (mem_of_split hfs (List.mem_append_left _ hg))
  · rcases List.mem_cons.mp hg with rfl | hg
    · exact .inl rfl
    · exact .inr (mem_of_split hfs (List.mem_append_right _ hg))

/-- A record returns. -/
theorem Inv.done (h : Inv p w a) (hrest : f.rest = []) : Inv p w { a with flights := l₁ ++ l₂ } where
  rest := fun g hg => h.rest g (mem_of_split hfs hg)
  sample := fun g hg => h.sample g (mem_of_split hfs hg)
  loaded := fun g hg => h.loaded g (mem_of_split hfs hg)
  counted := by
    intro c hc
    obtain ⟨hlt, hsum⟩ := h.counted c hc
    have hdue : due c f = 0 := by simp [due, hrest]
    rw [hfs, pending_split, hdue, Nat.zero_add] at hsum
    exact ⟨hlt, hsum⟩
  uncounted := h.uncounted
  kept := by
    intro s hs
    refine (h.kept s hs).frame fun r hr => ?_
    rw [hfs, unseen_split, hrest] at hr
    rcases hr with ⟨-, hr⟩ | hr
    · cases hr
    · exact hr
  unkept := h.unkept

/-- A record goes on. -/
theorem Inv.moves {counter : Counter → ℕ} {bound : Side → Cell ℕ} (h : Inv p w a) (hm : Moves a f f' counter bound) :
    Inv p w { counter := counter, bound := bound, flights := l₁ ++ f' :: l₂, begun := a.begun } where
  rest := by
    intro g hg
    rcases mem_split_iff hfs hg with rfl | hg
    · exact hm.rest.trans (h.rest f (mem_self_of_split hfs))
    · exact h.rest g hg
  sample := by
    intro g hg
    rcases mem_split_iff hfs hg with rfl | hg
    · rw [hm.sample]
      exact h.sample f (mem_self_of_split hfs)
    · exact h.sample g hg
  loaded := by
    intro g hg s q hs hq
    rcases mem_split_iff hfs hg with rfl | hg
    · exact hm.loaded s q hs hq
    · exact Side.trans (h.loaded g hg s q hs hq) (hm.better s)
  counted := by
    intro c hc
    obtain ⟨hlt, hsum⟩ := h.counted c hc
    obtain ⟨hlt', heq⟩ := hm.counted c hlt
    refine ⟨hlt', ?_⟩
    rw [hfs, pending_split] at hsum
    rw [pending_split]
    dsimp only
    omega
  uncounted := by
    intro c hc
    dsimp only
    rw [hm.uncounted c fun hf => hc ((h.rest f (mem_self_of_split hfs)).mem hf)]
    exact h.uncounted c hc
  kept := by
    intro s hs
    have hk := h.kept s hs
    refine hk.move (hm.improving s hk.improving) (hm.better s) ?_ fun r hr => ?_
    · obtain ho | ho := hm.origin s
      · exact .inl ho
      · exact .inr ⟨f.sample, h.sample f (mem_self_of_split hfs), ho.symm⟩
    · rw [hfs, unseen_split] at hr
      rw [unseen_split, hm.sample]
      rcases hr with ⟨rfl, hr⟩ | hr
      · exact (hm.seen s hr).imp (fun hf => .inl ⟨rfl, hf⟩) id
      · exact .inl (.inr hr)
  unkept := by
    intro s hs
    dsimp only
    rw [hm.unkept s fun hf => hs ((h.rest f (mem_self_of_split hfs)).mem hf)]
    exact h.unkept s hs

end Step

theorem moves_count {rest : List Instr} (hf : f.rest = .count c :: rest) (hn : f.rest.Nodup) :
    Moves a f { sample := f.sample, rest := rest }
      (Function.update a.counter c ((a.counter c + c.amount f.sample) % 2 ^ 64)) a.bound where
  sample := rfl
  rest := by
    rw [hf]
    exact List.suffix_cons _ _
  loaded := fun s q _ hq => by cases hq
  counted := by
    intro d hd
    rw [due_cons hf hn]
    by_cases hc : d = c
    · subst hc
      rw [Function.update_self, if_pos rfl]
      omega
    · rw [Function.update_of_ne hc, if_neg (by simpa using Ne.symm hc)]
      exact ⟨hd, rfl⟩
  uncounted := by
    intro d hd
    rw [hf] at hd
    exact Function.update_of_ne (fun he => hd (by simp [he])) _ _
  improving := fun s hi => hi
  better := fun s => (ranking s).irrefl _
  origin := fun s => .inl rfl
  seen := by
    intro s hs
    rw [hf] at hs
    exact .inl (by simpa using hs)
  unkept := fun s _ => rfl

theorem moves_load {rest : List Instr} {q : ℕ} (hf : f.rest = .bound s :: rest)
    (hq : ¬ s.Better q (a.bound s).value) : Moves a f { f with prev := some q } a.counter a.bound where
  sample := rfl
  rest := List.suffix_rfl
  loaded := by
    rintro t q' ⟨rest', ht⟩ hq'
    cases hf.symm.trans ht
    cases hq'
    exact hq
  counted := fun c hc => ⟨hc, rfl⟩
  uncounted := fun c _ => rfl
  improving := fun s hi => hi
  better := fun s => (ranking s).irrefl _
  origin := fun s => .inl rfl
  seen := fun s hs => .inl hs
  unkept := fun s _ => rfl

/-- The loop is left, or goes on. -/
theorem moves_turn {rest : List Instr} {prev k : ℕ} {spurious : Bool} {o : Cell ℕ} {next : Option ℕ}
    (hf : f.rest = .bound s :: rest) (hn : f.rest.Nodup) (hi : (a.bound s).Improving s.Better)
    (hprev : ¬ s.Better prev (a.bound s).value)
    (ht : (a.bound s).turn s.Better f.sample.value prev k spurious = some (o, next)) :
    Moves a f (next.elim { sample := f.sample, rest := rest } fun q => { f with prev := some q }) a.counter
      (Function.update a.bound s o) := by
  obtain ⟨hi', hb, hnone, hsome⟩ := hi.turn (ranking s) hprev ht
  have hv := Cell.value_turn ht
  refine ⟨?_, ?_, ?_, ?_, ?_, ?_, ?_, ?_, ?_, ?_⟩
  · cases next <;> rfl
  · cases next with
    | none =>
      rw [hf]
      exact List.suffix_cons _ _
    | some q => exact List.suffix_rfl
  · rintro t q ⟨rest', ht'⟩ hq
    cases next with
    | none => cases hq
    | some q' =>
      cases hf.symm.trans ht'
      cases hq
      rw [Function.update_self]
      exact hsome q rfl
  · intro c hc
    refine ⟨hc, ?_⟩
    cases next with
    | none =>
      rw [due_cons hf hn, if_neg (by simp)]
      rfl
    | some q => rfl
  · exact fun c _ => rfl
  · intro t hi
    by_cases hts : t = s
    · subst hts
      rwa [Function.update_self]
    · rwa [Function.update_of_ne hts]
  · intro t
    by_cases hts : t = s
    · subst hts
      rwa [Function.update_self]
    · rw [Function.update_of_ne hts]
      exact (ranking t).irrefl _
  · intro t
    by_cases hts : t = s
    · subst hts
      rwa [Function.update_self]
    · rw [Function.update_of_ne hts]
      exact .inl rfl
  · intro t hmem
    cases next with
    | none =>
      by_cases hts : t = s
      · subst hts
        rw [Function.update_self]
        exact .inr (hnone rfl)
      · rw [hf] at hmem
        exact .inl (by simpa [hts] using hmem)
    | some q => exact .inl hmem
  · intro t hmem
    rw [hf] at hmem
    exact Function.update_of_ne (fun he => hmem (by simp [he])) _ _

/-- **Step lemma.** -/
theorem Inv.step (h : Inv p w a) {b : Act} (hs : a.step p b = some a') : Inv p w a' := by
  cases b with
  | begin r =>
    cases hs
    exact h.begin r
  | turn i k spurious =>
    obtain ⟨l₁, f, l₂, hfs, ht⟩ := turned_of_step hs
    have hf := mem_self_of_split hfs
    have hn : f.rest.Nodup := p.nodup.sublist (h.rest f hf).sublist
    have hmem : ∀ s rest, f.rest = .bound s :: rest → .bound s ∈ p.steps := fun s rest hr =>
      (h.rest f hf).mem (by simp [hr])
    cases ht with
    | done hr => exact h.done hfs hr
    | count hr => exact h.moves hfs (moves_count hr hn)
    | @load s rest q hr hp hq =>
      have hi := (h.kept s (hmem s rest hr)).improving
      exact h.moves hfs (moves_load hr (hi q (List.mem_of_getElem? hq)))
    | @leave s rest prev o hr hp ht =>
      have hi := (h.kept s (hmem s rest hr)).improving
      exact h.moves hfs (moves_turn hr hn hi (h.loaded f hf s prev ⟨rest, hr⟩ hp) ht)
    | @again s rest prev q o hr hp ht =>
      have hi := (h.kept s (hmem s rest hr)).improving
      exact h.moves hfs (moves_turn hr hn hi (h.loaded f hf s prev ⟨rest, hr⟩ hp) ht)

/-- Where no record is in flight, the statistics are the plain ones. -/
theorem Inv.stats_eq (h : Inv p w a) (hidle : a.flights = []) : a.stats = (Stats.fresh w).recordAll p a.begun := by
  have hcounter : ∀ c, a.counter c = ((Stats.fresh w).recordAll p a.begun).counter c := by
    intro c
    rw [Stats.counter_recordAll]
    by_cases hc : .count c ∈ p.steps
    · obtain ⟨hlt, hsum⟩ := h.counted c hc
      rw [if_pos hc, ← hsum, hidle, pending, List.map_nil, List.sum_nil, Nat.add_zero, Nat.mod_eq_of_lt hlt]
    · rw [if_neg hc]
      exact h.uncounted c hc
  have hbound : ∀ s, (a.bound s).value = ((Stats.fresh w).recordAll p a.begun).bound s := by
    intro s
    by_cases hs : .bound s ∈ p.steps
    · have hk := h.kept s hs
      refine Best.unique ⟨hk.initial, fun r hr => ?_, hk.origin⟩ (Stats.best_recordAll hs)
      rcases hk.reached r hr with hb | ⟨f, hf, -⟩
      · exact hb
      · rw [hidle] at hf
        cases hf
    · rw [Stats.bound_recordAll_of_not_mem hs]
      exact h.unkept s hs
  exact congrArg₂ Stats.mk (funext hcounter) (funext hbound)

/-- **The atomic statistics agree with the plain ones** whenever no record is in flight, for any number of threads and
every interleaving of their steps, stale loads and failed exchanges included. -/
theorem atomic_exact (p : Program) (w : ℕ) (acts : List Act) (a : Atomic)
    (hrun : Run (Steps p) (fun _ _ => True) (fresh w) acts a) (hidle : a.flights = []) :
    a.stats = (Stats.fresh w).recordAll p a.begun :=
  (hrun.invariant (inv_fresh p w) fun _ _ _ h _ hs => h.step hs).stats_eq hidle

/-- Two records race for the minimum; a failed exchange loads a value that was already replaced. -/
def race : List Act :=
  [.begin { value := 5 }, .begin { value := 3 }, .turn 0 0 false, .turn 1 0 false, .turn 1 0 false, .turn 0 0 false,
    .turn 0 0 false, .turn 1 0 false, .turn 0 0 false, .turn 1 1 false, .turn 1 0 false, .turn 1 0 false,
    .turn 0 0 false, .turn 0 0 false, .turn 1 1 false, .turn 1 0 false, .turn 1 0 false, .turn 1 0 false,
    .turn 0 0 false]

theorem atomic_exact_race : ∃ a, Run (Steps Sampler.record) (fun _ _ => True) (fresh 64) race a ∧
    a.stats = (Stats.fresh 64).recordAll Sampler.record a.begun ∧ (a.bound .min).value = 3 ∧
    (a.bound .max).value = 5 := by
  have heval : (race.foldlM (step Sampler.record) (fresh 64)).map
      (fun a => (a.flights.length, (a.bound .min).value, (a.bound .max).value)) = some (0, 3, 5) := by decide
  obtain ⟨a, ha, hv⟩ := Option.map_eq_some_iff.mp heval
  simp only [Prod.mk.injEq, List.length_eq_zero_iff] at hv
  have hrun : Run (Steps Sampler.record) (fun _ _ => True) (fresh 64) race a := Run.of_foldlM ha
  exact ⟨a, hrun, atomic_exact Sampler.record 64 race a hrun hv.1, hv.2⟩

/-! ## Termination -/

/-- A step of a record whose load is not stale and whose exchange does not fail without a reason. -/
def Prompt : Act → Prop
  | .begin _ => False
  | .turn _ k spurious => k = 0 ∧ spurious = false

/-- How far a record is from the next exchange that succeeds, if no other record interferes. -/
def phase (bound : Side → Cell ℕ) (f : Flight) : ℕ :=
  match f.prev, f.rest with
  | none, _ => 2
  | some q, .bound s :: _ => if q = (bound s).value then 0 else 1
  | some _, _ => 0

def left (fs : List Flight) : ℕ := (fs.map fun f => f.rest.length).sum

def phases (bound : Side → Cell ℕ) (fs : List Flight) : ℕ := (fs.map fun f => phase bound f + 1).sum

/-- An exchange that succeeds makes what all the others have loaded stale, so an operation left weighs more than that. -/
def measure (a : Atomic) : ℕ := (a.flights.length + 3) * left a.flights + phases a.bound a.flights

variable {bound bound' : Side → Cell ℕ}

theorem phase_le : phase bound f ≤ 2 := by
  unfold phase
  split
  · omega
  · split <;> omega
  · omega

theorem phase_le_add_one : phase bound f ≤ phase bound' f + 1 := by
  unfold phase
  split
  · omega
  · split <;> omega
  · omega

theorem phases_le_add_length {fs : List Flight} : phases bound fs ≤ phases bound' fs + fs.length := by
  induction fs with
  | nil => simp [phases]
  | cons f fs ih =>
    have hf : phase bound f ≤ phase bound' f + 1 := phase_le_add_one
    simp only [phases, List.map_cons, List.sum_cons, List.length_cons] at ih ⊢
    omega

theorem left_split : left (l₁ ++ f :: l₂) = f.rest.length + left (l₁ ++ l₂) := by
  simp only [left, List.map_append, List.map_cons, List.sum_append, List.sum_cons]
  omega

theorem phases_split : phases bound (l₁ ++ f :: l₂) = phase bound f + 1 + phases bound (l₁ ++ l₂) := by
  simp only [phases, List.map_append, List.map_cons, List.sum_append, List.sum_cons]
  omega

/-- An operation is done: whatever it does to the others, the measure falls. -/
theorem measure_lt_of_rest {x : Instr} {rest : List Instr} (hfs : a.flights = l₁ ++ f :: l₂) (hf : f.rest = x :: rest)
    (counter : Counter → ℕ) (begun : List Sample) :
    measure { counter, bound, flights := l₁ ++ { sample := f.sample, rest := rest } :: l₂, begun } < measure a := by
  have h1 : phases bound (l₁ ++ l₂) ≤ phases a.bound (l₁ ++ l₂) + (l₁ ++ l₂).length := phases_le_add_length
  have h2 : phase bound { sample := f.sample, rest := rest } ≤ 2 := phase_le
  have hlen : (l₁ ++ f :: l₂).length = (l₁ ++ l₂).length + 1 := by simp; omega
  have hlen' : (l₁ ++ ({ sample := f.sample, rest := rest } : Flight) :: l₂).length = (l₁ ++ l₂).length + 1 := by
    simp; omega
  simp only [measure, hfs, hlen, hlen', left_split, phases_split, hf, List.length_cons]
  generalize (l₁ ++ l₂).length = n at *
  have h3 : (n + 1 + 3) * (rest.length + 1 + left (l₁ ++ l₂)) =
      (n + 1 + 3) * (rest.length + left (l₁ ++ l₂)) + (n + 4) := by ring
  omega

/-- A record loads the latest value. -/
theorem measure_lt_of_phase (f' : Flight) (hfs : a.flights = l₁ ++ f :: l₂) (hrest : f'.rest = f.rest)
    (hphase : phase a.bound f' < phase a.bound f) (begun : List Sample) :
    measure { counter := a.counter, bound := a.bound, flights := l₁ ++ f' :: l₂, begun } < measure a := by
  have hlen : (l₁ ++ f' :: l₂).length = (l₁ ++ f :: l₂).length := by simp
  simp only [measure, hfs, hlen, left_split, phases_split, hrest]
  omega

theorem measure_lt_of_done (hfs : a.flights = l₁ ++ f :: l₂) :
    measure { a with flights := l₁ ++ l₂ } < measure a := by
  have hlen : (l₁ ++ f :: l₂).length = (l₁ ++ l₂).length + 1 := by simp; omega
  simp only [measure, hfs, hlen, left_split, phases_split]
  have h1 : ((l₁ ++ l₂).length + 3) * left (l₁ ++ l₂) ≤
      ((l₁ ++ l₂).length + 1 + 3) * (f.rest.length + left (l₁ ++ l₂)) :=
    Nat.mul_le_mul (by omega) (by omega)
  omega

theorem phase_current {rest : List Instr} {q : ℕ} (hf : f.rest = .bound s :: rest) (hq : q = (bound s).value) :
    phase bound { f with prev := some q } = 0 := by
  simp [phase, hf, hq]

/-- **Every prompt step brings the end nearer.** -/
theorem measure_lt {b : Act} (hb : Prompt b) (hs : a.step p b = some a') : measure a' < measure a := by
  cases b with
  | begin r => cases hb
  | turn i k spurious =>
    obtain ⟨rfl, rfl⟩ := hb
    obtain ⟨l₁, f, l₂, hfs, ht⟩ := turned_of_step hs
    cases ht with
    | done hr => exact measure_lt_of_done hfs
    | count hr => exact measure_lt_of_rest hfs hr _ _
    | @load s rest q hr hp hq =>
      have hq' : q = (a.bound s).value := by simpa [Cell.seen] using hq.symm
      refine measure_lt_of_phase { f with prev := some q } hfs rfl ?_ _
      rw [phase_current hr hq']
      simp [phase, hp]
    | leave hr hp ht => exact measure_lt_of_rest hfs hr _ _
    | @again s rest prev q o hr hp ht =>
      obtain ⟨-, -, ho⟩ | ⟨-, -, -, ho⟩ | ⟨-, hne, rfl, q', hq, ho⟩ := Cell.turn_cases ht
      · cases ho
      · cases ho
      · cases ho
        have hq' : q = (a.bound s).value := by simpa [Cell.seen] using hq.symm
        have hstale : prev ≠ (a.bound s).value := fun he => by simpa using hne he
        rw [Function.update_eq_self]
        refine measure_lt_of_phase { f with prev := some q } hfs rfl ?_ _
        rw [phase_current hr hq']
        simp [phase, hr, hp, hstale]

theorem exists_prompt (p : Program) (h : a.flights ≠ []) : ∃ b a', Prompt b ∧ Steps p a b a' := by
  obtain ⟨f, fs, hfs⟩ := List.exists_cons_of_ne_nil h
  suffices hadv : ∃ v, a.advance f 0 false = some v by
    obtain ⟨v, hv⟩ := hadv
    have hs : a.step p (.turn 0 0 false) =
        some { v.1 with flights := a.flights.take 0 ++ v.2.toList ++ a.flights.drop (0 + 1) } := by
      simp only [step, hfs, List.getElem?_cons_zero, Option.bind_some, hv, Option.map_some]
    exact ⟨.turn 0 0 false, _, ⟨rfl, rfl⟩, hs⟩
  unfold advance
  cases f.rest with
  | nil => exact ⟨_, rfl⟩
  | cons x rest =>
    cases x with
    | count c => exact ⟨_, rfl⟩
    | bound s =>
      cases f.prev with
      | none => exact ⟨_, rfl⟩
      | some prev =>
        by_cases hb : s.Better f.sample.value prev
        · by_cases hp : prev = (a.bound s).value
          · simp [Cell.turn, ← hp, hb]
          · simp [Cell.turn, hb, hp, Cell.seen]
        · simp [Cell.turn, hb]

/-- **All records finish**, from any state and on every schedule of their steps, as long as loads are not stale and no
exchange fails without a reason: a record can be made to repeat its loop only by another one that gets through. -/
theorem records_finish (p : Program) (a : Atomic) :
    Inevitable (fun a b a' => Prompt b ∧ Steps p a b a') (fun a => a.flights = []) a :=
  Inevitable.of_measure (I := fun _ => True) (f := measure)
    (fun _ _ h => exists_prompt p h)
    (fun _ _ _ _ _ hs => ⟨trivial, measure_lt hs.1 hs.2⟩) trivial

end Atomic

/-! ## The sizes -/

inductive SizeOp (w : ℕ)
  | inc (delta : BitVec w)
  | dec (delta : BitVec w)
  | set (value : BitVec w)

/-- The value that `last_` gets. -/
def SizeOp.apply {w : ℕ} (last : BitVec w) : SizeOp w → BitVec w
  | .inc delta => last + delta
  | .dec delta => last - delta
  | .set value => value

namespace Size

/-- The plain `size`, over samples of `w` bits. -/
structure Plain (w : ℕ) where
  last : BitVec w
  stats : Stats

def Plain.fresh (w : ℕ) : Plain w := { last := 0, stats := Stats.fresh w }

/-- `inc`, `dec` and `set`. -/
def Plain.apply {w : ℕ} (s : Plain w) (op : SizeOp w) : Plain w :=
  { last := op.apply s.last, stats := s.stats.record updateExtremes { value := (op.apply s.last).toNat } }

/-- The atomic `size`; `ops` is the history of the operations in the order in which they reached `last_`. -/
structure Shared (w : ℕ) where
  last : BitVec w
  stats : Atomic
  ops : List (SizeOp w) := []

inductive Act (w : ℕ)
  | begin (op : SizeOp w)
  | turn (i k : ℕ) (spurious : Bool)

namespace Shared

variable {w : ℕ}

def fresh (w : ℕ) : Shared w := { last := 0, stats := Atomic.fresh w }

/-- The value is what the addition to `last_` returned. -/
def step (s : Shared w) : Act w → Option (Shared w)
  | .begin op =>
    (s.stats.step updateExtremes (.begin { value := (op.apply s.last).toNat })).map fun st =>
      { last := op.apply s.last, stats := st, ops := s.ops ++ [op] }
  | .turn i k spurious => (s.stats.step updateExtremes (.turn i k spurious)).map fun st => { s with stats := st }

def Steps (s : Shared w) (b : Act w) (s' : Shared w) : Prop := s.step b = some s'

/-- The samples are those of the plain `size`. -/
structure Inv (s : Shared w) : Prop where
  stats : Atomic.Inv updateExtremes w s.stats
  plain : s.ops.foldl Plain.apply (Plain.fresh w) =
    { last := s.last, stats := (Stats.fresh w).recordAll updateExtremes s.stats.begun }

theorem inv_fresh (w : ℕ) : Inv (fresh w) := ⟨Atomic.inv_fresh _ w, rfl⟩

theorem begun_of_turn {p : Program} {a a' : Atomic} {i k : ℕ} {spurious : Bool}
    (h : a.step p (.turn i k spurious) = some a') : a'.begun = a.begun := by
  obtain ⟨l₁, f, l₂, -, ht⟩ := Atomic.turned_of_step h
  cases ht <;> rfl

theorem Inv.step {s s' : Shared w} (h : Inv s) {b : Act w} (hs : s.step b = some s') : Inv s' := by
  cases b with
  | begin op =>
    simp only [Shared.step, Option.map_eq_some_iff] at hs
    obtain ⟨st, hst, rfl⟩ := hs
    refine ⟨h.stats.step hst, ?_⟩
    cases hst
    rw [List.foldl_append, h.plain, Stats.recordAll_concat]
    rfl
  | turn i k spurious =>
    simp only [Shared.step, Option.map_eq_some_iff] at hs
    obtain ⟨st, hst, rfl⟩ := hs
    refine ⟨h.stats.step hst, ?_⟩
    rw [h.plain, begun_of_turn hst]

/-- **The atomic `size` agrees with the plain one** whenever nothing is in flight: its extremes are those of all values
that `last_` had, in the order in which it had them. -/
theorem size_exact (w : ℕ) (acts : List (Act w)) (s : Shared w) (hrun : Run Steps (fun _ _ => True) (fresh w) acts s)
    (hidle : s.stats.flights = []) :
    ({ last := s.last, stats := s.stats.stats } : Plain w) = s.ops.foldl Plain.apply (Plain.fresh w) := by
  have h := hrun.invariant (inv_fresh w) fun _ _ _ h _ hs => h.step hs
  rw [h.plain, h.stats.stats_eq hidle]

/-- `dec` below zero wraps round, and is the new maximum. -/
theorem size_exact_wrapped : ∃ (acts : List (Act 16)) (s : Shared 16), Run Steps (fun _ _ => True) (fresh 16) acts s ∧
    ({ last := s.last, stats := s.stats.stats } : Plain 16) = s.ops.foldl Plain.apply (Plain.fresh 16) ∧
    s.stats.stats.bound .max = 65535 ∧ s.last = 1 := by
  have heval : (([.begin (.dec 1), .begin (.inc 2)] ++ List.replicate 14 (.turn 0 0 false) : List (Act 16)).foldlM
      step (fresh 16)).map (fun s => (s.stats.flights.length, s.stats.stats.bound .max, s.last)) =
      some (0, 65535, 1) := by decide
  obtain ⟨s, hs, hv⟩ := Option.map_eq_some_iff.mp heval
  simp only [Prod.mk.injEq, List.length_eq_zero_iff] at hv
  have hrun : Run Steps (fun _ _ => True) (fresh 16) _ s := Run.of_foldlM hs
  exact ⟨_, s, hrun, size_exact 16 _ s hrun hv.1, hv.2⟩

end Shared

end Size

end Wirekrak.Metrics

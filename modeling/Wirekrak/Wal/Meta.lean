import Mathlib.Data.Fintype.Basic
import Mathlib.Logic.Function.Basic
import Wirekrak.Lib.Run

/-!
# Wirekrak.Wal.Meta — the meta state of the log, one atomic access a step

`MetaStore` keeps the position (segment index and offset, packed in one word) and the event id in two atomics, with a
dirty flag.  The recorder updates them, the coordinator's thread writes them to the meta file when the flag is set, and
any number of readers call `get_state`; every load and store is a step of its own, and the write of the file may fail.

* `MetaSys.updates`: the updates called so far; `returned`, `written`: what `get_state` and the flushes have made of
  them; `failed`: the dirty flag as each failed flush left it.
* `Consistent`: the triples are those of updates, and a failed flush leaves the state dirty.
* `Undisturbed`: how the steps of the recorder and the loads of the others may follow one another, and when a write may
  fail; `meta_consistent`: the state is then consistent throughout.
* In `mixed_triple` a reader falls between the two stores of an update; in `failed_flush_forgotten` a failed write is
  never made up for.
-/

namespace Wirekrak.Wal

open Wirekrak.Lib

structure MetaState where
  lastSegmentIndex : BitVec 32 := 0
  lastOffset : BitVec 32 := 0
  lastEventId : BitVec 64 := 0
  deriving DecidableEq

/-- `pack_state_`. -/
def packState (segmentIndex offset : BitVec 32) : BitVec 64 :=
  (segmentIndex.zeroExtend 64 <<< 32) ||| offset.zeroExtend 64

def MetaState.packed (m : MetaState) : BitVec 64 := packState m.lastSegmentIndex m.lastOffset

/-- The triple that `get_state` makes of the two words, and a later `load` of the file that holds them. -/
def unpack (packed eventId : BitVec 64) : MetaState where
  lastSegmentIndex := (packed >>> 32).truncate 32
  lastOffset := (packed &&& 0xFFFFFFFF#64).truncate 32
  lastEventId := eventId

theorem unpack_packed (m : MetaState) : unpack m.packed m.lastEventId = m := by
  have h1 : (m.packed >>> 32).truncate 32 = m.lastSegmentIndex := by
    ext i hi
    simp only [MetaState.packed, packState, BitVec.truncate_eq_setWidth, BitVec.getElem_setWidth,
      BitVec.getLsbD_ushiftRight, BitVec.getLsbD_or, BitVec.getLsbD_shiftLeft, BitVec.getLsbD_setWidth]
    simp [hi, show 32 + i < 64 by omega, show i < 64 by omega]
  have h2 : (m.packed &&& 0xFFFFFFFF#64).truncate 32 = m.lastOffset := by
    have hmask : (0xFFFFFFFF#64 : BitVec 64) = (BitVec.allOnes 32).setWidth 64 := by decide
    ext i hi
    simp only [MetaState.packed, packState, BitVec.truncate_eq_setWidth, BitVec.getElem_setWidth, hmask,
      BitVec.getLsbD_and, BitVec.getLsbD_or, BitVec.getLsbD_shiftLeft, BitVec.getLsbD_setWidth, BitVec.getLsbD_allOnes]
    simp [hi, show i < 64 by omega]
  unfold unpack
  rw [h1, h2]

/-! ## The threads -/

/-- Where the recorder stands in `update`: the position stored, the event id stored too. -/
inductive Updating where
  | idle
  | stored (m : MetaState)
  | named

/-- Where the coordinator stands in `flush_loop_` and in `flush_to_disk_`: the flag seen, the flag cleared, the
position loaded (after `k` updates of it), both words loaded. -/
inductive Flushing where
  | waiting
  | awake
  | cleared
  | loaded (packed : BitVec 64) (k : ℕ)
  | writing (packed eventId : BitVec 64)

/-- Where a reader stands in `get_state`. -/
inductive Getting where
  | idle
  | loaded (packed : BitVec 64) (k : ℕ)

structure MetaSys (ρ : Type*) where
  state : BitVec 64
  lastEventId : BitVec 64
  dirty : Bool := false
  recorder : Updating := .idle
  coordinator : Flushing := .waiting
  reader : ρ → Getting := fun _ => .idle
  updates : List MetaState := []
  returned : List MetaState := []
  written : List MetaState := []
  failed : List Bool := []

inductive MetaAct (ρ : Type*) where
  | update (m : MetaState)
  | record
  | coordinate (ok : Bool)
  | getState (r : ρ)
  | read (r : ρ)

namespace MetaSys

variable {ρ : Type*}

def recordStep (s : MetaSys ρ) : MetaSys ρ :=
  match s.recorder with
  | .idle => s
  | .stored m => { s with lastEventId := m.lastEventId, recorder := .named }
  | .named => { s with dirty := true, recorder := .idle }

/-- `ok` is the outcome of the write of the file, where it comes to that. -/
def coordinateStep (s : MetaSys ρ) (ok : Bool) : MetaSys ρ :=
  match s.coordinator with
  | .waiting => if s.dirty then { s with coordinator := .awake } else s
  | .awake => if s.dirty then { s with dirty := false, coordinator := .cleared } else { s with coordinator := .waiting }
  | .cleared => { s with coordinator := .loaded s.state s.updates.length }
  | .loaded packed _ => { s with coordinator := .writing packed s.lastEventId }
  | .writing packed eventId =>
    if ok then { s with coordinator := .waiting, written := s.written ++ [unpack packed eventId] }
    else { s with coordinator := .waiting, failed := s.failed ++ [s.dirty] }

variable [DecidableEq ρ]

def step (s : MetaSys ρ) : MetaAct ρ → MetaSys ρ
  | .update m =>
    match s.recorder with
    | .idle => { s with state := m.packed, recorder := .stored m, updates := s.updates ++ [m] }
    | _ => s
  | .record => s.recordStep
  | .coordinate ok => s.coordinateStep ok
  | .getState r =>
    match s.reader r with
    | .idle => { s with reader := Function.update s.reader r (.loaded s.state s.updates.length) }
    | _ => s
  | .read r =>
    match s.reader r with
    | .loaded packed _ =>
      { s with
        reader := Function.update s.reader r .idle
        returned := s.returned ++ [unpack packed s.lastEventId] }
    | .idle => s

/-- A store as constructed, or as `load` has filled it from an older file. -/
def fresh (state lastEventId : BitVec 64) : MetaSys ρ := { state := state, lastEventId := lastEventId }

/-- The triples are those of updates, and a flush that failed has left the state dirty. -/
structure Consistent (s : MetaSys ρ) : Prop where
  returned : ∀ m ∈ s.returned, m ∈ s.updates
  written : ∀ m ∈ s.written, m ∈ s.updates
  failed : ∀ b ∈ s.failed, b = true

/-! ## The condition -/

/-- The recorder has stored the position of its update and not yet the event id. -/
def midUpdate (s : MetaSys ρ) : Bool :=
  match s.recorder with
  | .stored _ => true
  | _ => false

/-- Between the two loads of a flush: how many updates had stored their position at the first one. -/
def flushing (s : MetaSys ρ) : Option ℕ :=
  match s.coordinator with
  | .loaded _ k => some k
  | _ => none

/-- Between the two loads of a `get_state`. -/
def getting (s : MetaSys ρ) (r : ρ) : Option ℕ :=
  match s.reader r with
  | .loaded _ k => some k
  | .idle => none

/-- Somebody between his two loads has come in the middle of the update at hand. -/
def Inside (s : MetaSys ρ) (k : ℕ) : Prop := s.midUpdate = true ∧ k = s.updates.length

instance (s : MetaSys ρ) (k : ℕ) : Decidable (s.Inside k) :=
  inferInstanceAs (Decidable (s.midUpdate = true ∧ k = s.updates.length))

/-- `dirty_.exchange(true)` comes, in this step or before, after the last `dirty_.exchange(false)`. -/
def marks (s : MetaSys ρ) (marked : Bool) : MetaAct ρ → Bool
  | .record =>
    match s.recorder with
    | .named => true
    | _ => marked
  | .coordinate _ =>
    match s.coordinator with
    | .awake => false
    | _ => marked
  | _ => marked

/-- A step beside the mark of the updates since the flag was cleared. -/
def observe (t : MetaSys ρ × Bool) (a : MetaAct ρ) : MetaSys ρ × Bool := (t.1.step a, t.1.marks t.2 a)

/-- While somebody stands between the two loads of a triple, the recorder stores no event id but that of the update into
which the first load fell, and for this one the second load waits.  A `get_state` comes after the first update, and a
write fails only after an update has marked the state again. -/
def Undisturbed (t : MetaSys ρ × Bool) : MetaAct ρ → Prop
  | .update _ => True
  | .record => t.1.midUpdate = true →
      (∀ k ∈ t.1.flushing, t.1.Inside k) ∧ ∀ r, ∀ k ∈ t.1.getting r, t.1.Inside k
  | .coordinate ok =>
    match t.1.coordinator with
    | .loaded _ k => ¬ t.1.Inside k
    | .writing _ _ => ok = false → t.2 = true
    | _ => True
  | .getState r => t.1.getting r = none → t.1.updates ≠ []
  | .read r => ∀ k ∈ t.1.getting r, ¬ t.1.Inside k

instance [Fintype ρ] : ∀ t : MetaSys ρ × Bool, DecidablePred (Undisturbed t)
  | _, .update _ => inferInstanceAs (Decidable True)
  | t, .record => inferInstanceAs (Decidable (t.1.midUpdate = true →
      (∀ k ∈ t.1.flushing, t.1.Inside k) ∧ ∀ r, ∀ k ∈ t.1.getting r, t.1.Inside k))
  | t, .getState r => inferInstanceAs (Decidable (t.1.getting r = none → t.1.updates ≠ []))
  | t, .read r => inferInstanceAs (Decidable (∀ k ∈ t.1.getting r, ¬ t.1.Inside k))
  | ⟨s, marked⟩, .coordinate ok =>
    match h : s.coordinator with
    | .loaded _ k => decidable_of_iff (¬ s.Inside k) (by simp only [Undisturbed, h])
    | .writing _ _ => decidable_of_iff (ok = false → marked = true) (by simp only [Undisturbed, h])
    | .waiting => decidable_of_iff True (by simp only [Undisturbed, h])
    | .awake => decidable_of_iff True (by simp only [Undisturbed, h])
    | .cleared => decidable_of_iff True (by simp only [Undisturbed, h])

/-! ## Loads that pair -/

/-- The updates whose event id is stored. -/
def named (s : MetaSys ρ) : ℕ :=
  match s.recorder with
  | .stored _ => s.updates.length - 1
  | _ => s.updates.length

/-- The second load gives the event id of the update whose position was loaded; where a write fails, the flag is set. -/
def PairedFlush (s : MetaSys ρ) (ok : Bool) : Flushing → Prop
  | .loaded _ k => k = s.named
  | .writing _ _ => ok = false → s.dirty = true
  | _ => True

def PairedRead (s : MetaSys ρ) : Getting → Prop
  | .loaded _ k => 0 < k ∧ k = s.named
  | .idle => True

def Paired (s : MetaSys ρ) : MetaAct ρ → Prop
  | .coordinate ok => s.PairedFlush ok s.coordinator
  | .read r => s.PairedRead (s.reader r)
  | _ => True

/-- Who stands between his two loads has loaded the position of the last update with an event id, or has come in the
middle of the next one. -/
structure Loads (t : MetaSys ρ × Bool) : Prop where
  flush : ∀ k ∈ t.1.flushing, k = t.1.named ∨ t.1.Inside k
  get : ∀ r, ∀ k ∈ t.1.getting r, 0 < k ∧ (k = t.1.named ∨ t.1.Inside k)
  marked : t.2 = true → t.1.dirty = true

/-! ## The invariant -/

/-- The word is the position of the `k`-th update, if `k` counts any. -/
def Positioned (updates : List MetaState) (k : ℕ) (packed : BitVec 64) : Prop :=
  0 < k → ∃ m, updates[k - 1]? = some m ∧ m.packed = packed

def FlushOk (updates : List MetaState) (named : ℕ) : Flushing → Prop
  | .waiting => True
  | .awake => True
  | .cleared => 0 < named
  | .loaded packed k => 0 < named ∧ Positioned updates k packed
  | .writing packed eventId => unpack packed eventId ∈ updates

def GetOk (updates : List MetaState) : Getting → Prop
  | .loaded packed k => Positioned updates k packed
  | .idle => True

structure Inv (s : MetaSys ρ) : Prop where
  state : Positioned s.updates s.updates.length s.state
  event : 0 < s.named → ∃ m, s.updates[s.named - 1]? = some m ∧ m.lastEventId = s.lastEventId
  stored : ∀ m, s.recorder = .stored m → s.updates[s.updates.length - 1]? = some m
  dirty : s.dirty = true → 0 < s.named
  marking : s.recorder = .named → 0 < s.named
  coordinator : FlushOk s.updates s.named s.coordinator
  reader : ∀ r, GetOk s.updates (s.reader r)
  returned : ∀ m ∈ s.returned, m ∈ s.updates
  written : ∀ m ∈ s.written, m ∈ s.updates
  failed : ∀ b ∈ s.failed, b = true

variable {s : MetaSys ρ}

omit [DecidableEq ρ] in
theorem inv_fresh (state lastEventId : BitVec 64) : Inv (fresh state lastEventId : MetaSys ρ) where
  state := fun h => absurd h (Nat.not_lt_zero 0)
  event := fun h => absurd h (Nat.not_lt_zero 0)
  stored := fun m h => by cases h
  dirty := fun h => by cases h
  marking := fun h => by cases h
  coordinator := trivial
  reader := fun _ => trivial
  returned := fun _ h => by cases h
  written := fun _ h => by cases h
  failed := fun _ h => by cases h

omit [DecidableEq ρ] in
theorem Inv.consistent (h : Inv s) : Consistent s := ⟨h.returned, h.written, h.failed⟩

omit [DecidableEq ρ] in
/-- The two words of one update are its triple. -/
theorem Inv.paired (h : Inv s) {packed : BitVec 64} {k : ℕ} (hp : Positioned s.updates k packed) (hk : 0 < k)
    (hn : k = s.named) : unpack packed s.lastEventId ∈ s.updates := by
  obtain ⟨m, hm, rfl⟩ := hp hk
  obtain ⟨m', hm', hid⟩ := h.event (by omega)
  rw [← hn, hm] at hm'
  injection hm' with hmm
  rw [← hid, ← hmm, unpack_packed]
  exact List.mem_of_getElem? hm

omit [DecidableEq ρ] in
theorem Positioned.concat {updates : List MetaState} {k : ℕ} {packed : BitVec 64} (h : Positioned updates k packed)
    (m : MetaState) : Positioned (updates ++ [m]) k packed := by
  intro hk
  obtain ⟨m', hm', hp⟩ := h hk
  exact ⟨m', getElem?_append_of_some hm' _, hp⟩

omit [DecidableEq ρ] in
/-- The position of a new update is stored; the event ids are as before. -/
theorem inv_update (h : Inv s) (hi : s.recorder = .idle) (m : MetaState) :
    Inv { s with state := m.packed, recorder := .stored m, updates := s.updates ++ [m] } := by
  have hlen : (s.updates ++ [m]).length - 1 = s.updates.length := by simp
  have hnamed : s.named = s.updates.length := by
    unfold named
    rw [hi]
  have hlast : (s.updates ++ [m])[(s.updates ++ [m]).length - 1]? = some m := by
    rw [hlen]
    exact List.getElem?_concat_length
  have hnamed' : ({ s with state := m.packed, recorder := .stored m, updates := s.updates ++ [m] } : MetaSys ρ).named =
      s.named := by
    rw [hnamed]
    exact hlen
  refine ⟨fun _ => ⟨m, hlast, rfl⟩, ?_, ?_, ?_, fun hx => (by cases hx), ?_, fun r => ?_, ?_, ?_, h.failed⟩
  · rw [hnamed']
    intro hpos
    obtain ⟨m', hm', hid⟩ := h.event hpos
    exact ⟨m', getElem?_append_of_some hm' _, hid⟩
  · intro m' hm'
    injection hm' with hmm
    rw [← hmm]
    exact hlast
  · rw [hnamed']
    exact h.dirty
  · have hc := h.coordinator
    rw [hnamed']
    show FlushOk (s.updates ++ [m]) s.named s.coordinator
    cases hco : s.coordinator with
    | waiting => trivial
    | awake => trivial
    | cleared => rw [hco] at hc; exact hc
    | loaded packed k => rw [hco] at hc; exact ⟨hc.1, hc.2.concat m⟩
    | writing packed eventId => rw [hco] at hc; exact List.mem_append_left _ hc
  · have hr := h.reader r
    show GetOk (s.updates ++ [m]) (s.reader r)
    cases hre : s.reader r with
    | idle => trivial
    | loaded packed k => rw [hre] at hr; exact Positioned.concat hr m
  · exact fun m' hm' => List.mem_append_left _ (h.returned m' hm')
  · exact fun m' hm' => List.mem_append_left _ (h.written m' hm')

omit [DecidableEq ρ] in
theorem inv_recordStep (h : Inv s) : Inv s.recordStep := by
  unfold recordStep
  split
  · exact h
  · next m hm =>
    -- the event id joins the position stored before
    have hlast := h.stored m hm
    have hpos : 0 < s.updates.length := by
      have := (List.getElem?_eq_some_iff.mp hlast).1
      omega
    have hle : s.named ≤ s.updates.length := by
      unfold named
      split
      · omega
      · exact le_refl _
    refine ⟨h.state, fun _ => ⟨m, hlast, rfl⟩, fun _ hx => (by cases hx), fun _ => hpos, fun _ => hpos, ?_, h.reader,
      h.returned, h.written, h.failed⟩
    have hc := h.coordinator
    show FlushOk s.updates s.updates.length s.coordinator
    cases hco : s.coordinator with
    | waiting => trivial
    | awake => trivial
    | cleared => exact hpos
    | loaded packed k => rw [hco] at hc; exact ⟨hpos, hc.2⟩
    | writing packed eventId => rw [hco] at hc; exact hc
  · next hm =>
    have hnamed : s.named = s.updates.length := by
      unfold named
      rw [hm]
    have hev := h.event
    have hco := h.coordinator
    have hmk := h.marking hm
    rw [hnamed] at hev hco hmk
    exact ⟨h.state, hev, fun _ hx => (by cases hx), fun _ => hmk, fun hx => (by cases hx), hco, h.reader,
      h.returned, h.written, h.failed⟩

omit [DecidableEq ρ] in
theorem inv_coordinateStep (h : Inv s) {ok : Bool} (hok : s.PairedFlush ok s.coordinator) :
    Inv (s.coordinateStep ok) := by
  have hc := h.coordinator
  unfold coordinateStep
  split
  · split
    · exact ⟨h.state, h.event, h.stored, h.dirty, h.marking, trivial, h.reader,
        h.returned, h.written, h.failed⟩
    · exact h
  · split
    · next hd =>
      exact ⟨h.state, h.event, h.stored, fun hx => (by cases hx), h.marking, h.dirty hd, h.reader,
        h.returned, h.written, h.failed⟩
    · exact ⟨h.state, h.event, h.stored, h.dirty, h.marking, trivial, h.reader,
        h.returned, h.written, h.failed⟩
  · next hco =>
    rw [hco] at hc
    exact ⟨h.state, h.event, h.stored, h.dirty, h.marking, ⟨hc, h.state⟩, h.reader,
      h.returned, h.written, h.failed⟩
  · next packed k hco =>
    rw [hco] at hc hok
    have hk : k = s.named := hok
    have hmem := h.paired hc.2 (by rw [hk]; exact hc.1) hk
    exact ⟨h.state, h.event, h.stored, h.dirty, h.marking, hmem, h.reader,
      h.returned, h.written, h.failed⟩
  · next packed eventId hco =>
    rw [hco] at hc hok
    split
    · refine ⟨h.state, h.event, h.stored, h.dirty, h.marking, trivial, h.reader, h.returned, ?_,
        h.failed⟩
      intro m hm
      rcases List.mem_append.mp hm with hm | hm
      · exact h.written m hm
      · rw [List.mem_singleton.mp hm]
        exact hc
    · next hfail =>
      refine ⟨h.state, h.event, h.stored, h.dirty, h.marking, trivial, h.reader, h.returned,
        h.written, ?_⟩
      intro b hb
      rcases List.mem_append.mp hb with hb | hb
      · exact h.failed b hb
      · rw [List.mem_singleton.mp hb]
        exact hok (Bool.eq_false_iff.mpr hfail)

theorem inv_reader (h : Inv s) {r : ρ} {g : Getting} (hg : GetOk s.updates g) (r' : ρ) :
    GetOk s.updates (Function.update s.reader r g r') := by
  by_cases hr : r' = r
  · rw [hr, Function.update_self]
    exact hg
  · rw [Function.update_of_ne hr]
    exact h.reader r'

theorem inv_step (h : Inv s) {a : MetaAct ρ} (hok : s.Paired a) : Inv (s.step a) := by
  cases a with
  | update m =>
    simp only [step]
    split
    · next hi => exact inv_update h hi m
    · exact h
  | record => exact inv_recordStep h
  | coordinate ok => exact inv_coordinateStep h hok
  | getState r =>
    simp only [step]
    split
    · exact ⟨h.state, h.event, h.stored, h.dirty, h.marking, h.coordinator,
        inv_reader h (show GetOk s.updates (.loaded s.state s.updates.length) from h.state),
        h.returned, h.written, h.failed⟩
    · exact h
  | read r =>
    simp only [step]
    split
    · next packed k hr =>
      simp only [Paired, hr, PairedRead] at hok
      have hg := h.reader r
      rw [hr] at hg
      refine ⟨h.state, h.event, h.stored, h.dirty, h.marking, h.coordinator,
        inv_reader h (show GetOk s.updates .idle from trivial), ?_, h.written, h.failed⟩
      intro m hm
      rcases List.mem_append.mp hm with hm | hm
      · exact h.returned m hm
      · rw [List.mem_singleton.mp hm]
        exact h.paired hg hok.1 hok.2
    · exact h

/-! ## The schedule -/

section Schedule

variable {t : MetaSys ρ × Bool}

omit [DecidableEq ρ] in
/-- A first load of now is in the middle of the last update or after it. -/
theorem named_or_inside (s : MetaSys ρ) : s.updates.length = s.named ∨ s.Inside s.updates.length := by
  unfold Inside named midUpdate
  cases s.recorder with
  | idle => exact .inl rfl
  | stored m => exact .inr ⟨rfl, rfl⟩
  | named => exact .inl rfl

omit [DecidableEq ρ] in
theorem Loads.fresh (state lastEventId : BitVec 64) : Loads ((MetaSys.fresh state lastEventId, false) : MetaSys ρ × Bool) :=
  ⟨fun _ h => (by cases h), fun _ _ h => (by cases h), fun h => (by cases h)⟩

omit [DecidableEq ρ] in
theorem paired_of_undisturbed (h : Loads t) {a : MetaAct ρ} (hok : Undisturbed t a) : t.1.Paired a := by
  cases a with
  | update m => trivial
  | record => trivial
  | getState r => trivial
  | coordinate ok =>
    have hf := h.flush
    simp only [Undisturbed] at hok
    simp only [Paired, flushing] at hf ⊢
    cases hco : t.1.coordinator with
    | waiting => trivial
    | awake => trivial
    | cleared => trivial
    | loaded packed k =>
      rw [hco] at hok hf
      exact (hf k rfl).resolve_right hok
    | writing packed eventId =>
      rw [hco] at hok
      exact fun hfail => h.marked (hok hfail)
  | read r =>
    have hg := h.get r
    simp only [Undisturbed, getting] at hok hg
    simp only [Paired]
    cases hre : t.1.reader r with
    | idle => trivial
    | loaded packed k =>
      rw [hre] at hok hg
      obtain ⟨hpos, hk⟩ := hg k rfl
      exact ⟨hpos, hk.resolve_right (hok k rfl)⟩

omit [DecidableEq ρ] in
/-- An update that begins turns nobody away: the event ids are as before. -/
theorem Loads.update (h : Loads t) (hi : t.1.recorder = .idle) (m : MetaState) :
    Loads ({ t.1 with state := m.packed, recorder := .stored m, updates := t.1.updates ++ [m] }, t.2) := by
  have hnamed : t.1.named = t.1.updates.length := by simp only [named, hi]
  have hnamed' : ({ t.1 with state := m.packed, recorder := .stored m, updates := t.1.updates ++ [m] } :
      MetaSys ρ).named = t.1.updates.length := by simp [named]
  have hout : ∀ k, ¬ t.1.Inside k := fun k hk => by simp [Inside, midUpdate, hi] at hk
  refine ⟨fun k hk => .inl ?_, fun r k hk => ?_, h.marked⟩
  · rw [hnamed', ← hnamed]
    exact (h.flush k hk).resolve_right (hout k)
  · rw [hnamed', ← hnamed]
    obtain ⟨hpos, hk'⟩ := h.get r k hk
    exact ⟨hpos, .inl (hk'.resolve_right (hout k))⟩

omit [DecidableEq ρ] in
theorem Loads.record (h : Loads t) (hok : Undisturbed t .record) :
    Loads (t.1.recordStep, t.1.marks t.2 .record) := by
  unfold recordStep marks
  cases hr : t.1.recorder with
  | idle => exact h
  | stored m =>
    -- everybody between his loads has come in the middle of this update
    obtain ⟨hf, hg⟩ := hok (by simp only [midUpdate, hr])
    refine ⟨fun k hk => .inl (hf k hk).2, fun r k hk => ⟨(h.get r k hk).1, .inl (hg r k hk).2⟩, h.marked⟩
  | named =>
    have hnamed : t.1.named = t.1.updates.length := by simp only [named, hr]
    have hout : ∀ k, ¬ t.1.Inside k := fun k hk => by simp [Inside, midUpdate, hr] at hk
    refine ⟨fun k hk => .inl ?_, fun r k hk => ?_, fun _ => rfl⟩
    · exact ((h.flush k hk).resolve_right (hout k)).trans hnamed
    · obtain ⟨hpos, hk'⟩ := h.get r k hk
      exact ⟨hpos, .inl ((hk'.resolve_right (hout k)).trans hnamed)⟩

omit [DecidableEq ρ] in
theorem Loads.coordinate (h : Loads t) (ok : Bool) :
    Loads (t.1.coordinateStep ok, t.1.marks t.2 (.coordinate ok)) := by
  unfold coordinateStep marks
  cases hco : t.1.coordinator with
  | waiting =>
    dsimp only
    split
    · exact ⟨fun _ hk => (by cases hk), h.get, h.marked⟩
    · exact h
  | awake =>
    dsimp only
    split
    · exact ⟨fun _ hk => (by cases hk), h.get, fun hx => (by cases hx)⟩
    · exact ⟨fun _ hk => (by cases hk), h.get, fun hx => (by cases hx)⟩
  | cleared =>
    refine ⟨fun k hk => ?_, h.get, h.marked⟩
    obtain rfl : t.1.updates.length = k := by injection hk
    exact named_or_inside t.1
  | loaded packed k => exact ⟨fun _ hk => (by cases hk), h.get, h.marked⟩
  | writing packed eventId =>
    dsimp only
    split
    · exact ⟨fun _ hk => (by cases hk), h.get, h.marked⟩
    · exact ⟨fun _ hk => (by cases hk), h.get, h.marked⟩

theorem Loads.step (h : Loads t) {a : MetaAct ρ} (hok : Undisturbed t a) : Loads (observe t a) := by
  cases a with
  | update m =>
    unfold observe MetaSys.step
    dsimp only
    split
    · next hi => exact h.update hi m
    · exact h
  | record => exact h.record hok
  | coordinate ok => exact h.coordinate ok
  | getState r =>
    unfold observe MetaSys.step
    dsimp only
    split
    · next hre =>
      refine ⟨h.flush, fun r' k hk => ?_, h.marked⟩
      by_cases hr : r' = r
      · subst hr
        simp only [getting, Function.update_self, Option.mem_some_iff] at hk
        subst hk
        have hne : t.1.updates ≠ [] := hok (by simp only [getting, hre])
        exact ⟨List.length_pos_iff.mpr hne, named_or_inside t.1⟩
      · simp only [getting, Function.update_of_ne hr] at hk
        exact h.get r' k hk
    · exact h
  | read r =>
    unfold observe MetaSys.step
    dsimp only
    split
    · refine ⟨h.flush, fun r' k hk => ?_, h.marked⟩
      by_cases hr : r' = r
      · subst hr
        simp only [getting, Function.update_self] at hk
        cases hk
      · simp only [getting, Function.update_of_ne hr] at hk
        exact h.get r' k hk
    · exact h

theorem foldl_observe (acts : List (MetaAct ρ)) (t : MetaSys ρ × Bool) :
    (acts.foldl observe t).1 = acts.foldl MetaSys.step t.1 := by
  induction acts generalizing t with
  | nil => rfl
  | cons a acts ih => exact ih (observe t a)

end Schedule

/-- **Meta consistency.** In every interleaving of the recorder, the coordinator and any readers in which nobody's two
loads are torn apart by an update, and a write fails only after an update has marked the state again. -/
theorem meta_consistent (state lastEventId : BitVec 64) (acts : List (MetaAct ρ))
    (hok : Admitted observe Undisturbed (fresh state lastEventId, false) acts) :
    ∀ bs, bs <+: acts → Consistent (bs.foldl step (fresh state lastEventId)) := by
  intro bs hbs
  have hrun : Run (fun t a u => observe t a = u) Undisturbed (fresh state lastEventId, false) bs
      (bs.foldl observe (fresh state lastEventId, false)) :=
    Run.of_admitted (fun _ _ _ => rfl) (hok.of_prefix bs hbs)
  have hinv := hrun.invariant (I := fun t => Inv t.1 ∧ Loads t)
    ⟨inv_fresh state lastEventId, .fresh state lastEventId⟩ (by
      rintro t a _ ⟨ht, hl⟩ hta rfl
      exact ⟨inv_step ht (paired_of_undisturbed hl hta), hl.step hta⟩)
  rw [← foldl_observe bs (fresh state lastEventId, false)]
  exact hinv.1.consistent

/-- A flush in one go, from the flag on. -/
def flushAll (ok : Bool) : List (MetaAct ρ) := List.replicate 5 (.coordinate ok)

/-- An update, a flush of it and a reader. -/
theorem meta_consistent_one_update :
    let acts : List (MetaAct Unit) :=
      ([.update ⟨1, 64, 7⟩, .record, .record] : List (MetaAct Unit)) ++ flushAll true ++
        ([.getState (), .read ()] : List (MetaAct Unit))
    let s := acts.foldl step (fresh 0 0)
    s.written = [⟨1, 64, 7⟩] ∧ s.returned = [⟨1, 64, 7⟩] ∧ Consistent s := by
  intro acts s
  exact ⟨by decide +kernel, by decide +kernel, meta_consistent 0 0 acts (by decide +kernel) acts List.prefix_rfl⟩

/-- A reader comes between the two stores of an update, and gets its position with the event id of the one before. -/
theorem mixed_triple :
    let acts : List (MetaAct Unit) :=
      [.update ⟨1, 64, 7⟩, .record, .record, .update ⟨2, 128, 9⟩, .getState (), .read ()]
    let s := acts.foldl step (fresh 0 0)
    s.updates = [⟨1, 64, 7⟩, ⟨2, 128, 9⟩] ∧ s.returned = [⟨2, 128, 7⟩] ∧ ¬ Consistent s := by
  intro acts s
  have hupd : s.updates = [⟨1, 64, 7⟩, ⟨2, 128, 9⟩] := by decide +kernel
  have hret : s.returned = [⟨2, 128, 7⟩] := by decide +kernel
  refine ⟨hupd, hret, fun h => ?_⟩
  have hmem := h.returned ⟨2, 128, 7⟩ (by rw [hret]; exact List.mem_singleton_self _)
  rw [hupd] at hmem
  exact absurd hmem (by decide)

/-- A write fails, the flag stays cleared, and no later flush finds anything to do. -/
theorem failed_flush_forgotten :
    let acts : List (MetaAct Unit) :=
      ([.update ⟨1, 64, 7⟩, .record, .record] : List (MetaAct Unit)) ++ flushAll false
    let s := acts.foldl step (fresh 0 0)
    s.dirty = false ∧ s.written = [] ∧ s.step (.coordinate true) = s ∧ ¬ Consistent s := by
  intro acts s
  refine ⟨by decide +kernel, by decide +kernel, rfl, fun h => ?_⟩
  have hmem := h.failed false (by decide +kernel)
  exact absurd hmem (by decide)

end MetaSys

end Wirekrak.Wal

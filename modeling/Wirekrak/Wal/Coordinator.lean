import Wirekrak.Lib.Reach
import Wirekrak.Wal.Meta

/-!
# Wirekrak.Wal.Coordinator — the thread that flushes the meta state, and its shutdown

`MetaCoordinator` flushes a `MetaStore` in a thread that sleeps on a condition variable until the state is dirty or
`stop` has cleared `running_`.  `update` notifies under the mutex, which the thread holds from its test to its sleep;
`stop` notifies without it.

* `Coordinator`: the store, and where the flushing thread and the thread of the recorder's manager stand.
* `store_moves`: the store moves by the steps of `MetaSys`: every result about the runs of `Wal.Meta` is one about the store
  of a coordinator.
* `stop_persists`: when the flushing thread has ended, the file holds the last update, if the last write succeeded.
* `stop_returns_iff`: `stop` can always still return just when its notification does not fall between the thread's test
  of `running_` and its sleep.  In `stop_not_heard` it does.
-/

namespace Wirekrak.Wal

open Wirekrak.Lib

/-- Where the thread stands in `flush_loop_`: about to take the mutex and to test `running_`, about to test the flag, to
sleep, to test the flag again, inside `flush_to_disk`, in the two tests that end the loop. -/
inductive FlushLoop
  | unstarted
  | waking
  | looking
  | falling
  | asleep
  | testing
  | flushing
  | closing
  | ending
  | finished
  deriving DecidableEq

/-- Where the manager's thread stands: inside `update` of the store, about to take the mutex and notify; in `stop`,
about to notify, joining. -/
inductive Managing
  | idle
  | updating
  | locking
  | notifying
  | joining
  | stopped
  deriving DecidableEq

/-- `landed`: the last write of the file succeeded. -/
structure Coordinator (ρ : Type*) where
  store : MetaSys ρ
  running : Bool := false
  loop : FlushLoop := .unstarted
  manager : Managing := .idle
  landed : Bool := true

/-- `wake` is a wake-up without a notification. -/
inductive CoordinatorAct (ρ : Type*)
  | start
  | update (m : MetaState)
  | stop
  | manage
  | flush (ok : Bool)
  | wake
  | getState (r : ρ)
  | read (r : ρ)

/-- The thread holds the mutex. -/
def FlushLoop.holds : FlushLoop → Bool
  | .looking | .falling | .testing | .flushing => true
  | .unstarted | .waking | .asleep | .closing | .ending | .finished => false

/-- `stop` was called. -/
def Managing.ends : Managing → Bool
  | .notifying | .joining | .stopped => true
  | .idle | .updating | .locking => false

namespace Coordinator

variable {ρ : Type*}

/-- A notification wakes the thread only if it sleeps; it then takes the mutex and tests again. -/
def notify (s : Coordinator ρ) : Coordinator ρ := if s.loop = .asleep then { s with loop := .waking } else s

/-- A step of `flush_loop_`; `ok` is the outcome of the write, where it comes to that. -/
def flushStep (s : Coordinator ρ) (ok : Bool) : Coordinator ρ :=
  match s.loop with
  | .unstarted => s
  | .waking => { s with loop := if s.running then .looking else .testing }
  | .looking => { s with loop := if s.store.dirty then .testing else .falling }
  | .falling => { s with loop := .asleep }
  | .asleep => s
  | .testing => { s with store := s.store.coordinateStep ok, loop := if s.store.dirty then .flushing else .closing }
  | .flushing =>
    match s.store.coordinator with
    | .writing _ _ => { s with store := s.store.coordinateStep ok, landed := ok, loop := .closing }
    | .awake => { s with store := s.store.coordinateStep ok, loop := if s.store.dirty then .flushing else .closing }
    | _ => { s with store := s.store.coordinateStep ok }
  | .closing => { s with loop := if s.running then .waking else .ending }
  | .ending => { s with loop := if s.store.dirty then .waking else .finished }
  | .finished => s

/-- A step of `update` or of `stop`.  Taking the mutex, notifying and giving it back are one step. -/
def manageStep (s : Coordinator ρ) : Coordinator ρ :=
  match s.manager with
  | .idle => s
  | .updating =>
    match s.store.recorder with
    | .named => { s with store := s.store.recordStep, manager := .locking }
    | _ => { s with store := s.store.recordStep }
  | .locking => if s.loop.holds then s else { s.notify with manager := .idle }
  | .notifying => { s.notify with manager := .joining }
  | .joining => if s.loop = .finished ∨ s.loop = .unstarted then { s with manager := .stopped } else s
  | .stopped => s

variable [DecidableEq ρ]

def step (s : Coordinator ρ) : CoordinatorAct ρ → Coordinator ρ
  | .start =>
    if s.manager = .idle ∧ s.loop = .unstarted then { s with running := true, loop := .waking } else s
  | .update m =>
    if s.manager = .idle then { s with store := s.store.step (.update m), manager := .updating } else s
  | .stop => if s.manager = .idle then { s with running := false, manager := .notifying } else s
  | .manage => s.manageStep
  | .flush ok => s.flushStep ok
  | .wake => s.notify
  | .getState r => { s with store := s.store.step (.getState r) }
  | .read r => { s with store := s.store.step (.read r) }

/-- Before `start`, over an older file. -/
def fresh (state lastEventId : BitVec 64) : Coordinator ρ := { store := .fresh state lastEventId }

def after (state lastEventId : BitVec 64) (acts : List (CoordinatorAct ρ)) : Coordinator ρ :=
  acts.foldl step (fresh state lastEventId)

variable {s : Coordinator ρ} {a : CoordinatorAct ρ}

omit [DecidableEq ρ] in
theorem notify_loop (s : Coordinator ρ) : s.notify.loop = if s.loop = .asleep then .waking else s.loop := by
  unfold notify
  split_ifs <;> rfl

omit [DecidableEq ρ] in
theorem notify_frame (s : Coordinator ρ) : s.notify = { s with loop := s.notify.loop } := by
  unfold notify
  split_ifs <;> rfl

/-! ## The store underneath -/

/-- A step leaves the store or is a step of it. -/
theorem store_step (s : Coordinator ρ) (a : CoordinatorAct ρ) :
    (s.step a).store = s.store ∨ ∃ b, (s.step a).store = s.store.step b := by
  have hnotify : s.notify.store = s.store := by rw [notify_frame]
  cases a with
  | start =>
    simp only [step]
    split_ifs <;> exact .inl rfl
  | update m =>
    simp only [step]
    split_ifs
    · exact .inr ⟨.update m, rfl⟩
    · exact .inl rfl
  | stop =>
    simp only [step]
    split_ifs <;> exact .inl rfl
  | manage =>
    simp only [step, manageStep]
    split
    · exact .inl rfl
    · split <;> exact .inr ⟨.record, rfl⟩
    · split_ifs
      · exact .inl rfl
      · exact .inl hnotify
    · exact .inl hnotify
    · split_ifs <;> exact .inl rfl
    · exact .inl rfl
  | flush ok =>
    simp only [step, flushStep]
    split
    · exact .inl rfl
    · exact .inl rfl
    · exact .inl rfl
    · exact .inl rfl
    · exact .inl rfl
    · exact .inr ⟨.coordinate ok, rfl⟩
    · split <;> exact .inr ⟨.coordinate ok, rfl⟩
    · exact .inl rfl
    · exact .inl rfl
    · exact .inl rfl
  | wake => exact .inl hnotify
  | getState r => exact .inr ⟨.getState r, rfl⟩
  | read r => exact .inr ⟨.read r, rfl⟩

/-- The store of a coordinator goes through a run of `MetaSys`. -/
theorem store_moves (state lastEventId : BitVec 64) (acts : List (CoordinatorAct ρ)) :
    ∃ as : List (MetaAct ρ),
      (after state lastEventId acts).store = as.foldl MetaSys.step (MetaSys.fresh state lastEventId) := by
  unfold after
  induction acts using List.reverseRecOn with
  | nil => exact ⟨[], rfl⟩
  | append_singleton acts a ih =>
    obtain ⟨as, has⟩ := ih
    rw [List.foldl_append, List.foldl_cons, List.foldl_nil]
    rcases store_step (acts.foldl step (fresh state lastEventId)) a with h | ⟨b, h⟩
    · exact ⟨as, h.trans has⟩
    · refine ⟨as ++ [b], ?_⟩
      rw [h, has, List.foldl_append]
      rfl

/-! ## What the file holds -/

/-- What a flush has in hand of the last update, once nothing is dirty. -/
def Carries (t : MetaSys ρ) (landed : Bool) : Flushing → Prop
  | .waiting => landed = true → t.written.getLast? = t.updates.getLast?
  | .awake => False
  | .cleared => True
  | .loaded packed _ => packed = t.state
  | .writing packed eventId => packed = t.state ∧ eventId = t.lastEventId

/-- The words are those of the last update, as far as it has come. -/
def Words (t : MetaSys ρ) : Updating → Prop
  | .idle => ∀ m, t.updates.getLast? = some m → m.packed = t.state ∧ m.lastEventId = t.lastEventId
  | .stored m => t.updates.getLast? = some m ∧ m.packed = t.state
  | .named => ∃ m, t.updates.getLast? = some m ∧ m.packed = t.state ∧ m.lastEventId = t.lastEventId

/-- The store under its coordinator. -/
structure Kept (t : MetaSys ρ) (landed : Bool) : Prop where
  words : Words t t.recorder
  carries : t.dirty = false → t.recorder = .idle → Carries t landed t.coordinator
  untouched : t.updates = [] → t.dirty = false ∧ t.coordinator = .waiting ∧ t.written = []

/-- The phases of the two threads fit the store and each other. -/
structure Inv (s : Coordinator ρ) : Prop extends Kept s.store s.landed where
  updating : s.manager = .updating ↔ s.store.recorder ≠ .idle
  flushing : s.loop = .flushing ↔ s.store.coordinator ≠ .waiting
  running : s.running = true ↔ s.loop ≠ .unstarted ∧ s.manager.ends = false
  ending : s.loop = .ending ∨ s.loop = .finished → s.running = false
  clean : s.loop = .finished → s.store.dirty = false
  heard : s.loop = .falling ∨ s.loop = .asleep → s.store.dirty = false ∨ s.manager = .locking

omit [DecidableEq ρ] in
theorem inv_fresh (state lastEventId : BitVec 64) : Inv (fresh state lastEventId : Coordinator ρ) where
  words := fun m hm => by cases hm
  carries := fun _ _ _ => rfl
  untouched := fun _ => ⟨rfl, rfl, rfl⟩
  updating := by simp [fresh, MetaSys.fresh]
  flushing := by simp [fresh, MetaSys.fresh]
  running := by simp [fresh]
  ending := fun _ => rfl
  clean := by simp [fresh]
  heard := by simp [fresh]

section Kept

variable {t : MetaSys ρ} {landed : Bool}

omit [DecidableEq ρ]

theorem kept_update (t : MetaSys ρ) (landed : Bool) (m : MetaState) :
    Kept { t with state := m.packed, recorder := .stored m, updates := t.updates ++ [m] } landed where
  words := ⟨List.getLast?_concat, rfl⟩
  carries := fun _ hr => by cases hr
  untouched := fun hu => by simp at hu

theorem Kept.record (h : Kept t landed) : Kept t.recordStep landed := by
  have hw := h.words
  have hu := h.untouched
  unfold MetaSys.recordStep
  cases hr : t.recorder with
  | idle => exact h
  | stored m =>
    rw [hr] at hw
    exact ⟨⟨m, hw.1, hw.2, rfl⟩, fun _ hr' => (by cases hr'), hu⟩
  | named =>
    rw [hr] at hw
    obtain ⟨m, hm, hp, he⟩ := hw
    refine ⟨fun m' hm' => ?_, fun hd => (by cases hd), fun hempty => ?_⟩
    · cases hm.symm.trans hm'
      exact ⟨hp, he⟩
    · rw [hempty] at hm
      cases hm

/-- A flush under way is one of some update. -/
theorem Kept.exists_last (h : Kept t landed) (hco : t.coordinator ≠ .waiting) : ∃ m, t.updates.getLast? = some m := by
  cases hl : t.updates.getLast? with
  | some m => exact ⟨m, rfl⟩
  | none => exact absurd (h.untouched (List.getLast?_eq_none_iff.mp hl)).2.1 hco

/-- A step of the flush, and how the last write has come out after it. -/
theorem Kept.coordinate (h : Kept t landed) (ok : Bool) : Kept (t.coordinateStep ok)
    (match t.coordinator with | .writing _ _ => ok | _ => landed) := by
  have hw := h.words
  have hc := h.carries
  have hbusy : ∀ c, t.coordinator = c → c ≠ .waiting → t.updates ≠ [] := fun c hco hne hempty =>
    hne (hco.symm.trans (h.untouched hempty).2.1)
  unfold MetaSys.coordinateStep
  cases hco : t.coordinator with
  | waiting =>
    dsimp only
    split_ifs with hd
    · exact ⟨hw, fun hd' => absurd (hd.symm.trans hd') (by decide), fun hu =>
        absurd (hd.symm.trans (h.untouched hu).1) (by decide)⟩
    · exact h
  | awake =>
    rw [hco] at hc
    have hu := hbusy _ hco (by simp)
    dsimp only
    split_ifs with hd
    · exact ⟨hw, fun _ _ => trivial, fun hempty => absurd hempty hu⟩
    · exact ⟨hw, fun hd' hr => (hc hd' hr).elim, fun hempty => absurd hempty hu⟩
  | cleared => exact ⟨hw, fun _ _ => rfl, fun hempty => absurd hempty (hbusy _ hco (by simp))⟩
  | loaded packed k =>
    rw [hco] at hc
    exact ⟨hw, fun hd hr => ⟨hc hd hr, rfl⟩, fun hempty => absurd hempty (hbusy _ hco (by simp))⟩
  | writing packed eventId =>
    rw [hco] at hc
    have hu := hbusy _ hco (by simp)
    cases ok
    · exact ⟨hw, fun _ _ hl => (by cases hl), fun hempty => absurd hempty hu⟩
    · refine ⟨hw, fun hd hr _ => ?_, fun hempty => absurd hempty hu⟩
      -- both words in hand are those of the last update
      obtain ⟨m, hm⟩ := h.exists_last (by simp [hco])
      have hlast : Words t t.recorder := hw
      obtain ⟨hp, he⟩ := hc hd hr
      rw [show t.recorder = .idle from hr] at hlast
      obtain ⟨hp', he'⟩ := hlast m hm
      have hback : unpack packed eventId = m := by rw [hp, he, ← hp', ← he', unpack_packed]
      show (t.written ++ [unpack packed eventId]).getLast? = t.updates.getLast?
      rw [List.getLast?_concat, hback, hm]

end Kept

/-! ### Steps -/

section

variable (h : Inv s)

include h

omit [DecidableEq ρ]

theorem Inv.notify : Inv s.notify := by
  unfold Coordinator.notify
  split_ifs with hl
  · have hr := h.running
    have hf := h.flushing
    rw [hl] at hr hf
    exact ⟨h.toKept, h.updating, by simpa using hf, by simpa using hr, by simp, by simp, by simp⟩
  · exact h

theorem Inv.waiting (hl : s.loop ≠ .flushing) : s.store.coordinator = .waiting := by
  by_contra hco
  exact hl (h.flushing.mpr hco)

/-- The thread goes on outside the flush. -/
theorem Inv.goes {l : FlushLoop} (hs : s.loop ≠ .flushing ∧ s.loop ≠ .unstarted) (hl : l ≠ .flushing ∧ l ≠ .unstarted)
    (hend : l = .ending ∨ l = .finished → s.running = false) (hclean : l = .finished → s.store.dirty = false)
    (hheard : l = .falling ∨ l = .asleep → s.store.dirty = false ∨ s.manager = .locking) : Inv { s with loop := l } :=
  ⟨h.toKept, h.updating, iff_of_false hl.1 fun hco => hco (h.waiting hs.1),
    h.running.trans (and_congr_left fun _ => iff_of_true hs.2 hl.2), hend, hclean, hheard⟩

/-- The thread takes a step of the flush. -/
theorem Inv.flushes {l : FlushLoop} {landed : Bool} {ok : Bool} (hkept : Kept (s.store.coordinateStep ok) landed)
    (hu : s.loop ≠ .unstarted) (hl : l = .flushing ↔ (s.store.coordinateStep ok).coordinator ≠ .waiting)
    (hquiet : l = .flushing ∨ l = .closing) :
    Inv { s with store := s.store.coordinateStep ok, loop := l, landed := landed } := by
  have hrec : (s.store.coordinateStep ok).recorder = s.store.recorder := by
    unfold MetaSys.coordinateStep
    split
    · split_ifs <;> rfl
    · split_ifs <;> rfl
    · rfl
    · rfl
    · split_ifs <;> rfl
  have hun : l ≠ .unstarted := by rcases hquiet with rfl | rfl <;> simp
  refine ⟨hkept, ?_, hl, h.running.trans (and_congr_left fun _ => iff_of_true hu hun), fun hl' => ?_, fun hl' => ?_,
    fun hl' => ?_⟩
  · show s.manager = .updating ↔ (s.store.coordinateStep ok).recorder ≠ .idle
    rw [hrec]
    exact h.updating
  · rcases hquiet with rfl | rfl <;> simp at hl'
  · rcases hquiet with rfl | rfl <;> simp at hl'
  · rcases hquiet with rfl | rfl <;> simp at hl'

theorem Inv.flushStep (ok : Bool) : Inv (s.flushStep ok) := by
  have hcoord := h.coordinate ok
  unfold Coordinator.flushStep
  cases hl : s.loop with
  | unstarted => exact h
  | waking =>
    refine h.goes (by simp [hl]) ?_ ?_ ?_ ?_ <;> cases s.running <;> simp
  | looking =>
    refine h.goes (by simp [hl]) ?_ ?_ ?_ ?_ <;> cases hd : s.store.dirty <;> simp
  | falling => exact h.goes (by simp [hl]) (by simp) (by simp) (by simp) fun _ => h.heard (.inl hl)
  | asleep => exact h
  | testing =>
    have hw := h.waiting (by simp [hl])
    simp only [hw] at hcoord
    refine h.flushes hcoord (by simp [hl]) ?_ ?_
    · cases hd : s.store.dirty <;> simp [MetaSys.coordinateStep, hw, hd]
    · cases s.store.dirty <;> simp
  | flushing =>
    have hne := h.flushing.mp hl
    dsimp only
    cases hco : s.store.coordinator with
    | waiting => exact absurd hco hne
    | awake =>
      simp only [hco] at hcoord
      refine h.flushes hcoord (by simp [hl]) ?_ ?_
      · cases hd : s.store.dirty <;> simp [MetaSys.coordinateStep, hco, hd]
      · cases s.store.dirty <;> simp
    | cleared =>
      simp only [hco] at hcoord
      exact h.flushes hcoord (by simp [hl]) (by simp [MetaSys.coordinateStep, hco]) (.inl rfl)
    | loaded packed k =>
      simp only [hco] at hcoord
      exact h.flushes hcoord (by simp [hl]) (by simp [MetaSys.coordinateStep, hco]) (.inl rfl)
    | writing packed eventId =>
      simp only [hco] at hcoord
      refine h.flushes hcoord (by simp [hl]) ?_ (.inr rfl)
      cases ok <;> simp [MetaSys.coordinateStep, hco]
  | closing =>
    refine h.goes (by simp [hl]) ?_ ?_ ?_ ?_ <;> cases hr : s.running <;> simp
  | ending =>
    have hr := h.ending (.inl hl)
    refine h.goes (by simp [hl]) ?_ (fun _ => hr) ?_ ?_ <;> cases hd : s.store.dirty <;> simp
  | finished => exact h

/-- The manager's thread goes on outside the store. -/
theorem Inv.proceeds {m : Managing} (hs : s.manager ≠ .updating) (hm : m ≠ .updating) (he : m.ends = s.manager.ends)
    (hheard : s.loop = .falling ∨ s.loop = .asleep → s.store.dirty = false ∨ m = .locking) :
    Inv { s with manager := m } := by
  refine ⟨h.toKept, iff_of_false hm fun hr => hs (h.updating.mpr hr), h.flushing, ?_, h.ending, h.clean, hheard⟩
  show s.running = true ↔ s.loop ≠ .unstarted ∧ m.ends = false
  rw [he]
  exact h.running

/-- Before `stop` the loop has not come to its end. -/
theorem Inv.unfinished (hm : s.manager.ends = false) : s.loop ≠ .finished := by
  intro hl
  have hr := h.running.mpr ⟨by simp [hl], hm⟩
  exact absurd (hr.symm.trans (h.ending (.inr hl))) (by decide)

/-- Between the test and the sleep there is no update to hear of, unless its notification is to come. -/
theorem Inv.quiet (hm : s.manager ≠ .locking) (hl : s.loop = .falling ∨ s.loop = .asleep) : s.store.dirty = false :=
  (h.heard hl).resolve_right hm

theorem Inv.manageStep : Inv s.manageStep := by
  have hmanager : s.notify.manager = s.manager := by rw [notify_frame]
  unfold Coordinator.manageStep
  cases hm : s.manager with
  | idle => exact h
  | updating =>
    have hrun := h.running
    have hkept := h.toKept.record
    rw [hm] at hrun
    dsimp only
    unfold MetaSys.recordStep at hkept ⊢
    cases hr : s.store.recorder with
    | idle => exact absurd hr (h.updating.mp hm)
    | stored m =>
      simp only [hr] at hkept
      exact ⟨hkept, by simp, h.flushing, hrun, h.ending, h.clean, fun hl => .inl (h.quiet (by simp [hm]) hl)⟩
    | named =>
      simp only [hr] at hkept
      exact ⟨hkept, by simp, h.flushing, hrun, h.ending,
        fun hl => absurd hl (h.unfinished (by rw [hm]; rfl)), fun _ => .inr rfl⟩
  | locking =>
    dsimp only
    split_ifs with hh
    · exact h
    · refine h.notify.proceeds (by simp [hmanager, hm]) (by simp) (by rw [hmanager, hm]; rfl) fun hl => ?_
      rw [notify_loop] at hl
      split_ifs at hl with ha
      · simp at hl
      · rcases hl with hl | hl
        · simp [hl, FlushLoop.holds] at hh
        · exact absurd hl ha
  | notifying =>
    refine h.notify.proceeds (by simp [hmanager, hm]) (by simp) (by rw [hmanager, hm]; rfl) fun hl => ?_
    rw [notify_loop] at hl
    split_ifs at hl with ha
    · simp at hl
    · have hq := h.quiet (by simp [hm]) hl
      rw [notify_frame]
      exact .inl hq
  | joining =>
    dsimp only
    split_ifs
    · exact h.proceeds (by simp [hm]) (by simp) (by rw [hm]; rfl) fun hl => .inl (h.quiet (by simp [hm]) hl)
    · exact h
  | stopped => exact h

end

theorem Inv.step (h : Inv s) (a : CoordinatorAct ρ) : Inv (s.step a) := by
  cases a with
  | start =>
    simp only [Coordinator.step]
    split_ifs with hi
    · exact ⟨h.toKept, h.updating, iff_of_false (by simp) fun hco => hco (h.waiting (by simp [hi.2])),
        iff_of_true rfl ⟨by simp, by rw [hi.1]; rfl⟩, by simp, by simp, by simp⟩
    · exact h
  | update m =>
    simp only [Coordinator.step]
    split_ifs with hi
    · have hr : s.store.recorder = .idle := by
        by_contra hr
        exact absurd (hi.symm.trans (h.updating.mpr hr)) (by simp)
      have hrun := h.running
      rw [hi] at hrun
      simp only [MetaSys.step, hr]
      exact ⟨kept_update s.store s.landed m, by simp, h.flushing, hrun, h.ending, h.clean,
        fun hl => .inl (h.quiet (by simp [hi]) hl)⟩
    · exact h
  | stop =>
    simp only [Coordinator.step]
    split_ifs with hi
    · have hr : s.store.recorder = .idle := by
        by_contra hr
        exact absurd (hi.symm.trans (h.updating.mpr hr)) (by simp)
      exact ⟨h.toKept, by simp [hr], h.flushing, by simp [Managing.ends], fun _ => rfl, h.clean,
        fun hl => .inl (h.quiet (by simp [hi]) hl)⟩
    · exact h
  | manage => exact h.manageStep
  | flush ok => exact h.flushStep ok
  | wake => exact h.notify
  | getState r =>
    simp only [Coordinator.step, MetaSys.step]
    split
    · exact ⟨⟨h.words, h.carries, h.untouched⟩, h.updating, h.flushing, h.running, h.ending, h.clean, h.heard⟩
    · exact h
  | read r =>
    simp only [Coordinator.step, MetaSys.step]
    split
    · exact ⟨⟨h.words, h.carries, h.untouched⟩, h.updating, h.flushing, h.running, h.ending, h.clean, h.heard⟩
    · exact h

theorem inv_after (state lastEventId : BitVec 64) (acts : List (CoordinatorAct ρ)) :
    Inv (after state lastEventId acts) := by
  unfold after
  induction acts using List.reverseRecOn with
  | nil => exact inv_fresh state lastEventId
  | append_singleton acts a ih =>
    rw [List.foldl_append, List.foldl_cons, List.foldl_nil]
    exact ih.step a

/-- **What a shutdown leaves on disk**: when the flushing thread has ended, and its last write succeeded, the file holds
the last update. -/
theorem stop_persists (state lastEventId : BitVec 64) (acts : List (CoordinatorAct ρ))
    (hend : (after state lastEventId acts).loop = .finished) (hland : (after state lastEventId acts).landed = true) :
    (after state lastEventId acts).store.written.getLast? = (after state lastEventId acts).store.updates.getLast? := by
  have h := inv_after state lastEventId acts
  have hm : (after state lastEventId acts).manager ≠ .updating := by
    intro hm
    exact h.unfinished (by rw [hm]; rfl) hend
  have hr : (after state lastEventId acts).store.recorder = .idle := by
    by_contra hr
    exact hm (h.updating.mpr hr)
  have hc := h.carries (h.clean hend) hr
  rw [h.waiting (by simp [hend])] at hc
  exact hc hland

/-! ## Whether `stop` returns -/

/-- Nothing but a notification wakes the thread. -/
def Ordinary (_ : Coordinator ρ) : CoordinatorAct ρ → Prop
  | .wake => False
  | _ => True

def Returned (s : Coordinator ρ) : Prop := s.manager = .stopped

/-- The thread has tested `running_` before it was cleared, and finds nothing to flush. -/
def Drowsy (s : Coordinator ρ) : Prop := s.loop = .falling ∨ s.loop = .looking ∧ s.store.dirty = false

/-- The notification of `stop` does not fall between the thread's test of `running_` and its sleep. -/
def Heard (s : Coordinator ρ) : CoordinatorAct ρ → Prop
  | .manage => s.manager = .notifying → ¬ s.Drowsy
  | _ => True

/-- `stop` has notified, and waits for a thread that sleeps or will. -/
def Forgotten (s : Coordinator ρ) : Prop := s.manager = .joining ∧ (s.loop = .asleep ∨ s.Drowsy)

omit [DecidableEq ρ] in
theorem flushStep_manager (s : Coordinator ρ) (ok : Bool) : (s.flushStep ok).manager = s.manager := by
  unfold flushStep
  split
  · rfl
  · rfl
  · rfl
  · rfl
  · rfl
  · rfl
  · split <;> rfl
  · rfl
  · rfl
  · rfl

theorem reading_dirty (t : MetaSys ρ) (r : ρ) :
    (t.step (.getState r)).dirty = t.dirty ∧ (t.step (.read r)).dirty = t.dirty := by
  simp only [MetaSys.step]
  constructor
  · split <;> rfl
  · split <;> rfl

omit [DecidableEq ρ] in
/-- Once `stop` was called, a thread that is up does not lie down again. -/
theorem not_forgotten_flush (hrun : s.running = false) (hf : ¬ s.Forgotten) (ok : Bool) :
    ¬ (s.flushStep ok).Forgotten := by
  rintro ⟨hm, hl⟩
  rw [flushStep_manager] at hm
  have hup : s.loop ≠ .asleep ∧ ¬ s.Drowsy := not_or.mp fun hl => hf ⟨hm, hl⟩
  unfold Drowsy at *
  unfold flushStep at hl
  cases hs : s.loop with
  | unstarted => simp [hs] at hl
  | waking => simp [hs, hrun] at hl
  | looking =>
    have hd : s.store.dirty = true := by
      by_contra hd
      exact hup.2 (.inr ⟨hs, by simpa using hd⟩)
    simp [hs, hd] at hl
  | falling => exact hup.2 (.inl hs)
  | asleep => exact hup.1 hs
  | testing =>
    simp only [hs] at hl
    cases hd : s.store.dirty <;> simp [hd] at hl
  | flushing =>
    simp only [hs] at hl
    split at hl
    · simp at hl
    · cases hd : s.store.dirty <;> simp [hd] at hl
    · simp at hl
  | closing => simp [hs, hrun] at hl
  | ending =>
    simp only [hs] at hl
    cases hd : s.store.dirty <;> simp [hd] at hl
  | finished => simp [hs] at hl

theorem Inv.forgotten_step (h : Inv s) (hf : ¬ s.Forgotten) (hok : Ordinary s a) :
    ¬ (s.step a).Forgotten ↔ s.Heard a := by
  cases a with
  | start =>
    refine iff_of_true (fun hf' => hf ?_) trivial
    simp only [Coordinator.step] at hf'
    split_ifs at hf' with hi
    · exact absurd (hi.1.symm.trans hf'.1) (by simp)
    · exact hf'
  | update m =>
    refine iff_of_true (fun hf' => hf ?_) trivial
    simp only [Coordinator.step] at hf'
    split_ifs at hf'
    · exact absurd hf'.1 (by simp)
    · exact hf'
  | stop =>
    refine iff_of_true (fun hf' => hf ?_) trivial
    simp only [Coordinator.step] at hf'
    split_ifs at hf'
    · exact absurd hf'.1 (by simp)
    · exact hf'
  | manage =>
    simp only [Heard, Coordinator.step, Coordinator.manageStep]
    cases hm : s.manager with
    | notifying =>
      simp only [true_implies, Forgotten, true_and]
      rw [notify_frame]
      unfold Drowsy
      dsimp only
      rw [notify_loop]
      split_ifs with ha
      · simp [ha]
      · simp [ha]
    | idle => exact iff_of_true (fun hf' => absurd (hm.symm.trans hf'.1) (by simp)) (by simp)
    | updating =>
      refine iff_of_true (fun hf' => ?_) (by simp)
      have hm' := hf'.1
      dsimp only at hm'
      split at hm' <;> simp at hm'
    | locking =>
      refine iff_of_true (fun hf' => ?_) (by simp)
      have hm' := hf'.1
      dsimp only at hm'
      split_ifs at hm'
      exact absurd (hm.symm.trans hm') (by simp)
    | joining =>
      refine iff_of_true (fun hf' => ?_) (by simp)
      dsimp only at hf'
      split_ifs at hf'
      · exact absurd hf'.1 (by simp)
      · exact hf hf'
    | stopped => exact iff_of_true (fun hf' => absurd (hm.symm.trans hf'.1) (by simp)) (by simp)
  | flush ok =>
    refine iff_of_true (fun hf' => ?_) trivial
    have hm : s.manager = .joining := (flushStep_manager s ok).symm.trans hf'.1
    have hrun : s.running = false := by
      rw [← Bool.not_eq_true, h.running, hm]
      simp [Managing.ends]
    exact not_forgotten_flush hrun hf ok hf'
  | wake => cases hok
  | getState r =>
    refine iff_of_true (fun hf' => hf ?_) trivial
    simpa only [Forgotten, Drowsy, Coordinator.step, (reading_dirty s.store r).1] using hf'
  | read r =>
    refine iff_of_true (fun hf' => hf ?_) trivial
    simpa only [Forgotten, Drowsy, Coordinator.step, (reading_dirty s.store r).2] using hf'

/-- Nobody wakes a thread that `stop` has failed to. -/
theorem Forgotten.step (hf : s.Forgotten) (hok : Ordinary s a) : (s.step a).Forgotten := by
  obtain ⟨hm, hl⟩ := hf
  cases a with
  | start => simpa only [Coordinator.step, hm, false_and, if_false, reduceCtorEq] using ⟨hm, hl⟩
  | update m => simpa only [Coordinator.step, hm, if_false, reduceCtorEq] using ⟨hm, hl⟩
  | stop => simpa only [Coordinator.step, hm, if_false, reduceCtorEq] using ⟨hm, hl⟩
  | manage =>
    have hup : ¬ (s.loop = .finished ∨ s.loop = .unstarted) := by
      rcases hl with hl | hl | ⟨hl, -⟩ <;> simp [hl]
    simp only [Coordinator.step, manageStep, hm, if_neg hup]
    exact ⟨hm, hl⟩
  | flush ok =>
    refine ⟨(flushStep_manager s ok).trans hm, ?_⟩
    simp only [Coordinator.step, flushStep]
    rcases hl with hl | hl | ⟨hl, hd⟩
    · simp [hl]
    · simp [hl]
    · simp [hl, hd, Drowsy]
  | wake => cases hok
  | getState r => simpa only [Forgotten, Drowsy, Coordinator.step, (reading_dirty s.store r).1] using ⟨hm, hl⟩
  | read r => simpa only [Forgotten, Drowsy, Coordinator.step, (reading_dirty s.store r).2] using ⟨hm, hl⟩

/-! ### The way to the end of `stop` -/

/-- The steps that the manager's thread has before it. -/
def managerRank (recorder : Updating) : Managing → ℕ
  | .updating => match recorder with | .stored _ => 6 | _ => 5
  | .locking => 4
  | .idle => 3
  | .notifying => 2
  | .joining => 1
  | .stopped => 0

/-- The steps that the flushing thread has before it, when the mutex is to be free or `stop` was called: with a dirty
state there is one more round. -/
def loopRank (dirty : Bool) (coordinator : Flushing) : FlushLoop → ℕ
  | .flushing =>
    match coordinator with
    | .cleared => if dirty then 20 else 9
    | .loaded _ _ => if dirty then 19 else 8
    | .writing _ _ => if dirty then 18 else 7
    | .awake => 12
    | .waiting => 0
  | .closing => if dirty then 17 else 6
  | .ending => if dirty then 16 else 5
  | .waking => if dirty then 15 else 11
  | .looking => if dirty then 14 else 4
  | .testing => if dirty then 13 else 10
  | .falling => 2
  | .asleep => 1
  | .finished => 0
  | .unstarted => 0

def rank (s : Coordinator ρ) : ℕ :=
  managerRank s.store.recorder s.manager * 32 + loopRank s.store.dirty s.store.coordinator s.loop

theorem loopRank_lt (dirty : Bool) (coordinator : Flushing) (l : FlushLoop) : loopRank dirty coordinator l < 32 := by
  unfold loopRank
  repeat' split
  all_goals decide

omit [DecidableEq ρ] in
theorem rank_lt_of_manager {u : Coordinator ρ}
    (hm : managerRank u.store.recorder u.manager < managerRank s.store.recorder s.manager) : u.rank < s.rank := by
  have := loopRank_lt u.store.dirty u.store.coordinator u.loop
  unfold rank
  omega

omit [DecidableEq ρ] in
/-- A thread that is up makes a step forward, unless it tests `running_` before `stop`. -/
theorem Inv.rank_flush (h : Inv s) (hup : s.loop ≠ .asleep ∧ s.loop ≠ .finished ∧ s.loop ≠ .unstarted)
    (hrun : s.running = false ∨ s.loop.holds = true) : (s.flushStep true).rank < s.rank := by
  unfold rank Coordinator.flushStep MetaSys.coordinateStep
  cases hl : s.loop with
  | unstarted => exact absurd hl hup.2.2
  | asleep => exact absurd hl hup.1
  | finished => exact absurd hl hup.2.1
  | waking =>
    have hr : s.running = false := hrun.resolve_right (by simp [hl, FlushLoop.holds])
    cases hd : s.store.dirty <;> simp [hr, loopRank]
  | looking => cases hd : s.store.dirty <;> simp [loopRank]
  | falling => simp [loopRank]
  | testing =>
    have hw := h.waiting (by simp [hl])
    cases hd : s.store.dirty <;> simp [hw, hd, loopRank]
  | flushing =>
    have hne := h.flushing.mp hl
    cases hco : s.store.coordinator with
    | waiting => exact absurd hco hne
    | awake => cases s.store.dirty <;> simp [loopRank]
    | cleared => cases s.store.dirty <;> simp [loopRank]
    | loaded packed k => cases s.store.dirty <;> simp [loopRank]
    | writing packed eventId => cases s.store.dirty <;> simp [loopRank]
  | closing =>
    have hr : s.running = false := hrun.resolve_right (by simp [hl, FlushLoop.holds])
    cases hd : s.store.dirty <;> simp [hr, loopRank]
  | ending => cases s.store.dirty <;> simp [loopRank]

/-- **Progress**: unless it is forgotten, the shutdown can come one step nearer to its end. -/
theorem Inv.progress (h : Inv s) (hf : ¬ s.Forgotten) (hr : ¬ s.Returned) :
    ∃ a, Ordinary s a ∧ s.Heard a ∧ (s.step a).rank < s.rank := by
  cases hm : s.manager with
  | idle =>
    refine ⟨.stop, trivial, trivial, rank_lt_of_manager ?_⟩
    simp [Coordinator.step, hm, managerRank]
  | updating =>
    refine ⟨.manage, trivial, fun hn => absurd (hm.symm.trans hn) (by simp), rank_lt_of_manager ?_⟩
    have hne := h.updating.mp hm
    simp only [Coordinator.step, Coordinator.manageStep, hm, MetaSys.recordStep]
    cases hrec : s.store.recorder with
    | idle => exact absurd hrec hne
    | stored m => simp [managerRank]
    | named => simp [managerRank]
  | locking =>
    by_cases hh : s.loop.holds = true
    · refine ⟨.flush true, trivial, trivial, h.rank_flush ?_ (.inr hh)⟩
      cases hl : s.loop <;> simp [hl, FlushLoop.holds] at hh ⊢
    · refine ⟨.manage, trivial, fun hn => absurd (hm.symm.trans hn) (by simp), rank_lt_of_manager ?_⟩
      simp [Coordinator.step, Coordinator.manageStep, hm, if_neg hh, managerRank]
  | notifying =>
    have hrun : s.running = false := by
      rw [← Bool.not_eq_true, h.running, hm]
      simp [Managing.ends]
    by_cases hd : s.Drowsy
    · refine ⟨.flush true, trivial, trivial, h.rank_flush ?_ (.inl hrun)⟩
      rcases hd with hl | ⟨hl, -⟩ <;> simp [hl]
    · refine ⟨.manage, trivial, fun _ => hd, rank_lt_of_manager ?_⟩
      simp [Coordinator.step, Coordinator.manageStep, hm, managerRank]
  | joining =>
    have hrun : s.running = false := by
      rw [← Bool.not_eq_true, h.running, hm]
      simp [Managing.ends]
    by_cases hl : s.loop = .finished ∨ s.loop = .unstarted
    · refine ⟨.manage, trivial, fun hn => absurd (hm.symm.trans hn) (by simp), rank_lt_of_manager ?_⟩
      simp [Coordinator.step, Coordinator.manageStep, hm, if_pos hl, managerRank]
    · have hup : s.loop ≠ .asleep := fun ha => hf ⟨hm, .inl ha⟩
      exact ⟨.flush true, trivial, trivial, h.rank_flush ⟨hup, not_or.mp hl⟩ (.inl hrun)⟩
  | stopped => exact absurd hm hr

/-- **`stop` returns**: throughout a run the coordinator can still be brought to its end just when the notification of
`stop` does not fall between the thread's test of `running_` and its sleep. -/
theorem stop_returns_iff (state lastEventId : BitVec 64) {acts : List (CoordinatorAct ρ)}
    (hok : Admitted Coordinator.step Ordinary (fresh state lastEventId) acts) :
    (∀ bs, bs <+: acts → CanReach Coordinator.step Ordinary Returned (after state lastEventId bs)) ↔
      Admitted Coordinator.step Heard (fresh state lastEventId) acts := by
  have hstart : ¬ (fresh state lastEventId : Coordinator ρ).Forgotten := fun hf => by simpa [fresh] using hf.1
  refine canReach_iff_admitted (I := Inv) (fun s a hs _ => hs.step a) (inv_fresh state lastEventId) hstart hok ?_
    (fun s a _ hf ha => hf.step ha) (fun s hf hr => absurd (hf.1.symm.trans hr) (by simp))
    fun s a hs hf ha => hs.forgotten_step hf ha
  intro s hs hf
  refine CanReach.of_measure (I := fun s => Inv s ∧ ¬ s.Forgotten) rank (fun u hu hr => ?_) ⟨hs, hf⟩
  obtain ⟨a, hok, hheard, hlt⟩ := hu.1.progress hu.2 hr
  exact ⟨a, hok, ⟨hu.1.step a, (hu.1.forgotten_step hu.2 hok).mpr hheard⟩, hlt⟩

section

variable (s : Coordinator ρ)

instance : Decidable s.Drowsy :=
  inferInstanceAs (Decidable (s.loop = .falling ∨ s.loop = .looking ∧ s.store.dirty = false))

instance : DecidablePred s.Heard
  | .manage => inferInstanceAs (Decidable (s.manager = .notifying → ¬ s.Drowsy))
  | .start => inferInstanceAs (Decidable True)
  | .update _ => inferInstanceAs (Decidable True)
  | .stop => inferInstanceAs (Decidable True)
  | .flush _ => inferInstanceAs (Decidable True)
  | .wake => inferInstanceAs (Decidable True)
  | .getState _ => inferInstanceAs (Decidable True)
  | .read _ => inferInstanceAs (Decidable True)

instance : DecidablePred s.Ordinary
  | .wake => inferInstanceAs (Decidable False)
  | .start => inferInstanceAs (Decidable True)
  | .update _ => inferInstanceAs (Decidable True)
  | .stop => inferInstanceAs (Decidable True)
  | .manage => inferInstanceAs (Decidable True)
  | .flush _ => inferInstanceAs (Decidable True)
  | .getState _ => inferInstanceAs (Decidable True)
  | .read _ => inferInstanceAs (Decidable True)

end

/-- An update, its flush, and a shutdown that finds the thread asleep. -/
def flushedAndStopped : List (CoordinatorAct Unit) :=
  ([.start, .update ⟨1, 64, 7⟩, .manage, .manage, .manage] : List (CoordinatorAct Unit)) ++
    List.replicate 11 (.flush true) ++ ([.stop, .manage] : List (CoordinatorAct Unit)) ++
    List.replicate 4 (.flush true) ++ ([.manage] : List (CoordinatorAct Unit))

/-- The update is on disk. -/
theorem stop_persists_one : (after 0 0 flushedAndStopped).store.written.getLast? = some ⟨1, 64, 7⟩ :=
  (stop_persists 0 0 flushedAndStopped (by decide +kernel) (by decide +kernel)).trans (by decide +kernel)

/-- `stop` comes while the thread is about to sleep. -/
def lateStop : List (CoordinatorAct Unit) := [.start, .flush true, .flush true, .stop, .manage, .flush true]

/-- A shutdown that is heard, and one that waits for ever. -/
theorem stop_not_heard :
    (∀ bs, bs <+: flushedAndStopped → CanReach Coordinator.step Ordinary Returned (after 0 0 bs)) ∧
    ¬ ∀ bs, bs <+: lateStop → CanReach Coordinator.step Ordinary Returned (after 0 0 bs) := by
  refine ⟨(stop_returns_iff 0 0 (by decide +kernel)).mpr (by decide +kernel), fun h => ?_⟩
  exact absurd ((stop_returns_iff 0 0 (by decide +kernel)).mp h) (by decide +kernel)

end Coordinator

end Wirekrak.Wal

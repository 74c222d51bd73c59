import Mathlib.Data.List.Basic
import Wirekrak.Lib.Run

/-!
# Wirekrak.Wal.Retention — which segment files are removed

The recorder and its maintainer, seen by the names of their files.  A rotation hands the active segment over to be
closed and keeps its name in the hot ring; when that ring is full, the oldest name is queued for removal.  The queue for
compression is served by the maintainer, but nothing is ever put into it.

File operations may fail, so the steps of the maintainer carry their outcome.  Contents appear only as `intact`: the
file passes the checks that a restart makes.

* `Retains`: what a step may remove; `Present`: the newest closed segments are there, in one form or the other.
* `retention`: both hold throughout every run that never rotates with a full hot ring and in which segments are closed
  without failure.
-/

namespace Wirekrak.Wal

open Wirekrak.Lib

structure WalFile where
  index : ℕ
  intact : Bool := false
  deriving DecidableEq

/-- The queue `wal_files_` has 128 slots, of which one stays free. -/
def hotRing : ℕ := 127

/-- The limits of the maintainer, as it clamps them. -/
structure Limits where
  maxSegments : ℕ
  maxCompressedSegments : ℕ

def Limits.hot (lim : Limits) : ℕ := max 2 (min lim.maxSegments 128)

def Limits.cold (lim : Limits) : ℕ := max 4 (min lim.maxCompressedSegments 512)

/-- The files of the directory, the names that the manager holds and the three queues of the maintainer, oldest first;
`closed` are the segments that were closed and not opened again, `copied` those whose compressed copy was written. -/
structure Keeper where
  disk : List WalFile
  lz4 : List ℕ := []
  active : ℕ
  nextIndex : ℕ
  walFiles : List ℕ := []
  toPersist : List ℕ := []
  toFreeze : List ℕ := []
  toFree : List ℕ := []
  closed : List ℕ := []
  copied : List ℕ := []
  deriving DecidableEq

namespace Keeper

/-- The indices of the `.wal` files. -/
def wals (s : Keeper) : List ℕ := s.disk.map WalFile.index

def remove (i : ℕ) (disk : List WalFile) : List WalFile := disk.filter fun f => decide (f.index ≠ i)

/-- `rotate_segment_`. -/
def rotateSegment (s : Keeper) : Keeper :=
  let s :=
    match s.walFiles with
    | oldest :: rest => if hotRing ≤ s.walFiles.length then { s with walFiles := rest, toFree := s.toFree ++ [oldest] } else s
    | [] => s
  { s with
    walFiles := s.walFiles ++ [s.active]
    toPersist := s.toPersist ++ [s.active]
    active := s.nextIndex
    nextIndex := s.nextIndex + 1
    disk := s.disk ++ [{ index := s.nextIndex }] }

/-- Closing a segment; whether its header could be written decides whether the file is intact. -/
def persist (intact : ℕ → Bool) (l : List ℕ) (disk : List WalFile) : List WalFile :=
  disk.map fun f => if f.index ∈ l then { f with intact := intact f.index } else f

def persistNextSegment (intact : Bool) (s : Keeper) : Keeper :=
  match s.toPersist with
  | [] => s
  | i :: rest => { s with toPersist := rest, disk := persist (fun _ => intact) [i] s.disk, closed := s.closed ++ [i] }

/-- The segment is removed whether it could be compressed or not. -/
def freezeNextSegment (compressed removed : Bool) (s : Keeper) : Keeper :=
  match s.toFreeze with
  | [] => s
  | i :: rest =>
    let s := { s with toFreeze := rest }
    let s := if compressed then { s with lz4 := s.lz4 ++ [i], copied := s.copied ++ [i] } else s
    if removed then { s with disk := remove i s.disk } else s

def freeNextSegment (removed : Bool) (s : Keeper) : Keeper :=
  match s.toFree with
  | [] => s
  | i :: rest =>
    let s := { s with toFree := rest }
    if removed then { s with disk := remove i s.disk } else s

/-- Files that do not pass the checks are deleted, from the newest on, until one does. -/
def recover : List WalFile → List WalFile
  | [] => []
  | f :: older => if f.intact then f :: older else recover older

/-- `initialize` over the files of the directory. -/
def initializeFrom (disk : List WalFile) (lz4 closed copied : List ℕ) : Keeper :=
  let newest := recover disk.reverse
  match newest with
  | [] => { disk := [{ index := 0 }], lz4 := lz4, active := 0, nextIndex := 1, closed := closed, copied := copied }
  | f :: _ =>
    { disk := newest.reverse, lz4 := lz4, active := f.index, nextIndex := f.index + 1
      walFiles := (newest.reverse.map WalFile.index).take hotRing
      closed := closed.filter fun i => decide (i ≠ f.index), copied := copied }

/-- A start over an existing directory. -/
def start (disk : List WalFile) (lz4 : List ℕ) : Keeper := initializeFrom disk lz4 (disk.map WalFile.index) lz4

/-- `shutdown` and the start of the next process: what waits and the active segment are closed, the other tasks are
forgotten. -/
def restart (intact : ℕ → Bool) (s : Keeper) : Keeper :=
  let rest := s.toPersist ++ [s.active]
  initializeFrom (persist intact rest s.disk) s.lz4 (s.closed ++ rest) s.copied

end Keeper

/-! ## Runs -/

inductive KeeperAct
  | rotate
  | persist (intact : Bool)
  | freeze (compressed removed : Bool)
  | free (removed : Bool)
  | restart (intact : ℕ → Bool)

namespace Keeper

def step (s : Keeper) : KeeperAct → Keeper
  | .rotate => s.rotateSegment
  | .persist intact => s.persistNextSegment intact
  | .freeze compressed removed => s.freezeNextSegment compressed removed
  | .free removed => s.freeNextSegment removed
  | .restart intact => s.restart intact

def after (disk : List WalFile) (lz4 : List ℕ) (acts : List KeeperAct) : Keeper := acts.foldl step (start disk lz4)

/-- An uncompressed file goes only when its copy was written; a copy only when there are too many, the oldest first. -/
structure Retains (lim : Limits) (s s' : Keeper) : Prop where
  wals : ∀ i ∈ s.wals, i ∈ s'.wals ∨ i ∈ s'.copied
  lz4 : ∀ i ∈ s.lz4, i ∈ s'.lz4 ∨ lim.cold < s.lz4.length ∧ ∀ j ∈ s.lz4, i ≤ j

/-- The newest closed segments are there. -/
def Present (lim : Limits) (s : Keeper) : Prop :=
  ∀ i ∈ s.closed.reverse.take (lim.hot + lim.cold), i ∈ s.wals ∨ i ∈ s.lz4

/-- What the retention rules promise for a run. -/
structure Retention (lim : Limits) (disk : List WalFile) (lz4 : List ℕ) (acts : List KeeperAct) : Prop where
  steps : ∀ bs a, bs ++ [a] <+: acts → Retains lim (after disk lz4 bs) (after disk lz4 (bs ++ [a]))
  states : ∀ bs, bs <+: acts → Present lim (after disk lz4 bs)

/-- The hot ring has room when a segment is rotated out, and segments are closed without failure. -/
def Roomy (s : Keeper) : KeeperAct → Prop
  | .rotate => s.walFiles.length < hotRing
  | .persist intact => intact = true
  | .restart intact => ∀ i ∈ s.toPersist ++ [s.active], intact i = true
  | _ => True

/-! ## Nothing is removed -/

structure Inv (s : Keeper) : Prop where
  toFreeze : s.toFreeze = []
  toFree : s.toFree = []
  newest : s.wals.getLast? = some s.active
  waiting : ∀ i ∈ s.toPersist, i ∈ s.wals
  closed : ∀ i ∈ s.closed, i ∈ s.wals

/-- All that was there is there. -/
structure Grows (s s' : Keeper) : Prop where
  wals : ∀ i ∈ s.wals, i ∈ s'.wals
  lz4 : s'.lz4 = s.lz4

variable {s : Keeper} {disk : List WalFile} {lz4 : List ℕ} {lim : Limits}

theorem Grows.retains {s' : Keeper} (h : Grows s s') : Retains lim s s' :=
  ⟨fun i hi => .inl (h.wals i hi), fun i hi => .inl (by rw [h.lz4]; exact hi)⟩

theorem Inv.present (h : Inv s) : Present lim s :=
  fun i hi => .inl (h.closed i (List.mem_reverse.mp (List.mem_of_mem_take hi)))

theorem map_index_persist (intact : ℕ → Bool) (l : List ℕ) (disk : List WalFile) :
    (persist intact l disk).map WalFile.index = disk.map WalFile.index := by
  unfold persist
  rw [List.map_map]
  refine List.map_congr_left fun f _ => ?_
  show (if f.index ∈ l then { f with intact := intact f.index } else f).index = f.index
  split <;> rfl

/-- A start over files of which the newest is intact goes on in that one and deletes nothing. -/
theorem initializeFrom_intact {l : List WalFile} {f : WalFile} (hf : f.intact = true) (closed copied : List ℕ) :
    initializeFrom (l ++ [f]) lz4 closed copied =
      { disk := l ++ [f], lz4 := lz4, active := f.index, nextIndex := f.index + 1
        walFiles := ((l ++ [f]).map WalFile.index).take hotRing
        closed := closed.filter fun i => decide (i ≠ f.index), copied := copied } := by
  have hrec : recover (l ++ [f]).reverse = f :: l.reverse := by
    rw [List.reverse_append, List.reverse_singleton, List.singleton_append]
    exact if_pos hf
  unfold initializeFrom
  rw [hrec]
  simp

theorem inv_initializeFrom {l : List WalFile} {f : WalFile} (hf : f.intact = true) {closed : List ℕ} (copied : List ℕ)
    (hclosed : ∀ i ∈ closed, i ∈ (l ++ [f]).map WalFile.index) :
    Inv (initializeFrom (l ++ [f]) lz4 closed copied) := by
  rw [initializeFrom_intact hf]
  refine ⟨rfl, rfl, ?_, fun i hi => absurd hi List.not_mem_nil, fun i hi => hclosed i (List.mem_filter.mp hi).1⟩
  unfold wals
  simp

theorem inv_start (h : ∀ f ∈ disk.getLast?, f.intact = true) : Inv (start disk lz4) := by
  unfold start
  rcases List.eq_nil_or_concat' disk with rfl | ⟨l, f, rfl⟩
  · exact ⟨rfl, rfl, rfl, fun i hi => absurd hi List.not_mem_nil, fun i hi => absurd hi List.not_mem_nil⟩
  · exact inv_initializeFrom (h f (by simp)) _ fun i hi => hi

/-- With room in the hot ring nothing is queued for removal. -/
theorem rotateSegment_roomy (h : s.walFiles.length < hotRing) :
    s.rotateSegment = { s with
      walFiles := s.walFiles ++ [s.active]
      toPersist := s.toPersist ++ [s.active]
      active := s.nextIndex
      nextIndex := s.nextIndex + 1
      disk := s.disk ++ [{ index := s.nextIndex }] } := by
  unfold rotateSegment
  split
  · rw [if_neg (Nat.not_le.mpr h)]
  · rfl

theorem Inv.rotate (h : Inv s) (hroom : s.walFiles.length < hotRing) : Inv s.rotateSegment ∧ Grows s s.rotateSegment := by
  have hactive : s.active ∈ s.wals := List.mem_of_getLast? h.newest
  rw [rotateSegment_roomy hroom]
  have hwals : ∀ i ∈ s.wals, i ∈ (s.disk ++ [({ index := s.nextIndex } : WalFile)]).map WalFile.index := by
    intro i hi
    rw [List.map_append]
    exact List.mem_append_left _ hi
  refine ⟨⟨h.toFreeze, h.toFree, ?_, fun i hi => ?_, fun i hi => hwals i (h.closed i hi)⟩, hwals, rfl⟩
  · unfold wals
    simp
  · rcases List.mem_append.mp hi with hi | hi
    · exact hwals i (h.waiting i hi)
    · rw [List.mem_singleton.mp hi]
      exact hwals _ hactive

theorem Inv.persist (h : Inv s) (intact : Bool) :
    Inv (s.persistNextSegment intact) ∧ Grows s (s.persistNextSegment intact) := by
  unfold persistNextSegment
  cases hp : s.toPersist with
  | nil => exact ⟨h, fun i hi => hi, rfl⟩
  | cons i rest =>
    have hall := h.waiting
    rw [hp] at hall
    have hsame : (Keeper.persist (fun _ => intact) [i] s.disk).map WalFile.index = s.wals := map_index_persist _ _ _
    refine ⟨⟨h.toFreeze, h.toFree, ?_, fun j hj => ?_, fun j hj => ?_⟩, fun j hj => ?_, rfl⟩
    · unfold wals
      rw [hsame]
      exact h.newest
    · unfold wals
      rw [hsame]
      exact hall j (List.mem_cons_of_mem i hj)
    · unfold wals
      rw [hsame]
      rcases List.mem_append.mp hj with hj | hj
      · exact h.closed j hj
      · rw [List.mem_singleton.mp hj]
        exact hall i List.mem_cons_self
    · unfold wals
      rw [hsame]
      exact hj

theorem Inv.restart (h : Inv s) {intact : ℕ → Bool} (hok : ∀ i ∈ s.toPersist ++ [s.active], intact i = true) :
    Inv (s.restart intact) ∧ Grows s (s.restart intact) := by
  have hmap := map_index_persist intact (s.toPersist ++ [s.active]) s.disk
  have hlast : ((Keeper.persist intact (s.toPersist ++ [s.active]) s.disk).map WalFile.index).getLast? = some s.active := by
    rw [hmap]
    exact h.newest
  unfold Keeper.restart
  rcases List.eq_nil_or_concat' (Keeper.persist intact (s.toPersist ++ [s.active]) s.disk) with hnil | ⟨l, f, hl⟩
  · rw [hnil] at hlast
    cases hlast
  · rw [hl] at hmap hlast
    -- the newest file is the active segment, which was closed just now
    have hidx : f.index = s.active := by simpa using hlast
    have hf : f.intact = true := by
      have hmem : f ∈ Keeper.persist intact (s.toPersist ++ [s.active]) s.disk := by
        rw [hl]
        exact List.mem_append_right _ (List.mem_singleton_self f)
      unfold Keeper.persist at hmem
      obtain ⟨g, -, hg⟩ := List.mem_map.mp hmem
      have hgi : g.index = f.index := by
        rw [← hg]
        split <;> rfl
      have hin : g.index ∈ s.toPersist ++ [s.active] := by
        rw [hgi, hidx]
        exact List.mem_append_right _ (List.mem_singleton_self _)
      rw [if_pos hin] at hg
      rw [← hg]
      exact hok _ hin
    dsimp only
    rw [hl]
    refine ⟨inv_initializeFrom hf _ fun i hi => ?_, ?_⟩
    · rw [hmap]
      rcases List.mem_append.mp hi with hi | hi
      · exact h.closed i hi
      · rcases List.mem_append.mp hi with hi | hi
        · exact h.waiting i hi
        · rw [List.mem_singleton.mp hi]
          exact List.mem_of_getLast? h.newest
    · rw [initializeFrom_intact hf]
      refine ⟨fun i hi => ?_, rfl⟩
      show i ∈ (l ++ [f]).map WalFile.index
      rw [hmap]
      exact hi

theorem Inv.step (h : Inv s) {a : KeeperAct} (ha : Roomy s a) : Inv (s.step a) ∧ Grows s (s.step a) := by
  cases a with
  | rotate => exact h.rotate ha
  | persist intact => exact h.persist intact
  | freeze compressed removed =>
    have hsame : s.freezeNextSegment compressed removed = s := by
      unfold freezeNextSegment
      rw [h.toFreeze]
    exact ⟨by rw [Keeper.step, hsame]; exact h, by rw [Keeper.step, hsame]; exact ⟨fun i hi => hi, rfl⟩⟩
  | free removed =>
    have hsame : s.freeNextSegment removed = s := by
      unfold freeNextSegment
      rw [h.toFree]
    exact ⟨by rw [Keeper.step, hsame]; exact h, by rw [Keeper.step, hsame]; exact ⟨fun i hi => hi, rfl⟩⟩
  | restart intact => exact h.restart ha

theorem inv_after (hstart : ∀ f ∈ disk.getLast?, f.intact = true) {acts : List KeeperAct}
    (hok : Admitted step Roomy (start disk lz4) acts) : Inv (after disk lz4 acts) := by
  have hrun : Run (fun s a u => step s a = u) Roomy (start disk lz4) acts (after disk lz4 acts) :=
    Run.of_admitted (fun _ _ _ => rfl) hok
  refine hrun.invariant (inv_start hstart) ?_
  rintro s a _ hs ha rfl
  exact (hs.step ha).1

/-- **Retention.** Over every directory whose newest segment is intact, in every run that never rotates with a full hot
ring and in which segments are closed without failure, whatever becomes of the other file operations. -/
theorem retention (lim : Limits) (disk : List WalFile) (lz4 : List ℕ) (hstart : ∀ f ∈ disk.getLast?, f.intact = true)
    (acts : List KeeperAct) (hok : Admitted step Roomy (start disk lz4) acts) : Retention lim disk lz4 acts := by
  refine ⟨fun bs a hbs => ?_, fun bs hbs => (inv_after hstart (hok.of_prefix bs hbs)).present⟩
  obtain ⟨hbefore, ha⟩ := admitted_concat.mp (hok.of_prefix _ hbs)
  have hgrows := ((inv_after hstart hbefore).step ha).2
  unfold after at hgrows ⊢
  rw [List.foldl_append]
  exact hgrows.retains

/-- Two old segments, a rotation, a restart and another rotation. -/
theorem retention_restarted :
    let acts : List KeeperAct :=
      [.rotate, .persist true, .free true, .restart fun _ => true, .rotate, .persist true, .freeze false true]
    (after [⟨0, true⟩, ⟨1, true⟩] [] acts).closed = [0, 1, 2] ∧ Retention ⟨2, 4⟩ [⟨0, true⟩, ⟨1, true⟩] [] acts := by
  intro acts
  have hstart : ∀ f ∈ ([⟨0, true⟩, ⟨1, true⟩] : List WalFile).getLast?, f.intact = true := by decide
  have hok : Admitted step Roomy (start [⟨0, true⟩, ⟨1, true⟩] []) acts := by
    have hrestart : ∀ i ∈ [2], (fun _ : ℕ => true) i = true := fun _ _ => rfl
    have hfirst : (start [⟨0, true⟩, ⟨1, true⟩] []).walFiles.length < hotRing := by decide
    have hnext : (after [⟨0, true⟩, ⟨1, true⟩] []
        [.rotate, .persist true, .free true, .restart fun _ => true]).walFiles.length < hotRing := by decide
    exact ⟨hfirst, rfl, trivial, hrestart, hnext, rfl, trivial, trivial⟩
  exact ⟨by decide, retention ⟨2, 4⟩ _ [] hstart acts hok⟩

/-- A directory of 127 segments; a start goes on in the last of them. -/
def fullRing : List WalFile := (List.range hotRing).map fun i => ⟨i, true⟩

/-- A rotation finds the hot ring full: the maintainer removes the oldest segment, of which there is no copy. -/
theorem oldest_removed_uncompressed :
    (∀ f ∈ fullRing, f.intact = true) ∧ ¬ Retention ⟨128, 512⟩ fullRing [] [.rotate, .persist true, .free true] := by
  have hbefore : 0 ∈ (after fullRing [] [.rotate, .persist true]).wals := by decide +kernel
  have hafter : ¬ (0 ∈ (after fullRing [] [.rotate, .persist true, .free true]).wals ∨
      0 ∈ (after fullRing [] [.rotate, .persist true, .free true]).copied) := by decide +kernel
  refine ⟨by decide +kernel, fun h => hafter ?_⟩
  exact (h.steps [.rotate, .persist true] (.free true) List.prefix_rfl).wals 0 hbefore

end Keeper

end Wirekrak.Wal

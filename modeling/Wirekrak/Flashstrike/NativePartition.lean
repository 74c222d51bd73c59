import Wirekrak.Flashstrike.OrderBook

/-!
# Wirekrak.Flashstrike.NativePartition — a partition in the integer types of the source

A partition of any number of levels.  An offset is an `int32`; `recompute_best` takes the number of bitmap words, and
the index of the level it has found, as an `int`.

* `scan_right_iff`: bits and best price are exact when all words that an offset can lie in are scanned, and the prices
  of the levels do not wrap.
* `recomputeBest_of`: in a plan, it is `recomputeBest` of the partitions there.
-/

namespace Wirekrak.Flashstrike

open Wirekrak.Lib

/-- A value converted to `int32`. -/
def narrow32 (x : ℤ) : ℤ := Int.bmod x (2 ^ 32)

namespace Native

structure Partition where
  size : ℕ
  levels : ℕ → PriceLevel
  bitmap : Bitmap
  bestPrice : ℤ
  hasBest : Bool

namespace Partition

/-- `bitmap_.size()`. -/
def words (p : Partition) : ℕ := (p.size + 63) / 64

def new (partitionSize : ℕ) : Partition where
  size := partitionSize
  levels := fun _ => ⟨0, some 0, some 0, 0, false⟩
  bitmap := .empty
  bestPrice := invalidPrice
  hasBest := false

def initializeForPartid (partid : ℕ) (p : Partition) : Partition :=
  let basePrice := wrap64 (partid * p.size)
  { p with
    bestPrice := invalidPrice
    hasBest := false
    bitmap := fun w => if w < p.words then 0#64 else p.bitmap w
    levels := fun i => if i < p.size then ⟨wrap64 (basePrice + i), none, none, 0, false⟩ else p.levels i }

def empty (p : Partition) : Bool := p.bitmap.isEmpty p.words

def setActive (p : Partition) (off : ℕ) : Partition := { p with bitmap := p.bitmap.set off }

def clearActive (p : Partition) (off : ℕ) : Partition := { p with bitmap := p.bitmap.clear off }

def tryUpdateBest (side : Side) (p : Partition) (price : ℤ) : Partition :=
  if p.hasBest = false then { p with bestPrice := price, hasBest := true }
  else if side.isBetter price p.bestPrice then { p with bestPrice := price } else p

/-- What a loop over the words has found; `w * BITS_PER_WORD + bit` may overflow. -/
def found (p : Partition) : Option ℕ → Option Partition
  | some plIdx => if plIdx < 2 ^ 31 then some { p with bestPrice := (p.levels plIdx).price, hasBest := true } else none
  | none => some { p with bestPrice := invalidPrice, hasBest := false }

/-- The loops run over `(int)bitmap_.size()` words; `none` is an overflow. -/
def recomputeBest (side : Side) (p : Partition) : Option Partition :=
  let count := narrow32 p.words
  match side with
  | .bid => if count = -2 ^ 31 then none else p.found (p.bitmap.highest? count.toNat)
  | .ask => p.found (p.bitmap.lowest? count.toNat)

/-! ## What it is for -/

inductive BitOp
  | setActive (off : ℕ)
  | clearActive (off : ℕ)
  deriving DecidableEq

def BitOp.off : BitOp → ℕ
  | .setActive off | .clearActive off => off

/-- The offset is one of the partition, and an `int32`. -/
def BitOp.Inside (size : ℕ) (op : BitOp) : Prop := op.off < size ∧ op.off < 2 ^ 31

def apply (p : Partition) : BitOp → Partition
  | .setActive off => p.setActive off
  | .clearActive off => p.clearActive off

/-- The active levels after an operation. -/
def BitOp.mark (S : Finset ℕ) : BitOp → Finset ℕ
  | .setActive off => insert off S
  | .clearActive off => S.erase off

def activeLevels (ops : List BitOp) : Finset ℕ := ops.foldl BitOp.mark ∅

/-- The best price is that of the prices `P`, or none. -/
structure Best (side : Side) (P : Set ℤ) (p : Partition) : Prop where
  none : P = ∅ → p.hasBest = false ∧ p.bestPrice = invalidPrice
  some : P.Nonempty → p.hasBest = true ∧ p.bestPrice ∈ P ∧ ∀ v ∈ P, side.key p.bestPrice ≤ side.key v

/-- The prices of the levels `S`. -/
def prices (p : Partition) (S : Finset ℕ) : Set ℤ := {v | ∃ i ∈ S, v = (p.levels i).price}

/-- The bitmap is exact, and so is the best price of each side, updated by new prices or not. -/
structure ScanRight (S : Finset ℕ) (p : Partition) : Prop where
  empty : p.empty = true ↔ S = ∅
  best : ∀ side, ∃ q, p.recomputeBest side = some q ∧
    ∀ news : List ℤ, Best side (p.prices S ∪ {v | v ∈ news}) (news.foldl (tryUpdateBest side) q)

/-- A partition as constructed, or as initialised for a partition id. -/
inductive Start
  | constructed
  | initialized (partid : ℕ)

def Start.partition (size : ℕ) : Start → Partition
  | .constructed => .new size
  | .initialized partid => (Partition.new size).initializeForPartid partid

/-- The words that offsets lie in are scanned. -/
def Scanned (size : ℕ) : Prop := min size (2 ^ 31) ≤ 64 * (narrow32 (new size).words).toNat

/-- The prices of the levels do not wrap. -/
def Start.Ordered (size : ℕ) : Start → Prop
  | .constructed => True
  | .initialized partid => wrap64 (partid * size) + (min size (2 ^ 31) : ℕ) ≤ 2 ^ 63

/-! ## The bits -/

variable {p p0 : Partition} {S : Finset ℕ} {side : Side} {size partid i j : ℕ} {op : BitOp} {ops : List BitOp}

/-- The bits of `p` are those of the levels `S`, which are inside `p0`; the rest is as in `p0`. -/
structure Marks (p0 : Partition) (S : Finset ℕ) (p : Partition) : Prop where
  levels_eq : p.levels = p0.levels
  size_eq : p.size = p0.size
  inside : ∀ i ∈ S, i < p0.size ∧ i < 2 ^ 31
  test_iff : ∀ i, p.bitmap.test i = true ↔ i ∈ S

theorem Marks.apply (h : Marks p0 S p) (hop : op.Inside p0.size) : Marks p0 (op.mark S) (p.apply op) := by
  cases op with
  | setActive off =>
    refine ⟨h.levels_eq, h.size_eq, fun i hi => ?_, fun i => ?_⟩
    · rcases Finset.mem_insert.mp hi with rfl | hi
      · exact hop
      · exact h.inside i hi
    · show (p.bitmap.set off).test i = true ↔ i ∈ insert off S
      rw [Bitmap.test_set, Finset.mem_insert, ← h.test_iff i, Bool.or_eq_true, decide_eq_true_iff, eq_comm (a := off)]
  | clearActive off =>
    refine ⟨h.levels_eq, h.size_eq, fun i hi => h.inside i (Finset.mem_of_mem_erase hi), fun i => ?_⟩
    show (p.bitmap.clear off).test i = true ↔ i ∈ S.erase off
    rw [Bitmap.test_clear, Finset.mem_erase, ← h.test_iff i, Bool.and_eq_true, decide_eq_true_iff, ne_comm]

theorem activeLevels_concat : activeLevels (ops ++ [op]) = op.mark (activeLevels ops) := by
  unfold activeLevels
  rw [List.foldl_concat]

/-- The bits after a run. -/
theorem Marks.run (h : Marks p0 ∅ p0) (hops : ∀ op ∈ ops, op.Inside p0.size) :
    Marks p0 (activeLevels ops) (ops.foldl Partition.apply p0) := by
  induction ops using List.reverseRecOn with
  | nil => exact h
  | append_singleton ops op ih =>
    rw [activeLevels_concat, List.foldl_concat]
    exact (ih fun o ho => hops o (List.mem_append_left _ ho)).apply (hops op (List.mem_append_right _ (by simp)))

@[simp] theorem size_partition (start : Start) : (start.partition size).size = size := by
  cases start <;> rfl

theorem marks_start (start : Start) : Marks (start.partition size) ∅ (start.partition size) := by
  refine ⟨rfl, rfl, fun i hi => absurd hi (Finset.notMem_empty i), fun i => ?_⟩
  have hempty : (start.partition size).bitmap = Bitmap.empty := by
    cases start with
    | constructed => rfl
    | initialized partid =>
      funext w
      exact ite_self _
  rw [hempty, Bitmap.test_empty]
  simp

theorem marks_run (start : Start) (hops : ∀ op ∈ ops, op.Inside size) :
    Marks (start.partition size) (activeLevels ops) (ops.foldl Partition.apply (start.partition size)) := by
  refine (marks_start start).run fun op hop => ?_
  rw [size_partition]
  exact hops op hop

/-- Every level has a word. -/
theorem Marks.lt_words (h : Marks p0 S p) (hi : i ∈ S) : i < p.words * 64 := by
  have hlt := (h.inside i hi).1
  have hsize := h.size_eq
  unfold words
  omega

theorem Marks.empty_iff (h : Marks p0 S p) : p.empty = true ↔ S = ∅ := by
  unfold empty
  rw [Bitmap.isEmpty_iff]
  constructor
  · intro hclear
    refine Finset.eq_empty_of_forall_notMem fun i hi => ?_
    have hset := (h.test_iff i).mpr hi
    rw [hclear i (h.lt_words hi)] at hset
    cases hset
  · rintro rfl i -
    rw [← Bool.not_eq_true, h.test_iff i]
    exact Finset.notMem_empty i

/-! ## The scan -/

theorem Marks.words_eq (h : Marks p0 S p) : p.words = (new p0.size).words := by
  unfold words
  rw [h.size_eq]
  rfl

theorem words_new (size : ℕ) : (new size).words = (size + 63) / 64 := rfl

theorem Scanned.count_ne (hs : Scanned size) : narrow32 (new size).words ≠ -2 ^ 31 := by
  intro hcount
  unfold Scanned at hs
  rw [hcount] at hs
  have hsize : size = 0 := by
    rw [show (-2 ^ 31 : ℤ).toNat = 0 from rfl] at hs
    omega
  subst hsize
  exact absurd hcount (by decide)

theorem Marks.lt_scanned (h : Marks p0 S p) (hs : Scanned p0.size) (hi : i ∈ S) :
    i < (narrow32 p.words).toNat * 64 := by
  have hin := h.inside i hi
  unfold Scanned at hs
  rw [h.words_eq]
  omega

/-- What is found by the loops, if they pass all levels that can be active: one of the active levels that is at an end
of the partition, or nothing. -/
theorem Marks.recomputeBest_eq (h : Marks p0 S p) (hs : Scanned p0.size) (side : Side) :
    S = ∅ ∧ p.recomputeBest side = some { p with bestPrice := invalidPrice, hasBest := false } ∨
    ∃ i ∈ S, (∀ j ∈ S, side.key i ≤ side.key j) ∧
      p.recomputeBest side = some { p with bestPrice := (p0.levels i).price, hasBest := true } := by
  have hcount : narrow32 p.words ≠ -2 ^ 31 := h.words_eq ▸ hs.count_ne
  have hnone : (∀ i, i < (narrow32 p.words).toNat * 64 → p.bitmap.test i = false) → S = ∅ := by
    intro hclear
    refine Finset.eq_empty_of_forall_notMem fun i hi => ?_
    have hset := (h.test_iff i).mpr hi
    rw [hclear i (h.lt_scanned hs hi)] at hset
    cases hset
  have hsome : ∀ i ∈ S, p.found (some i) = some { p with bestPrice := (p0.levels i).price, hasBest := true } := by
    intro i hi
    show (if i < 2 ^ 31 then some { p with bestPrice := (p.levels i).price, hasBest := true } else none) = _
    rw [if_pos (h.inside i hi).2, h.levels_eq]
  unfold recomputeBest
  cases side with
  | bid =>
    dsimp only
    rw [if_neg hcount]
    cases hscan : p.bitmap.highest? (narrow32 p.words).toNat with
    | none => exact .inl ⟨hnone (Bitmap.highest?_eq_none hscan), rfl⟩
    | some i =>
      obtain ⟨-, htest, habove⟩ := Bitmap.highest?_eq_some hscan
      have hi := (h.test_iff i).mp htest
      refine .inr ⟨i, hi, fun j hj => ?_, hsome i hi⟩
      by_contra hlt
      have hclear := habove j (by simp only [Side.key] at hlt; omega) (h.lt_scanned hs hj)
      rw [(h.test_iff j).mpr hj] at hclear
      cases hclear
  | ask =>
    dsimp only
    cases hscan : p.bitmap.lowest? (narrow32 p.words).toNat with
    | none => exact .inl ⟨hnone (Bitmap.lowest?_eq_none hscan), rfl⟩
    | some i =>
      obtain ⟨-, htest, hbelow⟩ := Bitmap.lowest?_eq_some hscan
      have hi := (h.test_iff i).mp htest
      refine .inr ⟨i, hi, fun j hj => ?_, hsome i hi⟩
      by_contra hlt
      have hclear := hbelow j (by simp only [Side.key] at hlt; omega)
      rw [(h.test_iff j).mpr hj] at hclear
      cases hclear

/-! ## Prices -/

theorem price_initialized (partid : ℕ) (hi : i < size) :
    (((Start.initialized partid).partition size).levels i).price = wrap64 (wrap64 (partid * size) + i) := by
  unfold Start.partition initializeForPartid new
  dsimp only
  rw [if_pos hi]

/-- The levels are in the order of their prices. -/
theorem Start.Ordered.price_le {start : Start} (ho : start.Ordered size) (hij : i ≤ j) (hj : j < size)
    (hj' : j < 2 ^ 31) : ((start.partition size).levels i).price ≤ ((start.partition size).levels j).price := by
  cases start with
  | constructed => exact le_rfl
  | initialized partid =>
    have hbase : -2 ^ 63 ≤ wrap64 (partid * size) := by
      have hlo := Int.le_bmod (x := (partid * size : ℤ)) (m := 2 ^ 64) (by decide)
      unfold wrap64
      omega
    unfold Start.Ordered at ho
    have hexact : ∀ k ≤ j, wrap64 (wrap64 (partid * size) + k) = wrap64 (partid * size) + k := by
      intro k hk
      exact wrap64_eq_iff.mpr ⟨by omega, by omega⟩
    rw [price_initialized partid (hij.trans_lt hj), price_initialized partid hj, hexact i hij, hexact j le_rfl]
    omega

theorem Start.Ordered.key_le {start : Start} (ho : start.Ordered size) (hi : i < size ∧ i < 2 ^ 31)
    (hj : j < size ∧ j < 2 ^ 31) (hij : side.key i ≤ side.key j) :
    side.key ((start.partition size).levels i).price ≤ side.key ((start.partition size).levels j).price := by
  cases side with
  | bid => exact neg_le_neg (ho.price_le (by simp only [Side.key] at hij; omega) hi.1 hi.2)
  | ask => exact ho.price_le (by simp only [Side.key] at hij; omega) hj.1 hj.2

/-! ## New prices -/

section Best

variable {P : Set ℤ} {q : Partition}

theorem Best.push (h : Best side P q) (v : ℤ) : Best side (insert v P) (q.tryUpdateBest side v) := by
  refine ⟨fun hempty => absurd hempty (Set.insert_nonempty v P).ne_empty, fun _ => ?_⟩
  unfold tryUpdateBest
  rcases P.eq_empty_or_nonempty with rfl | hne
  · rw [if_pos (h.none rfl).1]
    exact ⟨rfl, Set.mem_insert v _, fun w hw => by rw [(Set.mem_insert_iff.mp hw).resolve_right id]⟩
  · obtain ⟨hhas, hmem, hbest⟩ := h.some hne
    rw [hhas, if_neg (by decide)]
    by_cases hv : side.isBetter v q.bestPrice = true
    · rw [if_pos hv]
      have hlt := Side.isBetter_iff.mp hv
      refine ⟨rfl, Set.mem_insert v P, fun w hw => ?_⟩
      rcases hw with rfl | hw
      · exact le_rfl
      · exact hlt.le.trans (hbest w hw)
    · rw [if_neg hv]
      refine ⟨hhas, Set.mem_insert_of_mem v hmem, fun w hw => ?_⟩
      rcases hw with rfl | hw
      · exact not_lt.mp fun hlt => hv (Side.isBetter_iff.mpr hlt)
      · exact hbest w hw

theorem Best.run (news : List ℤ) (h : Best side P q) :
    Best side (P ∪ {v | v ∈ news}) (news.foldl (tryUpdateBest side) q) := by
  induction news generalizing P q with
  | nil => simpa using h
  | cons v news ih =>
    have hsets : P ∪ {w | w ∈ v :: news} = insert v P ∪ {w | w ∈ news} := by
      ext w
      show (w ∈ P ∨ w ∈ v :: news) ↔ (w = v ∨ w ∈ P) ∨ w ∈ news
      rw [List.mem_cons]
      tauto
    rw [hsets]
    exact ih (h.push v)

end Best

/-! ## When the scan is right -/

variable {start : Start}

/-- The level that is found has the best price. -/
theorem Marks.best (h : Marks (start.partition size) S p) (hs : Scanned size) (ho : start.Ordered size) (side : Side) :
    ∃ q, p.recomputeBest side = some q ∧ Best side (p.prices S) q := by
  have hs' : Scanned (start.partition size).size := by rwa [size_partition]
  have hin : ∀ i ∈ S, i < size ∧ i < 2 ^ 31 := by
    intro i hi
    have hin := h.inside i hi
    rwa [size_partition] at hin
  rcases h.recomputeBest_eq hs' side with ⟨rfl, hq⟩ | ⟨i, hi, hend, hq⟩
  · have hempty : p.prices ∅ = ∅ := by
      refine Set.eq_empty_of_forall_notMem ?_
      rintro v ⟨i, hi, -⟩
      exact Finset.notMem_empty i hi
    rw [hempty]
    exact ⟨_, hq, fun _ => ⟨rfl, rfl⟩, fun hne => absurd hne Set.not_nonempty_empty⟩
  · have hmem : ((start.partition size).levels i).price ∈ p.prices S := ⟨i, hi, by rw [h.levels_eq]⟩
    refine ⟨_, hq, fun hempty => absurd hempty (Set.nonempty_of_mem hmem).ne_empty, fun _ => ⟨rfl, hmem, ?_⟩⟩
    rintro v ⟨j, hj, rfl⟩
    rw [h.levels_eq]
    exact ho.key_le (hin i hi) (hin j hj) (hend j hj)

theorem scanRight_of (hs : Scanned size) (ho : start.Ordered size) (hops : ∀ op ∈ ops, op.Inside size) :
    ScanRight (activeLevels ops) (ops.foldl Partition.apply (start.partition size)) := by
  have h := marks_run start hops
  refine ⟨h.empty_iff, fun side => ?_⟩
  obtain ⟨q, hq, hbest⟩ := h.best hs ho side
  exact ⟨q, hq, fun news => hbest.run news⟩

/-- The loop upwards finds nothing in clear words. -/
theorem recomputeBest_ask_of_clear (hclear : ∀ i, i < (narrow32 p.words).toNat * 64 → p.bitmap.test i = false) :
    p.recomputeBest .ask = some { p with bestPrice := invalidPrice, hasBest := false } := by
  unfold recomputeBest
  dsimp only
  cases hscan : p.bitmap.lowest? (narrow32 p.words).toNat with
  | none => rfl
  | some i =>
    obtain ⟨hlt, htest, -⟩ := Bitmap.lowest?_eq_some hscan
    rw [hclear i hlt] at htest
    cases htest

/-- A level behind the words that are scanned is not found. -/
theorem not_scanRight_of_not_scanned (start : Start) (hs : ¬ Scanned size) :
    ∃ ops : List BitOp, (∀ op ∈ ops, op.Inside size) ∧
      ¬ ScanRight (activeLevels ops) (ops.foldl Partition.apply (start.partition size)) := by
  unfold Scanned at hs
  obtain ⟨off, hoff⟩ : ∃ off, off = 64 * (narrow32 (new size).words).toNat := ⟨_, rfl⟩
  have hin : off < size ∧ off < 2 ^ 31 := by omega
  have hops : ∀ op ∈ [BitOp.setActive off], op.Inside size := by
    intro op hop
    rw [List.mem_singleton.mp hop]
    exact hin
  refine ⟨[.setActive off], hops, fun h => ?_⟩
  have hm := marks_run start hops
  have hS : activeLevels [.setActive off] = {off} := rfl
  rw [hS] at h hm
  obtain ⟨q, hq, hbest⟩ := h.best .ask
  rw [recomputeBest_ask_of_clear fun i hi => ?_] at hq
  · cases hq
    have hsome := ((hbest []).some ⟨_, .inl ⟨off, Finset.mem_singleton_self off, rfl⟩⟩).1
    cases hsome
  · rw [hm.words_eq, size_partition] at hi
    rw [← Bool.not_eq_true, hm.test_iff i, Finset.mem_singleton]
    omega

/-- Across the wrap, a lower level has the higher price. -/
theorem not_scanRight_of_not_ordered (hs : Scanned size) (ho : ¬ start.Ordered size) :
    ∃ ops : List BitOp, (∀ op ∈ ops, op.Inside size) ∧
      ¬ ScanRight (activeLevels ops) (ops.foldl Partition.apply (start.partition size)) := by
  cases start with
  | constructed => exact absurd trivial ho
  | initialized partid =>
    have hhi : wrap64 (partid * size) < 2 ^ 63 := by
      have hlt := Int.bmod_lt (x := (partid * size : ℤ)) (m := 2 ^ 64) (by decide)
      unfold wrap64
      omega
    unfold Start.Ordered at ho
    dsimp only at ho
    -- the last level before the wrap, and the first one after it
    obtain ⟨k, hk⟩ : ∃ k : ℕ, wrap64 (partid * size) + k = 2 ^ 63 - 1 :=
      ⟨(2 ^ 63 - 1 - wrap64 (partid * size)).toNat, by omega⟩
    have hkin : k < size ∧ k < 2 ^ 31 := by omega
    have hkin' : k + 1 < size ∧ k + 1 < 2 ^ 31 := by omega
    have hops : ∀ op ∈ [BitOp.setActive k, .setActive (k + 1)], op.Inside size := by
      intro op hop
      rcases List.mem_pair.mp hop with rfl | rfl
      · exact hkin
      · exact hkin'
    have hS : activeLevels [BitOp.setActive k, .setActive (k + 1)] = {k + 1, k} := rfl
    refine ⟨_, hops, fun h => ?_⟩
    have hm := marks_run (.initialized partid) hops
    rw [hS] at h hm
    have hprice := price_initialized partid hkin.1
    have hprice' := price_initialized partid hkin'.1
    rw [hk] at hprice
    rw [Nat.cast_add, ← Int.add_assoc, hk] at hprice'
    obtain ⟨q, hq, hbest⟩ := h.best .bid
    rcases hm.recomputeBest_eq (by rwa [size_partition]) .bid with ⟨hempty, -⟩ | ⟨i, hi, hend, hq'⟩
    · exact absurd hempty (Finset.insert_ne_empty _ _)
    · have hik : i = k + 1 := by
        have hle := hend (k + 1) (Finset.mem_insert_self _ _)
        rcases Finset.mem_insert.mp hi with rfl | hi
        · rfl
        · rw [Finset.mem_singleton.mp hi] at hle
          simp only [Side.key] at hle
          omega
      subst hik
      rw [hq'] at hq
      cases hq
      have hle := ((hbest []).some ⟨_, .inl ⟨k, by simp, rfl⟩⟩).2.2 _ (.inl ⟨k, by simp, rfl⟩)
      rw [List.foldl_nil] at hle
      dsimp only at hle
      rw [hm.levels_eq, hprice, hprice'] at hle
      exact absurd hle (by decide)

/-- For which partitions the scan is exact. -/
theorem scan_right_iff (size : ℕ) (start : Start) :
    (∀ ops : List BitOp, (∀ op ∈ ops, op.Inside size) →
      ScanRight (activeLevels ops) (ops.foldl Partition.apply (start.partition size))) ↔
    Scanned size ∧ start.Ordered size := by
  constructor
  · intro h
    have hs : Scanned size := by
      by_contra hs
      obtain ⟨ops, hops, hwrong⟩ := not_scanRight_of_not_scanned start hs
      exact hwrong (h ops hops)
    refine ⟨hs, ?_⟩
    by_contra ho
    obtain ⟨ops, hops, hwrong⟩ := not_scanRight_of_not_ordered hs ho
    exact hwrong (h ops hops)
  · rintro ⟨hs, ho⟩ ops hops
    exact scanRight_of hs ho hops

/-- A partition of `2 ^ 37` levels has `2 ^ 31` words, as an `int` a negative number: its only active level is not
found. -/
theorem active_level_not_found :
    BitOp.Inside (2 ^ 37) (.setActive 0) ∧
    ¬ ScanRight (activeLevels [.setActive 0]) (((Start.initialized 0).partition (2 ^ 37)).apply (.setActive 0)) := by
  have hin : BitOp.Inside (2 ^ 37) (.setActive 0) := ⟨by show 0 < 2 ^ 37; norm_num, by show 0 < 2 ^ 31; norm_num⟩
  refine ⟨hin, fun h => ?_⟩
  obtain ⟨q, hq, hbest⟩ := h.best .ask
  have hcount : (narrow32 (((Start.initialized 0).partition (2 ^ 37)).apply (.setActive 0)).words).toNat = 0 := by
    show (narrow32 (((2 ^ 37 + 63) / 64 : ℕ) : ℤ)).toNat = 0
    decide
  rw [recomputeBest_ask_of_clear (by rw [hcount]; intro i hi; omega)] at hq
  cases hq
  have hsome := ((hbest []).some ⟨_, .inl ⟨0, by decide, rfl⟩⟩).1
  cases hsome

/-- Up to `2 ^ 31` levels, all partitions are scanned and ordered. -/
theorem scanned_and_ordered (hsize : size ≤ 2 ^ 31) (hpart : partid < 2 ^ 32) :
    Scanned size ∧ (Start.initialized partid).Ordered size := by
  constructor
  · have hcount : narrow32 (new size).words = (new size).words := by
      rw [words_new]
      unfold narrow32
      exact Int.bmod_eq_of_le (by omega) (by omega)
    unfold Scanned
    rw [hcount, Int.toNat_natCast, words_new]
    omega
  · have hpos : (0 : ℤ) ≤ partid * size := by positivity
    have hprod : (partid : ℤ) * size ≤ (2 ^ 32 - 1) * size := mul_le_mul_of_nonneg_right (by omega) (by omega)
    have hwrap : wrap64 (partid * size) = partid * size := wrap64_eq_iff.mpr ⟨by omega, by omega⟩
    unfold Start.Ordered
    dsimp only
    rw [hwrap]
    omega

/-! ## In a plan -/

/-- The partition as the order book has it. -/
def view (p : Partition) : Flashstrike.Partition := ⟨p.levels, p.bitmap, p.bestPrice, p.hasBest⟩

section Plan

variable {cfg : Config}

theorem words_of (hsize : p.size = cfg.partitionSize) : p.words = cfg.levelWords ∧ p.words ≤ 2 ^ 25 := by
  have hle : cfg.partitionSize ≤ 2 ^ 31 := Nat.pow_le_pow_right (by decide) cfg.bits_le
  unfold words Config.levelWords
  rw [hsize]
  exact ⟨rfl, by omega⟩

theorem found_of {r : Option ℕ} (hr : ∀ i ∈ r, i < 2 ^ 31) (hbest : p.view.bestOffset cfg side = r) :
    (p.found r).map view = some (p.view.recomputeBest cfg side) := by
  unfold found Flashstrike.Partition.recomputeBest
  rw [hbest]
  cases r with
  | none => rfl
  | some i =>
    dsimp only
    rw [if_pos (hr i rfl)]
    rfl

theorem recomputeBest_of (hsize : p.size = cfg.partitionSize) (side : Side) :
    (p.recomputeBest side).map view = some (p.view.recomputeBest cfg side) := by
  obtain ⟨hwords, hle⟩ := words_of hsize
  have hcount : narrow32 p.words = p.words := by
    unfold narrow32
    exact Int.bmod_eq_of_le (by omega) (by omega)
  unfold recomputeBest
  rw [hcount]
  dsimp only
  rw [Int.toNat_natCast, hwords]
  cases side with
  | bid =>
    dsimp only
    rw [if_neg (by omega)]
    refine found_of (fun i hi => ?_) rfl
    have hlt := (Bitmap.highest?_eq_some hi).1
    omega
  | ask =>
    refine found_of (fun i hi => ?_) rfl
    have hlt := (Bitmap.lowest?_eq_some hi).1
    omega

theorem tryUpdateBest_of (side : Side) (price : ℤ) :
    (p.tryUpdateBest side price).view = p.view.tryUpdateBest side price := by
  unfold tryUpdateBest Flashstrike.Partition.tryUpdateBest
  rw [apply_ite view, apply_ite view]
  rfl

/-- The prices that a plan's partition starts with. -/
theorem initializeForPartid_of (hsize : p.size = cfg.partitionSize) (hpart : partid < cfg.numPartitions)
    (hi : i < cfg.partitionSize) :
    (p.initializeForPartid partid).levels i = (Flashstrike.Partition.initializeForPartid cfg partid).levels i := by
  obtain ⟨hlo, hhi⟩ := Config.inPlan_priceOf hpart hi
  unfold Config.priceOf at hlo hhi
  have hticks : cfg.numTicks ≤ 2 ^ 31 * 2 ^ 31 := by
    have hN : (cfg.numPartitions : ℤ) ≤ 2 ^ 31 := by exact_mod_cast Config.numPartitions_le
    have hS : (cfg.partitionSize : ℤ) ≤ 2 ^ 31 := by
      exact_mod_cast Nat.pow_le_pow_right (by decide) cfg.bits_le
    exact mul_le_mul hN hS (by positivity) (by norm_num)
  have hprice : wrap64 (wrap64 (partid * p.size) + i) = partid * cfg.partitionSize + i := by
    rw [hsize, wrap64_add]
    exact wrap64_eq_iff.mpr ⟨by omega, by omega⟩
  unfold initializeForPartid Flashstrike.Partition.initializeForPartid
  dsimp only
  rw [if_pos (hsize ▸ hi), hprice]

end Plan

end Partition

end Native

end Wirekrak.Flashstrike

import Mathlib.Data.List.Basic
import Mathlib.Data.List.Nodup

/-!
# Wirekrak.Lib.Linked — intrusive linked lists

Cells are numbers; the links are functions of the cell, `nx` and `pv` with `none` for no neighbour.

* `Dll nx pv head tail L`: from `head` the links run through `L` up to `tail`, backwards too.
* `Dll.pushBack`, `Dll.erase`: what appending and unlinking a cell do; `Dll.congr`: cells outside do not matter.
* `Chain nf head L`: a singly linked list, used as a stack; the links determine it (`Chain.unique`).
* `walk`: the cells met from a cell on; it finds the list (`Dll.walk_eq`, `Chain.walk_eq`).
-/

namespace Wirekrak.Lib

variable {α : Type*}

/-! ## Doubly linked lists -/

/-- The cells of `L` are linked both ways; the cell before the first is `before`. -/
def Seg (nx pv : α → Option α) : Option α → List α → Prop
  | _, [] => True
  | before, x :: L => pv x = before ∧ nx x = L.head? ∧ Seg nx pv (some x) L

structure Dll (nx pv : α → Option α) (head tail : Option α) (L : List α) : Prop where
  head_eq : head = L.head?
  tail_eq : tail = L.getLast?
  seg : Seg nx pv none L

namespace Seg

variable {nx pv nx' pv' : α → Option α} {before : Option α} {A B L : List α} {i : α}

theorem congr (h : Seg nx pv before L) (hnx : ∀ j ∈ L, nx' j = nx j) (hpv : ∀ j ∈ L, pv' j = pv j) :
    Seg nx' pv' before L := by
  induction L generalizing before with
  | nil => trivial
  | cons x L ih =>
    obtain ⟨h1, h2, h3⟩ := h
    refine ⟨by rw [hpv x List.mem_cons_self, h1], by rw [hnx x List.mem_cons_self, h2], ?_⟩
    exact ih h3 (fun j hj => hnx j (List.mem_cons_of_mem _ hj)) (fun j hj => hpv j (List.mem_cons_of_mem _ hj))

/-- The links of a cell in the middle. -/
theorem links (h : Seg nx pv before (A ++ i :: B)) :
    pv i = (A.getLast?).or before ∧ nx i = B.head? := by
  induction A generalizing before with
  | nil => exact ⟨h.1, h.2.1⟩
  | cons x A ih =>
    have h' := ih h.2.2
    refine ⟨?_, h'.2⟩
    rw [h'.1]
    cases A with
    | nil => rfl
    | cons y A =>
      rw [List.getLast?_cons_cons]
      cases hl : (y :: A).getLast? with
      | none => simp at hl
      | some z => rfl

/-- Appending a cell: the last cell gets a successor. -/
theorem snoc [DecidableEq α] (h : Seg nx pv before L) (hi : i ∉ L) (hnd : L.Nodup)
    (hpvi : pv' i = (L.getLast?).or before) (hnxi : nx' i = none) (hpv : ∀ j ∈ L, pv' j = pv j)
    (hnx : ∀ j ∈ L, nx' j = if L.getLast? = some j then some i else nx j) : Seg nx' pv' before (L ++ [i]) := by
  induction L generalizing before with
  | nil => exact ⟨by simpa using hpvi, hnxi, trivial⟩
  | cons x L ih =>
    obtain ⟨h1, h2, h3⟩ := h
    have hx : x ∉ L := (List.nodup_cons.mp hnd).1
    refine ⟨by rw [hpv x List.mem_cons_self, h1], ?_, ?_⟩
    · rw [hnx x List.mem_cons_self]
      cases L with
      | nil => simp
      | cons y L =>
        have hne : ¬ ((x :: y :: L).getLast? = some x) := by
          rw [List.getLast?_cons_cons]
          intro hl
          exact hx (List.mem_of_getLast? hl)
        rw [if_neg hne, h2]
        rfl
    · refine ih h3 (fun hm => hi (List.mem_cons_of_mem _ hm)) (List.nodup_cons.mp hnd).2 ?_
        (fun j hj => hpv j (List.mem_cons_of_mem _ hj)) (fun j hj => ?_)
      · rw [hpvi]
        cases L with
        | nil => rfl
        | cons y L =>
          rw [List.getLast?_cons_cons]
          cases hl : (y :: L).getLast? with
          | none => simp at hl
          | some z => rfl
      · rw [hnx j (List.mem_cons_of_mem _ hj)]
        cases L with
        | nil => simp at hj
        | cons y L => rw [List.getLast?_cons_cons]

/-- Unlinking a cell: its neighbours are linked to each other. -/
theorem unlink [DecidableEq α] (h : Seg nx pv before (A ++ i :: B)) (hnd : (A ++ i :: B).Nodup)
    (hbefore : ∀ j ∈ A ++ B, before ≠ some j)
    (hnx : ∀ j ∈ A ++ B, nx' j = if pv i = some j then nx i else nx j)
    (hpv : ∀ j ∈ A ++ B, pv' j = if nx i = some j then pv i else pv j) : Seg nx' pv' before (A ++ B) := by
  induction A generalizing before with
  | nil =>
    obtain ⟨h1, h2, h3⟩ := h
    rw [List.nil_append] at hnx hpv hbefore ⊢
    cases B with
    | nil => trivial
    | cons y B =>
      obtain ⟨g1, g2, g3⟩ := h3
      rw [List.nil_append, List.nodup_cons, List.nodup_cons] at hnd
      have hy : nx i = some y := h2
      have hpi : ∀ j ∈ y :: B, ¬ pv i = some j := fun j hj hp => hbefore j hj (h1.symm.trans hp)
      refine ⟨?_, ?_, ?_⟩
      · rw [hpv y List.mem_cons_self, if_pos hy, h1]
      · rw [hnx y List.mem_cons_self, if_neg (hpi y List.mem_cons_self), g2]
      · refine g3.congr (fun j hj => ?_) (fun j hj => ?_)
        · rw [hnx j (List.mem_cons_of_mem _ hj), if_neg (hpi j (List.mem_cons_of_mem _ hj))]
        · have hne : ¬ nx i = some j := by
            rw [hy, Option.some.injEq]
            rintro rfl
            exact hnd.2.1 hj
          rw [hpv j (List.mem_cons_of_mem _ hj), if_neg hne]
  | cons x A ih =>
    obtain ⟨h1, h2, h3⟩ := h
    rw [List.cons_append] at hnx hpv hbefore hnd ⊢
    obtain ⟨hx, hnd'⟩ := List.nodup_cons.mp hnd
    have hlinks := links h3
    have hxA : x ∉ A := fun hm => hx (List.mem_append_left _ hm)
    have hxB : x ∉ B := fun hm => hx (List.mem_append_right _ (List.mem_cons_of_mem _ hm))
    refine ⟨?_, ?_, ?_⟩
    · have hne : ¬ nx i = some x := by
        rw [hlinks.2]
        intro hb
        exact hxB (List.mem_of_mem_head? hb)
      rw [hpv x List.mem_cons_self, if_neg hne, h1]
    · rw [hnx x List.mem_cons_self]
      cases A with
      | nil => rw [if_pos (by rw [hlinks.1]; rfl), hlinks.2]; rfl
      | cons y A =>
        have hne : ¬ pv i = some x := by
          rw [hlinks.1]
          cases hl : (y :: A).getLast? with
          | none => simp at hl
          | some z =>
            rw [Option.some_or, Option.some.injEq]
            rintro rfl
            exact hxA (List.mem_of_getLast? hl)
        rw [if_neg hne, h2]
        rfl
    · refine ih h3 hnd' (fun j hj hp => ?_) (fun j hj => hnx j (List.mem_cons_of_mem _ hj))
        (fun j hj => hpv j (List.mem_cons_of_mem _ hj))
      rw [Option.some.injEq] at hp
      subst hp
      rcases List.mem_append.mp hj with hm | hm
      · exact hxA hm
      · exact hxB hm

end Seg

namespace Dll

variable {nx pv nx' pv' : α → Option α} {head tail : Option α} {L : List α} {i : α}

theorem nil_iff : Dll nx pv head tail [] ↔ head = none ∧ tail = none :=
  ⟨fun h => ⟨h.head_eq, h.tail_eq⟩, fun h => ⟨h.1, h.2, trivial⟩⟩

theorem congr (h : Dll nx pv head tail L) (hnx : ∀ j ∈ L, nx' j = nx j) (hpv : ∀ j ∈ L, pv' j = pv j) :
    Dll nx' pv' head tail L := ⟨h.head_eq, h.tail_eq, h.seg.congr hnx hpv⟩

theorem head_eq_none (h : Dll nx pv head tail L) : head = none ↔ L = [] := by
  rw [h.head_eq, List.head?_eq_none_iff]

theorem tail_mem (h : Dll nx pv head tail L) (hi : tail = some i) : i ∈ L :=
  List.mem_of_getLast? (h.tail_eq ▸ hi)

theorem pushBack [DecidableEq α] (h : Dll nx pv head tail L) (hi : i ∉ L) (hnd : L.Nodup) (hpvi : pv' i = tail)
    (hnxi : nx' i = none) (hpv : ∀ j ∈ L, pv' j = pv j) (hnx : ∀ j ∈ L, nx' j = if tail = some j then some i else nx j) :
    Dll nx' pv' (if head = none then some i else head) (some i) (L ++ [i]) := by
  refine ⟨?_, by simp, ?_⟩
  · rw [h.head_eq]
    cases L <;> rfl
  · refine h.seg.snoc hi hnd ?_ hnxi hpv (fun j hj => ?_)
    · rw [hpvi, h.tail_eq, Option.or_none]
    · rw [hnx j hj, h.tail_eq]

theorem neighbours_mem (h : Dll nx pv head tail L) (hi : i ∈ L) {j : α} (hj : pv i = some j ∨ nx i = some j) :
    j ∈ L := by
  obtain ⟨A, B, rfl⟩ := List.append_of_mem hi
  have hl := h.seg.links
  rw [Option.or_none] at hl
  rcases hj with hj | hj
  · rw [hl.1] at hj
    exact List.mem_append_left _ (List.mem_of_getLast? hj)
  · rw [hl.2] at hj
    exact List.mem_append_right _ (List.mem_cons_of_mem _ (List.mem_of_mem_head? hj))

/-- A cell is not its own neighbour. -/
theorem ne_of_neighbour (h : Dll nx pv head tail L) (hnd : L.Nodup) (hi : i ∈ L) :
    pv i ≠ some i ∧ nx i ≠ some i := by
  obtain ⟨A, B, rfl⟩ := List.append_of_mem hi
  have hl := h.seg.links
  rw [Option.or_none] at hl
  rw [List.nodup_middle, List.nodup_cons] at hnd
  refine ⟨?_, ?_⟩
  · rw [hl.1]
    exact fun hj => hnd.1 (List.mem_append_left _ (List.mem_of_getLast? hj))
  · rw [hl.2]
    exact fun hj => hnd.1 (List.mem_append_right _ (List.mem_of_mem_head? hj))

theorem erase [DecidableEq α] (h : Dll nx pv head tail L) (hnd : L.Nodup) (hi : i ∈ L)
    (hnx : ∀ j ∈ L, j ≠ i → nx' j = if pv i = some j then nx i else nx j)
    (hpv : ∀ j ∈ L, j ≠ i → pv' j = if nx i = some j then pv i else pv j) :
    Dll nx' pv' (if head = some i then nx i else head) (if tail = some i then pv i else tail) (L.erase i) := by
  obtain ⟨A, B, rfl⟩ := List.append_of_mem hi
  have hl := h.seg.links
  rw [Option.or_none] at hl
  obtain ⟨hiAB, hAB⟩ := List.nodup_cons.mp (List.nodup_middle.mp hnd)
  have hiA : i ∉ A := fun hm => hiAB (List.mem_append_left _ hm)
  have hiB : i ∉ B := fun hm => hiAB (List.mem_append_right _ hm)
  have herase : (A ++ i :: B).erase i = A ++ B := by
    rw [List.erase_append_right _ hiA, List.erase_cons_head]
  have hmem : ∀ j ∈ A ++ B, j ∈ A ++ i :: B ∧ j ≠ i := by
    intro j hj
    refine ⟨?_, fun hji => hiAB (hji ▸ hj)⟩
    rcases List.mem_append.mp hj with hm | hm
    · exact List.mem_append_left _ hm
    · exact List.mem_append_right _ (List.mem_cons_of_mem _ hm)
  rw [herase]
  refine ⟨?_, ?_, ?_⟩
  · rw [h.head_eq]
    cases A with
    | nil => simp [hl.2]
    | cons x A =>
      have hne : ¬ ((x :: A ++ i :: B).head? = some i) := by
        simp only [List.cons_append, List.head?_cons, Option.some.injEq]
        rintro rfl
        exact hiA List.mem_cons_self
      rw [if_neg hne]
      rfl
  · rw [h.tail_eq]
    rcases List.eq_nil_or_concat B with rfl | ⟨B', x, rfl⟩
    · simp [hl.1]
    · have hx : x ≠ i := by
        rintro rfl
        exact hiB (by simp)
      have h1 : (A ++ i :: (B' ++ [x])).getLast? = some x := by
        rw [show A ++ i :: (B' ++ [x]) = (A ++ i :: B') ++ [x] by simp, List.getLast?_concat]
      have h2 : (A ++ (B' ++ [x])).getLast? = some x := by
        rw [← List.append_assoc, List.getLast?_concat]
      rw [List.concat_eq_append, h1, h2, if_neg (fun hs => hx (Option.some.inj hs))]
  · exact h.seg.unlink hnd (fun j _ hp => by cases hp) (fun j hj => hnx j (hmem j hj).1 (hmem j hj).2)
      (fun j hj => hpv j (hmem j hj).1 (hmem j hj).2)

end Dll

/-! ## Stacks -/

/-- From `head` the links run through `L` to the end. -/
def Chain (nf : α → Option α) : Option α → List α → Prop
  | head, [] => head = none
  | head, x :: L => head = some x ∧ Chain nf (nf x) L

theorem Chain.congr {nf nf' : α → Option α} : ∀ {L : List α} {head : Option α}, Chain nf head L →
    (∀ j ∈ L, nf' j = nf j) → Chain nf' head L := by
  intro L
  induction L with
  | nil => intro head h _; exact h
  | cons x L ih =>
    rintro head ⟨h1, h2⟩ hnf
    refine ⟨h1, ?_⟩
    rw [hnf x List.mem_cons_self]
    exact ih h2 (fun j hj => hnf j (List.mem_cons_of_mem _ hj))

/-! ## Walking a list -/

/-- The cells from `head` on, at most `fuel` of them. -/
def walk (nx : α → Option α) : ℕ → Option α → List α
  | 0, _ => []
  | _ + 1, none => []
  | fuel + 1, some x => x :: walk nx fuel (nx x)

theorem walk_eq_of_seg {nx pv : α → Option α} : ∀ {L : List α} {before : Option α} {fuel : ℕ},
    Seg nx pv before L → L.length ≤ fuel → walk nx fuel L.head? = L := by
  intro L
  induction L with
  | nil => intro before fuel _ _; cases fuel <;> rfl
  | cons x L ih =>
    rintro before fuel ⟨-, h2, h3⟩ hlen
    cases fuel with
    | zero => simp at hlen
    | succ fuel =>
      rw [List.length_cons] at hlen
      show x :: walk nx fuel (nx x) = x :: L
      rw [h2, ih h3 (by omega)]

theorem Dll.walk_eq {nx pv : α → Option α} {head tail : Option α} {L : List α} {fuel : ℕ}
    (h : Dll nx pv head tail L) (hlen : L.length ≤ fuel) : walk nx fuel head = L := by
  rw [h.head_eq]
  exact walk_eq_of_seg h.seg hlen

theorem Chain.walk_eq {nf : α → Option α} : ∀ {L : List α} {head : Option α} {fuel : ℕ}, Chain nf head L →
    L.length ≤ fuel → walk nf fuel head = L := by
  intro L
  induction L with
  | nil =>
    intro head fuel h _
    rw [show head = none from h]
    cases fuel <;> rfl
  | cons x L ih =>
    rintro head fuel ⟨rfl, h2⟩ hlen
    cases fuel with
    | zero => simp at hlen
    | succ fuel =>
      rw [List.length_cons] at hlen
      show x :: walk nf fuel (nf x) = x :: L
      rw [ih h2 (by omega)]

/-- The links fix the list. -/
theorem Chain.unique {nf : α → Option α} {L L' : List α} {head : Option α} (h : Chain nf head L)
    (h' : Chain nf head L') : L = L' := by
  rw [← h.walk_eq (Nat.le_add_right L.length L'.length), h'.walk_eq (Nat.le_add_left L'.length L.length)]

theorem Chain.drop {nf : α → Option α} {i : α} {B : List α} : ∀ {A : List α} {head : Option α},
    Chain nf head (A ++ i :: B) → Chain nf (some i) (i :: B) := by
  intro A
  induction A with
  | nil => rintro head ⟨-, h⟩; exact ⟨rfl, h⟩
  | cons x A ih => rintro head ⟨-, h⟩; exact ih h

/-- Indices linked in increasing order. -/
theorem chain_range (nf : ℕ → Option ℕ) {n : ℕ} (hnf : ∀ j < n, nf j = if j + 1 < n then some (j + 1) else none)
    (m : ℕ) : ∀ a, a + m = n → Chain nf (if a < n then some a else none) (List.range' a m) := by
  induction m with
  | zero =>
    intro a ha
    exact if_neg (by omega)
  | succ m ih =>
    intro a ha
    rw [List.range'_succ]
    refine ⟨if_pos (by omega), ?_⟩
    rw [hnf a (by omega)]
    exact ih (a + 1) (by omega)

end Wirekrak.Lib

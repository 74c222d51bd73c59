import Mathlib.Data.List.Perm.Basic
import Mathlib.Data.List.Nodup
import Wirekrak.Lib.Run

/-!
# Wirekrak.Lib.Slots — free and held slots

A pool at its simplest: a stack of free slots, and the slots that its users hold.  `Slots.Of all s` says that each of
the slots `all` is in one of the two, once; taking and giving back keep it.

A `Pool` is what an implementation offers its users.  When its free slots are a list that the operations keep like a
stack (`Pool.Keeps`), it is right after every run in which slots are written and released by their holders
(`Pool.Keeps.right`).
-/

namespace Wirekrak.Lib

variable {α : Type*}

structure Slots (α : Type*) where
  free : List α
  held : List α

namespace Slots

variable {all : List α} {s s' : Slots α} {i : α}

/-- The slots are those of `all`. -/
def Of (all : List α) (s : Slots α) : Prop := (s.free ++ s.held).Perm all

theorem of_new (all : List α) : Of all ⟨all, []⟩ := by
  unfold Of
  rw [List.append_nil]

/-- The first free slot is taken. -/
theorem Of.take {free held : List α} (h : Of all ⟨i :: free, held⟩) : Of all ⟨free, i :: held⟩ :=
  List.perm_middle.trans h

/-- A held slot is given back. -/
theorem Of.give [DecidableEq α] (h : Of all s) (hi : i ∈ s.held) : Of all ⟨i :: s.free, s.held.erase i⟩ := by
  have hheld : s.held.Perm (i :: s.held.erase i) := List.perm_cons_erase hi
  exact List.perm_middle.symm.trans ((hheld.symm.append_left s.free).trans h)

section Of

variable (h : Of all s)

include h

theorem Of.nodup (hnd : all.Nodup) : (s.free ++ s.held).Nodup :=
  h.nodup_iff.mpr hnd

theorem Of.mem_iff : i ∈ all ↔ i ∈ s.free ∨ i ∈ s.held := by
  rw [← List.Perm.mem_iff h, List.mem_append]

theorem Of.not_held (hnd : all.Nodup) (hi : i ∈ s.free) : i ∉ s.held :=
  fun hh => List.disjoint_of_nodup_append (h.nodup hnd) hi hh

/-- No slot is free just when all are held. -/
theorem Of.free_eq_nil_iff (hnd : all.Nodup) : s.free = [] ↔ ∀ i ∈ all, i ∈ s.held := by
  constructor
  · intro hf i hi
    have hmem := h.mem_iff.mp hi
    rw [hf] at hmem
    exact hmem.resolve_left List.not_mem_nil
  · intro hall
    refine List.eq_nil_iff_forall_not_mem.mpr fun i hi => ?_
    exact h.not_held hnd hi (hall i (h.mem_iff.mpr (.inl hi)))

theorem Of.length : s.free.length + s.held.length = all.length := by
  rw [← List.length_append]
  exact List.Perm.length_eq h

end Of

end Slots

/-! ## Pools -/

/-- A slot is requested with a `ρ` and holds a `β`. -/
structure Pool (P ρ α β : Type*) where
  allocate : ρ → P → Option α × P
  release : α → P → P
  write : α → β → P → P

namespace Pool

inductive Op (ρ α β : Type*)
  | allocate (r : ρ)
  | release (i : α)
  | write (i : α) (v : β)

/-- A pool, and the slots that its users hold. -/
structure Use (P α : Type*) where
  pool : P
  held : List α

variable {P ρ β : Type*} [DecidableEq α] {ops : Pool P ρ α β} {all : List α} {s : Use P α} {op : Op ρ α β}
  {Inv Free : P → List α → Prop} {used : P → Option ℕ}

/-- A slot is written and released by its holder. -/
def Use.Admits (s : Use P α) : Op ρ α β → Prop
  | .allocate _ => True
  | .release i | .write i _ => i ∈ s.held

def Use.apply (ops : Pool P ρ α β) (s : Use P α) : Op ρ α β → Use P α
  | .allocate r => ⟨(ops.allocate r s.pool).2, (ops.allocate r s.pool).1.toList ++ s.held⟩
  | .release i => ⟨ops.release i s.pool, s.held.erase i⟩
  | .write i v => ⟨ops.write i v s.pool, s.held⟩

/-- The uses of the pool from `p` on. -/
def Reached (ops : Pool P ρ α β) (p : P) (s : Use P α) : Prop :=
  ∃ as, Run (fun s op s' => s.apply ops op = s') Use.Admits ⟨p, []⟩ as s

/-- The pool is right: `Free` says what its free slots are, `used` how many it counts as held. -/
structure Right (ops : Pool P ρ α β) (all : List α) (Free : P → List α → Prop) (used : P → Option ℕ)
    (s : Use P α) : Prop where
  slots : ∃ free, Free s.pool free ∧ Slots.Of all ⟨free, s.held⟩
  full : ∀ r, (ops.allocate r s.pool).1 = none ↔ ∀ i ∈ all, i ∈ s.held
  fresh : ∀ r i, (ops.allocate r s.pool).1 = some i → i ∈ all ∧ i ∉ s.held
  used_eq : used s.pool = some s.held.length

/-- The operations keep the free slots, of which `Inv` says what they are, like a stack. -/
structure Keeps (ops : Pool P ρ α β) (all : List α) (Inv : P → List α → Prop) : Prop where
  full : ∀ {p}, Inv p [] → ∀ r, ops.allocate r p = (none, p)
  allocate : ∀ {p i L}, Inv p (i :: L) → i ∉ L → ∀ r,
    (ops.allocate r p).1 = some i ∧ Inv (ops.allocate r p).2 L
  release : ∀ {p i L}, Inv p L → i ∉ L → i ∈ all → L.length < all.length → Inv (ops.release i p) (i :: L)
  write : ∀ {p i L}, Inv p L → i ∉ L → ∀ v, Inv (ops.write i v p) L

/-- What holds after every operation: the free slots are as the pool has them, and no slot is lost. -/
def Holds (all : List α) (Inv : P → List α → Prop) (s : Use P α) : Prop :=
  ∃ free, Inv s.pool free ∧ Slots.Of all ⟨free, s.held⟩

section Keeps

variable (hk : ops.Keeps all Inv) (hnd : all.Nodup)

include hk hnd

theorem Keeps.apply (h : Holds all Inv s) (hop : s.Admits op) : Holds all Inv (s.apply ops op) := by
  obtain ⟨free, hinv, hof⟩ := h
  cases op with
  | allocate r =>
    cases free with
    | nil =>
      unfold Use.apply
      dsimp only
      rw [hk.full hinv r]
      exact ⟨[], hinv, hof⟩
    | cons i L =>
      have hi : i ∉ L := (List.nodup_cons.mp (hof.nodup hnd).of_append_left).1
      obtain ⟨hout, hinv'⟩ := hk.allocate hinv hi r
      refine ⟨L, hinv', ?_⟩
      unfold Use.apply
      dsimp only
      rw [hout]
      exact hof.take
  | release i =>
    have hheld : i ∈ s.held := hop
    have hi : i ∉ free := fun hf => hof.not_held hnd hf hheld
    have hlen : free.length < all.length := by
      have hlen := hof.length
      have hpos := List.length_pos_of_mem hheld
      dsimp only at hlen
      omega
    exact ⟨i :: free, hk.release hinv hi (hof.mem_iff.mpr (.inr hheld)) hlen, hof.give hheld⟩
  | write i v =>
    have hi : i ∉ free := fun hf => hof.not_held hnd hf hop
    exact ⟨free, hk.write hinv hi v, hof⟩

/-- **Pool rule.** -/
theorem Keeps.right {p : P} (h0 : Holds all Inv ⟨p, []⟩) (hfree : ∀ {p L}, Inv p L → Free p L)
    (hused : ∀ {p L n}, Inv p L → L.length + n = all.length → used p = some n) (h : Reached ops p s) :
    Holds all Inv s ∧ Right ops all Free used s := by
  obtain ⟨as, hrun⟩ := h
  have hs : Holds all Inv s := hrun.invariant h0 fun _ _ _ ht hop hstep => hstep ▸ hk.apply hnd ht hop
  refine ⟨hs, ?_⟩
  obtain ⟨free, hinv, hof⟩ := hs
  refine ⟨⟨free, hfree hinv, hof⟩, fun r => ?_, fun r i hi => ?_, hused hinv hof.length⟩
  · rw [← hof.free_eq_nil_iff hnd]
    cases free with
    | nil =>
      rw [hk.full hinv r]
      exact iff_of_true rfl rfl
    | cons i L =>
      have hi : i ∉ L := (List.nodup_cons.mp (hof.nodup hnd).of_append_left).1
      rw [(hk.allocate hinv hi r).1]
      exact iff_of_false (Option.some_ne_none i) (List.cons_ne_nil i L)
  · cases free with
    | nil =>
      rw [hk.full hinv r] at hi
      cases hi
    | cons j L =>
      have hj : j ∉ L := (List.nodup_cons.mp (hof.nodup hnd).of_append_left).1
      rw [(hk.allocate hinv hj r).1] at hi
      cases hi
      exact ⟨hof.mem_iff.mpr (.inl List.mem_cons_self), hof.not_held hnd List.mem_cons_self⟩

end Keeps

end Pool

end Wirekrak.Lib

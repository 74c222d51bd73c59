import Mathlib.Data.Finset.Basic
import Wirekrak.Lib.Linked
import Wirekrak.Lib.Run

/-!
# Wirekrak.Lockfree.BlockPool — the free list of `block_pool`, one atomic access a step

`acquire` pops and `release` pushes a node of an intrusive stack, each with a compare-and-swap on `head_`.  Any number
of threads run their calls in any interleaving; the compare-and-swap is the weak one and may fail without a reason.
A thread holds a block from the compare-and-swap that took it up to the one that gives it back.

* `Pool.step`: one access of one thread; an access that is not the thread's next one does nothing.
* `Partition`: the free list and the held blocks are a partition of the pool.
* `partitioned_iff`: they stay one as long as no pop succeeds with a link that was rewritten since it was read.  The
  compare-and-swap sees the node, not its link: `stale_pop_shares_block` is the classic exchange.
-/

namespace Wirekrak.Lockfree

open Wirekrak.Lib

/-- Where a thread stands: between calls, in `pop_node_` with `old_head` loaded or its link read, in `push_node_` with
`old_head` loaded or stored in the node. -/
inductive PoolPhase
  | idle
  | popping (oldHead : ℕ)
  | read (oldHead : ℕ) (next : Option ℕ)
  | pushing (n : ℕ) (oldHead : Option ℕ)
  | linked (n : ℕ) (oldHead : Option ℕ)
  deriving DecidableEq

structure Pool (T : Type) where
  head : Option ℕ
  next : ℕ → Option ℕ
  held : T → Finset ℕ
  phase : T → PoolPhase

/-- The accesses: `acquire` begins with a load of `head_`, `release` of a block with another one. -/
inductive PoolAct (T : Type)
  | acquire (t : T)
  | readNext (t : T)
  | casPop (t : T) (spurious : Bool)
  | release (t : T) (n : ℕ)
  | link (t : T)
  | casPush (t : T) (spurious : Bool)

namespace Pool

variable {T : Type}

/-- The constructor has pushed the nodes one after the other. -/
def built (n : ℕ) : Pool T where
  head := if n = 0 then none else some (n - 1)
  next := fun i => if i = 0 then none else some (i - 1)
  held := fun _ => ∅
  phase := fun _ => .idle

/-- `while (old_head)`. -/
def enter : Option ℕ → PoolPhase
  | none => .idle
  | some a => .popping a

variable [DecidableEq T]

def move (s : Pool T) (t : T) (p : PoolPhase) : Pool T := { s with phase := Function.update s.phase t p }

def step (s : Pool T) : PoolAct T → Pool T
  | .acquire t =>
    match s.phase t with
    | .idle => s.move t (enter s.head)
    | _ => s
  | .readNext t =>
    match s.phase t with
    | .popping a => s.move t (.read a (s.next a))
    | _ => s
  | .casPop t spurious =>
    match s.phase t with
    | .read a nx =>
      if s.head = some a ∧ spurious = false then
        { s.move t .idle with head := nx, held := Function.update s.held t (insert a (s.held t)) }
      else s.move t (enter s.head)
    | _ => s
  | .release t n =>
    match s.phase t with
    | .idle => if n ∈ s.held t then s.move t (.pushing n s.head) else s
    | _ => s
  | .link t =>
    match s.phase t with
    | .pushing n old => { s.move t (.linked n old) with next := Function.update s.next n old }
    | _ => s
  | .casPush t spurious =>
    match s.phase t with
    | .linked n old =>
      if s.head = old ∧ spurious = false then
        { s.move t .idle with head := some n, held := Function.update s.held t ((s.held t).erase n) }
      else s.move t (.pushing n s.head)
    | _ => s

/-- A compare-and-swap in this phase does not succeed with a link that is no longer the node's. -/
def Fresh (s : Pool T) (spurious : Bool) : PoolPhase → Prop
  | .read a nx => s.head = some a → spurious = false → s.next a = nx
  | _ => True

/-- A pop that succeeds finds the link it has read. -/
def FreshLink (s : Pool T) : PoolAct T → Prop
  | .casPop t spurious => s.Fresh spurious (s.phase t)
  | _ => True

/-- The pool of `n` blocks after a schedule. -/
def after (n : ℕ) (acts : List (PoolAct T)) : Pool T := acts.foldl step (built n)

/-! ## The partition -/

/-- Every block is in the free list `l` or held by one thread, never both. -/
structure Partition (n : ℕ) (s : Pool T) (l : List ℕ) : Prop where
  chain : Chain s.next s.head l
  nodup : l.Nodup
  cover : ∀ b, b < n ↔ b ∈ l ∨ ∃ t, b ∈ s.held t
  apart : ∀ {t b}, b ∈ s.held t → b ∉ l
  single : ∀ {t t' b}, b ∈ s.held t → b ∈ s.held t' → t = t'

def Partitioned (n : ℕ) (s : Pool T) : Prop := ∃ l, Partition n s l

/-- A thread in `push_node_` holds the node, and after the store the node has the link. -/
def PhaseOk (s : Pool T) (t : T) : Prop :=
  match s.phase t with
  | .pushing n _ => n ∈ s.held t
  | .linked n old => n ∈ s.held t ∧ s.next n = old
  | _ => True

structure Inv (n : ℕ) (s : Pool T) : Prop where
  partitioned : Partitioned n s
  phases : ∀ t, PhaseOk s t

omit [DecidableEq T] in
theorem chain_built (n : ℕ) :
    Chain (built n : Pool T).next (built n : Pool T).head (List.range n).reverse := by
  induction n with
  | zero => rfl
  | succ n ih =>
    rw [List.range_succ, List.reverse_append, List.reverse_singleton, List.singleton_append]
    exact ⟨by simp [built], ih⟩

omit [DecidableEq T] in
theorem inv_built (n : ℕ) : Inv n (built n : Pool T) where
  partitioned := ⟨(List.range n).reverse, chain_built n, List.nodup_reverse.mpr List.nodup_range,
    fun b => by simp [built], fun h => (by simp [built] at h), fun h => (by simp [built] at h)⟩
  phases := fun _ => trivial

/-! ## What an access does -/

variable {s u : Pool T} {n : ℕ} {l : List ℕ} {t : T}

/-- Everything an access can do: a thread moves on by itself, stores a link in its node, takes the first free block or
gives its node back. -/
theorem step_cases (s : Pool T) (a : PoolAct T) :
    (s.step a = s ∧ s.FreshLink a) ∨
    (∃ t p, s.step a = s.move t p ∧ s.FreshLink a ∧ (PhaseOk s t → PhaseOk (s.move t p) t)) ∨
    (∃ t m old, s.phase t = .pushing m old ∧ s.FreshLink a ∧
      s.step a = { s.move t (.linked m old) with next := Function.update s.next m old }) ∨
    (∃ t b nx, s.phase t = .read b nx ∧ s.head = some b ∧ (s.FreshLink a ↔ s.next b = nx) ∧
      s.step a = { s.move t .idle with head := nx, held := Function.update s.held t (insert b (s.held t)) }) ∨
    (∃ t m, s.phase t = .linked m s.head ∧ s.FreshLink a ∧
      s.step a = { s.move t .idle with head := some m, held := Function.update s.held t ((s.held t).erase m) }) := by
  have henter : ∀ t, PhaseOk (s.move t (enter s.head)) t := by
    intro t
    unfold PhaseOk move
    simp only [Function.update_self]
    cases s.head <;> trivial
  cases a with
  | acquire t =>
    cases hp : s.phase t with
    | idle => exact .inr (.inl ⟨t, enter s.head, by simp [step, hp], trivial, fun _ => henter t⟩)
    | popping _ | read _ _ | pushing _ _ | linked _ _ => exact .inl ⟨by simp [step, hp], trivial⟩
  | readNext t =>
    cases hp : s.phase t with
    | popping b =>
      exact .inr (.inl ⟨t, .read b (s.next b), by simp [step, hp], trivial, fun _ => by simp [PhaseOk, move]⟩)
    | idle | read _ _ | pushing _ _ | linked _ _ => exact .inl ⟨by simp [step, hp], trivial⟩
  | casPop t spurious =>
    cases hp : s.phase t with
    | read b nx =>
      by_cases hc : s.head = some b ∧ spurious = false
      · refine .inr (.inr (.inr (.inl ⟨t, b, nx, rfl.trans hp, hc.1, ?_, by simp [step, hp, hc]⟩)))
        simp [FreshLink, hp, Fresh, hc]
      · refine .inr (.inl ⟨t, enter s.head, by simp [step, hp, hc], ?_, fun _ => henter t⟩)
        simp only [FreshLink, hp, Fresh]
        exact fun h1 h2 => absurd ⟨h1, h2⟩ hc
    | idle | popping _ | pushing _ _ | linked _ _ =>
      exact .inl ⟨by simp [step, hp], by simp [FreshLink, hp, Fresh]⟩
  | release t m =>
    cases hp : s.phase t with
    | idle =>
      by_cases hm : m ∈ s.held t
      · exact .inr (.inl ⟨t, .pushing m s.head, by simp [step, hp, hm], trivial, fun _ => by simpa [PhaseOk, move] using hm⟩)
      · exact .inl ⟨by simp [step, hp, hm], trivial⟩
    | popping _ | read _ _ | pushing _ _ | linked _ _ => exact .inl ⟨by simp [step, hp], trivial⟩
  | link t =>
    cases hp : s.phase t with
    | pushing m old => exact .inr (.inr (.inl ⟨t, m, old, hp, trivial, by simp [step, hp]⟩))
    | idle | popping _ | read _ _ | linked _ _ => exact .inl ⟨by simp [step, hp], trivial⟩
  | casPush t spurious =>
    cases hp : s.phase t with
    | linked m old =>
      by_cases hc : s.head = old ∧ spurious = false
      · exact .inr (.inr (.inr (.inr ⟨t, m, by rw [hp, hc.1], trivial, by simp [step, hp, hc]⟩)))
      · refine .inr (.inl ⟨t, .pushing m s.head, by simp [step, hp, hc], trivial, fun h => ?_⟩)
        unfold PhaseOk at h
        rw [hp] at h
        simpa [PhaseOk, move] using h.1
    | idle | popping _ | read _ _ | pushing _ _ => exact .inl ⟨by simp [step, hp], trivial⟩

omit [DecidableEq T] in
/-- The phase of a thread depends on its own blocks and their links only. -/
theorem PhaseOk.frame {t' : T} (h : PhaseOk s t') (hphase : u.phase t' = s.phase t') (hheld : u.held t' = s.held t')
    (hnext : ∀ m ∈ s.held t', u.next m = s.next m) : PhaseOk u t' := by
  unfold PhaseOk at h ⊢
  rw [hphase]
  cases hp : s.phase t' with
  | idle | popping _ | read _ _ => trivial
  | pushing m old =>
    rw [hp] at h
    simpa only [hheld] using h
  | linked m old =>
    rw [hp] at h
    exact ⟨by simpa only [hheld] using h.1, (hnext m h.1).trans h.2⟩

theorem partition_link (hl : Partition n s l) {m : ℕ} {old : Option ℕ} (hm : m ∈ s.held t) (p : PoolPhase) :
    Partition n { s.move t p with next := Function.update s.next m old } l := by
  refine ⟨?_, hl.nodup, hl.cover, hl.apart, hl.single⟩
  refine hl.chain.congr fun j hj => Function.update_of_ne ?_ _ _
  rintro rfl
  exact hl.apart hm hj

/-- The first free block is taken, and the list goes on with its link. -/
theorem partition_pop {b : ℕ} (hl : Partition n s l) (hhead : s.head = some b) :
    ∃ rest, l = b :: rest ∧
      Partition n { s.move t .idle with
        head := s.next b
        held := Function.update s.held t (insert b (s.held t)) } rest := by
  cases l with
  | nil =>
    have := hl.chain
    rw [show s.head = none from this] at hhead
    cases hhead
  | cons x rest =>
    obtain ⟨hx, hrest⟩ := hl.chain
    obtain rfl : x = b := Option.some.inj (hx.symm.trans hhead)
    refine ⟨rest, rfl, ?_⟩
    have hnd := List.nodup_cons.mp hl.nodup
    have hmem : ∀ t' c, c ∈ Function.update s.held t (insert x (s.held t)) t' ↔ c ∈ s.held t' ∨ (t' = t ∧ c = x) := by
      intro t' c
      by_cases ht : t' = t
      · subst ht; simp [or_comm]
      · simp [ht]
    have hfree : ∀ t', x ∉ s.held t' := fun t' h => hl.apart h List.mem_cons_self
    refine ⟨hrest, hnd.2, ?_, ?_, ?_⟩
    · intro c
      rw [hl.cover c, List.mem_cons]
      simp only [hmem]
      constructor
      · rintro ((rfl | h) | ⟨t', h⟩)
        · exact .inr ⟨t, .inr ⟨rfl, rfl⟩⟩
        · exact .inl h
        · exact .inr ⟨t', .inl h⟩
      · rintro (h | ⟨t', h | ⟨-, rfl⟩⟩)
        · exact .inl (.inr h)
        · exact .inr ⟨t', h⟩
        · exact .inl (.inl rfl)
    · intro t' c hc hcr
      rcases (hmem t' c).mp hc with h | ⟨-, rfl⟩
      · exact hl.apart h (List.mem_cons_of_mem _ hcr)
      · exact hnd.1 hcr
    · intro t1 t2 c h1 h2
      rcases (hmem t1 c).mp h1 with h1 | ⟨ht1, hc⟩ <;> rcases (hmem t2 c).mp h2 with h2 | ⟨ht2, hc'⟩
      · exact hl.single h1 h2
      · exact absurd (hc' ▸ h1) (hfree t1)
      · exact absurd (hc ▸ h2) (hfree t2)
      · rw [ht1, ht2]

/-- The node a thread holds and has linked to the head goes first. -/
theorem partition_push {m : ℕ} (hl : Partition n s l) (hm : m ∈ s.held t) (hnext : s.next m = s.head) :
    Partition n { s.move t .idle with
      head := some m
      held := Function.update s.held t ((s.held t).erase m) } (m :: l) := by
  have hmem : ∀ t' c, c ∈ Function.update s.held t ((s.held t).erase m) t' ↔ c ∈ s.held t' ∧ c ≠ m := by
    intro t' c
    by_cases ht : t' = t
    · subst ht; simp [and_comm]
    · rw [Function.update_of_ne ht]
      refine ⟨fun h => ⟨h, ?_⟩, fun h => h.1⟩
      rintro rfl
      exact ht (hl.single h hm)
  refine ⟨⟨rfl, ?_⟩, List.nodup_cons.mpr ⟨hl.apart hm, hl.nodup⟩, ?_, ?_, ?_⟩
  · show Chain s.next (s.next m) l
    rw [hnext]
    exact hl.chain
  · intro c
    rw [hl.cover c, List.mem_cons]
    simp only [hmem]
    constructor
    · rintro (h | ⟨t', h⟩)
      · exact .inl (.inr h)
      · by_cases hc : c = m
        · exact .inl (.inl hc)
        · exact .inr ⟨t', h, hc⟩
    · rintro ((rfl | h) | ⟨t', h, -⟩)
      · exact .inr ⟨t, hm⟩
      · exact .inl h
      · exact .inr ⟨t', h⟩
  · intro t' c hc hcl
    obtain ⟨h, hne⟩ := (hmem t' c).mp hc
    rcases List.mem_cons.mp hcl with rfl | hcl
    · exact hne rfl
    · exact hl.apart h hcl
  · intro t1 t2 c h1 h2
    exact hl.single ((hmem t1 c).mp h1).1 ((hmem t2 c).mp h2).1

theorem inv_step (hi : Inv n s) (a : PoolAct T) (ha : s.FreshLink a) : Inv n (s.step a) := by
  obtain ⟨⟨l, hl⟩, hph⟩ := hi
  have hother : ∀ {t t' : T} {p : PoolPhase}, t' ≠ t → Function.update s.phase t p t' = s.phase t' :=
    fun h => Function.update_of_ne h _ _
  rcases step_cases s a with ⟨he, -⟩ | ⟨t, p, he, -, hok⟩ | ⟨t, m, old, hp, -, he⟩ | ⟨t, b, nx, hp, hhead, hiff, he⟩ |
    ⟨t, m, hp, -, he⟩ <;> rw [he]
  · exact ⟨⟨l, hl⟩, hph⟩
  · refine ⟨⟨l, hl.chain, hl.nodup, hl.cover, hl.apart, hl.single⟩, fun t' => ?_⟩
    by_cases ht : t' = t
    · rw [ht]
      exact hok (hph t)
    · exact (hph t').frame (hother ht) rfl fun _ _ => rfl
  · have hm : m ∈ s.held t := by
      have := hph t
      unfold PhaseOk at this
      rwa [hp] at this
    refine ⟨⟨l, partition_link hl hm _⟩, fun t' => ?_⟩
    by_cases ht : t' = t
    · rw [ht]
      simpa [PhaseOk, move] using hm
    · refine (hph t').frame (hother ht) rfl fun j hj => Function.update_of_ne ?_ _ _
      rintro rfl
      exact ht (hl.single hj hm)
  · rw [← hiff.mp ha]
    obtain ⟨rest, -, hr⟩ := partition_pop (t := t) hl hhead
    refine ⟨⟨rest, hr⟩, fun t' => ?_⟩
    by_cases ht : t' = t
    · rw [ht]
      simp [PhaseOk, move]
    · exact (hph t').frame (hother ht) (Function.update_of_ne ht _ _) fun _ _ => rfl
  · have hm : m ∈ s.held t ∧ s.next m = s.head := by
      have := hph t
      unfold PhaseOk at this
      rwa [hp] at this
    refine ⟨⟨m :: l, partition_push hl hm.1 hm.2⟩, fun t' => ?_⟩
    by_cases ht : t' = t
    · rw [ht]
      simp [PhaseOk, move]
    · exact (hph t').frame (hother ht) (Function.update_of_ne ht _ _) fun _ _ => rfl

/-- A pop that succeeds with another link loses the blocks before it, or takes up a block that is held. -/
theorem stale_pop {b : ℕ} {nx : Option ℕ} (hl : Partition n s l) (hhead : s.head = some b)
    (h : Partitioned n { s.move t .idle with head := nx, held := Function.update s.held t (insert b (s.held t)) }) :
    s.next b = nx := by
  obtain ⟨l', hl'⟩ := h
  obtain ⟨rest, rfl, hr⟩ := partition_pop (t := t) hl hhead
  have hchain : Chain s.next (s.next b) rest := hr.chain
  have hchain' : Chain s.next nx l' := hl'.chain
  -- the held blocks are the same, so the free ones are
  have hsame : ∀ c, c ∈ l' ↔ c ∈ rest := by
    intro c
    constructor
    · intro hc
      rcases (hr.cover c).mp ((hl'.cover c).mpr (.inl hc)) with h | ⟨t', h⟩
      · exact h
      · exact absurd hc (hl'.apart h)
    · intro hc
      rcases (hl'.cover c).mp ((hr.cover c).mpr (.inl hc)) with h | ⟨t', h⟩
      · exact h
      · exact absurd hc (hr.apart h)
  cases l' with
  | nil =>
    have hnil : rest = [] := List.eq_nil_iff_forall_not_mem.mpr fun c hc => absurd ((hsame c).mpr hc) List.not_mem_nil
    rw [hnil] at hchain
    exact (show s.next b = none from hchain).trans (show nx = none from hchain').symm
  | cons x l' =>
    obtain ⟨A, B, rfl⟩ := List.append_of_mem ((hsame x).mp List.mem_cons_self)
    -- the list from `x` on is a tail of the free list; it reaches all of it only when it is the whole
    have heq : x :: l' = x :: B := by
      refine hchain'.unique ?_
      rw [hchain'.1]
      exact hchain.drop
    cases A with
    | nil => exact hchain.1.trans hchain'.1.symm
    | cons y A =>
      have hy : y ∈ x :: B := by
        rw [← heq]
        exact (hsame y).mpr (by simp)
      have hnd := hr.nodup
      rw [List.cons_append, List.nodup_cons] at hnd
      exact absurd (List.mem_append_right A hy) hnd.1

theorem partitioned_step_iff (hi : Inv n s) (a : PoolAct T) : Partitioned n (s.step a) ↔ s.FreshLink a := by
  refine ⟨fun h => ?_, fun h => (inv_step hi a h).partitioned⟩
  obtain ⟨l, hl⟩ := hi.partitioned
  rcases step_cases s a with ⟨-, hf⟩ | ⟨t, p, -, hf, -⟩ | ⟨t, m, old, -, hf, -⟩ | ⟨t, b, nx, -, hhead, hiff, he⟩ |
    ⟨t, m, -, hf, -⟩
  · exact hf
  · exact hf
  · exact hf
  · rw [he] at h
    exact hiff.mpr (stale_pop hl hhead h)
  · exact hf

/-! ## Every interleaving -/

theorem inv_after {acts : List (PoolAct T)} (h : Admitted step FreshLink (built n) acts) : Inv n (after n acts) :=
  (Run.of_admitted (fun _ _ _ => rfl) h : Run (fun s a u => step s a = u) FreshLink (built n) acts _).invariant
    (inv_built n) fun _ a _ hi hok he => he ▸ inv_step hi a hok

/-- **No block has two owners**, and the free list with the held blocks is a partition of the pool, throughout an
interleaving of any threads exactly when no pop succeeds with a rewritten link. -/
theorem partitioned_iff (n : ℕ) (acts : List (PoolAct T)) :
    (∀ p, p <+: acts → Partitioned n (after n p)) ↔ Admitted step FreshLink (built n) acts := by
  exact forall_prefix_iff_admitted (inv_built n).partitioned fun bs a _ h _ => partitioned_step_iff (inv_after h) a

/-- Thread `false` reads the link of block 2 and is suspended; thread `true` takes 2 and 1 and gives 2 back. -/
def exchange : List (PoolAct Bool) :=
  [.acquire false, .readNext false,
    .acquire true, .readNext true, .casPop true false, .acquire true, .readNext true, .casPop true false,
    .release true 2, .link true, .casPush true false,
    .casPop false false, .acquire false, .readNext false, .casPop false false]

/-- Both threads hold block 1. -/
theorem stale_pop_shares_block : ¬ ∀ p, p <+: exchange → Partitioned 3 (after 3 p) := by
  intro h
  obtain ⟨l, hl⟩ := h exchange List.prefix_rfl
  have h1 : 1 ∈ (after 3 exchange).held false := by decide
  have h2 : 1 ∈ (after 3 exchange).held true := by decide
  exact absurd (hl.single h1 h2) (by decide)

end Pool

end Wirekrak.Lockfree

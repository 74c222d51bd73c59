import Mathlib.Data.Fintype.Basic
import Mathlib.Logic.Function.Basic
import Wirekrak.Lib.Mask
import Wirekrak.Lib.Run

/-!
# Wirekrak.Lockfree.FanoutRing — `spmc_fanout_ring`, one atomic access a step

Every registered consumer reads all items at its own pace; the producer scans the positions of the consumers and waits
for the slowest one.  Positions only grow and are masked when a slot is addressed.  A pop moves the item out of the
slot, which all consumers share, and leaves `residue` of it behind.

* `FanoutRing.registered`: the consumers that were given an id; the counter goes on beyond `MaxConsumers`.
* `Lossless`: what a consumer obtained is a prefix of what was pushed, the rest stands unread in its slots, and no
  place outside of `consumer_tails_` was read.
* `lossless`: this holds in every state of a run under `Careful`.  `moved_away` and `scan_outside` are runs where it
  breaks.
-/

namespace Wirekrak.Lockfree

open Wirekrak.Lib

/-- Where the producer stands in `push`: `head_` loaded, `i` of `count` positions scanned, room found, slot written. -/
inductive FanoutProducer (α : Type*) where
  | idle
  | loaded (x : α) (head : BitVec 64)
  | scanning (x : α) (head count i minTail : BitVec 64)
  | granted (x : α) (head : BitVec 64)
  | storing (x : α) (head : BitVec 64)

/-- Where a consumer stands in `pop`: its id compared with the counter, its position loaded, an item found, the item
moved out. -/
inductive FanoutConsumer where
  | idle
  | counted
  | loaded (tail : BitVec 64)
  | granted (tail : BitVec 64)
  | storing (tail : BitVec 64)
  deriving DecidableEq

structure FanoutRing (α : Type*) where
  buffer : BitVec 64 → α
  head : BitVec 64 := 0
  consumerTails : ℕ → BitVec 64 := fun _ => 0
  consumerCount : BitVec 64 := 0
  producer : FanoutProducer α := .idle
  consumer : ℕ → FanoutConsumer := fun _ => .idle
  registrations : ℕ := 0
  pushed : List α := []
  obtained : ℕ → List α := fun _ => []
  outside : Bool := false

inductive FanoutAct (α : Type*) where
  | register
  | push (x : α)
  | produce
  | pop (i : ℕ)
  | consume (i : ℕ)

namespace FanoutRing

variable {α : Type*}

/-- `MaxConsumers` bounds the ids. -/
def registered (maxConsumers : BitVec 64) (s : FanoutRing α) (i : ℕ) : Prop :=
  i < s.registrations ∧ i < maxConsumers.toNat

instance (maxConsumers : BitVec 64) (s : FanoutRing α) (i : ℕ) : Decidable (s.registered maxConsumers i) :=
  inferInstanceAs (Decidable (_ ∧ _))

/-- `register_consumer`, called before the first push. -/
def registerConsumer (maxConsumers : BitVec 64) (s : FanoutRing α) : FanoutRing α :=
  let id := s.consumerCount
  let s := { s with consumerCount := s.consumerCount + 1, registrations := s.registrations + 1 }
  if maxConsumers ≤ id then s
  else { s with consumerTails := Function.update s.consumerTails id.toNat s.head }

/-- The end of `min_consumer_tail`: without a position below the largest word, `head_` itself. -/
def minConsumerTail (minTail head : BitVec 64) : BitVec 64 :=
  if minTail = BitVec.allOnes 64 then head else minTail

def produceStep (c : Pow2) (maxConsumers : BitVec 64) (s : FanoutRing α) : FanoutRing α :=
  match s.producer with
  | .idle => s
  | .loaded x head => { s with producer := .scanning x head s.consumerCount 0 (BitVec.allOnes 64) }
  | .scanning x head count i minTail =>
    if i < count then
      let t := s.consumerTails i.toNat
      { s with
        producer := .scanning x head count (i + 1) (if t < minTail then t else minTail)
        outside := s.outside || decide (maxConsumers ≤ i) }
    else if c.size ≤ head - minConsumerTail minTail s.head then { s with producer := .idle }
    else { s with producer := .granted x head }
  | .granted x head =>
    { s with buffer := Function.update s.buffer (head &&& c.mask) x, producer := .storing x head }
  | .storing x head => { s with head := head + 1, producer := .idle, pushed := s.pushed ++ [x] }

def move (s : FanoutRing α) (i : ℕ) (p : FanoutConsumer) : FanoutRing α :=
  { s with consumer := Function.update s.consumer i p }

def consumeStep (c : Pow2) (residue : α → α) (s : FanoutRing α) (i : ℕ) : FanoutRing α :=
  match s.consumer i with
  | .idle => s
  | .counted => s.move i (.loaded (s.consumerTails i))
  | .loaded tail => if tail = s.head then s.move i .idle else s.move i (.granted tail)
  | .granted tail =>
    let x := s.buffer (tail &&& c.mask)
    { s.move i (.storing tail) with
      buffer := Function.update s.buffer (tail &&& c.mask) (residue x)
      obtained := Function.update s.obtained i (s.obtained i ++ [x]) }
  | .storing tail => { s.move i .idle with consumerTails := Function.update s.consumerTails i (tail + 1) }

/-- Consumers register before the first push, and pop with the id they were given; one that was refused holds
`SIZE_MAX`, and its `pop` returns at the first comparison. -/
def step (c : Pow2) (maxConsumers : BitVec 64) (residue : α → α) (s : FanoutRing α) : FanoutAct α → FanoutRing α
  | .register =>
    match s.producer, s.pushed with
    | .idle, [] => s.registerConsumer maxConsumers
    | _, _ => s
  | .push x =>
    match s.producer with
    | .idle => { s with producer := .loaded x s.head }
    | _ => s
  | .produce => s.produceStep c maxConsumers
  | .pop i =>
    match s.consumer i with
    | .idle =>
      if s.registered maxConsumers i ∧ BitVec.ofNat 64 i < s.consumerCount then s.move i .counted else s
    | _ => s
  | .consume i => s.consumeStep c residue i

def fresh (buffer : BitVec 64 → α) : FanoutRing α := { buffer := buffer }

def after (c : Pow2) (maxConsumers : BitVec 64) (residue : α → α) (buffer : BitVec 64 → α)
    (acts : List (FanoutAct α)) : FanoutRing α :=
  acts.foldl (step c maxConsumers residue) (fresh buffer)

/-- Every registered consumer gets all items, in order; what it has not read yet stands in its slots. -/
structure Lossless (c : Pow2) (maxConsumers : BitVec 64) (s : FanoutRing α) : Prop where
  obtained : ∀ i, s.registered maxConsumers i → s.obtained i <+: s.pushed
  unread : ∀ i, s.registered maxConsumers i → ∀ k, (s.obtained i).length ≤ k → k < s.pushed.length →
    s.pushed[k]? = some (s.buffer (c.slot k))
  /-- A consumer that finds the ring empty has got everything. -/
  drained : ∀ i, s.registered maxConsumers i → s.consumerTails i = s.head → s.obtained i = s.pushed
  inside : s.outside = false

/-! ## The condition -/

/-- A scan begins with no more registrations than `MaxConsumers`. -/
def Counted (maxConsumers : BitVec 64) (s : FanoutRing α) : FanoutProducer α → Prop
  | .loaded _ _ => s.registrations ≤ maxConsumers.toNat
  | _ => True

/-- An item is moved out of its slot only if the slot keeps its value, or if every other consumer has read it. -/
def LastReader (c : Pow2) (maxConsumers : BitVec 64) (residue : α → α) (s : FanoutRing α) (i : ℕ) :
    FanoutConsumer → Prop
  | .granted tail => residue (s.buffer (tail &&& c.mask)) = s.buffer (tail &&& c.mask) ∨
      ∀ j < s.registrations, s.registered maxConsumers j → j ≠ i → (s.obtained i).length < (s.obtained j).length
  | _ => True

/-- And `head_` has not come round. -/
def Careful (c : Pow2) (maxConsumers : BitVec 64) (residue : α → α) (s : FanoutRing α) : FanoutAct α → Prop
  | .push _ => s.pushed.length < 2 ^ 64
  | .produce => s.Counted maxConsumers s.producer
  | .consume i => s.LastReader c maxConsumers residue i (s.consumer i)
  | _ => True

section

variable [DecidableEq α] (c : Pow2) (maxConsumers : BitVec 64) (residue : α → α) (s : FanoutRing α)

instance : DecidablePred (s.Counted maxConsumers)
  | .loaded _ _ => inferInstanceAs (Decidable (_ ≤ _))
  | .idle => inferInstanceAs (Decidable True)
  | .scanning _ _ _ _ _ => inferInstanceAs (Decidable True)
  | .granted _ _ => inferInstanceAs (Decidable True)
  | .storing _ _ => inferInstanceAs (Decidable True)

instance (i : ℕ) : DecidablePred (s.LastReader c maxConsumers residue i)
  | .granted tail => inferInstanceAs (Decidable (residue (s.buffer (tail &&& c.mask)) = s.buffer (tail &&& c.mask) ∨
      ∀ j < s.registrations, s.registered maxConsumers j → j ≠ i → (s.obtained i).length < (s.obtained j).length))
  | .idle => inferInstanceAs (Decidable True)
  | .counted => inferInstanceAs (Decidable True)
  | .loaded _ => inferInstanceAs (Decidable True)
  | .storing _ => inferInstanceAs (Decidable True)

instance : DecidablePred (s.Careful c maxConsumers residue)
  | .push _ => inferInstanceAs (Decidable (_ < _))
  | .produce => inferInstanceAs (Decidable (s.Counted maxConsumers s.producer))
  | .consume i => inferInstanceAs (Decidable (s.LastReader c maxConsumers residue i (s.consumer i)))
  | .register => inferInstanceAs (Decidable True)
  | .pop _ => inferInstanceAs (Decidable True)

end

/-! ## The invariant -/

/-- Items moved out whose position is not stored yet. -/
def pending : FanoutConsumer → ℕ
  | .storing _ => 1
  | _ => 0

/-- What a registered consumer remembers of its call: `t` its position, `h` items pushed. -/
def ConsumerOk (t h : ℕ) : FanoutConsumer → Prop
  | .idle => True
  | .counted => True
  | .loaded tail => tail = BitVec.ofNat 64 t
  | .granted tail => tail = BitVec.ofNat 64 t ∧ t < h
  | .storing tail => tail = BitVec.ofNat 64 t

/-- The producer's room behind every consumer, `h` items pushed and `t i` the position of the `i`-th. -/
def Room (c : Pow2) (maxConsumers : BitVec 64) (s : FanoutRing α) (t : ℕ → ℕ) : Prop :=
  ∀ i, s.registered maxConsumers i → s.pushed.length < t i + c.places

def ProducerOk (c : Pow2) (maxConsumers : BitVec 64) (s : FanoutRing α) (t : ℕ → ℕ) : FanoutProducer α → Prop
  | .idle => True
  | .loaded _ head => head = BitVec.ofNat 64 s.pushed.length ∧ s.pushed.length < 2 ^ 64
  | .scanning _ head count i minTail => head = BitVec.ofNat 64 s.pushed.length ∧ s.pushed.length < 2 ^ 64 ∧
    s.registrations ≤ maxConsumers.toNat ∧ count.toNat = s.registrations ∧ i.toNat ≤ s.registrations ∧
    (∀ j < i.toNat, minTail.toNat ≤ t j) ∧ (minTail = BitVec.allOnes 64 ∨ minTail.toNat ≤ s.pushed.length)
  | .granted _ head => head = BitVec.ofNat 64 s.pushed.length ∧ s.pushed.length < 2 ^ 64 ∧ Room c maxConsumers s t
  | .storing x head => head = BitVec.ofNat 64 s.pushed.length ∧ s.pushed.length < 2 ^ 64 ∧ Room c maxConsumers s t ∧
    s.buffer (c.slot s.pushed.length) = x

/-- The registered consumer `i` at position `t`. -/
structure ReaderOk (c : Pow2) (s : FanoutRing α) (i t : ℕ) : Prop where
  position : t + pending (s.consumer i) = (s.obtained i).length
  tail : s.consumerTails i = BitVec.ofNat 64 t
  obtained : s.obtained i <+: s.pushed
  behind : s.pushed.length ≤ t + c.places
  phase : ConsumerOk t s.pushed.length (s.consumer i)
  unread : ∀ k, (s.obtained i).length ≤ k → k < s.pushed.length → s.pushed[k]? = some (s.buffer (c.slot k))

/-- `t` gives the positions of the registered consumers. -/
structure Inv (c : Pow2) (maxConsumers : BitVec 64) (t : ℕ → ℕ) (s : FanoutRing α) : Prop where
  head : s.head = BitVec.ofNat 64 s.pushed.length
  count : s.consumerCount = BitVec.ofNat 64 s.registrations
  length_le : s.pushed.length ≤ 2 ^ 64
  reader : ∀ i, s.registered maxConsumers i → ReaderOk c s i (t i)
  unborn : ∀ i, ¬ s.registered maxConsumers i → s.consumer i = .idle ∧ s.obtained i = [] ∧ t i = 0
  producer : ProducerOk c maxConsumers s t s.producer
  inside : s.outside = false

variable {c : Pow2} {maxConsumers : BitVec 64} {residue : α → α} {s : FanoutRing α} {t : ℕ → ℕ}

theorem places_lt_pow (c : Pow2) : c.places ≤ 2 ^ 63 := by
  obtain ⟨k, hk⟩ := c.places_eq_pow
  have hlt := c.places_lt
  rw [hk] at hlt ⊢
  have hk64 : k < 64 := (Nat.pow_lt_pow_iff_right (by decide)).mp hlt
  exact Nat.pow_le_pow_right (by decide) (by omega)

/-- Counters less than `2 ^ 64` apart have different words. -/
theorem ofNat_inj_of_le {a b : ℕ} (hab : a ≤ b) (hlt : b < a + 2 ^ 64) (h : BitVec.ofNat 64 a = BitVec.ofNat 64 b) :
    a = b := by
  have hm := congrArg BitVec.toNat h
  rw [BitVec.toNat_ofNat, BitVec.toNat_ofNat] at hm
  omega

theorem inv_fresh (buffer : BitVec 64 → α) : Inv c maxConsumers (fun _ => 0) (fresh buffer) where
  head := rfl
  count := rfl
  length_le := Nat.zero_le _
  reader := fun i hi => absurd hi.1 (Nat.not_lt_zero i)
  unborn := fun _ _ => ⟨rfl, rfl, rfl⟩
  producer := trivial
  inside := rfl

theorem ReaderOk.le {i n : ℕ} (h : ReaderOk c s i n) : n ≤ s.pushed.length := by
  have hp := h.position
  have hl := h.obtained.length_le
  omega

/-- A change that spares the consumer's own data and the slots it has still to read is no concern of it. -/
theorem ReaderOk.frame {u : FanoutRing α} {i n : ℕ} (h : ReaderOk c s i n) (hcons : u.consumer i = s.consumer i)
    (htail : u.consumerTails i = s.consumerTails i) (hob : u.obtained i = s.obtained i) (hpushed : u.pushed = s.pushed)
    (hbuffer : ∀ k, (s.obtained i).length ≤ k → k < s.pushed.length → u.buffer (c.slot k) = s.buffer (c.slot k)) :
    ReaderOk c u i n := by
  refine ⟨?_, htail.trans h.tail, ?_, ?_, ?_, ?_⟩
  · rw [hcons, hob]
    exact h.position
  · rw [hob, hpushed]
    exact h.obtained
  · rw [hpushed]
    exact h.behind
  · rw [hcons, hpushed]
    exact h.phase
  · intro k hk hlt
    rw [hob] at hk
    rw [hpushed] at hlt ⊢
    rw [hbuffer k hk hlt]
    exact h.unread k hk hlt

theorem Inv.toLossless (h : Inv c maxConsumers t s) : Lossless c maxConsumers s where
  obtained := fun i hi => (h.reader i hi).obtained
  unread := fun i hi => (h.reader i hi).unread
  drained := by
    intro i hi htail
    have hr := h.reader i hi
    have hN := places_lt_pow c
    have hb := hr.behind
    rw [hr.tail, h.head] at htail
    have heq := ofNat_inj_of_le hr.le (by omega) htail
    have hp := hr.position
    have hl := hr.obtained.length_le
    exact hr.obtained.eq_of_length (by omega)
  inside := h.inside

/-! ## The producer's accesses -/

/-- Only the producer's own state changes. -/
theorem Inv.producing (h : Inv c maxConsumers t s) {p : FanoutProducer α} (hp : ProducerOk c maxConsumers s t p) :
    Inv c maxConsumers t { s with producer := p } where
  head := h.head
  count := h.count
  length_le := h.length_le
  reader := fun i hi => (h.reader i hi).frame rfl rfl rfl rfl fun _ _ _ => rfl
  unborn := h.unborn
  producer := by cases p <;> exact hp
  inside := h.inside

/-- The scan starts with nothing read. -/
theorem Inv.scanStart (h : Inv c maxConsumers t s) {x : α} {head : BitVec 64} (hp : s.producer = .loaded x head)
    (hcount : s.registrations ≤ maxConsumers.toNat) :
    ProducerOk c maxConsumers s t (.scanning x head s.consumerCount 0 (BitVec.allOnes 64)) := by
  have hprod := h.producer
  rw [hp] at hprod
  have hlt := maxConsumers.isLt
  refine ⟨hprod.1, hprod.2, hcount, ?_, Nat.zero_le _, fun j hj => absurd hj (Nat.not_lt_zero j), .inl rfl⟩
  rw [h.count, BitVec.toNat_ofNat, Nat.mod_eq_of_lt (by omega)]

theorem Inv.scanNext (h : Inv c maxConsumers t s) {x : α} {head count i minTail : BitVec 64}
    (hp : s.producer = .scanning x head count i minTail) (hi : i < count) :
    maxConsumers.toNat > i.toNat ∧
      ProducerOk c maxConsumers s t (.scanning x head count (i + 1)
        (if s.consumerTails i.toNat < minTail then s.consumerTails i.toNat else minTail)) := by
  have hprod := h.producer
  rw [hp] at hprod
  obtain ⟨hhead, hlen, hcount, hc, hle, hmin, hbound⟩ := hprod
  have hi' : i.toNat < s.registrations := by
    rw [← hc]
    exact BitVec.lt_def.mp hi
  have hreg : s.registered maxConsumers i.toNat := ⟨hi', by omega⟩
  have hr := h.reader _ hreg
  have htail : (s.consumerTails i.toNat).toNat = t i.toNat := by
    have hle' := hr.le
    rw [hr.tail, BitVec.toNat_ofNat, Nat.mod_eq_of_lt (by omega)]
  have hsucc : (i + 1).toNat = i.toNat + 1 := by
    have hmax := maxConsumers.isLt
    rw [BitVec.toNat_add]
    exact Nat.mod_eq_of_lt (by show i.toNat + 1 < 2 ^ 64; omega)
  refine ⟨by omega, hhead, hlen, hcount, hc, by omega, ?_, ?_⟩
  · intro j hj
    rw [hsucc] at hj
    by_cases hlt : s.consumerTails i.toNat < minTail
    · have hlt' := BitVec.lt_def.mp hlt
      rw [if_pos hlt]
      by_cases hji : j = i.toNat
      · rw [hji, htail]
      · have := hmin j (by omega)
        omega
    · have hge : minTail.toNat ≤ (s.consumerTails i.toNat).toNat := Nat.le_of_not_lt fun hx => hlt (BitVec.lt_def.mpr hx)
      rw [if_neg hlt]
      by_cases hji : j = i.toNat
      · rw [hji, ← htail]
        exact hge
      · exact hmin j (by omega)
  · by_cases hlt : s.consumerTails i.toNat < minTail
    · rw [if_pos hlt, htail]
      exact .inr hr.le
    · rw [if_neg hlt]
      exact hbound

/-- A scan that ends without a refusal has found room behind every consumer. -/
theorem Inv.scanEnd (h : Inv c maxConsumers t s) {x : α} {head count i minTail : BitVec 64}
    (hp : s.producer = .scanning x head count i minTail) (hi : ¬ i < count)
    (hroom : ¬ c.size ≤ head - minConsumerTail minTail s.head) : ProducerOk c maxConsumers s t (.granted x head) := by
  have hprod := h.producer
  rw [hp] at hprod
  obtain ⟨hhead, hlen, hcount, hc, hle, hmin, hbound⟩ := hprod
  have hN := c.two_le_places
  have hall : ∀ j, s.registered maxConsumers j → minTail.toNat ≤ t j := by
    intro j hj
    have hge : ¬ i.toNat < count.toNat := fun hx => hi (BitVec.lt_def.mpr hx)
    have hj1 := hj.1
    exact hmin j (by omega)
  refine ⟨hhead, hlen, ?_⟩
  intro j hj
  have hj' := hall j hj
  by_cases hones : minTail = BitVec.allOnes 64
  · rw [hones, BitVec.toNat_allOnes] at hj'
    omega
  · have hmle := hbound.resolve_left hones
    unfold minConsumerTail at hroom
    rw [if_neg hones, hhead, BitVec.le_def, BitVec.toNat_sub, BitVec.toNat_ofNat] at hroom
    have hplaces : c.size.toNat = c.places := rfl
    rw [hplaces] at hroom
    omega

theorem Inv.write (h : Inv c maxConsumers t s) {x : α} {head : BitVec 64} (hp : s.producer = .granted x head) :
    Inv c maxConsumers t
      { s with buffer := Function.update s.buffer (head &&& c.mask) x, producer := .storing x head } := by
  have hprod := h.producer
  rw [hp] at hprod
  obtain ⟨rfl, hlen, hroom⟩ := hprod
  refine ⟨h.head, h.count, h.length_le, ?_, h.unborn, ⟨rfl, hlen, hroom, Function.update_self ..⟩, h.inside⟩
  intro i hi
  have hr := h.reader i hi
  refine hr.frame rfl rfl rfl rfl fun k hk hlt => ?_
  have hpos := hr.position
  have hri := hroom i hi
  exact Function.update_of_ne (c.slot_ne hlt (by omega)) _ _

theorem Inv.publish (h : Inv c maxConsumers t s) {x : α} {head : BitVec 64} (hp : s.producer = .storing x head) :
    Inv c maxConsumers t { s with head := head + 1, producer := .idle, pushed := s.pushed ++ [x] } := by
  have hprod := h.producer
  rw [hp] at hprod
  obtain ⟨rfl, hlt, hroom, hx⟩ := hprod
  have hlen : (s.pushed ++ [x]).length = s.pushed.length + 1 := by simp
  refine ⟨?_, h.count, ?_, ?_, h.unborn, trivial, h.inside⟩
  · rw [hlen, BitVec.ofNat_add]
    rfl
  · show (s.pushed ++ [x]).length ≤ 2 ^ 64
    omega
  · intro i hi
    have hr := h.reader i hi
    refine ⟨hr.position, hr.tail, hr.obtained.trans (List.prefix_append _ _), ?_, ?_, ?_⟩
    · show (s.pushed ++ [x]).length ≤ t i + c.places
      have := hroom i hi
      omega
    · have hph := hr.phase
      show ConsumerOk (t i) (s.pushed ++ [x]).length (s.consumer i)
      rw [hlen]
      cases hcons : s.consumer i with
      | granted tail =>
        rw [hcons] at hph
        exact ⟨hph.1, Nat.lt_succ_of_lt hph.2⟩
      | idle => trivial
      | counted => trivial
      | loaded tail => rw [hcons] at hph; exact hph
      | storing tail => rw [hcons] at hph; exact hph
    · intro k hk hkl
      have hkl' : k < s.pushed.length + 1 := by rw [← hlen]; exact hkl
      show (s.pushed ++ [x])[k]? = some (s.buffer (c.slot k))
      by_cases hke : k = s.pushed.length
      · rw [hke, List.getElem?_concat_length, hx]
      · rw [List.getElem?_append_left (by omega)]
        exact hr.unread k hk (by omega)

theorem inv_produceStep (h : Inv c maxConsumers t s) (hok : s.Counted maxConsumers s.producer) :
    Inv c maxConsumers t (s.produceStep c maxConsumers) := by
  unfold produceStep
  split
  · exact h
  · next x head hp =>
    rw [hp] at hok
    exact h.producing (h.scanStart hp hok)
  · next x head count i minTail hp =>
    split
    · next hi =>
      obtain ⟨hlt, hok'⟩ := h.scanNext hp hi
      have hin : (s.outside || decide (maxConsumers ≤ i)) = false := by
        rw [h.inside, Bool.false_or, decide_eq_false_iff_not, BitVec.le_def]
        omega
      simp only
      rw [hin, ← h.inside]
      exact h.producing hok'
    · next hi =>
      split
      · exact h.producing trivial
      · next hroom => exact h.producing (h.scanEnd hp hi hroom)
  · next x head hp => exact h.write hp
  · next x head hp => exact h.publish hp

/-! ## Registration -/

theorem inv_register (h : Inv c maxConsumers t s) (hp : s.producer = .idle) (hnil : s.pushed = []) :
    Inv c maxConsumers t (s.registerConsumer maxConsumers) := by
  have hlen : s.pushed.length = 0 := by rw [hnil]; rfl
  have hcount : s.consumerCount + 1 = BitVec.ofNat 64 (s.registrations + 1) := by
    rw [h.count, BitVec.ofNat_add]
    rfl
  -- whatever place is written, it gets the position of a consumer that has read nothing
  have hkey : ∀ tails : ℕ → BitVec 64,
      (∀ i, tails i = s.consumerTails i ∨ tails i = BitVec.ofNat 64 0) →
      (s.registrations < maxConsumers.toNat → tails s.registrations = BitVec.ofNat 64 0) →
      Inv c maxConsumers t { s with
        consumerCount := s.consumerCount + 1, registrations := s.registrations + 1, consumerTails := tails } := by
    intro tails hold hnew
    refine ⟨h.head, hcount, h.length_le, ?_, ?_, ?_, h.inside⟩
    · intro i hi
      have hi1 : i < s.registrations + 1 := hi.1
      by_cases hreg : s.registered maxConsumers i
      · have hr := h.reader i hreg
        refine ⟨hr.position, ?_, hr.obtained, hr.behind, hr.phase, hr.unread⟩
        have hti : t i = 0 := by
          have := hr.le
          omega
        rcases hold i with he | he
        · exact he.trans hr.tail
        · rw [hti]
          exact he
      · have hie : i = s.registrations := by
          by_contra hne
          exact hreg ⟨by omega, hi.2⟩
        obtain ⟨hidle, hnone, hti⟩ := h.unborn i hreg
        refine ⟨?_, ?_, ?_, ?_, ?_, ?_⟩
        · show t i + pending (s.consumer i) = (s.obtained i).length
          rw [hidle, hnone, hti]
          rfl
        · rw [hti, hie]
          exact hnew (hie ▸ hi.2)
        · show s.obtained i <+: s.pushed
          rw [hnone]
          exact List.nil_prefix
        · show s.pushed.length ≤ t i + c.places
          omega
        · show ConsumerOk (t i) s.pushed.length (s.consumer i)
          rw [hidle]
          trivial
        · intro k _ hk
          have hk' : k < s.pushed.length := hk
          omega
    · intro i hi
      refine h.unborn i fun hx => hi ⟨?_, hx.2⟩
      show i < s.registrations + 1
      have := hx.1
      omega
    · show ProducerOk c maxConsumers _ t s.producer
      rw [hp]
      trivial
  unfold registerConsumer
  simp only
  have hhead : s.head = BitVec.ofNat 64 0 := by rw [h.head, hlen]
  split
  · next hge =>
    refine hkey s.consumerTails (fun i => .inl rfl) ?_
    intro hlt
    have hmax := maxConsumers.isLt
    rw [h.count, BitVec.le_def, BitVec.toNat_ofNat, Nat.mod_eq_of_lt (by omega)] at hge
    omega
  · refine hkey _ ?_ ?_
    · intro i
      by_cases hi : i = s.consumerCount.toNat
      · rw [hi, Function.update_self]
        exact .inr hhead
      · rw [Function.update_of_ne hi]
        exact .inl rfl
    · intro hlt
      have hmax := maxConsumers.isLt
      have hid : s.consumerCount.toNat = s.registrations := by
        rw [h.count, BitVec.toNat_ofNat, Nat.mod_eq_of_lt (by omega)]
      rw [hid, Function.update_self]
      exact hhead

/-! ## The consumers' accesses -/

/-- The producer's knowledge survives the consumers' progress. -/
theorem ProducerOk.mono {s' : FanoutRing α} {t' : ℕ → ℕ} {p : FanoutProducer α} (h : ProducerOk c maxConsumers s t p)
    (hpushed : s'.pushed = s.pushed) (hreg : s'.registrations = s.registrations) (ht : ∀ i, t i ≤ t' i)
    (hbuf : ∀ x head, p = .storing x head → s'.buffer (c.slot s.pushed.length) = s.buffer (c.slot s.pushed.length)) :
    ProducerOk c maxConsumers s' t' p := by
  have hroom : Room c maxConsumers s t → Room c maxConsumers s' t' := by
    intro hr i hi
    have hi' : s.registered maxConsumers i := ⟨hreg ▸ hi.1, hi.2⟩
    have h1 := hr i hi'
    have h2 := ht i
    rw [hpushed]
    omega
  cases p with
  | idle => trivial
  | loaded x head =>
    show head = BitVec.ofNat 64 s'.pushed.length ∧ s'.pushed.length < 2 ^ 64
    rw [hpushed]
    exact h
  | scanning x head count i minTail =>
    obtain ⟨h1, h2, h3, h4, h5, h6, h7⟩ := h
    refine ⟨?_, ?_, ?_, ?_, ?_, fun j hj => Nat.le_trans (h6 j hj) (ht j), ?_⟩
    · rwa [hpushed]
    · rwa [hpushed]
    · rwa [hreg]
    · rwa [hreg]
    · rwa [hreg]
    · rwa [hpushed]
  | granted x head =>
    obtain ⟨h1, h2, h3⟩ := h
    refine ⟨?_, ?_, hroom h3⟩
    · rwa [hpushed]
    · rwa [hpushed]
  | storing x head =>
    obtain ⟨h1, h2, h3, h4⟩ := h
    refine ⟨?_, ?_, hroom h3, ?_⟩
    · rwa [hpushed]
    · rwa [hpushed]
    · rw [hpushed, hbuf x head rfl]
      exact h4

/-- A consumer moves on by itself. -/
theorem Inv.move (h : Inv c maxConsumers t s) {i : ℕ} {p : FanoutConsumer} (hreg : s.registered maxConsumers i)
    (hpend : pending p = pending (s.consumer i)) (hp : ConsumerOk (t i) s.pushed.length p) :
    Inv c maxConsumers t (s.move i p) := by
  refine ⟨h.head, h.count, h.length_le, ?_, ?_, h.producer.mono rfl rfl (fun _ => le_refl _) (fun _ _ _ => rfl),
    h.inside⟩
  · intro j hj
    have hr := h.reader j hj
    by_cases hji : j = i
    · subst hji
      have hcons : (s.move j p).consumer j = p := Function.update_self ..
      refine ⟨?_, hr.tail, hr.obtained, hr.behind, ?_, hr.unread⟩
      · rw [hcons, hpend]
        exact hr.position
      · rw [hcons]
        exact hp
    · exact hr.frame (Function.update_of_ne hji _ _) rfl rfl rfl fun _ _ _ => rfl
  · intro j hj
    have hji : j ≠ i := fun he => hj (he ▸ hreg)
    have hcons : (s.move i p).consumer j = s.consumer j := Function.update_of_ne hji _ _
    rw [hcons]
    exact h.unborn j hj

/-- The consumer moves the item at its position out; no consumer that still has to read it finds another value. -/
theorem Inv.moveOut (h : Inv c maxConsumers t s) {i : ℕ} {tail : BitVec 64} (hreg : s.registered maxConsumers i)
    (hi : s.consumer i = .granted tail) (hlast : s.LastReader c maxConsumers residue i (.granted tail)) :
    Inv c maxConsumers t { s.move i (.storing tail) with
      buffer := Function.update s.buffer (tail &&& c.mask) (residue (s.buffer (tail &&& c.mask)))
      obtained := Function.update s.obtained i (s.obtained i ++ [s.buffer (tail &&& c.mask)]) } := by
  have hri := h.reader i hreg
  have hph := hri.phase
  rw [hi] at hph
  obtain ⟨rfl, hlt⟩ := hph
  have hpos : t i = (s.obtained i).length := by
    have := hri.position
    rw [hi] at this
    exact this
  have hslot : BitVec.ofNat 64 (t i) &&& c.mask = c.slot (t i) := rfl
  simp only [LastReader] at hlast
  rw [hslot] at hlast ⊢
  have hbehind := hri.behind
  have hitem := hri.unread (t i) (by omega) hlt
  refine ⟨h.head, h.count, h.length_le, ?_, ?_, ?_, h.inside⟩
  · intro j hj
    have hr := h.reader j hj
    by_cases hji : j = i
    · subst hji
      have hcons : Function.update s.consumer j (.storing (BitVec.ofNat 64 (t j))) j = .storing _ :=
        Function.update_self ..
      have hob : Function.update s.obtained j (s.obtained j ++ [s.buffer (c.slot (t j))]) j = _ :=
        Function.update_self ..
      refine ⟨?_, hr.tail, ?_, hr.behind, ?_, ?_⟩
      · show t j + pending (Function.update s.consumer j _ j) = (Function.update s.obtained j _ j).length
        rw [hcons, hob, List.length_append, List.length_singleton, hpos]
        rfl
      · show Function.update s.obtained j _ j <+: s.pushed
        rw [hob]
        obtain ⟨rest, hrest⟩ := hr.obtained
        rw [← hrest, List.getElem?_append_right (by omega), hpos, Nat.sub_self] at hitem
        rw [← hrest]
        cases rest with
        | nil => cases hitem
        | cons y rest =>
          injection hitem with hy
          rw [hpos, ← hy]
          exact ⟨rest, by simp⟩
      · show ConsumerOk (t j) s.pushed.length (Function.update s.consumer j _ j)
        rw [hcons]
        rfl
      · intro k hk hkl
        have hk' : (Function.update s.obtained j (s.obtained j ++ [s.buffer (c.slot (t j))]) j).length ≤ k := hk
        rw [hob, List.length_append, List.length_singleton] at hk'
        have hkl' : k < s.pushed.length := hkl
        have hne : c.slot k ≠ c.slot (t j) := (c.slot_ne (by omega) (by omega)).symm
        show s.pushed[k]? = some (Function.update s.buffer (c.slot (t j)) _ (c.slot k))
        rw [Function.update_of_ne hne]
        exact hr.unread k (by omega) hkl
    · refine hr.frame (Function.update_of_ne hji _ _) rfl (Function.update_of_ne hji _ _) rfl fun k hk hkl => ?_
      show Function.update s.buffer (c.slot (t i)) _ (c.slot k) = _
      rcases hlast with hsame | hread
      · rw [hsame, Function.update_eq_self]
      · have hlen := hread j hj.1 hj hji
        exact Function.update_of_ne (c.slot_ne (by omega) (by omega)).symm _ _
  · intro j hj
    have hji : j ≠ i := fun he => hj (he ▸ hreg)
    obtain ⟨h1, h2, h3⟩ := h.unborn j hj
    exact ⟨(Function.update_of_ne hji _ _).trans h1, (Function.update_of_ne hji _ _).trans h2, h3⟩
  · refine h.producer.mono rfl rfl (fun _ => le_refl _) ?_
    intro x head hpr
    have hprod := h.producer
    rw [hpr] at hprod
    have hroom := hprod.2.2.1 i hreg
    exact Function.update_of_ne (c.slot_ne hlt hroom).symm _ _

/-- The consumer stores its new position. -/
theorem Inv.advance (h : Inv c maxConsumers t s) {i : ℕ} {tail : BitVec 64} (hreg : s.registered maxConsumers i)
    (hi : s.consumer i = .storing tail) :
    Inv c maxConsumers (Function.update t i (t i + 1))
      { s.move i .idle with consumerTails := Function.update s.consumerTails i (tail + 1) } := by
  have hri := h.reader i hreg
  have hph := hri.phase
  have hpos := hri.position
  rw [hi] at hph hpos
  have hmono : ∀ j, t j ≤ Function.update t i (t i + 1) j := by
    intro j
    by_cases hji : j = i
    · rw [hji, Function.update_self]
      omega
    · rw [Function.update_of_ne hji]
  refine ⟨h.head, h.count, h.length_le, ?_, ?_, h.producer.mono rfl rfl hmono (fun _ _ _ => rfl), h.inside⟩
  · intro j hj
    have hr := h.reader j hj
    by_cases hji : j = i
    · subst hji
      have hcons : Function.update s.consumer j .idle j = .idle := Function.update_self ..
      rw [Function.update_self]
      refine ⟨?_, ?_, hr.obtained, ?_, ?_, hr.unread⟩
      · show t j + 1 + pending (Function.update s.consumer j .idle j) = (s.obtained j).length
        rw [hcons]
        exact hpos
      · show Function.update s.consumerTails j (tail + 1) j = _
        rw [Function.update_self, hph, BitVec.ofNat_add]
        rfl
      · show s.pushed.length ≤ t j + 1 + c.places
        have := hr.behind
        omega
      · show ConsumerOk (t j + 1) s.pushed.length (Function.update s.consumer j .idle j)
        rw [hcons]
        trivial
    · rw [Function.update_of_ne hji]
      exact hr.frame (Function.update_of_ne hji _ _) (Function.update_of_ne hji _ _) rfl rfl fun _ _ _ => rfl
  · intro j hj
    have hji : j ≠ i := fun he => hj (he ▸ hreg)
    obtain ⟨h1, h2, h3⟩ := h.unborn j hj
    exact ⟨(Function.update_of_ne hji _ _).trans h1, h2, (Function.update_of_ne hji _ _).trans h3⟩

theorem Inv.registered_of_busy (h : Inv c maxConsumers t s) {i : ℕ} (hi : s.consumer i ≠ .idle) :
    s.registered maxConsumers i := by
  by_contra hreg
  exact hi (h.unborn i hreg).1

theorem inv_consumeStep (h : Inv c maxConsumers t s) {i : ℕ}
    (hok : s.LastReader c maxConsumers residue i (s.consumer i)) :
    ∃ t', Inv c maxConsumers t' (s.consumeStep c residue i) := by
  by_cases hidle : s.consumer i = .idle
  · unfold consumeStep
    rw [hidle]
    exact ⟨t, h⟩
  · have hreg := h.registered_of_busy hidle
    have hr := h.reader i hreg
    have hph := hr.phase
    unfold consumeStep
    split
    · exact ⟨t, h⟩
    · next hi => exact ⟨t, h.move hreg (by rw [hi]; rfl) hr.tail⟩
    · next tail hi =>
      rw [hi] at hph
      have htail : tail = BitVec.ofNat 64 (t i) := hph
      split
      · exact ⟨t, h.move hreg (by rw [hi]; rfl) trivial⟩
      · next hne =>
        refine ⟨t, h.move hreg (by rw [hi]; rfl) ⟨htail, ?_⟩⟩
        refine Nat.lt_of_le_of_ne hr.le fun he => hne ?_
        rw [htail, h.head, he]
    · next tail hi =>
      rw [hi] at hok
      exact ⟨t, h.moveOut hreg hi hok⟩
    · next tail hi => exact ⟨_, h.advance hreg hi⟩

theorem inv_step (h : Inv c maxConsumers t s) {a : FanoutAct α} (hok : s.Careful c maxConsumers residue a) :
    ∃ t', Inv c maxConsumers t' (s.step c maxConsumers residue a) := by
  cases a with
  | register =>
    simp only [step]
    split
    · next hp hnil => exact ⟨t, inv_register h hp hnil⟩
    · exact ⟨t, h⟩
  | push x =>
    simp only [step]
    split
    · exact ⟨t, h.producing (show ProducerOk c maxConsumers s t (.loaded x s.head) from ⟨h.head, hok⟩)⟩
    · exact ⟨t, h⟩
  | produce => exact ⟨t, inv_produceStep h hok⟩
  | pop i =>
    simp only [step]
    split
    · next hi =>
      split
      · next hreg => exact ⟨t, h.move hreg.1 (by rw [hi]; rfl) trivial⟩
      · exact ⟨t, h⟩
    · exact ⟨t, h⟩
  | consume i => exact inv_consumeStep h hok

/-- **Lossless fan-out.** For every capacity, element type, number of registrations and interleaving in which a scan
starts with no more registrations than there are places, an item is moved out of its slot by its last reader only (or
keeps its value), and fewer than `2 ^ 64` items were pushed before. -/
theorem lossless (c : Pow2) (maxConsumers : BitVec 64) (residue : α → α) (buffer : BitVec 64 → α)
    (acts : List (FanoutAct α))
    (hok : Admitted (step c maxConsumers residue) (Careful c maxConsumers residue) (fresh buffer) acts) :
    ∀ bs, bs <+: acts → Lossless c maxConsumers (after c maxConsumers residue buffer bs) := by
  intro bs hbs
  have hrun : Run (fun s a u => step c maxConsumers residue s a = u) (Careful c maxConsumers residue) (fresh buffer) bs
      (after c maxConsumers residue buffer bs) :=
    Run.of_admitted (fun _ _ _ => rfl) (hok.of_prefix bs hbs)
  have hinv : ∃ t, Inv c maxConsumers t (after c maxConsumers residue buffer bs) := by
    refine hrun.invariant (I := fun s => ∃ t, Inv c maxConsumers t s) ⟨_, inv_fresh buffer⟩ ?_
    rintro u a _ ⟨t, ht⟩ hta rfl
    exact inv_step ht hta
  obtain ⟨t, ht⟩ := hinv
  exact ht.toLossless

/-- A push past `n` registered consumers in one go. -/
def pushAll (n : ℕ) (x : α) : List (FanoutAct α) :=
  .push x :: List.replicate (n + 4) .produce

/-- A pop in one go. -/
def popAll (i : ℕ) : List (FanoutAct α) := .pop i :: List.replicate 4 (.consume i)

/-- Two consumers of a value that survives its move. -/
theorem lossless_two_consumers :
    let acts : List (FanoutAct ℕ) :=
      ([.register, .register] : List (FanoutAct ℕ)) ++ pushAll 2 7 ++ popAll 0 ++ pushAll 2 8 ++ popAll 1 ++ popAll 0
    (after .two 2 id (fun _ => 0) acts).obtained 0 = [7, 8] ∧
      Lossless .two 2 (after .two 2 id (fun _ => 0) acts) := by
  intro acts
  exact ⟨by decide +kernel, lossless .two 2 id (fun _ => 0) acts (by decide +kernel) acts
    List.prefix_rfl⟩

/-- A value that does not survive its move (a string, a shared pointer) reaches the first consumer only. -/
theorem moved_away :
    let acts : List (FanoutAct ℕ) := ([.register, .register] : List (FanoutAct ℕ)) ++ pushAll 2 7 ++ popAll 0 ++ popAll 1
    let s := after .two 2 (fun _ => 0) (fun _ => 1) acts
    s.pushed = [7] ∧ s.obtained 0 = [7] ∧ s.obtained 1 = [0] ∧ ¬ Lossless .two 2 s := by
  intro acts s
  have hpushed : s.pushed = [7] := by decide +kernel
  have hob : s.obtained 1 = [0] := by decide +kernel
  have hreg : s.registered 2 1 := by decide +kernel
  refine ⟨hpushed, by decide +kernel, hob, fun h => ?_⟩
  have hpre := h.obtained 1 hreg
  rw [hpushed, hob] at hpre
  exact absurd hpre (by decide)

/-- The refused registration of a second consumer makes every push read behind the array. -/
theorem scan_outside :
    let acts : List (FanoutAct ℕ) := ([.register, .register] : List (FanoutAct ℕ)) ++ pushAll 2 7
    let s := after .two 1 id (fun _ => 0) acts
    s.outside = true ∧ ¬ Lossless .two 1 s := by
  intro acts s
  have hout : s.outside = true := by decide +kernel
  refine ⟨hout, fun h => ?_⟩
  have hin := h.inside
  rw [hout] at hin
  cases hin

end FanoutRing

end Wirekrak.Lockfree

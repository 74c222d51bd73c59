import Mathlib.Logic.Function.Basic
import Wirekrak.Lib.Mask
import Wirekrak.Lib.Run

/-!
# Wirekrak.Lockfree.Spsc — `spsc_core` under `spsc_queue` and `spsc_ring`, one atomic access a step

The producer owns `head_`, the consumer `tail_`; each keeps in its own line a copy of the other's index, reread only
when the copy makes the ring look full (or empty).  A call of either side is cut at every access to an atomic index,
so that the other side can run between any two of them.

* `Core`: `buffer_`, `head_` and `tail_`; `lacksRoom` and `lacksItems` are the tests of `is_full` / `has_free_slots`
  and of `is_empty` / `has_available`.
* `Producer`, `Consumer`: where each thread stands inside its call.
* `Spsc`: the structure with both threads, and what was published, obtained and read so far (since the last `clear`).
* `Spsc.step`: one step of one thread; `none` where the thread cannot take it.
* `produce`, `produceBatch`, `consume`, `consumeBatch`: whole calls, with the other thread standing still.
-/

namespace Wirekrak.Lockfree

open Wirekrak.Lib

/-- `PaddedAtomic`. -/
structure PaddedAtomic where
  index : BitVec 64 := 0
  cachedOppositeIndex : BitVec 64 := 0
  deriving DecidableEq

structure Core (α : Type*) where
  buffer : BitVec 64 → α
  head : PaddedAtomic := {}
  tail : PaddedAtomic := {}

/-- What a thread asks for: an item's way through `push` or `pop`, one slot, or `n` slots at once. -/
inductive Request (ι : Type*) where
  | value (x : ι)
  | slot
  | batch (n : BitVec 64)
  deriving DecidableEq

def Request.size {ι : Type*} : Request ι → BitVec 64
  | .value _ => 1
  | .slot => 1
  | .batch n => n

section Helpers

variable (c : Pow2)

def next (v : BitVec 64) : BitVec 64 := (v + 1) &&& c.mask

/-- The test of `is_full`, and of `has_free_slots` for a batch, against a value of the consumer's index. -/
def lacksRoom {ι : Type*} (head tail : BitVec 64) : Request ι → Bool
  | .value _ => next c head == tail
  | .slot => next c head == tail
  | .batch n => ((tail - head - 1) &&& c.mask) < n

/-- The test of `is_empty`, and of `has_available` for a batch, against a value of the producer's index. -/
def lacksItems {ι : Type*} (tail head : BitVec 64) : Request ι → Bool
  | .value _ => tail == head
  | .slot => tail == head
  | .batch n => ((head - tail) &&& c.mask) < n

/-- `producer_slot` and `consumer_slot`. -/
def slotAt (own offset : BitVec 64) : BitVec 64 := (own + offset) &&& c.mask

/-- The items in `n` slots from an index on. -/
def Core.slots {α : Type*} (k : Core α) (own : BitVec 64) (n : ℕ) : List α :=
  (List.range n).map fun i => k.buffer (slotAt c own (BitVec.ofNat 64 i))

variable {α : Type*} (k : Core α)

def Core.empty : Bool := k.tail.index == k.head.index

def Core.full : Bool := next c k.head.index == k.tail.index

def Core.used : BitVec 64 := (k.head.index - k.tail.index) &&& c.mask

def Core.freeSlots : BitVec 64 := c.size - 1 - k.used c

def Core.clear : Core α := { k with head := {}, tail := {} }

/-- What the structure holds: the items from the consumer's index up to the producer's. -/
def Core.contents : List α := k.slots c k.tail.index (k.used c).toNat

end Helpers

/-! ## The two threads -/

/-- Where the producer stands: its own index read, the consumer's about to be reread, slots in hand, the new index
about to be stored. -/
inductive Producer (α : Type*) where
  | idle
  | loaded (r : Request α) (head : BitVec 64)
  | reloading (r : Request α) (head : BitVec 64)
  | granted (r : Request α) (head : BitVec 64)
  | storing (items : List α) (head : BitVec 64)

inductive Consumer (α : Type*) where
  | idle
  | loaded (r : Request Unit) (tail : BitVec 64)
  | reloading (r : Request Unit) (tail : BitVec 64)
  | granted (r : Request Unit) (tail : BitVec 64)
  | storing (items : List α) (tail : BitVec 64)

/-- The structure, its two threads and its history since the last `clear`; a read is kept with the place of the
slot it went to in the order of consumption. -/
structure Spsc (α : Type*) where
  core : Core α
  producer : Producer α := .idle
  consumer : Consumer α := .idle
  published : List α := []
  obtained : List α := []
  reads : List (ℕ × α) := []

/-- Calls (`ask`), the thread's next access inside its call (`go`), and what the holder of slots does with them. -/
inductive ProducerAct (α : Type*) where
  | ask (r : Request α)
  | go
  | write (offset : BitVec 64) (x : α)
  | commit (n : BitVec 64)
  | discard

inductive ConsumerAct where
  | ask (r : Request Unit)
  | go
  | read (offset : BitVec 64)
  | release (n : BitVec 64)

inductive Act (α : Type*) where
  | producer (a : ProducerAct α)
  | consumer (a : ConsumerAct)
  | clear

namespace Spsc

variable {α : Type*} (c : Pow2)

def store (k : Core α) (i : BitVec 64) (x : α) : Core α :=
  { k with buffer := Function.update k.buffer i x }

/-- The producer's steps: `push`, `acquire_producer_slot`, `try_acquire_producer_batch`, `producer_slot`,
`commit_producer_slot` / `commit_producer_batch`, `discard_producer_slot`. -/
def produceStep (s : Spsc α) (a : ProducerAct α) : Option (Spsc α) :=
  match a, s.producer with
  | .ask r, .idle => some { s with producer := .loaded r s.core.head.index }
  | .go, .loaded r head =>
    if lacksRoom c head s.core.head.cachedOppositeIndex r then some { s with producer := .reloading r head }
    else some { s with producer := .granted r head }
  | .go, .reloading r head =>
    -- the cached index is the one just loaded, whatever the second test says
    some { s with
      core.head.cachedOppositeIndex := s.core.tail.index
      producer := if lacksRoom c head s.core.tail.index r then .idle else .granted r head }
  | .go, .granted (.value x) head =>
    some { s with core := store s.core head x, producer := .storing [x] head }
  | .go, .storing items head =>
    some { s with
      core.head.index := slotAt c head (BitVec.ofNat 64 items.length)
      producer := .idle
      published := s.published ++ items }
  | .write _ _, .granted (.value _) _ => none
  | .write offset x, .granted r head =>
    if offset < r.size then some { s with core := store s.core (slotAt c head offset) x } else none
  | .commit _, .granted (.value _) _ => none
  | .commit n, .granted r _ =>
    -- a commit reads the producer's own index once more
    if n ≤ r.size then
      some { s with producer := .storing (s.core.slots c s.core.head.index n.toNat) s.core.head.index }
    else none
  | .discard, .granted (.value _) _ => none
  | .discard, .granted _ _ => some { s with producer := .idle }
  | _, _ => none

/-- The consumer's steps: `pop`, `peek_consumer_slot`, `try_acquire_consumer_batch`, `consumer_slot`,
`release_consumer_slot` / `release_consumer_batch`. -/
def consumeStep (s : Spsc α) (a : ConsumerAct) : Option (Spsc α) :=
  match a, s.consumer with
  | .ask r, .idle => some { s with consumer := .loaded r s.core.tail.index }
  | .go, .loaded r tail =>
    if lacksItems c tail s.core.tail.cachedOppositeIndex r then some { s with consumer := .reloading r tail }
    else some { s with consumer := .granted r tail }
  | .go, .reloading r tail =>
    some { s with
      core.tail.cachedOppositeIndex := s.core.head.index
      consumer := if lacksItems c tail s.core.head.index r then .idle else .granted r tail }
  | .go, .granted (.value _) tail =>
    some { s with
      consumer := .storing [s.core.buffer tail] tail
      reads := s.reads ++ [(s.obtained.length, s.core.buffer tail)] }
  | .go, .storing items tail =>
    some { s with
      core.tail.index := slotAt c tail (BitVec.ofNat 64 items.length)
      consumer := .idle
      obtained := s.obtained ++ items }
  | .read _, .granted (.value _) _ => none
  | .read offset, .granted r tail =>
    if offset < r.size then
      some { s with reads := s.reads ++ [(s.obtained.length + offset.toNat, s.core.buffer (slotAt c tail offset))] }
    else none
  | .release _, .granted (.value _) _ => none
  | .release n, .granted r _ =>
    if n ≤ r.size then
      some { s with consumer := .storing (s.core.slots c s.core.tail.index n.toNat) s.core.tail.index }
    else none
  | _, _ => none

/-- `clear` belongs to neither thread and is called while both are out. -/
def clear (s : Spsc α) : Option (Spsc α) :=
  match s.producer, s.consumer with
  | .idle, .idle => some { core := s.core.clear }
  | _, _ => none

def step (s : Spsc α) : Act α → Option (Spsc α)
  | .producer a => s.produceStep c a
  | .consumer a => s.consumeStep c a
  | .clear => s.clear

def Step (s : Spsc α) (a : Act α) (s' : Spsc α) : Prop := s.step c a = some s'

/-- A structure as constructed, over any contents of its storage. -/
def fresh (buffer : BitVec 64 → α) : Spsc α := { core := { buffer := buffer } }

/-! ## Whole calls -/

/-- The producer asks and runs on until it is granted the slots or refused them. -/
def acquire (s : Spsc α) (r : Request α) : Option (Spsc α) := do
  let s ← s.produceStep c (.ask r)
  let s ← s.produceStep c .go
  match s.producer with
  | .granted _ _ => some s
  | _ =>
    let s ← s.produceStep c .go
    match s.producer with
    | .granted _ _ => some s
    | _ => none

/-- Acquire one slot, write it, commit it. -/
def produce (s : Spsc α) (x : α) : Option (Spsc α) := do
  let s ← s.acquire c .slot
  let s ← s.produceStep c (.write 0 x)
  let s ← s.produceStep c (.commit 1)
  s.produceStep c .go

/-- Acquire `n` slots, write each, commit them together. -/
def produceBatch (s : Spsc α) (n : BitVec 64) (f : ℕ → α) : Option (Spsc α) := do
  let s ← s.acquire c (.batch n)
  let s ← (List.range n.toNat).foldlM (fun s i => s.produceStep c (.write (BitVec.ofNat 64 i) (f i))) s
  let s ← s.produceStep c (.commit n)
  s.produceStep c .go

/-- The consumer asks and runs on until it is granted the slots or refused them. -/
def peek (s : Spsc α) (r : Request Unit) : Option (Spsc α) := do
  let s ← s.consumeStep c (.ask r)
  let s ← s.consumeStep c .go
  match s.consumer with
  | .granted _ _ => some s
  | _ =>
    let s ← s.consumeStep c .go
    match s.consumer with
    | .granted _ _ => some s
    | _ => none

/-- Peek at one slot, read it, release it. -/
def consume (s : Spsc α) : Option (Spsc α) := do
  let s ← s.peek c .slot
  let s ← s.consumeStep c (.read 0)
  let s ← s.consumeStep c (.release 1)
  s.consumeStep c .go

/-- Acquire `n` slots, read each, release them together. -/
def consumeBatch (s : Spsc α) (n : BitVec 64) : Option (Spsc α) := do
  let s ← s.peek c (.batch n)
  let s ← (List.range n.toNat).foldlM (fun s i => s.consumeStep c (.read (BitVec.ofNat 64 i))) s
  let s ← s.consumeStep c (.release n)
  s.consumeStep c .go

end Spsc

end Wirekrak.Lockfree

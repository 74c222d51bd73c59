import Wirekrak.Buffer.LocalRing
import Wirekrak.Protocol.Paced

/-!
# Wirekrak.Protocol.Scheduler — the request scheduler on its ring of buffers

The scheduler keeps the texts of the batches in the slots of a local ring.  A slot is used again and again: a text is
written over what is there, and its length says how much of the slot counts.

* `Scheduler`: the ring of raw buffers and the poll counter; `enqueue`, and `pollPaced` for its part in `Session::poll`.
* `refines_paced`: it does what the queue of a `Paced` session does, for any calls whose texts fit a slot: it accepts and
  refuses the same batches, and hands over the texts of the same ones, as they were written.
-/

namespace Wirekrak.Protocol

open Wirekrak.Lib Wirekrak.Buffer

/-- `raw_buffer`; its storage is longer than any text that fits. -/
structure RawBuffer where
  buffer : List Char
  size : ℕ := 0

namespace RawBuffer

/-- A writer is given `data()`, and overwrites as much as it writes. -/
def write (text : List Char) (b : RawBuffer) : RawBuffer := { b with buffer := text ++ b.buffer.drop text.length }

def setSize (n : ℕ) (b : RawBuffer) : RawBuffer := { b with size := n }

def view (b : RawBuffer) : List Char := b.buffer.take b.size

@[simp] theorem view_setSize_write (text : List Char) (b : RawBuffer) :
    ((b.write text).setSize text.length).view = text := by
  simp [view, setSize, write]

end RawBuffer

/-- `emit_interval`, `QueueCapacity` and `MaxPayload`. -/
structure Scheduler.Sizes where
  emitInterval : ℕ
  queueCapacity : Pow2
  maxPayload : ℕ

structure Scheduler where
  pollCounter : ℕ := 0
  queue : LocalRing RawBuffer

namespace Scheduler

variable (z : Sizes) (s : Scheduler)

def poll : Scheduler := { s with pollCounter := s.pollCounter + 1 }

def idle : Bool := s.queue.empty

def shouldSend : Bool × Scheduler :=
  if s.pollCounter < z.emitInterval then (false, s) else (true, { s with pollCounter := 0 })

/-- The text is written into the slot before its length is known to fit. -/
def enqueue (text : List Char) : Bool × Scheduler :=
  match s.queue.acquireProducerSlot z.queueCapacity with
  | none => (false, s)
  | some i =>
    let queue := s.queue.modify i (RawBuffer.write text)
    if z.maxPayload < text.length then (false, { s with queue := queue.discardProducerSlot })
    else (true, { s with
      queue := (queue.modify i (RawBuffer.setSize text.length)).commitProducerSlot z.queueCapacity })

def peek : Option (List Char) := s.queue.peekConsumerSlot.map fun i => (s.queue.buffer i).view

def release : Scheduler := { s with queue := s.queue.releaseConsumerSlot z.queueCapacity }

/-- Its part in `Session::poll`, with the text that is handed to the connection. -/
def pollPaced : Option (List Char) × Scheduler :=
  let s1 := s.poll
  if s1.idle then (none, s1)
  else
    let r := s1.shouldSend z
    if r.1 then
      match r.2.peek with
      | none => (none, r.2)
      | some text => (some text, r.2.release z)
    else (none, r.2)

/-! ## Calls -/

/-- The session enqueues a batch, or polls; `accept` is the connection's answer to the batch, if one is due. -/
inductive Call (Sym P : Type)
  | enqueue (m : Message Sym P)
  | poll (accept : Bool)

inductive Reply
  | enqueued (ok : Bool)
  | handed (text : Option (List Char))
  deriving DecidableEq

variable {Sym P : Type} (text : Message Sym P → List Char) (pace : Pace Sym P)

def call (s : Scheduler) : Call Sym P → Scheduler × List Reply
  | .enqueue m => ((s.enqueue z (text m)).2, [.enqueued (s.enqueue z (text m)).1])
  | .poll _ => ((s.pollPaced z).2, [.handed (s.pollPaced z).1])

/-- The same calls on the queue of a paced session; the batch that is due is the oldest one. -/
def pacedCall (p : Paced Sym P) : Call Sym P → Paced Sym P × List Reply
  | .enqueue m => ((p.enqueue pace m).2, [.enqueued (p.enqueue pace m).1])
  | .poll accept =>
    (p.pollPaced pace accept,
      [.handed (if p.pollCounter + 1 < pace.emitInterval then none else p.queue.head?.map text)])

/-- The sizes are those that the session counts with. -/
structure Sizes.Of : Prop where
  interval : pace.emitInterval = z.emitInterval
  capacity : pace.queueCapacity = z.queueCapacity.places

/-- The text of a batch fits a slot, and the session knows it. -/
def Fits : Call Sym P → Prop
  | .enqueue m => (text m).length ≤ z.maxPayload ∧ pace.fits m.request = true
  | .poll _ => True

/-- The ring holds the texts of the batches in the session's queue. -/
structure Mirrors (p : Paced Sym P) : Prop where
  texts : ∃ items, s.queue.Holds z.queueCapacity items ∧ items.map RawBuffer.view = p.queue.map text
  counter : s.pollCounter = p.pollCounter

variable {z s text pace} {p : Paced Sym P}

theorem Mirrors.enqueue (h : s.Mirrors z text p) (hz : z.Of pace) {m : Message Sym P}
    (hm : Fits z text pace (.enqueue m)) :
    (s.enqueue z (text m)).2.Mirrors z text (p.enqueue pace m).2 ∧
    (s.enqueue z (text m)).1 = (p.enqueue pace m).1 := by
  obtain ⟨⟨items, hitems, hview⟩, hcount⟩ := h
  have hlen : items.length = p.queue.length := by
    have := congrArg List.length hview
    simpa using this
  unfold Scheduler.enqueue Paced.enqueue
  rw [hitems.acquire_eq, hz.capacity, ← hlen, hm.2]
  by_cases hroom : items.length + 1 < z.queueCapacity.places
  · rw [if_pos hroom, if_pos hroom, if_pos rfl]
    dsimp only
    rw [if_neg (Nat.not_lt.mpr hm.1)]
    have hwritten := (hitems.modify (RawBuffer.write (text m))).modify (RawBuffer.setSize (text m).length)
    refine ⟨⟨⟨_, hwritten.commit hroom, ?_⟩, hcount⟩, rfl⟩
    rw [List.map_append, List.map_append, hview]
    simp [LocalRing.modify]
  · rw [if_neg hroom, if_neg hroom]
    exact ⟨⟨⟨items, hitems, hview⟩, hcount⟩, rfl⟩

theorem Mirrors.poll (h : s.Mirrors z text p) (hz : z.Of pace) (accept : Bool) :
    (s.pollPaced z).2.Mirrors z text (p.pollPaced pace accept) ∧
    (s.pollPaced z).1 = if p.pollCounter + 1 < pace.emitInterval then none else p.queue.head?.map text := by
  obtain ⟨⟨items, hitems, hview⟩, hcount⟩ := h
  have hempty : s.poll.idle = p.queue.isEmpty := by
    have hiff := hitems.tail_eq_iff
    have hnil : items = [] ↔ p.queue = [] := by rw [← List.map_eq_nil_iff, hview, List.map_eq_nil_iff]
    rw [Bool.eq_iff_iff, List.isEmpty_iff, ← hnil, ← hiff, eq_comm (a := s.queue.tail)]
    exact decide_eq_true_iff
  unfold Scheduler.pollPaced Paced.pollPaced
  dsimp only
  rw [hempty]
  cases hq : p.queue with
  | nil =>
    rw [hq] at hview
    simp only [List.isEmpty_nil, if_true, List.head?_nil, Option.map_none, ite_self, and_true]
    exact ⟨⟨items, hitems, hview⟩, congrArg (· + 1) hcount⟩
  | cons m rest =>
    rw [hq, List.map_cons] at hview
    obtain ⟨b, bs, rfl, hb, hbs⟩ := List.map_eq_cons_iff.mp hview
    simp only [List.isEmpty_cons, Bool.false_eq_true, if_false, shouldSend, Scheduler.poll, hcount, hz.interval]
    by_cases hdue : p.pollCounter + 1 < z.emitInterval
    · simp only [if_pos hdue, Bool.false_eq_true, if_false, and_true]
      refine ⟨⟨b :: bs, hitems, ?_⟩, rfl⟩
      rw [List.map_cons, hb, hbs]
      rfl
    · have hpeek : ({ pollCounter := 0, queue := s.queue } : Scheduler).peek = some (text m) := by
        have := congrArg (Option.map RawBuffer.view) hitems.peek_eq
        rw [Option.map_map] at this
        exact this.trans (congrArg some hb)
      simp only [if_neg hdue, if_true, hpeek]
      exact ⟨⟨⟨bs, hitems.release, hbs⟩, rfl⟩, rfl⟩

/-- **The scheduler refines the queue of a paced session**: from an empty ring, whatever is left in its slots, and in any
sequence of calls whose texts fit a slot, the same batches are accepted, and the texts of the same batches are handed
over at the same polls, unchanged; what waits at the end is the texts of what waits in the session. -/
theorem refines_paced (hz : z.Of pace) (buffer : BitVec 64 → RawBuffer) (core : Session Sym P)
    {calls : List (Call Sym P)} (hfit : ∀ a ∈ calls, Fits z text pace a) :
    (Reactive.after (call z text) { queue := ⟨buffer, 0, 0⟩ } calls).Mirrors z text
      (Reactive.after (pacedCall text pace) { core := core } calls) ∧
    Reactive.output (call z text) { queue := ⟨buffer, 0, 0⟩ } calls =
      Reactive.output (pacedCall text pace) { core := core } calls := by
  have h0 : ({ queue := ⟨buffer, 0, 0⟩ } : Scheduler).Mirrors z text { core := core } :=
    ⟨⟨[], LocalRing.holds_clear z.queueCapacity ⟨buffer, 0, 0⟩, rfl⟩, rfl⟩
  refine Reactive.output_eq_of_rel (fun (s : Scheduler) (p : Paced Sym P) => s.Mirrors z text p) (Fits z text pace)
    (fun s p a ha h => ?_) h0 hfit
  cases a with
  | enqueue m =>
    obtain ⟨h1, h2⟩ := h.enqueue hz ha
    exact ⟨h1, congrArg (fun b => [Reply.enqueued b]) h2⟩
  | poll accept =>
    obtain ⟨h1, h2⟩ := h.poll hz accept
    exact ⟨h1, congrArg (fun o => [Reply.handed o]) h2⟩

/-- A ring of two slots of four bytes, and a batch every second poll. -/
def tiny : Sizes := ⟨2, .two, 4⟩

/-- Texts of two bytes and of one go through the same slots; the second comes while the first waits. -/
def reused : List (Call ℕ Unit) :=
  [.enqueue ⟨1, .subscribe, .trade, ⟨[7, 8], some 10, ()⟩⟩, .enqueue ⟨1, .subscribe, .trade, ⟨[9], some 11, ()⟩⟩,
   .poll true, .poll true, .enqueue ⟨1, .subscribe, .trade, ⟨[9], some 11, ()⟩⟩, .poll true, .poll true, .poll true]

theorem refines_paced_reused :
    Reactive.output (call tiny fun m => List.replicate m.request.symbols.length 'x')
      { queue := ⟨fun _ => ⟨"....".toList, 0⟩, 0, 0⟩ } reused =
    [.enqueued true, .enqueued false, .handed none, .handed (some "xx".toList), .enqueued true, .handed none,
     .handed (some "x".toList), .handed none] := by
  have hz : tiny.Of (⟨2, 2, fun _ => true⟩ : Pace ℕ Unit) := ⟨rfl, by decide⟩
  have hfit : ∀ a ∈ reused, Fits tiny (fun m => List.replicate m.request.symbols.length 'x') ⟨2, 2, fun _ => true⟩ a := by
    simp [reused, Fits, tiny]
  rw [(refines_paced hz (fun _ => ⟨"....".toList, 0⟩) .new hfit).2]
  decide

end Scheduler

end Wirekrak.Protocol

import Wirekrak.Buffer.Stored
import Wirekrak.Transport.Engine

/-!
# Wirekrak.Transport.Reassembly — the data plane of the websocket engine

`receive_loop_` reads frames into a slot of the message ring and commits the slot when the message is complete; the
consumer peeks, reads and releases.  The two threads meet in the ring's counts and in the pool's free stack.

* `Websocket.messages`: what a sequence of read results says, message by message, up to the first result that ends
  the connection.
* `Receiver.step`: the loop of the engine, cut where the other thread can run, the consumer, and a new epoch with
  its `clear`.  An attempt to acquire or to promote may fail without being the last of its spins.
* `Good`: the ring stores exactly the messages of the results read so far, and the slot in hand the bytes of the
  message that is not complete.
* `reassembles`: what the consumer has obtained, and what waits for it, are the messages of the read results.
-/

namespace Wirekrak.Transport

open Wirekrak.Lib Wirekrak.Buffer

/-! ## What the backend says -/

namespace Websocket

/-- An error, a close frame, or a data frame without data: the engine stops. -/
def ReadResult.ends (r : ReadResult) : Bool :=
  r.status ≠ .ok || r.frame = .close || r.data = []

/-- The messages that are completed after `acc`, up to the first result that ends the connection. -/
def messages (acc : List UInt8) : List ReadResult → List (List UInt8)
  | [] => []
  | r :: rs =>
    if r.ends then []
    else if r.frame = .message then (acc ++ r.data) :: messages [] rs
    else messages (acc ++ r.data) rs

/-- The bytes of the message that is not complete at the end. -/
def unfinished (acc : List UInt8) : List ReadResult → List UInt8
  | [] => acc
  | r :: rs =>
    if r.frame = .message then unfinished [] rs else unfinished (acc ++ r.data) rs

variable {log : List ReadResult} {r : ReadResult}

theorem messages_concat (h : ∀ x ∈ log, x.ends = false) (acc : List UInt8) (r : ReadResult) :
    messages acc (log ++ [r]) = messages acc log ++
      if r.ends = false ∧ r.frame = .message then [unfinished acc log ++ r.data] else [] := by
  induction log generalizing acc with
  | nil =>
    cases he : r.ends <;> by_cases hm : r.frame = .message <;> simp [messages, unfinished, he, hm]
  | cons x log ih =>
    have hx : x.ends = false := h x List.mem_cons_self
    have hl : ∀ y ∈ log, y.ends = false := fun y hy => h y (List.mem_cons_of_mem _ hy)
    by_cases hm : x.frame = .message
    · simp [messages, unfinished, hx, hm, ih hl]
    · simp [messages, unfinished, hx, hm, ih hl]

theorem unfinished_concat (acc : List UInt8) (log : List ReadResult) (r : ReadResult) :
    unfinished acc (log ++ [r]) = if r.frame = .message then [] else unfinished acc log ++ r.data := by
  induction log generalizing acc with
  | nil => simp [unfinished]
  | cons x log ih =>
    by_cases hm : x.frame = .message
    · simp [unfinished, hm, ih]
    · simp [unfinished, hm, ih]

end Websocket

/-! ## The receive loop and the consumer -/

/-- `current`: `current_slot` is set; `prepared`: the loop is about to read.  `log` is the history of the read results
of the epoch, `obtained` that of the payloads the consumer has read in it, `base` the count it has begun with. -/
structure Receiver where
  engine : Engine := {}
  ring : ManagedRing
  current : Bool := false
  prepared : Bool := false
  reader : Reader := .idle
  log : List Websocket.ReadResult := []
  obtained : List (List UInt8) := []
  base : ℕ := 0

inductive DataAct
  | check
  | prepare (last : Bool)
  | read (r : Websocket.ReadResult)
  | push (fits : Bool)
  | close
  | peek
  | hand
  | release
  | restart
  deriving DecidableEq

namespace Receiver

variable (L : Layout) (q : Pressure) (hint : ℕ)

/-- The slot that `current_slot` points to. -/
def slot (s : Receiver) : ManagedSlot :=
  s.ring.slots (s.ring.headSlot L)

def discard (s : Receiver) : Receiver :=
  { s with ring := s.ring.reset (s.ring.headSlot L), current := false }

/-- What follows the loop: a slot that is in hand is discarded. -/
def leave (s : Receiver) : Receiver :=
  if s.engine.loop = .exited ∧ s.current = true then s.discard L else s

/-- `acquire_slot_`. -/
def acquireSlot (last : Bool) (s : Receiver) : Receiver :=
  if s.ring.room L then { s with current := true, prepared := true, engine := s.engine.grant q .slot }
  else if last then { s with engine := { s.engine.refuse q false with loop := .head } }
  else s

/-- `promote_slot_`; under zero tolerance a refusal gives the slot up. -/
def promoteSlot (last : Bool) (s : Receiver) : Receiver :=
  let reserved := s.ring.reserve L hint (s.ring.headSlot L)
  let s' := { s with ring := reserved.1 }
  if reserved.2.ok then { s' with prepared := true, engine := s.engine.grant q .block }
  else if last then
    let refused := { s' with engine := { s.engine.refuse q true with loop := .head } }
    if q.zeroTolerance then refused.discard L else refused
  else s'

/-- The loop body up to the read. -/
def prepare (last : Bool) (s : Receiver) : Receiver :=
  if s.current = false then s.acquireSlot L q last
  else if (s.slot L).remaining L = 0 then s.promoteSlot L q hint last
  else { s with prepared := true }

/-- The loop body from the read on. -/
def read (r : Websocket.ReadResult) (s : Receiver) : Receiver :=
  let i := s.ring.headSlot L
  let s' := { s with
    ring := s.ring.fill i r.data, engine := s.engine.receive r, prepared := false, log := s.log ++ [r] }
  if s'.engine.loop = .exited then s'.leave L
  else
    let ring := s'.ring.commit i r.data.length
    if r.frame = .message then { s' with ring := { ring with head := ring.head + 1 }, current := false }
    else { s' with ring := ring }

def step (s : Receiver) : DataAct → Receiver
  | .check => leave L { s with engine := s.engine.check }
  | .prepare last => s.prepare L q hint last
  | .read r => s.read L r
  | .push fits => { s with engine := s.engine.pushed fits }
  | .close => { s with engine := s.engine.close }
  | .peek => { s with reader := .reading, obtained := s.obtained ++ [s.ring.payload (s.ring.tailSlot L)] }
  | .hand => { s with reader := .handing, ring := s.ring.reset (s.ring.tailSlot L) }
  | .release => { s with reader := .idle, ring := { s.ring with tail := s.ring.tail + 1 } }
  | .restart =>
    { engine := {}, ring := s.ring.clear L, base := (s.ring.clear L).head }

/-- `read_some` writes at most as many bytes as there is room for; `clear` runs when the thread has ended and the
consumer holds no slot. -/
def Enabled (s : Receiver) : DataAct → Prop
  | .check => s.engine.loop = .head ∧ s.engine.outbox = []
  | .prepare _ => s.engine.loop = .body ∧ s.prepared = false ∧ s.engine.outbox = []
  | .read r => s.engine.loop = .body ∧ s.prepared = true ∧ s.engine.outbox = [] ∧
      r.data.length ≤ (s.slot L).remaining L
  | .push _ => s.engine.outbox ≠ []
  | .close => True
  | .peek => s.reader = .idle ∧ s.ring.tail < s.ring.head
  | .hand => s.reader = .reading
  | .release => s.reader = .handing
  | .restart => s.engine.finished = true ∧ s.reader = .idle

instance (s : Receiver) (a : DataAct) : Decidable (s.Enabled L a) := by
  cases a <;> unfold Enabled <;> infer_instance

def Step (s : Receiver) (a : DataAct) (s' : Receiver) : Prop :=
  s.Enabled L a ∧ s.step L q hint a = s'

/-- The payloads that wait for the consumer, as they stand in the slots. -/
def queued (s : Receiver) : List (List UInt8) :=
  let first := s.ring.tail + if s.reader = .idle then 0 else 1
  (List.range' first (s.ring.head - first)).map fun k => s.ring.payload (k % L.capacity)

end Receiver

/-! ## What the control plane does to the loop -/

namespace Engine

variable (q : Pressure) (e : Engine)

@[simp] theorem signalClose_loop : (signalClose e).loop = e.loop := by
  unfold signalClose
  split <;> rfl

@[simp] theorem signalClose_running : (signalClose e).running = e.running := by
  unfold signalClose
  split <;> rfl

theorem handleFatalError_loop (error : Error) :
    (handleFatalError error e).loop = e.loop ∧ (handleFatalError error e).running = false := by
  unfold handleFatalError
  split
  · simp [emitEvent]
  · next hr => exact ⟨rfl, by simpa using hr⟩

theorem updateBackpressureState_loop :
    (updateBackpressureState e).loop = e.loop ∧ (updateBackpressureState e).running = e.running := by
  unfold updateBackpressureState
  split <;> exact ⟨rfl, rfl⟩

theorem note_loop (r : Hysteresis × Transition) :
    ((noteRing r e).loop = e.loop ∧ (noteRing r e).running = e.running) ∧
      (notePool r e).loop = e.loop ∧ (notePool r e).running = e.running := by
  unfold noteRing notePool
  constructor <;> split
  · exact ⟨rfl, rfl⟩
  · exact updateBackpressureState_loop _
  · exact ⟨rfl, rfl⟩
  · exact updateBackpressureState_loop _

theorem grant_loop (got : Acquired) : (grant q got e).loop = e.loop ∧ (grant q got e).running = e.running := by
  unfold grant
  split
  · exact ⟨rfl, rfl⟩
  · cases got with
    | slot => exact (note_loop e _).1
    | block => exact (note_loop e _).2
    | nothing => exact ⟨rfl, rfl⟩

/-- Zero tolerance stops the loop; otherwise it goes on as before. -/
theorem refuse_running (pool : Bool) :
    (refuse q pool e).running = if q.zeroTolerance then false else e.running := by
  unfold refuse
  split
  · exact (handleFatalError_loop e _).2
  · split
    · exact (note_loop e _).2.2
    · exact (note_loop e _).1.2

theorem pushed_loop (fits : Bool) :
    (pushed fits e).loop = e.loop ∧ ((pushed fits e).running = true → e.running = true) := by
  unfold pushed
  split
  · exact ⟨rfl, id⟩
  · split
    · exact ⟨rfl, id⟩
    · split
      · obtain ⟨h1, h2⟩ := handleFatalError_loop { e with outbox := _ } .backpressure
        exact ⟨h1, fun h => by rw [h2] at h; cases h⟩
      · exact ⟨rfl, id⟩

theorem close_loop : (close e).loop = e.loop ∧ ((close e).running = true → e.running = true) := by
  unfold close
  split
  · exact ⟨rfl, id⟩
  · exact ⟨rfl, by rintro ⟨⟩⟩

/-- The loop is left after a result that ends the connection, and only then. -/
theorem receive_loop (r : Websocket.ReadResult) :
    (receive r e).loop = (if r.ends then .exited else .head) ∧ (r.ends = false → (receive r e).running = e.running) := by
  unfold receive Websocket.ReadResult.ends
  by_cases h1 : r.status = .ok
  · by_cases h2 : r.frame = .close
    · simp only [h1, h2, ne_eq, not_true_eq_false, if_false, if_true]
      split <;> simp [exit]
    · by_cases h3 : r.data = []
      · simp [h1, h2, h3, exit]
      · simp [h1, h2, h3]
  · simp [h1, exit]

end Engine

/-! ## The ring stores the messages of the read results -/

namespace Receiver

variable {L : Layout} {q : Pressure} {hint : ℕ} {s s' : Receiver}

/-- The loop may still read. -/
def Live (s : Receiver) : Prop :=
  s.engine.loop = .body ∨ s.engine.loop = .head ∧ s.engine.running = true

/-- The bytes of the message that is not complete are those of the slot in hand. -/
def InHand (L : Layout) (s : Receiver) : Prop :=
  if s.current = true then s.ring.payload (s.ring.headSlot L) = Websocket.unfinished [] s.log
  else Websocket.unfinished [] s.log = []

theorem inHand_of (hc : s.current = true)
    (h : s.ring.payload (s.ring.headSlot L) = Websocket.unfinished [] s.log) : s.InHand L := by
  unfold InHand
  rw [if_pos hc]
  exact h

structure Good (L : Layout) (s : Receiver) : Prop where
  stored : s.ring.Stored L s.current s.reader s.base s.obtained (Websocket.messages [] s.log)
  held : s.prepared = true → s.current = true ∧ s.engine.loop = .body
  gone : s.engine.loop = .exited → s.current = false
  live : s.Live → (∀ r ∈ s.log, r.ends = false) ∧ s.InHand L

/-- A step of the control plane that leaves the loop where it is. -/
theorem Good.control {e : Engine} (h : Good L s) (hl : e.loop = s.engine.loop)
    (hr : e.running = true → s.engine.running = true) : Good L { s with engine := e } := by
  refine ⟨h.stored, fun hp => ?_, fun hx => h.gone (hl.symm.trans hx), fun hlive => ?_⟩
  · exact ⟨(h.held hp).1, hl.trans (h.held hp).2⟩
  · refine h.live ?_
    rcases hlive with hb | ⟨hh, hrun⟩
    · exact .inl (hl.symm.trans hb)
    · exact .inr ⟨hl.symm.trans hh, hr hrun⟩

/-- Past the loop nothing is in hand. -/
theorem good_leave (hst : s.ring.Stored L s.current s.reader s.base s.obtained (Websocket.messages [] s.log))
    (hp : s.prepared = false) (hx : s.engine.loop = .exited) : Good L (s.leave L) := by
  have hdead : ¬ s.Live := by
    rintro (hb | ⟨hh, -⟩)
    · rw [hx] at hb
      cases hb
    · rw [hx] at hh
      cases hh
  have hnp : ∀ {P : Prop}, s.prepared = true → P := by
    intro P h
    rw [hp] at h
    cases h
  unfold leave
  split
  · next hc =>
    rw [hc.2] at hst
    exact ⟨hst.discard, hnp, fun _ => rfl, fun hlive => absurd hlive hdead⟩
  · next hc =>
    exact ⟨hst, hnp, fun _ => by simpa [hx] using hc, fun hlive => absurd hlive hdead⟩

theorem good_check (h : Good L s) (he : s.Enabled L .check) : Good L (s.step L q hint .check) := by
  have hp : s.prepared = false := by
    by_contra hp
    have hb := (h.held (by simpa using hp)).2
    rw [he.1] at hb
    cases hb
  change Good L (leave L { s with engine := s.engine.check })
  cases hrun : s.engine.running with
  | true =>
    have hc : s.engine.check = { s.engine with loop := .body } := if_pos hrun
    rw [hc, leave, if_neg (by simp)]
    exact ⟨h.stored, fun hx => by simp [hp] at hx, by rintro ⟨⟩, fun _ => h.live (.inr ⟨he.1, hrun⟩)⟩
  | false =>
    have hl : s.engine.check.loop = .exited := by
      simp [Engine.check, hrun, Engine.exit]
    exact good_leave (s := { s with engine := s.engine.check }) h.stored hp hl

theorem good_acquireSlot (last : Bool) (h : Good L s) (hb : s.engine.loop = .body) (hc : s.current = false)
    (hp : s.prepared = false) : Good L (s.acquireSlot L q last) := by
  obtain ⟨hlog, hin⟩ := h.live (.inl hb)
  have hst := h.stored
  rw [hc] at hst
  rw [InHand, hc, if_neg (by simp)] at hin
  unfold acquireSlot
  split
  · next hroom =>
    obtain ⟨hst', hblank⟩ := hst.acquire hroom
    have hloop := (Engine.grant_loop q s.engine .slot).1
    refine ⟨hst', fun _ => ⟨rfl, hloop.trans hb⟩, fun hx => ?_, fun _ => ⟨hlog, ?_⟩⟩
    · rw [hloop, hb] at hx
      cases hx
    · change s.ring.payload (s.ring.headSlot L) = _
      rw [hblank.payload, hin]
  · split
    · refine ⟨h.stored, fun hx => ?_, fun _ => hc, fun _ => h.live (.inl hb)⟩
      change s.prepared = true at hx
      rw [hp] at hx
      cases hx
    · exact h

/-- A slot that is promoted holds the same bytes; a slot is given up only when the loop will not read again. -/
theorem good_promoteSlot (last : Bool) (h : Good L s) (hb : s.engine.loop = .body) (hc : s.current = true)
    (hp : s.prepared = false) : Good L (s.promoteSlot L q hint last) := by
  obtain ⟨hlog, hin⟩ := h.live (.inl hb)
  have hst := h.stored
  rw [hc] at hst
  rw [InHand, if_pos hc] at hin
  have ho := ManagedRing.only_reserve (i := s.ring.headSlot L) hst.owned L hint
  obtain ⟨hpay, hsize, hcap⟩ := ManagedRing.reserve_payload L hint (s.ring.headSlot L) s.ring
  have hold := hst.sizes (s.ring.headSlot L)
  have hst' := hst.touch ho (by omega)
  have hhead : (s.ring.reserve L hint (s.ring.headSlot L)).1.headSlot L = s.ring.headSlot L := ho.headSlot
  have hin' : (s.ring.reserve L hint (s.ring.headSlot L)).1.payload
      ((s.ring.reserve L hint (s.ring.headSlot L)).1.headSlot L) = Websocket.unfinished [] s.log := by
    rw [hhead, hpay]
    exact hin
  rw [← hc] at hst'
  unfold promoteSlot
  simp only
  split
  · have hloop := (Engine.grant_loop q s.engine .block).1
    refine ⟨hst', fun _ => ⟨hc, hloop.trans hb⟩, fun hx => ?_, fun _ => ⟨hlog, inHand_of hc hin'⟩⟩
    rw [hloop, hb] at hx
    cases hx
  split
  · split
    · next hz =>
      rw [hc] at hst'
      refine ⟨hst'.discard, fun hx => ?_, by rintro ⟨⟩, fun hlive => ?_⟩
      · change s.prepared = true at hx
        rw [hp] at hx
        cases hx
      · rcases hlive with hx | ⟨-, hx⟩
        · cases hx
        · change (s.engine.refuse q true).running = true at hx
          rw [Engine.refuse_running, if_pos hz] at hx
          cases hx
    · refine ⟨hst', fun hx => ?_, by rintro ⟨⟩, fun _ => ⟨hlog, inHand_of hc hin'⟩⟩
      change s.prepared = true at hx
      rw [hp] at hx
      cases hx
  · refine ⟨hst', fun hx => ?_, fun hx => ?_, fun _ => ⟨hlog, inHand_of hc hin'⟩⟩
    · rw [hp] at hx
      cases hx
    · rw [hb] at hx
      cases hx

theorem good_prepare (last : Bool) (h : Good L s) (he : s.Enabled L (.prepare last)) :
    Good L (s.step L q hint (.prepare last)) := by
  obtain ⟨hb, hp, -⟩ := he
  change Good L (s.prepare L q hint last)
  unfold prepare
  split
  · next hc => exact good_acquireSlot last h hb hc hp
  · next hc =>
    have hcur : s.current = true := by simpa using hc
    split
    · exact good_promoteSlot last h hb hcur hp
    · exact ⟨h.stored, fun _ => ⟨hcur, hb⟩, h.gone, h.live⟩

/-- A frame is appended to the message in hand; the last one commits it. -/
theorem good_read (r : Websocket.ReadResult) (h : Good L s) (he : s.Enabled L (.read r)) :
    Good L (s.step L q hint (.read r)) := by
  obtain ⟨hb, hp, -, hfit⟩ := he
  obtain ⟨hcur, -⟩ := h.held hp
  obtain ⟨hlog, hin⟩ := h.live (.inl hb)
  have hst := h.stored
  rw [hcur] at hst
  rw [InHand, if_pos hcur] at hin
  have hsize := hst.sizes (s.ring.headSlot L)
  obtain ⟨hloop, hrun⟩ := Engine.receive_loop s.engine r
  have hmsgs := Websocket.messages_concat hlog [] r
  change Good L (s.read L r)
  unfold read
  simp only
  cases hends : r.ends with
  | true =>
    have hx : (s.engine.receive r).loop = .exited := by rw [hloop, hends, if_pos rfl]
    rw [if_pos hx]
    rw [hends, if_neg (by simp), List.append_nil] at hmsgs
    have hof := ManagedRing.only_fill (i := s.ring.headSlot L) hst.owned r.data
    obtain ⟨hfs, hfe⟩ := ManagedRing.fill_slots (i := s.ring.headSlot L) r.data s.ring
    have hfc : ((s.ring.fill (s.ring.headSlot L) r.data).slots (s.ring.headSlot L)).capacity L =
        (s.ring.slots (s.ring.headSlot L)).capacity L := by
      unfold ManagedSlot.capacity
      rw [hfe]
    refine good_leave (s := { s with
      ring := _, engine := s.engine.receive r, prepared := false, log := s.log ++ [r] }) ?_ rfl hx
    change ManagedRing.Stored L s.current _ _ _ (Websocket.messages [] (s.log ++ [r])) _
    rw [hmsgs, hcur]
    have hle : ((s.ring.fill (s.ring.headSlot L) r.data).slots (s.ring.headSlot L)).size ≤
        ((s.ring.fill (s.ring.headSlot L) r.data).slots (s.ring.headSlot L)).capacity L := by
      omega
    exact hst.touch hof hle
  | false =>
    have hh : (s.engine.receive r).loop = .head := by rw [hloop, hends]; rfl
    rw [if_neg (by rw [hh]; simp)]
    have ho := (ManagedRing.only_fill (i := s.ring.headSlot L) hst.owned r.data).trans
      (ManagedRing.only_commit (ManagedRing.only_fill hst.owned r.data).owned r.data.length)
    obtain ⟨hcs, hcc⟩ := ManagedRing.capacity_commit_fill (i := s.ring.headSlot L) (L := L) r.data s.ring
    have hpay := ManagedRing.payload_commit_fill (i := s.ring.headSlot L) r.data s.ring
    have hfit' : r.data.length ≤ (s.ring.slots (s.ring.headSlot L)).capacity L -
        (s.ring.slots (s.ring.headSlot L)).size := hfit
    have hst' := hst.touch ho (by rw [hcs, hcc]; omega)
    have hhead : ((s.ring.fill (s.ring.headSlot L) r.data).commit (s.ring.headSlot L) r.data.length).headSlot L =
        s.ring.headSlot L := ho.headSlot
    have hlog' : ∀ x ∈ s.log ++ [r], x.ends = false := by
      intro x hx
      rcases List.mem_append.mp hx with hx | hx
      · exact hlog x hx
      · rw [List.mem_singleton.mp hx]
        exact hends
    have hunf := Websocket.unfinished_concat [] s.log r
    rw [hin] at hpay
    by_cases hm : r.frame = .message
    · rw [if_pos hm]
      rw [if_pos ⟨hends, hm⟩] at hmsgs
      rw [if_pos hm] at hunf
      refine ⟨?_, by rintro ⟨⟩, fun _ => rfl, fun _ => ⟨hlog', ?_⟩⟩
      · change ManagedRing.Stored L false _ _ _ (Websocket.messages [] (s.log ++ [r])) _
        rw [hmsgs, ← hpay]
        have hpub := hst'.publish
        rw [hhead] at hpub
        exact hpub
      · exact hunf
    · rw [if_neg hm]
      rw [if_neg (fun hx => hm hx.2), List.append_nil] at hmsgs
      rw [if_neg hm] at hunf
      refine ⟨?_, by rintro ⟨⟩, fun hx => ?_, fun _ => ⟨hlog', ?_⟩⟩
      · change ManagedRing.Stored L s.current _ _ _ (Websocket.messages [] (s.log ++ [r])) _
        rw [hmsgs, hcur]
        exact hst'
      · rw [hh] at hx
        cases hx
      · refine inHand_of hcur ?_
        rw [hhead, hpay]
        exact hunf.symm

theorem good_restart (h : Good L s) (he : s.Enabled L .restart) : Good L (s.step L q hint .restart) := by
  obtain ⟨hf, hr⟩ := he
  have hx : s.engine.loop = .exited := (of_decide_eq_true hf).1
  have hst := h.stored
  rw [h.gone hx, hr] at hst
  exact ⟨hst.clear.1, by rintro ⟨⟩, fun _ => rfl, fun _ => ⟨fun _ hm => (by cases hm), rfl⟩⟩

/-- The consumer resets the slot it has read; the one in hand is another. -/
theorem good_hand (h : Good L s) (he : s.Enabled L .hand) : Good L (s.step L q hint .hand) := by
  have hst := h.stored
  have hr : s.reader = .reading := he
  rw [hr] at hst
  refine ⟨hst.hand, h.held, h.gone, fun hlive => ?_⟩
  obtain ⟨hlog, hin⟩ := h.live hlive
  refine ⟨hlog, ?_⟩
  unfold InHand at hin ⊢
  change if s.current = true then _ else _
  split
  · next hcur =>
    rw [if_pos hcur] at hin
    rw [hcur] at hst
    have ho := ManagedRing.only_reset hst.owned (s.ring.tailSlot L)
    have hne := hst.slot_ne_head (Nat.le_refl _) (hst.reading (by simp))
    change (s.ring.reset (s.ring.tailSlot L)).payload (s.ring.headSlot L) = _
    rw [ho.payload (Ne.symm hne)]
    exact hin
  · next hcur =>
    rw [if_neg hcur] at hin
    exact hin

theorem good_step {a : DataAct} (h : Good L s) (hs : Step L q hint s a s') : Good L s' := by
  obtain ⟨he, rfl⟩ := hs
  cases a with
  | check => exact good_check h he
  | prepare last => exact good_prepare last h he
  | read r => exact good_read r h he
  | push fits => exact h.control (Engine.pushed_loop s.engine fits).1 (Engine.pushed_loop s.engine fits).2
  | close => exact h.control (Engine.close_loop s.engine).1 (Engine.close_loop s.engine).2
  | peek =>
    have hst := h.stored
    rw [he.1] at hst
    exact ⟨hst.peek he.2, h.held, h.gone, h.live⟩
  | hand => exact good_hand h he
  | release =>
    have hst := h.stored
    have hr : s.reader = .handing := he
    rw [hr] at hst
    exact ⟨hst.release, h.held, h.gone, h.live⟩
  | restart => exact good_restart h he

/-! ## Whole runs -/

/-- An empty ring over a pool with the blocks `free`, and an engine that has just started. -/
def init (free : List ℕ) : Receiver :=
  { ring := { free := free } }

theorem good_init {free : List ℕ} (h : free.Nodup) : Good L (init free) :=
  ⟨.init L h, by rintro ⟨⟩, by rintro ⟨⟩, fun _ => ⟨fun _ hm => (by cases hm), rfl⟩⟩

theorem run_good {free : List ℕ} {as : List DataAct} (hf : free.Nodup)
    (h : Run (Step L q hint) (fun _ _ => True) (init free) as s) : Good L s :=
  h.invariant (good_init hf) fun _ _ _ ih _ hs => good_step ih hs

/-- The read results that the backend has delivered since the last `clear`. -/
def delivered (as : List DataAct) : List Websocket.ReadResult :=
  as.foldl (fun log a =>
    match a with
    | .read r => log ++ [r]
    | .restart => []
    | _ => log) []

theorem leave_log (s : Receiver) : (s.leave L).log = s.log := by
  unfold leave
  split <;> rfl

theorem prepare_log (last : Bool) (s : Receiver) : (s.prepare L q hint last).log = s.log := by
  unfold prepare acquireSlot promoteSlot
  simp only
  split
  · split
    · rfl
    · split <;> rfl
  · split
    · split
      · rfl
      · split
        · split <;> rfl
        · rfl
    · rfl

theorem read_log (r : Websocket.ReadResult) (s : Receiver) : (s.read L r).log = s.log ++ [r] := by
  unfold read
  simp only
  split
  · rw [leave_log]
  · split <;> rfl

theorem run_log {free : List ℕ} {as : List DataAct} (h : Run (Step L q hint) (fun _ _ => True) (init free) as s) :
    s.log = delivered as := by
  induction h with
  | nil => rfl
  | @snoc as t u a _ _ hs ih =>
    obtain ⟨-, rfl⟩ := hs
    unfold delivered at ih ⊢
    rw [List.foldl_append, ← ih]
    cases a with
    | check => exact leave_log _
    | prepare last => exact prepare_log last t
    | read r => exact read_log r t
    | _ => rfl

/-- What stands in the slots is what was committed and not yet obtained. -/
theorem Good.queued (h : Good L s) : s.obtained ++ s.queued L = Websocket.messages [] s.log := by
  have hst := h.stored
  have horder := hst.order
  have hcount := hst.count
  have hread := hst.reading
  have hobt := hst.obtained
  have hrest : s.queued L =
      (Websocket.messages [] s.log).drop (s.ring.tail - s.base + if s.reader = .idle then 0 else 1) := by
    have hfirst : s.ring.tail + (if s.reader = .idle then 0 else 1) ≤ s.ring.head := by
      split
      · omega
      · next hne => exact hread hne
    apply List.ext_getElem?
    intro j
    unfold Receiver.queued
    simp only [List.getElem?_map, List.getElem?_drop]
    by_cases hj : j < s.ring.head - (s.ring.tail + if s.reader = .idle then 0 else 1)
    · rw [List.getElem?_range' hj, Option.map_some]
      have hlow : s.ring.tail + (if s.reader = .handing then 1 else 0) ≤
          s.ring.tail + (if s.reader = .idle then 0 else 1) + 1 * j := by
        cases s.reader
        · simp
        · simp
          omega
        · simp
      have hc := hst.contents _ hlow (by omega)
      rw [← hc]
      congr 1
      omega
    · rw [List.getElem?_eq_none (by rw [List.length_range']; omega), List.getElem?_eq_none (by omega)]
      rfl
  rw [hrest, hobt, List.take_append_drop]

end Receiver

/-- **Message reassembly.** Whatever the backend delivers and however the two threads interleave: what the consumer
has obtained, followed by what waits for it in the ring, are the messages of the delivered results, in order and byte
for byte; and a payload does not change while the consumer reads it. -/
theorem reassembles (L : Layout) (q : Pressure) (hint : ℕ) {free : List ℕ} (hf : free.Nodup) {as : List DataAct}
    {s : Receiver} (h : Run (Receiver.Step L q hint) (fun _ _ => True) (Receiver.init free) as s) :
    s.obtained ++ s.queued L = Websocket.messages [] (Receiver.delivered as) ∧
      (s.reader = .reading → s.obtained.getLast? = some (s.ring.payload (s.ring.tailSlot L))) := by
  have hgood := Receiver.run_good hf h
  refine ⟨?_, fun hr => ?_⟩
  · rw [← Receiver.run_log h]
    exact hgood.queued
  · have hst := hgood.stored
    rw [hr] at hst
    exact hst.last

/-- A message of five bytes is promoted after the second, while the only block is taken; the connection ends within
the next one. -/
theorem reassembles_promoted :
    let L : Layout := ⟨2, 8, 64, 4, by decide, by decide⟩
    let frame (f : Websocket.FrameType) (d : List UInt8) : DataAct := .read ⟨.ok, d, f, .none⟩
    let as : List DataAct := [
      .check, .prepare true, frame .fragment [1, 2], .check, .prepare true, frame .message [3],
      .check, .prepare true, frame .fragment [4, 5], .check, .prepare true, .peek, .hand,
      .check, .prepare true, frame .fragment [6], .release, .check, .prepare true, frame .message [7, 8],
      .check, .prepare true, frame .fragment [9], .peek, .check, .prepare true, .read ⟨.timeout, [], .fragment, .none⟩]
    (as.foldl (Receiver.step L ⟨false, 3, 3⟩ 4) (Receiver.init [0])).obtained = [[1, 2, 3], [4, 5, 6, 7, 8]] ∧
      Websocket.messages [] (Receiver.delivered as) = [[1, 2, 3], [4, 5, 6, 7, 8]] ∧
      (as.foldl (Receiver.step L ⟨false, 3, 3⟩ 4) (Receiver.init [0])).obtained ++
        (as.foldl (Receiver.step L ⟨false, 3, 3⟩ 4) (Receiver.init [0])).queued L =
          Websocket.messages [] (Receiver.delivered as) := by
  intro L frame as
  have hadm : Admitted (Receiver.step L ⟨false, 3, 3⟩ 4) (Receiver.Enabled L) (Receiver.init [0]) as := by
    decide +kernel
  have hrun : Run (Receiver.Step L ⟨false, 3, 3⟩ 4) (fun _ _ => True) (Receiver.init [0]) as
      (as.foldl (Receiver.step L ⟨false, 3, 3⟩ 4) (Receiver.init [0])) :=
    (Run.of_admitted (fun _ _ he => ⟨he, rfl⟩) hadm).mono fun _ _ _ => trivial
  exact ⟨by decide +kernel, by decide +kernel, (reassembles L ⟨false, 3, 3⟩ 4 (by decide) hrun).1⟩

end Wirekrak.Transport

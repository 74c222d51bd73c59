import Wirekrak.Transport.Reassembly

/-!
# Wirekrak.Transport.Oversized — messages that are longer than a block

A slot grows once, from its inline storage to a block of the pool.  `promote_slot_` treats a message that has filled its
block like a pool that is empty for a moment: it asks the policy, and under every policy but zero tolerance the loop
comes back to the same promotion.

* `Oversized L s`: the message in hand has filled its block and is not complete.
* `GivesUp L q s`: in every run from here the promotion is tried again only so many times, every run goes on to the last
  of them, and this one drops the message and reports an error.
* `oversized_gives_up_iff`: it does, exactly under zero tolerance.
-/

namespace Wirekrak.Transport

open Wirekrak.Lib Wirekrak.Buffer

/-- `FRAME_SIZE_HINT`. -/
def frameSizeHint : ℕ := 16 * 1024

/-! ## The promotion -/

/-- A slot that has filled its block cannot be promoted any further. -/
theorem reserve_full {L : Layout} {i : ℕ} {r : ManagedRing} (hblock : (r.slots i).external.isSome = true)
    (hfull : (r.slots i).remaining L = 0) : r.reserve L frameSizeHint i = (r, .tooLarge) := by
  obtain ⟨b, hb⟩ := Option.isSome_iff_exists.mp hblock
  have hcap : (r.slots i).capacity L = L.blockSize := if_pos hblock
  have hsize : L.blockSize ≤ (r.slots i).size := by
    unfold ManagedSlot.remaining at hfull
    omega
  have hfits := L.fits
  unfold ManagedRing.reserve frameSizeHint
  dsimp only
  split_ifs with h1 h2 h3
  · rfl
  · rfl
  · omega
  · unfold ManagedRing.promoteIfNeeded
    rw [if_neg (by omega), hb]
    dsimp only
    rw [if_neg (by omega)]

namespace Engine

variable {q : Pressure} {e : Engine}

/-- No `BackpressureDetected` waits to be pushed. -/
def Calm (e : Engine) : Prop :=
  .backpressureDetected ∉ e.outbox

theorem Calm.emit (h : e.Calm) {ev : Websocket.Event} (hev : ev ≠ .backpressureDetected) : (emitEvent ev e).Calm := by
  intro hm
  rcases List.mem_append.mp hm with hm | hm
  · exact h hm
  · exact hev (List.mem_singleton.mp hm).symm

theorem Calm.signalClose (h : e.Calm) : (signalClose e).Calm := by
  unfold Engine.signalClose
  split
  · exact h
  · exact Calm.emit (e := { e with closeSignaled := true }) h (by rintro ⟨⟩)

theorem Calm.exit (h : e.Calm) : (exit e).Calm :=
  Calm.signalClose (e := { e with loop := .exited }) h

theorem Calm.handleFatalError (h : e.Calm) (error : Error) : (handleFatalError error e).Calm := by
  unfold Engine.handleFatalError
  split
  · have hemit : (emitEvent (.error error) { e with running := false }).Calm :=
      Calm.emit (e := { e with running := false }) h (by rintro ⟨⟩)
    exact hemit.signalClose
  · exact h

theorem Calm.check (h : e.Calm) : (check e).Calm := by
  unfold Engine.check
  split
  · exact h
  · exact h.exit

theorem Calm.receive (h : e.Calm) (r : Websocket.ReadResult) : (receive r e).Calm := by
  unfold Engine.receive
  split_ifs
  · exact Calm.exit (e := { emitEvent _ e with running := false }) (h.emit (by rintro ⟨⟩))
  · exact Calm.exit (e := { emitEvent _ e with running := false }) (h.emit (by rintro ⟨⟩))
  · exact Calm.exit (e := { e with running := false }) h
  · exact Calm.exit (e := { emitEvent _ e with running := false }) (h.emit (by rintro ⟨⟩))
  · exact h

/-- A push that fails does no harm. -/
theorem Calm.pushed (h : e.Calm) (fits : Bool) : (pushed fits e).Calm ∧ (pushed fits e).running = e.running := by
  unfold Engine.pushed
  cases ho : e.outbox with
  | nil => exact ⟨h, rfl⟩
  | cons ev rest =>
    have hrest : Calm { e with outbox := rest } := by
      intro hm
      exact h (by rw [ho]; exact List.mem_cons_of_mem _ hm)
    have hev : ev ≠ .backpressureDetected := by
      rintro rfl
      exact h (by rw [ho]; exact List.mem_cons_self)
    dsimp only
    split_ifs
    · exact ⟨hrest, rfl⟩
    · exact ⟨hrest, rfl⟩

end Engine

namespace Receiver

variable {L : Layout} {q : Pressure} {s s' : Receiver} {as : List DataAct} {free : List ℕ}

/-- Under zero tolerance nothing is told but errors and the close. -/
theorem calm_step (hq : q.zeroTolerance = true) {hint : ℕ} {a : DataAct} (h : s.engine.Calm)
    (hs : Step L q hint s a s') : s'.engine.Calm := by
  obtain ⟨-, rfl⟩ := hs
  have hrefuse : ∀ pool, (s.engine.refuse q pool).Calm := by
    intro pool
    unfold Engine.refuse
    rw [if_pos hq]
    exact h.handleFatalError _
  have hgrant : ∀ got, (s.engine.grant q got).Calm := by
    intro got
    unfold Engine.grant
    rw [if_pos hq]
    exact h
  cases a with
  | check =>
    change (leave L { s with engine := s.engine.check }).engine.Calm
    unfold leave
    split
    · exact h.check
    · exact h.check
  | prepare last =>
    change (s.prepare L q hint last).engine.Calm
    unfold prepare acquireSlot promoteSlot
    dsimp only
    split_ifs
    · exact hgrant _
    · exact hrefuse _
    · exact h
    · exact hgrant _
    · exact hrefuse _
    · exact h
    · exact h
  | read r =>
    change (s.read L r).engine.Calm
    unfold read leave
    dsimp only
    split_ifs
    · exact h.receive r
    · exact h.receive r
    · exact h.receive r
    · exact h.receive r
  | push fits => exact (h.pushed fits).1
  | close =>
    change s.engine.close.Calm
    unfold Engine.close
    split
    · exact h
    · exact h
  | peek => exact h
  | hand => exact h
  | release => exact h
  | restart => exact List.not_mem_nil

theorem run_calm (hq : q.zeroTolerance = true) {hint : ℕ}
    (h : Run (Step L q hint) (fun _ _ => True) (init free) as s) : s.engine.Calm :=
  h.invariant List.not_mem_nil fun _ _ _ ih _ hs => calm_step hq ih hs

/-! ## Messages that are completed -/

/-- Every message that is completed fits into a block. -/
theorem messages_fit_step {hint : ℕ} {a : DataAct} (hg : Good L s)
    (h : ∀ m ∈ Websocket.messages [] s.log, m.length ≤ L.blockSize) (hs : Step L q hint s a s') :
    ∀ m ∈ Websocket.messages [] s'.log, m.length ≤ L.blockSize := by
  obtain ⟨he, rfl⟩ := hs
  cases a with
  | check =>
    change ∀ m ∈ Websocket.messages [] (leave L { s with engine := s.engine.check }).log, _
    rw [leave_log]
    exact h
  | prepare last =>
    change ∀ m ∈ Websocket.messages [] (s.prepare L q hint last).log, _
    rw [prepare_log]
    exact h
  | read r =>
    change ∀ m ∈ Websocket.messages [] (s.read L r).log, _
    obtain ⟨hb, hp, -, hfit⟩ := he
    obtain ⟨hlog, hin⟩ := hg.live (.inl hb)
    unfold InHand at hin
    rw [if_pos (hg.held hp).1] at hin
    rw [read_log, Websocket.messages_concat hlog]
    intro m hm
    rcases List.mem_append.mp hm with hm | hm
    · exact h m hm
    · split_ifs at hm
      · -- the bytes before are those of the slot, and there was room for the others
        rw [List.mem_singleton.mp hm, List.length_append, ← hin, ManagedRing.payload, List.length_map,
          List.length_range]
        have hsize := hg.stored.sizes (s.ring.headSlot L)
        have hcap : (s.ring.slots (s.ring.headSlot L)).capacity L ≤ L.blockSize := by
          unfold ManagedSlot.capacity
          split
          · exact Nat.le_refl _
          · exact L.fits
        unfold slot ManagedSlot.remaining at hfit
        omega
      · cases hm
  | push fits => exact h
  | close => exact h
  | peek => exact h
  | hand => exact h
  | release => exact h
  | restart => exact fun m hm => by cases hm

theorem messages_fit {hint : ℕ} (hf : free.Nodup) (h : Run (Step L q hint) (fun _ _ => True) (init free) as s) :
    ∀ m ∈ Websocket.messages [] s.log, m.length ≤ L.blockSize :=
  (h.invariant (I := fun s => Good L s ∧ ∀ m ∈ Websocket.messages [] s.log, m.length ≤ L.blockSize)
    ⟨good_init hf, fun m hm => by cases hm⟩
    fun _ _ _ ih _ hs => ⟨good_step ih.1 hs, messages_fit_step ih.1 ih.2 hs⟩).2

/-! ## The message that does not fit -/

/-- The message in hand has filled its block, and the loop is to ask for more room. -/
structure Oversized (L : Layout) (s : Receiver) : Prop where
  running : s.engine.running = true
  looping : s.engine.loop ≠ .exited
  current : s.current = true
  waiting : s.prepared = false
  block : (s.slot L).external.isSome = true
  full : (s.slot L).remaining L = 0

/-- The message is dropped, the loop is to end, and an error is to be reported. -/
structure Dropped (s : Receiver) : Prop where
  running : s.engine.running = false
  looping : s.engine.loop = .head
  current : s.current = false
  error : .error .backpressure ∈ s.engine.outbox

/-- Nobody closes the engine, or starts another one. -/
def Unforced (_ : Receiver) (a : DataAct) : Prop :=
  a ≠ .close ∧ a ≠ .restart

/-- The promotion is tried at most `n` times; a run in which it was not yet tried so often can be continued up to its
`n`-th refusal; and this refusal drops the message. -/
structure GivesUpAfter (L : Layout) (q : Pressure) (s : Receiver) (n : ℕ) : Prop where
  tried : 0 < n
  most : ∀ as s', Run (Step L q frameSizeHint) Unforced s as s' → as.count (.prepare true) ≤ n
  reached : ∀ as s', Run (Step L q frameSizeHint) Unforced s as s' → as.count (.prepare true) < n →
    ∃ bs u, Run (Step L q frameSizeHint) Unforced s' (bs ++ [.prepare true]) u ∧
      as.count (.prepare true) + (bs ++ [.prepare true]).count (.prepare true) = n
  dropped : ∀ as s', Run (Step L q frameSizeHint) Unforced s (as ++ [.prepare true]) s' →
    (as ++ [.prepare true]).count (.prepare true) = n → s'.Dropped

/-- The message is given up after finitely many refusals, at least one. -/
def GivesUp (L : Layout) (q : Pressure) (s : Receiver) : Prop :=
  ∃ n, s.GivesUpAfter L q n

/-- What the loop does in the end of its spins, and what the others leave as it is. -/
theorem Oversized.prepare (h : s.Oversized L) (last : Bool) :
    s.prepare L q frameSizeHint last =
      if last then
        if q.zeroTolerance then
          discard L { s with engine := { s.engine.refuse q true with loop := .head } }
        else { s with engine := { s.engine.refuse q true with loop := .head } }
      else s := by
  unfold Receiver.prepare
  rw [if_neg (by rw [h.current]; decide), if_pos h.full]
  unfold promoteSlot
  rw [reserve_full h.block h.full]
  rfl

/-! ## Back to the promotion -/

section Enter

variable {u : Receiver}

/-- Everything that waits is pushed. -/
theorem Oversized.flush (h : s.Oversized L) (hr : Run (Step L q frameSizeHint) Unforced u as s) :
    ∃ as' s', Run (Step L q frameSizeHint) Unforced u as' s' ∧ s'.Oversized L ∧ s'.engine.outbox = [] ∧
      as'.count (.prepare true) = as.count (.prepare true) := by
  obtain ⟨k, hk⟩ : ∃ k, k = s.engine.outbox.length := ⟨_, rfl⟩
  induction k generalizing as s with
  | zero => exact ⟨as, s, hr, h, List.length_eq_zero_iff.mp hk.symm, rfl⟩
  | succ k ih =>
    have hne : s.engine.outbox ≠ [] := by
      intro h0
      rw [h0] at hk
      cases hk
    have hpush : s.engine.pushed true = { s.engine with outbox := s.engine.outbox.tail } := by
      unfold Engine.pushed
      cases ho : s.engine.outbox with
      | nil => exact absurd ho hne
      | cons ev rest => rfl
    have hu : s.Unforced (.push true) := ⟨by rintro ⟨⟩, by rintro ⟨⟩⟩
    have hstep : Step L q frameSizeHint s (.push true)
        { s with engine := { s.engine with outbox := s.engine.outbox.tail } } := by
      refine ⟨hne, ?_⟩
      change ({ s with engine := s.engine.pushed true } : Receiver) = _
      rw [hpush]
    obtain ⟨as', s', hr', ho, hout, hcount⟩ :=
      ih (s := { s with engine := { s.engine with outbox := s.engine.outbox.tail } })
        ⟨h.running, h.looping, h.current, h.waiting, h.block, h.full⟩ (hr.snoc hu hstep)
        (by simp [← hk])
    refine ⟨as', s', hr', ho, hout, ?_⟩
    rw [hcount, List.count_append]
    rfl

/-- The loop is entered again. -/
theorem Oversized.enter (h : s.Oversized L) (hr : Run (Step L q frameSizeHint) Unforced u as s) :
    ∃ as' s', Run (Step L q frameSizeHint) Unforced u as' s' ∧ s'.Oversized L ∧ s'.engine.outbox = [] ∧
      s'.engine.loop = .body ∧ as'.count (.prepare true) = as.count (.prepare true) := by
  obtain ⟨as', s', hr', h', hout, hcount⟩ := h.flush hr
  cases hl : s'.engine.loop with
  | exited => exact absurd hl h'.looping
  | body => exact ⟨as', s', hr', h', hout, hl, hcount⟩
  | head =>
    have hu : s'.Unforced .check := ⟨by rintro ⟨⟩, by rintro ⟨⟩⟩
    have hstep : Step L q frameSizeHint s' .check { s' with engine := { s'.engine with loop := .body } } := by
      refine ⟨⟨hl, hout⟩, ?_⟩
      change leave L { s' with engine := s'.engine.check } = _
      have hcheck : s'.engine.check = { s'.engine with loop := .body } := if_pos h'.running
      rw [hcheck, leave, if_neg (by simp)]
    refine ⟨_, _, hr'.snoc hu hstep,
      ⟨h'.running, by rintro ⟨⟩, h'.current, h'.waiting, h'.block, h'.full⟩, hout, rfl, ?_⟩
    rw [List.count_append, hcount]
    rfl

end Enter

/-! ## Zero tolerance -/

/-- Only the promotion moves the slot in hand. -/
theorem Oversized.step (h : s.Oversized L) (hg : Good L s) (hc : s.engine.Calm) {a : DataAct} (hu : s.Unforced a)
    (hs : Step L q frameSizeHint s a s') (ha : a ≠ .prepare true) : s'.Oversized L := by
  obtain ⟨he, rfl⟩ := hs
  cases a with
  | check =>
    change Oversized L (leave L { s with engine := s.engine.check })
    have hcheck : s.engine.check = { s.engine with loop := .body } := if_pos h.running
    rw [hcheck, leave, if_neg (by simp)]
    exact ⟨h.running, by rintro ⟨⟩, h.current, h.waiting, h.block, h.full⟩
  | prepare last =>
    cases last with
    | true => exact absurd rfl ha
    | false =>
      change Oversized L (s.prepare L q frameSizeHint false)
      rw [h.prepare, if_neg (by decide)]
      exact h
  | read r =>
    have hp := he.2.1
    rw [h.waiting] at hp
    cases hp
  | push fits =>
    obtain ⟨-, hrun⟩ := hc.pushed fits
    exact ⟨hrun.trans h.running, fun hx => h.looping ((Engine.pushed_loop s.engine fits).1.symm.trans hx), h.current,
      h.waiting, h.block, h.full⟩
  | close => exact absurd rfl hu.1
  | peek => exact ⟨h.running, h.looping, h.current, h.waiting, h.block, h.full⟩
  | hand =>
    -- the slot that the consumer gives back is another one
    have hst := hg.stored
    rw [h.current, show s.reader = .reading from he] at hst
    have hne := hst.slot_ne_head (Nat.le_refl _) (hst.reading (by simp))
    have hslot : ({ s with reader := .handing, ring := s.ring.reset (s.ring.tailSlot L) } : Receiver).slot L =
        s.slot L :=
      (ManagedRing.only_reset hst.owned (s.ring.tailSlot L)).slots _ hne.symm
    refine ⟨h.running, h.looping, h.current, h.waiting, ?_, ?_⟩
    · change (({ s with reader := .handing, ring := _ } : Receiver).slot L).external.isSome = true
      rw [hslot]
      exact h.block
    · change (({ s with reader := .handing, ring := _ } : Receiver).slot L).remaining L = 0
      rw [hslot]
      exact h.full
  | release => exact ⟨h.running, h.looping, h.current, h.waiting, h.block, h.full⟩
  | restart => exact absurd rfl hu.2

/-- Under zero tolerance the first refusal is the last. -/
theorem Oversized.dropped (h : s.Oversized L) (hq : q.zeroTolerance = true)
    (hs : Step L q frameSizeHint s (.prepare true) s') : s'.Dropped := by
  obtain ⟨-, rfl⟩ := hs
  change Dropped (s.prepare L q frameSizeHint true)
  have herror : .error .backpressure ∈ (s.engine.refuse q true).outbox := by
    unfold Engine.refuse Engine.handleFatalError Engine.signalClose
    rw [if_pos hq, if_pos h.running]
    split
    · simp [Engine.emitEvent]
    · simp [Engine.emitEvent]
  have hrun : (s.engine.refuse q true).running = false := by
    rw [Engine.refuse_running, if_pos hq]
  rw [h.prepare, if_pos rfl, if_pos hq]
  exact ⟨hrun, rfl, rfl, herror⟩

/-- The loop is not to be entered again. -/
def Ending (s : Receiver) : Prop :=
  s.engine.running = false ∧ s.engine.loop ≠ .body

theorem Ending.step (h : s.Ending) {hint : ℕ} {a : DataAct} (hu : s.Unforced a) (hs : Step L q hint s a s') :
    s'.Ending ∧ a ≠ .prepare true := by
  obtain ⟨he, rfl⟩ := hs
  cases a with
  | check =>
    refine ⟨?_, by rintro ⟨⟩⟩
    have hcheck : s.engine.check = s.engine.exit := if_neg (by rw [h.1]; decide)
    change Ending (leave L { s with engine := s.engine.check })
    rw [hcheck]
    have hexit : s.engine.exit.running = false ∧ s.engine.exit.loop ≠ .body := by
      unfold Engine.exit
      rw [Engine.signalClose_running, Engine.signalClose_loop]
      exact ⟨h.1, by rintro ⟨⟩⟩
    unfold leave
    split
    · exact hexit
    · exact hexit
  | prepare last => exact absurd he.1 h.2
  | read r => exact absurd he.1 h.2
  | push fits =>
    refine ⟨⟨?_, fun hx => h.2 ((Engine.pushed_loop s.engine fits).1.symm.trans hx)⟩, by rintro ⟨⟩⟩
    change (s.engine.pushed fits).running = false
    by_contra hr
    have hrun := (Engine.pushed_loop s.engine fits).2 (by simpa using hr)
    rw [h.1] at hrun
    cases hrun
  | close => exact absurd rfl hu.1
  | peek => exact ⟨h, by rintro ⟨⟩⟩
  | hand => exact ⟨h, by rintro ⟨⟩⟩
  | release => exact ⟨h, by rintro ⟨⟩⟩
  | restart => exact absurd rfl hu.2

/-- The message is in hand and was not refused yet, or it was refused once and the loop is to end. -/
theorem Oversized.run (h : s.Oversized L) (hg : Good L s) (hc : s.engine.Calm) (hq : q.zeroTolerance = true)
    (hr : Run (Step L q frameSizeHint) Unforced s as s') :
    (as.count (.prepare true) = 0 ∧ s'.Oversized L ∧ Good L s' ∧ s'.engine.Calm) ∨
      (as.count (.prepare true) = 1 ∧ s'.Ending) := by
  induction hr with
  | nil => exact .inl ⟨rfl, h, hg, hc⟩
  | @snoc as t u a _ hu hs ih =>
    rw [List.count_append]
    rcases ih with ⟨h0, ho, hg, hc⟩ | ⟨h1, hend⟩
    · by_cases ha : a = .prepare true
      · subst ha
        have hd := ho.dropped hq hs
        refine .inr ⟨by rw [h0]; rfl, hd.running, ?_⟩
        rw [hd.looping]
        rintro ⟨⟩
      · refine .inl ⟨?_, ho.step hg hc hu hs ha, good_step hg hs, calm_step hq hc hs⟩
        rw [h0, List.count_singleton, if_neg (by simpa using ha)]
    · obtain ⟨hend', ha⟩ := hend.step hu hs
      refine .inr ⟨?_, hend'⟩
      rw [h1, List.count_singleton, if_neg (by simpa using ha)]

theorem Oversized.givesUp (h : s.Oversized L) (hg : Good L s) (hc : s.engine.Calm) (hq : q.zeroTolerance = true) :
    s.GivesUp L q := by
  refine ⟨1, Nat.one_pos, fun as s' hr => ?_, fun as s' hr h0 => ?_, fun as s' hr h1 => ?_⟩
  · rcases h.run hg hc hq hr with ⟨h0, -⟩ | ⟨h1, -⟩
    · omega
    · omega
  · rcases h.run hg hc hq hr with ⟨hcount, ho, -⟩ | ⟨h1, -⟩
    · -- what waits is pushed, the loop is entered, and the promotion is tried
      obtain ⟨bs, t, hr', ho', hout, hbody, hbs⟩ := ho.enter (.nil : Run (Step L q frameSizeHint) Unforced s' [] s')
      have hu : t.Unforced (.prepare true) := ⟨by rintro ⟨⟩, by rintro ⟨⟩⟩
      refine ⟨bs, _, hr'.snoc hu ⟨⟨hbody, ho'.waiting, hout⟩, rfl⟩, ?_⟩
      rw [List.count_append, List.count_singleton_self, hcount, hbs]
      rfl
    · omega
  · obtain ⟨t, hr, -, hs⟩ := hr.of_concat
    rw [List.count_append, List.count_singleton_self] at h1
    rcases h.run hg hc hq hr with ⟨-, ho, -⟩ | ⟨h1', -⟩
    · exact ho.dropped hq hs
    · omega

/-! ## Every other policy -/

section Tolerant

variable {u : Receiver} (hq : q.zeroTolerance = false)

include hq in
/-- **The promotion is refused once more**, and everything is as before. -/
theorem Oversized.retry (h : s.Oversized L) (hr : Run (Step L q frameSizeHint) Unforced u as s) :
    ∃ as' s', Run (Step L q frameSizeHint) Unforced u as' s' ∧ s'.Oversized L ∧
      as'.count (.prepare true) = as.count (.prepare true) + 1 := by
  obtain ⟨as', s', hr', h', hout, hbody, hcount⟩ := h.enter hr
  have hu : s'.Unforced (.prepare true) := ⟨by rintro ⟨⟩, by rintro ⟨⟩⟩
  have hstep : Step L q frameSizeHint s' (.prepare true)
      { s' with engine := { s'.engine.refuse q true with loop := .head } } := by
    refine ⟨⟨hbody, h'.waiting, hout⟩, ?_⟩
    change s'.prepare L q frameSizeHint true = _
    rw [h'.prepare, if_pos rfl, if_neg (by rw [hq]; decide)]
  have hrun : (s'.engine.refuse q true).running = true := by
    rw [Engine.refuse_running, if_neg (by rw [hq]; decide)]
    exact h'.running
  refine ⟨_, _, hr'.snoc hu hstep, ⟨hrun, by rintro ⟨⟩, h'.current, h'.waiting, h'.block, h'.full⟩, ?_⟩
  rw [List.count_append, hcount, List.count_singleton_self]

include hq in
/-- **No number of refusals ends it.** -/
theorem Oversized.retries (h : s.Oversized L) (n : ℕ) :
    ∃ as s', Run (Step L q frameSizeHint) Unforced s as s' ∧ s'.Oversized L ∧ as.count (.prepare true) = n := by
  induction n with
  | zero => exact ⟨[], s, .nil, h, rfl⟩
  | succ n ih =>
    obtain ⟨as, s', hr, ho, hcount⟩ := ih
    obtain ⟨as', s'', hr', ho', hcount'⟩ := ho.retry hq hr
    exact ⟨as', s'', hr', ho', by rw [hcount', hcount]⟩

end Tolerant

/-! ## A message that fills its block -/

/-- A read of `n` bytes that do not complete the message. -/
def fragment (n : ℕ) : Websocket.ReadResult :=
  ⟨.ok, List.replicate n 0, .fragment, .none⟩

theorem read_fragment {n : ℕ} (hn : 0 < n) :
    s.read L (fragment n) = { s with
      ring := (s.ring.fill (s.ring.headSlot L) (List.replicate n 0)).commit (s.ring.headSlot L) n
      engine := { s.engine with loop := .head }, prepared := false, log := s.log ++ [fragment n] } := by
  have hne : List.replicate n (0 : UInt8) ≠ [] := by
    rw [← List.length_pos_iff, List.length_replicate]
    exact hn
  have hreceive : s.engine.receive (fragment n) = { s.engine with loop := .head } := by
    simp [Engine.receive, fragment, hne]
  unfold read
  rw [hreceive]
  simp [fragment]

theorem slot_read_fragment {n : ℕ} (hn : 0 < n) :
    ((s.read L (fragment n)).slot L).size = (s.slot L).size + n ∧
      ((s.read L (fragment n)).slot L).external = (s.slot L).external := by
  obtain ⟨hsize, hext⟩ := ManagedRing.fill_slots (i := s.ring.headSlot L) (List.replicate n 0) s.ring
  have hhead : (s.ring.fill (s.ring.headSlot L) (List.replicate n 0)).head = s.ring.head := by
    unfold ManagedRing.fill
    split
    · rfl
    · rfl
  have hslot : (s.read L (fragment n)).slot L =
      ((s.ring.fill (s.ring.headSlot L) (List.replicate n 0)).commit (s.ring.headSlot L) n).slots (s.ring.headSlot L) := by
    rw [read_fragment hn]
    exact congrArg _ (congrArg (· % L.capacity) hhead)
  rw [hslot]
  unfold ManagedRing.commit
  dsimp only
  rw [Function.update_self]
  exact ⟨congrArg (· + n) hsize, hext⟩

/-- The first block of the pool is attached. -/
theorem reserve_inline {i b : ℕ} {rest : List ℕ} {r : ManagedRing} (hext : (r.slots i).external = none)
    (hsize : (r.slots i).size = L.inlineSize) (hfree : r.free = b :: rest)
    (hblock : L.inlineSize + frameSizeHint ≤ L.blockSize) (hmax : L.inlineSize + frameSizeHint ≤ L.maxReserveSize)
    (h64 : L.maxReserveSize < 2 ^ 64) :
    ∃ r', r.reserve L frameSizeHint i = (r', .success) ∧ r'.head = r.head ∧ (r'.slots i).external = some b ∧
      (r'.slots i).size = L.inlineSize := by
  have hcap : (r.slots i).capacity L = L.inlineSize := by
    unfold ManagedSlot.capacity
    rw [hext]
    rfl
  have hhint : 0 < frameSizeHint := by decide
  have hreq : (L.inlineSize + frameSizeHint) % 2 ^ 64 = L.inlineSize + frameSizeHint := Nat.mod_eq_of_lt (by omega)
  unfold ManagedRing.reserve
  dsimp only
  rw [hsize, hreq, hcap, if_neg (by omega), if_neg (by omega), if_neg (by omega)]
  unfold ManagedRing.promoteIfNeeded
  rw [if_neg (by omega), hext, hfree, if_pos hblock]
  refine ⟨_, rfl, rfl, ?_, ?_⟩
  · simp
  · simp [hsize]

/-- The message in hand has `n` bytes, in `block` or inline; `ready` says that the loop is to read. -/
structure Assembling (L : Layout) (ready : Bool) (block : Option ℕ) (n : ℕ) (s : Receiver) : Prop where
  engine : s.engine = { loop := if ready then .body else .head }
  current : s.current = true
  prepared : s.prepared = ready
  external : (s.slot L).external = block
  size : (s.slot L).size = n

/-- A fragment is read. -/
theorem Assembling.read {block : Option ℕ} {n k : ℕ} (h : s.Assembling L true block n) (hk : 0 < k)
    (hfit : k ≤ (s.slot L).remaining L) :
    Step L q frameSizeHint s (.read (fragment k)) (s.read L (fragment k)) ∧
      (s.read L (fragment k)).Assembling L false block (n + k) ∧ (s.read L (fragment k)).ring.free = s.ring.free := by
  obtain ⟨hsize, hext⟩ := slot_read_fragment (L := L) (s := s) hk
  have hlen : (fragment k).data.length ≤ (s.slot L).remaining L := by
    simpa [fragment] using hfit
  refine ⟨⟨⟨by rw [h.engine]; rfl, h.prepared, by rw [h.engine], hlen⟩, rfl⟩, ⟨?_, ?_, ?_, ?_, ?_⟩, ?_⟩
  · rw [read_fragment hk, h.engine]
    rfl
  · rw [read_fragment hk]
    exact h.current
  · rw [read_fragment hk]
  · rw [hext, h.external]
  · rw [hsize, h.size]
  · rw [read_fragment hk]
    unfold ManagedRing.fill
    split
    · rfl
    · rfl

theorem grant_body (q : Pressure) (got : Acquired) : Engine.grant q got { loop := .body } = { loop := .body } := by
  unfold Engine.grant Engine.noteRing Engine.notePool Hysteresis.onInactiveSignal
  cases got <;> cases q.zeroTolerance <;> rfl

/-- The first fragment fills the inline storage. -/
theorem run_inline (q : Pressure) (free : List ℕ) (hin : 0 < L.inlineSize) :
    ∃ as s, Run (Step L q frameSizeHint) (fun _ _ => True) (init free) as s ∧ s.Assembling L false none L.inlineSize ∧
      s.ring.free = free := by
  have hcap := L.two_le
  have hcheck : Step L q frameSizeHint (init free) .check { init free with engine := { loop := .body } } :=
    ⟨⟨rfl, rfl⟩, rfl⟩
  have hacquire : Step L q frameSizeHint { init free with engine := { loop := .body } } (.prepare true)
      { init free with current := true, prepared := true, engine := { loop := .body } } := by
    refine ⟨⟨rfl, rfl, rfl⟩, ?_⟩
    change acquireSlot L q true { init free with engine := { loop := .body } } = _
    unfold acquireSlot
    rw [if_pos (by simp [ManagedRing.room, init]; omega), grant_body]
  have hready : Assembling L true none 0
      { init free with current := true, prepared := true, engine := { loop := .body } } :=
    ⟨rfl, rfl, rfl, rfl, rfl⟩
  obtain ⟨hread, hassembling, hfree⟩ := hready.read (q := q) hin (Nat.le_refl L.inlineSize)
  rw [Nat.zero_add] at hassembling
  exact ⟨_, _, ((Run.nil.snoc trivial hcheck).snoc trivial hacquire).snoc trivial hread, hassembling, hfree⟩

/-- The slot is promoted, and a fragment fills its block. -/
theorem Assembling.run_block {b : ℕ} {rest : List ℕ} {u : Receiver} (h : s.Assembling L false none L.inlineSize)
    (hfree : s.ring.free = b :: rest) (hr : Run (Step L q frameSizeHint) (fun _ _ => True) u as s)
    (hblock : L.inlineSize + frameSizeHint ≤ L.blockSize) (hmax : L.inlineSize + frameSizeHint ≤ L.maxReserveSize)
    (h64 : L.maxReserveSize < 2 ^ 64) :
    ∃ as' s', Run (Step L q frameSizeHint) (fun _ _ => True) u as' s' ∧
      s'.Assembling L false (some b) L.blockSize := by
  have hhint : 0 < frameSizeHint := by decide
  have hcheck : Step L q frameSizeHint s .check { s with engine := { loop := .body } } := by
    refine ⟨by rw [Enabled, h.engine]; exact ⟨rfl, rfl⟩, ?_⟩
    change leave L { s with engine := s.engine.check } = _
    rw [h.engine]
    rfl
  obtain ⟨r, hreserve, hhead, hext, hsize⟩ :=
    reserve_inline (i := s.ring.headSlot L) h.external h.size hfree hblock hmax h64
  have hfull : (slot L { s with engine := { loop := .body } }).remaining L = 0 := by
    change (s.slot L).remaining L = 0
    unfold ManagedSlot.remaining ManagedSlot.capacity
    rw [h.external, h.size]
    simp
  have hpromote : Step L q frameSizeHint { s with engine := { loop := .body } } (.prepare true)
      { s with ring := r, prepared := true, engine := { loop := .body } } := by
    refine ⟨⟨rfl, h.prepared, rfl⟩, ?_⟩
    change Receiver.prepare L q frameSizeHint true { s with engine := { loop := .body } } = _
    unfold Receiver.prepare
    rw [if_neg (by rw [h.current]; decide), if_pos hfull]
    unfold promoteSlot
    dsimp only
    rw [hreserve, grant_body]
    rfl
  have hslot : slot L { s with ring := r, prepared := true, engine := { loop := .body } } =
      r.slots (s.ring.headSlot L) :=
    congrArg r.slots (congrArg (· % L.capacity) hhead)
  have hready : Assembling L true (some b) L.inlineSize
      { s with ring := r, prepared := true, engine := { loop := .body } } :=
    ⟨rfl, h.current, rfl, by rw [hslot, hext], by rw [hslot, hsize]⟩
  have hroom : L.blockSize - L.inlineSize ≤
      (slot L { s with ring := r, prepared := true, engine := { loop := .body } }).remaining L := by
    rw [hslot]
    simp [ManagedSlot.remaining, ManagedSlot.capacity, hext, hsize]
  obtain ⟨hread, hassembling, -⟩ := hready.read (q := q) (by omega) hroom
  rw [Nat.add_sub_cancel' L.fits] at hassembling
  exact ⟨_, _, ((hr.snoc trivial hcheck).snoc trivial hpromote).snoc trivial hread, hassembling⟩

/-- **A message that is not complete fills a block**, whatever the policy is. -/
theorem reaches_oversized (q : Pressure) (b : ℕ) (rest : List ℕ) (hin : 0 < L.inlineSize)
    (hblock : L.inlineSize + frameSizeHint ≤ L.blockSize) (hmax : L.inlineSize + frameSizeHint ≤ L.maxReserveSize)
    (h64 : L.maxReserveSize < 2 ^ 64) :
    ∃ as s, Run (Step L q frameSizeHint) (fun _ _ => True) (init (b :: rest)) as s ∧ s.Oversized L := by
  obtain ⟨as, s, hr, h, hfree⟩ := run_inline q (b :: rest) hin
  obtain ⟨as', s', hr', h'⟩ := h.run_block hfree hr hblock hmax h64
  refine ⟨as', s', hr', ?_, ?_, h'.current, h'.prepared, ?_, ?_⟩
  · rw [h'.engine]
  · rw [h'.engine]
    rintro ⟨⟩
  · rw [h'.external]
    rfl
  · unfold ManagedSlot.remaining ManagedSlot.capacity
    rw [h'.external, h'.size]
    simp

/-! ## The result -/

/-- **A message that is longer than a block** is never completed; the loop gives it up just under zero tolerance. -/
theorem oversized_gives_up_iff (hf : free.Nodup)
    (h : Run (Step L q frameSizeHint) (fun _ _ => True) (init free) as s) :
    (∀ m ∈ Websocket.messages [] s.log, m.length ≤ L.blockSize) ∧
      (s.Oversized L → (s.GivesUp L q ↔ q.zeroTolerance = true)) := by
  refine ⟨messages_fit hf h, fun ho => ⟨fun hgives => ?_, fun hq => ?_⟩⟩
  · by_contra hq
    obtain ⟨n, hgives⟩ := hgives
    obtain ⟨as', s', hr, -, hcount⟩ := ho.retries (q := q) (by simpa using hq) (n + 1)
    have := hgives.most as' s' hr
    omega
  · exact ho.givesUp (run_good hf h) (run_calm hq h) hq

/-- Slots of 1 KiB, blocks of 128 KiB. -/
def defaultLayout : Layout := ⟨1024, 128 * 1024, 1024 * 1024, 1024, by decide, by decide⟩

theorem oversized_gives_up_zero_tolerance :
    ∃ as s, Run (Step defaultLayout ⟨true, 1, 1⟩ frameSizeHint) (fun _ _ => True) (init [0]) as s ∧
      s.Oversized defaultLayout ∧ s.GivesUp defaultLayout ⟨true, 1, 1⟩ := by
  obtain ⟨as, s, hr, ho⟩ := reaches_oversized (L := defaultLayout) ⟨true, 1, 1⟩ 0 [] (by decide) (by decide) (by decide)
    (by decide)
  exact ⟨as, s, hr, ho, ((oversized_gives_up_iff (by decide) hr).2 ho).mpr rfl⟩

/-- Under a strict policy the loop tries the promotion again and again. -/
theorem oversized_retried_forever : ¬ ∀ (L : Layout) (q : Pressure) (free : List ℕ) (as : List DataAct) (s : Receiver),
    free.Nodup → Run (Step L q frameSizeHint) (fun _ _ => True) (init free) as s → s.Oversized L → s.GivesUp L q := by
  intro hall
  obtain ⟨as, s, hr, ho⟩ := reaches_oversized (L := defaultLayout) ⟨false, 1, 8⟩ 0 [] (by decide) (by decide) (by decide)
    (by decide)
  obtain ⟨n, hgives⟩ := hall defaultLayout ⟨false, 1, 8⟩ [0] as s (by decide) hr ho
  obtain ⟨as', s', hr', -, hcount⟩ := ho.retries (q := ⟨false, 1, 8⟩) rfl (n + 1)
  have := hgives.most as' s' hr'
  omega

end Receiver

end Wirekrak.Transport

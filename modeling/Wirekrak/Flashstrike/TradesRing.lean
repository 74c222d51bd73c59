import Wirekrak.Flashstrike.Termination
import Wirekrak.Lib.Fifo

/-!
# Wirekrak.Flashstrike.TradesRing — the matching loop and the ring that its trades go to

`emit_trade_event_` pushes a trade again and again while the trades ring is full, within the matching loop.  A consumer
pops the ring on a thread of its own.

* `Matching`: a call of `match_order_` at its loop, with the ring; a step is a round, a push that succeeds, or a pop.
* `emits`: with a consumer the call returns on every schedule.
* `alone_iff`: without one it returns just when its trades fit into the ring.
* `matching_terminates`: both, for every state that is reached with admissible ids, and every incoming order.
-/

namespace Wirekrak.Flashstrike

open Wirekrak.Lib

namespace Engine

/-- The ring has `TRADES_RING_BUFFER_SIZE` places and keeps one free. -/
def tradesRoom : ℕ := 1023

variable (cfg : Config) (side : Side)

/-- The next round of the loop, unless its condition fails. -/
def nextRound (s : Engine × Taker) : Except Fault (Option (Engine × Taker)) := do
  match ← s.1.book.getBestPriceLevel cfg side.opp with
  | none => return none
  | some (k, off) =>
    match (s.1.book.level k off).headIdx with
    | none => return none
    | some r =>
      if 0 < (taker s.1.book s.2).qty then
        let s' ← matchRound cfg side s.1 s.2 k off r
        return some s'
      else return none

/-- Where the call stands: about to look at the best level, pushing the trade of its round, or back. -/
inductive MatchPhase
  | looking
  | pushing (ev : TradeEvent)
  | returned

/-- A call of `match_order_`, and the ring. -/
structure Matching where
  state : Engine × Taker
  phase : MatchPhase
  ring : List TradeEvent

inductive MatchParty
  | engine
  | consumer

namespace Matching

/-- The call at its loop. -/
def start (s : Engine × Taker) (ring : List TradeEvent) : Matching := ⟨s, .looking, ring⟩

/-- A step of the engine's thread; a push that finds the ring full changes nothing. -/
def engineStep (m : Matching) : Option Matching :=
  match m.phase with
  | .looking =>
    match nextRound cfg side m.state with
    | .ok (some s') => s'.1.trades.getLast?.map fun ev => { m with state := s', phase := .pushing ev }
    | .ok none => some { m with phase := .returned }
    | .error _ => none
  | .pushing ev => (Fifo.push tradesRoom m.ring ev).map fun r => { m with ring := r, phase := .looking }
  | .returned => none

def consumerStep (m : Matching) : Option Matching :=
  match m.ring with
  | [] => none
  | _ :: r => some { m with ring := r }

def Steps (m : Matching) (p : MatchParty) (u : Matching) : Prop :=
  match p with
  | .engine => m.engineStep cfg side = some u
  | .consumer => m.consumerStep = some u

/-- The engine's thread on its own. -/
def Alone : Matching → Matching → Prop := Relation.ReflTransGen fun m u => m.engineStep cfg side = some u

end Matching

/-- The call returns: with a consumer on every schedule; without one just when its trades fit. -/
structure Returns (s : Engine × Taker) : Prop where
  emits : ∀ ring, Inevitable (Matching.Steps cfg side) (fun m => m.phase = .returned) (.start s ring)
  alone : ∀ ring, ring.length ≤ tradesRoom → ∀ s', Relation.ReflTransGen (Round cfg side) s s' →
    (∀ s'', ¬ Round cfg side s' s'') →
    ((∃ m, Matching.Alone cfg side (.start s ring) m ∧ m.phase = .returned) ↔
      ring.length + (s'.1.trades.length - s.1.trades.length) ≤ tradesRoom)

variable {cfg side} {e : Engine} {V : View} {t : Taker} {s s' : Engine × Taker}

/-! ## One round -/

theorem nextRound_eq_some_iff : nextRound cfg side s = .ok (some s') ↔ Round cfg side s s' := by
  unfold nextRound Round remaining
  cases hb : s.1.book.getBestPriceLevel cfg side.opp with
  | error f => exact iff_of_false (fun h => by cases h) (by rintro ⟨k, off, r, h, -⟩; cases h)
  | ok best =>
    cases best with
    | none => exact iff_of_false (fun h => by cases h) (by rintro ⟨k, off, r, h, -⟩; cases h)
    | some p =>
      obtain ⟨k, off⟩ := p
      simp only [bind, Except.bind]
      cases hh : (s.1.book.level k off).headIdx with
      | none =>
        refine iff_of_false (fun h => by cases h) ?_
        rintro ⟨k', off', r, h, hr, -⟩
        cases h
        rw [hh] at hr
        cases hr
      | some r =>
        dsimp only
        constructor
        · intro h
          split_ifs at h with hpos
          · refine ⟨k, off, r, rfl, hh, hpos, ?_⟩
            cases hm : matchRound cfg side s.1 s.2 k off r with
            | error f => rw [hm] at h; cases h
            | ok u => rw [hm] at h; cases h; rfl
          · cases h
        · rintro ⟨k', off', r', h, hr, hpos, hm⟩
          cases h
          rw [hh] at hr
          cases hr
          rw [if_pos hpos, hm]
          rfl

/-- The loop is its rounds, one after the other. -/
theorem matchLoop_succ (fuel : ℕ) : matchLoop cfg side (fuel + 1) s.1 s.2 = nextRound cfg side s >>= fun n =>
    match n with
    | none => .ok s
    | some s' => matchLoop cfg side fuel s'.1 s'.2 := by
  unfold nextRound
  rw [matchLoop]
  cases s.1.book.getBestPriceLevel cfg side.opp with
  | error f => rfl
  | ok best =>
    cases best with
    | none => rfl
    | some p =>
      obtain ⟨k, off⟩ := p
      simp only [bind, Except.bind]
      cases (s.1.book.level k off).headIdx with
      | none => rfl
      | some r =>
        dsimp only
        split_ifs
        · cases matchRound cfg side s.1 s.2 k off r <;> rfl
        · rfl

/-- A round adds one trade to the log. -/
theorem trades_round (hr : Round cfg side s s') : ∃ ev, s'.1.trades = s.1.trades ++ [ev] := by
  obtain ⟨k, off, r, -, -, -, hm⟩ := hr
  unfold matchRound at hm
  dsimp only at hm
  cases hb : removeIfFilled cfg (((fillTaker s.1.book _ s.2).1.modifyOrder r (fill _)).modifyLevel k off _) r with
  | error f => rw [hb] at hm; cases hm
  | ok b => rw [hb] at hm; cases hm; exact ⟨_, rfl⟩

/-- The book stands for a view, and the taker fits it. -/
def Sound (cfg : Config) (side : Side) (s : Engine × Taker) : Prop := ∃ V, s.1.book.Abs cfg V ∧ TakerOk V side s.2

theorem Sound.round (h : Sound cfg side s) (hr : Round cfg side s s') : Sound cfg side s' := by
  obtain ⟨V, hA, htk⟩ := h
  obtain ⟨V', hA', htk', -⟩ := round_progress hA htk hr
  exact ⟨V', hA', htk'⟩

/-- A bound on the rounds that are left. -/
def roundsLeft (cfg : Config) (side : Side) (s : Engine × Taker) : ℕ :=
  if 0 < remaining s then opposing cfg side s + 1 else 0

theorem roundsLeft_lt (h : Sound cfg side s) (hr : Round cfg side s s') : roundsLeft cfg side s' < roundsLeft cfg side s := by
  obtain ⟨V, hA, htk⟩ := h
  have hpos : 0 < remaining s := by
    obtain ⟨-, -, -, -, -, hpos, -⟩ := hr
    exact hpos
  obtain ⟨-, -, -, ⟨h1, -⟩ | ⟨-, -, h0⟩⟩ := round_progress hA htk hr
  · unfold roundsLeft
    rw [if_pos hpos]
    split_ifs <;> omega
  · unfold roundsLeft
    rw [if_pos hpos, if_neg (by omega)]
    exact Nat.succ_pos _

/-- No assertion fails: there is a round, or the loop is at its end. -/
theorem Sound.nextRound (h : Sound cfg side s) : (∃ s', Round cfg side s s') ∨ nextRound cfg side s = .ok none := by
  obtain ⟨V, hA, htk⟩ := h
  rcases matchLoop_round hA htk 0 with ⟨s', hr, -⟩ | ⟨hno, hok⟩
  · exact .inl ⟨s', hr⟩
  · refine .inr ?_
    rw [matchLoop_succ] at hok
    cases hn : Engine.nextRound cfg side s with
    | error f => rw [hn] at hok; cases hok
    | ok n =>
      cases n with
      | none => rfl
      | some s' => exact absurd (nextRound_eq_some_iff.mp hn) (hno s')

/-! ## Steps of the engine's thread -/

namespace Matching

variable {m u : Matching} {ring : List TradeEvent}

/-- What is still to be pushed of the last round. -/
def pending (m : Matching) : ℕ :=
  match m.phase with
  | .pushing _ => 1
  | _ => 0

/-- A bound on the steps that are left. -/
def work (cfg : Config) (side : Side) (m : Matching) : ℕ :=
  m.ring.length + match m.phase with
    | .looking => 3 * roundsLeft cfg side m.state + 1
    | .pushing _ => 3 * roundsLeft cfg side m.state + 3
    | .returned => 0

/-- What a step of the engine's thread does. -/
theorem engineStep_cases (h : m.engineStep cfg side = some u) :
    (∃ s' ev, m.phase = .looking ∧ Round cfg side m.state s' ∧ s'.1.trades = m.state.1.trades ++ [ev] ∧
      u = { m with state := s', phase := .pushing ev }) ∨
    (m.phase = .looking ∧ (∀ s', ¬ Round cfg side m.state s') ∧ u = { m with phase := .returned }) ∨
    ∃ ev, m.phase = .pushing ev ∧ m.ring.length < tradesRoom ∧
      u = { m with ring := m.ring ++ [ev], phase := .looking } := by
  unfold engineStep at h
  cases hp : m.phase with
  | looking =>
    rw [hp] at h
    dsimp only at h
    cases hn : Engine.nextRound cfg side m.state with
    | error f => rw [hn] at h; cases h
    | ok n =>
      rw [hn] at h
      cases n with
      | none =>
        cases h
        refine .inr (.inl ⟨rfl, fun s' hr => ?_, rfl⟩)
        rw [nextRound_eq_some_iff.mpr hr] at hn
        cases hn
      | some s' =>
        have hr := nextRound_eq_some_iff.mp hn
        obtain ⟨ev, hev⟩ := trades_round hr
        dsimp only at h
        rw [hev, List.getLast?_concat] at h
        cases h
        exact .inl ⟨s', ev, rfl, hr, hev, rfl⟩
  | pushing ev =>
    rw [hp] at h
    dsimp only at h
    by_cases hroom : m.ring.length < tradesRoom
    · rw [Fifo.push_some hroom] at h
      cases h
      exact .inr (.inr ⟨ev, rfl, hroom, rfl⟩)
    · rw [Fifo.push_none (by omega)] at h
      cases h
  | returned => rw [hp] at h; cases h

/-- The engine's thread can go on, unless the call has returned or the ring is full. -/
theorem exists_engineStep (h : Sound cfg side m.state) (hp : m.phase ≠ .returned)
    (hroom : m.pending = 1 → m.ring.length < tradesRoom) : ∃ u, m.engineStep cfg side = some u := by
  unfold engineStep
  cases hph : m.phase with
  | looking =>
    dsimp only
    rcases h.nextRound with ⟨s', hr⟩ | hnone
    · obtain ⟨ev, hev⟩ := trades_round hr
      rw [nextRound_eq_some_iff.mpr hr]
      dsimp only
      rw [hev, List.getLast?_concat]
      exact ⟨_, rfl⟩
    · rw [hnone]
      exact ⟨_, rfl⟩
  | pushing ev =>
    dsimp only
    rw [Fifo.push_some (hroom (by unfold pending; rw [hph]))]
    exact ⟨_, rfl⟩
  | returned => exact absurd hph hp

/-- Every step brings the call nearer to its end. -/
theorem steps_work (h : Sound cfg side m.state) {p : MatchParty} (hs : Steps cfg side m p u) :
    Sound cfg side u.state ∧ u.work cfg side < m.work cfg side := by
  cases p with
  | engine =>
    obtain ⟨s', ev, hp, hr, -, rfl⟩ | ⟨hp, -, rfl⟩ | ⟨ev, hp, -, rfl⟩ := engineStep_cases hs
    · have hlt := roundsLeft_lt h hr
      refine ⟨h.round hr, ?_⟩
      unfold work
      rw [hp]
      dsimp only
      omega
    · refine ⟨h, ?_⟩
      unfold work
      rw [hp]
      dsimp only
      omega
    · refine ⟨h, ?_⟩
      unfold work
      rw [hp, List.length_append]
      simp only [List.length_singleton]
      omega
  | consumer =>
    change m.consumerStep = some u at hs
    unfold consumerStep at hs
    cases hq : m.ring with
    | nil => rw [hq] at hs; cases hs
    | cons ev r =>
      rw [hq] at hs
      cases hs
      refine ⟨h, ?_⟩
      unfold work
      rw [hq, List.length_cons]
      dsimp only
      omega

/-- **With a consumer the call returns**, in whatever order the two go on. -/
theorem emits (h : Sound cfg side m.state) : Inevitable (Steps cfg side) (fun m => m.phase = .returned) m := by
  refine Inevitable.of_measure (I := fun m => Sound cfg side m.state) (f := work cfg side) (fun m hm hp => ?_)
    (fun m p u hm _ hs => steps_work hm hs) h
  by_cases hroom : m.pending = 1 → m.ring.length < tradesRoom
  · obtain ⟨u, hu⟩ := exists_engineStep hm hp hroom
    exact ⟨.engine, u, hu⟩
  · -- the ring is full, so that there is something to pop
    cases hq : m.ring with
    | nil =>
      rw [hq] at hroom
      exact absurd (fun _ => by decide) hroom
    | cons ev r =>
      refine ⟨.consumer, { m with ring := r }, ?_⟩
      change m.consumerStep = _
      unfold consumerStep
      rw [hq]

/-! ## Without a consumer -/

/-- What the engine's thread keeps: the trades of its rounds are in the ring, but for the one that it pushes. -/
structure Filling (cfg : Config) (side : Side) (s : Engine × Taker) (ring : List TradeEvent) (m : Matching) : Prop where
  rounds : Relation.ReflTransGen (Round cfg side) s m.state
  trades : m.ring.length + m.pending + s.1.trades.length = ring.length + m.state.1.trades.length
  room : m.ring.length ≤ tradesRoom
  ended : m.phase = .returned → ∀ s', ¬ Round cfg side m.state s'

theorem Filling.step (h : Filling cfg side s ring m) (hs : m.engineStep cfg side = some u) :
    Filling cfg side s ring u := by
  have htr := h.trades
  unfold pending at htr
  obtain ⟨s', ev, hp, hr, hev, rfl⟩ | ⟨hp, hno, rfl⟩ | ⟨ev, hp, hroom, rfl⟩ := engineStep_cases hs
  · rw [hp] at htr
    refine ⟨h.rounds.tail hr, ?_, h.room, fun hc => by cases hc⟩
    unfold pending
    rw [hev, List.length_append, List.length_singleton]
    dsimp only at htr ⊢
    omega
  · rw [hp] at htr
    exact ⟨h.rounds, htr, h.room, fun _ => hno⟩
  · rw [hp] at htr
    refine ⟨h.rounds, ?_, ?_, fun hc => by cases hc⟩
    · unfold pending
      rw [List.length_append, List.length_singleton]
      dsimp only at htr ⊢
      omega
    · rw [List.length_append, List.length_singleton]
      exact hroom

theorem filling_start (hring : ring.length ≤ tradesRoom) : Filling cfg side s ring (start s ring) :=
  ⟨.refl, rfl, hring, fun hc => by cases hc⟩

theorem filling_alone (hring : ring.length ≤ tradesRoom) (hm : Alone cfg side (start s ring) m) :
    Filling cfg side s ring m := by
  induction hm with
  | refl => exact filling_start hring
  | tail _ hu ih => exact ih.step hu

/-- A round is determined by the state. -/
theorem round_rightUnique : Relator.RightUnique (Round cfg side) := by
  intro x y z hy hz
  have hnext := nextRound_eq_some_iff.mpr hy
  rw [nextRound_eq_some_iff.mpr hz] at hnext
  cases hnext
  rfl

/-- Two ways of going on as far as it goes end in the same state. -/
theorem final_unique {a b : Engine × Taker} (ha : Relation.ReflTransGen (Round cfg side) s a) (hna : ∀ c, ¬ Round cfg side a c)
    (hb : Relation.ReflTransGen (Round cfg side) s b) (hnb : ∀ c, ¬ Round cfg side b c) : a = b := by
  rcases Relation.ReflTransGen.total_of_right_unique round_rightUnique ha hb with h | h
  · rcases h.cases_head with h | ⟨c, hc, -⟩
    · exact h
    · exact absurd hc (hna c)
  · rcases h.cases_head with h | ⟨c, hc, -⟩
    · exact h.symm
    · exact absurd hc (hnb c)

/-- The number of trades only grows. -/
theorem trades_mono {a b : Engine × Taker} (h : Relation.ReflTransGen (Round cfg side) a b) :
    a.1.trades.length ≤ b.1.trades.length := by
  induction h with
  | refl => exact Nat.le_refl _
  | tail _ hr ih =>
    obtain ⟨ev, hev⟩ := trades_round hr
    rw [hev, List.length_append]
    exact Nat.le_add_right_of_le ih

/-- While the trades fit, the engine's thread goes on to the end. -/
theorem alone_returns (h : Filling cfg side s ring m) (hm : Sound cfg side m.state)
    (hrs : Relation.ReflTransGen (Round cfg side) m.state s') (hend : ∀ s'', ¬ Round cfg side s' s'')
    (hfit : ring.length + (s'.1.trades.length - s.1.trades.length) ≤ tradesRoom) :
    ∃ u, Alone cfg side m u ∧ u.phase = .returned := by
  obtain ⟨n, hn⟩ : ∃ n, m.work cfg side = n := ⟨_, rfl⟩
  induction n using Nat.strongRecOn generalizing m with
  | ind n ih =>
    by_cases hp : m.phase = .returned
    · exact ⟨m, .refl, hp⟩
    have hroom : m.pending = 1 → m.ring.length < tradesRoom := by
      intro hpend
      have h1 := h.trades
      have h2 := trades_mono h.rounds
      have h3 := trades_mono hrs
      omega
    obtain ⟨u, hu⟩ := exists_engineStep hm hp hroom
    obtain ⟨hsound, hlt⟩ := steps_work hm (p := .engine) hu
    have hrs' : Relation.ReflTransGen (Round cfg side) u.state s' := by
      obtain ⟨s1, ev, -, hr, -, rfl⟩ | ⟨-, -, rfl⟩ | ⟨ev, -, -, rfl⟩ := engineStep_cases hu
      · rcases hrs.cases_head with heq | ⟨s2, hr2, hrest⟩
        · exact absurd (heq ▸ hr) (hend s1)
        · obtain rfl := round_rightUnique hr hr2
          exact hrest
      · exact hrs
      · exact hrs
    obtain ⟨v, hv, hret⟩ := ih _ (hn ▸ hlt) (h.step hu) hsound hrs' rfl
    exact ⟨v, .head hu hv, hret⟩

/-- **Without a consumer it returns** just when its trades fit into the ring. -/
theorem alone_iff (h : Sound cfg side s) (hring : ring.length ≤ tradesRoom)
    (hrs : Relation.ReflTransGen (Round cfg side) s s') (hend : ∀ s'', ¬ Round cfg side s' s'') :
    (∃ m, Alone cfg side (start s ring) m ∧ m.phase = .returned) ↔
      ring.length + (s'.1.trades.length - s.1.trades.length) ≤ tradesRoom := by
  constructor
  · rintro ⟨m, hm, hret⟩
    have hfill := filling_alone hring hm
    obtain rfl := final_unique hfill.rounds (hfill.ended hret) hrs hend
    have htr := hfill.trades
    have hmono := trades_mono hrs
    have hroom := hfill.room
    unfold pending at htr
    rw [hret] at htr
    dsimp only at htr
    omega
  · exact alone_returns (filling_start hring) h hrs hend

end Matching

/-! ## The result -/

/-- **The matching loop ends**, and the call returns, in every state that is reached with admissible ids, whatever order
comes in: with a consumer on every schedule, without one just when its trades fit into the ring. -/
theorem matching_terminates {reqs : List Request} (hrun : Run (Steps cfg) (Admissible cfg) (.new cfg) reqs e)
    (ht : Incoming cfg e side t) : Terminates cfg side (e, t) ∧ Returns cfg side (e, t) := by
  have hsound : Sound cfg side (e, t) := by
    refine ⟨_, reachable_abs (fun _ _ hreq => hreq) hrun, ?_⟩
    cases t with
    | fresh o => trivial
    | resting i => exact (reachable_abs (fun _ _ hreq => hreq) hrun).rests_iff.mp ht
  exact ⟨loop_terminates hrun ht, fun ring => Matching.emits hsound,
    fun ring hring s' hrs hend => Matching.alone_iff hsound hring hrs hend⟩

/-- Two asks are taken by a bid that wants more. -/
theorem terminates_two_asks :
    Terminates small .bid
      (afterAll [.newOrder 1 .limit .ask 1 1, .newOrder 2 .limit .ask 2 2], .fresh (incoming 3 .limit .bid 5 7)) ∧
    Returns small .bid
      (afterAll [.newOrder 1 .limit .ask 1 1, .newOrder 2 .limit .ask 2 2], .fresh (incoming 3 .limit .bid 5 7)) :=
  matching_terminates (run_after (by decide +kernel)) trivial

end Engine

end Wirekrak.Flashstrike

import Wirekrak.Flashstrike.OrderBook

/-!
# Wirekrak.Flashstrike.Bests — the best prices of a side

`Bests`: what a store and its partitions record as best prices, with the pool indices of the partitions left out.
`q` gives each price of the side its queue.

* `Weak`: the recorded best price of the store is not worse than any other price, recorded or resting.  Every operation
  keeps it (`Weak.insert`, `Weak.remove`, `Weak.improve`), also those that leave a stale price behind.
* `sweepable`: the orders the matching loop can reach, in the order it reaches them; it never leaves the partition
  it starts in.  `sweepable_cons` takes the first one, `sweepable_remove` says what is left without it.
* `ladder`: all the orders of the side, best price first; `sweepable_isPrefix`.
-/

namespace Wirekrak.Flashstrike

@[ext] structure Bests where
  has : Bool
  best : ℤ
  /-- The flag and the best price of the partitions the store holds. -/
  part : ℕ → Option (Bool × ℤ)

/-! ## Prices of the plan -/

variable (cfg : Config) (side : Side)

/-- The prices of the plan, best first. -/
def planPrices : List ℤ :=
  let ticks := (List.range cfg.numTicks.toNat).map (fun n : ℕ => (n : ℤ))
  match side with
  | .bid => ticks.reverse
  | .ask => ticks

/-- The prices of a partition, best first. -/
def partPrices (pid : ℕ) : List ℤ := (planPrices cfg side).filter (fun p => cfg.partitionId p = pid)

/-- The best price of a partition that has a queue. -/
def bestOf (q : ℤ → List ℕ) (pid : ℕ) : Option ℤ := (partPrices cfg side pid).find? (fun p => !(q p).isEmpty)

/-- The orders of the side, best price first. -/
def ladder (q : ℤ → List ℕ) : List ℕ := (planPrices cfg side).flatMap q

variable {cfg side} {q q' : ℤ → List ℕ} {p : ℤ} {pid i : ℕ}

@[simp] theorem mem_planPrices : p ∈ planPrices cfg side ↔ cfg.InPlan p := by
  have h : p ∈ (List.range cfg.numTicks.toNat).map (fun n : ℕ => (n : ℤ)) ↔ cfg.InPlan p := by
    simp only [List.mem_map, List.mem_range, Config.InPlan]
    refine ⟨?_, fun hp => ⟨p.toNat, by omega, by omega⟩⟩
    rintro ⟨n, hn, rfl⟩
    omega
  cases side with
  | bid => exact List.mem_reverse.trans h
  | ask => exact h

theorem planPrices_sorted (cfg : Config) (side : Side) : (planPrices cfg side).Pairwise (fun a b => side.key a < side.key b) := by
  have h : ((List.range cfg.numTicks.toNat).map (fun n : ℕ => (n : ℤ))).Pairwise (fun a b => a < b) := by
    rw [List.pairwise_map]
    exact List.pairwise_lt_range.imp (fun hab => by exact_mod_cast hab)
  cases side with
  | bid =>
    refine List.pairwise_reverse.mpr (h.imp (fun {a b} hab => ?_))
    show -b < -a
    omega
  | ask => exact h

@[simp] theorem mem_partPrices : p ∈ partPrices cfg side pid ↔ cfg.InPlan p ∧ cfg.partitionId p = pid := by
  simp [partPrices]

theorem partPrices_sorted : (partPrices cfg side pid).Pairwise (fun a b => side.key a < side.key b) :=
  (planPrices_sorted cfg side).filter _

theorem bestOf_eq_none : bestOf cfg side q pid = none ↔ ∀ p, cfg.InPlan p → cfg.partitionId p = pid → q p = [] := by
  unfold bestOf
  simp only [List.find?_eq_none, mem_partPrices, Bool.not_eq_true', Bool.not_eq_false, List.isEmpty_iff, and_imp]

/-- The first of a sorted list that has a queue is the best that has one. -/
theorem find?_best {l : List ℤ} (hs : l.Pairwise (fun a b => side.key a < side.key b)) {v : ℤ} :
    l.find? (fun p => !(q p).isEmpty) = some v ↔ v ∈ l ∧ q v ≠ [] ∧ ∀ p ∈ l, q p ≠ [] → side.key v ≤ side.key p := by
  induction l with
  | nil => simp
  | cons a l ih =>
    obtain ⟨h1, h2⟩ := List.pairwise_cons.mp hs
    by_cases ha : q a = []
    · have hne : ∀ w, q w ≠ [] → w ≠ a := by
        rintro w hw rfl
        exact hw ha
      rw [List.find?_cons_of_neg (by simp [ha]), ih h2]
      refine ⟨fun ⟨hm, hv, hb⟩ => ⟨List.mem_cons_of_mem a hm, hv, fun p hp hq => ?_⟩,
        fun ⟨hm, hv, hb⟩ => ⟨List.mem_of_ne_of_mem (hne v hv) hm, hv,
          fun p hp hq => hb p (List.mem_cons_of_mem a hp) hq⟩⟩
      exact hb p (List.mem_of_ne_of_mem (hne p hq) hp) hq
    · rw [List.find?_cons_of_pos (by simp [ha]), Option.some.injEq]
      refine ⟨?_, fun ⟨hm, hv, hb⟩ => ?_⟩
      · rintro rfl
        refine ⟨List.mem_cons_self, ha, fun p hp _ => ?_⟩
        rcases List.mem_cons.mp hp with rfl | hp
        · exact le_refl _
        · exact (h1 p hp).le
      · rcases List.mem_cons.mp hm with rfl | hm
        · rfl
        · have h3 := hb a List.mem_cons_self ha
          have h4 := h1 v hm
          omega

theorem bestOf_eq_some {v : ℤ} : bestOf cfg side q pid = some v ↔
    cfg.InPlan v ∧ cfg.partitionId v = pid ∧ q v ≠ [] ∧
      ∀ p, cfg.InPlan p → cfg.partitionId p = pid → q p ≠ [] → side.key v ≤ side.key p := by
  unfold bestOf
  rw [find?_best partPrices_sorted]
  simp only [mem_partPrices, and_imp, and_assoc]

/-- A price outside the partition of `p` that is not better than `p` is worse than all of that partition. -/
theorem key_lt_of_partition {p v w : ℤ} (hp : cfg.InPlan p) (hv : cfg.InPlan v) (hw : cfg.InPlan w)
    (hvp : cfg.partitionId v = cfg.partitionId p) (hwp : cfg.partitionId w ≠ cfg.partitionId p)
    (hle : side.key p ≤ side.key w) : side.key v < side.key w := by
  have hlt : ∀ a b : ℤ, cfg.InPlan a → cfg.InPlan b → cfg.partitionId a < cfg.partitionId b → a < b :=
    fun a b ha hb h => ha.lt_of_partitionId_lt hb h
  rcases Nat.lt_or_gt_of_ne hwp with h | h
  · have h1 := hlt w p hw hp h
    have h2 := hlt w v hw hv (by omega)
    cases side <;> simp only [Side.key] at hle ⊢ <;> omega
  · have h1 := hlt p w hp hw h
    have h2 := hlt v w hv hw (by omega)
    cases side <;> simp only [Side.key] at hle ⊢ <;> omega

/-! ## What the operations record -/

namespace Bests

variable (cfg side)

/-- `try_update_best_`, on a flag and a price. -/
def tryBest (hv : Bool × ℤ) (p : ℤ) : Bool × ℤ :=
  if hv.1 = false then (true, p) else if side.isBetter p hv.2 then (hv.1, p) else hv

def setGlobal (g : Bests) (hv : Bool × ℤ) : Bests := { g with has := hv.1, best := hv.2 }

def setPart (g : Bests) (pid : ℕ) (hv : Bool × ℤ) : Bests := { g with part := Function.update g.part pid (some hv) }

/-- What a partition records; a new one has no best price. -/
def partAt (g : Bests) (pid : ℕ) : Bool × ℤ := (g.part pid).getD (false, invalidPrice)

/-- An order is linked at `p`. -/
def insert (g : Bests) (p : ℤ) : Bests :=
  (g.setGlobal (tryBest side (g.has, g.best) p)).setPart (cfg.partitionId p)
    (tryBest side (g.partAt (cfg.partitionId p)) p)

/-- An order has left the level `p`, and left the queues `q`.  The best price of an emptied partition stays. -/
def remove (g : Bests) (q : ℤ → List ℕ) (p : ℤ) : Bests :=
  if q p ≠ [] then g
  else
    match g.part (cfg.partitionId p), bestOf cfg side q (cfg.partitionId p) with
    | some (_, v), none => { g with best := if g.best = p then v else g.best }
    | some (_, v), some w =>
      if v = p then { g.setPart (cfg.partitionId p) (true, w) with best := if g.best = p then w else g.best } else g
    | none, _ => g

/-- The recorded best price of the store is not worse than any other price. -/
structure Weak (g : Bests) (q : ℤ → List ℕ) : Prop where
  has_iff : g.has = true ↔ ∃ pid hv, g.part pid = some hv
  part : ∀ pid h v, g.part pid = some (h, v) →
    h = true ∧ cfg.InPlan v ∧ cfg.partitionId v = pid ∧ side.key g.best ≤ side.key v
  level : ∀ p, q p ≠ [] → cfg.InPlan p ∧ (∃ hv, g.part (cfg.partitionId p) = some hv) ∧ side.key g.best ≤ side.key p
  home : g.has = true → cfg.InPlan g.best ∧ ∃ hv, g.part (cfg.partitionId g.best) = some hv

variable {cfg side} {g : Bests}

theorem tryBest_fst (side : Side) (hv : Bool × ℤ) (p : ℤ) : (tryBest side hv p).1 = true := by
  unfold tryBest
  cases h : hv.1 with
  | false => rfl
  | true => split_ifs <;> simp_all

theorem tryBest_snd (side : Side) (hv : Bool × ℤ) (p : ℤ) : (tryBest side hv p).2 = p ∧ (hv.1 = true → side.key p < side.key hv.2) ∨
    (tryBest side hv p).2 = hv.2 ∧ hv.1 = true ∧ side.key hv.2 ≤ side.key p := by
  unfold tryBest
  by_cases h1 : hv.1 = false
  · rw [if_pos h1]
    exact Or.inl ⟨rfl, fun h => by rw [h1] at h; cases h⟩
  · rw [if_neg h1]
    rw [Bool.not_eq_false] at h1
    by_cases h2 : side.isBetter p hv.2 = true
    · rw [if_pos h2]
      exact Or.inl ⟨rfl, fun _ => Side.isBetter_iff.mp h2⟩
    · rw [if_neg h2]
      rw [Side.isBetter_iff] at h2
      exact Or.inr ⟨rfl, h1, by omega⟩

/-- A better price is recorded, and everything else was recorded before. -/
theorem tryBest_le (side : Side) (hv : Bool × ℤ) (p : ℤ) : side.key (tryBest side hv p).2 ≤ side.key p ∧
    (hv.1 = true → side.key (tryBest side hv p).2 ≤ side.key hv.2) := by
  rcases tryBest_snd side hv p with ⟨h1, h2⟩ | ⟨h1, -, h3⟩
  · rw [h1]
    exact ⟨le_refl _, fun h => (h2 h).le⟩
  · rw [h1]
    exact ⟨h3, fun _ => le_refl _⟩

theorem part_setPart (g : Bests) (pid pid' : ℕ) (hv : Bool × ℤ) :
    (g.setPart pid hv).part pid' = if pid' = pid then some hv else g.part pid' := by
  unfold setPart
  by_cases h : pid' = pid
  · subst h
    rw [if_pos rfl]
    exact Function.update_self _ _ _
  · rw [if_neg h]
    exact Function.update_of_ne h _ _

theorem part_insert (pid : ℕ) : (g.insert cfg side p).part pid =
    if pid = cfg.partitionId p then some (tryBest side (g.partAt pid) p) else g.part pid := by
  unfold insert
  rw [part_setPart]
  split_ifs with h
  · rw [h]
  · rfl

namespace Weak

theorem new : Weak cfg side ⟨false, invalidPrice, fun _ => none⟩ (fun _ => []) where
  has_iff := by simp
  part := fun _ _ _ h => by cases h
  level := fun _ h => absurd rfl h
  home := fun h => by cases h

/-- Fewer prices have queues. -/
theorem mono (h : Weak cfg side g q) (hq : ∀ p, q' p ≠ [] → q p ≠ []) : Weak cfg side g q' :=
  ⟨h.has_iff, h.part, fun p hp => h.level p (hq p hp), h.home⟩

/-- One more price has a queue: it is not better than the recorded one. -/
theorem add (h : Weak cfg side g q) (hq : ∀ p', q' p' ≠ [] → p' = p ∨ q p' ≠ []) (hp : cfg.InPlan p)
    (hpart : ∃ hv, g.part (cfg.partitionId p) = some hv) (hle : side.key g.best ≤ side.key p) : Weak cfg side g q' := by
  refine ⟨h.has_iff, h.part, fun p' hp' => ?_, h.home⟩
  rcases hq p' hp' with rfl | h1
  · exact ⟨hp, hpart, hle⟩
  · exact h.level p' h1

theorem insert (h : Weak cfg side g q) (hp : cfg.InPlan p) (hq : ∀ p', q' p' ≠ [] → p' = p ∨ q p' ≠ []) :
    Weak cfg side (g.insert cfg side p) q' := by
  have hbest := tryBest_le side (g.has, g.best) p
  -- a partition in the store: the store has a best price
  have hhas : ∀ pid hv, g.part pid = some hv → g.has = true := fun pid hv hk => h.has_iff.mpr ⟨pid, hv, hk⟩
  have hpart : ∀ pid, (∃ hv, g.part pid = some hv) → ∃ hv, (g.insert cfg side p).part pid = some hv := by
    rintro pid ⟨hv, hk⟩
    rw [part_insert]
    split_ifs
    · exact ⟨_, rfl⟩
    · exact ⟨hv, hk⟩
  have hself : ∃ hv, (g.insert cfg side p).part (cfg.partitionId p) = some hv := by
    rw [part_insert, if_pos rfl]
    exact ⟨_, rfl⟩
  refine ⟨⟨fun _ => ⟨_, hself⟩, fun _ => tryBest_fst side _ p⟩, ?_, ?_, ?_⟩
  · intro pid f v hk
    rw [part_insert] at hk
    split_ifs at hk with hpid
    · rw [Option.some.injEq] at hk
      have hf : f = true := by rw [← tryBest_fst side (g.partAt pid) p, hk]
      have hv : v = (tryBest side (g.partAt pid) p).2 := by rw [hk]
      refine ⟨hf, ?_⟩
      rcases tryBest_snd side (g.partAt pid) p with ⟨h1, -⟩ | ⟨h1, h2, -⟩
      · rw [hv, h1]
        exact ⟨hp, hpid.symm, hbest.1⟩
      · cases hold : g.part pid with
        | none => unfold partAt at h2; rw [hold] at h2; cases h2
        | some fw =>
          obtain ⟨f', w⟩ := fw
          unfold partAt at h1 hv
          rw [hold] at h1 hv
          obtain ⟨-, h3, h4, h5⟩ := h.part pid f' w hold
          rw [hv, h1]
          exact ⟨h3, h4, (hbest.2 (hhas pid _ hold)).trans h5⟩
    · obtain ⟨h1, h2, h3, h4⟩ := h.part pid f v hk
      exact ⟨h1, h2, h3, (hbest.2 (hhas pid _ hk)).trans h4⟩
  · intro p' hp'
    rcases hq p' hp' with rfl | h1
    · exact ⟨hp, hself, hbest.1⟩
    · obtain ⟨h2, ⟨hv, h3⟩, h4⟩ := h.level p' h1
      exact ⟨h2, hpart _ ⟨hv, h3⟩, (hbest.2 (hhas _ hv h3)).trans h4⟩
  · intro _
    show cfg.InPlan (tryBest side (g.has, g.best) p).2 ∧ _
    rcases tryBest_snd side (g.has, g.best) p with ⟨h1, -⟩ | ⟨h1, h2, -⟩
    · have hb : (g.insert cfg side p).best = p := h1
      rw [h1, hb]
      exact ⟨hp, hself⟩
    · have hb : (g.insert cfg side p).best = g.best := h1
      rw [h1, hb]
      exact ⟨(h.home h2).1, hpart _ (h.home h2).2⟩

/-- The store has a new best price, of the partition of the old one. -/
theorem moveBest (h : Weak cfg side g q) {w : ℤ} (hhas : g.has = true) (hw : cfg.InPlan w)
    (hpid : cfg.partitionId w = cfg.partitionId g.best) (part : ℕ → Option (Bool × ℤ))
    (hother : ∀ pid, pid ≠ cfg.partitionId g.best → part pid = g.part pid)
    (hself : ∃ v, part (cfg.partitionId g.best) = some (true, v) ∧ cfg.InPlan v ∧
      cfg.partitionId v = cfg.partitionId g.best ∧ side.key w ≤ side.key v)
    (hq : ∀ p, q' p ≠ [] → (q p ≠ [] ∨ p = w) ∧ (cfg.partitionId p = cfg.partitionId g.best → side.key w ≤ side.key p)) :
    Weak cfg side { g with best := w, part := part } q' := by
  have hhome := h.home hhas
  obtain ⟨v, hv1, hv2, hv3, hv4⟩ := hself
  refine ⟨⟨fun _ => ⟨_, _, hv1⟩, fun _ => hhas⟩, ?_, ?_, fun _ => ⟨hw, ?_⟩⟩
  · intro pid f u hk
    by_cases hpid' : pid = cfg.partitionId g.best
    · subst hpid'
      dsimp only at hk
      rw [hv1, Option.some.injEq, Prod.mk.injEq] at hk
      obtain ⟨rfl, rfl⟩ := hk
      exact ⟨rfl, hv2, hv3, hv4⟩
    · dsimp only at hk ⊢
      rw [hother pid hpid'] at hk
      obtain ⟨h1, h2, h3, h4⟩ := h.part pid f u hk
      exact ⟨h1, h2, h3, (key_lt_of_partition hhome.1 hw h2 hpid (by rw [h3]; exact hpid') h4).le⟩
  · intro p hp
    obtain ⟨h1, h2⟩ := hq p hp
    by_cases hpid' : cfg.partitionId p = cfg.partitionId g.best
    · refine ⟨?_, ⟨_, by rw [hpid']; exact hv1⟩, h2 hpid'⟩
      rcases h1 with h1 | rfl
      · exact (h.level p h1).1
      · exact hw
    · rcases h1 with h1 | rfl
      · obtain ⟨h3, h4, h5⟩ := h.level p h1
        dsimp only
        rw [hother _ hpid']
        exact ⟨h3, h4, (key_lt_of_partition hhome.1 hw h3 hpid hpid' h5).le⟩
      · exact absurd hpid hpid'
  · rw [show ({ g with best := w, part := part } : Bests).best = w from rfl, hpid]
    exact ⟨_, hv1⟩

/-- A partition has a new best price. -/
theorem setPart (h : Weak cfg side g q) {w : ℤ} (hhas : g.has = true) (hw : cfg.InPlan w)
    (hpid : cfg.partitionId w = pid) (hle : side.key g.best ≤ side.key w) (hq : ∀ p, q' p ≠ [] → q p ≠ []) :
    Weak cfg side (g.setPart pid (true, w)) q' := by
  have hkeep : ∀ pid', (∃ hv, g.part pid' = some hv) → ∃ hv, (g.setPart pid (true, w)).part pid' = some hv := by
    intro pid' hv
    rw [part_setPart]
    split_ifs
    · exact ⟨_, rfl⟩
    · exact hv
  refine ⟨⟨fun _ => ⟨pid, (true, w), by rw [part_setPart, if_pos rfl]⟩, fun _ => hhas⟩, fun pid' f u hk => ?_,
    fun p hp => ?_, fun _ => ?_⟩
  · rw [part_setPart] at hk
    split_ifs at hk with he
    · rw [Option.some.injEq, Prod.mk.injEq] at hk
      obtain ⟨rfl, rfl⟩ := hk
      exact ⟨rfl, hw, hpid.trans he.symm, hle⟩
    · exact h.part pid' f u hk
  · obtain ⟨h1, h2, h3⟩ := h.level p (hq p hp)
    exact ⟨h1, hkeep _ h2, h3⟩
  · exact ⟨(h.home hhas).1, hkeep _ (h.home hhas).2⟩

theorem remove (h : Weak cfg side g q) (hp : q p ≠ []) (hq : ∀ p', q' p' ≠ [] → q p' ≠ []) :
    Weak cfg side (g.remove cfg side q' p) q' := by
  obtain ⟨hplan, ⟨⟨f, v⟩, hpart⟩, hle⟩ := h.level p hp
  have hhas : g.has = true := h.has_iff.mpr ⟨_, _, hpart⟩
  obtain ⟨rfl, hv1, hv2, hv3⟩ := h.part _ f v hpart
  unfold Bests.remove
  by_cases hne : q' p ≠ []
  · rw [if_pos hne]
    exact h.mono hq
  rw [if_neg hne, hpart]
  cases hb : bestOf cfg side q' (cfg.partitionId p) with
  | none =>
    rw [bestOf_eq_none] at hb
    dsimp only
    by_cases hbest : g.best = p
    · rw [if_pos hbest]
      refine h.moveBest hhas hv1 (by rw [hbest]; exact hv2) g.part (fun _ _ => rfl) ?_
        (fun p' hp' => ⟨Or.inl (hq p' hp'), fun hpid => ?_⟩)
      · rw [hbest]
        exact ⟨v, hpart, hv1, hv2, le_refl _⟩
      · exact absurd (hb p' (h.level p' (hq p' hp')).1 (by rw [hpid, hbest])) hp'
    · rw [if_neg hbest]
      exact h.mono hq
  | some w =>
    obtain ⟨hw1, hw2, hw3, hw4⟩ := bestOf_eq_some.mp hb
    dsimp only
    by_cases hvp : v = p
    · rw [if_pos hvp]
      by_cases hbest : g.best = p
      · rw [if_pos hbest]
        refine h.moveBest hhas hw1 (by rw [hw2, hbest]) _ (fun pid hpid => ?_) ?_
          (fun p' hp' => ⟨Or.inl (hq p' hp'), fun hpid => ?_⟩)
        · rw [part_setPart, if_neg (by rw [← hbest]; exact hpid)]
        · rw [hbest, part_setPart, if_pos rfl]
          exact ⟨w, rfl, hw1, hw2, le_refl _⟩
        · exact hw4 p' (h.level p' (hq p' hp')).1 (by rw [hpid, hbest]) hp'
      · rw [if_neg hbest]
        exact h.setPart hhas hw1 hw2 (h.level w (hq w hw3)).2.2 hq
    · rw [if_neg hvp]
      exact h.mono hq

end Weak

/-! ## The reach of the matching loop -/

variable (cfg side)

/-- The matching loop reaches the whole partition of the best price if the partition records the same best price, and
only the best level otherwise. -/
def Reach (g : Bests) (p : ℤ) : Prop :=
  cfg.partitionId p = cfg.partitionId g.best ∧
    (g.part (cfg.partitionId g.best) = some (true, g.best) ∨ p = g.best)

instance (g : Bests) (p : ℤ) : Decidable (g.Reach cfg p) := inferInstanceAs (Decidable (_ ∧ _))

def sweepable (g : Bests) (q : ℤ → List ℕ) : List ℕ :=
  if g.has = true ∧ q g.best ≠ [] then ((planPrices cfg side).filter (fun p => g.Reach cfg p)).flatMap q else []

variable {cfg side}

/-- The prices before and behind a price of the plan. -/
theorem planPrices_split (side : Side) (hp : cfg.InPlan p) : ∃ A B, planPrices cfg side = A ++ p :: B ∧
    (∀ a ∈ A, side.key a < side.key p) ∧ ∀ b ∈ B, side.key p < side.key b := by
  obtain ⟨A, B, hAB⟩ := List.append_of_mem (show p ∈ planPrices cfg side from mem_planPrices.mpr hp)
  have hs := planPrices_sorted cfg side
  rw [hAB, List.pairwise_append] at hs
  exact ⟨A, B, hAB, fun a ha => hs.2.2 a ha p List.mem_cons_self, (List.pairwise_cons.mp hs.2.1).1⟩

theorem flatMap_eq_nil {l : List ℤ} (h : ∀ a ∈ l, q a = []) : l.flatMap q = [] :=
  List.flatMap_eq_nil_iff.mpr h

/-- Behind the prices with no queue, a flat map over the plan starts at the best price. -/
theorem flatMap_split {A B : List ℤ} (hA : ∀ a ∈ A, q a = []) (f : ℤ → Bool) (hf : f p = true) :
    ((A ++ p :: B).filter f).flatMap q = q p ++ (B.filter f).flatMap q := by
  rw [List.filter_append, List.filter_cons_of_pos hf, List.flatMap_append, List.flatMap_cons,
    flatMap_eq_nil (fun a ha => hA a (List.mem_of_mem_filter ha)), List.nil_append]

theorem Weak.nil_of_better (h : Weak cfg side g q) (hp : side.key p < side.key g.best) : q p = [] := by
  by_contra hne
  have hle := (h.level p hne).2.2
  omega

/-- The sweepable orders: the best level, then the levels behind it. -/
theorem sweepable_eq (h : Weak cfg side g q) (hhas : g.has = true) (hne : q g.best ≠ []) : ∃ A B,
    planPrices cfg side = A ++ g.best :: B ∧ (∀ a ∈ A, side.key a < side.key g.best) ∧
    (∀ b ∈ B, side.key g.best < side.key b) ∧
    g.sweepable cfg side q = q g.best ++ (B.filter (fun p => g.Reach cfg p)).flatMap q := by
  obtain ⟨A, B, hAB, hA, hB⟩ := planPrices_split side (h.home hhas).1
  refine ⟨A, B, hAB, hA, hB, ?_⟩
  unfold sweepable
  rw [if_pos ⟨hhas, hne⟩, hAB]
  refine flatMap_split (fun a ha => h.nil_of_better (hA a ha)) _ ?_
  exact decide_eq_true ⟨rfl, Or.inr rfl⟩

theorem sweepable_nil (h : Weak cfg side g q) (hs : g.sweepable cfg side q = []) : g.has = false ∨ q g.best = [] := by
  by_contra hne
  rw [not_or, Bool.not_eq_false] at hne
  obtain ⟨A, B, -, -, -, he⟩ := sweepable_eq h hne.1 hne.2
  rw [hs] at he
  exact hne.2 (List.append_eq_nil_iff.mp he.symm).1

theorem sweepable_cons (h : Weak cfg side g q) {r : ℕ} {L : List ℕ} (hs : g.sweepable cfg side q = r :: L) :
    g.has = true ∧ ∃ rest, q g.best = r :: rest := by
  have hc : g.has = true ∧ q g.best ≠ [] := by
    by_contra hc
    unfold sweepable at hs
    rw [if_neg hc] at hs
    cases hs
  obtain ⟨A, B, -, -, -, he⟩ := sweepable_eq h hc.1 hc.2
  refine ⟨hc.1, ?_⟩
  cases hb : q g.best with
  | nil => exact absurd hb hc.2
  | cons r' rest =>
    rw [hs, hb, List.cons_append, List.cons.injEq] at he
    exact ⟨rest, by rw [he.1]⟩

/-- **Without its first order** the rest stays sweepable, in the same order. -/
theorem sweepable_remove (h : Weak cfg side g q) {r : ℕ} {L : List ℕ} (hs : g.sweepable cfg side q = r :: L)
    (hself : q g.best = r :: q' g.best) (hother : ∀ p, p ≠ g.best → q' p = q p) :
    (g.remove cfg side q' g.best).sweepable cfg side q' = L := by
  obtain ⟨hhas, -⟩ := sweepable_cons h hs
  obtain ⟨A, B, hAB, hA, hB, he⟩ := sweepable_eq h hhas (by rw [hself]; exact List.cons_ne_nil _ _)
  have hqA : ∀ a ∈ A, q' a = [] := by
    intro a ha
    have hlt := hA a ha
    rw [hother a (fun e => by rw [e] at hlt; omega), h.nil_of_better hlt]
  have hqB : ∀ f : ℤ → Bool, (B.filter f).flatMap q' = (B.filter f).flatMap q := by
    intro f
    refine List.flatMap_congr (fun b hb => ?_)
    have hlt := hB b (List.mem_of_mem_filter hb)
    exact hother b (fun e => by rw [e] at hlt; omega)
  have hL : L = q' g.best ++ (B.filter (fun p => g.Reach cfg p)).flatMap q := by
    rw [hs, hself, List.cons_append, List.cons.injEq] at he
    exact he.2
  obtain ⟨hplan, ⟨⟨f, v⟩, hpart⟩⟩ := h.home hhas
  obtain ⟨rfl, hv1, hv2, hv3⟩ := h.part _ f v hpart
  unfold remove
  by_cases hne : q' g.best ≠ []
  · rw [if_pos hne]
    unfold sweepable
    rw [if_pos ⟨hhas, hne⟩, hAB, flatMap_split hqA _ (decide_eq_true ⟨rfl, Or.inr rfl⟩), hqB, hL]
  rw [if_neg hne, hpart]
  rw [not_not] at hne
  rw [hne, List.nil_append] at hL
  cases hb : bestOf cfg side q' (cfg.partitionId g.best) with
  | none =>
    -- the partition is empty: nothing behind the best level is reached, before or after
    rw [bestOf_eq_none] at hb
    have hLnil : L = [] := by
      rw [hL, ← hqB]
      refine flatMap_eq_nil (fun b hb' => ?_)
      have hr : g.Reach cfg b := of_decide_eq_true (List.mem_filter.mp hb').2
      have hbm : b ∈ planPrices cfg side := by
        rw [hAB]
        exact List.mem_append_right A (List.mem_cons_of_mem _ (List.mem_of_mem_filter hb'))
      exact hb b (mem_planPrices.mp hbm) hr.1
    dsimp only
    rw [if_pos rfl, hLnil]
    unfold sweepable
    rw [if_neg]
    rintro ⟨-, hvne⟩
    exact hvne (hb v hv1 hv2)
  | some w =>
    obtain ⟨hw1, hw2, hw3, hw4⟩ := bestOf_eq_some.mp hb
    dsimp only
    by_cases hvp : v = g.best
    · rw [if_pos hvp, if_pos rfl]
      unfold sweepable
      rw [if_pos ⟨hhas, hw3⟩, hAB, hL, ← hqB]
      have hreach : ∀ p, (({ g.setPart (cfg.partitionId g.best) (true, w) with best := w } : Bests).Reach cfg p) ↔
          g.Reach cfg p := by
        intro p
        unfold Reach
        dsimp only
        rw [hw2, part_setPart, if_pos rfl, hpart, hvp]
        simp
      simp only [hreach]
      rw [flatMap_split hqA _ (decide_eq_true ⟨rfl, Or.inr rfl⟩), hne, List.nil_append]
    · rw [if_neg hvp]
      -- a stale partition best: only the best level was in reach
      have hnone : B.filter (fun p => g.Reach cfg p) = [] := by
        rw [List.filter_eq_nil_iff]
        intro b hb' hr
        have hr' : g.Reach cfg b := of_decide_eq_true hr
        have hlt := hB b hb'
        rcases hr'.2 with h1 | h1
        · rw [hpart, Option.some.injEq, Prod.mk.injEq] at h1
          exact hvp h1.2
        · rw [h1] at hlt
          omega
      rw [hL, hnone]
      unfold sweepable
      rw [if_neg]
      · rfl
      · rintro ⟨-, h1⟩
        exact h1 hne

/-- A condition that holds of an element whenever it holds of a later one selects a prefix. -/
theorem filter_isPrefix {α : Type*} {l : List α} {f : α → Bool} (h : l.Pairwise (fun a b => f b = true → f a = true)) :
    l.filter f <+: l := by
  induction l with
  | nil => exact List.prefix_rfl
  | cons a l ih =>
    obtain ⟨h1, h2⟩ := List.pairwise_cons.mp h
    by_cases ha : f a = true
    · rw [List.filter_cons_of_pos ha]
      exact (List.prefix_cons_inj a).mpr (ih h2)
    · rw [List.filter_cons_of_neg ha, List.filter_eq_nil_iff.mpr (fun b hb hfb => ha (h1 b hb hfb))]
      exact List.nil_prefix

/-- The matching loop takes the orders of the side from the best one on. -/
theorem sweepable_isPrefix (h : Weak cfg side g q) : g.sweepable cfg side q <+: ladder cfg side q := by
  by_cases hc : g.has = true ∧ q g.best ≠ []
  · obtain ⟨A, B, hAB, hA, hB, he⟩ := sweepable_eq h hc.1 hc.2
    have hl : ladder cfg side q = q g.best ++ B.flatMap q := by
      unfold ladder
      rw [hAB, List.flatMap_append, List.flatMap_cons, flatMap_eq_nil (fun a ha => h.nil_of_better (hA a ha)),
        List.nil_append]
    rw [he, hl, List.prefix_append_right_inj]
    have hs := planPrices_sorted cfg side
    rw [hAB, List.pairwise_append] at hs
    have hBs := (List.pairwise_cons.mp hs.2.1).2
    have hplan : ∀ b ∈ B, cfg.InPlan b := by
      intro b hb
      have hm : b ∈ planPrices cfg side := by
        rw [hAB]
        exact List.mem_append_right A (List.mem_cons_of_mem _ hb)
      exact mem_planPrices.mp hm
    obtain ⟨C, hC⟩ := filter_isPrefix (l := B) (f := fun p => g.Reach cfg p) (by
      refine hBs.imp_of_mem (fun {a b} ha hb hab hr => ?_)
      have hr' : g.Reach cfg b := of_decide_eq_true hr
      have h1 := hB a ha
      have h2 := hB b hb
      refine decide_eq_true ⟨?_, Or.inl (hr'.2.resolve_right (fun e => by rw [e] at h2; omega))⟩
      by_contra hne
      have h3 : side.key b < side.key a :=
        key_lt_of_partition (h.home hc.1).1 (hplan b hb) (hplan a ha) hr'.1 hne h1.le
      omega)
    refine ⟨C.flatMap q, ?_⟩
    rw [← List.flatMap_append, hC]
  · unfold sweepable
    rw [if_neg hc]
    exact List.nil_prefix

end Bests

end Wirekrak.Flashstrike

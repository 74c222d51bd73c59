import Wirekrak.Flashstrike.Matching

/-!
# Wirekrak.Flashstrike.Sweep — what a sweep leaves

`Lined V side taker L`: the makers `L` rest on the other side of the taker.  The sweep of `L`:

* `queues_sweep`: the makers that are used up leave their queues, all others keep their place.
* `data_sweep_maker`, `data_sweep_other`: the makers are filled, the other orders stay.
* `sweep_snd`, `fills_all`: what the taker has left; if something is left, no maker is.
-/

namespace Wirekrak.Flashstrike

/-- The makers rest on the other side of the taker. -/
structure Lined (V : View) (side : Side) (taker : Option ℕ) (L : List ℕ) : Prop where
  queued : V.Queued
  rest : ∀ r ∈ L, ∃ p, r ∈ V.queues side.opp p
  nodup : L.Nodup
  ne : ∀ r ∈ L, taker ≠ some r

/-! ## The fills -/

section Fills

variable {qty : ℕ → ℤ} {L : List ℕ} {q : ℤ}

/-- The quantity of the fills. -/
def traded (fs : List (ℕ × ℤ)) : ℤ := (fs.map Prod.snd).sum

@[simp] theorem traded_nil : traded [] = 0 := rfl

@[simp] theorem traded_cons (f : ℕ × ℤ) (fs : List (ℕ × ℤ)) : traded (f :: fs) = f.2 + traded fs := rfl

/-- The makers of the fills are the first ones of the list. -/
theorem fills_makers (qty : ℕ → ℤ) (L : List ℕ) (q : ℤ) : (fills qty L q).map Prod.fst <+: L := by
  induction L generalizing q with
  | nil => exact List.nil_prefix
  | cons r L ih =>
    unfold fills
    split_ifs
    · rw [List.map_cons]
      exact (List.prefix_cons_inj r).mpr (ih _)
    · exact List.nil_prefix

theorem fills_append (A B : List ℕ) (q : ℤ) :
    fills qty (A ++ B) q = fills qty A q ++ fills qty B (q - traded (fills qty A q)) := by
  induction A generalizing q with
  | nil => simp [fills]
  | cons r A ih =>
    by_cases hq : 0 < q
    · have hcons : ∀ C, fills qty (r :: C) q = (r, min q (qty r)) :: fills qty C (q - min q (qty r)) :=
        fun C => if_pos hq
      rw [List.cons_append, hcons, hcons, ih, traded_cons, Int.sub_sub, List.cons_append]
    · rw [fills_of_nonpos (by omega), fills_of_nonpos (by omega), traded_nil, fills_of_nonpos (by omega)]
      rfl

theorem fills_eq_nil : fills qty L q = [] ↔ L = [] ∨ q ≤ 0 := by
  cases L with
  | nil => simp [fills]
  | cons r L =>
    unfold fills
    split_ifs with hq
    · simp [hq]
    · simp [not_lt.mp hq]

/-- What a fill is: what is left of the taker then, or all of the maker. -/
theorem mem_fills {f : ℕ × ℤ} (hf : f ∈ fills qty L q) : f.1 ∈ L ∧ ∃ left, 0 < left ∧ f.2 = min left (qty f.1) := by
  induction L generalizing q with
  | nil => exact absurd hf List.not_mem_nil
  | cons r L ih =>
    unfold fills at hf
    split_ifs at hf with hq
    · rcases List.mem_cons.mp hf with rfl | hf
      · exact ⟨List.mem_cons_self, q, hq, rfl⟩
      · obtain ⟨hmem, hmin⟩ := ih hf
        exact ⟨List.mem_cons_of_mem r hmem, hmin⟩
    · exact absurd hf List.not_mem_nil

theorem fills_le {f : ℕ × ℤ} (hf : f ∈ fills qty L q) : f.2 ≤ qty f.1 := by
  obtain ⟨-, left, -, hmin⟩ := mem_fills hf
  rw [hmin]
  exact min_le_right left _

theorem fills_nonneg (h0 : ∀ r ∈ L, 0 ≤ qty r) {f : ℕ × ℤ} (hf : f ∈ fills qty L q) : 0 ≤ f.2 := by
  obtain ⟨hmem, left, hleft, hmin⟩ := mem_fills hf
  rw [hmin]
  exact le_min hleft.le (h0 _ hmem)

theorem fills_pos (h0 : ∀ r ∈ L, 0 < qty r) {f : ℕ × ℤ} (hf : f ∈ fills qty L q) : 0 < f.2 := by
  obtain ⟨hmem, left, hleft, hmin⟩ := mem_fills hf
  rw [hmin]
  exact lt_min hleft (h0 _ hmem)

/-- The taker is not filled beyond its quantity. -/
theorem traded_le (h0 : ∀ r ∈ L, 0 ≤ qty r) (hq : 0 ≤ q) : 0 ≤ traded (fills qty L q) ∧ traded (fills qty L q) ≤ q := by
  induction L generalizing q with
  | nil => exact ⟨le_refl 0, hq⟩
  | cons r L ih =>
    have hr := h0 r List.mem_cons_self
    unfold fills
    split_ifs with hpos
    · have hih := ih (fun j hj => h0 j (List.mem_cons_of_mem r hj)) (show 0 ≤ q - min q (qty r) by omega)
      rw [traded_cons]
      dsimp only
      omega
    · exact ⟨le_refl 0, hq⟩

/-- If the taker has something left, every maker is used up. -/
theorem fills_all (hleft : traded (fills qty L q) < q) : fills qty L q = L.map (fun r => (r, qty r)) := by
  induction L generalizing q with
  | nil => rfl
  | cons r L ih =>
    unfold fills at hleft ⊢
    split_ifs at hleft ⊢ with hpos
    · rw [traded_cons] at hleft
      dsimp only at hleft
      have hmin : min q (qty r) = qty r := by
        by_contra hne
        have hz : q - min q (qty r) ≤ 0 := by omega
        rw [fills_of_nonpos hz, traded_nil] at hleft
        omega
      rw [hmin] at hleft ⊢
      rw [ih (by omega), List.map_cons]
    · rw [traded_nil] at hleft
      omega

/-- All fills but the last use up their makers. -/
theorem fills_dropLast (qty : ℕ → ℤ) (L : List ℕ) (q : ℤ) :
    ((fills qty L q).map Prod.snd).dropLast <+: L.map qty := by
  induction L generalizing q with
  | nil => exact List.nil_prefix
  | cons r L ih =>
    unfold fills
    split_ifs with hq
    · have ih' := ih (q - min q (qty r))
      cases hf : fills qty L (q - min q (qty r)) with
      | nil => exact List.nil_prefix
      | cons f fs =>
        rw [hf] at ih'
        -- something was left for the next maker
        have hleft : ¬ (q - min q (qty r) ≤ 0) := by
          intro hle
          rw [fills_of_nonpos hle] at hf
          cases hf
        rw [List.map_cons, List.map_cons, List.map_cons, show min q (qty r) = qty r by omega,
          List.dropLast_cons_cons]
        exact (List.prefix_cons_inj _).mpr ih'
    · exact List.nil_prefix

/-- The taker's quantity decides: what the makers have is taken, as far as it goes. -/
theorem traded_eq (h0 : ∀ r ∈ L, 0 ≤ qty r) (hq : 0 ≤ q) : traded (fills qty L q) = min q ((L.map qty).sum) := by
  induction L generalizing q with
  | nil => simp [fills, hq]
  | cons r L ih =>
    have hr := h0 r List.mem_cons_self
    have hL : 0 ≤ (L.map qty).sum := List.sum_nonneg (by
      intro x hx
      obtain ⟨j, hj, rfl⟩ := List.mem_map.mp hx
      exact h0 j (List.mem_cons_of_mem r hj))
    unfold fills
    split_ifs with hpos
    · rw [traded_cons, ih (fun j hj => h0 j (List.mem_cons_of_mem r hj)) (by omega), List.map_cons, List.sum_cons]
      dsimp only
      omega
    · rw [List.map_cons, List.sum_cons, traded_nil]
      omega

end Fills

/-! ## One round -/

namespace View

variable {cfg : Config} {V : View} {side s : Side} {p q t : ℤ} {r j : ℕ} {taker : Option ℕ} {L : List ℕ}

/-- An order that is unlinked is missing from every queue. -/
theorem queues_unlink_eq (h : V.Queued) (hr : r ∈ V.queues s p) (s' : Side) (p' : ℤ) :
    (V.unlink r).queues s' p' = (V.queues s' p').filter (fun j => j ≠ r) := by
  obtain ⟨hs, hp⟩ := h.member s p r hr
  rw [queues_unlink hs hp]
  by_cases hsp : s' = s ∧ p' = p
  · obtain ⟨rfl, rfl⟩ := hsp
    rw [Queues.set_self, (h.nodup s' p').erase_eq_filter]
    exact List.filter_congr (fun j _ => by by_cases hj : j = r <;> simp [hj])
  · rw [Queues.set_of_ne hsp]
    refine (List.filter_eq_self.mpr (fun j hj => ?_)).symm
    rw [decide_eq_true_eq]
    rintro rfl
    obtain ⟨hs', hp'⟩ := h.member s' p' j hj
    exact hsp ⟨hs'.symm.trans hs, hp'.symm.trans hp⟩

theorem queues_leave (h : V.Queued) (hr : r ∈ V.queues s p) (s' : Side) (p' : ℤ) :
    (V.leave cfg r).queues s' p' = (V.queues s' p').filter (fun j => j ≠ r) := queues_unlink_eq h hr s' p'

theorem queues_hit (h : V.Queued) (hr : r ∈ V.queues s p) (hne : taker ≠ some r) (s' : Side) (p' : ℤ) :
    ((V.pay t taker).hit cfg t r).queues s' p' =
      (V.queues s' p').filter (fun j => ¬ (j = r ∧ t = (V.data r).qty)) := by
  have hd : (V.met t taker r).data r = OrderData.fill t (V.data r) := by
    rw [data_met, if_pos rfl, data_pay, if_neg hne]
  have hqty : ((V.met t taker r).data r).qty = (V.data r).qty - t := by
    rw [hd]
    rfl
  rw [hit_eq]
  split_ifs with h0
  · rw [queues_leave (s := s) (p := p) (queued_met h) (by rw [queues_met]; exact hr), queues_met]
    refine List.filter_congr (fun j _ => ?_)
    have ht : t = (V.data r).qty := by omega
    simp [ht]
  · rw [queues_met]
    refine (List.filter_eq_self.mpr (fun j _ => ?_)).symm
    rw [decide_eq_true_eq]
    rintro ⟨-, ht⟩
    omega

theorem data_round (hne : taker ≠ some r) : ((V.pay t taker).hit cfg t r).data j =
    if j = r ∨ taker = some j then OrderData.fill t (V.data j) else V.data j := by
  rw [data_hit, data_pay, data_pay]
  by_cases hj : j = r
  · subst hj
    simp [hne]
  · simp [hj]

theorem Queued.round (h : V.Queued) (hr : r ∈ V.queues s p) (hne : taker ≠ some r) :
    ((V.pay t taker).hit cfg t r).Queued := by
  refine ⟨fun s' p' j hj => ?_, fun s' p' => ?_⟩
  · rw [queues_hit h hr hne] at hj
    have hm := h.member s' p' j (List.mem_of_mem_filter hj)
    rw [data_round hne]
    split_ifs
    · exact hm
    · exact hm
  · rw [queues_hit h hr hne]
    exact (h.nodup s' p').filter _

theorem lined_tail (h : Lined V side taker (r :: L)) :
    Lined ((V.pay t taker).hit cfg t r) side taker L := by
  obtain ⟨p, hp⟩ := h.rest r List.mem_cons_self
  have hne := h.ne r List.mem_cons_self
  have hnd := List.nodup_cons.mp h.nodup
  refine ⟨h.queued.round hp hne, fun j hj => ?_, hnd.2, fun j hj => h.ne j (List.mem_cons_of_mem r hj)⟩
  obtain ⟨p', hp'⟩ := h.rest j (List.mem_cons_of_mem r hj)
  refine ⟨p', ?_⟩
  rw [queues_hit h.queued hp hne]
  refine List.mem_filter.mpr ⟨hp', ?_⟩
  rw [decide_eq_true_eq]
  rintro ⟨rfl, -⟩
  exact hnd.1 hj

/-! ## The whole sweep -/

/-- A property of the view that every round keeps, the sweep keeps. -/
theorem sweep_invariant {P : View → Prop} (hstep : ∀ (W : View) (r : ℕ) (t : ℤ), r ∈ L → W.Queued →
      (∃ p, r ∈ W.queues side.opp p) → P W → P ((W.pay t taker).hit cfg t r))
    (h : Lined V side taker L) (hP : P V) : P (V.sweep cfg taker L q).1 := by
  induction L generalizing V q with
  | nil => exact hP
  | cons r L ih =>
    unfold sweep
    split_ifs
    · exact ih (fun W j t hj => hstep W j t (List.mem_cons_of_mem r hj)) (lined_tail h)
        (hstep V r _ List.mem_cons_self h.queued (h.rest r List.mem_cons_self) hP)
    · exact hP

/-- The makers behind the first one are not touched by its round. -/
theorem data_tail (h : Lined V side taker (r :: L)) (hj : j ∈ L) :
    ((V.pay t taker).hit cfg t r).data j = V.data j := by
  rw [data_round (h.ne r List.mem_cons_self), if_neg]
  rintro (rfl | he)
  · exact (List.nodup_cons.mp h.nodup).1 hj
  · exact h.ne j (List.mem_cons_of_mem r hj) he

theorem fills_tail (h : Lined V side taker (r :: L)) :
    fills (fun j => (((V.pay t taker).hit cfg t r).data j).qty) L q = fills (fun j => (V.data j).qty) L q :=
  fills_congr (fun j hj => by rw [data_tail h hj]) q

/-- **The queues after a sweep**: the makers that are used up leave, all others keep their place. -/
theorem queues_sweep (h : Lined V side taker L) (s' : Side) (p' : ℤ) : (V.sweep cfg taker L q).1.queues s' p' =
    (V.queues s' p').filter (fun j => ¬ (j, (V.data j).qty) ∈ fills (fun j => (V.data j).qty) L q) := by
  induction L generalizing V q with
  | nil => simp [sweep, fills]
  | cons r L ih =>
    obtain ⟨p, hp⟩ := h.rest r List.mem_cons_self
    have hnd := List.nodup_cons.mp h.nodup
    unfold sweep fills
    split_ifs
    · dsimp only
      rw [ih (lined_tail h), fills_tail h, queues_hit h.queued hp (h.ne r List.mem_cons_self), List.filter_filter]
      refine List.filter_congr (fun j _ => ?_)
      have hiff : (j, (((V.pay (min q (V.data r).qty) taker).hit cfg (min q (V.data r).qty) r).data j).qty) ∈
          fills (fun j => (V.data j).qty) L (q - min q (V.data r).qty) ↔
          (j, (V.data j).qty) ∈ fills (fun j => (V.data j).qty) L (q - min q (V.data r).qty) := by
        by_cases hj : j ∈ L
        · rw [data_tail h hj]
        · exact ⟨fun hm => absurd (fills_mem hm) hj, fun hm => absurd (fills_mem hm) hj⟩
      rw [Bool.eq_iff_iff]
      simp only [Bool.and_eq_true, decide_eq_true_eq, hiff, List.mem_cons, Prod.mk.injEq, not_or]
      constructor
      · rintro ⟨h1, h2⟩
        exact ⟨fun he => h2 ⟨he.1, by rw [← he.2, he.1]⟩, h1⟩
      · rintro ⟨h1, h2⟩
        exact ⟨h2, fun he => h1 ⟨he.1, by rw [he.2, he.1]⟩⟩
    · simp

/-- Orders that are neither maker nor taker stay as they are. -/
theorem data_sweep_other (h : Lined V side taker L)
    (hj : j ∉ (fills (fun j => (V.data j).qty) L q).map Prod.fst) (ht : taker ≠ some j) :
    (V.sweep cfg taker L q).1.data j = V.data j := by
  induction L generalizing V q with
  | nil => rfl
  | cons r L ih =>
    unfold sweep
    unfold fills at hj
    split_ifs at hj ⊢
    · rw [List.map_cons, List.mem_cons, not_or] at hj
      dsimp only
      rw [ih (lined_tail h) (by rw [fills_tail h]; exact hj.2), data_round (h.ne r List.mem_cons_self), if_neg]
      rintro (h1 | h1)
      · exact hj.1 h1
      · exact ht h1
    · rfl

/-- A maker is filled once. -/
theorem data_sweep_maker (h : Lined V side taker L) {x : ℤ} (hj : (j, x) ∈ fills (fun j => (V.data j).qty) L q) :
    (V.sweep cfg taker L q).1.data j = OrderData.fill x (V.data j) := by
  induction L generalizing V q with
  | nil => exact absurd hj List.not_mem_nil
  | cons r L ih =>
    have hnd := List.nodup_cons.mp h.nodup
    unfold sweep
    unfold fills at hj
    split_ifs at hj ⊢
    · dsimp only
      rcases List.mem_cons.mp hj with he | hj
      · rw [Prod.mk.injEq] at he
        obtain ⟨rfl, rfl⟩ := he
        rw [data_sweep_other (lined_tail h), data_round (h.ne j List.mem_cons_self), if_pos (Or.inl rfl)]
        · rw [fills_tail h]
          intro hm
          obtain ⟨f, hf, he⟩ := List.mem_map.mp hm
          exact hnd.1 (he ▸ fills_mem hf)
        · exact h.ne j List.mem_cons_self
      · have hjL := fills_mem hj
        rw [ih (lined_tail h) (by rw [fills_tail h]; exact hj), data_tail h hjL]
    · exact absurd hj List.not_mem_nil

/-- The taker is filled by every round. -/
theorem data_sweep_taker (h : Lined V side (some j) L) : (V.sweep cfg (some j) L q).1.data j =
    (fills (fun j => (V.data j).qty) L q).foldl (fun d f => d.fill f.2) (V.data j) := by
  induction L generalizing V q with
  | nil => rfl
  | cons r L ih =>
    unfold sweep fills
    split_ifs
    · dsimp only
      rw [ih (lined_tail h), fills_tail h, data_round (h.ne r List.mem_cons_self), if_pos (Or.inr rfl), List.foldl_cons]
    · rfl

/-- The queues on the taker's side stay. -/
theorem queues_sweep_side (h : Lined V side taker L) (p' : ℤ) :
    (V.sweep cfg taker L q).1.queues side p' = V.queues side p' := by
  rw [queues_sweep h, List.filter_eq_self]
  intro j hj
  rw [decide_eq_true_eq]
  intro hm
  obtain ⟨p, hp⟩ := h.rest j (fills_mem hm)
  have h1 := (h.queued.member _ _ _ hj).1
  rw [(h.queued.member _ _ _ hp).1] at h1
  exact Side.opp_ne side h1

/-- Only the level of a resting taker is off, by what the taker has paid. -/
theorem slack_sweep (h : Lined V side taker L) (s' : Side) (p' : ℤ) : (V.sweep cfg taker L q).1.slack s' p' =
    V.slack s' p' + match taker with
      | none => 0
      | some i => if s' = (V.data i).side ∧ p' = (V.data i).price then
          traded (fills (fun j => (V.data j).qty) L q) else 0 := by
  induction L generalizing V q with
  | nil => cases taker <;> simp [sweep, fills]
  | cons r L ih =>
    have hne := h.ne r List.mem_cons_self
    have hslack : ∀ t, ((V.pay t taker).hit cfg t r).slack = (V.pay t taker).slack := by
      intro t
      rw [hit_eq]
      split_ifs <;> rfl
    unfold sweep fills
    split_ifs
    · dsimp only
      rw [ih (lined_tail h), fills_tail h, hslack]
      cases taker with
      | none => rfl
      | some i =>
        dsimp only
        rw [data_round hne, if_pos (Or.inr rfl)]
        show (if s' = (V.data i).side ∧ p' = (V.data i).price then _ else _) + (if s' = (V.data i).side ∧
          p' = (V.data i).price then _ else _) = _
        split_ifs with hsp
        · rw [traded_cons, hsp.1, hsp.2]
          dsimp only
          show V.slack _ _ + _ + _ = _
          omega
        · rfl
    · cases taker <;> simp

end View

end Wirekrak.Flashstrike

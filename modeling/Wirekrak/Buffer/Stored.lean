import Wirekrak.Buffer.ManagedRing

/-!
# Wirekrak.Buffer.Stored — what a managed ring holds, message by message

`Stored L cur reader base obtained msgs r`: since the count `base` the producer has committed the messages `msgs` and
the consumer has obtained `obtained`; every message that is not handed back yet stands in its slot, byte for byte.
With `cur` the producer holds the slot at `head`.  One lemma for each operation of the producer and of the consumer
says how `Stored` is carried on.
-/

namespace Wirekrak.Buffer

/-- Where the consumer stands: it holds no slot, it reads one, or it has reset one and is about to release it. -/
inductive Reader
  | idle
  | reading
  | handing
  deriving DecidableEq, Repr

/-- Counts less than `n` apart have different slots. -/
theorem mod_ne_of_lt {n k k' : ℕ} (h : k < k') (hn : k' < k + n) : k % n ≠ k' % n := by
  intro he
  have hd : n ∣ k' - k := Nat.dvd_of_mod_eq_zero (Nat.sub_mod_eq_zero_of_mod_eq he.symm)
  have := Nat.le_of_dvd (by omega) hd
  omega

namespace ManagedRing

/-- A slot that holds nothing. -/
def Blank (i : ℕ) (r : ManagedRing) : Prop :=
  (r.slots i).size = 0 ∧ (r.slots i).external = none

/-- Only the slots of the counts from `lo` to `hi` hold something. -/
def Tidy (L : Layout) (lo hi : ℕ) (r : ManagedRing) : Prop :=
  ∀ i, (∀ k, lo ≤ k → k < hi → k % L.capacity ≠ i) → r.Blank i

structure Stored (L : Layout) (cur : Bool) (reader : Reader) (base : ℕ) (obtained msgs : List (List UInt8))
    (r : ManagedRing) : Prop where
  owned : r.Owned
  sizes : ∀ i, (r.slots i).size ≤ (r.slots i).capacity L
  order : base ≤ r.tail ∧ r.tail ≤ r.head
  room : r.head - r.tail + cur.toNat < L.capacity
  tidy : r.Tidy L r.tail (r.head + cur.toNat)
  count : r.head = base + msgs.length
  reading : reader ≠ .idle → r.tail < r.head
  handing : reader = .handing → r.Blank (r.tailSlot L)
  obtained : obtained = msgs.take (r.tail - base + if reader = .idle then 0 else 1)
  contents : ∀ k, r.tail + (if reader = .handing then 1 else 0) ≤ k → k < r.head →
    msgs[k - base]? = some (r.payload (k % L.capacity))

variable {L : Layout} {cur : Bool} {reader : Reader} {base : ℕ} {obtained msgs : List (List UInt8)}
  {r r' : ManagedRing}

theorem Blank.payload {i : ℕ} (h : r.Blank i) : r.payload i = [] := by
  unfold ManagedRing.payload
  rw [h.1]
  rfl

theorem Only.blank {i j : ℕ} (h : Only i r r') (hj : j ≠ i) (hb : r.Blank j) : r'.Blank j := by
  unfold Blank
  rw [h.slots j hj]
  exact hb

theorem blank_reset (r : ManagedRing) (i : ℕ) : (r.reset i).Blank i :=
  reset_slot r i

theorem Only.tidy {i lo hi : ℕ} (h : Only i r r') (ht : r.Tidy L lo hi)
    (hi' : r'.Blank i ∨ ∃ k, lo ≤ k ∧ k < hi ∧ k % L.capacity = i) : r'.Tidy L lo hi := by
  intro j hj
  by_cases hji : j = i
  · rcases hi' with hb | ⟨k, hlo, hhi, hk⟩
    · rw [hji]
      exact hb
    · exact absurd (hk.trans hji.symm) (hj k hlo hhi)
  · exact h.blank hji (ht j hj)

/-- The `n` oldest slots are dropped one after the other; the slots of the later counts stay as they are. -/
theorem iterate_drop (n : ℕ) {hi : ℕ} (ho : r.Owned) (hs : ∀ i, (r.slots i).size ≤ (r.slots i).capacity L)
    (hle : r.tail + n ≤ hi) (ht : r.Tidy L r.tail hi) : ((drop L)^[n] r).Owned ∧
      (∀ i, (((drop L)^[n] r).slots i).size ≤ (((drop L)^[n] r).slots i).capacity L) ∧
      ((drop L)^[n] r).Tidy L (r.tail + n) hi ∧ ((drop L)^[n] r).tail = r.tail + n ∧ ((drop L)^[n] r).head = r.head ∧
      ∀ j, (∀ k, r.tail ≤ k → k < r.tail + n → k % L.capacity ≠ j) → ((drop L)^[n] r).payload j = r.payload j := by
  induction n generalizing r with
  | zero => exact ⟨ho, hs, ht, rfl, rfl, fun _ _ => rfl⟩
  | succ n ih =>
    have hon := only_reset ho (r.tailSlot L)
    have hb := blank_reset r (r.tailSlot L)
    have h1 : (r.drop L).Owned := ⟨hon.owned.inj, hon.owned.away, hon.owned.nodup⟩
    have h2 : ∀ i, ((r.drop L).slots i).size ≤ ((r.drop L).slots i).capacity L := by
      intro i
      by_cases hi : i = r.tailSlot L
      · have hz : ((r.drop L).slots i).size = 0 := by
          rw [hi]
          exact hb.1
        omega
      · have hsame : (r.drop L).slots i = r.slots i := hon.slots i hi
        rw [hsame]
        exact hs i
    have h3 : (r.drop L).Tidy L (r.tail + 1) hi := by
      intro i hi
      by_cases hit : i = r.tailSlot L
      · rw [hit]
        exact hb
      · refine hon.blank hit (ht i fun k hlo hhi => ?_)
        by_cases hk : k = r.tail
        · rw [hk]
          exact Ne.symm hit
        · exact hi k (by omega) hhi
    have htail : (r.drop L).tail = r.tail + 1 := rfl
    obtain ⟨h4, h5, h6, h7, h8, h9⟩ := ih h1 h2 (by omega) h3
    have hn : (r.drop L).tail + n = r.tail + (n + 1) := by omega
    rw [hn] at h6 h7 h9
    rw [Function.iterate_succ_apply]
    refine ⟨h4, h5, h6, h7, h8, fun j hj => ?_⟩
    rw [h9 j fun k hlo hhi => hj k (by omega) hhi]
    exact hon.payload (Ne.symm (hj r.tail (Nat.le_refl _) (by omega)))

namespace Stored

theorem slot_ne_head (h : Stored L true reader base obtained msgs r) {k : ℕ} (hlo : r.tail ≤ k) (hhi : k < r.head) :
    k % L.capacity ≠ r.headSlot L := by
  have := h.room
  have := h.order
  rw [Bool.toNat_true] at *
  exact mod_ne_of_lt hhi (by omega)

/-- A change of the slot that the producer holds. -/
theorem touch (h : Stored L true reader base obtained msgs r) (ho : Only (r.headSlot L) r r')
    (hsize : (r'.slots (r.headSlot L)).size ≤ (r'.slots (r.headSlot L)).capacity L) :
    Stored L true reader base obtained msgs r' := by
  have horder := h.order
  constructor
  · exact ho.owned
  · intro i
    by_cases hi : i = r.headSlot L
    · rw [hi]
      exact hsize
    · rw [ho.slots i hi]
      exact h.sizes i
  · rw [ho.head, ho.tail]
    exact h.order
  · rw [ho.head, ho.tail]
    exact h.room
  · rw [ho.head, ho.tail]
    exact ho.tidy h.tidy (.inr ⟨r.head, horder.2, by simp, rfl⟩)
  · rw [ho.head]
    exact h.count
  · rw [ho.head, ho.tail]
    exact h.reading
  · intro hr
    rw [ho.tailSlot]
    exact ho.blank (h.slot_ne_head (Nat.le_refl _) (h.reading (by rw [hr]; simp))) (h.handing hr)
  · rw [ho.tail]
    exact h.obtained
  · intro k hlo hhi
    rw [ho.tail] at hlo
    rw [ho.head] at hhi
    rw [ho.payload (h.slot_ne_head (by omega) hhi)]
    exact h.contents k hlo hhi

/-- `acquire_producer_slot`. -/
theorem acquire (h : Stored L false reader base obtained msgs r) (hroom : r.room L = true) :
    Stored L true reader base obtained msgs r ∧ r.Blank (r.headSlot L) := by
  have hr := h.room
  have hord := h.order
  have hlt : r.head - r.tail + 1 < L.capacity := of_decide_eq_true hroom
  refine ⟨{ h with room := by simpa using hlt, tidy := ?_ }, ?_⟩
  · intro i hi
    refine h.tidy i fun k hlo hhi => hi k hlo ?_
    simp at hhi ⊢
    omega
  · refine h.tidy _ fun k hlo hhi => ?_
    simp at hhi
    exact mod_ne_of_lt hhi (by omega)

/-- `discard_producer_slot`. -/
theorem discard (h : Stored L true reader base obtained msgs r) :
    Stored L false reader base obtained msgs (r.reset (r.headSlot L)) := by
  have ho := only_reset h.owned (r.headSlot L)
  have hb := blank_reset r (r.headSlot L)
  have h1 := h.touch ho (by rw [hb.1]; exact Nat.zero_le _)
  refine { h1 with room := by have := h1.room; simp at this ⊢; omega, tidy := ?_ }
  intro i hi
  by_cases hih : i = r.headSlot L
  · rw [hih]
    exact hb
  · refine h1.tidy i fun k hlo hhi => ?_
    simp only [Bool.toNat_true, Bool.toNat_false, Nat.add_zero] at hhi hi
    by_cases hk : k < (r.reset (r.headSlot L)).head
    · exact hi k hlo hk
    · have hkh : k = r.head := by
        have : (r.reset (r.headSlot L)).head = r.head := rfl
        omega
      rw [hkh]
      exact Ne.symm hih

/-- `commit_producer_slot`. -/
theorem publish (h : Stored L true reader base obtained msgs r) :
    Stored L false reader base obtained (msgs ++ [r.payload (r.headSlot L)]) { r with head := r.head + 1 } := by
  have hroom := h.room
  have horder := h.order
  have hcount := h.count
  simp only [Bool.toNat_true] at hroom
  constructor
  · exact ⟨h.owned.inj, h.owned.away, h.owned.nodup⟩
  · exact h.sizes
  · exact ⟨horder.1, Nat.le_succ_of_le horder.2⟩
  · simp only [Bool.toNat_false]
    omega
  · exact h.tidy
  · simp only [List.length_append, List.length_singleton]
    omega
  · intro hr
    exact Nat.lt_succ_of_lt (h.reading hr)
  · exact h.handing
  · have hle : (r.tail - base + if reader = .idle then 0 else 1) ≤ msgs.length := by
      split
      · omega
      · next hne =>
        have := h.reading hne
        omega
    rw [List.take_append_of_le_length hle]
    exact h.obtained
  · intro k hlo hhi
    simp only at hlo hhi
    by_cases hk : k < r.head
    · rw [List.getElem?_append_left (by omega)]
      exact h.contents k hlo hk
    · have hkh : k = r.head := by omega
      rw [hkh, List.getElem?_append_right (by omega)]
      have hz : r.head - base - msgs.length = 0 := by omega
      rw [hz]
      rfl

/-! ## The consumer -/

/-- `peek_consumer_slot`, and the payload is read. -/
theorem peek (h : Stored L cur .idle base obtained msgs r) (hlt : r.tail < r.head) :
    Stored L cur .reading base (obtained ++ [r.payload (r.tailSlot L)]) msgs r := by
  have hc := h.contents r.tail (by simp) hlt
  refine { h with reading := fun _ => hlt, handing := nofun, obtained := ?_, contents := ?_ }
  · have ho := h.obtained
    simp only [if_true, Nat.add_zero] at ho
    rw [ho, if_neg (by simp), List.take_add_one, hc]
    rfl
  · intro k hlo hhi
    exact h.contents k (by simpa using hlo) hhi

/-- The slot that is read holds what was obtained last, as long as it is read. -/
theorem last (h : Stored L cur .reading base obtained msgs r) : obtained.getLast? = some (r.payload (r.tailSlot L)) := by
  have hlt := h.reading (by simp)
  have hc := h.contents r.tail (by simp) hlt
  have ho := h.obtained
  rw [if_neg (by simp), List.take_add_one, hc] at ho
  rw [ho, Option.toList_some, List.getLast?_concat]
  rfl

/-- The first half of `release_consumer_slot`: the slot is reset. -/
theorem hand (h : Stored L cur .reading base obtained msgs r) :
    Stored L cur .handing base obtained msgs (r.reset (r.tailSlot L)) := by
  have ho := only_reset h.owned (r.tailSlot L)
  have hb := blank_reset r (r.tailSlot L)
  have hlt := h.reading (by simp)
  have hroom := h.room
  constructor
  · exact ho.owned
  · intro i
    by_cases hi : i = r.tailSlot L
    · rw [hi, hb.1]
      exact Nat.zero_le _
    · rw [ho.slots i hi]
      exact h.sizes i
  · exact h.order
  · exact h.room
  · exact ho.tidy h.tidy (.inl hb)
  · exact h.count
  · exact fun _ => hlt
  · exact fun _ => hb
  · exact h.obtained
  · intro k hlo hhi
    change r.tail + 1 ≤ k at hlo
    change k < r.head at hhi
    have hne : k % L.capacity ≠ r.tailSlot L := Ne.symm (mod_ne_of_lt (by omega) (by omega))
    rw [ho.payload hne]
    refine h.contents k ?_ hhi
    rw [if_neg (by simp)]
    omega

/-- The second half of `release_consumer_slot`: the count is advanced. -/
theorem release (h : Stored L cur .handing base obtained msgs r) :
    Stored L cur .idle base obtained msgs { r with tail := r.tail + 1 } := by
  have hlt := h.reading (by simp)
  have horder := h.order
  have hroom := h.room
  constructor
  · exact ⟨h.owned.inj, h.owned.away, h.owned.nodup⟩
  · exact h.sizes
  · exact ⟨Nat.le_succ_of_le horder.1, hlt⟩
  · simp only
    omega
  · intro i hi
    by_cases hit : i = r.tailSlot L
    · rw [hit]
      exact h.handing rfl
    · refine h.tidy i fun k hlo hhi => ?_
      by_cases hk : k = r.tail
      · rw [hk]
        exact Ne.symm hit
      · exact hi k (by simp only; omega) hhi
  · exact h.count
  · exact fun hr => absurd rfl hr
  · exact fun hr => by cases hr
  · have ho := h.obtained
    rw [if_neg (by simp)] at ho
    rw [ho, if_pos rfl]
    congr 1
    simp only
    omega
  · intro k hlo hhi
    exact h.contents k (by simpa using hlo) hhi

/-! ## A new epoch -/

/-- `clear`: what is committed is dropped, and the next messages are counted from here; a slot that the producer
holds is left to it. -/
theorem clear (h : Stored L cur reader base obtained msgs r) :
    Stored L cur .idle (r.clear L).head [] [] (r.clear L) ∧ (r.clear L).head = r.head ∧
      (cur = true → (r.clear L).payload (r.headSlot L) = r.payload (r.headSlot L)) := by
  have horder := h.order
  have hroom := h.room
  have hn : r.tail + (r.head - r.tail) = r.head := by omega
  obtain ⟨h1, h2, h3, h4, h5, h6⟩ := iterate_drop (r.head - r.tail) h.owned h.sizes (by omega) h.tidy
  rw [hn] at h3 h4 h6
  have hhead : (r.clear L).head = r.head := h5
  have htail : (r.clear L).tail = (r.clear L).head := h4.trans h5.symm
  refine ⟨?_, hhead, fun hc => h6 _ fun k hlo hhi => ?_⟩
  · constructor
    · exact h1
    · exact h2
    · omega
    · omega
    · rw [htail, hhead]
      exact h3
    · simp
    · exact fun hr => absurd rfl hr
    · exact fun hr => by cases hr
    · simp
    · intro k hlo hhi
      rw [htail] at hlo
      simp at hlo
      omega
  · rw [hc, Bool.toNat_true] at hroom
    exact mod_ne_of_lt hhi (by omega)

/-- The ring as it is built. -/
theorem init (L : Layout) {free : List ℕ} (h : free.Nodup) : Stored L false .idle 0 [] [] { free := free } := by
  have htwo := L.two_le
  constructor
  · exact ⟨fun hi => (by cases hi), fun hi => (by cases hi), h⟩
  · exact fun i => Nat.zero_le _
  · exact ⟨Nat.le_refl _, Nat.le_refl _⟩
  · simp
    omega
  · exact fun i _ => ⟨rfl, rfl⟩
  · rfl
  · exact fun hr => absurd rfl hr
  · exact fun hr => by cases hr
  · rfl
  · intro k _ hhi
    exact absurd hhi (Nat.not_lt_zero _)

end Stored

end ManagedRing

end Wirekrak.Buffer

import Mathlib.Data.Nat.Bitwise
import Mathlib.Data.List.AList
import Mathlib.Data.List.Nodup
import Mathlib.Data.List.Perm.Subperm
import Wirekrak.Flashstrike.OrderIdMap
import Wirekrak.Lib.Run

/-!
# Wirekrak.Flashstrike.OrderIdTable — the id map with its machine indices, and as a finite map

`OrderIdMap` takes the slots of a probe modulo the capacity.  The code computes them with a 32-bit mask and a 32-bit
index, with a sign (`index`); `scan` is the probing loop on these, which leaves the table where the index is negative.

* `scan_eq`: up to `2 ^ 31` slots the loop visits the slots of `OrderIdMap`.
* `call_refines`: a call answers as the finite map does, whatever the removals before it have left.
* `refines_map_iff`: all runs of calls are answered so exactly if the pool has at most `2 ^ 30 + 64` orders.
-/

namespace Wirekrak.Flashstrike

open Wirekrak.Lib

namespace OrderIdMap

/-- `std::int32_t mask_`. -/
def mask (m : OrderIdMap) : ℤ := Int.bmod (m.capacity - 1) (2 ^ 32)

/-- `h = hash_orderId_(ordid) & mask_` and `HashMapIdx idx = (h + i) & mask_`. -/
def index (m : OrderIdMap) (ordid : OrderId) (i : ℕ) : ℤ :=
  let h := (ordid * 2654435761).toNat &&& (m.mask % 2 ^ 32).toNat
  Int.bmod (((h + i) % 2 ^ 64 &&& (m.mask % 2 ^ 64).toNat : ℕ) : ℤ) (2 ^ 32)

/-- The probing loop from round `i` on; `none` if it reads outside of the table. -/
def scan (m : OrderIdMap) (ordid : OrderId) (stop : OrderId → Bool) : ℕ → ℕ → Option (Option ℕ)
  | 0, _ => some none
  | n + 1, i =>
    let idx := m.index ordid i
    if 0 ≤ idx ∧ idx < m.capacity then
      if stop (m.table idx.toNat).key then some (some idx.toNat) else scan m ordid stop n (i + 1)
    else none

inductive Call
  | insert (ordid : OrderId) (orderIdx : ℕ)
  | find (ordid : OrderId)
  | remove (ordid : OrderId)

inductive Reply
  | inserted (ok : Bool)
  | found (orderIdx : OrderIdx)
  | removed (ok : Bool)
  deriving DecidableEq

/-- A call of the map: its reply and the map after it. -/
def call (m : OrderIdMap) : Call → Option (Reply × OrderIdMap)
  | .find ordid => do
    match ← m.scan ordid (fun k => k = emptyKey || k = ordid) m.capacity 0 with
    | none => return (.found none, m)
    | some idx => return (.found (if (m.table idx).key = emptyKey then none else (m.table idx).val), m)
  | .insert ordid orderIdx => do
    match ← m.scan ordid (fun k => k = emptyKey || k = tombstoneKey) m.capacity 0 with
    | none => return (.inserted false, m)
    | some idx => return (.inserted true, { m with table := Function.update m.table idx ⟨ordid, some orderIdx⟩ })
  | .remove ordid => do
    match ← m.scan ordid (fun k => k = emptyKey || k = ordid) m.capacity 0 with
    | none => return (.removed false, m)
    | some idx =>
      if (m.table idx).key = emptyKey then return (.removed false, m)
      else return (.removed true, { m with table := Function.update m.table idx ⟨tombstoneKey, none⟩ })

/-- The replies to a list of calls. -/
def replies (m : OrderIdMap) : List Call → Option (List Reply)
  | [] => some []
  | c :: cs => do
    let (r, m') ← m.call c
    let rs ← replies m' cs
    return r :: rs

/-! ## The finite map -/

/-- The ids in use with their values. -/
abbrev Live := AList (fun _ : OrderId => ℕ)

def Live.call (l : Live) : Call → Reply × Live
  | .find ordid => (.found (l.lookup ordid), l)
  | .insert ordid orderIdx => (.inserted true, l.insert ordid orderIdx)
  | .remove ordid => (.removed (l.lookup ordid).isSome, l.erase ordid)

def Live.replies (l : Live) : List Call → List Reply
  | [] => []
  | c :: cs => (l.call c).1 :: Live.replies (l.call c).2 cs

/-- No call names a reserved id; an id is inserted while it is absent and there is room in the pool. -/
def Live.Proper (maxOrders : ℕ) (l : Live) : Call → Prop
  | .find ordid => Usable ordid
  | .insert ordid _ => Usable ordid ∧ l.lookup ordid = none ∧ l.keys.length < maxOrders
  | .remove ordid => Usable ordid

instance (maxOrders : ℕ) (l : Live) : ∀ c : Call, Decidable (l.Proper maxOrders c)
  | .find ordid => inferInstanceAs (Decidable (Usable ordid))
  | .insert ordid _ => inferInstanceAs (Decidable (Usable ordid ∧ l.lookup ordid = none ∧ l.keys.length < maxOrders))
  | .remove ordid => inferInstanceAs (Decidable (Usable ordid))

/-! ## The size of the table -/

/-- The size is the first power of two that is large enough. -/
theorem roundUp_spec (fuel cap n : ℕ) : ∃ k ≤ fuel, roundUp fuel cap n = 2 ^ k * cap ∧
    (n ≤ 2 ^ k * cap ∨ k = fuel) ∧ (k = 0 ∨ 2 ^ (k - 1) * cap < n) := by
  induction fuel generalizing cap with
  | zero => exact ⟨0, le_rfl, (by simp [roundUp]), .inr rfl, .inl rfl⟩
  | succ fuel ih =>
    unfold roundUp
    by_cases hlt : cap < n
    · rw [if_pos hlt]
      obtain ⟨k, hk, heq, hlarge, hmin⟩ := ih (2 * cap)
      have hpow : 2 ^ (k + 1) * cap = 2 ^ k * (2 * cap) := by rw [pow_succ, mul_assoc]
      refine ⟨k + 1, by omega, by rw [heq, hpow], ?_, .inr ?_⟩
      · rw [hpow]
        exact hlarge.imp_right (congrArg (· + 1))
      · rcases hmin with rfl | hmin
        · simpa using hlt
        · by_cases hk0 : k = 0
          · subst hk0
            simpa using hlt
          · obtain ⟨k', rfl⟩ := Nat.exists_eq_succ_of_ne_zero hk0
            have hpow' : 2 ^ k' * (2 * cap) = 2 ^ (k' + 1) * cap := by rw [pow_succ, mul_assoc]
            simpa [hpow'] using hmin
    · rw [if_neg hlt]
      exact ⟨0, by omega, by simp, .inl (by simpa using hlt), .inl rfl⟩

/-- A number of 24 significant bits, and what is beyond them. -/
theorem toFloat_spec {n : ℕ} (h : 2 ^ 24 ≤ n) : ∃ e q r, n = q * 2 ^ e + r ∧ r < 2 ^ e ∧ 2 ^ 23 ≤ q ∧ q < 2 ^ 24 ∧
    toFloat n = if 2 * r < 2 ^ e ∨ (2 * r = 2 ^ e ∧ q % 2 = 0) then q * 2 ^ e else (q + 1) * 2 ^ e := by
  have hn0 : n ≠ 0 := by omega
  have hlog : 24 ≤ n.log2 := (Nat.le_log2 hn0).mpr h
  have hlow : 2 ^ n.log2 ≤ n := (Nat.le_log2 hn0).mp le_rfl
  have hhigh : n < 2 ^ (n.log2 + 1) := Nat.lt_log2_self
  have hsplit : 2 ^ n.log2 = 2 ^ 23 * 2 ^ (n.log2 - 23) := by
    rw [← pow_add, Nat.add_sub_cancel' (by omega)]
  have hpos : 0 < 2 ^ (n.log2 - 23) := Nat.two_pow_pos _
  refine ⟨n.log2 - 23, n / 2 ^ (n.log2 - 23), n % 2 ^ (n.log2 - 23), (Nat.div_add_mod' _ _).symm, Nat.mod_lt _ hpos,
    ?_, ?_, ?_⟩
  · rw [Nat.le_div_iff_mul_le hpos]
    omega
  · rw [Nat.div_lt_iff_lt_mul hpos]
    rw [pow_succ] at hhigh
    omega
  · unfold toFloat
    rw [if_neg (by omega)]

/-- The table is not smaller than the pool. -/
theorem le_two_mul_toFloat (n : ℕ) : n ≤ 2 * toFloat n := by
  by_cases h : 2 ^ 24 ≤ n
  · obtain ⟨e, q, r, hn, hr, hq, -, hf⟩ := toFloat_spec h
    have hmul : 2 ^ e ≤ q * 2 ^ e := Nat.le_mul_of_pos_left _ (by omega)
    have hadd : (q + 1) * 2 ^ e = q * 2 ^ e + 2 ^ e := Nat.succ_mul _ _
    rw [hf]
    split_ifs <;> omega
  · unfold toFloat
    rw [if_pos (by omega)]
    omega

/-- The largest pool whose table has 31-bit indices. -/
theorem toFloat_le_iff (n : ℕ) : toFloat n ≤ 2 ^ 30 ↔ n ≤ 2 ^ 30 + 64 := by
  by_cases h : 2 ^ 24 ≤ n
  · obtain ⟨e, q, r, hn, hr, hq, hq', hf⟩ := toFloat_spec h
    have hadd : (q + 1) * 2 ^ e = q * 2 ^ e + 2 ^ e := Nat.succ_mul _ _
    rw [hf]
    rcases Nat.lt_trichotomy e 7 with he | rfl | he
    · have hp : 2 ^ e ≤ 2 ^ 6 := Nat.pow_le_pow_right (by decide) (by omega)
      have hle : (q + 1) * 2 ^ e ≤ 2 ^ 24 * 2 ^ 6 := Nat.mul_le_mul (by omega) hp
      refine iff_of_true ?_ (by omega)
      split_ifs <;> omega
    · split_ifs <;> omega
    · have hp : 2 ^ 8 ≤ 2 ^ e := Nat.pow_le_pow_right (by decide) (by omega)
      have hle : 2 ^ 23 * 2 ^ 8 ≤ q * 2 ^ e := Nat.mul_le_mul hq hp
      refine iff_of_false ?_ (by omega)
      split_ifs <;> omega
  · unfold toFloat
    rw [if_pos (by omega)]
    omega

theorem tableSize_spec (maxOrders : ℕ) : ∃ k, tableSize maxOrders = 2 ^ k ∧
    (k ≤ 31 ↔ maxOrders ≤ 2 ^ 30 + 64) ∧ (k ≤ 31 → maxOrders ≤ 2 ^ k) := by
  have hfloat := toFloat_le_iff maxOrders
  have htwice := le_two_mul_toFloat maxOrders
  obtain ⟨k, hk, heq, hlarge, hmin⟩ := roundUp_spec 64 1 (max 16 (2 * toFloat maxOrders))
  rw [mul_one] at heq hlarge
  refine ⟨k, heq, ⟨fun hle => ?_, fun hle => ?_⟩, fun hle => ?_⟩
  · have hp : 2 ^ k ≤ 2 ^ 31 := Nat.pow_le_pow_right (by decide) hle
    omega
  · rcases hmin with rfl | hmin
    · omega
    · by_contra hc
      have hp : 2 ^ 31 ≤ 2 ^ (k - 1) := Nat.pow_le_pow_right (by decide) (by omega)
      omega
  · omega

/-! ## The probing loop -/

section Scan

variable {m : OrderIdMap} {k : ℕ}

/-- Up to `2 ^ 31` slots the index is the slot. -/
theorem index_eq (hc : m.capacity = 2 ^ k) (hk : k ≤ 31) (ordid : OrderId) (i : ℕ) :
    m.index ordid i = ((m.hash ordid + i) % m.capacity : ℕ) := by
  have hle : 2 ^ k ≤ 2 ^ 31 := Nat.pow_le_pow_right (by decide) hk
  have hpos : 0 < 2 ^ k := Nat.two_pow_pos k
  have hcast : ((m.capacity : ℤ) - 1) = ((2 ^ k - 1 : ℕ) : ℤ) := by
    rw [hc]
    omega
  have hmask : m.mask = ((2 ^ k - 1 : ℕ) : ℤ) := by
    unfold mask
    rw [hcast]
    exact Int.bmod_eq_of_le (by omega) (by omega)
  have h32 : (m.mask % 2 ^ 32).toNat = 2 ^ k - 1 := by
    rw [hmask]
    omega
  have h64 : (m.mask % 2 ^ 64).toNat = 2 ^ k - 1 := by
    rw [hmask]
    omega
  have hdvd : 2 ^ k ∣ 2 ^ 64 := pow_dvd_pow 2 (by omega)
  unfold index hash
  dsimp only
  rw [h32, h64, Nat.and_two_pow_sub_one_eq_mod, Nat.and_two_pow_sub_one_eq_mod, Nat.mod_mod_of_dvd _ hdvd, hc]
  have hlt := Nat.mod_lt ((ordid * 2654435761).toNat % 2 ^ k + i) hpos
  exact Int.bmod_eq_of_le (by omega) (by omega)

/-- With more slots, the index of the id 1 is negative. -/
theorem index_neg (hc : m.capacity = 2 ^ k) (hk : 32 ≤ k) : m.index 1 0 < 0 := by
  have hmask : m.mask = -1 := by
    unfold mask
    have hdvd : (2 ^ 32 : ℕ) ∣ 2 ^ k := pow_dvd_pow 2 hk
    obtain ⟨c, hcd⟩ := hdvd
    have hsplit : (((2 ^ 32 * c : ℕ) : ℤ) - 1) = -1 + ((2 ^ 32 : ℕ) : ℤ) * c := by
      push_cast
      omega
    rw [hc, hcd, hsplit, Int.add_mul_bmod_self_left]
    decide
  unfold index
  dsimp only
  rw [hmask]
  decide

theorem insert_outside (hc : m.capacity = 2 ^ k) (hk : 32 ≤ k) (orderIdx : ℕ) : m.call (.insert 1 orderIdx) = none := by
  obtain ⟨n, hn⟩ := Nat.exists_eq_succ_of_ne_zero (n := m.capacity) (by rw [hc]; exact (Nat.two_pow_pos k).ne')
  have hneg := index_neg hc hk
  have hscan : m.scan 1 (fun k => k = emptyKey || k = tombstoneKey) m.capacity 0 = none := by
    rw [hn, scan, if_neg (by omega)]
  unfold call
  dsimp only
  rw [hscan]
  rfl

/-- **The loop visits the slots of the probe.** -/
theorem scan_eq (hc : m.capacity = 2 ^ k) (hk : k ≤ 31) (ordid : OrderId) (stop : OrderId → Bool) :
    m.scan ordid stop m.capacity 0 = some (m.probe ordid stop) := by
  have hpos : 0 < m.capacity := by
    rw [hc]
    exact Nat.two_pow_pos k
  have hloop : ∀ n i, m.scan ordid stop n i = some (((List.range' i n).find?
      (fun i => stop (m.table ((m.hash ordid + i) % m.capacity)).key)).map (fun i => (m.hash ordid + i) % m.capacity)) := by
    intro n
    induction n with
    | zero => exact fun _ => rfl
    | succ n ih =>
      intro i
      have hlt := Nat.mod_lt (m.hash ordid + i) hpos
      rw [scan, index_eq hc hk, List.range'_succ, List.find?_cons, if_pos (by omega),
        Int.toNat_natCast]
      cases stop (m.table ((m.hash ordid + i) % m.capacity)).key with
      | true => rfl
      | false => exact ih (i + 1)
  rw [hloop, ← List.range_eq_range']
  rfl

end Scan

/-! ## The calls -/

/-- The table stands for the finite map, and has its size. -/
structure Sim (maxOrders : ℕ) (m : OrderIdMap) (l : Live) : Prop where
  rep : Rep m (fun id => l.lookup id)
  capacity : m.capacity = tableSize maxOrders

section Sim

variable {maxOrders : ℕ} {m : OrderIdMap} {l : Live} (h : Sim maxOrders m l) (hmax : maxOrders ≤ 2 ^ 30 + 64)

include h

theorem Sim.rep_of_eq {f : OrderId → OrderIdx} {l' : Live} {m' : OrderIdMap} (hr : Rep m' f)
    (hf : ∀ id, l'.lookup id = f id) (hc : m'.capacity = m.capacity) : Sim maxOrders m' l' := by
  refine ⟨?_, hc.trans h.capacity⟩
  rw [show (fun id => l'.lookup id) = f from funext hf]
  exact hr

include hmax

theorem Sim.scan_eq (ordid : OrderId) (stop : OrderId → Bool) :
    m.scan ordid stop m.capacity 0 = some (m.probe ordid stop) := by
  obtain ⟨k, hk, hiff, -⟩ := tableSize_spec maxOrders
  exact OrderIdMap.scan_eq (h.capacity.trans hk) (hiff.mpr hmax) ordid stop

/-- Tombstones are slots to insert into: the table is full of ids before it is full. -/
theorem Sim.exists_insert (ordid : OrderId) (orderIdx : ℕ) (hroom : l.keys.length < maxOrders) :
    ∃ m', m.insert ordid orderIdx = some m' ∧ m'.capacity = m.capacity := by
  cases hins : m.insert ordid orderIdx with
  | some m' =>
    refine ⟨m', rfl, ?_⟩
    unfold OrderIdMap.insert at hins
    split at hins
    · cases hins
    · cases hins
      rfl
  | none =>
    exfalso
    obtain ⟨hnodup, hlen, hkeys⟩ := keys_of_insert_eq_none h.rep hins
    have hsub : m.keys ⊆ l.keys := by
      intro id hid
      obtain ⟨i, hi⟩ := hkeys id hid
      rw [← AList.mem_keys, ← AList.lookup_isSome, hi]
      rfl
    have hle := (List.subperm_of_subset hnodup hsub).length_le
    rw [hlen, h.capacity] at hle
    obtain ⟨k, hk, hiff, hge⟩ := tableSize_spec maxOrders
    have hge' := hge (hiff.mpr hmax)
    omega

/-- **A call answers as the finite map does.** -/
theorem call_refines {c : Call} (hc : l.Proper maxOrders c) :
    ∃ m', m.call c = some ((l.call c).1, m') ∧ Sim maxOrders m' (l.call c).2 := by
  cases c with
  | find ordid =>
    refine ⟨m, ?_, h⟩
    have hfind := find_eq h.rep ordid
    unfold OrderIdMap.find at hfind
    unfold call Live.call
    dsimp only
    rw [h.scan_eq hmax, ← hfind]
    cases m.probe ordid (fun k => k = emptyKey || k = ordid) with
    | none => rfl
    | some idx => rfl
  | insert ordid orderIdx =>
    obtain ⟨hu, hnone, hroom⟩ := hc
    obtain ⟨m', hins, hcap⟩ := h.exists_insert hmax ordid orderIdx hroom
    refine ⟨m', ?_, h.rep_of_eq (rep_insert h.rep hu hnone hins) (fun id => ?_) hcap⟩
    · unfold OrderIdMap.insert at hins
      unfold call Live.call
      dsimp only
      rw [h.scan_eq hmax]
      cases hp : m.probe ordid (fun k => k = emptyKey || k = tombstoneKey) with
      | none => rw [hp] at hins; cases hins
      | some idx =>
        rw [hp, Option.some.injEq] at hins
        rw [← hins]
        rfl
    · unfold Live.call
      dsimp only
      by_cases hid : id = ordid
      · rw [hid, AList.lookup_insert, Function.update_self]
      · rw [AList.lookup_insert_ne hid, Function.update_of_ne hid]
  | remove ordid =>
    unfold call Live.call
    dsimp only
    rw [h.scan_eq hmax]
    cases hl : l.lookup ordid with
    | none =>
      -- the probe ends at an empty slot, or nowhere
      have hsim : Sim maxOrders m (l.erase ordid) := by
        refine h.rep_of_eq h.rep (fun id => ?_) rfl
        by_cases hid : id = ordid
        · rw [hid, AList.lookup_erase, hl]
        · rw [AList.lookup_erase_ne hid]
      refine ⟨m, ?_, hsim⟩
      cases hp : m.probe ordid (fun k => k = emptyKey || k = ordid) with
      | none => rfl
      | some idx =>
        obtain ⟨hstop, hreach⟩ := firstSlot_eq_some hp
        have hempty : (m.table idx).key = emptyKey := by
          by_contra hne
          have hkey : (m.table idx).key = ordid := by simpa [hne] using hstop
          obtain ⟨i, -, hi⟩ := h.rep.key idx hreach.lt (by rw [hkey]; exact hc)
          rw [hkey, hl] at hi
          cases hi
        exact if_pos hempty
    | some i =>
      obtain ⟨j, hj, hr⟩ := h.rep.slot ordid i hl
      have hsim : Sim maxOrders (m.remove ordid) (l.erase ordid) := by
        refine h.rep_of_eq (rep_remove h.rep hl) (fun id => ?_) ?_
        · by_cases hid : id = ordid
          · rw [hid, AList.lookup_erase, Function.update_self]
          · rw [AList.lookup_erase_ne hid, Function.update_of_ne hid]
        · unfold OrderIdMap.remove
          rw [probe_of_slot hj hr]
          dsimp only
          split_ifs <;> rfl
      refine ⟨m.remove ordid, ?_, hsim⟩
      unfold OrderIdMap.remove
      rw [probe_of_slot hj hr]
      have hne : (m.table j).key ≠ emptyKey := by
        rw [hj]
        exact hc.1
      show (if (m.table j).key = emptyKey then _ else _) = _
      rw [if_neg hne]
      dsimp only
      rw [if_neg hne]
      rfl

/-- **A run of calls is answered as by the finite map.** -/
theorem replies_eq {cs : List Call} (hcs : Admitted (fun l c => (Live.call l c).2) (Live.Proper maxOrders) l cs) :
    m.replies cs = some (l.replies cs) := by
  induction cs generalizing m l with
  | nil => rfl
  | cons c cs ih =>
    obtain ⟨hc, hcs⟩ := hcs
    obtain ⟨m', hcall, h'⟩ := call_refines h hmax hc
    unfold replies Live.replies
    rw [hcall]
    show (m'.replies cs).bind _ = _
    rw [ih h' hcs]
    rfl

end Sim

/-- **The id map refines a finite map** over all proper runs exactly if the pool has at most `2 ^ 30 + 64` orders. -/
theorem refines_map_iff (maxOrders : ℕ) :
    (∀ cs, Admitted (fun l c => (Live.call l c).2) (Live.Proper maxOrders) ∅ cs →
      (new maxOrders).replies cs = some (Live.replies ∅ cs)) ↔ maxOrders ≤ 2 ^ 30 + 64 := by
  constructor
  · intro hall
    by_contra hmax
    obtain ⟨k, hk, hiff, -⟩ := tableSize_spec maxOrders
    have h32 : 32 ≤ k := by
      by_contra hc
      exact hmax (hiff.mp (by omega))
    have hone := hall [.insert 1 0] ⟨⟨by decide, rfl, by show 0 < maxOrders; omega⟩, trivial⟩
    unfold replies at hone
    rw [insert_outside (m := new maxOrders) hk h32] at hone
    cases hone
  · intro hmax cs hcs
    exact replies_eq ⟨rep_new maxOrders, rfl⟩ hmax hcs

example : (new 2).replies [.insert 1 0, .insert 17 1, .remove 1, .find 17, .insert 33 0, .find 1, .find 33] =
    some [.inserted true, .inserted true, .removed true, .found (some 1), .inserted true, .found none, .found (some 0)] := by
  decide +kernel

/-- A pool of `2 ^ 31` orders: the first insert reads the table at a negative index. -/
theorem first_insert_outside : Live.Proper (2 ^ 31) ∅ (.insert 1 0) ∧ (new (2 ^ 31)).index 1 0 < 0 ∧
    (new (2 ^ 31)).call (.insert 1 0) = none := by
  obtain ⟨m, hm⟩ : ∃ m, m = new (2 ^ 31) := ⟨_, rfl⟩
  have hsize : m.capacity = 2 ^ 32 := by
    rw [hm]
    decide +kernel
  rw [← hm]
  exact ⟨⟨by decide, rfl, by decide⟩, index_neg hsize le_rfl, insert_outside hsize le_rfl 0⟩

end OrderIdMap

end Wirekrak.Flashstrike

import Mathlib.Data.Nat.ModEq

/-!
# Wirekrak.Lib.Mask — 64-bit indices that wrap by masking

A ring of `size` places, `size` a power of two, is addressed by machine words masked with `size - 1`.  A place is
reached by counters that only grow: `slot k` is the index of the `k`-th item ever stored.

* `slot_add`: advancing a masked index by a machine word advances the counter.
* `slot_inj`: counters less than `size` apart have different indices.
* `toNat_sub_slot`, `toNat_room_slot`: masked differences measure the distance of two counters, and the room that
  is left when one place is kept free.
-/

namespace Wirekrak.Lib

/-- A number of places that masking can wrap: a power of two, and at least two. -/
structure Pow2 where
  size : BitVec 64
  two_le : 2 ≤ size
  pow2 : size &&& (size - 1) = 0

namespace Pow2

variable (c : Pow2)

def mask : BitVec 64 := c.size - 1

/-- The number of places as a natural number. -/
def places : ℕ := c.size.toNat

/-- The smallest one. -/
def two : Pow2 := ⟨2, by decide, by decide⟩

theorem two_le_places : 2 ≤ c.places := by
  exact BitVec.le_def.mp c.two_le

theorem places_lt : c.places < 2 ^ 64 := c.size.isLt

theorem toNat_mask : c.mask.toNat = c.places - 1 := by
  have h := c.two_le_places
  have hlt := c.places_lt
  rw [mask, BitVec.toNat_sub]
  change (2 ^ 64 - 1 + c.places) % 2 ^ 64 = c.places - 1
  omega

theorem places_eq_pow : ∃ k, c.places = 2 ^ k := by
  have h0 : c.places ≠ 0 := by have := c.two_le_places; omega
  have hand : c.places &&& (c.places - 1) = 0 := by
    have h := congrArg BitVec.toNat c.pow2
    rw [BitVec.toNat_and] at h
    rw [← c.toNat_mask]
    simpa [mask, places] using h
  exact (Nat.and_sub_one_eq_zero_iff_isPowerOfTwo h0).mp hand

theorem places_dvd : c.places ∣ 2 ^ 64 := by
  obtain ⟨k, hk⟩ := c.places_eq_pow
  have hlt := c.places_lt
  rw [hk] at hlt ⊢
  exact Nat.pow_dvd_pow 2 (Nat.le_of_lt ((Nat.pow_lt_pow_iff_right (by decide)).mp hlt))

theorem toNat_and_mask (x : BitVec 64) : (x &&& c.mask).toNat = x.toNat % c.places := by
  obtain ⟨k, hk⟩ := c.places_eq_pow
  rw [BitVec.toNat_and, c.toNat_mask, hk, Nat.and_two_pow_sub_one_eq_mod]

/-! ## Counters -/

/-- The index of the `k`-th item ever stored. -/
def slot (k : ℕ) : BitVec 64 := BitVec.ofNat 64 k &&& c.mask

theorem toNat_slot (k : ℕ) : (c.slot k).toNat = k % c.places := by
  rw [slot, toNat_and_mask, BitVec.toNat_ofNat, Nat.mod_mod_of_dvd _ c.places_dvd]

@[simp] theorem slot_zero : c.slot 0 = 0 := by
  simp [slot]

theorem slot_eq_iff {i j : ℕ} : c.slot i = c.slot j ↔ i % c.places = j % c.places := by
  rw [← BitVec.toNat_inj, toNat_slot, toNat_slot]

/-- Counters less than `size` apart have different places. -/
theorem slot_inj {i j : ℕ} (hij : i ≤ j) (hlt : j < i + c.places) (h : c.slot i = c.slot j) : i = j := by
  have hm := c.slot_eq_iff.mp h
  have hd : (j - i) % c.places = 0 := by
    have := (Nat.modEq_iff_dvd' hij).mp hm
    exact Nat.mod_eq_zero_of_dvd this
  rw [Nat.mod_eq_of_lt (by omega)] at hd
  omega

theorem slot_ne {i j : ℕ} (hij : i < j) (hlt : j < i + c.places) : c.slot i ≠ c.slot j := by
  intro h
  have := c.slot_inj (by omega) hlt h
  omega

theorem eq_slot_iff {x : BitVec 64} {k : ℕ} (hx : x.toNat % c.places = k % c.places) : x &&& c.mask = c.slot k := by
  rw [← BitVec.toNat_inj, toNat_and_mask, toNat_slot, hx]

/-- Advancing a masked index by a machine word. -/
theorem slot_add (k : ℕ) (n : BitVec 64) : (c.slot k + n) &&& c.mask = c.slot (k + n.toNat) := by
  apply c.eq_slot_iff
  rw [BitVec.toNat_add, Nat.mod_mod_of_dvd _ c.places_dvd, toNat_slot, Nat.mod_add_mod]

theorem slot_add_ofNat (k n : ℕ) : (c.slot k + BitVec.ofNat 64 n) &&& c.mask = c.slot (k + n) := by
  rw [slot_add, slot_eq_iff, BitVec.toNat_ofNat, Nat.add_mod, Nat.mod_mod_of_dvd _ c.places_dvd, ← Nat.add_mod]

/-- A masked difference is the distance of two counters less than `size` apart. -/
theorem toNat_sub_slot {i j : ℕ} (hij : i ≤ j) (hlt : j < i + c.places) :
    ((c.slot j - c.slot i) &&& c.mask).toNat = j - i := by
  have key : (c.slot j - c.slot i) &&& c.mask = c.slot (j - i) := by
    apply c.eq_slot_iff
    have h1 : (c.slot j - c.slot i + c.slot i).toNat % c.places = j % c.places := by
      rw [BitVec.sub_add_cancel, toNat_slot, Nat.mod_mod]
    rw [BitVec.toNat_add, Nat.mod_mod_of_dvd _ c.places_dvd, toNat_slot, Nat.add_mod_mod] at h1
    have h2 : j % c.places = (j - i + i) % c.places := by rw [Nat.sub_add_cancel hij]
    exact Nat.ModEq.add_right_cancel' i (h1.trans h2)
  rw [key, toNat_slot, Nat.mod_eq_of_lt (by omega)]

/-- The room in front of counter `j` when the oldest item in the ring is the `i`-th and one place stays free. -/
theorem toNat_room_slot {i j : ℕ} (hij : i ≤ j) (hlt : j < i + c.places) :
    ((c.slot i - c.slot j - 1) &&& c.mask).toNat = i + c.places - 1 - j := by
  have hroom : c.slot i = c.slot (i + c.places) := by
    rw [slot_eq_iff, Nat.add_mod_right]
  have hnext : c.slot (i + c.places) - c.slot j - 1 = c.slot (i + c.places) - (c.slot j + 1) := by
    rw [BitVec.sub_sub]
  have hsub : ((c.slot (i + c.places) - c.slot j - 1) &&& c.mask) = c.slot (i + c.places - (j + 1)) := by
    apply c.eq_slot_iff
    have h1 : (c.slot (i + c.places) - (c.slot j + 1) + (c.slot j + 1)).toNat % c.places
        = (i + c.places) % c.places := by
      rw [BitVec.sub_add_cancel, toNat_slot, Nat.mod_mod]
    have h3 : (c.slot j + 1).toNat % c.places = (j + 1) % c.places := by
      rw [BitVec.toNat_add, Nat.mod_mod_of_dvd _ c.places_dvd, toNat_slot, Nat.mod_add_mod]
      rfl
    rw [BitVec.toNat_add, Nat.mod_mod_of_dvd _ c.places_dvd, Nat.add_mod, h3, ← Nat.add_mod] at h1
    have h2 : (i + c.places) % c.places = (i + c.places - (j + 1) + (j + 1)) % c.places := by
      rw [Nat.sub_add_cancel (by omega)]
    rw [← hnext] at h1
    exact Nat.ModEq.add_right_cancel' (j + 1) (h1.trans h2)
  rw [hroom, hsub, toNat_slot, Nat.mod_eq_of_lt (by omega)]
  omega

end Pow2

end Wirekrak.Lib

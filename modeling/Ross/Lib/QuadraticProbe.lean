import Mathlib.Data.Nat.Prime.Basic
import Mathlib.Data.Finset.Card
import Mathlib.Data.Nat.ModEq
import Mathlib.Tactic.Ring

/-!
# Quadratic probing

The probe sequence `h, h + 1, h + 4, …` modulo a prime.  Its first half visits
different places, so it meets a free one in a table that is at most half full.
-/

namespace QuadraticProbe

/-- The `i`-th place looked at in a table of `p` places, from `h`. -/
def probe (p h i : Nat) : Nat := (h + i ^ 2) % p

variable {p h i j : Nat}

theorem probe_lt (hp : 0 < p) : probe p h i < p := Nat.mod_lt _ hp

theorem probe_zero (hh : h < p) : probe p h 0 = h := by
  unfold probe
  rw [zero_pow two_ne_zero, add_zero, Nat.mod_eq_of_lt hh]

/-- A step adds the next odd number, and leaves the table at most once. -/
theorem probe_succ (hi : 2 * i + 1 ≤ p) : probe p h (i + 1) =
    if p ≤ probe p h i + (2 * i + 1) then probe p h i + (2 * i + 1) - p
    else probe p h i + (2 * i + 1) := by
  have hp : 0 < p := by omega
  have hlt : probe p h i < p := probe_lt hp
  have heq : probe p h (i + 1) = (probe p h i + (2 * i + 1)) % p := by
    unfold probe
    rw [Nat.mod_add_mod, show h + (i + 1) ^ 2 = h + i ^ 2 + (2 * i + 1) by ring]
  rw [heq]
  split
  next hle => rw [Nat.mod_eq_sub_mod hle, Nat.mod_eq_of_lt (by omega)]
  next hle => exact Nat.mod_eq_of_lt (not_le.mp hle)

/-- The places of the first half are different. -/
theorem probe_ne (hp : p.Prime) (hij : i < j) (hj : 2 * j < p + 1) :
    probe p h i ≠ probe p h j := by
  intro heq
  have hmod : Nat.ModEq p (i ^ 2) (j ^ 2) := Nat.ModEq.add_left_cancel' h heq
  have hle : i ^ 2 ≤ j ^ 2 := Nat.pow_le_pow_left hij.le 2
  have hdvd : p ∣ (j + i) * (j - i) := by
    rw [← Nat.sq_sub_sq]
    exact (Nat.modEq_iff_dvd' hle).mp hmod
  rcases hp.dvd_mul.mp hdvd with hd | hd
  · have := Nat.le_of_dvd (by omega) hd
    omega
  · have := Nat.le_of_dvd (by omega) hd
    omega

/-- A set that takes fewer than half of the places leaves one of the first half. -/
theorem exists_probe_notMem (hp : p = 1 ∨ p.Prime) {s : Finset Nat}
    (hs : s.card < (p + 1) / 2) : ∃ i < (p + 1) / 2, probe p h i ∉ s := by
  have hinj : Set.InjOn (probe p h) (Finset.range ((p + 1) / 2)) := by
    intro i hi j hj heq
    have hi : i < (p + 1) / 2 := Finset.mem_range.mp hi
    have hj : j < (p + 1) / 2 := Finset.mem_range.mp hj
    rcases hp with rfl | hp
    · omega
    · rcases lt_trichotomy i j with hlt | rfl | hlt
      · exact absurd heq (probe_ne hp hlt (by omega))
      · rfl
      · exact absurd heq.symm (probe_ne hp hlt (by omega))
  have hcard : s.card < ((Finset.range ((p + 1) / 2)).image (probe p h)).card := by
    rw [Finset.card_image_of_injOn hinj, Finset.card_range]
    exact hs
  obtain ⟨k, hk, hns⟩ := Finset.exists_mem_notMem_of_card_lt_card hcard
  obtain ⟨i, hi, rfl⟩ := Finset.mem_image.mp hk
  exact ⟨i, Finset.mem_range.mp hi, hns⟩

end QuadraticProbe

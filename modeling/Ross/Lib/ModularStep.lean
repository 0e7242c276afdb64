import Mathlib.Data.Int.ModEq
import Mathlib.Tactic.Ring
import Mathlib.Tactic.Linarith

/-!
# Multiplication modulo `m`

Schrage's decomposition computes `a * s` modulo `m = a * q + r` by numbers below `m`
when `r < q`, and multiplication by an inverse of `a` undoes it.
-/

namespace ModularStep

variable {m a b q r s : Int}

/-- A multiplier that the decomposition is exact for. -/
structure Schrage (m a q r : Int) : Prop where
  split : m = a * q + r
  pos : 0 < a
  nonneg : 0 ≤ r
  lt : r < q

namespace Schrage

theorem q_pos (h : Schrage m a q r) : 0 < q := h.nonneg.trans_lt h.lt

/-- The product with the remainder is below `m`. -/
theorem mul_emod_lt (h : Schrage m a q r) (s : Int) : 0 ≤ a * (s % q) ∧ a * (s % q) < m := by
  have hnn : 0 ≤ s % q := Int.emod_nonneg s h.q_pos.ne'
  have hlt : s % q < q := Int.emod_lt_of_pos s h.q_pos
  refine ⟨mul_nonneg h.pos.le hnn, ?_⟩
  calc a * (s % q) < a * q := (mul_lt_mul_iff_right₀ h.pos).mpr hlt
    _ ≤ a * q + r := le_add_of_nonneg_right h.nonneg
    _ = m := h.split.symm

theorem div_mul_le (h : Schrage m a q r) (hs : 0 ≤ s) : 0 ≤ s / q * q ∧ s / q * q ≤ s :=
  ⟨mul_nonneg (Int.ediv_nonneg hs h.q_pos.le) h.q_pos.le, Int.ediv_mul_le s h.q_pos.ne'⟩

/-- The product with the quotient is at most `s`. -/
theorem div_mul_r_le (h : Schrage m a q r) (hs : 0 ≤ s) : 0 ≤ s / q * r ∧ s / q * r ≤ s := by
  have hk : 0 ≤ s / q := Int.ediv_nonneg hs h.q_pos.le
  exact ⟨mul_nonneg hk h.nonneg,
    (mul_le_mul_of_nonneg_left h.lt.le hk).trans (h.div_mul_le hs).2⟩

theorem sub_div_mul (s q : Int) : s - s / q * q = s % q := by
  rw [Int.emod_def, mul_comm]

/-- The difference is congruent to the product. -/
theorem modEq (h : Schrage m a q r) (s : Int) :
    Int.ModEq m (a * (s % q) - s / q * r) (a * s) := by
  have heq : a * s - (a * (s % q) - s / q * r) = m * (s / q) := by
    have hs : s = s % q + q * (s / q) := (Int.emod_add_mul_ediv s q).symm
    calc a * s - (a * (s % q) - s / q * r)
        = a * (s % q + q * (s / q)) - (a * (s % q) - s / q * r) := by rw [← hs]
      _ = (a * q + r) * (s / q) := by ring
      _ = m * (s / q) := by rw [← h.split]
  exact Int.modEq_iff_dvd.mpr ⟨s / q, heq⟩

theorem ite_add_eq_emod {x : Int} (h₁ : -m < x) (h₂ : x < m) :
    (if x < 0 then x + m else x) = x % m := by
  split
  next hneg => rw [← Int.add_emod_right, Int.emod_eq_of_lt (by omega) (by omega)]
  next hneg => rw [Int.emod_eq_of_lt (by omega) h₂]

/-- The difference, with `m` added when it is negative, is the product modulo `m`. -/
theorem result (h : Schrage m a q r) (hs : 0 ≤ s) (hsm : s < m) :
    (if a * (s % q) - s / q * r < 0 then a * (s % q) - s / q * r + m
      else a * (s % q) - s / q * r) = a * s % m := by
  obtain ⟨h1, h2⟩ := h.mul_emod_lt s
  obtain ⟨h3, h4⟩ := h.div_mul_r_le hs
  have hmod : (a * (s % q) - s / q * r) % m = a * s % m := h.modEq s
  rw [ite_add_eq_emod (by omega) (by omega), hmod]

end Schrage

/-- Multiplication by an inverse modulo `m` undoes multiplication. -/
theorem mul_inv_emod (hab : a * b % m = 1) (hs : 0 ≤ s) (hsm : s < m) :
    b * (a * s % m) % m = s := by
  have h : Int.ModEq m (b * (a * s % m)) s :=
    calc Int.ModEq m (b * (a * s % m)) (b * (a * s)) := (Int.mod_modEq (a * s) m).mul_left b
      _ = a * b * s := by ring
      Int.ModEq m _ (a * b % m * s) := (Int.mod_modEq (a * b) m).symm.mul_right s
      _ = s := by rw [hab, one_mul]
  have hmod : b * (a * s % m) % m = s % m := h
  rw [hmod, Int.emod_eq_of_lt hs hsm]

/-- The product with an invertible number stays between 1 and `m - 1`. -/
theorem mul_emod_range (hm : 0 < m) (hab : a * b % m = 1) (hs : 1 ≤ s) (hsm : s ≤ m - 1) :
    1 ≤ a * s % m ∧ a * s % m ≤ m - 1 := by
  have hnn : 0 ≤ a * s % m := Int.emod_nonneg _ hm.ne'
  have hlt : a * s % m < m := Int.emod_lt_of_pos _ hm
  have hne : a * s % m ≠ 0 := by
    intro h0
    have hback := mul_inv_emod hab (by omega : 0 ≤ s) (by omega)
    rw [h0, mul_zero, Int.zero_emod] at hback
    omega
  omega

end ModularStep

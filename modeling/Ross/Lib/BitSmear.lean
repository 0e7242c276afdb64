import Mathlib.Data.Nat.Bitwise

/-!
# Smearing the highest bit

A number or-ed with itself shifted by 1, 2, 4, … has all bits up to its highest one,
so one more is the next power of two.
-/

namespace BitSmear

/-- One step. -/
def smear (s v : Nat) : Nat := v ||| v >>> s

/-- `w` has the bits of `v` that lie at most `n - 1` places above. -/
def Covers (n v w : Nat) : Prop := ∀ i, w.testBit i = true ↔ ∃ j < n, v.testBit (i + j) = true

theorem covers_one (v : Nat) : Covers 1 v v := by
  intro i
  constructor
  · intro h
    exact ⟨0, Nat.one_pos, h⟩
  · rintro ⟨j, hj, h⟩
    rwa [show j = 0 by omega] at h

/-- A step doubles the places. -/
theorem Covers.smear {n v w : Nat} (h : Covers n v w) : Covers (2 * n) v (smear n w) := by
  intro i
  unfold BitSmear.smear
  rw [Nat.testBit_or, Nat.testBit_shiftRight, Bool.or_eq_true, h i, h (n + i)]
  constructor
  · rintro (⟨j, hj, hb⟩ | ⟨j, hj, hb⟩)
    · exact ⟨j, by omega, hb⟩
    · refine ⟨n + j, by omega, ?_⟩
      rwa [← Nat.add_assoc, Nat.add_comm i n]
  · rintro ⟨j, hj, hb⟩
    by_cases hjn : j < n
    · exact .inl ⟨j, hjn, hb⟩
    · refine .inr ⟨j - n, by omega, ?_⟩
      rwa [show n + i + (j - n) = i + j by omega]

/-- Once all places are covered the number is one less than a power of two. -/
theorem Covers.eq {n m v w : Nat} (h : Covers n v w) (hlow : 2 ^ m ≤ v) (hhigh : v < 2 ^ (m + 1))
    (hn : m < n) : w = 2 ^ (m + 1) - 1 := by
  refine Nat.eq_of_testBit_eq fun i => ?_
  rw [Nat.testBit_two_pow_sub_one, Bool.eq_iff_iff, h i, decide_eq_true_eq]
  constructor
  · rintro ⟨j, -, hb⟩
    by_contra hi
    have hle : 2 ^ (m + 1) ≤ 2 ^ (i + j) := Nat.pow_le_pow_right Nat.two_pos (by omega)
    rw [Nat.testBit_lt_two_pow (hhigh.trans_le hle)] at hb
    cases hb
  · intro hi
    refine ⟨m - i, by omega, ?_⟩
    rw [show i + (m - i) = m by omega]
    exact Nat.testBit_of_two_pow_le_and_two_pow_add_one_gt hlow hhigh

end BitSmear

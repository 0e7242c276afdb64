import Mathlib.Order.Basic
import Mathlib.Tactic.NormNum

/-!
# Signed integers of a fixed width

A result that the type cannot hold is undefined, so an operation is the exact one
followed by the test whether it fits.  A conversion to the type keeps the low bits.
-/

namespace CInt

/-- `x` is a value of the signed integers of `w` bits. -/
def Fits (w : Nat) (x : Int) : Prop := -2 ^ (w - 1) ≤ x ∧ x < 2 ^ (w - 1)

instance (w : Nat) (x : Int) : Decidable (Fits w x) :=
  inferInstanceAs (Decidable (-2 ^ (w - 1) ≤ x ∧ x < 2 ^ (w - 1)))

/-- The exact result `x` as a signed integer of `w` bits. -/
def exact (w : Nat) (x : Int) : Option Int := if Fits w x then some x else none

theorem exact_of_fits {w : Nat} {x : Int} (h : Fits w x) : exact w x = some x := if_pos h

theorem fits_32 {x : Int} (h₁ : -2147483648 ≤ x) (h₂ : x < 2147483648) : Fits 32 x := by
  unfold Fits
  norm_num
  exact ⟨h₁, h₂⟩

theorem fits_64 {x : Int} (h₁ : -9223372036854775808 ≤ x) (h₂ : x < 9223372036854775808) :
    Fits 64 x := by
  unfold Fits
  norm_num
  exact ⟨h₁, h₂⟩

/-- The conversion of `x` to a signed integer of 32 bits. -/
def int32 (x : Int) : Int :=
  let r := x % 4294967296
  if 2147483648 ≤ r then r - 4294967296 else r

theorem int32_of_lt {x : Int} (h0 : 0 ≤ x) (h : x < 2 ^ 31) : int32 x = x := by
  unfold int32
  dsimp only
  rw [Int.emod_eq_of_lt h0 (by omega), if_neg (by omega)]

theorem int32_lt (x : Int) : int32 x < 2 ^ 31 := by
  unfold int32
  dsimp only
  split_ifs <;> omega

theorem int32_emod (x : Int) : int32 (x % 4294967296) = int32 x := by
  unfold int32
  dsimp only
  rw [Int.emod_emod_of_dvd x (dvd_refl _)]

theorem int32_int32 (x : Int) : int32 (int32 x) = int32 x := by
  unfold int32
  dsimp only
  split_ifs <;> omega

/-- A natural number keeps its value exactly when it is below `2 ^ 31`. -/
theorem int32_eq_iff (n : Nat) : int32 n = n ↔ n < 2 ^ 31 := by
  constructor
  · intro h
    have hlt := int32_lt n
    omega
  · intro h
    exact int32_of_lt (Int.natCast_nonneg n) (by omega)

end CInt

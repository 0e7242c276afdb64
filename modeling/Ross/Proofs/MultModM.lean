import Ross.Core.RngSeed
import Ross.Lib.ModularStep

/-!
# The product modulo `M`

`MultModM` splits one factor into digits of 15 bits and multiplies by each of them with
an approximate quotient.  For a modulus between `2 ^ 30` and `2 ^ 31` every partial
result fits in 32 bits.
-/

namespace Ross

open CInt ModularStep

/-- The moduli that `MultModM` works for. -/
structure MultModulus (m : Int) : Prop where
  large : 1073741824 ≤ m
  small : m < 2147483648

namespace MultModulus

variable {m s t r : Int}

theorem pos (h : MultModulus m) : 0 < m := by
  have hl := h.large
  omega

theorem fits (h : MultModulus m) {x : Int} (h1 : -m < x) (h2 : x < m) : Fits 32 x := by
  have hs := h.small
  exact fits_32 (by omega) (by omega)

/-- A digit divides `m` with a quotient above the rest. -/
theorem schrage (h : MultModulus m) (hs : 0 < s) (hs' : s ≤ 32768) :
    Schrage m s (m / s) (m % s) where
  split := (Int.mul_ediv_add_emod m s).symm
  pos := hs
  nonneg := Int.emod_nonneg m hs.ne'
  lt := by
    have hl := h.large
    have hrest : m % s < s := Int.emod_lt_of_pos m hs
    have hquot : 32768 ≤ m / s := by
      rw [Int.le_ediv_iff_mul_le hs]
      omega
    omega

/-! ## The parts of `MultModM` -/

theorem div32_ok {a b : Int} (ha : 0 ≤ a) (hb : 0 < b) (hfit : a < 2147483648) :
    div32 a b = some (a / b) := by
  have hle : a / b ≤ a := Int.ediv_le_self b ha
  have hnn : 0 ≤ a / b := Int.ediv_nonneg ha hb.le
  unfold div32
  rw [if_neg hb.ne', Int.tdiv_eq_ediv_of_nonneg ha]
  exact exact_of_fits (fits_32 (by omega) (by omega))

/-- The loop ends after at most one turn. -/
theorem whileNegative_ok (h : MultModulus m) (h1 : -m < r) (h2 : r < m) :
    whileNegative m r = some (r % m) := by
  rw [← Schrage.ite_add_eq_emod h1 h2, whileNegative]
  split
  next hneg =>
    have hback : whileNegative m (r + m) = some (r + m) := by
      rw [whileNegative, if_neg (by omega)]
    rw [if_pos h.pos, exact_of_fits (h.fits (by omega) (by omega))]
    exact hback
  next hneg => rfl

/-- A value between `-m` and `m` is brought to one that is not positive. -/
theorem lowerPositive_ok (h : MultModulus m) (h1 : -m < r) (h2 : r < m) :
    ∃ r', lowerPositive m r = some r' ∧ -m < r' ∧ r' ≤ 0 ∧ Int.ModEq m r' r := by
  unfold lowerPositive
  split
  next hpos =>
    exact ⟨r - m, exact_of_fits (h.fits (by omega) (by omega)), by omega, by omega,
      Int.modEq_iff_dvd.mpr ⟨1, by ring⟩⟩
  next hpos => exact ⟨r, rfl, h1, by omega, Int.ModEq.refl r⟩

theorem multShift_ok (h : MultModulus m) (ht : 0 ≤ t) (htm : t < m) :
    multShift t m (m / multH) (m % multH) = some (multH * t % m) := by
  have hs : Schrage m multH (m / multH) (m % multH) := h.schrage (by decide) (by decide)
  obtain ⟨h1, h2⟩ := hs.div_mul_le ht
  obtain ⟨h3, h4⟩ := hs.mul_emod_lt t
  obtain ⟨h5, h6⟩ := hs.div_mul_r_le ht
  have hsmall := h.small
  have hq := hs.q_pos
  have hd0 : 0 ≤ t % (m / multH) := Int.emod_nonneg t hq.ne'
  have hdt : t % (m / multH) ≤ t := by
    rw [← Schrage.sub_div_mul]
    omega
  have hmod : (multH * (t % (m / multH)) - t / (m / multH) * (m % multH)) % m =
      multH * t % m := hs.modEq t
  unfold multShift
  simp only [Option.bind_eq_bind]
  rw [div32_ok ht hq (by omega), Option.bind_some,
    exact_of_fits (h.fits (by omega) (by omega)), Option.bind_some, Schrage.sub_div_mul,
    exact_of_fits (h.fits (by omega) (by omega)), Option.bind_some,
    exact_of_fits (h.fits (by omega) (by omega)), Option.bind_some,
    exact_of_fits (h.fits (by omega) (by omega)), Option.bind_some,
    exact_of_fits (h.fits (by omega) (by omega)), Option.bind_some,
    h.whileNegative_ok (by omega) (by omega), hmod]

theorem multDigit_ok (h : MultModulus m) (hs : 0 < s) (hs' : s < 32768) (ht : 0 ≤ t)
    (htm : t < m) (hr : 0 ≤ r) (hrm : r < m) :
    multDigit s t m r = some ((r + s * t) % m) := by
  have hsch := h.schrage hs hs'.le
  obtain ⟨h1, h2⟩ := hsch.div_mul_le ht
  obtain ⟨h3, h4⟩ := hsch.mul_emod_lt t
  obtain ⟨h5, h6⟩ := hsch.div_mul_r_le ht
  have hsmall := h.small
  have hlarge := h.large
  have hq := hsch.q_pos
  have hd0 : 0 ≤ t % (m / s) := Int.emod_nonneg t hq.ne'
  have hdt : t % (m / s) ≤ t := by
    rw [← Schrage.sub_div_mul]
    omega
  have hrest : m - s * (m / s) = m % s := (Int.emod_def m s).symm
  have hrest0 : 0 ≤ m % s := hsch.nonneg
  have hrestm : m % s < m := Int.emod_lt_of_pos m hs |>.trans (by omega)
  have hmod : Int.ModEq m (s * (t % (m / s)) - t / (m / s) * (m % s)) (s * t) := hsch.modEq t
  obtain ⟨r', hlower, hr', hr'0, hr'mod⟩ :=
    h.lowerPositive_ok (r := r - t / (m / s) * (m % s)) (by omega) (by omega)
  have hsum : (r' + s * (t % (m / s))) % m = (r + s * t) % m := by
    have heq : r - t / (m / s) * (m % s) + s * (t % (m / s)) =
        r + (s * (t % (m / s)) - t / (m / s) * (m % s)) := by ring
    have hcong : Int.ModEq m (r' + s * (t % (m / s))) (r + s * t) := by
      refine (hr'mod.add_right _).trans ?_
      rw [heq]
      exact hmod.add_left r
    exact hcong
  have hsq : 0 ≤ s * (m / s) ∧ s * (m / s) ≤ m := by omega
  unfold multDigit
  simp only [Option.bind_eq_bind]
  rw [div32_ok (by omega) hs (by omega), Option.bind_some, div32_ok ht hq (by omega),
    Option.bind_some, exact_of_fits (fits_32 (by omega) (by omega)), Option.bind_some, hrest,
    exact_of_fits (h.fits (by omega) (by omega)), Option.bind_some,
    exact_of_fits (h.fits (by omega) (by omega)), Option.bind_some,
    exact_of_fits (h.fits (by omega) (by omega)), Option.bind_some, hlower, Option.bind_some,
    exact_of_fits (h.fits (by omega) (by omega)), Option.bind_some, Schrage.sub_div_mul,
    exact_of_fits (h.fits (by omega) (by omega)), Option.bind_some,
    exact_of_fits (h.fits (by omega) (by omega)), Option.bind_some,
    exact_of_fits (h.fits (by omega) (by omega)), Option.bind_some,
    h.whileNegative_ok (by omega) (by omega), hsum]

theorem multDigitIf_ok (h : MultModulus m) (hs : 0 ≤ s) (hs' : s < 32768) (ht : 0 ≤ t)
    (htm : t < m) (hr : 0 ≤ r) (hrm : r < m) :
    multDigitIf s t m r = some ((r + s * t) % m) := by
  unfold multDigitIf
  split
  next h0 => exact h.multDigit_ok (by omega) hs' ht htm hr hrm
  next h0 =>
    obtain rfl : s = 0 := not_not.mp h0
    rw [zero_mul, add_zero, Int.emod_eq_of_lt hr hrm]

theorem emod_range (h : MultModulus m) (x : Int) : 0 ≤ x % m ∧ x % m < m :=
  ⟨Int.emod_nonneg x h.pos.ne', Int.emod_lt_of_pos x h.pos⟩

/-- A number of 31 bits has a quotient of 16 bits by `H`. -/
theorem digits {x : Int} (h0 : 0 ≤ x) (h1 : x < 2147483648) :
    (0 ≤ x / multH ∧ x / multH < 65536) ∧ (0 ≤ multH * (x / multH) ∧ multH * (x / multH) ≤ x) ∧
      0 ≤ x % multH ∧ x % multH < 32768 := by
  unfold multH
  omega

/-- The top digit is 0 or 1. -/
theorem multTop_ok (h : MultModulus m) {s1 : Int} (hs : 0 ≤ s1) (hs' : s1 < 65536) (ht : 0 ≤ t)
    (htm : t < m) : ∃ top r, multTop s1 t m (m / multH) (m % multH) = some (top, r) ∧
      (0 ≤ top ∧ top < 32768) ∧ (0 ≤ r ∧ r < m) ∧ (r + top * t) % m = s1 * t % m := by
  have hH : multH = 32768 := rfl
  unfold multTop
  split
  next htop =>
    refine ⟨s1 - multH, multH * t % m, ?_, by omega, h.emod_range _, ?_⟩
    · rw [exact_of_fits (fits_32 (by omega) (by omega)), h.multShift_ok ht htm]
      rfl
    · rw [Int.emod_add_emod]
      congr 1
      ring
  next htop =>
    refine ⟨s1, 0, rfl, by omega, ⟨le_rfl, h.pos⟩, ?_⟩
    rw [zero_add]

/-- The digits above the lowest one, times `t` and shifted. -/
theorem multHigh_ok (h : MultModulus m) (hs : 32768 ≤ s) (hsm : s < m) (ht : 0 ≤ t)
    (htm : t < m) :
    multHigh s t m = some (s % multH, multH * (s / multH * t) % m) := by
  have hsmall := h.small
  have hlarge := h.large
  have hH : multH = 32768 := rfl
  have hs0 : s - multH * (s / multH) = s % multH := (Int.emod_def s multH).symm
  have hrh : m - multH * (m / multH) = m % multH := (Int.emod_def m multH).symm
  obtain ⟨hs1, hfit1, hfit2⟩ := digits (by omega : 0 ≤ s) (by omega)
  obtain ⟨hm1, hfit3, hfit4⟩ := digits h.pos.le hsmall
  obtain ⟨top, r, htop, ⟨htop0, htop1⟩, ⟨hr0, hrm⟩, hval⟩ :=
    h.multTop_ok hs1.1 hs1.2 ht htm
  obtain ⟨hx0, hxm⟩ := h.emod_range (s / multH * t)
  unfold multHigh
  simp only [Option.bind_eq_bind]
  rw [div32_ok (by omega) (by omega) (by omega), Option.bind_some,
    exact_of_fits (fits_32 (by omega) (by omega)), Option.bind_some, hs0,
    exact_of_fits (fits_32 (by omega) (by omega)), Option.bind_some,
    div32_ok (by omega) (by omega) (by omega), Option.bind_some,
    exact_of_fits (fits_32 (by omega) (by omega)), Option.bind_some, hrh,
    exact_of_fits (fits_32 (by omega) (by omega)), Option.bind_some, htop, Option.bind_some,
    h.multDigitIf_ok htop0 htop1 ht htm hr0 hrm, Option.bind_some, hval,
    h.multShift_ok hx0 hxm, Option.bind_some]
  have hmul : multH * (s / multH * t % m) % m = multH * (s / multH * t) % m :=
    (Int.mod_modEq _ m).mul_left multH
  rw [hmul]
  rfl

theorem raiseNegative_ok (h : MultModulus m) (h1 : -m < s) (h2 : s < m) :
    raiseNegative m s = some (s % m) := by
  rw [← Schrage.ite_add_eq_emod h1 h2]
  unfold raiseNegative
  split
  · exact exact_of_fits (h.fits (by omega) (by omega))
  · rfl

end MultModulus

/-- `MultModM` computes the product modulo `m`, without overflow. -/
theorem multModM_ok {m s t : Int} (h : MultModulus m) (hs : -m < s) (hs' : s < m) (ht : -m < t)
    (ht' : t < m) : multModM s t m = some (s * t % m) := by
  obtain ⟨hs0, hsm⟩ := h.emod_range s
  obtain ⟨ht0, htm⟩ := h.emod_range t
  have hH : multH = 32768 := rfl
  unfold multModM
  simp only [Option.bind_eq_bind]
  rw [h.raiseNegative_ok hs hs', Option.bind_some, h.raiseNegative_ok ht ht', Option.bind_some]
  have hmul : s % m * (t % m) % m = s * t % m := (Int.mul_emod s t m).symm
  split
  next hlow =>
    rw [Option.bind_some, h.multDigitIf_ok hs0 (by omega) ht0 htm le_rfl h.pos, zero_add, hmul]
  next hlow =>
    obtain ⟨hx0, hxm⟩ := h.emod_range (multH * (s % m / multH * (t % m)))
    obtain ⟨-, -, hlow0, hlow1⟩ := MultModulus.digits hs0 (by have hsmall := h.small; omega)
    rw [h.multHigh_ok (by omega) hsm ht0 htm, Option.bind_some,
      h.multDigitIf_ok hlow0 hlow1 ht0 htm hx0 hxm, Int.emod_add_emod, ← hmul]
    have hsplit : s % m % multH + multH * (s % m / multH) = s % m := Int.emod_add_mul_ediv _ _
    congr 2
    calc multH * (s % m / multH * (t % m)) + s % m % multH * (t % m)
        = (s % m % multH + multH * (s % m / multH)) * (t % m) := by ring
      _ = s % m * (t % m) := by rw [hsplit]

end Ross

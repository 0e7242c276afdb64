import Ross.Core.Rng
import Ross.Lib.ModularStep

/-!
# Drawing random numbers back

A draw multiplies each component by `a[j]` modulo `m[j]`, in steps that stay in 32
bits; the way back multiplies by the inverse that `FindB` computes, in 64 bits.
-/

namespace Ross

open CInt ModularStep RoundTrip

variable {m a b q r s : Int}

/-! ## One component -/

/-- No step of a draw overflows, and the result is the product modulo `m`. -/
theorem genStep_ok (h : Schrage m a q r) (hm : m < 2147483648) (hs : 0 ≤ s) (hsm : s < m) :
    genStep q a r m s = some (a * s % m) := by
  obtain ⟨h1, h2⟩ := h.div_mul_le hs
  obtain ⟨h3, h4⟩ := h.mul_emod_lt s
  obtain ⟨h5, h6⟩ := h.div_mul_r_le hs
  have hq : 0 < q := h.q_pos
  have hk : s.tdiv q = s / q := Int.tdiv_eq_ediv_of_nonneg hs
  have hk0 : 0 ≤ s / q := Int.ediv_nonneg hs hq.le
  have hks : s / q ≤ s := Int.ediv_le_self q hs
  have hd0 : 0 ≤ s % q := Int.emod_nonneg s hq.ne'
  have hds : s % q ≤ s := by
    rw [← Schrage.sub_div_mul]
    omega
  have hr := h.result hs hsm
  unfold genStep
  simp only [Option.bind_eq_bind]
  rw [hk, exact_of_fits (fits_32 (by omega) (by omega)), Option.bind_some,
    exact_of_fits (fits_32 (by omega) (by omega)), Option.bind_some,
    Schrage.sub_div_mul, exact_of_fits (fits_32 (by omega) (by omega)), Option.bind_some,
    exact_of_fits (fits_32 (by omega) (by omega)), Option.bind_some,
    exact_of_fits (fits_32 (by omega) (by omega)), Option.bind_some,
    exact_of_fits (fits_32 (by omega) (by omega)), Option.bind_some, ← hr]
  split
  next hneg => exact exact_of_fits (fits_32 (by omega) (by omega))
  next hneg => rfl

/-- No step of the way back overflows, and the result is the product modulo `m`. -/
theorem reverseStep_ok (hm : m < 2147483648) (hb : 0 ≤ b) (hbm : b < m) (hs : 0 ≤ s)
    (hsm : s < m) : reverseStep b m s = some (b * s % m) := by
  have hp0 : 0 ≤ b * s := mul_nonneg hb hs
  have hp : b * s ≤ 2147483648 * 2147483648 := mul_le_mul (by omega) (by omega) hs (by omega)
  have hnn : 0 ≤ b * s % m := Int.emod_nonneg _ (by omega)
  have hlt : b * s % m < m := Int.emod_lt_of_pos _ (by omega)
  unfold reverseStep
  simp only [Option.bind_eq_bind]
  rw [exact_of_fits (fits_64 (by omega) (by omega)), Option.bind_some,
    Int.tmod_eq_emod_of_nonneg hp0, exact_of_fits (fits_64 (by omega) (by omega)),
    Option.bind_some]
  exact exact_of_fits (fits_32 (by omega) (by omega))

/-- The numbers of a component: the way back multiplies by the inverse. -/
structure Component (q a r m b : Int) : Prop extends Schrage m a q r where
  small : m < 2147483648
  nonneg_b : 0 ≤ b
  lt_b : b < m
  inverse : a * b % m = 1

/-- `s` is a state of a component. -/
def InComponent (m s : Int) : Prop := 1 ≤ s ∧ s ≤ m - 1

namespace Component

theorem of_and (h : m = a * q + r ∧ 0 < a ∧ 0 ≤ r ∧ r < q ∧ m < 2147483648 ∧ 0 ≤ b ∧ b < m ∧
    a * b % m = 1) : Component q a r m b := by
  obtain ⟨hsplit, hpos, hr, hq, hm, hb, hbm, hinv⟩ := h
  exact ⟨⟨hsplit, hpos, hr, hq⟩, hm, hb, hbm, hinv⟩

theorem inverse' (h : Component q a r m b) : b * a % m = 1 := by
  rw [mul_comm]
  exact h.inverse

theorem pos_m (h : Component q a r m b) : 0 < m := h.nonneg_b.trans_lt h.lt_b

theorem gen_reverse (h : Component q a r m b) (hs : InComponent m s) :
    ∃ s', genStep q a r m s = some s' ∧ InComponent m s' ∧ reverseStep b m s' = some s := by
  obtain ⟨h1, hm⟩ := hs
  have hrange := mul_emod_range h.pos_m h.inverse h1 hm
  refine ⟨a * s % m, genStep_ok h.toSchrage h.small (by omega) (by omega), hrange, ?_⟩
  rw [reverseStep_ok h.small h.nonneg_b h.lt_b (by omega) (by omega),
    mul_inv_emod h.inverse (by omega) (by omega)]

theorem reverse_gen (h : Component q a r m b) (hs : InComponent m s) :
    ∃ s', reverseStep b m s = some s' ∧ InComponent m s' ∧ genStep q a r m s' = some s := by
  obtain ⟨h1, hm⟩ := hs
  have hrange := mul_emod_range h.pos_m h.inverse' h1 hm
  refine ⟨b * s % m, reverseStep_ok h.small h.nonneg_b h.lt_b (by omega) (by omega), hrange, ?_⟩
  rw [genStep_ok h.toSchrage h.small (by omega) (by omega),
    mul_inv_emod h.inverse' (by omega) (by omega)]

end Component

/-! ## The stream -/

/-- Every component of the stream is a state of it. -/
def InRange (rng : TwRng) (g : TwRngStream) : Prop := ∀ j, InComponent (rng.m j) (g.cg j)

/-- What `rng_init` leaves, with the constants of `rng_gen_val`. -/
structure Initialized (rng : TwRng) : Prop where
  component0 : Component 46693 45991 25884 2147483647 (rng.b 0)
  component1 : Component 10339 207707 870 2147483543 (rng.b 1)
  component2 : Component 15499 138556 3979 2147483423 (rng.b 2)
  component3 : Component 43218 49689 24121 2147483323 (rng.b 3)
  moduli : rng.m = ![2147483647, 2147483543, 2147483423, 2147483323]

/-- `FindB` finds the inverse of each multiplier. -/
theorem rngInit_eq : rngInit = some ⟨![1441196816, 1463744518, 499766181, 660421676],
    ![2147483647, 2147483543, 2147483423, 2147483323], ![45991, 207707, 138556, 49689]⟩ := by
  have h0 : findB 45991 2147483645 2147483647 = some 1441196816 := by decide +kernel
  have h1 : findB 207707 2147483541 2147483543 = some 1463744518 := by decide +kernel
  have h2 : findB 138556 2147483421 2147483423 = some 499766181 := by decide +kernel
  have h3 : findB 49689 2147483321 2147483323 = some 660421676 := by decide +kernel
  unfold rngInit
  change (do
    let b0 ← findB 45991 2147483645 2147483647
    let b1 ← findB 207707 2147483541 2147483543
    let b2 ← findB 138556 2147483421 2147483423
    let b3 ← findB 49689 2147483321 2147483323
    return (⟨![b0, b1, b2, b3], _, _⟩ : TwRng)) = _
  rw [h0, h1, h2, h3]
  rfl

theorem rngInit_ok : ∃ rng, rngInit = some rng ∧ Initialized rng := by
  have c0 : Component 46693 45991 25884 2147483647 1441196816 := .of_and (by decide)
  have c1 : Component 10339 207707 870 2147483543 1463744518 := .of_and (by decide)
  have c2 : Component 15499 138556 3979 2147483423 499766181 := .of_and (by decide)
  have c3 : Component 43218 49689 24121 2147483323 660421676 := .of_and (by decide)
  exact ⟨_, rngInit_eq, c0, c1, c2, c3, rfl⟩

namespace Initialized

variable {rng : TwRng} {g : TwRngStream}

theorem inRange_iff (h : Initialized rng) : InRange rng g ↔
    InComponent 2147483647 (g.cg 0) ∧ InComponent 2147483543 (g.cg 1) ∧
      InComponent 2147483423 (g.cg 2) ∧ InComponent 2147483323 (g.cg 3) := by
  unfold InRange
  rw [h.moduli, Fin.forall_fin_succ, Fin.forall_fin_succ, Fin.forall_fin_succ, Fin.forall_fin_one]
  exact Iff.rfl

theorem b_ne_zero (h : Initialized rng) : rng.b 0 ≠ 0 := by
  intro h0
  have hinv := h.component0.inverse
  rw [h0, mul_zero, Int.zero_emod] at hinv
  cases hinv

theorem eta (g : TwRngStream) :
    (⟨g.count, ![g.cg 0, g.cg 1, g.cg 2, g.cg 3]⟩ : TwRngStream) = g := by
  obtain ⟨count, cg⟩ := g
  congr 1
  funext j
  match j with
  | 0 | 1 | 2 | 3 => rfl

/-- One draw is undone by one step back. -/
theorem gen_reverse (h : Initialized rng) :
    Undoes (InRange rng) rngGenVal (rngGenReverseVal rng) := by
  intro g hg
  obtain ⟨hg0, hg1, hg2, hg3⟩ := h.inRange_iff.mp hg
  obtain ⟨s0, hf0, hr0, hb0⟩ := h.component0.gen_reverse hg0
  obtain ⟨s1, hf1, hr1, hb1⟩ := h.component1.gen_reverse hg1
  obtain ⟨s2, hf2, hr2, hb2⟩ := h.component2.gen_reverse hg2
  obtain ⟨s3, hf3, hr3, hb3⟩ := h.component3.gen_reverse hg3
  have hgen : rngGenVal g = some ⟨g.count + 1, ![s0, s1, s2, s3]⟩ := by
    unfold rngGenVal
    rw [hf0, hf1, hf2, hf3]
    rfl
  have hback : rngGenReverseVal rng ⟨g.count + 1, ![s0, s1, s2, s3]⟩ = some g := by
    unfold rngGenReverseVal
    rw [if_neg h.b_ne_zero, h.moduli]
    change (do
      let s0 ← reverseStep (rng.b 0) 2147483647 s0
      let s1 ← reverseStep (rng.b 1) 2147483543 s1
      let s2 ← reverseStep (rng.b 2) 2147483423 s2
      let s3 ← reverseStep (rng.b 3) 2147483323 s3
      return (⟨g.count + 1 - 1, ![s0, s1, s2, s3]⟩ : TwRngStream)) = _
    rw [hb0, hb1, hb2, hb3, BitVec.add_sub_cancel]
    exact congrArg some (eta g)
  exact ⟨_, hgen, h.inRange_iff.mpr ⟨hr0, hr1, hr2, hr3⟩, hback⟩

/-- One step back is undone by one draw. -/
theorem reverse_gen (h : Initialized rng) :
    Undoes (InRange rng) (rngGenReverseVal rng) rngGenVal := by
  intro g hg
  obtain ⟨hg0, hg1, hg2, hg3⟩ := h.inRange_iff.mp hg
  obtain ⟨s0, hb0, hr0, hf0⟩ := h.component0.reverse_gen hg0
  obtain ⟨s1, hb1, hr1, hf1⟩ := h.component1.reverse_gen hg1
  obtain ⟨s2, hb2, hr2, hf2⟩ := h.component2.reverse_gen hg2
  obtain ⟨s3, hb3, hr3, hf3⟩ := h.component3.reverse_gen hg3
  have hback : rngGenReverseVal rng g = some ⟨g.count - 1, ![s0, s1, s2, s3]⟩ := by
    unfold rngGenReverseVal
    rw [if_neg h.b_ne_zero, h.moduli]
    change (do
      let s0 ← reverseStep (rng.b 0) 2147483647 (g.cg 0)
      let s1 ← reverseStep (rng.b 1) 2147483543 (g.cg 1)
      let s2 ← reverseStep (rng.b 2) 2147483423 (g.cg 2)
      let s3 ← reverseStep (rng.b 3) 2147483323 (g.cg 3)
      return (⟨g.count - 1, ![s0, s1, s2, s3]⟩ : TwRngStream)) = _
    rw [hb0, hb1, hb2, hb3]
    rfl
  have hgen : rngGenVal ⟨g.count - 1, ![s0, s1, s2, s3]⟩ = some g := by
    unfold rngGenVal
    change (do
      let s0 ← genStep 46693 45991 25884 2147483647 s0
      let s1 ← genStep 10339 207707 870 2147483543 s1
      let s2 ← genStep 15499 138556 3979 2147483423 s2
      let s3 ← genStep 43218 49689 24121 2147483323 s3
      return (⟨g.count - 1 + 1, ![s0, s1, s2, s3]⟩ : TwRngStream)) = _
    rw [hf0, hf1, hf2, hf3, BitVec.sub_add_cancel]
    exact congrArg some (eta g)
  exact ⟨_, hback, h.inRange_iff.mpr ⟨hr0, hr1, hr2, hr3⟩, hgen⟩

end Initialized

/-- With the multipliers of `rng_init`, draws and as many steps back restore the
stream, in either order.  No step of them overflows, and the components stay in range. -/
theorem rng_reverse_exact : ∃ rng, rngInit = some rng ∧ ∀ g, InRange rng g → ∀ n,
    (∃ g', iterate rngGenVal n g = some g' ∧ InRange rng g' ∧
      iterate (rngGenReverseVal rng) n g' = some g) ∧
    ∃ g', iterate (rngGenReverseVal rng) n g = some g' ∧ InRange rng g' ∧
      iterate rngGenVal n g' = some g := by
  obtain ⟨rng, hrng, h⟩ := rngInit_ok
  exact ⟨rng, hrng, fun g hg n => ⟨h.gen_reverse.iterate n g hg, h.reverse_gen.iterate n g hg⟩⟩

/-- A thousand draws from the default seed and back. -/
theorem rng_reverse_exact_run : ∃ rng g', rngInit = some rng ∧
    iterate rngGenVal 1000 ⟨0, ![11111111, 22222222, 33333333, 44444444]⟩ = some g' ∧
    iterate (rngGenReverseVal rng) 1000 g' =
      some ⟨0, ![11111111, 22222222, 33333333, 44444444]⟩ := by
  obtain ⟨rng, hrng, hexact⟩ := rng_reverse_exact
  obtain ⟨rng', hrng', h⟩ := rngInit_ok
  obtain rfl : rng = rng' := by rw [hrng, Option.some.injEq] at hrng'; exact hrng'
  have hg : InRange rng ⟨0, ![11111111, 22222222, 33333333, 44444444]⟩ :=
    h.inRange_iff.mpr ⟨by constructor <;> decide, by constructor <;> decide,
      by constructor <;> decide, by constructor <;> decide⟩
  obtain ⟨⟨g', hgen, -, hback⟩, -⟩ := hexact _ hg 1000
  exact ⟨rng, g', hrng, hgen, hback⟩

end Ross

import Ross.Proofs.MultModM
import Ross.Proofs.RngReverse

/-!
# Jumping ahead

`tw_rand_initial_seed` multiplies the seed by the power of the jump-ahead multiplier that
the id names, from its highest bit down; `rng_init(31, 41)` makes the multiplier
`a[j]^(2^72)`.
-/

namespace Ross

open CInt ModularStep RoundTrip

/-! ## Values of 32 bits -/

theorem toInt_ofInt_of_small {x : Int} (h0 : 0 ≤ x) (h1 : x < 2147483648) :
    (BitVec.ofInt 32 x).toInt = x := by
  rw [BitVec.toInt_ofInt]
  exact Int.bmod_eq_of_le (by omega) (by omega)

theorem toNat_ofInt_of_small {x : Int} (h0 : 0 ≤ x) (h1 : x < 2147483648) :
    (BitVec.ofInt 32 x).toNat = x.toNat := by
  rw [BitVec.toNat_ofInt, Int.emod_eq_of_lt h0 (by norm_num; omega)]

/-! ## Repeated squaring -/

theorem emod_pow (x m : Int) (n : Nat) : (x % m) ^ n % m = x ^ n % m :=
  (Int.mod_modEq x m).pow n

/-- Squaring modulo `m`, on whatever stands for the numbers below `m`, `n` times. -/
theorem iterate_square {σ : Type} {f : σ → Option σ} {r : Int → σ} {m : Int} (hm : 0 < m)
    (hf : ∀ x, 0 ≤ x → x < m → f (r x) = some (r (x * x % m))) (n : Nat) {x : Int} (h0 : 0 ≤ x)
    (h1 : x < m) : iterate f n (r x) = some (r (x ^ 2 ^ n % m)) := by
  induction n generalizing x with
  | zero => rw [iterate, pow_zero, pow_one, Int.emod_eq_of_lt h0 h1]
  | succ n ih =>
      have hpow : (x * x % m) ^ 2 ^ n % m = x ^ 2 ^ (n + 1) % m := by
        rw [emod_pow, ← pow_two, ← pow_mul, ← pow_succ']
      rw [iterate_succ_of_eq (hf x h0 h1),
        ih (Int.emod_nonneg _ hm.ne') (Int.emod_lt_of_pos _ hm), hpow]

theorem eachComponent_ok {α β : Type} {f : Fin 4 → α → Option β} {v : Fin 4 → α}
    {w : Fin 4 → β} (h : ∀ j, f j (v j) = some (w j)) : eachComponent f v = some w := by
  unfold eachComponent
  rw [h 0, h 1, h 2, h 3]
  refine congrArg some (funext fun j => ?_)
  match j with
  | 0 | 1 | 2 | 3 => rfl

/-! ## What `rng_init` leaves -/

/-- The numbers of component `j` after `rng_init(31, 41)`. -/
structure JumpAhead (rng : SeededRng) (j : Fin 4) : Prop where
  modulus : MultModulus (rng.m j)
  inverse : rng.a j * rng.b j % rng.m j = 1
  avw : rng.avw j = rng.a j ^ 2 ^ 72 % rng.m j
  top : seedMax j = BitVec.ofInt 32 (rng.m j - 1)
  seed : 1 ≤ (rng.seed j).toInt ∧ (rng.seed j).toInt ≤ rng.m j - 1

/-- `clamp_seed` brings a seed between 1 and the maximum, and keeps one that is. -/
theorem clampSeed_range {m : Int} (hm : MultModulus m) {j : Fin 4}
    (htop : seedMax j = BitVec.ofInt 32 (m - 1)) (s : Fin 4 → BitVec 32) :
    (1 ≤ (clampSeed s j).toInt ∧ (clampSeed s j).toInt ≤ m - 1) ∧
      (1 ≤ (s j).toInt → (s j).toInt ≤ m - 1 → clampSeed s j = s j) := by
  have hlarge := hm.large
  have hsmall := hm.small
  have htopNat : ((seedMax j).toNat : Int) = m - 1 := by
    rw [htop, toNat_ofInt_of_small (by omega) (by omega), Int.toNat_of_nonneg (by omega)]
  have hone : (1 : BitVec 32).toNat = 1 := rfl
  have hint : ∀ x : BitVec 32, x.toNat < 2147483648 → x.toInt = x.toNat := fun x hx =>
    BitVec.toInt_eq_toNat_of_lt (by omega)
  have hrange : ∀ x : BitVec 32, 1 ≤ x.toNat → (x.toNat : Int) ≤ m - 1 →
      1 ≤ x.toInt ∧ x.toInt ≤ m - 1 := fun x h1 h2 => by
    rw [hint x (by omega)]
    omega
  unfold clampSeed
  simp only [BitVec.lt_def]
  refine ⟨?_, fun h1 h2 => ?_⟩
  · split
    · split
      · exact hrange _ (by omega) (by omega)
      · exact hrange _ (by omega) (by omega)
    · split
      · exact hrange _ (by omega) (by omega)
      · exact hrange _ (by omega) (by omega)
  · have hnat : (s j).toInt = (s j).toNat := by
      have hlt := (s j).isLt
      by_contra hne
      rw [BitVec.toInt_eq_toNat_cond] at h1 hne
      split at h1
      next hc => rw [if_pos hc] at hne; exact hne rfl
      next hc => omega
    have hlow : ¬ (s j).toNat < (1 : BitVec 32).toNat := by omega
    rw [if_neg hlow, if_neg (by omega)]

namespace JumpAhead

variable {rng : SeededRng} {j : Fin 4}

theorem multModU_ok (h : JumpAhead rng j) {x y : Int} (hx : 0 ≤ x) (hxm : x < rng.m j)
    (hy : 0 ≤ y) (hym : y < rng.m j) :
    multModU (BitVec.ofInt 32 x) (BitVec.ofInt 32 y) (rng.m j) =
      some (BitVec.ofInt 32 (x * y % rng.m j)) := by
  have hsmall := h.modulus.small
  have hpos := h.modulus.pos
  unfold multModU
  rw [toInt_ofInt_of_small hx (by omega), toInt_ofInt_of_small hy (by omega),
    multModM_ok h.modulus (by omega) hxm (by omega) hym]
  rfl

theorem avw_range (h : JumpAhead rng j) : 0 ≤ rng.avw j ∧ rng.avw j < rng.m j := by
  rw [h.avw]
  exact h.modulus.emod_range _

theorem exponentiate_ok (h : JumpAhead rng j) (positions : Nat) :
    exponentiate rng positions j =
      some (BitVec.ofInt 32 (rng.avw j ^ 2 ^ positions % rng.m j)) := by
  obtain ⟨h0, h1⟩ := h.avw_range
  exact iterate_square h.modulus.pos
    (fun x hx hxm => h.multModU_ok hx hxm hx hxm) positions h0 h1

/-- The seed after `n` jumps. -/
def jumped (rng : SeededRng) (n : Nat) (j : Fin 4) : Int :=
  (rng.seed j).toInt * rng.avw j ^ n % rng.m j

theorem jumped_range (h : JumpAhead rng j) (n : Nat) :
    0 ≤ jumped rng n j ∧ jumped rng n j < rng.m j :=
  h.modulus.emod_range _

/-- A power of the multiplier takes the seed further. -/
theorem mul_jumped (h : JumpAhead rng j) (k n : Nat) :
    multModU (BitVec.ofInt 32 (rng.avw j ^ k % rng.m j)) (BitVec.ofInt 32 (jumped rng n j))
      (rng.m j) = some (BitVec.ofInt 32 (jumped rng (n + k) j)) := by
  obtain ⟨h0, h1⟩ := h.modulus.emod_range (rng.avw j ^ k)
  obtain ⟨h2, h3⟩ := h.jumped_range n
  have hmul : rng.avw j ^ k % rng.m j * jumped rng n j % rng.m j = jumped rng (n + k) j := by
    unfold jumped
    rw [← Int.mul_emod]
    congr 1
    ring
  rw [h.multModU_ok h0 h1 h2 h3, hmul]

theorem seed_eq (h : JumpAhead rng j) : rng.seed j = BitVec.ofInt 32 (jumped rng 0 j) := by
  obtain ⟨h1, h2⟩ := h.seed
  unfold jumped
  rw [pow_zero, mul_one, Int.emod_eq_of_lt (by omega) (by omega), BitVec.ofInt_toInt]

/-- The seed after `n` jumps in terms of `a`. -/
theorem jumped_eq (h : JumpAhead rng j) (n : Nat) :
    jumped rng n j = (rng.seed j).toInt * rng.a j ^ (n * 2 ^ 72) % rng.m j := by
  have hpow : Int.ModEq (rng.m j) (rng.avw j ^ n) (rng.a j ^ (n * 2 ^ 72)) := by
    rw [h.avw, mul_comm n, pow_mul]
    exact (Int.mod_modEq _ _).pow n
  exact hpow.mul_left _

/-- No seed in range is taken to 0. -/
theorem jumped_pos (h : JumpAhead rng j) (n : Nat) :
    1 ≤ jumped rng n j ∧ jumped rng n j ≤ rng.m j - 1 := by
  have hlarge := h.modulus.large
  have hinv : rng.a j ^ (n * 2 ^ 72) * rng.b j ^ (n * 2 ^ 72) % rng.m j = 1 := by
    have hcong : Int.ModEq (rng.m j) ((rng.a j * rng.b j) ^ (n * 2 ^ 72)) (1 ^ (n * 2 ^ 72)) := by
      refine Int.ModEq.pow _ ?_
      have h1 : rng.a j * rng.b j % rng.m j = 1 % rng.m j := by
        rw [h.inverse, Int.emod_eq_of_lt (by omega) (by omega)]
      exact h1
    have hmod : (rng.a j * rng.b j) ^ (n * 2 ^ 72) % rng.m j = 1 ^ (n * 2 ^ 72) % rng.m j := hcong
    rw [← mul_pow, hmod, one_pow, Int.emod_eq_of_lt (by omega) (by omega)]
  rw [h.jumped_eq, mul_comm]
  exact mul_emod_range h.modulus.pos hinv h.seed.1 h.seed.2

end JumpAhead

/-! ## The loop over the bits of the id -/

section Loop

variable {rng : SeededRng}

open JumpAhead

/-- The bit `p` of a number below its higher bits. -/
theorem div_two_pow (n p : Nat) :
    n / 2 ^ p = 2 * (n / 2 ^ (p + 1)) + if n.testBit p then 1 else 0 := by
  have hdiv : n / 2 ^ (p + 1) = n / 2 ^ p / 2 := by rw [pow_succ, Nat.div_div_eq_div_mul]
  rw [hdiv, Nat.testBit_eq_decide_div_mod_eq]
  simp only [decide_eq_true_eq]
  split <;> omega

theorem and_twoPow_ne_zero {id : BitVec 64} {p : Nat} (hp : p < 64) :
    id &&& 1#64 <<< p ≠ 0 ↔ id.toNat.testBit p = true := by
  rw [← BitVec.twoPow_eq, BitVec.and_twoPow, BitVec.testBit_toNat]
  split
  next hbit =>
    refine iff_of_true (fun h0 => ?_) hbit
    have hnat := congrArg BitVec.toNat h0
    rw [BitVec.toNat_twoPow_of_lt hp] at hnat
    exact absurd hnat (Nat.two_pow_pos p).ne'
  next hbit => exact iff_of_false (fun h0 => h0 rfl) hbit

/-- The jumps that the bits of `id` from `p` on stand for. -/
def jumpsFrom (id : BitVec 64) (p : Nat) : Nat := id.toNat / 2 ^ p * 2 ^ p

theorem jumpsFrom_zero (id : BitVec 64) : jumpsFrom id 0 = id.toNat := by
  rw [jumpsFrom, pow_zero, Nat.div_one, mul_one]

theorem jumpsFrom_eq (id : BitVec 64) (p : Nat) :
    jumpsFrom id p = jumpsFrom id (p + 1) + if id.toNat.testBit p then 2 ^ p else 0 := by
  unfold jumpsFrom
  rw [div_two_pow, pow_succ]
  split <;> ring

theorem jumpsFrom_64 (id : BitVec 64) : jumpsFrom id 64 = 0 := by
  rw [jumpsFrom, Nat.div_eq_of_lt id.isLt, zero_mul]

/-- The four components after `n` jumps. -/
def jumpedSeeds (rng : SeededRng) (n : Nat) (j : Fin 4) : BitVec 32 :=
  BitVec.ofInt 32 (jumped rng n j)

theorem jumpTurn_ok (h : ∀ j, JumpAhead rng j) (id : BitVec 64) {p : Nat} (hp : p < 64) :
    jumpTurn rng id (1#64 <<< p) p (jumpedSeeds rng (jumpsFrom id (p + 1))) =
      some (jumpedSeeds rng (jumpsFrom id p)) := by
  unfold jumpTurn
  rw [jumpsFrom_eq id p]
  split
  next hbit =>
    rw [if_pos ((and_twoPow_ne_zero hp).mp hbit)]
    refine eachComponent_ok fun j => ?_
    rw [(h j).exponentiate_ok p]
    exact (h j).mul_jumped _ _
  next hbit =>
    rw [if_neg fun hb => hbit ((and_twoPow_ne_zero hp).mpr hb), add_zero]

theorem jumpLoop_ok (h : ∀ j, JumpAhead rng j) (id : BitVec 64) {p : Nat} (hp : p < 64) :
    jumpLoop rng id p (1#64 <<< p) (jumpedSeeds rng (jumpsFrom id (p + 1))) =
      some (jumpedSeeds rng (jumpsFrom id 1)) := by
  induction p with
  | zero => rfl
  | succ p ih =>
      have hmask : 1#64 <<< (p + 1) >>> 1 = 1#64 <<< p := by
        refine BitVec.eq_of_toNat_eq ?_
        rw [BitVec.toNat_ushiftRight, ← BitVec.twoPow_eq, ← BitVec.twoPow_eq,
          BitVec.toNat_twoPow_of_lt hp, BitVec.toNat_twoPow_of_lt (by omega),
          Nat.shiftRight_eq_div_pow, pow_succ, pow_one, Nat.mul_div_cancel _ (by omega)]
      rw [jumpLoop, jumpTurn_ok h id hp]
      simp only [Option.bind_eq_bind, Option.bind_some]
      rw [hmask, ih (by omega)]

theorem jumpLast_ok (h : ∀ j, JumpAhead rng j) (id : BitVec 64) :
    jumpLast rng id (jumpedSeeds rng (jumpsFrom id 1)) = some (jumpedSeeds rng id.toNat) := by
  have hodd : id % 2 ≠ 0 ↔ id.toNat.testBit 0 = true := by
    rw [Nat.testBit_zero, decide_eq_true_eq, ne_eq, ← BitVec.toNat_inj, BitVec.toNat_umod]
    change ¬ id.toNat % 2 = 0 ↔ _
    omega
  have hsum := jumpsFrom_eq id 0
  rw [jumpsFrom_zero, pow_zero] at hsum
  unfold jumpLast
  rw [hsum]
  split
  next hbit =>
    rw [if_pos (hodd.mp hbit)]
    refine eachComponent_ok fun j => ?_
    obtain ⟨h0, h1⟩ := (h j).avw_range
    have hstep := (h j).mul_jumped 1 (jumpsFrom id 1)
    rw [pow_one, Int.emod_eq_of_lt h0 h1] at hstep
    exact hstep
  next hbit => rw [if_neg fun hb => hbit (hodd.mpr hb), add_zero]

/-- The stream of `id` starts at the seed after `id` jumps: the last `clamp_seed`
changes nothing. -/
theorem twRandInitialSeed_ok (h : ∀ j, JumpAhead rng j) (id : BitVec 64) :
    twRandInitialSeed rng id = some (initGenerator 0 (jumped rng id.toNat)) := by
  have hseed : rng.seed = jumpedSeeds rng (jumpsFrom id 64) := by
    funext j
    rw [jumpsFrom_64]
    exact (h j).seed_eq
  have hclamp : ∀ j, (clampSeed (jumpedSeeds rng id.toNat) j).toInt = jumped rng id.toNat j := by
    intro j
    obtain ⟨h1, h2⟩ := (h j).jumped_pos id.toNat
    have hsmall := (h j).modulus.small
    have hint : (jumpedSeeds rng id.toNat j).toInt = jumped rng id.toNat j :=
      toInt_ofInt_of_small (by omega) (by omega)
    rw [(clampSeed_range (h j).modulus (h j).top _).2 (by omega) (by omega), hint]
  unfold twRandInitialSeed
  rw [hseed, jumpLoop_ok h id (by omega : 63 < 64)]
  simp only [Option.bind_eq_bind, Option.bind_some]
  rw [jumpLast_ok h id, Option.bind_some]
  exact congrArg some (congrArg (initGenerator 0) (funext hclamp))

end Loop

/-! ## `rng_init(31, 41)` -/

/-- The numbers of `rng_init` before the jump-ahead multipliers are computed. -/
def baseRng : TwRng :=
  ⟨![1441196816, 1463744518, 499766181, 660421676],
    ![2147483647, 2147483543, 2147483423, 2147483323], ![45991, 207707, 138556, 49689]⟩

theorem baseRng_modulus (j : Fin 4) : MultModulus (baseRng.m j) := by
  have hbounds : ∀ j : Fin 4, 1073741824 ≤ baseRng.m j ∧ baseRng.m j < 2147483648 := by decide
  exact ⟨(hbounds j).1, (hbounds j).2⟩

theorem baseRng_inverse : ∀ j : Fin 4, baseRng.a j * baseRng.b j % baseRng.m j = 1 := by decide

theorem baseRng_a : ∀ j : Fin 4, 0 ≤ baseRng.a j ∧ baseRng.a j < baseRng.m j := by decide

theorem seedMax_eq : ∀ j : Fin 4, seedMax j = BitVec.ofInt 32 (baseRng.m j - 1) := by decide

/-- `rng_init` starts from a seed in range: the default, or `g_tw_rng_seed` clamped. -/
theorem initialSeed_range (gTwRngSeed : Option (Fin 4 → BitVec 32)) (j : Fin 4) :
    1 ≤ (initialSeed gTwRngSeed j).toInt ∧ (initialSeed gTwRngSeed j).toInt ≤ baseRng.m j - 1 := by
  cases gTwRngSeed with
  | some s => exact (clampSeed_range (baseRng_modulus j) (seedMax_eq j) s).1
  | none =>
      have hdefault : ∀ j : Fin 4, 1 ≤ (initialSeed none j).toInt ∧
          (initialSeed none j).toInt ≤ baseRng.m j - 1 := by decide
      exact hdefault j

/-- A component squared `n` times. -/
theorem squared_ok (j : Fin 4) (n : Nat) {x : Int} (h0 : 0 ≤ x) (h1 : x < baseRng.m j) :
    iterate (fun x => multModM x x (baseRng.m j)) n x = some (x ^ 2 ^ n % baseRng.m j) := by
  have hm := baseRng_modulus j
  have hpos := hm.pos
  exact iterate_square (r := fun x => x) hpos
    (fun x hx hxm => multModM_ok hm (by omega) hxm (by omega) hxm) n h0 h1

/-- `rng_init(v, w)` with the results of its loops. -/
theorem rngInitSeeded_eq {rng : TwRng} {v w : Nat} {aw avw : Fin 4 → Int}
    (hrng : rngInit = some rng)
    (haw : eachComponent (fun j => iterate (fun x => multModM x x (rng.m j)) w) rng.a = some aw)
    (havw : eachComponent (fun j => iterate (fun x => multModM x x (rng.m j)) v) aw = some avw)
    (gTwRngSeed : Option (Fin 4 → BitVec 32)) :
    rngInitSeeded gTwRngSeed v w = some ⟨rng, aw, avw, initialSeed gTwRngSeed⟩ := by
  unfold rngInitSeeded
  rw [hrng]
  change ((eachComponent (fun j => iterate (fun x => multModM x x (rng.m j)) w)
    rng.a).bind fun aw => _) = _
  rw [haw, Option.bind_some]
  change ((eachComponent (fun j => iterate (fun x => multModM x x (rng.m j)) v)
    aw).bind fun avw => _) = _
  rw [havw, Option.bind_some]
  rfl

theorem rngInitSeeded_ok (gTwRngSeed : Option (Fin 4 → BitVec 32)) :
    ∃ rng, rngInitSeeded gTwRngSeed 31 41 = some rng ∧ rng.toTwRng = baseRng ∧
      rng.seed = initialSeed gTwRngSeed ∧ ∀ j, JumpAhead rng j := by
  let aw : Fin 4 → Int := fun j => baseRng.a j ^ 2 ^ 41 % baseRng.m j
  let avw : Fin 4 → Int := fun j => baseRng.a j ^ 2 ^ 72 % baseRng.m j
  have haw : eachComponent (fun j => iterate (fun x => multModM x x (baseRng.m j)) 41) baseRng.a =
      some aw :=
    eachComponent_ok fun j => squared_ok j 41 (baseRng_a j).1 (baseRng_a j).2
  have havw : eachComponent (fun j => iterate (fun x => multModM x x (baseRng.m j)) 31) aw =
      some avw := by
    refine eachComponent_ok fun j => ?_
    obtain ⟨h0, h1⟩ := (baseRng_modulus j).emod_range (baseRng.a j ^ 2 ^ 41)
    rw [squared_ok j 31 h0 h1, emod_pow, ← pow_mul, ← pow_add]
  refine ⟨_, rngInitSeeded_eq rngInit_eq haw havw gTwRngSeed, rfl, rfl, fun j => ?_⟩
  exact ⟨baseRng_modulus j, baseRng_inverse j, rfl, seedMax_eq j, initialSeed_range gTwRngSeed j⟩

/-- `tw_rand_initial_seed` with the generator of `rng_init(31, 41)` jumps `id * 2^72` steps
ahead of the seed in each component, for every id and every seed in range, and leaves
the component in range. -/
theorem stream_seeding (gTwRngSeed : Option (Fin 4 → BitVec 32)) :
    ∃ rng, rngInitSeeded gTwRngSeed 31 41 = some rng ∧
      (∀ j, 1 ≤ (rng.seed j).toInt ∧ (rng.seed j).toInt ≤ rng.m j - 1) ∧
      (∀ s, gTwRngSeed = some s → (∀ j, 1 ≤ (s j).toInt ∧ (s j).toInt ≤ rng.m j - 1) →
        rng.seed = s) ∧
      ∀ id, ∃ g, twRandInitialSeed rng id = some g ∧ ∀ j,
        g.ig j = (rng.seed j).toInt * rng.a j ^ (id.toNat * 2 ^ 72) % rng.m j ∧
        g.lg j = g.ig j ∧ g.cg j = g.ig j ∧ 1 ≤ g.ig j ∧ g.ig j ≤ rng.m j - 1 := by
  obtain ⟨rng, hrng, hbase, hseed, hjump⟩ := rngInitSeeded_ok gTwRngSeed
  refine ⟨rng, hrng, fun j => (hjump j).seed, fun s hs hrange => ?_, fun id => ?_⟩
  · rw [hseed, hs]
    funext j
    exact (clampSeed_range (hjump j).modulus (hjump j).top s).2 (hrange j).1 (hrange j).2
  · refine ⟨_, twRandInitialSeed_ok hjump id, fun j => ?_⟩
    exact ⟨(hjump j).jumped_eq id.toNat, rfl, rfl, (hjump j).jumped_pos id.toNat⟩

/-- For each modulus that `rng_init` sets, `MultModM` computes the product in `[0, M)`: no
operation overflows, no divisor is zero and every loop ends. -/
theorem multModM_exact {rng : TwRng} (hrng : rngInit = some rng) (j : Fin 4) {s t : Int}
    (hs : -rng.m j < s) (hs' : s < rng.m j) (ht : -rng.m j < t) (ht' : t < rng.m j) :
    multModM s t (rng.m j) = some (s * t % rng.m j) ∧
      0 ≤ s * t % rng.m j ∧ s * t % rng.m j < rng.m j := by
  have hbase : rng = baseRng := Option.some.inj (hrng.symm.trans rngInit_eq)
  have hm : MultModulus (rng.m j) := by
    rw [hbase]
    exact baseRng_modulus j
  exact ⟨multModM_ok hm hs hs' ht ht', hm.emod_range (s * t)⟩

theorem multModM_exact_largest :
    rngInit = some baseRng ∧ multModM (-2147483542) 2147483542 (baseRng.m 1) =
      some (-2147483542 * 2147483542 % baseRng.m 1) :=
  ⟨rngInit_eq, (multModM_exact rngInit_eq 1 (by decide) (by decide) (by decide) (by decide)).1⟩

end Ross

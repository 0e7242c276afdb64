import Ross.Core.Rng

/-!
# Seeding the random number streams

`MultModM`, `clamp_seed`, the jump-ahead multipliers of `rng_init` and
`tw_rand_initial_seed` of `rand-clcg4.c`.  As in the draws, an operation whose result does
not fit its type, a division by zero and a loop that does not end have no result.
-/

namespace Ross

open CInt RoundTrip

/-! ## `MultModM` -/

/-- `H`. -/
def multH : Int := 32768

/-- A division of `int32_t` values. -/
def div32 (a b : Int) : Option Int := if b = 0 then none else exact 32 (a.tdiv b)

/-- `while (R < 0) R += M;` -/
def whileNegative (m r : Int) : Option Int :=
  if r < 0 then
    if 0 < m then
      match exact 32 (r + m) with
      | none => none
      | some _ => whileNegative m (r + m)
    else none
  else some r
termination_by (-r).toNat
decreasing_by omega

/-- The statements of `MultModM` that multiply `t` by `H`. -/
def multShift (t m qh rh : Int) : Option Int := do
  let k ← div32 t qh
  let kq ← exact 32 (k * qh)
  let d ← exact 32 (t - kq)
  let hd ← exact 32 (multH * d)
  let kr ← exact 32 (k * rh)
  let r ← exact 32 (hd - kr)
  whileNegative m r

/-- `if (R > 0) R -= M;` -/
def lowerPositive (m r : Int) : Option Int := if 0 < r then exact 32 (r - m) else some r

/-- The statements of `MultModM` that add the product of `t` with the digit `s` to `r`. -/
def multDigit (s t m r : Int) : Option Int := do
  let q ← div32 m s
  let k ← div32 t q
  let sq ← exact 32 (s * q)
  let rest ← exact 32 (m - sq)
  let kr ← exact 32 (k * rest)
  let r ← exact 32 (r - kr)
  let r ← lowerPositive m r
  let kq ← exact 32 (k * q)
  let d ← exact 32 (t - kq)
  let sd ← exact 32 (s * d)
  let r ← exact 32 (r + sd)
  whileNegative m r

/-- The same for a digit that may be zero. -/
def multDigitIf (s t m r : Int) : Option Int := if s ≠ 0 then multDigit s t m r else some r

/-- The branches for the top digit: what is left of `S1`, and `R`. -/
def multTop (s1 t m qh rh : Int) : Option (Int × Int) :=
  if multH ≤ s1 then do
    let s1 ← exact 32 (s1 - multH)
    let r ← multShift t m qh rh
    return (s1, r)
  else some (s1, 0)

/-- The branch of `MultModM` for an `s` of two or three digits: what is left of `s`, and
the product of the rest. -/
def multHigh (s t m : Int) : Option (Int × Int) := do
  let s1 ← div32 s multH
  let hs ← exact 32 (multH * s1)
  let s0 ← exact 32 (s - hs)
  let qh ← div32 m multH
  let hq ← exact 32 (multH * qh)
  let rh ← exact 32 (m - hq)
  let top ← multTop s1 t m qh rh
  let r ← multDigitIf top.1 t m top.2
  let r ← multShift r m qh rh
  return (s0, r)

/-- `if (s < 0) s += M;` -/
def raiseNegative (m s : Int) : Option Int := if s < 0 then exact 32 (s + m) else some s

/-- `MultModM`. -/
def multModM (s t m : Int) : Option Int := do
  let s ← raiseNegative m s
  let t ← raiseNegative m t
  let high ← if s < multH then some (s, 0) else multHigh s t m
  multDigitIf high.1 t m high.2

/-! ## `rng_init` -/

/-- `S0_MAX` to `S3_MAX`. -/
def seedMax : Fin 4 → BitVec 32 := ![2147483646, 2147483542, 2147483422, 2147483322]

/-- `clamp_seed`. -/
def clampSeed (s : Fin 4 → BitVec 32) (j : Fin 4) : BitVec 32 :=
  let x := if s j < 1 then 1 else s j
  if seedMax j < x then seedMax j else x

/-- A `tw_rng` with its jump-ahead multipliers and its seed. -/
structure SeededRng extends TwRng where
  aw : Fin 4 → Int
  avw : Fin 4 → Int
  seed : Fin 4 → BitVec 32

/-- The seed that `rng_init` takes: `g_tw_rng_seed`, when there is one, after
`clamp_seed`. -/
def initialSeed : Option (Fin 4 → BitVec 32) → Fin 4 → BitVec 32
  | some s => clampSeed s
  | none => ![11111111, 22222222, 33333333, 44444444]

/-- `rng_init(v, w)`, with `g_tw_rng_seed`. -/
def rngInitSeeded (gTwRngSeed : Option (Fin 4 → BitVec 32)) (v w : Nat) : Option SeededRng := do
  let rng ← rngInit
  let aw ← eachComponent (fun j => iterate (fun x => multModM x x (rng.m j)) w) rng.a
  let avw ← eachComponent (fun j => iterate (fun x => multModM x x (rng.m j)) v) aw
  return { rng with aw, avw, seed := initialSeed gTwRngSeed }

/-! ## `tw_rand_initial_seed` -/

/-- A `tw_rng_stream`. -/
structure SeededStream extends TwRngStream where
  ig : Fin 4 → Int
  lg : Fin 4 → Int

/-- `MultModM` of `uint32_t` variables. -/
def multModU (s t : BitVec 32) (m : Int) : Option (BitVec 32) :=
  (multModM s.toInt t.toInt m).map (BitVec.ofInt 32)

/-- The inner loop for a bit of the id: `avw[j]` squared `positions` times. -/
def exponentiate (rng : SeededRng) (positions : Nat) (j : Fin 4) : Option (BitVec 32) :=
  iterate (fun x => multModU x x (rng.m j)) positions (BitVec.ofInt 32 (rng.avw j))

/-- What the loop does for a bit that is set. -/
def jumpBit (rng : SeededRng) (positions : Nat) (ig : Fin 4 → BitVec 32) :
    Option (Fin 4 → BitVec 32) :=
  eachComponent (fun j x => do
    let avw ← exponentiate rng positions j
    multModU avw x (rng.m j)) ig

/-- A turn of the `do` loop. -/
def jumpTurn (rng : SeededRng) (id maskBit : BitVec 64) (positions : Nat)
    (ig : Fin 4 → BitVec 32) : Option (Fin 4 → BitVec 32) :=
  if id &&& maskBit ≠ 0 then jumpBit rng positions ig else some ig

/-- The `do` loop, entered with `positions` above 0. -/
def jumpLoop (rng : SeededRng) (id : BitVec 64) :
    Nat → BitVec 64 → (Fin 4 → BitVec 32) → Option (Fin 4 → BitVec 32)
  | 0, _, ig => some ig
  | positions + 1, maskBit, ig => do
      let ig ← jumpTurn rng id maskBit (positions + 1) ig
      jumpLoop rng id positions (maskBit >>> 1) ig

/-- The last bit of the id, after the loop. -/
def jumpLast (rng : SeededRng) (id : BitVec 64) (ig : Fin 4 → BitVec 32) :
    Option (Fin 4 → BitVec 32) :=
  if id % 2 ≠ 0 then
    eachComponent (fun j x => multModU (BitVec.ofInt 32 (rng.avw j)) x (rng.m j)) ig
  else some ig

/-- `rng_init_generator(g, InitialSeed, …)`. -/
def initGenerator (count : BitVec 64) (ig : Fin 4 → Int) : SeededStream :=
  ⟨⟨count, ig⟩, ig, ig⟩

/-- `tw_rand_initial_seed`. -/
def twRandInitialSeed (rng : SeededRng) (id : BitVec 64) : Option SeededStream := do
  let ig ← jumpLoop rng id 63 (1#64 <<< 63) rng.seed
  let ig ← jumpLast rng id ig
  return initGenerator 0 fun j => (clampSeed ig j).toInt

end Ross

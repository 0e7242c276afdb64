import Ross.Core.Rng

/-!
# Numbers of other distributions

`ross-random-internal.c` with `RAND_NORMAL`, as far as the stream goes: how many numbers a
function draws and what it keeps in the stream.  The numbers it returns are left out.  `D` is
`double`; the number that `rng_gen_val` computes from the seeds it leaves, and the test of the two
numbers kept, are parameters.
-/

namespace Ross

/-- The parts in floating point: the number of a draw, and the test of `tw_rand_normal01` for a
number outside its range. -/
structure Uniform (D : Type) where
  val : TwRngStream → D
  outside : D → D → Bool

/-- `tw_rng_stream` with the fields of `RAND_NORMAL`; `Ig` and `Lg` never change. -/
structure TwRandStream (D : Type) where
  seeds : TwRngStream
  normalU1 : D
  normalU2 : D
  normalFlipflop : Int

namespace TwRandStream

variable {D : Type} (u : Uniform D)

/-- `tw_rand_unif`. -/
def twRandUnif (g : TwRandStream D) : Option (D × TwRandStream D) :=
  match rngGenVal g.seeds with
  | none => none
  | some seeds => some (u.val seeds, { g with seeds })

/-- A function that draws one number unless its range is empty. -/
def drawUnless (g : TwRandStream D) (empty : Bool) : Option (TwRandStream D) :=
  if empty then some g else (g.twRandUnif u).map (·.2)

/-- The test of `tw_rand_integer`. -/
def integerEmpty (low high : BitVec 64) : Bool :=
  let safeHigh := if high ≠ BitVec.intMax 64 then high + 1 else high
  decide (safeHigh.toInt ≤ low.toInt)

/-- The test of `tw_rand_ulong`. -/
def ulongEmpty (low high : BitVec 64) : Bool :=
  let safeHigh := if high ≠ BitVec.allOnes 64 then high + 1 else high
  decide (safeHigh.toNat < low.toNat)

/-- `tw_rand_integer`. -/
def twRandInteger (g : TwRandStream D) (low high : BitVec 64) : Option (TwRandStream D) :=
  g.drawUnless u (integerEmpty low high)

/-- `tw_rand_ulong`. -/
def twRandUlong (g : TwRandStream D) (low high : BitVec 64) : Option (TwRandStream D) :=
  g.drawUnless u (ulongEmpty low high)

/-- `tw_rand_exponential`. -/
def twRandExponential (g : TwRandStream D) : Option (TwRandStream D) := g.drawUnless u false

/-- `tw_rand_pareto`. -/
def twRandPareto (g : TwRandStream D) : Option (TwRandStream D) := g.drawUnless u false

/-- `tw_rand_weibull`. -/
def twRandWeibull (g : TwRandStream D) : Option (TwRandStream D) := g.drawUnless u false

/-- `!` of an `int`. -/
def flip (flipflop : Int) : Int := if flipflop = 0 then 1 else 0

/-- `tw_rand_normal01`, with `*rng_calls`. -/
def twRandNormal01 (g : TwRandStream D) : Option (TwRandStream D × Nat) :=
  let g := { g with normalFlipflop := flip g.normalFlipflop }
  if g.normalFlipflop ≠ 0 ∨ u.outside g.normalU1 g.normalU2 = true then
    match g.twRandUnif u with
    | none => none
    | some (u1, g) =>
        let g := { g with normalU1 := u1 }
        match g.twRandUnif u with
        | none => none
        | some (u2, g) => some ({ g with normalU2 := u2 }, 2)
  else some (g, 0)

/-- `tw_rand_normal_sd`. -/
def twRandNormalSd (g : TwRandStream D) : Option (TwRandStream D × Nat) := g.twRandNormal01 u

/-- `tw_rand_lognormal`. -/
def twRandLognormal (g : TwRandStream D) : Option (TwRandStream D × Nat) := g.twRandNormal01 u

/-- `tw_rand_reverse_unif`. -/
def twRandReverseUnif (rng : TwRng) (g : TwRandStream D) : Option (TwRandStream D) :=
  (rngGenReverseVal rng g.seeds).map fun seeds => { g with seeds }

end TwRandStream

/-- A call of a function that draws. -/
inductive RandCall
  | integer (low high : BitVec 64)
  | ulong (low high : BitVec 64)
  | exponential
  | pareto
  | weibull
  | normal01
  | normalSd
  | lognormal
deriving DecidableEq

namespace RandCall

variable {D : Type} (u : Uniform D)

/-- A call, with the number of times its caller reverses it: once, or as `*rng_calls` says. -/
def run (g : TwRandStream D) : RandCall → Option (TwRandStream D × Nat)
  | integer low high => (g.twRandInteger u low high).map (·, 1)
  | ulong low high => (g.twRandUlong u low high).map (·, 1)
  | exponential => (g.twRandExponential u).map (·, 1)
  | pareto => (g.twRandPareto u).map (·, 1)
  | weibull => (g.twRandWeibull u).map (·, 1)
  | normal01 => g.twRandNormal01 u
  | normalSd => g.twRandNormalSd u
  | lognormal => g.twRandLognormal u

/-- The calls of a handler, one after the other, with the sum of the counts. -/
def runAll (g : TwRandStream D) : List RandCall → Option (TwRandStream D × Nat)
  | [] => some (g, 0)
  | call :: calls =>
      match call.run u g with
      | none => none
      | some (g, n) =>
          match runAll g calls with
          | none => none
          | some (g, k) => some (g, n + k)

end RandCall

end Ross

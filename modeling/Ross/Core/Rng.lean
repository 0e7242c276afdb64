import Ross.Lib.CInt
import Ross.Lib.RoundTrip
import Mathlib.Data.Fin.VecNotation

/-!
# The random number streams

`rand-clcg4.c`.  An operation whose result does not fit its type has no result, and
neither has a `tw_error`.  The real numbers that are drawn are left out.
-/

namespace Ross

open CInt

/-- The fields of `tw_rng` that the two directions read, and `a`. -/
structure TwRng where
  b : Fin 4 → Int
  m : Fin 4 → Int
  a : Fin 4 → Int

/-- The fields of `tw_rng_stream` that a draw changes. -/
structure TwRngStream where
  count : BitVec 64
  cg : Fin 4 → Int

/-! ## The multipliers of the way back -/

/-- The first loop of `FindB`, from `sqrs[i]`. -/
def sqrsLoop (m : Int) : Nat → Int → Option (List Int)
  | 0, _ => some []
  | n + 1, s => do
      let p ← exact 64 (s * s)
      let s ← exact 64 (p.tmod m)
      let sqrs ← sqrsLoop m n s
      return s :: sqrs

/-- The second loop of `FindB`. -/
def findBLoop (k m : Int) : List Int → Int → Int → Option Int
  | [], _, b => some b
  | s :: sqrs, powerOf2, b => do
      let s := if BitVec.ofInt 64 powerOf2 &&& BitVec.ofInt 64 k = 0 then 1 else s
      let p ← exact 64 (b * s)
      let b ← exact 64 (p.tmod m)
      let powerOf2 ← exact 64 (powerOf2 * 2)
      findBLoop k m sqrs powerOf2 b

/-- `FindB`. -/
def findB (a k m : Int) : Option Int := do
  let sqrs ← sqrsLoop m 31 a
  findBLoop k m (a :: sqrs) 1 1

/-- `rng_init`. -/
def rngInit : Option TwRng := do
  let m : Fin 4 → Int := ![2147483647, 2147483543, 2147483423, 2147483323]
  let a : Fin 4 → Int := ![45991, 207707, 138556, 49689]
  let b0 ← findB (a 0) (m 0 - 2) (m 0)
  let b1 ← findB (a 1) (m 1 - 2) (m 1)
  let b2 ← findB (a 2) (m 2 - 2) (m 2)
  let b3 ← findB (a 3) (m 3 - 2) (m 3)
  return ⟨![b0, b1, b2, b3], m, a⟩

/-- A loop over the four components. -/
def eachComponent {α β : Type} (f : Fin 4 → α → Option β) (v : Fin 4 → α) :
    Option (Fin 4 → β) := do
  let x0 ← f 0 (v 0)
  let x1 ← f 1 (v 1)
  let x2 ← f 2 (v 2)
  let x3 ← f 3 (v 3)
  return ![x0, x1, x2, x3]

/-! ## One component -/

/-- The statements of `rng_gen_val` for a component. -/
def genStep (q a r m s : Int) : Option Int := do
  let k ← exact 32 (s.tdiv q)
  let kq ← exact 32 (k * q)
  let d ← exact 32 (s - kq)
  let ad ← exact 32 (a * d)
  let kr ← exact 32 (k * r)
  let s ← exact 32 (ad - kr)
  if s < 0 then exact 32 (s + m) else some s

/-- The statements of `rng_gen_reverse_val` for a component. -/
def reverseStep (b m s : Int) : Option Int := do
  let p ← exact 64 (b * s)
  let s ← exact 64 (p.tmod m)
  exact 32 s

/-! ## The stream -/

/-- `rng_gen_val`. -/
def rngGenVal (g : TwRngStream) : Option TwRngStream := do
  let s0 ← genStep 46693 45991 25884 2147483647 (g.cg 0)
  let s1 ← genStep 10339 207707 870 2147483543 (g.cg 1)
  let s2 ← genStep 15499 138556 3979 2147483423 (g.cg 2)
  let s3 ← genStep 43218 49689 24121 2147483323 (g.cg 3)
  return ⟨g.count + 1, ![s0, s1, s2, s3]⟩

/-- `rng_gen_reverse_val`. -/
def rngGenReverseVal (rng : TwRng) (g : TwRngStream) : Option TwRngStream :=
  if rng.b 0 = 0 then none
  else do
    let s0 ← reverseStep (rng.b 0) (rng.m 0) (g.cg 0)
    let s1 ← reverseStep (rng.b 1) (rng.m 1) (g.cg 1)
    let s2 ← reverseStep (rng.b 2) (rng.m 2) (g.cg 2)
    let s3 ← reverseStep (rng.b 3) (rng.m 3) (g.cg 3)
    return ⟨g.count - 1, ![s0, s1, s2, s3]⟩

end Ross

import Ross.Core.RandomInternal
import Ross.Proofs.RngReverse

/-!
# Reversing as many draws as were counted

A caller reverses one draw for each call of a function that draws once, though one with an empty
range draws nothing, and as many as `*rng_calls` says for the normal distribution.  The seeds and
the count come back when no range was empty; the two numbers kept for the next normal one and the
flipflop are not touched by the way back.
-/

namespace Ross

open RoundTrip

variable {D : Type} {u : Uniform D} {rng : TwRng} {st st' : TwRandStream D}
variable {call : RandCall} {calls : List RandCall}

namespace RandCall

/-! ## What a call draws -/

/-- How a call uses the stream. -/
inductive Use
  | nothing
  | one
  | normal
deriving DecidableEq

def use : RandCall → Use
  | integer low high => if TwRandStream.integerEmpty low high then .nothing else .one
  | ulong low high => if TwRandStream.ulongEmpty low high then .nothing else .one
  | exponential | pareto | weibull => .one
  | normal01 | normalSd | lognormal => .normal

/-- The calls with an empty range: they are reversed though they draw nothing. -/
def emptyRanges (calls : List RandCall) : Nat :=
  calls.countP fun call => decide (call.use = .nothing)

/-- The calls for the normal distribution. -/
def normals (calls : List RandCall) : Nat := calls.countP fun call => decide (call.use = .normal)

/-- The pair of numbers kept, after calls on a stream whose numbers are `v`, from the one with the
number `n` on. -/
def pairAfter (outside : D → D → Bool) (v : Nat → D) :
    List RandCall → Int → Nat → D × D → D × D
  | [], _, _, pair => pair
  | call :: calls, flipflop, n, pair =>
      match call.use with
      | .nothing => pairAfter outside v calls flipflop n pair
      | .one => pairAfter outside v calls flipflop (n + 1) pair
      | .normal =>
          if TwRandStream.flip flipflop ≠ 0 ∨ outside pair.1 pair.2 = true then
            pairAfter outside v calls (TwRandStream.flip flipflop) (n + 2) (v n, v (n + 1))
          else pairAfter outside v calls (TwRandStream.flip flipflop) n pair

theorem drawUnless_false (g : TwRandStream D) :
    g.drawUnless u false = (rngGenVal g.seeds).map fun seeds => { g with seeds } := by
  unfold TwRandStream.drawUnless TwRandStream.twRandUnif
  cases rngGenVal g.seeds <;> rfl

/-- A call with an empty range leaves the stream and is counted. -/
theorem run_nothing (h : call.use = .nothing) : call.run u st = some (st, 1) := by
  cases call with
  | integer low high =>
      have he : TwRandStream.integerEmpty low high = true := by
        by_contra hne
        rw [use, if_neg hne] at h
        cases h
      rw [run, TwRandStream.twRandInteger, he]
      rfl
  | ulong low high =>
      have he : TwRandStream.ulongEmpty low high = true := by
        by_contra hne
        rw [use, if_neg hne] at h
        cases h
      rw [run, TwRandStream.twRandUlong, he]
      rfl
  | exponential | pareto | weibull | normal01 | normalSd | lognormal => cases h

/-- A call that draws once. -/
theorem run_one (h : call.use = .one) {seeds : TwRngStream} (hs : rngGenVal st.seeds = some seeds) :
    call.run u st = some ({ st with seeds }, 1) := by
  have hdraw : st.drawUnless u false = some { st with seeds } := by
    rw [drawUnless_false, hs]
    rfl
  cases call with
  | integer low high =>
      have he : TwRandStream.integerEmpty low high = false := by
        by_contra hne
        rw [use, if_pos ((Bool.not_eq_false _).mp hne)] at h
        cases h
      rw [run, TwRandStream.twRandInteger, he, hdraw]
      rfl
  | ulong low high =>
      have he : TwRandStream.ulongEmpty low high = false := by
        by_contra hne
        rw [use, if_pos ((Bool.not_eq_false _).mp hne)] at h
        cases h
      rw [run, TwRandStream.twRandUlong, he, hdraw]
      rfl
  | exponential => rw [run, TwRandStream.twRandExponential, hdraw]; rfl
  | pareto => rw [run, TwRandStream.twRandPareto, hdraw]; rfl
  | weibull => rw [run, TwRandStream.twRandWeibull, hdraw]; rfl
  | normal01 | normalSd | lognormal => cases h

/-- The three functions for the normal distribution treat the stream alike. -/
theorem run_normal (h : call.use = .normal) : call.run u st = st.twRandNormal01 u := by
  cases call with
  | integer low high =>
      rw [use] at h
      split at h <;> cases h
  | ulong low high =>
      rw [use] at h
      split at h <;> cases h
  | exponential | pareto | weibull => cases h
  | normal01 | normalSd | lognormal => rfl

/-- The test of `tw_rand_normal01` for a new pair. -/
def Redraws (u : Uniform D) (st : TwRandStream D) : Prop :=
  TwRandStream.flip st.normalFlipflop ≠ 0 ∨ u.outside st.normalU1 st.normalU2 = true

theorem twRandNormal01_redraws (hr : Redraws u st) {s₁ s₂ : TwRngStream}
    (h₁ : rngGenVal st.seeds = some s₁) (h₂ : rngGenVal s₁ = some s₂) :
    st.twRandNormal01 u =
      some (⟨s₂, u.val s₁, u.val s₂, TwRandStream.flip st.normalFlipflop⟩, 2) := by
  unfold Redraws at hr
  unfold TwRandStream.twRandNormal01 TwRandStream.twRandUnif
  dsimp only
  rw [if_pos hr, h₁]
  dsimp only
  rw [h₂]

theorem twRandNormal01_keeps (hr : ¬ Redraws u st) : st.twRandNormal01 u =
    some ({ st with normalFlipflop := TwRandStream.flip st.normalFlipflop }, 0) := by
  unfold Redraws at hr
  unfold TwRandStream.twRandNormal01
  dsimp only
  rw [if_neg hr]

/-! ## What a sequence of calls draws -/

/-- The number that the draw after `i` draws gives. -/
def valueAt (u : Uniform D) (g : TwRngStream) (i : Nat) : D :=
  (iterate rngGenVal (i + 1) g).elim (u.val g) u.val

theorem valueAt_eq {g g' s : TwRngStream} {n : Nat} (hg : iterate rngGenVal n g = some g')
    (hs : rngGenVal g' = some s) : valueAt u g n = u.val s := by
  unfold valueAt
  rw [iterate_succ', hg, Option.bind_some, hs]
  rfl

/-- What the calls leave, when `n` draws led from `g` to the stream at their start. -/
structure Drawn (u : Uniform D) (rng : TwRng) (g : TwRngStream) (n d : Nat) (calls : List RandCall)
    (st st' : TwRandStream D) : Prop where
  seeds : iterate rngGenVal d st.seeds = some st'.seeds
  inRange : InRange rng st'.seeds
  pair : (st'.normalU1, st'.normalU2) =
    pairAfter u.outside (valueAt u g) calls st.normalFlipflop n (st.normalU1, st.normalU2)
  flipflop : st'.normalFlipflop = TwRandStream.flip^[normals calls] st.normalFlipflop

theorem runAll_ok (h : Initialized rng) {g : TwRngStream} {n : Nat}
    (hg : iterate rngGenVal n g = some st.seeds) (hin : InRange rng st.seeds) :
    ∃ st' d, runAll u st calls = some (st', d + emptyRanges calls) ∧
      Drawn u rng g n d calls st st' := by
  induction calls generalizing st n with
  | nil => exact ⟨st, 0, rfl, rfl, hin, rfl, rfl⟩
  | cons call calls ih =>
      cases huse : call.use with
      | nothing =>
          obtain ⟨st', d, hrun, hd⟩ := ih hg hin
          have hempty : emptyRanges (call :: calls) = emptyRanges calls + 1 :=
            List.countP_cons_of_pos (by simp only [huse, decide_true])
          have hnormal : normals (call :: calls) = normals calls :=
            List.countP_cons_of_neg (by simp only [huse]; decide)
          refine ⟨st', d, ?_, hd.seeds, hd.inRange, ?_, ?_⟩
          · rw [runAll, run_nothing huse]
            dsimp only
            rw [hrun, hempty]
            dsimp only
            rw [Nat.add_comm 1, Nat.add_assoc]
          · rw [pairAfter, huse]
            exact hd.pair
          · rw [hnormal]
            exact hd.flipflop
      | one =>
          obtain ⟨s₁, hs₁, hin₁, -⟩ := h.gen_reverse st.seeds hin
          have hg₁ : iterate rngGenVal (n + 1) g = some s₁ := by
            rw [iterate_succ', hg, Option.bind_some, hs₁]
          obtain ⟨st', d, hrun, hd⟩ := @ih { st with seeds := s₁ } (n + 1) hg₁ hin₁
          have hempty : emptyRanges (call :: calls) = emptyRanges calls :=
            List.countP_cons_of_neg (by simp only [huse]; decide)
          have hnormal : normals (call :: calls) = normals calls :=
            List.countP_cons_of_neg (by simp only [huse]; decide)
          refine ⟨st', d + 1, ?_, ?_, hd.inRange, ?_, ?_⟩
          · rw [runAll, run_one huse hs₁]
            dsimp only
            rw [hrun, hempty]
            dsimp only
            congr 2
            omega
          · rw [iterate_succ_of_eq hs₁]
            exact hd.seeds
          · rw [pairAfter, huse]
            exact hd.pair
          · rw [hnormal]
            exact hd.flipflop
      | normal =>
          have hempty : emptyRanges (call :: calls) = emptyRanges calls :=
            List.countP_cons_of_neg (by simp only [huse]; decide)
          have hnormal : normals (call :: calls) = normals calls + 1 :=
            List.countP_cons_of_pos (by simp only [huse, decide_true])
          by_cases hr : Redraws u st
          · obtain ⟨s₁, hs₁, hin₁, -⟩ := h.gen_reverse st.seeds hin
            obtain ⟨s₂, hs₂, hin₂, -⟩ := h.gen_reverse s₁ hin₁
            have hg₁ : iterate rngGenVal (n + 1) g = some s₁ := by
              rw [iterate_succ', hg, Option.bind_some, hs₁]
            have hg₂ : iterate rngGenVal (n + 2) g = some s₂ := by
              rw [iterate_succ', hg₁, Option.bind_some, hs₂]
            obtain ⟨st', d, hrun, hd⟩ := @ih
              ⟨s₂, u.val s₁, u.val s₂, TwRandStream.flip st.normalFlipflop⟩ (n + 2) hg₂ hin₂
            refine ⟨st', d + 2, ?_, ?_, hd.inRange, ?_, ?_⟩
            · rw [runAll, run_normal huse, twRandNormal01_redraws hr hs₁ hs₂]
              dsimp only
              rw [hrun, hempty]
              dsimp only
              congr 2
              omega
            · rw [iterate_succ_of_eq hs₁, iterate_succ_of_eq hs₂]
              exact hd.seeds
            · rw [pairAfter, huse]
              unfold Redraws at hr
              dsimp only
              rw [if_pos hr, valueAt_eq hg hs₁, valueAt_eq hg₁ hs₂]
              exact hd.pair
            · rw [hnormal, Function.iterate_succ_apply]
              exact hd.flipflop
          · obtain ⟨st', d, hrun, hd⟩ := @ih
              { st with normalFlipflop := TwRandStream.flip st.normalFlipflop } n hg hin
            refine ⟨st', d, ?_, hd.seeds, hd.inRange, ?_, ?_⟩
            · rw [runAll, run_normal huse, twRandNormal01_keeps hr]
              dsimp only
              rw [hrun, hempty]
              dsimp only
              rw [Nat.zero_add]
            · rw [pairAfter, huse]
              unfold Redraws at hr
              dsimp only
              rw [if_neg hr]
              exact hd.pair
            · rw [hnormal, Function.iterate_succ_apply]
              exact hd.flipflop

/-! ## The way back -/

/-- The calls, then as many reversals as were counted, lead back to the stream. -/
def Restored (u : Uniform D) (rng : TwRng) (calls : List RandCall) (st : TwRandStream D) : Prop :=
  ∃ st' n, runAll u st calls = some (st', n) ∧
    iterate (TwRandStream.twRandReverseUnif rng) n st' = some st

/-- The reversals change the seeds and the count only. -/
theorem iterate_reverse (n : Nat) (st : TwRandStream D) :
    iterate (TwRandStream.twRandReverseUnif rng) n st =
      (iterate (rngGenReverseVal rng) n st.seeds).map fun seeds => { st with seeds } := by
  induction n generalizing st with
  | zero => rfl
  | succ n ih =>
      unfold iterate TwRandStream.twRandReverseUnif
      cases rngGenReverseVal rng st.seeds with
      | none => rfl
      | some seeds =>
          rw [Option.map_some, Option.bind_some, Option.bind_some]
          exact ih { st with seeds }

theorem flip_flip (f : Int) : TwRandStream.flip (TwRandStream.flip f) = if f = 0 then 0 else 1 := by
  unfold TwRandStream.flip
  by_cases hf : f = 0
  · rw [if_pos hf, if_pos hf, if_neg (by decide)]
  · rw [if_neg hf, if_neg hf, if_pos rfl]

/-- The flipflop comes back after an even number of calls, if it was 0 or 1. -/
theorem iterate_flip (p : Nat) (f : Int) : TwRandStream.flip^[p] f = f ↔
    p = 0 ∨ p % 2 = 0 ∧ (f = 0 ∨ f = 1) := by
  have heven : ∀ k f,
      TwRandStream.flip^[2 * k + 2] f = TwRandStream.flip (TwRandStream.flip f) := by
    intro k
    induction k with
    | zero => exact fun _ => rfl
    | succ k ih =>
        intro f
        rw [show 2 * (k + 1) + 2 = (2 * k + 2) + 1 + 1 by omega, Function.iterate_succ_apply,
          Function.iterate_succ_apply, ih, flip_flip, flip_flip]
        split <;> rfl
  rcases Nat.even_or_odd' p with ⟨k, rfl | rfl⟩
  · cases k with
    | zero => exact iff_of_true rfl (.inl rfl)
    | succ k =>
        rw [show 2 * (k + 1) = 2 * k + 2 by omega, heven, flip_flip]
        split <;> omega
  · have hodd : TwRandStream.flip^[2 * k + 1] f = TwRandStream.flip f := by
      cases k with
      | zero => rfl
      | succ k =>
          rw [show 2 * (k + 1) + 1 = (2 * k + 2) + 1 by omega, Function.iterate_succ_apply, heven,
            flip_flip]
          unfold TwRandStream.flip
          by_cases hf : f = 0
          · rw [if_pos hf, if_neg (by decide)]
          · rw [if_neg hf, if_pos rfl]
    rw [hodd]
    unfold TwRandStream.flip
    split <;> omega

/-- The parts of the stream that come back or not. -/
theorem restored_parts (h : Initialized rng) (hin : InRange rng st.seeds) :
    Restored u rng calls st ↔
      iterate (rngGenReverseVal rng) (emptyRanges calls) st.seeds = some st.seeds ∧
      TwRandStream.flip^[normals calls] st.normalFlipflop = st.normalFlipflop ∧
      pairAfter u.outside (valueAt u st.seeds) calls st.normalFlipflop 0
        (st.normalU1, st.normalU2) = (st.normalU1, st.normalU2) := by
  have hok : ∃ st' d, runAll u st calls = some (st', d + emptyRanges calls) ∧
      Drawn u rng st.seeds 0 d calls st st' := runAll_ok h rfl hin
  obtain ⟨st', d, hrun, hd⟩ := hok
  obtain ⟨g', hfwd, -, hback⟩ := h.gen_reverse.iterate d st.seeds hin
  rw [hd.seeds] at hfwd
  cases hfwd
  have hrest : iterate (TwRandStream.twRandReverseUnif rng) (d + emptyRanges calls) st' =
      (iterate (rngGenReverseVal rng) (emptyRanges calls) st.seeds).map
        fun seeds => { st' with seeds } := by
    rw [iterate_reverse, iterate_add, hback, Option.bind_some]
  rw [← hd.flipflop, ← hd.pair]
  constructor
  · rintro ⟨st₁, n, hrun', hres⟩
    rw [hrun] at hrun'
    cases hrun'
    rw [hrest] at hres
    cases hg : iterate (rngGenReverseVal rng) (emptyRanges calls) st.seeds with
    | none =>
        rw [hg] at hres
        cases hres
    | some g =>
        rw [hg] at hres
        have hst : (⟨g, st'.normalU1, st'.normalU2, st'.normalFlipflop⟩ : TwRandStream D) = st :=
          Option.some.inj hres
        rw [← hst]
        exact ⟨rfl, rfl, rfl⟩
  · rintro ⟨hg, hf, hp⟩
    refine ⟨st', _, hrun, ?_⟩
    obtain ⟨h1, h2⟩ := Prod.mk.inj hp
    rw [hrest, hg, Option.map_some, h1, h2, hf]

/-- The count of draws tells the reversals of calls that draw nothing. -/
theorem reverse_count {g g' : TwRngStream} {k : Nat}
    (h : iterate (rngGenReverseVal rng) k g = some g') :
    g'.count = g.count - BitVec.ofNat 64 k := by
  induction k generalizing g with
  | zero =>
      cases h
      exact (BitVec.sub_zero _).symm
  | succ k ih =>
      unfold iterate at h
      cases hr : rngGenReverseVal rng g with
      | none =>
          rw [hr] at h
          cases h
      | some g₁ =>
          rw [hr, Option.bind_some] at h
          have hcount : g₁.count = g.count - 1 := by
            unfold rngGenReverseVal at hr
            split at hr
            · cases hr
            · simp only [Option.bind_eq_bind, Option.bind_eq_some_iff] at hr
              obtain ⟨s0, -, s1, -, s2, -, s3, -, hr⟩ := hr
              cases hr
              rfl
          rw [ih h, hcount]
          bv_omega

/-- Less than `2 ^ 64` reversals too many are noticed. -/
theorem reversals_return_iff {g : TwRngStream} {k : Nat} (hk : k < 2 ^ 64) :
    iterate (rngGenReverseVal rng) k g = some g ↔ k = 0 := by
  constructor
  · intro h
    have hcount := reverse_count h
    have hzero : BitVec.ofNat 64 k = 0 := by bv_omega
    have hnat := congrArg BitVec.toNat hzero
    rw [BitVec.toNat_ofNat, Nat.mod_eq_of_lt hk] at hnat
    exact hnat
  · rintro rfl
    rfl

/-- The stream comes back if and only if the reversals counted for empty ranges lead the generator
to where it began, which fewer than `2 ^ 64` do only if there are none, the flipflop was flipped an
even number of times, and the last pair drawn for the normal distribution is the one kept before. -/
theorem restored_iff (hrng : rngInit = some rng) (hin : InRange rng st.seeds) :
    (Restored u rng calls st ↔
      iterate (rngGenReverseVal rng) (emptyRanges calls) st.seeds = some st.seeds ∧
      (normals calls = 0 ∨
        normals calls % 2 = 0 ∧ (st.normalFlipflop = 0 ∨ st.normalFlipflop = 1)) ∧
      pairAfter u.outside (valueAt u st.seeds) calls st.normalFlipflop 0
        (st.normalU1, st.normalU2) = (st.normalU1, st.normalU2)) ∧
    (emptyRanges calls < 2 ^ 64 →
      (iterate (rngGenReverseVal rng) (emptyRanges calls) st.seeds = some st.seeds ↔
        emptyRanges calls = 0)) := by
  obtain ⟨rng', hrng', h⟩ := rngInit_ok
  obtain rfl : rng = rng' := Option.some.inj (hrng.symm.trans hrng')
  refine ⟨?_, reversals_return_iff⟩
  rw [restored_parts h hin, iterate_flip]

/-! ## From the default seed -/

/-- The numbers of a draw do not matter here. -/
def anyUniform : Uniform Nat := ⟨fun _ => 0, fun _ _ => false⟩

/-- A stream with the default seed and a pair. -/
def defaultStream : TwRandStream Nat :=
  ⟨⟨0, ![11111111, 22222222, 33333333, 44444444]⟩, 3, 4, 0⟩

theorem defaultStream_inRange (h : Initialized rng) : InRange rng defaultStream.seeds :=
  h.inRange_iff.mpr ⟨by constructor <;> decide, by constructor <;> decide,
    by constructor <;> decide, by constructor <;> decide⟩

/-- One call of each function that draws once. -/
theorem restored_one_each : ∃ rng, rngInit = some rng ∧
    Restored anyUniform rng [.integer 0 1000, .ulong 5 5, .exponential, .pareto, .weibull]
      defaultStream := by
  obtain ⟨rng, hrng, h⟩ := rngInit_ok
  refine ⟨rng, hrng, ((restored_iff hrng (defaultStream_inRange h)).1).mpr ⟨?_, ?_, ?_⟩⟩
  · rfl
  · exact .inl (by decide)
  · rfl

/-- An integer from 5 to 3 draws nothing and is reversed once; a number of the normal distribution
leaves its pair and the flipflop. -/
theorem not_restored : ∃ rng, rngInit = some rng ∧ InRange rng defaultStream.seeds ∧
    ¬ Restored anyUniform rng [.integer 5 3] defaultStream ∧
    ¬ Restored anyUniform rng [.integer (BitVec.intMax 64) (BitVec.intMax 64)] defaultStream ∧
    ¬ Restored anyUniform rng [.normal01] defaultStream := by
  obtain ⟨rng, hrng, h⟩ := rngInit_ok
  have hin := defaultStream_inRange h
  refine ⟨rng, hrng, hin, fun hr => ?_, fun hr => ?_, fun hr => ?_⟩
  · obtain ⟨hret, -⟩ := (restored_parts h hin).mp hr
    exact absurd ((reversals_return_iff (by decide)).mp hret) (by decide)
  · obtain ⟨hret, -⟩ := (restored_parts h hin).mp hr
    exact absurd ((reversals_return_iff (by decide)).mp hret) (by decide)
  · obtain ⟨-, hflip, -⟩ := (restored_parts h hin).mp hr
    exact absurd hflip (by decide)

end RandCall

end Ross

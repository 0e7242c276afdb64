import Ross.Core.State
import Mathlib.Algebra.BigOperators.Group.Finset.Basic
import Mathlib.Data.Fintype.Basic

/-!
# The numbering of LPs

`tw_define_lps` with the linear mapping, `map_round_robin`, the numbering of the analysis
LPs behind the model LPs, and `tw_getlocal_lp`.  The arrays are lists of their slots.
-/

namespace Ross

/-- The `tw_error` stops of the mapping, a `NULL` KP that is followed, a quotient that the
conversion to `int` is not defined for, and the bound on the turns of a loop. -/
inductive MapError
  | needLp
  | quotientRange
  | maxKps
  | kpAllocated
  | maxLps
  | lpAllocated
  | badLp
  | nullKp
  | notEnoughKps
  | notAllLps
  | notSequential
  | outOfTurns
deriving DecidableEq

/-- The fields of a `tw_lp` that the mapping sets. -/
structure LpSlot where
  gid : Nat
  id : Nat
  kp : Option Nat
deriving DecidableEq

/-- The fields of a `tw_kp` that the mapping sets. -/
structure KpSlot where
  id : Nat
  lpCount : Nat
deriving DecidableEq

/-- `g_tw_kp` and `g_tw_lp`. -/
structure MapArrays where
  gTwKp : List (Option KpSlot)
  gTwLp : List (Option LpSlot)
deriving DecidableEq

/-- The numbers of a PE that stay while it maps its LPs. -/
structure MapEnv where
  gTwMynode : Nat
  gTwNlp : Nat
  gTwNkp : Nat
  nkpPerPe : Nat
  gStUseAnalysisLps : Bool
  gStTotalModelLps : Nat
  gStAnalysisNlp : Nat
deriving DecidableEq

namespace MapEnv

variable (env : MapEnv)

/-- `g_tw_lp_offset`. -/
def gTwLpOffset : Nat := env.gTwMynode * env.gTwNlp

/-- `tw_kp_onpe`. -/
def twKpOnpe (id : Nat) (s : MapArrays) : Except MapError MapArrays :=
  if env.gTwNkp ≤ id then .error .maxKps
  else
    match (s.gTwKp[id]?).join with
    | some _ => .error .kpAllocated
    | none => .ok { s with gTwKp := s.gTwKp.set id (some ⟨id, 0⟩) }

/-- `tw_lp_onpe`. -/
def twLpOnpe (id gid : Nat) (s : MapArrays) : Except MapError MapArrays :=
  if env.gTwNlp + env.gStAnalysisNlp ≤ id then .error .maxLps
  else
    match (s.gTwLp[id]?).join with
    | some _ => .error .lpAllocated
    | none => .ok { s with gTwLp := s.gTwLp.set id (some ⟨gid, id, none⟩) }

/-- `tw_lp_onkp` of `g_tw_lp[id]` and `g_tw_kp[kpid]`. -/
def twLpOnkp (id kpid : Nat) (s : MapArrays) : Except MapError MapArrays :=
  match (s.gTwLp[id]?).join with
  | none => .error .badLp
  | some lp =>
      match (s.gTwKp[kpid]?).join with
      | none => .error .nullKp
      | some kp => .ok
          { gTwKp := s.gTwKp.set kpid (some { kp with lpCount := kp.lpCount + 1 })
            gTwLp := s.gTwLp.set id (some { lp with kp := some kpid }) }

/-- An LP of the given numbers on its KP. -/
def mapLp (id gid kpid : Nat) (s : MapArrays) : Except MapError MapArrays :=
  match env.twLpOnpe id gid s with
  | .ok s => twLpOnkp id kpid s
  | .error e => .error e

/-- The inner loop of `map_linear`, with `j` more turns. -/
def lpLoop (kpid : Nat) : Nat → Nat → MapArrays → Except MapError (Nat × MapArrays)
  | 0, lpid, s => .ok (lpid, s)
  | j + 1, lpid, s =>
      if lpid < env.gTwNlp then
        match env.mapLp lpid (env.gTwLpOffset + lpid) kpid s with
        | .ok s => lpLoop kpid j (lpid + 1) s
        | .error e => .error e
      else .ok (lpid, s)

/-- `nlp_per_kp`: the quotient rounded up. -/
def nlpPerKp : Nat := (env.gTwNlp + env.gTwNkp - 1) / env.gTwNkp

/-- The outer loop of `map_linear`, with `n` more turns. -/
def kpLoop : Nat → Nat → Nat → MapArrays → Except MapError MapArrays
  | 0, _, _, s => .ok s
  | n + 1, kpid, lpid, s =>
      match env.twKpOnpe kpid s with
      | .error e => .error e
      | .ok s =>
          match env.lpLoop kpid env.nlpPerKp lpid s with
          | .error e => .error e
          | .ok (lpid, s) => kpLoop n (kpid + 1) lpid s

/-- `map_linear`.  `nlp_per_kp` goes through an `int`, which the quotient by 0 and one from
2^31 on do not fit. -/
def mapLinear (s : MapArrays) : Except MapError MapArrays :=
  if env.gTwNkp = 0 ∨ 2147483648 ≤ env.nlpPerKp then .error .quotientRange
  else if env.nlpPerKp = 0 then .error .notEnoughKps
  else
    match env.kpLoop env.nkpPerPe 0 0 s with
    | .error e => .error e
    | .ok s =>
        match (s.gTwLp[env.gTwNlp - 1]?).join with
        | none => .error .notAllLps
        | some lp =>
            if lp.gid ≠ env.gTwLpOffset + env.gTwNlp - 1 then .error .notSequential else .ok s

/-- The loop of `map_round_robin`, with a bound on its turns; `i` is an `unsigned int`. -/
def roundRobinLoop (nnodes : Nat) : Nat → Nat → Nat → MapArrays → Except MapError MapArrays
  | 0, _, _, _ => .error .outOfTurns
  | n + 1, i, lpid, s =>
      if i < env.gTwNlp then
        match env.twLpOnpe i lpid s with
        | .error e => .error e
        | .ok s =>
            match env.twKpOnpe (i % env.gTwNkp) s with
            | .error e => .error e
            | .ok s =>
                match twLpOnkp i (i % env.gTwNkp) s with
                | .error e => .error e
                | .ok s => roundRobinLoop nnodes n ((i + 1) % 4294967296) (lpid + nnodes) s
      else .ok s

/-- `map_round_robin`, on a number of PEs. -/
def mapRoundRobin (nnodes : Nat) (s : MapArrays) : Except MapError MapArrays :=
  env.roundRobinLoop nnodes (env.gTwNlp + 1) 0 env.gTwMynode s

/-- The loop of `specialized_lp_init_mapping`, with `n` more turns. -/
def analysisLoop : Nat → Nat → MapArrays → Except MapError MapArrays
  | 0, _, s => .ok s
  | n + 1, lpid, s =>
      match env.mapLp (env.gTwNlp + lpid)
        (env.gStTotalModelLps + env.gTwMynode * env.gStAnalysisNlp + lpid) lpid s with
      | .ok s => analysisLoop n (lpid + 1) s
      | .error e => .error e

/-- `specialized_lp_init_mapping`. -/
def specializedLpInitMapping (s : MapArrays) : Except MapError MapArrays :=
  env.analysisLoop env.gStAnalysisNlp 0 s

/-- `tw_getlocal_lp` under the linear mapping.  An index outside of the array has no
LP. -/
def twGetlocalLp (s : MapArrays) (gid : Nat) : Option LpSlot :=
  if env.gStUseAnalysisLps ∧ env.gStTotalModelLps ≤ gid then
    (s.gTwLp[(gid - env.gStTotalModelLps) % env.gTwNkp + env.gTwNlp]?).join
  else if env.gTwLpOffset ≤ gid then (s.gTwLp[gid - env.gTwLpOffset]?).join
  else none

/-- `tw_getlocal_lp` under the round-robin mapping. -/
def twGetlocalLpRoundRobin (nnodes : Nat) (s : MapArrays) (gid : Nat) : Option LpSlot :=
  if env.gStUseAnalysisLps ∧ env.gStTotalModelLps ≤ gid then
    (s.gTwLp[(gid - env.gStTotalModelLps) % env.gTwNkp + env.gTwNlp]?).join
  else (s.gTwLp[gid / nnodes]?).join

/-- `g_tw_kp` and `g_tw_lp` as `tw_define_lps` allocates them. -/
def arrays0 : MapArrays :=
  ⟨List.replicate env.gTwNkp none, List.replicate (env.gTwNlp + env.gStAnalysisNlp) none⟩

end MapEnv

/-! ## All PEs -/

/-- What a PE brings to `tw_define_lps`: its argument, `--nkp`, and `g_tw_nkp`, which
is 1 when the application leaves it. -/
structure PeSetup where
  nlp : Nat
  nkpPerPe : Nat
  gTwNkp : Nat
deriving DecidableEq

/-- The PEs of a run.  `vtStats` says that the engine or the model statistics are
`VT_STATS` or `ALL_STATS`. -/
structure JobSetup (npe : Nat) where
  protocol : TwSynch
  vtStats : Bool
  pe : Fin npe → PeSetup

namespace JobSetup

variable {npe : Nat} (job : JobSetup npe)

/-- The sum of `g_tw_nlp` over the PEs, as `MPI_Allreduce` gives it. -/
def totalLps : Nat := ∑ i, (job.pe i).nlp

/-- `g_tw_nkp` after `early_sanity_check` and the override. -/
def gTwNkp (i : Fin npe) : Nat :=
  let nkp := if (job.pe i).nkpPerPe = 0 then 1 else (job.pe i).gTwNkp
  if nkp = 1 ∧ job.protocol ≠ .optimisticDebug then (job.pe i).nkpPerPe else nkp

/-- The numbers of PE `i`, those of `specialized_lp_setup` included. -/
def env (i : Fin npe) : MapEnv where
  gTwMynode := i
  gTwNlp := (job.pe i).nlp
  gTwNkp := job.gTwNkp i
  nkpPerPe := (job.pe i).nkpPerPe
  gStUseAnalysisLps := job.vtStats
  gStTotalModelLps :=
    if job.vtStats then
      if job.protocol ≠ .sequential then job.totalLps else (job.pe i).nlp
    else 0
  gStAnalysisNlp := if job.vtStats then job.gTwNkp i else 0

/-- `tw_define_lps` on PE `i`. -/
def twDefineLps (i : Fin npe) : Except MapError MapArrays :=
  if (job.pe i).nlp = 0 then .error .needLp
  else
    match (job.env i).mapLinear
      ⟨List.replicate (job.env i).gTwNkp none,
        List.replicate ((job.env i).gTwNlp + (job.env i).gStAnalysisNlp) none⟩ with
    | .error e => .error e
    | .ok s => (job.env i).specializedLpInitMapping s

end JobSetup

end Ross

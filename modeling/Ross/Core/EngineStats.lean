import Mathlib.Data.BitVec
import Mathlib.Logic.Function.Basic

/-!
# Samples of the simulation engine

`st-sim-engine.c`: the interval counters of a PE, its KPs and its LPs.  A sample reports
what a counter has grown by since the last sample of the same type.  The sampled PE is the
rank's own and the simulation has been started, so that `tw_get_stats` does its work.
-/

namespace Ross

/-- The `collection_types` that sample the engine. -/
inductive CollectionType
  | gvtCol
  | rtCol
  | analysisLp
deriving DecidableEq

/-- The interval counters of an `st_pe_stats`. -/
inductive PeCounter
  | sNeventProcessed
  | sNeventAbort
  | sERbs
  | sRbTotal
  | sRbSecondary
  | sFcAttempts
  | sNsendNetwork
  | sNreadNetwork
  | sPeEventTies
  | sNgvts
  | allReduceCount
deriving DecidableEq

/-- The interval counters of an `st_kp_stats`. -/
inductive KpCounter
  | sNeventProcessed
  | sNeventAbort
  | sERbs
  | sRbTotal
  | sRbSecondary
  | sNsendNetwork
  | sNreadNetwork
deriving DecidableEq

/-- The interval counters of an `st_lp_stats`. -/
inductive LpCounter
  | sNeventProcessed
  | sNeventAbort
  | sERbs
  | sNsendNetwork
  | sNreadNetwork
deriving DecidableEq

/-- The counters of a `tw_kp`: its own, and those of its `kp_stats`. -/
structure EngineKp where
  sNeventProcessed : BitVec 64
  sERbs : BitVec 64
  sRbTotal : BitVec 64
  sRbSecondary : BitVec 64
  kpStats : KpCounter → BitVec 32

/-- The counters of a rank: those of `pe->stats`, `g_tw_fossil_attempts`, `g_tw_gvt_done`
and `all_reduce_cnt`, and those of its KPs and LPs. -/
structure EnginePe where
  sNeventAbort : BitVec 64
  sNsendNetwork : BitVec 64
  sNreadNetwork : BitVec 64
  sPeEventTies : BitVec 64
  fossilAttempts : BitVec 32
  gvtDone : BitVec 32
  allReduceCnt : BitVec 64
  kp : Nat → EngineKp
  lpStats : Nat → LpCounter → BitVec 32

/-- `g_tw_nkp`, `g_tw_nlp`, `g_st_pe_data`, `g_st_kp_data` and `g_st_lp_data`. -/
structure EngineSetup where
  nkp : Nat
  nlp : Nat
  peData : Bool
  kpData : Bool
  lpData : Bool

/-- `last_pe_stats`, `last_all_reduce_cnt`, and the `last_stats` of the KPs and LPs. -/
structure LastStats where
  pe : CollectionType → PeCounter → BitVec 64
  allReduceCnt : BitVec 64
  kp : CollectionType → Nat → KpCounter → BitVec 32
  lp : CollectionType → Nat → LpCounter → BitVec 32

/-- They are all 0 at first. -/
def LastStats.start : LastStats := ⟨fun _ _ => 0, 0, fun _ _ _ => 0, fun _ _ _ => 0⟩

/-- The counters of a record that is pushed. -/
inductive EngineRecord
  | peType (v : PeCounter → BitVec 32)
  | kpType (kpid : Nat) (v : KpCounter → BitVec 32)
  | lpType (lpid : Nat) (v : LpCounter → BitVec 32)

variable (c : EngineSetup)

/-- The sum over the KPs. -/
def EnginePe.kpSum (pe : EnginePe) (f : EngineKp → BitVec 64) : BitVec 64 :=
  ((List.range c.nkp).map fun i => f (pe.kp i)).sum

/-- What is counted on the rank. -/
def EnginePe.counter (pe : EnginePe) : PeCounter → BitVec 64
  | .sNeventProcessed => pe.kpSum c (·.sNeventProcessed)
  | .sNeventAbort => pe.sNeventAbort
  | .sERbs => pe.kpSum c (·.sERbs)
  | .sRbTotal => pe.kpSum c (·.sRbTotal)
  | .sRbSecondary => pe.kpSum c (·.sRbSecondary)
  | .sFcAttempts => pe.fossilAttempts.signExtend 64
  | .sNsendNetwork => pe.sNsendNetwork
  | .sNreadNetwork => pe.sNreadNetwork
  | .sPeEventTies => pe.sPeEventTies
  | .sNgvts => pe.gvtDone.setWidth 64
  | .allReduceCount => pe.allReduceCnt

/-- `tw_get_stats`: it leaves `s_ngvts` at 0, and has no counter for `all_reduce_cnt`. -/
def twGetStats (pe : EnginePe) : PeCounter → BitVec 64
  | .sNgvts | .allReduceCount => 0
  | x => pe.counter c x

/-- The counters of the record of `st_collect_engine_data_pes`. -/
def peStats (last : LastStats) (pe : EnginePe) (s : PeCounter → BitVec 64)
    (colType : CollectionType) : PeCounter → BitVec 32
  | .sNgvts => (pe.gvtDone.setWidth 64 - last.pe colType .sNgvts).setWidth 32
  | .allReduceCount => (pe.allReduceCnt - last.allReduceCnt).setWidth 32
  | x => (s x - last.pe colType x).setWidth 32

/-- `st_collect_engine_data_pes`. -/
def stCollectEngineDataPes (last : LastStats) (pe : EnginePe) (s : PeCounter → BitVec 64)
    (colType : CollectionType) : List EngineRecord × LastStats :=
  ([.peType (peStats last pe s colType)],
    { last with
      pe := Function.update last.pe colType s
      allReduceCnt := pe.allReduceCnt })

/-- `st_collect_engine_data_kps` for all KPs. -/
def stCollectEngineDataKps (last : LastStats) (pe : EnginePe) (colType : CollectionType) :
    List EngineRecord × LastStats :=
  ((List.range c.nkp).map fun i =>
      .kpType i fun x => (pe.kp i).kpStats x - last.kp colType i x,
    { last with kp := Function.update last.kp colType fun i =>
        if i < c.nkp then (pe.kp i).kpStats else last.kp colType i })

/-- `st_collect_engine_data_lps` for all LPs. -/
def stCollectEngineDataLps (last : LastStats) (pe : EnginePe) (colType : CollectionType) :
    List EngineRecord × LastStats :=
  ((List.range c.nlp).map fun i => .lpType i fun x => pe.lpStats i x - last.lp colType i x,
    { last with lp := Function.update last.lp colType fun i =>
        if i < c.nlp then pe.lpStats i else last.lp colType i })

/-- A part of a sample that is taken if its flag is set. -/
def sampleIf (flag : Bool) (collect : LastStats → List EngineRecord × LastStats)
    (last : LastStats) : List EngineRecord × LastStats :=
  if flag then collect last else ([], last)

/-- `st_collect_engine_data`: the records it pushes, and what it has saved. -/
def stCollectEngineData (last : LastStats) (pe : EnginePe) (colType : CollectionType) :
    List EngineRecord × LastStats :=
  let s := twGetStats c pe
  let r := sampleIf c.peData (stCollectEngineDataPes · pe s colType) last
  let r' := sampleIf c.kpData (stCollectEngineDataKps c · pe colType) r.2
  let r'' := sampleIf c.lpData (stCollectEngineDataLps c · pe colType) r'.2
  (r.1 ++ r'.1 ++ r''.1, r''.2)

/-- A sample of a run: its type, and the counters when it is taken. -/
abbrev EngineSample := CollectionType × EnginePe

/-- The records of a run, each with the type of its sample, and what is saved after it. -/
def collectAll (samples : List EngineSample) : List (CollectionType × EngineRecord) × LastStats :=
  samples.foldl
    (fun r sample =>
      let r' := stCollectEngineData c r.2 sample.2 sample.1
      (r.1 ++ r'.1.map fun record => (sample.1, record), r'.2))
    ([], LastStats.start)

end Ross

import Ross.Core.Signature
import Ross.Lib.DoublyLinked
import Ross.Lib.Transition

/-!
# The samples of an analysis LP

`analysis-lp.c`: the samples of the model that an analysis LP takes at virtual times, in a
doubly linked list of cells that are allocated once.  A pointer is a number, following
`NULL` stops, and a loop over the list has a bound on its turns.  Samples of the model are
taken and the LP is responsible for `numLps` LPs, each of a type with a sample function.
-/

namespace Ross

open DoublyLinked Transition

/-- A `NULL` that is followed, and the bound on the turns of a loop. -/
inductive AnalysisError
  | nullPointer
  | outOfTurns
deriving DecidableEq

/-- `analysis_state` and the `model_sample_data` in memory; `B` is what a sample function
stores for an LP. -/
structure AnalysisState (T B : Type) where
  links : Links Nat
  timestamp : Nat → T
  lpData : Nat → Nat → B
  modelSamplesHead : Option Nat
  modelSamplesCurrent : Option Nat
  modelSamplesTail : Option Nat

/-- A record that `analysis_commit` writes: the LP of the list, the time and the data. -/
structure WrittenSample (T B : Type) where
  lp : Nat
  ts : T
  data : B
deriving DecidableEq

namespace AnalysisState

variable {T B : Type} [TwStime T]

/-- A turn of the loop of `analysis_init`; `sample` is the `i`-th cell. -/
def initTurn (sampleCount : Nat) (s : AnalysisState T B) (i : Nat) : AnalysisState T B :=
  if i = 0 then
    { s with links := ((s.links.setPrev i none).setNext i (some (i + 1))).setPrev (i + 1) (some i) }
  else if i = sampleCount - 1 then
    { s with links := s.links.setNext i none, modelSamplesTail := some i }
  else
    { s with links := (s.links.setNext i (some (i + 1))).setPrev (i + 1) (some i) }

/-- The cells that `analysis_init` allocates, filled with zeros. -/
def allocated (blank : Nat → B) : AnalysisState T B where
  links := ⟨fun _ => none, fun _ => none⟩
  timestamp _ := 0
  lpData _ := blank
  modelSamplesHead := some 0
  modelSamplesCurrent := some 0
  modelSamplesTail := none

/-- `analysis_init`; `sampleCount` is `g_st_sample_count`. -/
def analysisInit (sampleCount : Nat) (blank : Nat → B) : AnalysisState T B :=
  (List.range sampleCount).foldl (initTurn sampleCount) (allocated blank)

/-- The data of the LPs of the list after a function was called for each of them. -/
def forLps (numLps : Nat) (f : Nat → B → B) (data : Nat → B) : Nat → B := fun j =>
  if j < numLps then f j (data j) else data j

/-- The part of `analysis_event` at the time `now` that samples the model: the data that is
then in the cell, and the state; `sampleEvent` is what the sample function of each LP makes
of the data. -/
def analysisEvent (numLps : Nat) (now : T) (sampleEvent : Nat → B → B)
    (s : AnalysisState T B) : Except AnalysisError ((Nat → B) × AnalysisState T B) :=
  match s.modelSamplesCurrent with
  | none => .error .nullPointer
  | some sample =>
      let data := forLps numLps sampleEvent (s.lpData sample)
      .ok (data,
        { s with
          timestamp := Function.update s.timestamp sample now
          lpData := Function.update s.lpData sample data
          modelSamplesCurrent := s.links.next sample })

/-- A loop over the list that ends at a cell with this time. -/
def findSample (timestamp : Nat → T) (follow : Nat → Option Nat) (ts : T) :
    Nat → Option Nat → Except AnalysisError (Option Nat)
  | _, none => .ok none
  | 0, some _ => .error .outOfTurns
  | n + 1, some sample =>
      if timestamp sample = ts then .ok (some sample)
      else findSample timestamp follow ts n (follow sample)

/-- What `analysis_event_rc` and `analysis_commit` do with a cell they are done with: it is
taken out of the list and put behind the last one. -/
def freeSample (sample : Nat) (s : AnalysisState T B) :
    Except AnalysisError (AnalysisState T B) :=
  let s := { s with timestamp := Function.update s.timestamp sample 0 }
  let s := { s with links := s.links.skipNext sample }
  let s := { s with links := s.links.skipPrev sample }
  let s :=
    if s.modelSamplesHead = some sample then
      { s with modelSamplesHead := s.links.next sample }
    else s
  if s.modelSamplesTail ≠ some sample then
    match s.modelSamplesTail with
    | none => .error .nullPointer
    | some tail =>
        .ok { s with
          links := ((s.links.setPrev sample (some tail)).setNext tail (some sample)).setNext
            sample none
          modelSamplesTail := some sample }
  else .ok s

/-- `analysis_event_rc` for a message with the time `ts`: what it passes to the reverse
functions, and the state; `sampleRevent` is what these make of the data. -/
def analysisEventRc (numLps turns : Nat) (ts : T) (sampleRevent : Nat → B → B)
    (s : AnalysisState T B) :
    Except AnalysisError (List (Nat × B) × AnalysisState T B) :=
  match s.modelSamplesCurrent with
  | none => .error .nullPointer
  | some current =>
      match findSample s.timestamp s.links.prev ts turns (s.links.prev current) with
      | .error e => .error e
      | .ok none => .ok ([], s)
      | .ok (some sample) =>
          let passed := (List.range numLps).map fun j => (j, s.lpData sample j)
          let s := { s with
            lpData := Function.update s.lpData sample
              (forLps numLps sampleRevent (s.lpData sample)) }
          (freeSample sample s).map fun s => (passed, s)

/-- `analysis_commit` for a message with the time `ts`: what it writes, and the state. -/
def analysisCommit (numLps turns : Nat) (ts : T) (s : AnalysisState T B) :
    Except AnalysisError (List (WrittenSample T B) × AnalysisState T B) :=
  match findSample s.timestamp s.links.next ts turns s.modelSamplesHead with
  | .error e => .error e
  | .ok none => .ok ([], s)
  | .ok (some sample) =>
      let written := (List.range numLps).map fun j =>
        (⟨j, ts, s.lpData sample j⟩ : WrittenSample T B)
      (freeSample sample s).map fun s => (written, s)

end AnalysisState

/-! ## Runs -/

/-- A sampling event that is not committed, with the time in its message and what its
sample functions stored. -/
structure SampleEvent (T B : Type) where
  timestamp : T
  data : Nat → B

/-- An event is executed, the latest one is undone, or the oldest one is committed. -/
inductive AnalysisLabel (T B : Type)
  | event (now : T) (sampleEvent : Nat → B → B)
  | rc (sampleRevent : Nat → B → B)
  | commit

/-- `g_st_sample_count`, at least 2, and the length of the list of LPs. -/
structure AnalysisSetup where
  sampleCount : Nat
  two_le : 2 ≤ sampleCount
  numLps : Nat
  numLps_pos : 0 < numLps

/-- The state of the LP, its events that are not committed, the oldest first, and what the
last step passed on or wrote. -/
structure AnalysisRun (T B : Type) where
  lp : AnalysisState T B
  events : List (SampleEvent T B)
  passed : List (Nat × B)
  written : List (WrittenSample T B)

section

variable {T B : Type} [TwStime T] (c : AnalysisSetup)

/-- The start of a run. -/
def AnalysisRun.start (blank : Nat → B) : AnalysisRun T B :=
  ⟨AnalysisState.analysisInit c.sampleCount blank, [], [], []⟩

/-- A step; the message of an event keeps its time, and the loops of the LP have as many
turns as there are cells. -/
def AnalysisRun.step (s : AnalysisRun T B) :
    AnalysisLabel T B → Except AnalysisError (AnalysisRun T B)
  | .event now sampleEvent => do
      let (data, lp) ← s.lp.analysisEvent c.numLps now sampleEvent
      return { s with lp := lp, events := s.events ++ [⟨now, data⟩] }
  | .rc sampleRevent =>
      match s.events.getLast? with
      | none => .ok s
      | some e => do
          let (passed, lp) ← s.lp.analysisEventRc c.numLps c.sampleCount e.timestamp sampleRevent
          return { s with lp := lp, events := s.events.dropLast, passed := passed }
  | .commit =>
      match s.events with
      | [] => .ok s
      | e :: events => do
          let (written, lp) ← s.lp.analysisCommit c.numLps c.sampleCount e.timestamp
          return { s with lp := lp, events := events, written := written }

/-- An event is executed when it leaves a cell that no event uses, and not before an event
that is not undone; one is undone or committed when there is one. -/
def AnalysisRun.Allowed (s : AnalysisRun T B) : AnalysisLabel T B → Prop
  | .event now _ =>
      s.events.length + 1 < c.sampleCount ∧ ∀ e ∈ s.events, e.timestamp ≤ now
  | .rc _ => s.events ≠ []
  | .commit => s.events ≠ []

instance (s : AnalysisRun T B) (l : AnalysisLabel T B) : Decidable (s.Allowed c l) :=
  match l with
  | .event now _ => inferInstanceAs (Decidable
      (s.events.length + 1 < c.sampleCount ∧ ∀ e ∈ s.events, e.timestamp ≤ now))
  | .rc _ => decidable_of_iff (¬ s.events.isEmpty) (by rw [List.isEmpty_iff]; rfl)
  | .commit => decidable_of_iff (¬ s.events.isEmpty) (by rw [List.isEmpty_iff]; rfl)

/-- The states of the runs. -/
def AnalysisRun.Reached (blank : Nat → B) : AnalysisRun T B → Prop :=
  ReachableVia (· = start c blank) (fun s l s' => s.step c l = .ok s') (Allowed c)

end

end Ross

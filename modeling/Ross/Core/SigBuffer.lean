import Ross.Core.Splay

/-!
# Signatures in memory

`tw_event_sig` with its array of tiebreakers, whose elements from the length of the lineage on
hold whatever was there before: `tw_event_sig_compare_ptr` of `ross-types.h`, the comparison
`tw_pq_compare_less_than_rand` of `queue/splay.c`, and the reduction `find_min_sig` of
`gvt/mpi_allreduce.c`.
-/

namespace Ross

/-- `tw_event_sig`.  The array has `MAX_TIE_CHAIN` elements, and no loop reads an element behind
both lengths. -/
structure SigBuffer (T : Type) where
  recvTs : T
  priority : T
  tieLineageLength : Nat
  eventTiebreaker : Nat → T

namespace SigBuffer

variable {T : Type}

/-- The significant part of the lineage. -/
def lineage (sig : SigBuffer T) : List T :=
  (List.range sig.tieLineageLength).map sig.eventTiebreaker

/-- The signature without what follows its lineage. -/
def sig (sig : SigBuffer T) : TwEventSig T := ⟨sig.recvTs, sig.priority, sig.lineage⟩

/-! ## `tw_event_sig_compare_ptr` -/

section Compare

variable [LinearOrder T]

/-- The comparison of the lengths, behind the loop. -/
def compareLengths (eSig nSig : SigBuffer T) : Int :=
  if eSig.tieLineageLength = nSig.tieLineageLength then 0
  else if nSig.tieLineageLength < eSig.tieLineageLength then 1
  else -1

/-- The loop over the tiebreakers, from `i` on with `turns` turns to go, and what follows it. -/
def compareTiebreakers (eSig nSig : SigBuffer T) : Nat → Nat → Int
  | 0, _ => eSig.compareLengths nSig
  | turns + 1, i =>
      if eSig.eventTiebreaker i < nSig.eventTiebreaker i then -1
      else if nSig.eventTiebreaker i < eSig.eventTiebreaker i then 1
      else compareTiebreakers eSig nSig turns (i + 1)

/-- `tw_event_sig_compare_ptr`. -/
def comparePtr (eSig nSig : SigBuffer T) : Int :=
  let timeCompare := twStimeCmp eSig.recvTs nSig.recvTs
  if timeCompare ≠ 0 then timeCompare
  else
    let prioCompare := twStimeCmp eSig.priority nSig.priority
    if prioCompare ≠ 0 then prioCompare
    else
      let minLen := min eSig.tieLineageLength nSig.tieLineageLength
      eSig.compareTiebreakers nSig minLen 0

end Compare

/-! ## `find_min_sig` -/

/-- The loop of `find_min_sig` over the tiebreakers, which leaves the elements behind them. -/
def copyTiebreakers (inSig inoutSig : SigBuffer T) : Nat → T :=
  (List.range inSig.tieLineageLength).foldl
    (fun tiebreaker j => Function.update tiebreaker j (inSig.eventTiebreaker j))
    inoutSig.eventTiebreaker

/-- The assignments of `find_min_sig`. -/
def overwrite (inoutSig inSig : SigBuffer T) : SigBuffer T where
  recvTs := inSig.recvTs
  priority := inSig.priority
  tieLineageLength := inSig.tieLineageLength
  eventTiebreaker := copyTiebreakers inSig inoutSig

/-- A failed `assert` of `find_min_sig`. -/
inductive MinSigStop
  | inLineage
  | inoutLineage
deriving DecidableEq

/-- One turn of the loop of `find_min_sig`. -/
def findMinSigAt [LinearOrder T] (inSig inoutSig : SigBuffer T) :
    Except MinSigStop (SigBuffer T) :=
  if ¬ inSig.tieLineageLength < maxTieChain then .error .inLineage
  else if ¬ inoutSig.tieLineageLength < maxTieChain then .error .inoutLineage
  else if inSig.comparePtr inoutSig < 0 then .ok (inoutSig.overwrite inSig)
  else .ok inoutSig

/-- The loop of `find_min_sig`, from `i` on with `turns` turns to go. -/
def findMinSigLoop [LinearOrder T] (inSigs : Nat → SigBuffer T) :
    Nat → Nat → (Nat → SigBuffer T) → Except MinSigStop (Nat → SigBuffer T)
  | 0, _, inoutSigs => .ok inoutSigs
  | turns + 1, i, inoutSigs => do
      let inoutSig ← (inSigs i).findMinSigAt (inoutSigs i)
      findMinSigLoop inSigs turns (i + 1) (Function.update inoutSigs i inoutSig)

/-- `find_min_sig`, with what is at `inout` afterwards. -/
def findMinSig [LinearOrder T] (len : Nat) (inSigs inoutSigs : Nat → SigBuffer T) :
    Except MinSigStop (Nat → SigBuffer T) :=
  findMinSigLoop inSigs len 0 inoutSigs

end SigBuffer

/-! ## `tw_pq_compare_less_than_rand` -/

/-- What `tw_pq_compare_less_than_rand` reads of an event. -/
structure PqEvent (T : Type) where
  recvTs : T
  sig : SigBuffer T
  eventId : Nat
  sendPe : Nat

namespace PqEvent

variable {T : Type} [LinearOrder T]

/-- The comparisons behind the loop. -/
def lessThanTie (n e : PqEvent T) : Except PqError Bool :=
  if e.sig.tieLineageLength = n.sig.tieLineageLength then
    if n.eventId < e.eventId then .ok true
    else if e.eventId < n.eventId then .ok false
    else if n.sendPe < e.sendPe then .ok true
    else if e.sendPe < n.sendPe then .ok false
    else .error .identicalEvents
  else if n.sig.tieLineageLength < e.sig.tieLineageLength then .ok true
  else .ok false

/-- The loop over the tiebreakers, from `i` on with `turns` turns to go, and what follows it. -/
def lessThanTiebreakers (n e : PqEvent T) : Nat → Nat → Except PqError Bool
  | 0, _ => n.lessThanTie e
  | turns + 1, i =>
      if e.sig.eventTiebreaker i < n.sig.eventTiebreaker i then .ok false
      else if n.sig.eventTiebreaker i < e.sig.eventTiebreaker i then .ok true
      else lessThanTiebreakers n e turns (i + 1)

/-- `tw_pq_compare_less_than_rand`, with its error. -/
def lessThanRand (n e : PqEvent T) : Except PqError Bool :=
  if twStimeCmp n.recvTs e.recvTs < 0 then .ok true
  else if 0 < twStimeCmp n.recvTs e.recvTs then .ok false
  else if twStimeCmp n.sig.priority e.sig.priority < 0 then .ok true
  else if 0 < twStimeCmp n.sig.priority e.sig.priority then .ok false
  else
    let minLen := min e.sig.tieLineageLength n.sig.tieLineageLength
    n.lessThanTiebreakers e minLen 0

end PqEvent

end Ross

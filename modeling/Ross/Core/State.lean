import Ross.Lib.Pool
import Ross.Core.Signature

/-!
# The state of one PE

The records of `ross-types.h` that the schedulers, the network layer and the
GVT computation read and write, the static configuration of a run, and the
model's handlers.

An event buffer is named by the allocation that produced it: `tw_event_grab`
hands out a name never used before and `tw_event_free` retires it.  The fields
that no function writes after `tw_event_send` are part of the reference
(`TwEvent`); the fields that change while the buffer sits in some queue are in
`EventState`, looked up by the reference.  A queue is the list of the buffers
linked in it, head first.
-/

namespace Ross

/-- `enum tw_synch_e`, the protocols that use the parts modelled here. -/
inductive TwSynch
  | sequential
  | conservative
  | optimistic
  | optimisticDebug
  | optimisticRealtime
  | sequentialRollbackCheck
deriving DecidableEq

/-- The three protocols under which `recv_finish` indexes remote events. -/
def TwSynch.isOptimistic : TwSynch → Bool
  | .optimistic | .optimisticDebug | .optimisticRealtime => true
  | _ => false

/-- `enum tw_event_owner`; `unowned` is the zero of a cleared `state`. -/
inductive TwEventOwner
  | unowned
  | peEventQ
  | pePq
  | kpPeventQ
  | peAntiMsg
  | netOutq
  | netAsend
  | netAcancel
  | peSeventQ
  | peFreeQ
deriving DecidableEq

/-- A `tw_event` buffer: its name and the fields fixed once it has been sent. -/
structure TwEvent (T : Type) where
  uid : Nat
  sig : TwEventSig T
  eventId : Nat
  destLp : Nat
  srcLp : Nat
  sendPe : Nat
deriving DecidableEq

/-- The fields of a `tw_event` that change while it is in use.  `causedByMe` is
the chain through `caused_by_me` and `cause_next`, first link first. -/
structure EventState (T M : Type) where
  owner : TwEventOwner
  cancelQ : Bool
  cancelAsend : Bool
  remote : Bool
  cv : BitVec 32
  msg : M
  abortedTotal : Nat
  causedByMe : List (TwEvent T)

/-- The places a buffer can be linked in, or held by a local variable of the
scheduler: `evList` is the chain popped off `event_q`, `antiMsg` the cancelled
events dropped from it, `fossil` the part cut off a `pevent_q` and not yet
committed, `seventQ` the buffers owned by `TW_pe_sevent_q` (the code keeps no
list of them), `hand` the event being processed or rolled back. -/
inductive QueueId
  | eventQ
  | evList
  | antiMsg
  | pq
  | peventQ (kp : Nat)
  | fossil
  | outq
  | postedSends
  | seventQ
  | hand
deriving DecidableEq

/-- A pointer that `tw_event_new` returned to a handler: a buffer not sent yet
(with the message written into it), the abort event, or one already sent (`none`
for the abort event). -/
inductive Handle (T M : Type)
  | buffer (e : TwEvent T) (msg : M)
  | abort
  | sent (e : Option (TwEvent T))

/-- `tw_lp`: model state, core RNG stream, the count of the calls of
`tw_trigger_gvt_hook_now` and the suspension fields. -/
structure TwLp (T S R : Type) where
  curState : S
  coreRng : R
  triggeredGvtHook : BitVec 32
  suspendFlag : Bool
  suspendEvent : Option (TwEvent T)
  suspendSig : TwEventSig T
  suspendDoOrigEventRc : Bool

/-- A field in which the new record of an LP agrees with the old one is the same
for every LP. -/
theorem TwLp.update_field {T S R α : Type} (f : TwLp T S R → α) (lp : Nat → TwLp T S R)
    (i : Nat) {l : TwLp T S R} (h : f l = f (lp i)) (j : Nat) :
    f (Function.update lp i l j) = f (lp j) := by
  by_cases hj : j = i
  · subst hj
    rw [Function.update_self, h]
  · rw [Function.update_of_ne hj]

/-- `enum GVT_HOOK_STATUS`. -/
inductive GvtHookStatus
  | disabled
  | timestamp
  | everyNGvt
  | modelCall
deriving DecidableEq

/-- `struct gvt_hook_trigger`. -/
structure GvtHookTrigger (T : Type) where
  status : GvtHookStatus
  sigAt : TwEventSig T
  startingAt : Nat
  nums : Nat

/-- The calls an event handler makes into the kernel.  `eventSend i` sends the
`i`-th event the execution created. -/
inductive HandlerOp (T M : Type)
  | eventNew (destGid : Nat) (offsetTs prio : T) (msg : M)
  | eventSend (handle : Nat)
  | lpSuspend (doOrigEventRc : Bool)
  | triggerGvtHookNow

/-- What a forward handler leaves behind. -/
structure Handled (T S M : Type) where
  state : S
  cv : BitVec 32
  msg : M
  ops : List (HandlerOp T M)

/-- What a reverse handler leaves behind; `hookRev` is how often it called
`tw_trigger_gvt_hook_now_rev`. -/
structure Reversed (S M : Type) where
  state : S
  cv : BitVec 32
  msg : M
  hookRev : Nat

/-- The configuration of a run (`trigger0` the trigger of the GVT hook set before
`tw_run`), the LP mapping (`lps` the LPs a PE serves, `map` the PE of an LP,
`kpOf` its KP there), the model's handlers and the core random number generator.
A handler sees its LP, the current time, the LP state, the
bitfield and the message. -/
structure SimModel (T S M R : Type) where
  synch : TwSynch
  npe : Nat
  nkp : Nat
  tsEnd : T
  lookahead : T
  maxOptLookahead : T
  mblock : Nat
  gvtInterval : Nat
  readBuffer : Nat
  sendBuffer : Nat
  freeBuffers : Nat
  gvtHook : Bool
  trigger0 : GvtHookTrigger T
  avlTree : Bool
  lps : Nat → List Nat
  map : Nat → Nat
  kpOf : Nat → Nat
  init : Nat → S → S × List (HandlerOp T M)
  preRun : Nat → S → S × List (HandlerOp T M)
  event : Nat → T → S → BitVec 32 → M → Handled T S M
  revent : Nat → T → S → BitVec 32 → M → Reversed S M
  randUnif : R → T × R
  randReverseUnif : R → R
  zeroMsg : M
  lpState0 : Nat → S
  coreRng0 : Nat → R

/-- A message on the wire: the copy of the sender's buffer, with the bit that
makes it an anti-message. -/
structure WireMsg (T M : Type) where
  ev : TwEvent T
  cancelQ : Bool
  msg : M

/-- Which batch loop a handler runs in. -/
inductive BatchKind
  | plain
  | realtime
  | conservative
deriving DecidableEq

/-- What is left to do once the children of an event being rolled back are
cancelled: put it back and reset `last_sig` (`tw_kp_rollback_to_sig`), only put
it back, reset `last_sig` and free it (`tw_kp_rollback_event`), or finish the
abort branch of the batch. -/
inductive RollbackAfter
  | requeueReset
  | requeue
  | freeReset
  | abort (kind : BatchKind)
deriving DecidableEq

/-- A `tw_event_rollback` in progress. -/
structure Rollback (T : Type) where
  event : TwEvent T
  children : List (TwEvent T)
  after : RollbackAfter

/-- Where the PE is inside of the loop of `service_queues` (`read`) or of
`tw_net_send`, which does not read; `changed` is the variable of that name. -/
inductive NetLoop
  | off
  | testRecvs (changed : Bool)
  | testSends (read changed : Bool)
  | recvBegin (changed : Bool)
  | sendBegin (read changed : Bool)
deriving DecidableEq

/-- Where a PE waits for an `MPI_Allreduce`. -/
inductive Reduction
  | white
  | lvt
  | hookAll
  | hookAny
  | cleanupCancel
  | cleanupEvent
deriving DecidableEq

/-- The function a PE is inside of and the position in its loops. -/
inductive Phase (T M : Type)
  | idle
  | eventQ
  | eventQRollback
  | cancelQ
  | cancelQRollback (target : TwEvent T)
  | rollbackToSig (kp : Nat) (toSig : TwEventSig T)
  | batch (kind : BatchKind) (left : Nat)
  | handler (kind : BatchKind) (left : Nat) (lp : Nat) (ops : List (HandlerOp T M))
  | lpInit (lp : Nat) (ops : List (HandlerOp T M))
  | whiteLoop
  | reduce (r : Reduction)
  | reduced (r : Reduction) (flag : Bool)
  | gvtStore (gvt : TwEventSig T)
  | fossilCollect (kp : Nat) (children : List (TwEvent T))
  | inHook

/-- The calls a PE's program consists of.  A scheduler is its loop body: the
calls up to `tw_gvt_step2`, then `…Tail`, the test that ends the loop and the
batch. -/
inductive Call (T : Type)
  | initLp (lp : Nat)
  | preRunLp (lp : Nat)
  | netRead
  | gvtStep1
  | gvtStep1Realtime
  | schedEventQ
  | schedCancelQ
  | gvtStep2
  | gvtStep2AndHook
  | gvtHookStep
  | schedBatch
  | schedBatchRealtime
  | conservativeBatch
  | kpRollbackToSig (kp : Nat) (toSig : TwEventSig T)
  | rollbackAndCancelEventsPe
  | cleanupLoop
  | gvtStatusOn
  | cleanupTest
  | hookReturn
  | schedulerOptimistic
  | optimisticTail
  | schedulerOptimisticRealtime
  | optimisticRealtimeTail
  | schedulerConservative
  | conservativeTail

/-- The `tw_error` stops of the modelled functions, and the uses of a pointer
that is `NULL`. -/
inductive TwError
  | noOwner
  | eventQOwner
  | noCancelQBit
  | cancelledNoOwner
  | cancelQOwner
  | eventAllocationFailed
  | fastLocalCancelOwner
  | shouldBeRemoteCancel
  | dontKnowHowToCancel
  | dontKnowHowToFinish
  | outOfEventsInGvt
  | badSendPe
  | receivedStraggler
  | nonExistentEvent
  | notForThisPe
  | gvtDecreased
  | gvtNoChange
  | eventIntoPast
  | priorityRange
  | noFreeEventBuffers
  | maximumTieChain
  | lookaheadViolation
  | triggerStatus
  | foundKpLastTime
  | insufficientEventMemory
  | ranOutOfEventsDuringInit
  | ranOutOfEventsDuringIoLoad
  | assertFailed
  | nullPointer
  | rollbackCheck
  | badHandle
  | notEnabled
deriving DecidableEq

/-- `tw_pe`, the KPs and LPs it serves, the network queues, and where it is in
its program.  The last block records history: the events given an `event_id`,
what was handed to `MPI_Isend` and for which PE, what arrived and from which PE
(with the buffer it named here), which events were committed, and which names
were retired. -/
structure Pe (T S M R : Type) where
  id : Nat
  nextUid : Nat
  freeQ : Nat
  ev : TwEvent T → EventState T M
  queue : QueueId → List (TwEvent T)
  postedRecvs : Nat
  cancelQ : List (TwEvent T)
  cancelList : List (TwEvent T)
  abortEvent : TwEvent T
  abortCausedByMe : List (TwEvent T)
  curEvent : Option (TwEvent T)
  handles : List (Handle T M)
  lastSig : Nat → TwEventSig T
  lp : Nat → TwLp T S R
  cevAbort : Bool
  gvtCompute : Bool
  transMsgSig : TwEventSig T
  gvtSig : TwEventSig T
  sNwhiteSent : Nat
  sNwhiteRecv : Nat
  seqNum : Nat
  hashT : List (TwEvent T)
  gvtCnt : Nat
  gvtNoChange : Nat
  gvtDone : Nat
  noFreeEventBuffers : Nat
  trigger : GvtHookTrigger T
  net : NetLoop
  rollback : Option (Rollback T)
  phase : Phase T M
  todo : List (Call T)
  sent : List (TwEvent T)
  wire : List (Nat × WireMsg T M)
  arrived : List (Nat × WireMsg T M × TwEvent T)
  commits : List (TwEvent T)
  freed : List (TwEvent T)

namespace Pe

variable {T S M R : Type} [TwStime T]

/-- Link the buffers `l` as the queue `q`. -/
def setQueue (s : Pe T S M R) (q : QueueId) (l : List (TwEvent T)) : Pe T S M R :=
  { s with queue := Function.update s.queue q l }

/-- Overwrite the changing fields of the buffer `e`. -/
def setEv (s : Pe T S M R) (e : TwEvent T) (st : EventState T M) : Pe T S M R :=
  { s with ev := Function.update s.ev e st }

def setOwner (s : Pe T S M R) (e : TwEvent T) (o : TwEventOwner) : Pe T S M R :=
  s.setEv e { s.ev e with owner := o }

/-- Take `e` out of the queue `q`. -/
def unlink (s : Pe T S M R) (q : QueueId) (e : TwEvent T) : Pe T S M R :=
  { s with queue := Pool.remove s.queue q e }

/-- The signature of `cur_event`. -/
def curSig (s : Pe T S M R) : TwEventSig T :=
  match s.curEvent with
  | some e => e.sig
  | none => s.abortEvent.sig

/-- A PE after `setup_pes`, about to run `program`. -/
def start (m : SimModel T S M R) (id : Nat) (program : List (Call T)) : Pe T S M R where
  id := id
  nextUid := 1
  freeQ := m.freeBuffers
  ev := fun _ => ⟨.unowned, false, false, false, 0, m.zeroMsg, 0, []⟩
  queue := fun _ => []
  postedRecvs := 0
  cancelQ := []
  cancelList := []
  abortEvent := ⟨0, zeroSig, 0, 0, 0, 0⟩
  abortCausedByMe := []
  curEvent := none
  handles := []
  lastSig := fun _ => zeroSig
  lp := fun i => ⟨m.lpState0 i, m.coreRng0 i, 0, false, none, zeroSig, false⟩
  cevAbort := false
  gvtCompute := false
  transMsgSig := maxSig
  gvtSig := zeroSig
  sNwhiteSent := 0
  sNwhiteRecv := 0
  seqNum := 0
  hashT := []
  gvtCnt := 0
  gvtNoChange := 0
  gvtDone := 0
  noFreeEventBuffers := 0
  trigger := m.trigger0
  net := .off
  rollback := none
  phase := .idle
  todo := program
  sent := []
  wire := []
  arrived := []
  commits := []
  freed := []

end Pe

end Ross

import Ross.Core.Serial

/-!
# The output buffers of the debug scheduler

`tw_output` keeps a message in a buffer of the KP until its event is committed.
`tw_scheduler_optimistic_debug` runs on one PE and one KP and never commits, so a
message only goes back when its event is rolled back or its buffer is used again.
Here its loops work on the PE together with the output buffers.
-/

namespace Ross

variable {T S M R : Type} [TwStime T]

/-- The length of `kp->output` and of the chains `out_msgs` of the event buffers,
by the name of the buffer; `none` is the abort event. -/
structure Outputs where
  output : Nat
  outMsgs : Option Nat → Nat

namespace Outputs

/-- `init_output_messages` links `NUM_OUT_MESG` buffers. -/
def init : Outputs := ⟨2000, fun _ => 0⟩

/-- `tw_output` while the current event is `cev`. -/
def twOutput (o : Outputs) (cev : Option Nat) : Outputs :=
  if o.output = 0 then o
  else ⟨o.output - 1, Function.update o.outMsgs cev (o.outMsgs cev + 1)⟩

/-- `tw_free_output_messages`. -/
def twFreeOutputMessages (o : Outputs) (e : Option Nat) : Outputs :=
  ⟨o.output + o.outMsgs e, Function.update o.outMsgs e 0⟩

end Outputs

/-- A model whose handlers may call `tw_output` (`none`) between their calls into
the kernel. -/
structure OutputModel (T S M R : Type) extends SimModel T S M R where
  initCalls : Nat → S → List (Option (HandlerOp T M))
  preRunCalls : Nat → S → List (Option (HandlerOp T M))
  eventCalls : Nat → T → S → BitVec 32 → M → List (Option (HandlerOp T M))
  initCalls_ops : ∀ lp st, (initCalls lp st).reduceOption = (init lp st).2
  preRunCalls_ops : ∀ lp st, (preRunCalls lp st).reduceOption = (preRun lp st).2
  eventCalls_ops : ∀ lp now st cv msg,
    (eventCalls lp now st cv msg).reduceOption = (event lp now st cv msg).ops

namespace Pe

/-- The buffer that `cur_event` points to. -/
def curName (s : Pe T S M R) : Option Nat := s.curEvent.map (·.uid)

/-- The buffer that the last `tw_event_new` of the handler returned. -/
def newName (s : Pe T S M R) : Option Nat :=
  match s.handles.getLast? with
  | some (.buffer e _) => some e.uid
  | _ => none

end Pe

/-- The output buffers after the call `op` of a handler, which left `s`. -/
def Outputs.afterOp (o : Outputs) (s : Pe T S M R) : HandlerOp T M → Outputs
  | .eventNew .. => o.twFreeOutputMessages s.newName
  | _ => o

namespace OutputModel

variable (m : OutputModel T S M R)

/-! ## Handlers -/

/-- A call of a handler of `lp`. -/
def call (p : Pe T S M R × Outputs) (lp : Nat) :
    Option (HandlerOp T M) → Except TwError (Pe T S M R × Outputs)
  | none => .ok (p.1, p.2.twOutput p.1.curName)
  | some op =>
      match p.1.handlerOp m.toSimModel lp op with
      | .ok s => .ok (s, p.2.afterOp s op)
      | .error e => .error e

/-- The calls of a handler of `lp`, one after the other. -/
def calls (p : Pe T S M R × Outputs) (lp : Nat) :
    List (Option (HandlerOp T M)) → Except TwError (Pe T S M R × Outputs)
  | [] => .ok p
  | c :: cs =>
      match m.call p lp c with
      | .ok p => calls p lp cs
      | .error e => .error e

/-- The call of an `init` or `pre_run` handler. -/
def initCall (p : Pe T S M R × Outputs) (lp : Nat) (f : Nat → S → S × List (HandlerOp T M))
    (cs : Nat → S → List (Option (HandlerOp T M))) : Except TwError (Pe T S M R × Outputs) :=
  let st := (p.1.lp lp).curState
  let s := p.1.setLp lp { p.1.lp lp with curState := (f lp st).1 }
  match m.calls ({ s with curEvent := none, abortCausedByMe := [], handles := [] }, p.2) lp
      (cs lp st) with
  | .ok p => if p.1.cevAbort then .error .ranOutOfEventsDuringInit else .ok p
  | .error e => .error e

/-- The calls of `f` for the LPs of a list. -/
def initAll (p : Pe T S M R × Outputs) (f : Nat → S → S × List (HandlerOp T M))
    (cs : Nat → S → List (Option (HandlerOp T M))) :
    List Nat → Except TwError (Pe T S M R × Outputs)
  | [] => .ok p
  | lp :: lps =>
      match m.initCall p lp f cs with
      | .ok p => initAll p f cs lps
      | .error e => .error e

/-- The state in which `tw_scheduler_optimistic_debug` starts. -/
def debugStart : Except TwError (Pe T S M R × Outputs) :=
  match m.initAll (Pe.start m.toSimModel 0 [], Outputs.init) m.init m.initCalls (m.lps 0) with
  | .ok p => m.initAll p m.preRun m.preRunCalls (m.lps 0)
  | .error e => .error e

/-! ## The loop -/

/-- The call of the forward handler for `cev`. -/
def forward (p : Pe T S M R × Outputs) (cev : TwEvent T) :
    Except TwError (Pe T S M R × Outputs) :=
  m.calls (p.1.enter m.toSimModel cev, p.2) cev.destLp
    (m.eventCalls cev.destLp (p.1.twNow m.toSimModel cev.destLp) (p.1.lp cev.destLp).curState
      (p.1.ev cev).cv (p.1.ev cev).msg)

/-- The event processed goes to the head of `pevent_q`. -/
def thread (s : Pe T S M R) (cev : TwEvent T) : Pe T S M R :=
  ((s.unlink .hand cev).setOwner cev .kpPeventQ).unshift (.peventQ (m.kpOf cev.destLp)) cev

/-- A turn of the loop of `tw_scheduler_optimistic_debug`; `false` when the loop
ends. -/
def debugTurn (p : Pe T S M R × Outputs) : Except TwError (Bool × Pe T S M R × Outputs) :=
  match p.1.twPqDequeue with
  | none => .ok (false, p)
  | some (cev, s) =>
      match m.forward (s.beginEvent m.toSimModel cev, p.2) cev with
      | .error e => .error e
      | .ok (s, o) => .ok (!decide ((m.thread s cev).freeQ ≤ 1024), m.thread s cev, o)

/-- The loop for `n` turns, as long as it goes on. -/
def debugLoop : Nat → Pe T S M R × Outputs → Except TwError (Bool × Pe T S M R × Outputs)
  | 0, p => .ok (true, p)
  | n + 1, p =>
      match debugLoop n p with
      | .ok (true, p) => m.debugTurn p
      | .ok (false, _) => .error .notEnabled
      | .error e => .error e

/-! ## The rollback -/

/-- The loop of `tw_event_rollback` over the children; `tw_event_free` gives back
the messages of a child taken out of the priority queue. -/
def rollbackChildren (p : Pe T S M R × Outputs) (r : Rollback T) :
    List (TwEvent T) → Except TwError (Pe T S M R × Outputs)
  | [] => .ok p
  | e :: rest =>
      match p.1.rollbackChild m.toSimModel r e rest with
      | .ok s =>
          rollbackChildren (s, if (p.1.ev e).owner = .pePq then
            p.2.twFreeOutputMessages (some e.uid) else p.2) r rest
      | .error e => .error e

/-- `tw_event_rollback`. -/
def eventRollback (p : Pe T S M R × Outputs) (event : TwEvent T) (after : RollbackAfter) :
    Except TwError (Pe T S M R × Outputs) :=
  let chain := (p.1.ev event).causedByMe
  match m.rollbackChildren (p.1.twEventRollback m.toSimModel event after,
      p.2.twFreeOutputMessages (some event.uid)) ⟨event, chain, after⟩ chain with
  | .ok (s, o) => .ok (s.rollbackEnd m.toSimModel event, o)
  | .error e => .error e

/-- `tw_kp_rollback_to_sig`, with a bound on the number of turns; the flag says
whether its loop ended. -/
def kpRollbackToSig (kp : Nat) (toSig : TwEventSig T) :
    Nat → Pe T S M R × Outputs → Except TwError (Bool × Pe T S M R × Outputs)
  | 0, p => .ok (false, p)
  | fuel + 1, p =>
      match p.1.queue (.peventQ kp) with
      | [] => .ok (true, p)
      | e :: rest =>
          if 0 ≤ twEventSigComparePtr e.sig toSig then
            match m.eventRollback (p.1.shiftPevent kp e rest, p.2) e .requeueReset with
            | .ok (s, o) =>
                kpRollbackToSig kp toSig fuel (s.afterRollback m.toSimModel e .requeueReset, o)
            | .error e => .error e
          else .ok (true, p)

end OutputModel

end Ross

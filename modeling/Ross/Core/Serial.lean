import Ross.Core.Sched

/-!
# The schedulers of one PE

`tw_scheduler_sequential`, `tw_scheduler_sequential_rollback_check` and
`tw_scheduler_optimistic_debug` run on one PE, whose sends never enter the
network, so a handler and a rollback run to their end in one go here.  A turn is
one round of the scheduler's loop.
-/

namespace Ross

variable {T S M R : Type} [TwStime T]

/-- The handlers of a model with its commit handler, which the serial schedulers
call. -/
structure SerialModel (T S M R : Type) extends SimModel T S M R where
  commit : Nat → T → S → BitVec 32 → M → S

namespace Pe

/-! ## Handlers and rollbacks in one go -/

section

variable (m : SimModel T S M R)

/-- The calls of a handler of `lp`, one after the other. -/
def runOps (s : Pe T S M R) (lp : Nat) : List (HandlerOp T M) → Except TwError (Pe T S M R)
  | [] => .ok s
  | op :: ops =>
      match s.handlerOp m lp op with
      | .ok s => s.runOps lp ops
      | .error e => .error e

/-- What every call keeps holds when the handler returns. -/
theorem runOps_invariant {P : Pe T S M R → Prop} {s s' : Pe T S M R} {lp : Nat}
    {ops : List (HandlerOp T M)}
    (hstep : ∀ s s', ∀ op ∈ ops, P s → s.handlerOp m lp op = .ok s' → P s') (hs : P s)
    (h : s.runOps m lp ops = .ok s') : P s' := by
  induction ops generalizing s with
  | nil =>
      cases h
      exact hs
  | cons op ops ih =>
      unfold runOps at h
      split at h
      next s₁ hs₁ =>
        have hrest : ∀ s s', ∀ op ∈ ops, P s → s.handlerOp m lp op = .ok s' → P s' :=
          fun s s' op hop => hstep s s' op (List.mem_cons_of_mem _ hop)
        exact ih hrest (hstep s s₁ op List.mem_cons_self hs hs₁) h
      · cases h

/-- `reset_bitfields`. -/
def resetBitfields (s : Pe T S M R) (e : TwEvent T) : Pe T S M R :=
  s.setEv e { s.ev e with cv := 0 }

/-- What the forward handler of `cev`'s LP does with the event. -/
def handled (s : Pe T S M R) (cev : TwEvent T) : Handled T S M :=
  m.event cev.destLp (s.twNow m cev.destLp) (s.lp cev.destLp).curState (s.ev cev).cv
    (s.ev cev).msg

/-- The state in which the handler makes its calls. -/
def enter (s : Pe T S M R) (cev : TwEvent T) : Pe T S M R :=
  { (s.setLp cev.destLp { s.lp cev.destLp with curState := (s.handled m cev).state }).setEv cev
      { s.ev cev with cv := (s.handled m cev).cv, msg := (s.handled m cev).msg } with
    handles := [] }

/-- The call of the forward handler for `cev`. -/
def forward (s : Pe T S M R) (cev : TwEvent T) : Except TwError (Pe T S M R) :=
  (s.enter m cev).runOps m cev.destLp (s.handled m cev).ops

/-- The loop of `tw_event_rollback` over the children. -/
def rollbackChildren (s : Pe T S M R) (r : Rollback T) :
    List (TwEvent T) → Except TwError (Pe T S M R)
  | [] => .ok s
  | e :: rest =>
      match s.rollbackChild m r e rest with
      | .ok s => s.rollbackChildren r rest
      | .error e => .error e

/-- `tw_event_rollback`. -/
def eventRollback (s : Pe T S M R) (event : TwEvent T) (after : RollbackAfter) :
    Except TwError (Pe T S M R) :=
  let chain := (s.ev event).causedByMe
  match (s.twEventRollback m event after).rollbackChildren m ⟨event, chain, after⟩ chain with
  | .ok s => .ok (s.rollbackEnd m event)
  | .error e => .error e

/-- What every scheduler does with the event it dequeued before it calls the
handler. -/
def beginEvent (s : Pe T S M R) (cev : TwEvent T) : Pe T S M R :=
  (({ s with curEvent := some cev } : Pe T S M R).setLastSig (m.kpOf cev.destLp)
    cev.sig).resetBitfields cev

/-- The call of an `init` or `pre_run` handler by `tw_init_lps` or
`tw_pre_run_lps`. -/
def initCall (s : Pe T S M R) (lp : Nat) (f : Nat → S → S × List (HandlerOp T M)) :
    Except TwError (Pe T S M R) :=
  let r := f lp (s.lp lp).curState
  let s := s.setLp lp { s.lp lp with curState := r.1 }
  match { s with curEvent := none, abortCausedByMe := [], handles := [] }.runOps m lp r.2 with
  | .ok s => if s.cevAbort then .error .ranOutOfEventsDuringInit else .ok s
  | .error e => .error e

/-- The calls of `f` for the LPs of a list. -/
def initCalls (s : Pe T S M R) (f : Nat → S → S × List (HandlerOp T M)) :
    List Nat → Except TwError (Pe T S M R)
  | [] => .ok s
  | lp :: lps =>
      match s.initCall m lp f with
      | .ok s => s.initCalls f lps
      | .error e => .error e

/-- The state in which the scheduler of a serial run starts. -/
def serialStart : Except TwError (Pe T S M R) :=
  match (Pe.start m 0 []).initCalls m m.init (m.lps 0) with
  | .ok s => s.initCalls m m.preRun (m.lps 0)
  | .error e => .error e

/-! ## `tw_gvt_hook_step_seq` -/

/-- The test of `tw_gvt_hook_step_seq` in the two modes it supports. -/
def hookTriggeredSeq (s : Pe T S M R) : Bool :=
  match s.trigger.status with
  | .timestamp =>
      decide (twEventSigComparePtr s.trigger.sigAt s.twPqMinimumSig ≤ 0) ||
        (s.queue .pq).isEmpty
  | .modelCall => decide (twEventSigComparePtr s.trigger.sigAt s.twPqMinimumSig < 0)
  | _ => false

/-- The trigger once it has fired in a sequential run. -/
def firedTrigger (s : Pe T S M R) : GvtHookTrigger T :=
  match s.trigger.status with
  | .timestamp => { s.trigger with status := .disabled }
  | _ => { s.trigger with sigAt := maxSig }

/-- `tw_gvt_hook_step_seq`; `arm` is the trigger that the hook sets, if it sets
one. -/
def gvtHookStepSeq (s : Pe T S M R) (arm : Option (GvtHookTrigger T)) :
    Except TwError (Pe T S M R) :=
  if m.gvtHook ∧ s.trigger.status ≠ .disabled then
    if s.trigger.status = .everyNGvt then
      .ok { s with trigger := { s.trigger with status := .disabled } }
    else if ¬ s.hookTriggeredSeq then .ok s
    else if 0 < twEventSigComparePtr s.trigger.sigAt s.twPqMinimumSig then .error .assertFailed
    else .ok { s with gvtSig := s.trigger.sigAt, trigger := arm.getD s.firedTrigger }
  else .ok s

/-- The start of a turn of the two sequential loops: the hook, the test of the end
of time, and the next event, in `hand`. -/
def nextEvent (s : Pe T S M R) (arm : Option (GvtHookTrigger T)) :
    Except TwError (Option (TwEvent T) × Pe T S M R) :=
  match s.gvtHookStepSeq m arm with
  | .error e => .error e
  | .ok s =>
      if m.tsEnd < s.twPqMinimumSig.recvTs then .ok (none, s)
      else
        match s.twPqDequeue with
        | none => .ok (none, s)
        | some (cev, s) => .ok (some cev, s)

end

/-! ## The loops -/

variable (m : SerialModel T S M R)

/-- The call of the commit handler. -/
def commitCall (s : Pe T S M R) (cev : TwEvent T) : Pe T S M R :=
  s.setLp cev.destLp { s.lp cev.destLp with
    curState := m.commit cev.destLp (s.twNow m.toSimModel cev.destLp)
      (s.lp cev.destLp).curState (s.ev cev).cv (s.ev cev).msg }

/-- `tw_event_free` of the event just committed. -/
def freeCommitted (s : Pe T S M R) (cev : TwEvent T) : Pe T S M R :=
  { (s.unlink .hand cev).twEventFree cev with commits := s.commits ++ [cev] }

/-- The body of `tw_scheduler_sequential` for the event `cev`. -/
def sequentialBody (s : Pe T S M R) (cev : TwEvent T) : Except TwError (Pe T S M R) :=
  match (s.beginEvent m.toSimModel cev).forward m.toSimModel cev with
  | .error e => .error e
  | .ok s =>
      if (s.commitCall m cev).cevAbort then .error .insufficientEventMemory
      else .ok ((s.commitCall m cev).freeCommitted cev)

/-- `crv_check_lpstates` for a model without checkpointers: the states, the streams
and the counts of hook requests are compared. -/
def crvCheckLpstates [DecidableEq S] [DecidableEq R] (before after : TwLp T S R) : Bool :=
  decide (before.curState = after.curState ∧ before.coreRng = after.coreRng ∧
    before.triggeredGvtHook = after.triggeredGvtHook)

/-- The body of `tw_scheduler_sequential_rollback_check` for the event `cev`: the
handler, its rollback, the check, the handler again (on the bitfield the reverse
handler left), the commit handler and the second check. -/
def rollbackCheckBody [DecidableEq S] [DecidableEq R] (s : Pe T S M R) (cev : TwEvent T) :
    Except TwError (Pe T S M R) :=
  let s₀ := s.beginEvent m.toSimModel cev
  match s₀.forward m.toSimModel cev with
  | .error e => .error e
  | .ok s₁ =>
      if s₁.cevAbort then .error .insufficientEventMemory
      else
        match s₁.eventRollback m.toSimModel cev .requeue with
        | .error e => .error e
        | .ok s₂ =>
            if ¬ crvCheckLpstates (s₀.lp cev.destLp) (s₂.lp cev.destLp) then
              .error .rollbackCheck
            else
              match s₂.forward m.toSimModel cev with
              | .error e => .error e
              | .ok s₃ =>
                  let s₄ := s₃.commitCall m cev
                  if ¬ crvCheckLpstates (s₁.lp cev.destLp) (s₄.lp cev.destLp) then
                    .error .rollbackCheck
                  else if s₄.cevAbort then .error .insufficientEventMemory
                  else .ok (s₄.freeCommitted cev)

/-- A turn of a sequential loop with the given body; `false` when the loop ends. -/
def serialTurn (body : Pe T S M R → TwEvent T → Except TwError (Pe T S M R))
    (s : Pe T S M R) (arm : Option (GvtHookTrigger T)) : Except TwError (Bool × Pe T S M R) :=
  match s.nextEvent m.toSimModel arm with
  | .error e => .error e
  | .ok (none, s) => .ok (false, s)
  | .ok (some cev, s) =>
      match body s cev with
      | .ok s => .ok (true, s)
      | .error e => .error e

/-- A turn of the loop of `tw_scheduler_optimistic_debug`; `false` when the loop
ends. -/
def debugTurn (s : Pe T S M R) : Except TwError (Bool × Pe T S M R) :=
  match s.twPqDequeue with
  | none => .ok (false, s)
  | some (cev, s) =>
      match (s.beginEvent m.toSimModel cev).forward m.toSimModel cev with
      | .error e => .error e
      | .ok s =>
          let s := ((s.unlink .hand cev).setOwner cev .kpPeventQ).unshift
            (.peventQ (m.kpOf cev.destLp)) cev
          .ok (!decide (s.freeQ ≤ 1024), s)

/-- `tw_kp_rollback_to_sig`, with a bound on the number of turns. -/
def kpRollbackLoop (kp : Nat) (toSig : TwEventSig T) :
    Nat → Pe T S M R → Except TwError (Pe T S M R)
  | 0, s => .ok s
  | fuel + 1, s =>
      match s.queue (.peventQ kp) with
      | [] => .ok s
      | e :: rest =>
          if 0 ≤ twEventSigComparePtr e.sig toSig then
            match (s.shiftPevent kp e rest).eventRollback m.toSimModel e .requeueReset with
            | .ok s => kpRollbackLoop kp toSig fuel (s.afterRollback m.toSimModel e .requeueReset)
            | .error e => .error e
          else .ok s

end Pe

end Ross

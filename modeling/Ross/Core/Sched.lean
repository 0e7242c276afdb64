import Ross.Core.Gvt

/-!
# The schedulers

The loops of `tw-sched.c`, one turn a step: `tw_sched_event_q`,
`tw_sched_cancel_q`, the batches, the handler they call, and the schedulers and
`tw_scheduler_rollback_and_cancel_events_pe` as the sequences of calls their
loop bodies consist of.
-/

namespace Ross.Pe

variable {T S M R : Type} [TwStime T] (m : SimModel T S M R)

/-! ## `tw_sched_event_q` -/

/-- One turn of the loops of `tw_sched_event_q`. -/
def schedEventQ (s : Pe T S M R) : Except TwError (Pe T S M R) :=
  match s.queue .evList with
  | cev :: rest =>
      let st := s.ev cev
      if st.owner = .unowned ∨ st.owner = .peFreeQ then .error .noOwner
      else if st.cancelQ then
        .ok (((s.setQueue .evList rest).unshift .antiMsg cev).setOwner cev .peAntiMsg)
      else if st.owner = .peEventQ then
        if 0 < twEventSigComparePtr (s.lastSig (m.kpOf cev.destLp)) cev.sig then
          .ok { s with phase := .eventQRollback }
        else .ok ((s.setQueue .evList rest).twPqEnqueue cev)
      else .error .eventQOwner
  | [] =>
      match s.queue .eventQ with
      | [] => .ok { s with phase := .idle }
      | l => .ok ((s.setQueue .eventQ []).setQueue .evList l)

/-- The rollback that the straggler at the head of the list triggers, then its
enqueueing. -/
def schedStraggler (s : Pe T S M R) : Except TwError (Pe T S M R) :=
  match s.queue .evList with
  | [] => .error .nullPointer
  | cev :: rest =>
      match s.kpRollbackToSig m (m.kpOf cev.destLp) cev.sig with
      | some s => .ok s
      | none => .ok { (s.setQueue .evList rest).twPqEnqueue cev with phase := .eventQ }

/-! ## `tw_sched_cancel_q` -/

/-- One turn of the loops of `tw_sched_cancel_q`. -/
def schedCancelQ (s : Pe T S M R) : Except TwError (Pe T S M R) :=
  match s.cancelList with
  | cev :: rest =>
      let s := { s with cancelList := rest }
      let st := s.ev cev
      if ¬ st.cancelQ then .error .noCancelQBit
      else
        match st.owner with
        | .unowned | .peFreeQ => .error .cancelledNoOwner
        | .peEventQ => .ok ((s.unlink .eventQ cev).twEventFree cev)
        | .peAntiMsg => .ok ((s.unlink .antiMsg cev).twEventFree cev)
        | .pePq => .ok ((s.twPqDeleteAny cev).twEventFree cev)
        | .kpPeventQ => .ok { s with phase := .cancelQRollback cev }
        | _ => .error .cancelQOwner
  | [] =>
      match s.cancelQ with
      | [] => .ok { s with phase := .idle }
      | l => .ok { s with cancelList := l, cancelQ := [] }

/-! ## The batches -/

/-- The test that ends a batch because of the GVT hook. -/
def hookReached (s : Pe T S M R) (kind : BatchKind) : Bool :=
  let hookType : Bool :=
    match kind with
    | .conservative => s.trigger.status = .timestamp
    | _ => s.trigger.status = .timestamp ∨ s.trigger.status = .modelCall
  m.gvtHook ∧ hookType ∧ twEventSigComparePtr s.trigger.sigAt s.twPqMinimumSig ≤ 0

/-- The forward handler of `cev`'s LP, run on a cleared bitfield, unless the LP
is suspended; a suspended LP is still run by the conservative scheduler. -/
def runEvent (s : Pe T S M R) (kind : BatchKind) (left : Nat) (cev : TwEvent T) : Pe T S M R :=
  let lp := cev.destLp
  let st := s.ev cev
  if (s.lp lp).suspendFlag ∧ kind ≠ .conservative then
    { s.setEv cev { st with cv := 0 } with
      handles := [], phase := .handler kind left lp [] }
  else
    let h := m.event lp (s.twNow m lp) (s.lp lp).curState 0 st.msg
    { (s.setLp lp { s.lp lp with curState := h.state }).setEv cev
        { st with cv := h.cv, msg := h.msg } with
      handles := [], phase := .handler kind left lp h.ops }

/-- The part of a batch's turn that starts the event dequeued. -/
def startEvent (s : Pe T S M R) (kind : BatchKind) (left : Nat) (cev : TwEvent T) :
    Except TwError (Pe T S M R) :=
  let kp := m.kpOf cev.destLp
  let s := { s with curEvent := some cev }
  if kind = .conservative ∧ 0 < twEventSigComparePtr (s.lastSig kp) cev.sig then
    .error .foundKpLastTime
  else .ok ((s.setLastSig kp cev.sig).runEvent m kind left cev)

/-- `max_alloc_fail_count`. -/
def maxAllocFailCount : Nat := 20

/-- The branch of a batch in which the free buffers are used up. -/
def batchOutOfBuffers (s : Pe T S M R) (kind : BatchKind) : Except TwError (Pe T S M R) :=
  let s := { s.forceUpdate m kind with phase := .idle }
  if kind = .conservative then .ok s
  else
    let s := { s with noFreeEventBuffers := s.noFreeEventBuffers + 1 }
    if maxAllocFailCount ≤ s.noFreeEventBuffers then .error .eventAllocationFailed else .ok s

/-- One turn of `tw_sched_batch`, of `tw_sched_batch_realtime` or of the batch
loop of `tw_scheduler_conservative`, up to the handler. -/
def batchStep (s : Pe T S M R) (kind : BatchKind) (left : Nat) : Except TwError (Pe T S M R) :=
  match left with
  | 0 => .ok { s with phase := .idle }
  | left + 1 =>
      if s.freeQ ≤ m.readBuffer then s.batchOutOfBuffers m kind
      else
        let s := { s with noFreeEventBuffers := 0 }
        if kind = .conservative ∧ s.gvtSig.recvTs + m.lookahead ≤ s.twPqMinimumSig.recvTs then
          .ok { s with phase := .idle }
        else if s.hookReached m kind then .ok { s.forceUpdate m kind with phase := .idle }
        else
          match s.twPqDequeue with
          | none => .ok { s with phase := .idle }
          | some (cev, s) => s.startEvent m kind left cev

/-! ## The handler -/

/-- `tw_lp_suspend`. -/
def twLpSuspend (s : Pe T S M R) (lp : Nat) (doOrigEventRc : Bool) : Pe T S M R :=
  s.setLp lp { s.lp lp with
    suspendFlag := true
    suspendEvent := s.curEvent
    suspendSig := s.lastSig (m.kpOf lp)
    suspendDoOrigEventRc := doOrigEventRc }

/-- One call of a handler of `lp` into the kernel. -/
def handlerOp (s : Pe T S M R) (lp : Nat) : HandlerOp T M → Except TwError (Pe T S M R)
  | .eventNew destGid offsetTs prio msg => s.twEventNewUserPrio m destGid offsetTs lp prio msg
  | .eventSend i => s.twEventSend m i
  | .lpSuspend doOrigEventRc => .ok (s.twLpSuspend m lp doOrigEventRc)
  | .triggerGvtHookNow => s.twTriggerGvtHookNow m lp

/-- What a batch does when the handler of `cev` returns. -/
def handlerReturn (s : Pe T S M R) (kind : BatchKind) (left : Nat) (cev : TwEvent T)
    (expired : Bool) : Except TwError (Pe T S M R) :=
  let kp := m.kpOf cev.destLp
  if kind = .conservative then
    if s.cevAbort then .error .insufficientEventMemory
    else .ok { (s.unlink .hand cev).twEventFree cev with phase := .batch kind left }
  else if s.cevAbort then
    .ok ({ s with cevAbort := false }.twEventRollback m cev (.abort kind))
  else
    let s := ((s.unlink .hand cev).setOwner cev .kpPeventQ).unshift (.peventQ kp) cev
    if kind = .realtime ∧ expired then .ok { s.forceUpdate m kind with phase := .idle }
    else .ok { s with phase := .batch kind left }

/-- One step of a handler called by a batch. -/
def handlerStep (s : Pe T S M R) (kind : BatchKind) (left lp : Nat) (expired : Bool) :
    List (HandlerOp T M) → Except TwError (Pe T S M R)
  | op :: ops => { s with phase := .handler kind left lp ops }.handlerOp m lp op
  | [] =>
      match s.curEvent with
      | some cev => s.handlerReturn m kind left cev expired
      | none => .error .nullPointer

/-- One step of an `init` or `pre_run` handler. -/
def initStep (s : Pe T S M R) (lp : Nat) : List (HandlerOp T M) → Except TwError (Pe T S M R)
  | op :: ops => { s with phase := .lpInit lp ops }.handlerOp m lp op
  | [] =>
      if s.cevAbort then .error .ranOutOfEventsDuringInit else .ok { s with phase := .idle }

/-- The call of an `init` or `pre_run` handler by `tw_init_lps` or
`tw_pre_run_lps`. -/
def callInit (s : Pe T S M R) (lp : Nat) (f : Nat → S → S × List (HandlerOp T M)) :
    Pe T S M R :=
  let r := f lp (s.lp lp).curState
  let s := s.setLp lp { s.lp lp with curState := r.1 }
  { s with curEvent := none, abortCausedByMe := [], handles := [], phase := .lpInit lp r.2 }

/-! ## Calls -/

/-- `tw_net_read` where the schedulers call it. -/
def readCall : List (Call T) := if 1 < m.npe then [.netRead] else []

variable {m} in
omit [TwStime T] in
theorem eq_netRead_of_mem {c : Call T} (hc : c ∈ readCall m) : c = .netRead := by
  unfold readCall at hc
  split at hc
  · exact List.mem_singleton.mp hc
  · cases hc

/-- The start of the call `c`. -/
def call (s : Pe T S M R) (expired : Bool) (c : Call T) : Except TwError (Pe T S M R) :=
  match c with
  | .initLp lp => .ok (s.callInit lp m.init)
  | .preRunLp lp => .ok (s.callInit lp m.preRun)
  | .netRead => .ok s.twNetRead
  | .gvtStep1 => .ok (s.gvtStep1 m)
  | .gvtStep1Realtime => .ok (s.gvtStep1Realtime m expired)
  | .schedEventQ => .ok { s with phase := .eventQ }
  | .schedCancelQ => .ok { s with phase := .cancelQ }
  | .gvtStep2 => .ok (if s.gvtCompute then { s with phase := .whiteLoop } else s)
  | .gvtStep2AndHook =>
      .ok { s with
        todo := .gvtStep2 :: (if s.gvtCompute then [.gvtHookStep] else []) ++ s.todo }
  | .gvtHookStep => s.gvtHookStep m
  | .schedBatch => .ok { s with phase := .batch .plain m.mblock }
  | .schedBatchRealtime => .ok { s with phase := .batch .realtime m.mblock }
  | .conservativeBatch => .ok { s with phase := .batch .conservative m.mblock }
  | .kpRollbackToSig kp toSig => .ok { s with phase := .rollbackToSig kp toSig }
  | .rollbackAndCancelEventsPe =>
      .ok { s with
        todo := (List.range m.nkp).map (.kpRollbackToSig · s.gvtSig) ++ .cleanupLoop :: s.todo }
  | .cleanupLoop =>
      .ok { s with
        todo := readCall m ++
          [.gvtStatusOn, .schedEventQ, .schedCancelQ, .gvtStep2, .cleanupTest] ++ s.todo }
  | .gvtStatusOn => .ok { s with gvtCompute := true }
  | .cleanupTest => .ok { s with phase := .reduce .cleanupCancel }
  | .hookReturn => .ok { s with phase := .inHook }
  | .schedulerOptimistic =>
      .ok { s with
        todo := readCall m ++
          [.gvtStep1, .schedEventQ, .schedCancelQ, .gvtStep2AndHook, .optimisticTail] ++ s.todo }
  | .optimisticTail =>
      .ok (if m.tsEnd < s.gvtSig.recvTs then s
        else { s with todo := [.schedBatch, .schedulerOptimistic] ++ s.todo })
  | .schedulerOptimisticRealtime =>
      .ok { s with
        todo := readCall m ++
          [.gvtStep1Realtime, .schedEventQ, .schedCancelQ, .gvtStep2AndHook,
            .optimisticRealtimeTail] ++ s.todo }
  | .optimisticRealtimeTail =>
      .ok (if m.tsEnd < s.gvtSig.recvTs then s
        else { s with todo := [.schedBatchRealtime, .schedulerOptimisticRealtime] ++ s.todo })
  | .schedulerConservative =>
      .ok { s with
        todo := readCall m ++
          [.gvtStep1, .schedEventQ, .gvtStep2AndHook, .conservativeTail] ++ s.todo }
  | .conservativeTail =>
      .ok (if m.tsEnd < s.gvtSig.recvTs then s
        else { s with todo := [.conservativeBatch, .schedulerConservative] ++ s.todo })

/-! ## What these steps can do -/

section Inversion

variable {m} {s s' : Pe T S M R}

theorem schedEventQ_ok (h : s.schedEventQ m = .ok s') :
    (∃ cev rest, s.queue .evList = cev :: rest ∧
        ((s.ev cev).cancelQ = true ∧
            s' = { s with
              queue := Pool.cons (Function.update s.queue .evList rest) .antiMsg cev
              ev := Function.update s.ev cev { s.ev cev with owner := .peAntiMsg } } ∨
          (s.ev cev).cancelQ = false ∧ (s.ev cev).owner = .peEventQ ∧
            (cev.sig < s.lastSig (m.kpOf cev.destLp) ∧
                s' = { s with phase := .eventQRollback } ∨
              s.lastSig (m.kpOf cev.destLp) ≤ cev.sig ∧
                s' = { s with
                  queue := Pool.cons (Function.update s.queue .evList rest) .pq cev
                  ev := Function.update s.ev cev { s.ev cev with owner := .pePq } }))) ∨
      (s.queue .evList = [] ∧ s.queue .eventQ = [] ∧ s' = { s with phase := .idle }) ∨
      (s.queue .evList = [] ∧ s.queue .eventQ ≠ [] ∧ s' = { s with
        queue := Function.update (Function.update s.queue .eventQ []) .evList
          (s.queue .eventQ) }) := by
  unfold schedEventQ at h
  split at h
  next cev rest hq =>
    refine .inl ⟨cev, rest, hq, ?_⟩
    dsimp only at h
    split at h
    · cases h
    split at h
    next hc =>
      cases h
      exact .inl ⟨hc, rfl⟩
    next hc =>
      split at h
      next ho =>
        refine .inr ⟨by simpa using hc, ho, ?_⟩
        split at h
        next hl =>
          cases h
          exact .inl ⟨twEventSigComparePtr_pos.mp hl, rfl⟩
        next hl =>
          cases h
          exact .inr ⟨not_lt.mp fun hl' => hl (twEventSigComparePtr_pos.mpr hl'), rfl⟩
      · cases h
  next hq =>
    split at h
    next he =>
      cases h
      exact .inr (.inl ⟨hq, he, rfl⟩)
    next he =>
      cases h
      exact .inr (.inr ⟨hq, he, rfl⟩)

theorem schedStraggler_ok (h : s.schedStraggler m = .ok s') :
    ∃ cev rest, s.queue .evList = cev :: rest ∧
      (s.kpRollbackToSig m (m.kpOf cev.destLp) cev.sig = some s' ∨
        s.kpRollbackToSig m (m.kpOf cev.destLp) cev.sig = none ∧
          s' = { s with
            queue := Pool.cons (Function.update s.queue .evList rest) .pq cev
            ev := Function.update s.ev cev { s.ev cev with owner := .pePq }
            phase := .eventQ }) := by
  unfold schedStraggler at h
  split at h
  · cases h
  next cev rest hq =>
    refine ⟨cev, rest, hq, ?_⟩
    split at h
    next s₁ hr =>
      cases h
      exact .inl hr
    next hr =>
      cases h
      exact .inr ⟨hr, rfl⟩

theorem schedCancelQ_ok (h : s.schedCancelQ = .ok s') :
    (∃ cev rest, s.cancelList = cev :: rest ∧ (s.ev cev).cancelQ = true ∧
        ((∃ q, ((s.ev cev).owner = .peEventQ ∧ q = .eventQ ∨
              (s.ev cev).owner = .peAntiMsg ∧ q = .antiMsg ∨
              (s.ev cev).owner = .pePq ∧ q = .pq) ∧
            s' = { s with
              cancelList := rest
              queue := Pool.remove s.queue q cev
              ev := Function.update s.ev cev { s.ev cev with owner := .peFreeQ }
              freeQ := s.freeQ + 1
              freed := s.freed ++ [cev] }) ∨
          (s.ev cev).owner = .kpPeventQ ∧ s' =
            { s with cancelList := rest, phase := .cancelQRollback cev })) ∨
      (s.cancelList = [] ∧ s.cancelQ = [] ∧ s' = { s with phase := .idle }) ∨
      (s.cancelList = [] ∧ s.cancelQ ≠ [] ∧
        s' = { s with cancelList := s.cancelQ, cancelQ := [] }) := by
  unfold schedCancelQ at h
  split at h
  next cev rest hq =>
    refine .inl ⟨cev, rest, hq, ?_⟩
    dsimp only at h
    split at h
    · cases h
    next hc =>
      refine ⟨not_not.mp hc, ?_⟩
      split at h
      · cases h
      · cases h
      next ho =>
        cases h
        exact .inl ⟨.eventQ, .inl ⟨ho, rfl⟩, rfl⟩
      next ho =>
        cases h
        exact .inl ⟨.antiMsg, .inr (.inl ⟨ho, rfl⟩), rfl⟩
      next ho =>
        cases h
        refine .inl ⟨.pq, .inr (.inr ⟨ho, rfl⟩), ?_⟩
        simp only [twPqDeleteAny, twEventFree, setOwner, setEv, unlink, Function.update_self,
          Function.update_idem]
      next ho =>
        cases h
        exact .inr ⟨ho, rfl⟩
      · cases h
  next hq =>
    split at h
    next hc =>
      cases h
      exact .inr (.inl ⟨hq, hc, rfl⟩)
    next hc =>
      cases h
      exact .inr (.inr ⟨hq, hc, rfl⟩)

/-- The forward handler changes the event's bitfield and message, the LPs, the
handler's pointers and the position in the batch. -/
theorem runEvent_frame (s : Pe T S M R) (kind : BatchKind) (left : Nat) (cev : TwEvent T) :
    ∃ l cv msg ops, s.runEvent m kind left cev = { s with
      ev := Function.update s.ev cev { s.ev cev with cv, msg }
      lp := l
      handles := []
      phase := .handler kind left cev.destLp ops } := by
  unfold runEvent
  dsimp only
  split
  · exact ⟨s.lp, 0, (s.ev cev).msg, [], rfl⟩
  · exact ⟨_, _, _, _, rfl⟩

theorem startEvent_ok {kind : BatchKind} {left : Nat} {cev : TwEvent T}
    (h : s.startEvent m kind left cev = .ok s') :
    (kind = .conservative → s.lastSig (m.kpOf cev.destLp) ≤ cev.sig) ∧
      s' = (({ s with curEvent := some cev } : Pe T S M R).setLastSig (m.kpOf cev.destLp)
        cev.sig).runEvent m kind left cev := by
  unfold startEvent at h
  dsimp only at h
  split at h
  · cases h
  next hl =>
    cases h
    exact ⟨fun hk => not_lt.mp fun hlt => hl ⟨hk, twEventSigComparePtr_pos.mpr hlt⟩, rfl⟩

theorem twPqDequeue_some {cev : TwEvent T} (h : s.twPqDequeue = some (cev, s')) :
    pqLeast (s.queue .pq) = some cev ∧ s' = (s.twPqDeleteAny cev).unshift .hand cev := by
  unfold twPqDequeue at h
  split at h
  · cases h
  next e he =>
    cases h
    exact ⟨he, rfl⟩

omit [TwStime T] in
theorem batchOutOfBuffers_ok {kind : BatchKind} (h : s.batchOutOfBuffers m kind = .ok s') :
    ∃ c n, s' = { s with gvtCnt := c, noFreeEventBuffers := n, phase := .idle } := by
  have hf : ∃ c, s.forceUpdate m kind = { s with gvtCnt := c } := ⟨_, rfl⟩
  obtain ⟨c, hc⟩ := hf
  unfold batchOutOfBuffers at h
  simp only [hc] at h
  split at h
  · cases h
    exact ⟨c, s.noFreeEventBuffers, rfl⟩
  · split at h
    · cases h
    · cases h
      exact ⟨c, s.noFreeEventBuffers + 1, rfl⟩

/-- The state in which a batch calls the handler of `cev`. -/
def dequeued (m : SimModel T S M R) (s : Pe T S M R) (cev : TwEvent T) : Pe T S M R :=
  { s with
    noFreeEventBuffers := 0
    queue := Pool.cons (Pool.remove s.queue .pq cev) .hand cev
    ev := Function.update s.ev cev { s.ev cev with owner := .unowned }
    curEvent := some cev
    lastSig := Function.update s.lastSig (m.kpOf cev.destLp) cev.sig }

/-- A turn of a batch ends it or starts the handler of the least event. -/
theorem batchStep_ok {kind : BatchKind} {left : Nat} (h : s.batchStep m kind left = .ok s') :
    (∃ c n, s' = { s with gvtCnt := c, noFreeEventBuffers := n, phase := .idle }) ∨
      ∃ cev, pqLeast (s.queue .pq) = some cev ∧ m.readBuffer < s.freeQ ∧ left ≠ 0 ∧
        (kind = .conservative → cev.sig.recvTs < s.gvtSig.recvTs + m.lookahead ∧
          s.lastSig (m.kpOf cev.destLp) ≤ cev.sig) ∧
        s' = (s.dequeued m cev).runEvent m kind (left - 1) cev := by
  unfold batchStep at h
  split at h
  · cases h
    exact .inl ⟨s.gvtCnt, s.noFreeEventBuffers, rfl⟩
  next left =>
    split at h
    · exact .inl (batchOutOfBuffers_ok h)
    next hfree =>
      dsimp only at h
      split at h
      · cases h
        exact .inl ⟨s.gvtCnt, 0, rfl⟩
      next hla =>
        split at h
        · cases h
          exact .inl ⟨_, 0, rfl⟩
        · split at h
          · cases h
            exact .inl ⟨s.gvtCnt, 0, rfl⟩
          next cev s₁ hd =>
            obtain ⟨hcev, rfl⟩ := twPqDequeue_some hd
            obtain ⟨hl, rfl⟩ := startEvent_ok h
            have hcev : pqLeast (s.queue .pq) = some cev := hcev
            refine .inr ⟨cev, hcev, not_le.mp hfree, Nat.succ_ne_zero left,
              fun hk => ⟨?_, hl hk⟩, rfl⟩
            have hmin : s.twPqMinimumSig = cev.sig := by
              unfold twPqMinimumSig
              rw [hcev]
            rw [← hmin]
            exact not_le.mp fun hle => hla ⟨hk, hle⟩

/-- The event processed moves from the hands of the batch to its KP. -/
theorem processed_eq (s : Pe T S M R) (kp : Nat) (cev : TwEvent T) :
    ((s.unlink .hand cev).setOwner cev .kpPeventQ).unshift (.peventQ kp) cev = { s with
      queue := Pool.cons (Pool.remove s.queue .hand cev) (.peventQ kp) cev
      ev := Function.update s.ev cev { s.ev cev with owner := .kpPeventQ } } := by
  simp only [unlink, setOwner, setEv, unshift]

/-- The event processed goes from the hands of the batch to the free list. -/
theorem released_eq (s : Pe T S M R) (cev : TwEvent T) :
    (s.unlink .hand cev).twEventFree cev = { s with
      queue := Pool.remove s.queue .hand cev
      ev := Function.update s.ev cev { s.ev cev with owner := .peFreeQ }
      freeQ := s.freeQ + 1
      freed := s.freed ++ [cev] } := by
  simp only [unlink, twEventFree, setOwner, setEv]

/-- When the handler of `cev` returns, its buffer is freed (conservative), its
event is undone (`cev_abort`), or its event joins the processed ones. -/
theorem handlerReturn_ok {kind : BatchKind} {left : Nat} {cev : TwEvent T} {expired : Bool}
    (h : s.handlerReturn m kind left cev expired = .ok s') :
    (kind = .conservative ∧ s.cevAbort = false ∧ s' = { s with
        queue := Pool.remove s.queue .hand cev
        ev := Function.update s.ev cev { s.ev cev with owner := .peFreeQ }
        freeQ := s.freeQ + 1
        freed := s.freed ++ [cev]
        phase := .batch kind left }) ∨
      (kind ≠ .conservative ∧ s.cevAbort = true ∧
        s' = ({ s with cevAbort := false } : Pe T S M R).twEventRollback m cev
          (.abort kind)) ∨
      (kind ≠ .conservative ∧ s.cevAbort = false ∧ ∃ c p, (p = .idle ∨ p = .batch kind left) ∧
        s' = { s with
          queue := Pool.cons (Pool.remove s.queue .hand cev) (.peventQ (m.kpOf cev.destLp)) cev
          ev := Function.update s.ev cev { s.ev cev with owner := .kpPeventQ }
          gvtCnt := c
          phase := p }) := by
  unfold handlerReturn at h
  simp only [processed_eq, released_eq] at h
  split at h
  next hk =>
    split at h
    · cases h
    next ha =>
      cases h
      exact .inl ⟨hk, by simpa using ha, rfl⟩
  next hk =>
    split at h
    next ha =>
      cases h
      exact .inr (.inl ⟨hk, ha, rfl⟩)
    next ha =>
      refine .inr (.inr ⟨hk, by simpa using ha, ?_⟩)
      split at h
      · cases h
        exact ⟨_, .idle, .inl rfl, rfl⟩
      · cases h
        exact ⟨s.gvtCnt, .batch kind left, .inr rfl, rfl⟩

end Inversion

/-- The scheduler `tw_run` calls, for the three parallel protocols. -/
def schedulerCall : Call T :=
  match m.synch with
  | .conservative => .schedulerConservative
  | .optimisticRealtime => .schedulerOptimisticRealtime
  | _ => .schedulerOptimistic

/-- What a PE runs: `tw_sched_init`, then its scheduler. -/
def program (id : Nat) : List (Call T) :=
  (m.lps id).map .initLp ++ (m.lps id).map .preRunLp ++ readCall m ++ [schedulerCall m]

end Ross.Pe

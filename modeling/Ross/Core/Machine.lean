import Ross.Core.Sched

/-!
# One PE as a machine

A step of a PE runs up to the next loop turn of the function it is inside of.
The innermost activity goes first: the network loop, then a rollback in
progress, then the function `phase` stands for, then the next call.
-/

namespace Ross

/-- The result of an `MPI_Allreduce`. -/
inductive Outcome (T : Type)
  | total (white : Int)
  | gvt (sig : TwEventSig T)
  | flag (b : Bool)

/-- What the environment decides: that the PE goes on (with the reading of the
clock), a message `MPI_Testsome` reports received or sent, the next call where
the program leaves it open, and what a GVT hook does. -/
inductive Input (T M : Type)
  | tau (expired : Bool)
  | recv (src : Nat) (w : WireMsg T M)
  | sent (e : TwEvent T)
  | call (c : Call T)
  | outcome (o : Outcome T)
  | hookAt (sig : TwEventSig T)
  | hookEvery (n : Nat)
  | hookWhenModelCalls
  | hookRollback
  | hookReturn

namespace Pe

variable {T S M R : Type} [TwStime T] (m : SimModel T S M R)

/-- A step of the network loop. -/
def netStep (s : Pe T S M R) (n : NetLoop) (i : Input T M) : Except TwError (Pe T S M R) :=
  match n, i with
  | .testRecvs changed, .tau _ => .ok { s with net := .testSends true changed }
  | .testRecvs _, .recv src w =>
      if 0 < s.postedRecvs then { s with net := .testRecvs true }.recvFinish m src w
      else .error .notEnabled
  | .testSends read changed, .tau _ =>
      .ok { s with net := if read then .recvBegin changed else .sendBegin false changed }
  | .testSends read _, .sent e =>
      if e ∈ s.queue .postedSends then { s with net := .testSends read true }.sendFinish m e
      else .error .notEnabled
  | .recvBegin changed, .tau _ => s.recvBegin m changed
  | .sendBegin read changed, .tau _ => .ok (s.sendBegin m read changed)
  | _, _ => .error .notEnabled

/-- The PE's side of a finished `MPI_Allreduce`. -/
def reduceDone (s : Pe T S M R) (r : Reduction) : Outcome T → Pe T S M R
  | .total white => { s with phase := if white = 0 then .reduce .lvt else .whiteLoop }
  | .gvt sig => { s with phase := .gvtStore sig }
  | .flag b => { s with phase := .reduced r b }

/-- What follows a reduction of a flag. -/
def afterReduction (s : Pe T S M R) (r : Reduction) (flag : Bool) :
    Except TwError (Pe T S M R) :=
  match r with
  | .hookAll => s.hookAllDone m flag
  | .hookAny => s.hookAnyDone m flag
  | .cleanupCancel =>
      .ok (if flag then { s with phase := .idle, todo := .cleanupLoop :: s.todo }
        else { s with phase := .reduce .cleanupEvent })
  | .cleanupEvent =>
      .ok (if flag then { s with phase := .idle, todo := .cleanupLoop :: s.todo }
        else { s with phase := .idle })
  | _ => .error .notEnabled

/-- What a GVT hook may do. -/
def hookStep (s : Pe T S M R) : Input T M → Except TwError (Pe T S M R)
  | .hookAt sig => .ok (s.twTriggerGvtHookAtEventSig sig)
  | .hookEvery n => s.twTriggerGvtHookEvery n
  | .hookWhenModelCalls => .ok s.twTriggerGvtHookWhenModelCalls
  | .hookRollback =>
      .ok { s with
        phase := .idle, todo := .rollbackAndCancelEventsPe :: .hookReturn :: s.todo }
  | .hookReturn => .ok { s with phase := .idle }
  | _ => .error .notEnabled

/-- A step of the function the PE is inside of. -/
def phaseStep (s : Pe T S M R) (p : Phase T M) (i : Input T M) :
    Except TwError (Pe T S M R) :=
  match p, i with
  | .idle, .tau expired =>
      match s.todo with
      | c :: rest => { s with todo := rest }.call m expired c
      | [] => .error .notEnabled
  | .idle, .call c => if s.todo.isEmpty then s.call m false c else .error .notEnabled
  | .eventQ, .tau _ => s.schedEventQ m
  | .eventQRollback, .tau _ => s.schedStraggler m
  | .cancelQ, .tau _ => s.schedCancelQ
  | .cancelQRollback target, .tau _ => s.kpRollbackEvent m target
  | .rollbackToSig kp toSig, .tau _ =>
      .ok ((s.kpRollbackToSig m kp toSig).getD { s with phase := .idle })
  | .batch kind left, .tau _ => s.batchStep m kind left
  | .handler kind left lp ops, .tau expired => s.handlerStep m kind left lp expired ops
  | .lpInit lp ops, .tau _ => s.initStep m lp ops
  | .whiteLoop, .tau _ => .ok { s with phase := .reduce .white }.twNetRead
  | .reduce r, .outcome o => .ok (s.reduceDone r o)
  | .reduced r flag, .tau _ => s.afterReduction m r flag
  | .gvtStore gvt, .tau _ => s.gvtStore m gvt
  | .fossilCollect kp children, .tau _ => s.fossilStep m kp children
  | .inHook, i => s.hookStep i
  | _, _ => .error .notEnabled

/-- A step of the PE. -/
def step (s : Pe T S M R) (i : Input T M) : Except TwError (Pe T S M R) :=
  match s.net, s.rollback with
  | .off, none => s.phaseStep m s.phase i
  | .off, some r =>
      match i with
      | .tau _ => s.rollbackStep m r
      | _ => .error .notEnabled
  | n, _ => s.netStep m n i

/-! ## What a step can do -/

variable {m} {s s' : Pe T S M R}

/-- A GVT hook sets the trigger, rolls all events of the PE back or returns. -/
theorem hookStep_ok {i : Input T M} (h : s.hookStep i = .ok s') :
    (i ≠ .hookRollback ∧ i ≠ .hookReturn ∧ ∃ t, s' = { s with trigger := t }) ∨
      (i = .hookRollback ∧ s' = { s with
        phase := .idle, todo := .rollbackAndCancelEventsPe :: .hookReturn :: s.todo }) ∨
      (i = .hookReturn ∧ s' = { s with phase := .idle }) := by
  unfold hookStep at h
  split at h
  · cases h
    exact .inl ⟨nofun, nofun, _, rfl⟩
  · unfold twTriggerGvtHookEvery at h
    split at h
    · cases h
    · cases h
      exact .inl ⟨nofun, nofun, _, rfl⟩
  · cases h
    exact .inl ⟨nofun, nofun, _, rfl⟩
  · cases h
    exact .inr (.inl ⟨rfl, rfl⟩)
  · cases h
    exact .inr (.inr ⟨rfl, rfl⟩)
  · cases h

/-- After a reduction of the hook or of its cleanup the hook is called, the cleanup goes on or the
function returns. -/
theorem afterReduction_ok {r : Reduction} {flag : Bool} (h : s.afterReduction m r flag = .ok s') :
    ((r = .hookAll ∨ r = .hookAny) ∧ flag = true ∧
        ∃ t, ({ s with trigger := t } : Pe T S M R).callHook m = .ok s') ∨
      ((r = .hookAll ∨ r = .hookAny ∨ r = .cleanupEvent) ∧ flag = false ∧
        s' = { s with phase := .idle }) ∨
      ((r = .cleanupCancel ∨ r = .cleanupEvent) ∧ flag = true ∧
        s' = { s with phase := .idle, todo := .cleanupLoop :: s.todo }) ∨
      (r = .cleanupCancel ∧ flag = false ∧ s' = { s with phase := .reduce .cleanupEvent }) := by
  cases r with
  | white => cases h
  | lvt => cases h
  | hookAll =>
      cases flag with
      | true => exact .inl ⟨.inl rfl, rfl, _, h⟩
      | false =>
          cases h
          exact .inr (.inl ⟨.inl rfl, rfl, rfl⟩)
  | hookAny =>
      cases flag with
      | true => exact .inl ⟨.inr rfl, rfl, _, h⟩
      | false =>
          cases h
          exact .inr (.inl ⟨.inr (.inl rfl), rfl, rfl⟩)
  | cleanupCancel =>
      cases flag with
      | true =>
          cases h
          exact .inr (.inr (.inl ⟨.inl rfl, rfl, rfl⟩))
      | false =>
          cases h
          exact .inr (.inr (.inr ⟨rfl, rfl, rfl⟩))
  | cleanupEvent =>
      cases flag with
      | true =>
          cases h
          exact .inr (.inr (.inl ⟨.inr rfl, rfl, rfl⟩))
      | false =>
          cases h
          exact .inr (.inl ⟨.inr (.inr rfl), rfl, rfl⟩)

/-- The PE is at the top of the function `p`. -/
def At (s : Pe T S M R) (p : Phase T M) : Prop :=
  s.net = .off ∧ s.rollback = none ∧ s.phase = p

/-- The loop turn that a step with a given input runs. -/
inductive Turn (m : SimModel T S M R) (s s' : Pe T S M R) : Input T M → Prop
  | recv {changed : Bool} {src : Nat} {w : WireMsg T M} :
      s.net = .testRecvs changed → 0 < s.postedRecvs →
      { s with net := .testRecvs true }.recvFinish m src w = .ok s' → Turn m s s' (.recv src w)
  | testRecvs {changed expired : Bool} :
      s.net = .testRecvs changed → s' = { s with net := .testSends true changed } →
      Turn m s s' (.tau expired)
  | sent {read changed : Bool} {e : TwEvent T} :
      s.net = .testSends read changed → e ∈ s.queue .postedSends →
      { s with net := .testSends read true }.sendFinish m e = .ok s' → Turn m s s' (.sent e)
  | testSends {read changed expired : Bool} :
      s.net = .testSends read changed →
      s' = { s with net := if read then .recvBegin changed else .sendBegin false changed } →
      Turn m s s' (.tau expired)
  | recvBegin {changed expired : Bool} :
      s.net = .recvBegin changed → s.recvBegin m changed = .ok s' → Turn m s s' (.tau expired)
  | sendBegin {read changed expired : Bool} :
      s.net = .sendBegin read changed → s' = s.sendBegin m read changed →
      Turn m s s' (.tau expired)
  | rollback {r : Rollback T} {expired : Bool} :
      s.net = .off → s.rollback = some r → s.rollbackStep m r = .ok s' →
      Turn m s s' (.tau expired)
  | call {c : Call T} {rest : List (Call T)} {expired : Bool} :
      s.At .idle → s.todo = c :: rest → { s with todo := rest }.call m expired c = .ok s' →
      Turn m s s' (.tau expired)
  | outerCall {c : Call T} :
      s.At .idle → s.todo = [] → s.call m false c = .ok s' → Turn m s s' (.call c)
  | eventQ {expired : Bool} :
      s.At .eventQ → s.schedEventQ m = .ok s' → Turn m s s' (.tau expired)
  | eventQRollback {expired : Bool} :
      s.At .eventQRollback → s.schedStraggler m = .ok s' → Turn m s s' (.tau expired)
  | cancelQ {expired : Bool} :
      s.At .cancelQ → s.schedCancelQ = .ok s' → Turn m s s' (.tau expired)
  | cancelQRollback {target : TwEvent T} {expired : Bool} :
      s.At (.cancelQRollback target) → s.kpRollbackEvent m target = .ok s' →
      Turn m s s' (.tau expired)
  | rollbackToSig {kp : Nat} {toSig : TwEventSig T} {expired : Bool} :
      s.At (.rollbackToSig kp toSig) → s.kpRollbackToSig m kp toSig = some s' →
      Turn m s s' (.tau expired)
  | rollbackToSigDone {kp : Nat} {toSig : TwEventSig T} {expired : Bool} :
      s.At (.rollbackToSig kp toSig) → s.kpRollbackToSig m kp toSig = none →
      s' = { s with phase := .idle } → Turn m s s' (.tau expired)
  | batch {kind : BatchKind} {left : Nat} {expired : Bool} :
      s.At (.batch kind left) → s.batchStep m kind left = .ok s' → Turn m s s' (.tau expired)
  | handlerOp {kind : BatchKind} {left lp : Nat} {op : HandlerOp T M}
      {ops : List (HandlerOp T M)} {expired : Bool} :
      s.At (.handler kind left lp (op :: ops)) →
      { s with phase := .handler kind left lp ops }.handlerOp m lp op = .ok s' →
      Turn m s s' (.tau expired)
  | handlerReturn {kind : BatchKind} {left lp : Nat} {cev : TwEvent T} {expired : Bool} :
      s.At (.handler kind left lp []) → s.curEvent = some cev →
      s.handlerReturn m kind left cev expired = .ok s' → Turn m s s' (.tau expired)
  | initOp {lp : Nat} {op : HandlerOp T M} {ops : List (HandlerOp T M)} {expired : Bool} :
      s.At (.lpInit lp (op :: ops)) →
      { s with phase := .lpInit lp ops }.handlerOp m lp op = .ok s' →
      Turn m s s' (.tau expired)
  | initReturn {lp : Nat} {expired : Bool} :
      s.At (.lpInit lp []) → s.cevAbort = false → s' = { s with phase := .idle } →
      Turn m s s' (.tau expired)
  | whiteLoop {expired : Bool} :
      s.At .whiteLoop → s' = { s with phase := .reduce .white }.twNetRead →
      Turn m s s' (.tau expired)
  | reduce {r : Reduction} {o : Outcome T} :
      s.At (.reduce r) → s' = s.reduceDone r o → Turn m s s' (.outcome o)
  | reduced {r : Reduction} {flag expired : Bool} :
      s.At (.reduced r flag) → s.afterReduction m r flag = .ok s' → Turn m s s' (.tau expired)
  | gvtStore {gvt : TwEventSig T} {expired : Bool} :
      s.At (.gvtStore gvt) → s.gvtStore m gvt = .ok s' → Turn m s s' (.tau expired)
  | fossil {kp : Nat} {children : List (TwEvent T)} {expired : Bool} :
      s.At (.fossilCollect kp children) → s.fossilStep m kp children = .ok s' →
      Turn m s s' (.tau expired)
  | hook {i : Input T M} :
      s.At .inHook → s.hookStep i = .ok s' → Turn m s s' i

theorem step_turn {i : Input T M} (h : s.step m i = .ok s') : Turn m s s' i := by
  unfold step at h
  split at h
  next hn hr =>
    unfold phaseStep at h
    split at h
    next hp =>
      split at h
      next ht => exact .call ⟨hn, hr, hp⟩ ht h
      · cases h
    next hp =>
      split at h
      next ht => exact .outerCall ⟨hn, hr, hp⟩ (List.isEmpty_iff.mp ht) h
      · cases h
    next hp => exact .eventQ ⟨hn, hr, hp⟩ h
    next hp => exact .eventQRollback ⟨hn, hr, hp⟩ h
    next hp => exact .cancelQ ⟨hn, hr, hp⟩ h
    next hp => exact .cancelQRollback ⟨hn, hr, hp⟩ h
    next kp toSig _ hp =>
      cases hk : s.kpRollbackToSig m kp toSig with
      | some s₁ =>
          rw [hk] at h
          cases h
          exact .rollbackToSig ⟨hn, hr, hp⟩ hk
      | none =>
          rw [hk] at h
          cases h
          exact .rollbackToSigDone ⟨hn, hr, hp⟩ hk rfl
    next hp => exact .batch ⟨hn, hr, hp⟩ h
    next ops _ hp =>
      unfold handlerStep at h
      split at h
      · exact .handlerOp ⟨hn, hr, hp⟩ h
      · split at h
        next hc => exact .handlerReturn ⟨hn, hr, hp⟩ hc h
        · cases h
    next hp =>
      unfold initStep at h
      split at h
      · exact .initOp ⟨hn, hr, hp⟩ h
      · split at h
        · cases h
        next ha =>
          cases h
          exact .initReturn ⟨hn, hr, hp⟩ (by simpa using ha) rfl
    next hp =>
      cases h
      exact .whiteLoop ⟨hn, hr, hp⟩ rfl
    next hp =>
      cases h
      exact .reduce ⟨hn, hr, hp⟩ rfl
    next hp => exact .reduced ⟨hn, hr, hp⟩ h
    next hp => exact .gvtStore ⟨hn, hr, hp⟩ h
    next hp => exact .fossil ⟨hn, hr, hp⟩ h
    next hp => exact .hook ⟨hn, hr, hp⟩ h
    · cases h
  next hn hr =>
    split at h
    · exact .rollback hn hr h
    · cases h
  · unfold netStep at h
    split at h
    next hn =>
      cases h
      exact .testRecvs hn rfl
    next hn =>
      split at h
      next hp => exact .recv hn hp h
      · cases h
    next hn =>
      cases h
      exact .testSends hn rfl
    next hn =>
      split at h
      next he => exact .sent hn he h
      · cases h
    next hn => exact .recvBegin hn h
    next hn =>
      cases h
      exact .sendBegin hn rfl
    · cases h

end Pe

/-- A small optimistic configuration of integer time without any event, for the
runs that are evaluated: LP `i` is LP of PE `i`, in one KP, the state and the
generator of an LP are counters, and a handler leaves its LP alone. -/
def quietModel : SimModel Int Nat Nat Nat where
  synch := .optimistic
  npe := 2
  nkp := 1
  tsEnd := 100
  lookahead := 1
  maxOptLookahead := 1000
  mblock := 16
  gvtInterval := 16
  readBuffer := 1
  sendBuffer := 1
  freeBuffers := 10
  gvtHook := false
  trigger0 := ⟨.disabled, zeroSig, 0, 0⟩
  avlTree := true
  lps i := [i]
  map i := i
  kpOf _ := 0
  init _ st := (st, [])
  preRun _ st := (st, [])
  event _ _ st cv msg := ⟨st, cv, msg, []⟩
  revent _ _ st cv msg := ⟨st, cv, msg, 0⟩
  randUnif r := (r, r + 1)
  randReverseUnif r := r - 1
  zeroMsg := 0
  lpState0 _ := 0
  coreRng0 _ := 0

end Ross

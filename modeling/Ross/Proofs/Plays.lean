import Ross.Proofs.Buffers
import Ross.Proofs.Standing
import Ross.Proofs.Forward

/-!
# What a step does to the LPs

Only three things change the state of an LP: its `init` and `pre_run` handlers, its event handler
when a batch starts, and its reverse handler when an event is undone.
-/

namespace Ross

variable {T S M R : Type} [TwStime T]

/-- The calls of the `init` and the `pre_run` handlers. -/
def Call.runsInit : Call T → Bool
  | .initLp _ => true
  | .preRunLp _ => true
  | _ => false

namespace Pe

/-- The calls that the handler in progress has still to make. -/
def opsLeft (s : Pe T S M R) : List (HandlerOp T M) :=
  match s.phase with
  | .handler _ _ _ ops => ops
  | .lpInit _ ops => ops
  | _ => []

/-- No LP is suspended, and no handler in progress is going to suspend one. -/
structure Awake (s : Pe T S M R) : Prop where
  lp : ∀ l, (s.lp l).suspendFlag = false
  ops : ∀ op ∈ s.opsLeft, isAwake op

/-- A step in which no handler of the model starts. -/
structure Quiet (s s' : Pe T S M R) : Prop where
  states : ∀ l, (s'.lp l).curState = (s.lp l).curState
  awake : s.Awake → s'.Awake
  names : s.nextUid ≤ s'.nextUid
  todo : ∀ c ∈ s'.todo, c.runsInit = true → c ∈ s.todo

section Quiet

variable {m : SimModel T S M R} {s s' : Pe T S M R}

omit [TwStime T] in
theorem Awake.congr (h : s.Awake) (hlp : s'.lp = s.lp) (hops : ∀ op ∈ s'.opsLeft, op ∈ s.opsLeft) :
    s'.Awake :=
  ⟨fun l => hlp ▸ h.lp l, fun op hop => h.ops op (hops op hop)⟩

namespace Quiet

section

omit [TwStime T]

/-- A step that leaves the LPs alone. -/
theorem of_lp (hlp : s'.lp = s.lp) (hn : s'.nextUid = s.nextUid)
    (hops : ∀ op ∈ s'.opsLeft, op ∈ s.opsLeft)
    (htodo : ∀ c ∈ s'.todo, c.runsInit = true → c ∈ s.todo) : Quiet s s' :=
  ⟨fun l => by rw [hlp], fun h => h.congr hlp hops, hn.ge, htodo⟩

/-- A step inside of a function. -/
theorem inside (hlp : s'.lp = s.lp) (hn : s'.nextUid = s.nextUid) (hp : s'.phase = s.phase)
    (htodo : s'.todo = s.todo) : Quiet s s' := by
  refine of_lp hlp hn (fun op hop => ?_) fun c hc _ => htodo ▸ hc
  unfold opsLeft at hop ⊢
  rwa [← hp]

/-- A step inside of a function that changes neither the states of the LPs nor who
of them is suspended. -/
theorem unmoved (hst : ∀ l, (s'.lp l).curState = (s.lp l).curState)
    (hfl : ∀ l, (s'.lp l).suspendFlag = (s.lp l).suspendFlag) (hn : s.nextUid ≤ s'.nextUid)
    (hp : s'.phase = s.phase) (htodo : s'.todo = s.todo) : Quiet s s' := by
  refine ⟨hst, fun h => ⟨fun l => (hfl l).trans (h.lp l), fun op hop => h.ops op ?_⟩, hn,
    fun c hc _ => htodo ▸ hc⟩
  unfold opsLeft at hop ⊢
  rwa [← hp]

/-- A step to a function that is not a handler. -/
theorem goto (hlp : s'.lp = s.lp) (hn : s'.nextUid = s.nextUid) (hp : s'.opsLeft = [])
    (htodo : ∀ c ∈ s'.todo, c.runsInit = true → c ∈ s.todo) : Quiet s s' :=
  of_lp hlp hn (fun _ hop => absurd (hp ▸ hop) List.not_mem_nil) htodo

end

/-! ## The network -/

theorem recvFinish {src : Nat} {w : WireMsg T M} (hs : s.recvFinish m src w = .ok s') :
    Quiet s s' := by
  have hle : s.nextUid ≤ s.nextUid + 1 := Nat.le_succ _
  obtain ⟨-, ⟨-, c, -, rfl⟩ | ⟨-, -, ⟨-, -, rfl⟩ | ⟨-, rfl⟩⟩⟩ := recvFinish_ok hs
  · exact ⟨fun _ => rfl, fun h => ⟨h.lp, h.ops⟩, hle, fun _ hc _ => hc⟩
  · exact ⟨fun _ => rfl, fun h => ⟨h.lp, h.ops⟩, hle, fun _ hc _ => hc⟩
  · exact ⟨fun _ => rfl, fun h => ⟨h.lp, h.ops⟩, hle, fun _ hc _ => hc⟩

theorem sendFinish {e : TwEvent T} (hs : s.sendFinish m e = .ok s') : Quiet s s' := by
  rcases sendFinish_ok hs with ⟨-, -, rfl⟩ | ⟨-, -, -, rfl⟩ | ⟨-, -, -, rfl⟩ | ⟨-, rfl⟩
  · exact inside rfl rfl rfl rfl
  · exact inside rfl rfl rfl rfl
  · exact inside rfl rfl rfl rfl
  · exact inside rfl rfl rfl rfl

omit [TwStime T] in
theorem recvBegin {changed : Bool} (hs : s.recvBegin m changed = .ok s') : Quiet s s' := by
  rcases recvBegin_ok hs with rfl | ⟨-, -, rfl⟩
  · exact inside rfl rfl rfl rfl
  · exact inside rfl rfl rfl rfl

theorem sendBegin (m : SimModel T S M R) (s : Pe T S M R) (read changed : Bool) :
    Quiet s (s.sendBegin m read changed) := by
  rcases sendBegin_ok (m := m) s read changed with ⟨e, -, -, hs⟩ | ⟨-, hs⟩
  · rw [hs]
    exact inside rfl rfl rfl rfl
  · rw [hs]
    exact inside rfl rfl rfl rfl

/-! ## The handlers -/

theorem eventNew {destGid sender : Nat} {offsetTs prio : T} {msg : M}
    (hs : s.twEventNewUserPrio m destGid offsetTs sender prio msg = .ok s') : Quiet s s' := by
  have hst : ∀ l, (s.drawnLp m sender l).curState = (s.lp l).curState :=
    TwLp.update_field (·.curState) s.lp sender (by rfl)
  have hfl : ∀ l, (s.drawnLp m sender l).suspendFlag = (s.lp l).suspendFlag :=
    TwLp.update_field (·.suspendFlag) s.lp sender (by rfl)
  obtain ⟨-, ⟨-, rfl⟩ | ⟨-, -, rfl⟩⟩ := twEventNewUserPrio_ok hs
  · exact unmoved hst hfl le_rfl rfl rfl
  · exact unmoved hst hfl (Nat.le_succ _) rfl rfl

theorem eventSend {i : Nat} (hs : s.twEventSend m i = .ok s') : Quiet s s' := by
  rcases twEventSend_ok hs with ⟨-, rfl⟩ | ⟨e, msg, -, -, rfl⟩
  · exact inside rfl rfl rfl rfl
  · rcases deliver_cases m (s.prepare i e msg) (s.stamp e) with
      ⟨-, -, hd⟩ | ⟨-, -, hd⟩ | ⟨-, hd⟩
    · rw [hd]
      exact inside rfl rfl rfl rfl
    · rw [hd]
      exact inside rfl rfl rfl rfl
    · rw [hd]
      exact inside rfl rfl rfl rfl

omit [TwStime T] in
theorem twLpSuspend (m : SimModel T S M R) (s : Pe T S M R) (lp l : Nat) (b : Bool) :
    ((s.twLpSuspend m lp b).lp l).curState = (s.lp l).curState := by
  exact TwLp.update_field (·.curState) s.lp lp (by rfl) l

/-- A call of a handler into the kernel; `op` is the call in the phase `p`. -/
theorem handlerOp {lp : Nat} {op : HandlerOp T M} (hop : op ∈ s.opsLeft) {p : Phase T M}
    (hp : ∀ op ∈ ({ s with phase := p } : Pe T S M R).opsLeft, op ∈ s.opsLeft)
    (hs : ({ s with phase := p } : Pe T S M R).handlerOp m lp op = .ok s') : Quiet s s' := by
  have next : Quiet s { s with phase := p } := of_lp rfl rfl hp fun _ hc _ => hc
  have comp : Quiet { s with phase := p } s' → Quiet s s' := fun h =>
    ⟨h.states, fun ha => h.awake (next.awake ha), h.names, h.todo⟩
  cases op with
  | eventNew destGid offsetTs prio msg => exact comp (eventNew hs)
  | eventSend i => exact comp (eventSend hs)
  | lpSuspend b =>
      cases hs
      exact ⟨fun l => twLpSuspend m _ lp l b, fun ha => (ha.ops _ hop).elim, le_rfl,
        fun _ hc _ => hc⟩
  | triggerGvtHookNow =>
      rcases twTriggerGvtHookNow_ok hs with rfl | ⟨-, rfl⟩
      · exact next
      · exact comp (unmoved (TwLp.update_field (·.curState) s.lp lp (by rfl))
          (TwLp.update_field (·.suspendFlag) s.lp lp (by rfl)) le_rfl rfl rfl)

/-! ## Rollbacks -/

section

omit [TwStime T]

theorem reverseUnif (m : SimModel T S M R) (s : Pe T S M R) (lp n : Nat) :
    Quiet s (s.reverseUnif m lp n) := by
  exact unmoved (TwLp.update_field (·.curState) s.lp lp (by rfl))
    (TwLp.update_field (·.suspendFlag) s.lp lp (by rfl)) le_rfl rfl rfl

theorem trans {s₁ s₂ s₃ : Pe T S M R} (h : Quiet s₁ s₂) (h' : Quiet s₂ s₃) : Quiet s₁ s₃ :=
  ⟨fun l => (h'.states l).trans (h.states l), fun ha => h'.awake (h.awake ha),
    h.names.trans h'.names, fun c hc hi => h.todo c (h'.todo c hc hi) hi⟩

theorem of_net {n : NetLoop} (h : Quiet ({ s with net := n } : Pe T S M R) s') : Quiet s s' :=
  trans (inside rfl rfl rfl rfl : Quiet s { s with net := n }) h

end

theorem eventCancel {e : TwEvent T} (hs : s.eventCancel m e = .ok s') : Quiet s s' := by
  rcases eventCancel_ok hs with ⟨-, rfl⟩ | ⟨-, rfl⟩ | ⟨-, rfl⟩ | ⟨-, -, rfl⟩ | ⟨-, -, rfl⟩
  · exact inside rfl rfl rfl rfl
  · exact inside rfl rfl rfl rfl
  · exact inside rfl rfl rfl rfl
  · exact inside rfl rfl rfl rfl
  · exact inside rfl rfl rfl rfl

theorem rollbackStep {r : Rollback T} (hs : s.rollbackStep m r = .ok s') : Quiet s s' := by
  unfold Pe.rollbackStep at hs
  split at hs
  next e rest _ =>
    unfold rollbackChild at hs
    have hreverse := reverseUnif m
      ({ s with rollback := some { r with children := rest } } : Pe T S M R) e.srcLp 1
    have hnext : Quiet s { s with rollback := some { r with children := rest } } :=
      inside rfl rfl rfl rfl
    exact hnext.trans (hreverse.trans (eventCancel hs))
  next =>
    cases hs
    have hend := reverseUnif m s r.event.destLp (s.ev r.event).abortedTotal
    have hlast : Quiet (s.reverseUnif m r.event.destLp (s.ev r.event).abortedTotal)
        ((s.rollbackEnd m r.event).afterRollback m r.event r.after) := by
      rw [afterRollback_eq]
      cases r.after with
      | requeueReset => exact inside rfl rfl rfl rfl
      | requeue => exact inside rfl rfl rfl rfl
      | freeReset => exact goto rfl rfl rfl fun _ hc _ => hc
      | abort kind => exact goto rfl rfl rfl fun _ hc _ => hc
    exact hend.trans hlast

/-! ## The schedulers -/

theorem schedEventQ (hs : s.schedEventQ m = .ok s') : Quiet s s' := by
  rcases schedEventQ_ok hs with ⟨cev, rest, -, ⟨-, rfl⟩ | ⟨-, -, ⟨-, rfl⟩ | ⟨-, rfl⟩⟩⟩ |
    ⟨-, -, rfl⟩ | ⟨-, -, rfl⟩
  · exact inside rfl rfl rfl rfl
  · exact goto rfl rfl rfl fun _ hc _ => hc
  · exact inside rfl rfl rfl rfl
  · exact goto rfl rfl rfl fun _ hc _ => hc
  · exact inside rfl rfl rfl rfl

theorem schedCancelQ (hs : s.schedCancelQ = .ok s') : Quiet s s' := by
  rcases schedCancelQ_ok hs with ⟨cev, rest, -, -, ⟨q, -, rfl⟩ | ⟨-, rfl⟩⟩ | ⟨-, -, rfl⟩ |
    ⟨-, -, rfl⟩
  · exact inside rfl rfl rfl rfl
  · exact goto rfl rfl rfl fun _ hc _ => hc
  · exact goto rfl rfl rfl fun _ hc _ => hc
  · exact inside rfl rfl rfl rfl

theorem fossilStep {kp : Nat} {children : List (TwEvent T)}
    (hs : s.fossilStep m kp children = .ok s') : Quiet s s' := by
  rcases fossilStep_ok hs with ⟨c, cs, -, ⟨-, rfl⟩ | ⟨-, rfl⟩⟩ | ⟨-, e, -, hcommit⟩ |
    ⟨-, -, -, rfl⟩ | ⟨-, -, -, rfl⟩
  · exact goto rfl rfl rfl fun _ hc _ => hc
  · exact goto rfl rfl rfl fun _ hc _ => hc
  · rcases commitEvent_ok hcommit with ⟨-, rfl⟩ | ⟨-, -, c, -, rfl⟩
    · exact goto rfl rfl rfl fun _ hc _ => hc
    · exact goto rfl rfl rfl fun _ hc _ => hc
  · exact goto rfl rfl rfl fun _ hc _ => hc
  · exact goto rfl rfl rfl fun _ hc _ => hc

theorem callHook (hs : s.callHook m = .ok s') : Quiet s s' := by
  rcases callHook_ok hs with rfl | ⟨-, -, rfl⟩
  · exact goto rfl rfl rfl fun _ hc _ => hc
  · exact goto rfl rfl rfl fun _ hc _ => hc

section

omit [TwStime T]

/-- The calls put in front of the rest of a program. -/
theorem calls (cs : List (Call T)) (hlp : s'.lp = s.lp) (hn : s'.nextUid = s.nextUid)
    (hp : s'.phase = s.phase) (htodo : s'.todo = cs ++ s.todo)
    (hcs : ∀ c ∈ cs, c.runsInit = false) : Quiet s s' := by
  refine of_lp hlp hn (fun op hop => ?_) fun c hc hi => ?_
  · unfold opsLeft at hop ⊢
    rwa [← hp]
  · rw [htodo] at hc
    rcases List.mem_append.mp hc with hc | hc
    · exact absurd (hi.symm.trans (hcs c hc)) (by simp)
    · exact hc

theorem readCall_plain (m : SimModel T S M R) {cs : List (Call T)}
    (h : ∀ c ∈ cs, c.runsInit = false) : ∀ c ∈ readCall m ++ cs, c.runsInit = false := by
  intro c hc
  rcases List.mem_append.mp hc with hc | hc
  · rw [eq_netRead_of_mem hc]
    rfl
  · exact h c hc

theorem reduceDone (s : Pe T S M R) (r : Reduction) (o : Outcome T) :
    Quiet s (s.reduceDone r o) := by
  cases o with
  | total white =>
      refine goto rfl rfl ?_ fun _ hc _ => hc
      unfold Pe.reduceDone opsLeft
      dsimp only
      split
      next hp =>
        split at hp
        · cases hp
        · cases hp
      next hp =>
        split at hp
        · cases hp
        · cases hp
      · rfl
  | gvt sig => exact goto rfl rfl rfl fun _ hc _ => hc
  | flag b => exact goto rfl rfl rfl fun _ hc _ => hc

end

theorem call {expired : Bool} {c : Call T} (hplain : c.runsInit = false)
    (hs : s.call m expired c = .ok s') : Quiet s s' := by
  cases c with
  | initLp | preRunLp => cases hplain
  | gvtStep1 =>
      obtain ⟨n, b, hg, -⟩ := gvtStep1_frame (m := m) s
      cases hs
      rw [hg]
      exact inside rfl rfl rfl rfl
  | gvtStep1Realtime =>
      obtain ⟨n, b, hg, -⟩ := gvtStep1Realtime_frame (m := m) s expired
      cases hs
      rw [hg]
      exact inside rfl rfl rfl rfl
  | gvtHookStep =>
      rcases gvtHookStep_ok hs with rfl | rfl | rfl | ⟨-, hc⟩
      · exact inside rfl rfl rfl rfl
      · exact goto rfl rfl rfl fun _ hc _ => hc
      · exact goto rfl rfl rfl fun _ hc _ => hc
      · exact callHook hc
  | gvtStep2 =>
      cases hs
      split
      · exact goto rfl rfl rfl fun _ hc _ => hc
      · exact inside rfl rfl rfl rfl
  | optimisticTail =>
      cases hs
      split
      · exact inside rfl rfl rfl rfl
      · exact calls _ rfl rfl rfl rfl (by simp [Call.runsInit])
  | optimisticRealtimeTail =>
      cases hs
      split
      · exact inside rfl rfl rfl rfl
      · exact calls _ rfl rfl rfl rfl (by simp [Call.runsInit])
  | conservativeTail =>
      cases hs
      split
      · exact inside rfl rfl rfl rfl
      · exact calls _ rfl rfl rfl rfl (by simp [Call.runsInit])
  | gvtStep2AndHook =>
      cases hs
      refine calls (.gvtStep2 :: if s.gvtCompute then [.gvtHookStep] else []) rfl rfl rfl rfl ?_
      split
      · simp [Call.runsInit]
      · simp [Call.runsInit]
  | rollbackAndCancelEventsPe =>
      cases hs
      refine calls ((List.range m.nkp).map (.kpRollbackToSig · s.gvtSig) ++ [.cleanupLoop])
        rfl rfl rfl ?_ ?_
      · show _ ++ _ :: _ = _
        rw [List.append_assoc]
        rfl
      · simp [Call.runsInit, or_imp, forall_and]
  | cleanupLoop =>
      cases hs
      exact calls _ rfl rfl rfl rfl (readCall_plain m (by simp [Call.runsInit]))
  | schedulerOptimistic =>
      cases hs
      exact calls _ rfl rfl rfl rfl (readCall_plain m (by simp [Call.runsInit]))
  | schedulerOptimisticRealtime =>
      cases hs
      exact calls _ rfl rfl rfl rfl (readCall_plain m (by simp [Call.runsInit]))
  | schedulerConservative =>
      cases hs
      exact calls _ rfl rfl rfl rfl (readCall_plain m (by simp [Call.runsInit]))
  | netRead | gvtStatusOn =>
      cases hs
      exact inside rfl rfl rfl rfl
  | schedEventQ | schedCancelQ | schedBatch | schedBatchRealtime | conservativeBatch
  | kpRollbackToSig | cleanupTest | hookReturn =>
      cases hs
      exact goto rfl rfl rfl fun _ hc _ => hc

theorem afterReduction {r : Reduction} {flag : Bool} (hs : s.afterReduction m r flag = .ok s') :
    Quiet s s' := by
  have cleanup : ∀ c ∈ .cleanupLoop :: s.todo, c.runsInit = true → c ∈ s.todo := by
    intro c hc hi
    rcases List.mem_cons.mp hc with rfl | hc
    · cases hi
    · exact hc
  rcases afterReduction_ok hs with ⟨-, -, t, hcall⟩ | ⟨-, -, rfl⟩ | ⟨-, -, rfl⟩ | ⟨-, -, rfl⟩
  · have hnext : Quiet s { s with trigger := t } := inside rfl rfl rfl rfl
    exact hnext.trans (callHook hcall)
  · exact goto rfl rfl rfl fun _ hc _ => hc
  · exact goto rfl rfl rfl cleanup
  · exact goto rfl rfl rfl fun _ hc _ => hc

theorem hookStep {i : Input T M} (hs : s.hookStep i = .ok s') : Quiet s s' := by
  have back : ∀ c ∈ .rollbackAndCancelEventsPe :: .hookReturn :: s.todo,
      c.runsInit = true → c ∈ s.todo := by
    intro c hc hi
    rcases List.mem_cons.mp hc with rfl | hc
    · cases hi
    · rcases List.mem_cons.mp hc with rfl | hc
      · cases hi
      · exact hc
  rcases hookStep_ok hs with ⟨-, -, t, rfl⟩ | ⟨-, rfl⟩ | ⟨-, rfl⟩
  · exact inside rfl rfl rfl rfl
  · exact goto rfl rfl rfl back
  · exact goto rfl rfl rfl fun _ hc _ => hc

end Quiet

end Quiet

/-! ## Steps -/

/-- What a step does to the LPs. -/
inductive Plays (m : SimModel T S M R) (s s' : Pe T S M R) : Prop
  /-- No handler of the model starts. -/
  | quiet : Quiet s s' → (∀ kind left, s.At (.batch kind left) → s'.queue = s.queue) →
      (s.rollback = none → s'.rollback = none) → Plays m s s'
  /-- An `init` or a `pre_run` handler. -/
  | init {c : Call T} {lp : Nat} {f : Nat → S → S × List (HandlerOp T M)} {rest : List (Call T)} :
      s.At .idle → s.todo = c :: rest →
      (c = .initLp lp ∧ f = m.init ∨ c = .preRunLp lp ∧ f = m.preRun) →
      s' = ({ s with todo := rest } : Pe T S M R).callInit lp f → Plays m s s'
  /-- The event handler of the least event. -/
  | start {kind : BatchKind} {left : Nat} {cev : TwEvent T} :
      s.At (.batch kind left) → pqLeast (s.queue .pq) = some cev →
      s' = (s.dequeued m cev).runEvent m kind (left - 1) cev → Plays m s s'
  /-- The reverse handler. -/
  | undo {t : Pe T S M R} {e : TwEvent T} {after : RollbackAfter} :
      s.rollback = none → s' = t.twEventRollback m e after → t.lp = s.lp → t.ev = s.ev →
      t.nextUid = s.nextUid → t.todo = s.todo → t.opsLeft = s.opsLeft → Plays m s s'

section Steps

variable {m : SimModel T S M R} {s s' : Pe T S M R}

section

omit [TwStime T]

/-- A PE that is at another function is not in a batch. -/
theorem not_batch {p : Phase T M} (hat : s.At p) (hp : ∀ kind left, p ≠ .batch kind left) :
    ∀ kind left, s.At (.batch kind left) → s'.queue = s.queue := fun _ _ hb =>
  absurd (hat.2.2.symm.trans hb.2.2) (hp _ _)

theorem not_batch_net (hn : s.net ≠ .off) :
    ∀ kind left, s.At (.batch kind left) → s'.queue = s.queue := fun _ _ hb => absurd hb.1 hn

end

theorem step_plays {i : Input T M} (hi : ∀ c, i ≠ .call c) (hs : s.step m i = .ok s') :
    Plays m s s' := by
  have hturn := step_turn hs
  clear hs
  cases hturn with
  | recv hn hp hs =>
      have hq := Quiet.recvFinish (s := { s with net := .testRecvs true }) hs
      refine .quiet hq.of_net (not_batch_net (by simp [hn])) fun hr => ?_
      obtain ⟨-, ⟨-, c, -, rfl⟩ | ⟨-, -, ⟨-, -, rfl⟩ | ⟨-, rfl⟩⟩⟩ := recvFinish_ok hs
      · exact hr
      · exact hr
      · exact hr
  | testRecvs hn hs =>
      subst hs
      exact .quiet (.inside rfl rfl rfl rfl) (not_batch_net (by simp [hn])) fun hr => hr
  | @sent read changed e hn he hs =>
      have hq := Quiet.sendFinish (s := { s with net := .testSends read true }) hs
      refine .quiet hq.of_net (not_batch_net (by simp [hn])) fun hr => ?_
      rcases sendFinish_ok hs with ⟨-, -, rfl⟩ | ⟨-, -, -, rfl⟩ | ⟨-, -, -, rfl⟩ | ⟨-, rfl⟩
      · exact hr
      · exact hr
      · exact hr
      · exact hr
  | testSends hn hs =>
      subst hs
      exact .quiet (.inside rfl rfl rfl rfl) (not_batch_net (by simp [hn])) fun hr => hr
  | recvBegin hn hs =>
      refine .quiet (Quiet.recvBegin hs) (not_batch_net (by simp [hn])) fun hr => ?_
      rcases recvBegin_ok hs with rfl | ⟨-, -, rfl⟩
      · exact hr
      · exact hr
  | @sendBegin read changed expired hn hs =>
      subst hs
      refine .quiet (.sendBegin m s read changed) (not_batch_net (by simp [hn])) fun hr => ?_
      rcases sendBegin_ok (m := m) s read changed with ⟨e, -, -, heq⟩ | ⟨-, heq⟩
      · rw [heq]
        exact hr
      · rw [heq]
        exact hr
  | rollback hn hr hs =>
      exact .quiet (.rollbackStep hs) (fun _ _ hb => absurd (hr.symm.trans hb.2.1) (by simp))
        fun hnone => absurd (hr.symm.trans hnone) (by simp)
  | @call c rest expired hat ht hs =>
      have hrest : Quiet s { s with todo := rest } :=
        .of_lp rfl rfl (fun _ hop => hop) fun c' hc _ => ht ▸ List.mem_cons_of_mem c hc
      by_cases hplain : c.runsInit = false
      · refine .quiet (hrest.trans (.call hplain hs)) (not_batch hat nofun) fun hr => ?_
        have hcalm := (Calm.call (s := { s with todo := rest })
          (Holding.outside_of_at hat nofun) hs).rollback
        exact hcalm.mpr hr
      · cases c with
        | initLp lp =>
            cases hs
            exact .init hat ht (.inl ⟨rfl, rfl⟩) rfl
        | preRunLp lp =>
            cases hs
            exact .init hat ht (.inr ⟨rfl, rfl⟩) rfl
        | _ => exact absurd rfl hplain
  | outerCall hat ht hs => exact absurd rfl (hi _)
  | eventQ hat hs =>
      exact .quiet (.schedEventQ hs) (not_batch hat nofun)
        (Calm.schedEventQ (Holding.outside_of_at hat nofun) hs).rollback.mpr
  | eventQRollback hat hs =>
      obtain ⟨cev, rest, -, hback | ⟨-, rfl⟩⟩ := schedStraggler_ok hs
      · obtain ⟨e, tl, -, -, rfl⟩ := kpRollbackToSig_some hback
        exact .undo hat.2.1 rfl rfl rfl rfl rfl rfl
      · exact .quiet (.goto rfl rfl rfl fun _ hc _ => hc) (not_batch hat nofun) fun hr => hr
  | cancelQ hat hs =>
      refine .quiet (.schedCancelQ hs) (not_batch hat nofun) fun hr => ?_
      rcases schedCancelQ_ok hs with ⟨cev, rest, -, -, ⟨q, -, rfl⟩ | ⟨-, rfl⟩⟩ | ⟨-, -, rfl⟩ |
        ⟨-, -, rfl⟩
      · exact hr
      · exact hr
      · exact hr
      · exact hr
  | cancelQRollback hat hs =>
      obtain ⟨e, rest, -, ⟨rfl, rfl⟩ | ⟨-, hd, tl, -, rfl⟩⟩ := kpRollbackEvent_ok hs
      · exact .undo hat.2.1 rfl rfl rfl rfl rfl rfl
      · exact .undo hat.2.1 rfl rfl rfl rfl rfl rfl
  | rollbackToSig hat hs =>
      obtain ⟨e, rest, -, -, rfl⟩ := kpRollbackToSig_some hs
      exact .undo hat.2.1 rfl rfl rfl rfl rfl rfl
  | rollbackToSigDone hat _ hs =>
      subst hs
      exact .quiet (.goto rfl rfl rfl fun _ hc _ => hc) (not_batch hat nofun) fun hr => hr
  | batch hat hs =>
      rcases batchStep_ok hs with ⟨c, n, rfl⟩ | ⟨cev, hcev, -, -, -, rfl⟩
      · exact .quiet (.goto rfl rfl rfl fun _ hc _ => hc) (fun _ _ _ => rfl) fun hr => hr
      · exact .start hat hcev rfl
  | @handlerOp kind left lp op ops expired hat hs =>
      have hops : s.opsLeft = op :: ops := by
        unfold opsLeft
        rw [hat.2.2]
      refine .quiet (.handlerOp (hops ▸ List.mem_cons_self) (fun o ho => ?_) hs)
        (not_batch hat nofun) fun hr => ?_
      · rw [hops]
        exact List.mem_cons_of_mem op ho
      · exact (Flow.handlerOp hs).2.trans hr
  | handlerReturn hat hc hs =>
      rcases handlerReturn_ok hs with ⟨-, -, rfl⟩ | ⟨-, -, rfl⟩ | ⟨-, -, c, p, hp, rfl⟩
      · exact .quiet (.goto rfl rfl rfl fun _ hc _ => hc) (not_batch hat nofun) fun hr => hr
      · exact .undo hat.2.1 rfl rfl rfl rfl rfl rfl
      · refine .quiet (.goto rfl rfl ?_ fun _ hc _ => hc) (not_batch hat nofun) fun hr => hr
        rcases hp with rfl | rfl
        · rfl
        · rfl
  | @initOp lp op ops expired hat hs =>
      have hops : s.opsLeft = op :: ops := by
        unfold opsLeft
        rw [hat.2.2]
      refine .quiet (.handlerOp (hops ▸ List.mem_cons_self) (fun o ho => ?_) hs)
        (not_batch hat nofun) fun hr => ?_
      · rw [hops]
        exact List.mem_cons_of_mem op ho
      · exact (Flow.handlerOp hs).2.trans hr
  | initReturn hat _ hs =>
      subst hs
      exact .quiet (.goto rfl rfl rfl fun _ hc _ => hc) (not_batch hat nofun) fun hr => hr
  | whiteLoop hat hs =>
      subst hs
      exact .quiet (.goto rfl rfl rfl fun _ hc _ => hc) (not_batch hat nofun) fun hr => hr
  | @reduce r o hat hs =>
      subst hs
      refine .quiet (.reduceDone s r o) (not_batch hat nofun) fun hr => ?_
      exact (Flow.reduceDone s r o).2.trans hr
  | reduced hat hs =>
      refine .quiet (.afterReduction hs) (not_batch hat nofun)
        (Calm.afterReduction (Holding.outside_of_at hat nofun) hs).rollback.mpr
  | gvtStore hat hs =>
      obtain ⟨-, n, rfl⟩ := gvtStore_ok hs
      refine .quiet (.goto rfl rfl ?_ fun _ hc _ => hc) (not_batch hat nofun) fun hr => hr
      unfold opsLeft
      dsimp only
      split
      next hp => split at hp <;> cases hp
      next hp => split at hp <;> cases hp
      · rfl
  | fossil hat hs =>
      refine .quiet (.fossilStep hs) (not_batch hat nofun) fun hr => ?_
      rcases fossilStep_ok hs with ⟨c, cs, -, ⟨-, rfl⟩ | ⟨-, rfl⟩⟩ | ⟨-, e, -, hcommit⟩ |
        ⟨-, -, -, rfl⟩ | ⟨-, -, -, rfl⟩
      · exact hr
      · exact hr
      · rcases commitEvent_ok hcommit with ⟨-, rfl⟩ | ⟨-, -, c, -, rfl⟩
        · exact hr
        · exact hr
      · exact hr
      · exact hr
  | hook hat hs =>
      exact .quiet (.hookStep hs) (not_batch hat nofun)
        (Calm.hookStep (Holding.outside_of_at hat nofun) hs).rollback.mpr

/-- A step gives out names, and takes none back. -/
theorem Plays.names (h : Plays m s s') : s.nextUid ≤ s'.nextUid := by
  cases h with
  | quiet hq _ _ => exact hq.names
  | init _ _ _ hs =>
      rw [hs]
      rfl
  | @start kind left cev _ _ hs =>
      rw [hs]
      unfold runEvent
      dsimp only
      split
      · rfl
      · rfl
  | @undo t e after _ hs _ _ hn _ _ =>
      obtain ⟨l, cv, msg, trigger, hu⟩ := twEventRollback_frame m t e after
      rw [hs, hu, ← hn]

end Steps

end Pe

end Ross

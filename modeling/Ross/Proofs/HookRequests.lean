import Ross.Lib.RequestLedger
import Ross.Proofs.GvtTurns
import Ross.Proofs.NetEvents

/-!
# Hook requests of the model

In the mode of `tw_trigger_gvt_hook_when_model_calls` one signature per PE stands for all
requests its LPs made.  The requests are kept here beside the PEs of a run: a call of
`tw_trigger_gvt_hook_now` adds one, the calls of `tw_trigger_gvt_hook_now_rev` by the reverse
handler of an event take back those of its handler, and a hook invocation serves those that GVT
has reached.
-/

namespace Ross

open StagedProgram Transition

variable {T S M R : Type} [TwStime T] {m : SimModel T S M R}

/-- The hook may call `tw_trigger_gvt_hook_when_model_calls` again, but no call that ends this
mode. -/
def Input.keepsMode : Input T M → Bool
  | .hookAt _ => false
  | .hookEvery _ => false
  | _ => true

/-! ## Requests -/

/-- What a step of a PE does to the requests made on it. -/
inductive HookAct (T : Type)
  | none
  | request (sig : TwEventSig T)
  | revoke (sig : TwEventSig T) (n : Nat)
  | serve (gvt : TwEventSig T)
  | reset

namespace Pe

variable (m : SimModel T S M R)

/-- How often the reverse handler of `event` calls `tw_trigger_gvt_hook_now_rev`; the events of a
suspended LP are undone without it. -/
def revokes (s : Pe T S M R) (event : TwEvent T) : Nat :=
  let lp := s.lp event.destLp
  let n := (m.revent event.destLp event.sig.recvTs lp.curState (s.ev event).cv
    (s.ev event).msg).hookRev
  if lp.suspendFlag ∧ lp.suspendEvent = some event ∧
      twEventSigComparePtr lp.suspendSig event.sig = 0 then
    if lp.suspendDoOrigEventRc then n else 0
  else if lp.suspendFlag then 0 else n

/-- The request that a rollback takes back when it starts in a step to `s'`. -/
def undoneAct (s s' : Pe T S M R) : HookAct T :=
  match s'.rollback with
  | some r => .revoke (r.event.sig.extend 0) (s.revokes m r.event)
  | none => .none

/-- What a step to `s'` on the input `i` does to the requests, by the function the PE is inside
of. -/
def actIn (s s' : Pe T S M R) (i : Input T M) : Phase T M → HookAct T
  | .handler _ _ lp (.triggerGvtHookNow :: _) =>
      .request ((s.lastSig (m.kpOf lp)).extend 0)
  | .lpInit lp (.triggerGvtHookNow :: _) => .request ((s.lastSig (m.kpOf lp)).extend 0)
  | .reduced _ _ =>
      match s'.phase with
      | .inHook => .serve s'.gvtSig
      | _ => .none
  | .inHook =>
      match i with
      | .hookWhenModelCalls => .reset
      | _ => .none
  | _ => s.undoneAct m s'

/-- What a step to `s'` on the input `i` does to the requests; the network loop and a rollback in
progress do nothing. -/
def hookAct (s s' : Pe T S M R) (i : Input T M) : HookAct T :=
  if s.net = .off ∧ s.rollback.isNone then s.actIn m s' i s.phase else .none

end Pe

/-- The arrival of a message does nothing to the requests. -/
theorem Pe.hookAct_recv {s s' : Pe T S M R} {src : Nat} {w : WireMsg T M}
    (hs : s.step m (.recv src w) = .ok s') : s.hookAct m s' (.recv src w) = .none := by
  unfold hookAct
  refine if_neg fun hoff => ?_
  cases step_turn hs with
  | recv hn hp hs => cases hn.symm.trans hoff.1
  | hook hat hs => cases hs

namespace HookAct

/-- The requests after a step. -/
def note (l : RequestLedger (TwEventSig T)) : HookAct T → RequestLedger (TwEventSig T)
  | .none => l
  | .request sig => l.request sig
  | .revoke sig n => .revokeMany sig n l
  | .serve gvt => l.serve gvt
  | .reset => l

/-- The hook can be called at this signature: it is before the end of time, and `find_min_sig`
takes it. -/
def Servable (m : SimModel T S M R) (sig : TwEventSig T) : Prop :=
  sig.recvTs < m.tsEnd ∧ (1 < m.npe → sig.tieLineageLength < maxTieChain)

/-- A request is not made above a pending one of its PE, and the hook can be called at it; when
requests are taken back or the hook is called no other one of the PE is left. -/
def Ok (m : SimModel T S M R) (s : Pe T S M R) (l : RequestLedger (TwEventSig T)) :
    HookAct T → Prop
  | .none => True
  | .request sig => sig ≤ s.trigger.sigAt ∧ Servable m sig
  | .revoke sig n => n ≠ 0 → ∀ x ∈ (RequestLedger.revokeMany sig n l).pending, maxSig ≤ x
  | .serve _ => ∀ x ∈ l.pending, s.gvtSig < x → maxSig ≤ x
  | .reset => ∀ x ∈ l.pending, maxSig ≤ x

end HookAct

/-! ## The way from a GVT computation to the hook -/

/-- The parts of a PE's program: before its scheduler, between the calls that lead to the hook,
before a GVT computation that `tw_gvt_hook_step` follows, and before that call itself. -/
inductive HookStage
  | starting
  | clear
  | computing
  | due

namespace HookStage

def next : HookStage → Call T → Option HookStage
  | .starting, .initLp _ => some .starting
  | .starting, .preRunLp _ => some .starting
  | .starting, .netRead => some .starting
  | .starting, .schedulerOptimistic => some .clear
  | .starting, .schedulerOptimisticRealtime => some .clear
  | .computing, .gvtStep2 => some .due
  | .due, .gvtHookStep => some .clear
  | .clear, .initLp _ => none
  | .clear, .preRunLp _ => none
  | .clear, .gvtHookStep => none
  | .clear, _ => some .clear
  | _, _ => none

/-- What is known before the next call of the program. -/
def Holds (s : Pe T S M R) : HookStage → Prop
  | .starting => s.gvtSig = zeroSig ∧ ∀ k, s.lastSig k = zeroSig
  | .clear => True
  | .computing => s.gvtCompute = true
  | .due => s.gvtSig ≤ s.trigger.sigAt

/-- The stages while GVT is computed. -/
def Waits (st : HookStage) : Prop := st = .clear ∨ st = .due

/-- What is known inside of a function, where `st` is the stage of the calls after it. -/
def Fits (s : Pe T S M R) (st : HookStage) : Phase T M → Prop
  | .idle => st.Holds s
  | .lpInit _ _ => st = .starting ∧ HookStage.starting.Holds s
  | .whiteLoop => st.Waits
  | .reduce .white => st.Waits
  | .reduce .lvt => st.Waits
  | .reduce .hookAll => False
  | .reduce .hookAny => st = .clear ∧ s.gvtSig ≤ s.trigger.sigAt
  | .reduced .hookAll _ => False
  | .reduced .hookAny _ => st = .clear ∧ s.gvtSig ≤ s.trigger.sigAt
  | .gvtStore gvt => st.Waits ∧ min gvt maxSig ≤ s.trigger.sigAt
  | .fossilCollect _ _ => st.Waits ∧ s.gvtSig ≤ s.trigger.sigAt
  | _ => st = .clear

omit [TwStime T] in
/-- `tw_net_read` stands between the calls of a program wherever it keeps the stage. -/
theorem next_readCall (m : SimModel T S M R) {st : HookStage}
    (hst : st.next (.netRead : Call T) = some st) : ∀ d ∈ Pe.readCall m, st.next d = some st := by
  intro d hd
  rw [Pe.eq_netRead_of_mem hd]
  exact hst

end HookStage

/-- The hook is in the mode of `tw_trigger_gvt_hook_when_model_calls`, and from the end of a GVT
computation to the hook GVT is not past the trigger. -/
structure HookCourse (s : Pe T S M R) : Prop where
  mode : s.trigger.status = .modelCall
  stage : ∃ st, Admits HookStage.next st s.todo ∧ HookStage.Fits s st s.phase

namespace HookCourse

variable {s s' : Pe T S M R}

/-- What is known inside of the function `p`. -/
theorem fits {p : Phase T M} (h : HookCourse s) (hat : s.At p) :
    ∃ st, Admits HookStage.next st s.todo ∧ HookStage.Fits s st p := by
  obtain ⟨st, ha, hf⟩ := h.stage
  exact ⟨st, ha, hat.2.2 ▸ hf⟩

/-- The program after a function that is not part of the way to the hook. -/
theorem clear {p : Phase T M} (h : HookCourse s) (hat : s.At p)
    (hp : ∀ st, HookStage.Fits s st p → st = .clear) : Admits HookStage.next .clear s.todo := by
  obtain ⟨st, ha, hf⟩ := h.fits hat
  exact hp st hf ▸ ha

/-- A step that leaves the function, GVT and the trigger as they are. -/
theorem keep (h : HookCourse s) (hp : s'.phase = s.phase) (ht : s'.todo = s.todo)
    (htrigger : s'.trigger = s.trigger) (hgvt : s'.gvtSig = s.gvtSig)
    (hlast : s'.lastSig = s.lastSig) (hcompute : s'.gvtCompute = s.gvtCompute) :
    HookCourse s' := by
  obtain ⟨st, ha, hf⟩ := h.stage
  refine ⟨htrigger ▸ h.mode, st, ht ▸ ha, ?_⟩
  have hholds : ∀ st : HookStage, st.Holds s → st.Holds s' := by
    intro st hst
    cases st with
    | starting => exact ⟨hgvt.trans hst.1, fun k => hlast ▸ hst.2 k⟩
    | clear => trivial
    | computing => exact hcompute.trans hst
    | due =>
        show s'.gvtSig ≤ s'.trigger.sigAt
        rw [hgvt, htrigger]
        exact hst
  rw [hp]
  cases hphase : s.phase with
  | idle =>
      rw [hphase] at hf
      exact hholds st hf
  | lpInit lp ops =>
      rw [hphase] at hf
      exact ⟨hf.1, hholds .starting hf.2⟩
  | reduce r =>
      rw [hphase] at hf
      cases r with
      | hookAny => exact ⟨hf.1, by rw [hgvt, htrigger]; exact hf.2⟩
      | _ => exact hf
  | reduced r b =>
      rw [hphase] at hf
      cases r with
      | hookAny => exact ⟨hf.1, by rw [hgvt, htrigger]; exact hf.2⟩
      | _ => exact hf
  | gvtStore gvt =>
      rw [hphase] at hf
      exact ⟨hf.1, by rw [htrigger]; exact hf.2⟩
  | fossilCollect kp children =>
      rw [hphase] at hf
      exact ⟨hf.1, by rw [hgvt, htrigger]; exact hf.2⟩
  | _ =>
      rw [hphase] at hf
      exact hf

/-- A step to a function that is not part of the way to the hook. -/
theorem leave {p : Phase T M} (h : HookCourse s) (hat : s.At p)
    (hp : ∀ st, HookStage.Fits s st p → st = .clear) (ht : s'.todo = s.todo)
    (hmode : s'.trigger.status = s.trigger.status)
    (hp' : HookStage.Fits s' .clear s'.phase) : HookCourse s' :=
  ⟨hmode.trans h.mode, .clear, ht ▸ h.clear hat hp, hp'⟩

/-! ## Rollbacks -/

/-- A function that is not part of the way to the hook is gone on with. -/
theorem stay {p : Phase T M} (h : HookCourse s) (hat : s.At p)
    (hp : ∀ (t : Pe T S M R) st, HookStage.Fits t st p ↔ st = .clear) (ht : s'.todo = s.todo)
    (hmode : s'.trigger.status = s.trigger.status) (hphase : s'.phase = s.phase) :
    HookCourse s' := by
  refine h.leave hat (fun st => (hp s st).mp) ht hmode ?_
  rw [hphase, hat.2.2]
  exact (hp s' .clear).mpr rfl

/-- The reverse handler leaves the mode of the hook. -/
theorem twEventRollback {p : Phase T M} {t : Pe T S M R} (h : HookCourse s) (hat : s.At p)
    (hp : ∀ (t : Pe T S M R) st, HookStage.Fits t st p ↔ st = .clear) (ht : t.todo = s.todo)
    (htrigger : t.trigger = s.trigger) (hphase : t.phase = s.phase) (e : TwEvent T)
    (after : RollbackAfter) : HookCourse (t.twEventRollback m e after) := by
  have hstatus : (t.twEventRollback m e after).trigger.status = t.trigger.status := by
    rcases t.twEventRollback_trigger (m := m) e after with heq | heq
    · rw [heq]
    · rw [heq]
  obtain ⟨l, cv, msg, g, hs⟩ := Pe.twEventRollback_frame m t e after
  rw [hs] at hstatus ⊢
  exact h.stay hat hp ht (hstatus.trans (congrArg _ htrigger)) hphase

theorem kpRollbackToSig {p : Phase T M} {kp : Nat} {toSig : TwEventSig T} (h : HookCourse s)
    (hat : s.At p) (hp : ∀ (t : Pe T S M R) st, HookStage.Fits t st p ↔ st = .clear)
    (hs : s.kpRollbackToSig m kp toSig = some s') : HookCourse s' := by
  obtain ⟨e, rest, -, -, rfl⟩ := Pe.kpRollbackToSig_some hs
  exact h.twEventRollback hat hp (by rfl) (by rfl) (by rfl) e _

theorem kpRollbackEvent {event : TwEvent T} (h : HookCourse s)
    (hat : s.At (.cancelQRollback event)) (hs : s.kpRollbackEvent m event = .ok s') :
    HookCourse s' := by
  obtain ⟨e, rest, -, ⟨-, rfl⟩ | ⟨-, hd, tl, -, rfl⟩⟩ := Pe.kpRollbackEvent_ok hs
  · exact h.twEventRollback hat (fun _ _ => Iff.rfl) (by rfl) (by rfl) (by rfl) e _
  · exact h.twEventRollback hat (fun _ _ => Iff.rfl) (by rfl) (by rfl) (by rfl) e _

/-- The functions in which an event is rolled back are not part of the way to the hook. -/
theorem clear_of_undoes (h : HookCourse s) (hundo : s.phase.undoes = true) :
    Admits HookStage.next .clear s.todo ∧
      ∀ t : Pe T S M R, HookStage.Fits t .clear s.phase := by
  obtain ⟨st, ha, hf⟩ := h.stage
  cases hp : s.phase with
  | eventQRollback =>
      rw [hp] at hf
      exact ⟨(hf : st = .clear) ▸ ha, fun _ => rfl⟩
  | cancelQRollback target =>
      rw [hp] at hf
      exact ⟨(hf : st = .clear) ▸ ha, fun _ => rfl⟩
  | rollbackToSig kp toSig =>
      rw [hp] at hf
      exact ⟨(hf : st = .clear) ▸ ha, fun _ => rfl⟩
  | handler kind left lp ops =>
      rw [hp] at hf
      exact ⟨(hf : st = .clear) ▸ ha, fun _ => rfl⟩
  | _ =>
      rw [hp] at hundo
      cases hundo

theorem rollbackStep {r : Rollback T} (h : HookCourse s)
    (hundo : s.rollback ≠ none → s.phase.undoes = true) (hr : s.rollback = some r)
    (hs : s.rollbackStep m r = .ok s') : HookCourse s' := by
  obtain ⟨ha, hf⟩ := h.clear_of_undoes (hundo (by rw [hr]; exact Option.some_ne_none r))
  unfold Pe.rollbackStep at hs
  split at hs
  next e rest hc =>
    obtain ⟨_, _, _, _, _, _, _, _, -, -, -, rfl⟩ := Pe.rollbackChild_frame hs
    exact h.keep rfl rfl rfl rfl rfl rfl
  · cases hs
    rw [Pe.afterRollback_eq]
    cases r.after with
    | requeueReset => exact ⟨h.mode, .clear, ha, hf _⟩
    | requeue => exact ⟨h.mode, .clear, ha, hf _⟩
    | freeReset => exact ⟨h.mode, .clear, ha, rfl⟩
    | abort kind => exact ⟨h.mode, .clear, ha, trivial⟩

/-! ## The schedulers -/

theorem schedEventQ (h : HookCourse s) (hat : s.At .eventQ) (hs : s.schedEventQ m = .ok s') :
    HookCourse s' := by
  have hp : ∀ st, HookStage.Fits s st .eventQ → st = .clear := fun _ hst => hst
  rcases Pe.schedEventQ_ok hs with
    ⟨cev, rest, -, ⟨-, rfl⟩ | ⟨-, -, ⟨-, rfl⟩ | ⟨-, rfl⟩⟩⟩ | ⟨-, -, rfl⟩ | ⟨-, -, rfl⟩
  · exact h.keep rfl rfl rfl rfl rfl rfl
  · exact h.leave hat hp rfl rfl rfl
  · exact h.keep rfl rfl rfl rfl rfl rfl
  · exact h.leave hat hp rfl rfl trivial
  · exact h.keep rfl rfl rfl rfl rfl rfl

theorem schedStraggler (h : HookCourse s) (hat : s.At .eventQRollback)
    (hs : s.schedStraggler m = .ok s') : HookCourse s' := by
  obtain ⟨cev, rest, -, hs | ⟨-, rfl⟩⟩ := Pe.schedStraggler_ok hs
  · exact h.kpRollbackToSig hat (fun _ _ => Iff.rfl) hs
  · exact h.leave hat (fun _ hst => hst) rfl rfl rfl

theorem schedCancelQ (h : HookCourse s) (hat : s.At .cancelQ) (hs : s.schedCancelQ = .ok s') :
    HookCourse s' := by
  have hp : ∀ st, HookStage.Fits s st .cancelQ → st = .clear := fun _ hst => hst
  rcases Pe.schedCancelQ_ok hs with
    ⟨cev, rest, -, -, ⟨q, -, rfl⟩ | ⟨-, rfl⟩⟩ | ⟨-, -, rfl⟩ | ⟨-, -, rfl⟩
  · exact h.keep rfl rfl rfl rfl rfl rfl
  · exact h.leave hat hp rfl rfl rfl
  · exact h.leave hat hp rfl rfl trivial
  · exact h.keep rfl rfl rfl rfl rfl rfl

theorem batchStep {kind : BatchKind} {left : Nat} (h : HookCourse s)
    (hat : s.At (.batch kind left)) (hs : s.batchStep m kind left = .ok s') : HookCourse s' := by
  have hp : ∀ st, HookStage.Fits s st (.batch kind left) → st = .clear := fun _ hst => hst
  rcases Pe.batchStep_ok hs with ⟨c, n, rfl⟩ | ⟨cev, -, -, -, -, rfl⟩
  · exact h.leave hat hp rfl rfl trivial
  · obtain ⟨l, cv, msg, ops, hrun⟩ :=
      Pe.runEvent_frame (m := m) (s.dequeued m cev) kind (left - 1) cev
    rw [hrun]
    exact h.leave hat hp rfl rfl rfl

theorem handlerReturn {kind : BatchKind} {left lp : Nat} {cev : TwEvent T} {expired : Bool}
    (h : HookCourse s) (hat : s.At (.handler kind left lp []))
    (hs : s.handlerReturn m kind left cev expired = .ok s') : HookCourse s' := by
  have hp : ∀ st, HookStage.Fits s st (.handler kind left lp []) → st = .clear := fun _ hst => hst
  rcases Pe.handlerReturn_ok hs with ⟨-, -, rfl⟩ | ⟨-, -, rfl⟩ | ⟨-, -, c, p, hphase, rfl⟩
  · exact h.leave hat hp rfl rfl rfl
  · exact h.twEventRollback hat (fun _ _ => Iff.rfl) (by rfl) (by rfl) (by rfl) cev _
  · refine h.leave hat hp rfl rfl ?_
    rcases hphase with rfl | rfl
    · trivial
    · rfl

/-- A call of a handler into the kernel leaves the mode of the hook. -/
theorem calls_mode {lp : Nat} {op : HandlerOp T M} {t : Pe T S M R} (h : HookCourse s)
    (ht : t.trigger = s.trigger) (hc : t.Calls m s' lp op) :
    s'.trigger.status = .modelCall := by
  rcases hc.trigger with heq | ⟨-, heq⟩
  · rw [heq, ht]
    exact h.mode
  · rw [heq, ht]
    exact h.mode

theorem handlerOp {kind : BatchKind} {left lp : Nat} {op : HandlerOp T M}
    {ops : List (HandlerOp T M)} (h : HookCourse s)
    (hat : s.At (.handler kind left lp (op :: ops)))
    (hs : ({ s with phase := .handler kind left lp ops } : Pe T S M R).handlerOp m lp op =
      .ok s') : HookCourse s' := by
  have hc := Pe.handlerOp_calls hs
  refine ⟨h.calls_mode (by rfl) hc, .clear, hc.todo ▸ h.clear hat fun _ hst => hst, ?_⟩
  rw [hc.phase]
  exact rfl

theorem initOp {lp : Nat} {op : HandlerOp T M} {ops : List (HandlerOp T M)} (h : HookCourse s)
    (hat : s.At (.lpInit lp (op :: ops)))
    (hs : ({ s with phase := .lpInit lp ops } : Pe T S M R).handlerOp m lp op = .ok s') :
    HookCourse s' := by
  have hc := Pe.handlerOp_calls hs
  obtain ⟨st, ha, hst, hgvt, hlast⟩ := h.fits hat
  refine ⟨h.calls_mode (by rfl) hc, st, hc.todo ▸ ha, ?_⟩
  rw [hc.phase]
  exact ⟨hst, hc.gvtSig.trans hgvt, fun k => (congrFun hc.lastSig k).trans (hlast k)⟩

/-! ## GVT and the hook -/

theorem fossilStep {kp : Nat} {children : List (TwEvent T)} (h : HookCourse s)
    (hat : s.At (.fossilCollect kp children)) (hs : s.fossilStep m kp children = .ok s') :
    HookCourse s' := by
  obtain ⟨st, ha, hst, hle⟩ := h.fits hat
  rcases Pe.fossilStep_ok hs with
    ⟨c, cs, -, ⟨-, rfl⟩ | ⟨-, rfl⟩⟩ | ⟨-, e, -, hs⟩ | ⟨-, -, -, rfl⟩ | ⟨-, -, -, rfl⟩
  · exact ⟨h.mode, st, ha, hst, hle⟩
  · exact ⟨h.mode, st, ha, hst, hle⟩
  · rcases Pe.commitEvent_ok hs with ⟨-, rfl⟩ | ⟨-, -, c, -, rfl⟩
    · exact ⟨h.mode, st, ha, hst, hle⟩
    · exact ⟨h.mode, st, ha, hst, hle⟩
  · exact ⟨h.mode, st, ha, hst, hle⟩
  · refine ⟨h.mode, st, ha, ?_⟩
    rcases hst with rfl | rfl
    · trivial
    · exact hle

theorem gvtStore {gvt : TwEventSig T} (h : HookCourse s)
    (hm : m.synch = .optimistic ∨ m.synch = .optimisticRealtime) (hat : s.At (.gvtStore gvt))
    (hs : s.gvtStore m gvt = .ok s') : HookCourse s' := by
  obtain ⟨st, ha, hst, hle⟩ := h.fits hat
  obtain ⟨-, n, rfl⟩ := Pe.gvtStore_ok hs
  refine ⟨h.mode, st, ha, ?_⟩
  dsimp only
  rw [if_pos hm]
  exact ⟨hst, hle⟩

/-- The hook is called with the trigger already reset. -/
theorem callHook (hmode : s.trigger.status = .modelCall)
    (ha : Admits HookStage.next .clear s.todo) (hs : s.callHook m = .ok s') : HookCourse s' := by
  rcases Pe.callHook_ok hs with rfl | ⟨-, -, rfl⟩
  · exact ⟨hmode, .clear, ha, rfl⟩
  · exact ⟨hmode, .clear, ha, rfl⟩

theorem afterReduction {r : Reduction} {flag : Bool} (h : HookCourse s)
    (hat : s.At (.reduced r flag)) (hs : s.afterReduction m r flag = .ok s') : HookCourse s' := by
  obtain ⟨st, ha, hf⟩ := h.fits hat
  cases r with
  | white => cases hs
  | lvt => cases hs
  | hookAll => exact hf.elim
  | hookAny =>
      obtain ⟨rfl, -⟩ := hf
      cases flag with
      | true =>
          exact callHook (s := { s with trigger := { s.trigger with sigAt := maxSig } })
            h.mode ha hs
      | false =>
          cases hs
          exact ⟨h.mode, .clear, ha, trivial⟩
  | cleanupCancel =>
      have hst : st = .clear := hf
      subst hst
      cases flag with
      | true =>
          cases hs
          exact ⟨h.mode, .clear, ha.cons rfl, trivial⟩
      | false =>
          cases hs
          exact ⟨h.mode, .clear, ha, rfl⟩
  | cleanupEvent =>
      have hst : st = .clear := hf
      subst hst
      cases flag with
      | true =>
          cases hs
          exact ⟨h.mode, .clear, ha.cons rfl, trivial⟩
      | false =>
          cases hs
          exact ⟨h.mode, .clear, ha, trivial⟩

theorem gvtHookStep (hmode : s.trigger.status = .modelCall)
    (ha : Admits HookStage.next .clear s.todo) (hle : s.gvtSig ≤ s.trigger.sigAt)
    (hp : s.phase = .idle) (hs : s.gvtHookStep m = .ok s') : HookCourse s' := by
  unfold Pe.gvtHookStep at hs
  split at hs
  · rw [hmode] at hs
    cases hs
    exact ⟨hmode, .clear, ha, rfl, hle⟩
  · cases hs
    refine ⟨hmode, .clear, ha, ?_⟩
    rw [hp]
    trivial

/-! ## Calls -/

section Calls

variable {c : Call T} {rest : List (Call T)}

/-- The calls `more` stand before the rest of the program. -/
theorem goOn (h : HookCourse s) (ha : Admits HookStage.next .clear rest) (more : List (Call T))
    (hmore : ∀ d ∈ more, HookStage.clear.next d = some .clear) (hp : s.phase = .idle) :
    HookCourse { s with todo := more ++ rest } := by
  refine ⟨h.mode, .clear, ha.append_of_keep hmore, ?_⟩
  rw [hp]
  trivial

/-- The turn of a scheduler. -/
theorem schedulerTurn (h : HookCourse s) (hp : s.phase = .idle)
    (ha : Admits HookStage.next .clear rest) {calls : List (Call T)}
    (hcalls : ∀ d ∈ calls, HookStage.clear.next d = some .clear) :
    HookCourse { s with todo := Pe.readCall m ++ calls ++ rest } := by
  refine h.goOn ha (Pe.readCall m ++ calls) (fun d hd => ?_) hp
  rcases List.mem_append.mp hd with hd | hd
  · exact HookStage.next_readCall m rfl d hd
  · exact hcalls d hd

theorem schedulerTail (h : HookCourse s) (hp : s.phase = .idle)
    (ha : Admits HookStage.next .clear rest) {batch scheduler : Call T}
    (hcalls : ∀ d ∈ [batch, scheduler], HookStage.clear.next d = some .clear) :
    HookCourse (if m.tsEnd < s.gvtSig.recvTs then { s with todo := rest }
      else { s with todo := [batch, scheduler] ++ rest }) := by
  split
  · exact h.goOn ha [] (fun _ hd => absurd hd List.not_mem_nil) hp
  · exact h.goOn ha _ hcalls hp

theorem call {expired : Bool} (h : HookCourse s) (hat : s.At .idle) (ht : s.todo = c :: rest)
    (hs : { s with todo := rest }.call m expired c = .ok s') : HookCourse s' := by
  have hp : s.phase = .idle := hat.2.2
  obtain ⟨st, hall, hst⟩ := h.fits hat
  rw [ht] at hall
  obtain ⟨st', hnext, ha⟩ := admits_cons.mp hall
  cases c with
  | initLp lp =>
      cases hs
      cases st <;> cases hnext
      exact ⟨h.mode, .starting, ha, rfl, hst⟩
  | preRunLp lp =>
      cases hs
      cases st <;> cases hnext
      exact ⟨h.mode, .starting, ha, rfl, hst⟩
  | netRead =>
      cases hs
      refine ⟨h.mode, st', ha, ?_⟩
      show HookStage.Fits _ st' s.phase
      rw [hp]
      cases st <;> cases hnext
      · exact hst
      · trivial
  | gvtStep1 =>
      cases hs
      cases st <;> cases hnext
      obtain ⟨n, b, heq, -⟩ := Pe.gvtStep1_frame (m := m) { s with todo := rest }
      rw [heq]
      refine ⟨h.mode, .clear, ha, ?_⟩
      rw [hp]
      trivial
  | gvtStep1Realtime =>
      cases hs
      cases st <;> cases hnext
      obtain ⟨n, b, heq, -⟩ := Pe.gvtStep1Realtime_frame (m := m) { s with todo := rest } expired
      rw [heq]
      refine ⟨h.mode, .clear, ha, ?_⟩
      rw [hp]
      trivial
  | schedEventQ =>
      cases hs
      cases st <;> cases hnext
      exact ⟨h.mode, .clear, ha, rfl⟩
  | schedCancelQ =>
      cases hs
      cases st <;> cases hnext
      exact ⟨h.mode, .clear, ha, rfl⟩
  | gvtStep2 =>
      cases hs
      cases st <;> cases hnext
      · split
        · exact ⟨h.mode, .clear, ha, .inl rfl⟩
        · refine ⟨h.mode, .clear, ha, ?_⟩
          rw [hp]
          trivial
      · have hcompute : s.gvtCompute = true := hst
        dsimp only
        rw [if_pos hcompute]
        exact ⟨h.mode, .due, ha, .inr rfl⟩
  | gvtStep2AndHook =>
      cases hs
      cases st <;> cases hnext
      dsimp only
      split
      next hcompute =>
        refine ⟨h.mode, .computing, .cons rfl (.cons rfl ha), ?_⟩
        rw [hp]
        exact hcompute
      · exact h.goOn ha [.gvtStep2] (by simp [HookStage.next]) hp
  | gvtHookStep =>
      cases st <;> cases hnext
      exact gvtHookStep (s := { s with todo := rest }) h.mode ha hst hp hs
  | schedBatch =>
      cases hs
      cases st <;> cases hnext
      exact ⟨h.mode, .clear, ha, rfl⟩
  | schedBatchRealtime =>
      cases hs
      cases st <;> cases hnext
      exact ⟨h.mode, .clear, ha, rfl⟩
  | conservativeBatch =>
      cases hs
      cases st <;> cases hnext
      exact ⟨h.mode, .clear, ha, rfl⟩
  | kpRollbackToSig kp toSig =>
      cases hs
      cases st <;> cases hnext
      exact ⟨h.mode, .clear, ha, rfl⟩
  | rollbackAndCancelEventsPe =>
      cases hs
      cases st <;> cases hnext
      refine h.goOn (ha.cons rfl) ((List.range m.nkp).map (.kpRollbackToSig · s.gvtSig))
        (fun d hd => ?_) hp
      obtain ⟨k, -, rfl⟩ := List.mem_map.mp hd
      rfl
  | cleanupLoop =>
      cases hs
      cases st <;> cases hnext
      exact h.schedulerTurn hp ha (by simp [HookStage.next])
  | gvtStatusOn =>
      cases hs
      cases st <;> cases hnext
      refine ⟨h.mode, .clear, ha, ?_⟩
      rw [hp]
      trivial
  | cleanupTest =>
      cases hs
      cases st <;> cases hnext
      exact ⟨h.mode, .clear, ha, rfl⟩
  | hookReturn =>
      cases hs
      cases st <;> cases hnext
      exact ⟨h.mode, .clear, ha, rfl⟩
  | schedulerOptimistic =>
      cases hs
      cases st <;> cases hnext
      · exact h.schedulerTurn hp ha (by simp [HookStage.next])
      · exact h.schedulerTurn hp ha (by simp [HookStage.next])
  | optimisticTail =>
      cases hs
      cases st <;> cases hnext
      exact h.schedulerTail hp ha (by simp [HookStage.next])
  | schedulerOptimisticRealtime =>
      cases hs
      cases st <;> cases hnext
      · exact h.schedulerTurn hp ha (by simp [HookStage.next])
      · exact h.schedulerTurn hp ha (by simp [HookStage.next])
  | optimisticRealtimeTail =>
      cases hs
      cases st <;> cases hnext
      exact h.schedulerTail hp ha (by simp [HookStage.next])
  | schedulerConservative =>
      cases hs
      cases st <;> cases hnext
      exact h.schedulerTurn hp ha (by simp [HookStage.next])
  | conservativeTail =>
      cases hs
      cases st <;> cases hnext
      exact h.schedulerTail hp ha (by simp [HookStage.next])

end Calls

/-! ## Runs -/

theorem start (hm : m.synch = .optimistic ∨ m.synch = .optimisticRealtime)
    (hmode : m.trigger0.status = .modelCall) (i : Nat) :
    HookCourse (Pe.start m i (Pe.program m i)) := by
  refine ⟨hmode, .starting, ?_, rfl, fun _ => rfl⟩
  have hscheduler : Admits HookStage.next .starting [Pe.schedulerCall m] := by
    unfold Pe.schedulerCall
    rcases hm with hm | hm
    · rw [hm]
      exact .cons rfl trivial
    · rw [hm]
      exact .cons rfl trivial
  show Admits HookStage.next .starting (Pe.program m i)
  unfold Pe.program
  rw [List.append_assoc]
  refine Admits.append_of_keep (fun c hc => ?_) (hscheduler.append_of_keep
    (HookStage.next_readCall m rfl))
  rcases List.mem_append.mp hc with hc | hc
  · obtain ⟨lp, -, rfl⟩ := List.mem_map.mp hc
    rfl
  · obtain ⟨lp, -, rfl⟩ := List.mem_map.mp hc
    rfl

/-- A GVT hook that stays in the mode sets no other trigger. -/
theorem hookStep {i : Input T M} (h : HookCourse s) (hat : s.At .inHook)
    (hi : i.keepsMode = true) (hs : s.hookStep i = .ok s') : HookCourse s' := by
  have ha := h.clear hat fun _ hst => hst
  cases i with
  | hookAt sig => cases hi
  | hookEvery n => cases hi
  | hookWhenModelCalls =>
      cases hs
      refine ⟨rfl, .clear, ha, ?_⟩
      show HookStage.Fits _ .clear s.phase
      rw [hat.2.2]
      exact rfl
  | hookRollback =>
      cases hs
      exact ⟨h.mode, .clear, .cons rfl (.cons rfl ha), trivial⟩
  | hookReturn =>
      cases hs
      exact ⟨h.mode, .clear, ha, trivial⟩
  | _ => cases hs

/-- A step of a PE, other than its part in a reduction. -/
theorem step {i : Input T M} (h : HookCourse s)
    (hm : m.synch = .optimistic ∨ m.synch = .optimisticRealtime)
    (hundo : s.rollback ≠ none → s.phase.undoes = true) (hi : i.keepsMode = true)
    (hcall : ∀ c, i ≠ .call c) (hout : ∀ o, i ≠ .outcome o) (hturn : Pe.Turn m s s' i) :
    HookCourse s' := by
  cases hturn with
  | recv hn hp hs =>
      obtain ⟨-, ⟨-, c, -, rfl⟩ | ⟨-, -, ⟨-, -, rfl⟩ | ⟨-, rfl⟩⟩⟩ := Pe.recvFinish_ok hs
      · exact h.keep rfl rfl rfl rfl rfl rfl
      · exact h.keep rfl rfl rfl rfl rfl rfl
      · exact h.keep rfl rfl rfl rfl rfl rfl
  | testRecvs hn hs =>
      subst hs
      exact h.keep rfl rfl rfl rfl rfl rfl
  | sent hn he hs =>
      rcases Pe.sendFinish_ok hs with ⟨-, -, rfl⟩ | ⟨-, -, -, rfl⟩ | ⟨-, -, -, rfl⟩ | ⟨-, rfl⟩
      · exact h.keep rfl rfl rfl rfl rfl rfl
      · exact h.keep rfl rfl rfl rfl rfl rfl
      · exact h.keep rfl rfl rfl rfl rfl rfl
      · exact h.keep rfl rfl rfl rfl rfl rfl
  | testSends hn hs =>
      subst hs
      exact h.keep rfl rfl rfl rfl rfl rfl
  | recvBegin hn hs =>
      rcases Pe.recvBegin_ok hs with rfl | ⟨-, -, rfl⟩
      · exact h.keep rfl rfl rfl rfl rfl rfl
      · exact h.keep rfl rfl rfl rfl rfl rfl
  | @sendBegin read changed expired hn hs =>
      rcases Pe.sendBegin_ok (m := m) s read changed with ⟨e, -, -, heq⟩ | ⟨-, heq⟩
      · rw [hs, heq]
        exact h.keep rfl rfl rfl rfl rfl rfl
      · rw [hs, heq]
        exact h.keep rfl rfl rfl rfl rfl rfl
  | rollback hn hr hs => exact h.rollbackStep hundo hr hs
  | call hat ht hs => exact h.call hat ht hs
  | outerCall hat ht hs => exact absurd rfl (hcall _)
  | eventQ hat hs => exact h.schedEventQ hat hs
  | eventQRollback hat hs => exact h.schedStraggler hat hs
  | cancelQ hat hs => exact h.schedCancelQ hat hs
  | cancelQRollback hat hs => exact h.kpRollbackEvent hat hs
  | rollbackToSig hat hs => exact h.kpRollbackToSig hat (fun _ _ => Iff.rfl) hs
  | rollbackToSigDone hat _ hs =>
      subst hs
      exact h.leave hat (fun _ hst => hst) rfl rfl trivial
  | batch hat hs => exact h.batchStep hat hs
  | handlerOp hat hs => exact h.handlerOp hat hs
  | handlerReturn hat hc hs => exact h.handlerReturn hat hs
  | initOp hat hs => exact h.initOp hat hs
  | initReturn hat _ hs =>
      subst hs
      obtain ⟨st, ha, rfl, hst⟩ := h.fits hat
      exact ⟨h.mode, .starting, ha, hst⟩
  | whiteLoop hat hs =>
      subst hs
      obtain ⟨st, ha, hst⟩ := h.fits hat
      exact ⟨h.mode, st, ha, hst⟩
  | reduce hat hs => exact absurd rfl (hout _)
  | reduced hat hs => exact h.afterReduction hat hs
  | gvtStore hat hs => exact h.gvtStore hm hat hs
  | fossil hat hs => exact h.fossilStep hat hs
  | hook hat hs => exact h.hookStep hat hi hs

/-- The PE's part in a reduction: GVT is not past its own contribution. -/
theorem reduceDone {r : Reduction} {o : Outcome T} (h : HookCourse s) (hat : s.At (.reduce r))
    (ho : ∀ gvt, o = .gvt gvt → r = .lvt ∧ gvt ≤ s.trigger.sigAt)
    (htotal : ∀ white, o = .total white → r = .white)
    (hflag : ∀ b, o = .flag b → r ≠ .white ∧ r ≠ .lvt) : HookCourse (s.reduceDone r o) := by
  obtain ⟨st, ha, hf⟩ := h.fits hat
  cases o with
  | total white =>
      cases htotal white rfl
      refine ⟨h.mode, st, ha, ?_⟩
      show HookStage.Fits _ st (if white = 0 then Phase.reduce .lvt else .whiteLoop)
      split
      · exact hf
      · exact hf
  | gvt gvt =>
      obtain ⟨rfl, hle⟩ := ho gvt rfl
      exact ⟨h.mode, st, ha, hf, (min_le_left _ _).trans hle⟩
  | flag b =>
      refine ⟨h.mode, st, ha, ?_⟩
      show HookStage.Fits _ st (.reduced r b)
      obtain ⟨hwhite, hlvt⟩ := hflag b rfl
      cases r with
      | white => exact absurd rfl hwhite
      | lvt => exact absurd rfl hlvt
      | hookAll => exact hf
      | hookAny => exact hf
      | cleanupCancel => exact hf
      | cleanupEvent => exact hf

end HookCourse

/-! ## What a step does to the trigger -/

/-- What a step leaves of the trigger and of GVT, by what it does to the requests. -/
inductive HookEffect (m : SimModel T S M R) (s s' : Pe T S M R) : HookAct T → Prop
  | none : s'.trigger.sigAt = s.trigger.sigAt →
      (s'.gvtSig = s.gvtSig ∨ s'.gvtSig ≤ s.trigger.sigAt) → HookEffect m s s' .none
  | request {sig : TwEventSig T} : s'.trigger.sigAt = sig → s'.gvtSig = s.gvtSig →
      (sig.recvTs < m.tsEnd → s.gvtSig.recvTs ≤ m.tsEnd) → HookEffect m s s' (.request sig)
  | revoke {sig : TwEventSig T} {n : Nat} :
      s'.trigger.sigAt = (if n = 0 then s.trigger.sigAt else maxSig) → s'.gvtSig = s.gvtSig →
      HookEffect m s s' (.revoke sig n)
  | serve : s'.trigger.sigAt = maxSig → s.gvtSig ≤ s.trigger.sigAt →
      (s'.gvtSig = s.gvtSig ∨ m.tsEnd ≤ s.gvtSig.recvTs) → HookEffect m s s' (.serve s'.gvtSig)
  | reset : s'.trigger.sigAt = maxSig → s'.gvtSig = s.gvtSig → HookEffect m s s' .reset

namespace Pe

/-- The reverse handler of an event resets the trigger when it takes a request back. -/
theorem unprocess_sigAt (s : Pe T S M R) {event : TwEvent T}
    (hnow : s.twNow m event.destLp = event.sig.recvTs) :
    (s.unprocess m event).trigger.sigAt =
      if s.revokes m event = 0 then s.trigger.sigAt else maxSig := by
  have hrun : ∀ t : Pe T S M R, t.trigger = s.trigger →
      ∀ n, (if n = 0 then t.trigger else { t.trigger with sigAt := maxSig }).sigAt =
        if n = 0 then s.trigger.sigAt else maxSig := by
    intro t ht n
    rw [ht]
    split <;> rfl
  unfold unprocess revokes
  dsimp only
  split
  · split
    · rw [runRevent_trigger, ← hnow]
      simp only [setLp, Function.update_self]
      exact hrun _ (by rfl) _
    · rfl
  · split
    · rfl
    · rw [runRevent_trigger, hnow]
      exact hrun s rfl _

theorem twEventRollback_sigAt (s : Pe T S M R) (event : TwEvent T) (after : RollbackAfter) :
    (s.twEventRollback m event after).trigger.sigAt =
      if s.revokes m event = 0 then s.trigger.sigAt else maxSig :=
  unprocess_sigAt (({ s with curEvent := some event } : Pe T S M R).setLastSig
    (m.kpOf event.destLp) event.sig) (congrArg TwEventSig.recvTs (Function.update_self ..))

end Pe

namespace HookEffect

variable {s s' : Pe T S M R}

/-- A step that starts no rollback. -/
theorem quiet (hr : s'.rollback = Option.none) (ht : s'.trigger = s.trigger)
    (hgvt : s'.gvtSig = s.gvtSig) : HookEffect m s s' (s.undoneAct m s') := by
  unfold Pe.undoneAct
  rw [hr]
  exact .none (congrArg _ ht) (.inl hgvt)

/-- A step that starts the rollback of an event. -/
theorem undo {t : Pe T S M R} (ht : t.trigger = s.trigger) (hgvt : t.gvtSig = s.gvtSig)
    (hlp : t.lp = s.lp) (hev : t.ev = s.ev) (e : TwEvent T) (after : RollbackAfter) :
    HookEffect m s (t.twEventRollback m e after)
      (s.undoneAct m (t.twEventRollback m e after)) := by
  have hrevokes : s.revokes m e = t.revokes m e := by
    unfold Pe.revokes
    rw [hlp, hev]
  have hsig : (t.twEventRollback m e after).trigger.sigAt =
      if s.revokes m e = 0 then s.trigger.sigAt else maxSig := by
    rw [hrevokes, ← ht]
    exact t.twEventRollback_sigAt e after
  obtain ⟨l, cv, msg, g, hs⟩ := Pe.twEventRollback_frame m t e after
  rw [hs] at hsig ⊢
  exact .revoke hsig hgvt

/-- A step outside of the functions of the PE's program. -/
theorem outside (h : s.net ≠ .off ∨ s.rollback ≠ Option.none) (ht : s'.trigger = s.trigger)
    (hgvt : s'.gvtSig = s.gvtSig) (i : Input T M) : HookEffect m s s' (s.hookAct m s' i) := by
  unfold Pe.hookAct
  rw [if_neg]
  · exact .none (congrArg _ ht) (.inl hgvt)
  · rintro ⟨hn, hr⟩
    rcases h with h | h
    · exact h hn
    · exact h (Option.isNone_iff_eq_none.mp hr)

/-- A step of the function `p`. -/
theorem inside {p : Phase T M} {i : Input T M} (hat : s.At p)
    (h : HookEffect m s s' (s.actIn m s' i p)) : HookEffect m s s' (s.hookAct m s' i) := by
  unfold Pe.hookAct
  rw [if_pos ⟨hat.1, by rw [hat.2.1]; rfl⟩, hat.2.2]
  exact h

theorem kpRollbackToSig {kp : Nat} {toSig : TwEventSig T}
    (hs : s.kpRollbackToSig m kp toSig = some s') : HookEffect m s s' (s.undoneAct m s') := by
  obtain ⟨e, rest, -, -, rfl⟩ := Pe.kpRollbackToSig_some hs
  exact undo (by rfl) (by rfl) (by rfl) (by rfl) e _

theorem rollbackStep {r : Rollback T} (hr : s.rollback = some r)
    (hs : s.rollbackStep m r = .ok s') (i : Input T M) :
    HookEffect m s s' (s.hookAct m s' i) := by
  have hout : s.net ≠ .off ∨ s.rollback ≠ Option.none :=
    .inr (by rw [hr]; exact Option.some_ne_none r)
  unfold Pe.rollbackStep at hs
  split at hs
  · obtain ⟨_, _, _, _, _, _, _, _, -, -, -, rfl⟩ := Pe.rollbackChild_frame hs
    exact outside hout (by rfl) (by rfl) i
  · cases hs
    rw [Pe.afterRollback_eq]
    cases r.after with
    | requeueReset => exact outside hout (by rfl) (by rfl) i
    | requeue => exact outside hout (by rfl) (by rfl) i
    | freeReset => exact outside hout (by rfl) (by rfl) i
    | abort kind => exact outside hout (by rfl) (by rfl) i

theorem schedEventQ (hr : s.rollback = Option.none) (hs : s.schedEventQ m = .ok s') :
    HookEffect m s s' (s.undoneAct m s') := by
  rcases Pe.schedEventQ_ok hs with
    ⟨cev, rest, -, ⟨-, rfl⟩ | ⟨-, -, ⟨-, rfl⟩ | ⟨-, rfl⟩⟩⟩ | ⟨-, -, rfl⟩ | ⟨-, -, rfl⟩
  all_goals exact quiet hr rfl rfl

theorem schedCancelQ (hr : s.rollback = Option.none) (hs : s.schedCancelQ = .ok s') :
    HookEffect m s s' (s.undoneAct m s') := by
  rcases Pe.schedCancelQ_ok hs with
    ⟨cev, rest, -, -, ⟨q, -, rfl⟩ | ⟨-, rfl⟩⟩ | ⟨-, -, rfl⟩ | ⟨-, -, rfl⟩
  all_goals exact quiet hr rfl rfl

theorem batchStep {kind : BatchKind} {left : Nat} (hr : s.rollback = Option.none)
    (hs : s.batchStep m kind left = .ok s') : HookEffect m s s' (s.undoneAct m s') := by
  rcases Pe.batchStep_ok hs with ⟨c, n, rfl⟩ | ⟨cev, -, -, -, -, rfl⟩
  · exact quiet hr rfl rfl
  · obtain ⟨l, cv, msg, ops, hrun⟩ :=
      Pe.runEvent_frame (m := m) (s.dequeued m cev) kind (left - 1) cev
    rw [hrun]
    exact quiet hr rfl rfl

theorem handlerReturn {kind : BatchKind} {left : Nat} {cev : TwEvent T} {expired : Bool}
    (hr : s.rollback = Option.none) (hs : s.handlerReturn m kind left cev expired = .ok s') :
    HookEffect m s s' (s.undoneAct m s') := by
  rcases Pe.handlerReturn_ok hs with ⟨-, -, rfl⟩ | ⟨-, -, rfl⟩ | ⟨-, -, c, p, -, rfl⟩
  · exact quiet hr rfl rfl
  · exact undo (by rfl) (by rfl) (by rfl) (by rfl) cev _
  · exact quiet hr rfl rfl

theorem fossilStep {kp : Nat} {children : List (TwEvent T)} (hr : s.rollback = Option.none)
    (hs : s.fossilStep m kp children = .ok s') : HookEffect m s s' (s.undoneAct m s') := by
  rcases Pe.fossilStep_ok hs with
    ⟨c, cs, -, ⟨-, rfl⟩ | ⟨-, rfl⟩⟩ | ⟨-, e, -, hs⟩ | ⟨-, -, -, rfl⟩ | ⟨-, -, -, rfl⟩
  · exact quiet hr rfl rfl
  · exact quiet hr rfl rfl
  · rcases Pe.commitEvent_ok hs with ⟨-, rfl⟩ | ⟨-, -, c, -, rfl⟩
    · exact quiet hr rfl rfl
    · exact quiet hr rfl rfl
  · exact quiet hr rfl rfl
  · exact quiet hr rfl rfl

/-- A call of a handler into the kernel that is no request. -/
theorem otherOp {t : Pe T S M R} {lp : Nat} {op : HandlerOp T M} (hr : t.rollback = Option.none)
    (htrigger : t.trigger = s.trigger) (hgvt : t.gvtSig = s.gvtSig)
    (hop : op ≠ .triggerGvtHookNow) (hs : t.handlerOp m lp op = .ok s') :
    HookEffect m s s' (s.undoneAct m s') := by
  have hc := Pe.handlerOp_calls hs
  refine quiet (hc.rollback.trans hr) ?_ (hc.gvtSig.trans hgvt)
  rcases hc.trigger with heq | ⟨hnow, -⟩
  · exact heq.trans htrigger
  · exact absurd hnow hop

/-- A request, made while GVT is not past the end of time. -/
theorem hookNow {t : Pe T S M R} {lp : Nat}
    (hm : m.synch = .optimistic ∨ m.synch = .optimisticRealtime) (hgvt : t.gvtSig = s.gvtSig)
    (hlast : t.lastSig = s.lastSig)
    (hend : ((s.lastSig (m.kpOf lp)).extend 0).recvTs < m.tsEnd → s.gvtSig.recvTs ≤ m.tsEnd)
    (hs : t.handlerOp m lp .triggerGvtHookNow = .ok s') :
    HookEffect m s s' (.request ((s.lastSig (m.kpOf lp)).extend 0)) := by
  have hc : m.synch ≠ .conservative := by rcases hm with hm | hm <;> rw [hm] <;> decide
  have hd : m.synch ≠ .optimisticDebug := by rcases hm with hm | hm <;> rw [hm] <;> decide
  obtain ⟨-, hsig⟩ := Pe.twTriggerGvtHookNow_stored hc hd hs
  exact .request (hlast ▸ hsig) ((Pe.handlerOp_calls hs).gvtSig.trans hgvt) hend

/-- A call of a handler into the kernel. -/
theorem handlerOp {kind : BatchKind} {left lp : Nat} {op : HandlerOp T M}
    {ops : List (HandlerOp T M)} {i : Input T M}
    (hm : m.synch = .optimistic ∨ m.synch = .optimisticRealtime)
    (hat : s.At (.handler kind left lp (op :: ops))) (hend : s.gvtSig.recvTs ≤ m.tsEnd)
    (hs : ({ s with phase := .handler kind left lp ops } : Pe T S M R).handlerOp m lp op =
      .ok s') : HookEffect m s s' (s.hookAct m s' i) := by
  refine inside hat ?_
  have other : op ≠ .triggerGvtHookNow → HookEffect m s s' (s.undoneAct m s') := fun hop =>
    otherOp (by exact hat.2.1) (by rfl) (by rfl) hop hs
  cases op with
  | triggerGvtHookNow => exact hookNow hm (by rfl) (by rfl) (fun _ => hend) hs
  | eventNew destGid offsetTs prio msg => exact other nofun
  | eventSend n => exact other nofun
  | lpSuspend b => exact other nofun

/-- A call of an `init` or `pre_run` handler into the kernel. -/
theorem initOp {lp : Nat} {op : HandlerOp T M} {ops : List (HandlerOp T M)} {i : Input T M}
    (hm : m.synch = .optimistic ∨ m.synch = .optimisticRealtime) (hcourse : HookCourse s)
    (hat : s.At (.lpInit lp (op :: ops)))
    (hs : ({ s with phase := .lpInit lp ops } : Pe T S M R).handlerOp m lp op = .ok s') :
    HookEffect m s s' (s.hookAct m s' i) := by
  obtain ⟨st, -, -, hgvt, hlast⟩ := hcourse.fits hat
  have hend : ((s.lastSig (m.kpOf lp)).extend 0).recvTs < m.tsEnd →
      s.gvtSig.recvTs ≤ m.tsEnd := by
    rw [hgvt, hlast]
    exact le_of_lt
  refine inside hat ?_
  have other : op ≠ .triggerGvtHookNow → HookEffect m s s' (s.undoneAct m s') := fun hop =>
    otherOp (by exact hat.2.1) (by rfl) (by rfl) hop hs
  cases op with
  | triggerGvtHookNow => exact hookNow hm (by rfl) (by rfl) hend hs
  | eventNew destGid offsetTs prio msg => exact other nofun
  | eventSend n => exact other nofun
  | lpSuspend b => exact other nofun

/-- The calls that a PE's program consists of. -/
theorem call {c : Call T} {rest : List (Call T)} {expired : Bool} (hcourse : HookCourse s)
    (hat : s.At .idle) (hs : { s with todo := rest }.call m expired c = .ok s') :
    HookEffect m s s' (s.undoneAct m s') := by
  have hr : s.rollback = Option.none := hat.2.1
  cases c with
  | gvtStep1 =>
      cases hs
      obtain ⟨n, b, heq, -⟩ := Pe.gvtStep1_frame (m := m) { s with todo := rest }
      rw [heq]
      exact quiet hr rfl rfl
  | gvtStep1Realtime =>
      cases hs
      obtain ⟨n, b, heq, -⟩ := Pe.gvtStep1Realtime_frame (m := m) { s with todo := rest } expired
      rw [heq]
      exact quiet hr rfl rfl
  | gvtStep2 =>
      cases hs
      dsimp only
      split
      · exact quiet hr rfl rfl
      · exact quiet hr rfl rfl
  | gvtHookStep =>
      have hmode : ({ s with todo := rest } : Pe T S M R).trigger.status = .modelCall :=
        hcourse.mode
      rcases Pe.gvtHookStep_ok hs with rfl | rfl | rfl | ⟨hevery, -⟩
      · exact quiet hr rfl rfl
      · exact quiet hr rfl rfl
      · exact quiet hr rfl rfl
      · cases hmode.symm.trans hevery
  | optimisticTail =>
      cases hs
      dsimp only
      split
      · exact quiet hr rfl rfl
      · exact quiet hr rfl rfl
  | optimisticRealtimeTail =>
      cases hs
      dsimp only
      split
      · exact quiet hr rfl rfl
      · exact quiet hr rfl rfl
  | conservativeTail =>
      cases hs
      dsimp only
      split
      · exact quiet hr rfl rfl
      · exact quiet hr rfl rfl
  | _ =>
      cases hs
      exact quiet hr rfl rfl

/-- What follows a reduction of a flag. -/
theorem afterReduction {r : Reduction} {flag : Bool} {i : Input T M} (hcourse : HookCourse s)
    (hat : s.At (.reduced r flag)) (hs : s.afterReduction m r flag = .ok s') :
    HookEffect m s s' (s.hookAct m s' i) := by
  refine inside hat ?_
  obtain ⟨st, -, hf⟩ := hcourse.fits hat
  rcases Pe.afterReduction_ok hs with ⟨hr, rfl, g, -⟩ | ⟨-, -, rfl⟩ | ⟨-, -, rfl⟩ | ⟨-, -, rfl⟩
  · rcases hr with rfl | rfl
    · exact hf.elim
    · have hs : ({ s with trigger := { s.trigger with sigAt := maxSig } } : Pe T S M R).callHook m =
          .ok s' := hs
      rcases Pe.callHook_ok hs with rfl | ⟨hend, -, rfl⟩
      · exact .serve rfl hf.2 (.inl rfl)
      · exact .serve rfl hf.2 (.inr hend)
  · exact .none rfl (.inl rfl)
  · exact .none rfl (.inl rfl)
  · exact .none rfl (.inl rfl)

/-- What the hook itself may do. -/
theorem hookStep {i : Input T M} (hat : s.At .inHook) (hi : i.keepsMode = true)
    (hs : s.hookStep i = .ok s') : HookEffect m s s' (s.hookAct m s' i) := by
  refine inside hat ?_
  cases i with
  | hookAt sig => cases hi
  | hookEvery n => cases hi
  | hookWhenModelCalls =>
      cases hs
      exact .reset rfl rfl
  | hookRollback =>
      cases hs
      exact .none rfl (.inl rfl)
  | hookReturn =>
      cases hs
      exact .none rfl (.inl rfl)
  | _ => cases hs

/-- A step of a PE, other than its part in a reduction. -/
theorem step {i : Input T M} (hcourse : HookCourse s) {g : Option (WindowTest T S M R)}
    (hfin : Finishing m g s) (hm : m.synch = .optimistic ∨ m.synch = .optimisticRealtime)
    (hi : i.keepsMode = true) (hcall : ∀ c, i ≠ .call c) (hout : ∀ o, i ≠ .outcome o)
    (hturn : Pe.Turn m s s' i) : HookEffect m s s' (s.hookAct m s' i) := by
  have net : ∀ {n : NetLoop}, s.net = n → n ≠ .off →
      s.net ≠ .off ∨ s.rollback ≠ Option.none := fun hn hne => .inl (hn ▸ hne)
  cases hturn with
  | recv hn hp hs =>
      obtain ⟨-, ⟨-, c, -, rfl⟩ | ⟨-, -, ⟨-, -, rfl⟩ | ⟨-, rfl⟩⟩⟩ := Pe.recvFinish_ok hs
      all_goals exact outside (net hn nofun) (by rfl) (by rfl) _
  | testRecvs hn hs =>
      subst hs
      exact outside (net hn nofun) (by rfl) (by rfl) _
  | sent hn he hs =>
      rcases Pe.sendFinish_ok hs with ⟨-, -, rfl⟩ | ⟨-, -, -, rfl⟩ | ⟨-, -, -, rfl⟩ | ⟨-, rfl⟩
      all_goals exact outside (net hn nofun) (by rfl) (by rfl) _
  | testSends hn hs =>
      subst hs
      exact outside (net hn nofun) (by rfl) (by rfl) _
  | recvBegin hn hs =>
      rcases Pe.recvBegin_ok hs with rfl | ⟨-, -, rfl⟩
      all_goals exact outside (net hn nofun) (by rfl) (by rfl) _
  | @sendBegin read changed expired hn hs =>
      rcases Pe.sendBegin_ok (m := m) s read changed with ⟨e, -, -, heq⟩ | ⟨-, heq⟩
      all_goals
        rw [hs, heq]
        exact outside (net hn nofun) (by rfl) (by rfl) _
  | rollback hn hr hs => exact rollbackStep hr hs _
  | call hat ht hs => exact inside hat (call hcourse hat hs)
  | outerCall hat ht hs => exact absurd rfl (hcall _)
  | eventQ hat hs => exact inside hat (schedEventQ hat.2.1 hs)
  | eventQRollback hat hs =>
      refine inside hat ?_
      obtain ⟨cev, rest, -, hs | ⟨-, rfl⟩⟩ := Pe.schedStraggler_ok hs
      · exact kpRollbackToSig hs
      · exact quiet hat.2.1 rfl rfl
  | cancelQ hat hs => exact inside hat (schedCancelQ hat.2.1 hs)
  | cancelQRollback hat hs =>
      refine inside hat ?_
      obtain ⟨e, rest, -, ⟨-, rfl⟩ | ⟨-, hd, tl, -, rfl⟩⟩ := Pe.kpRollbackEvent_ok hs
      · exact undo (by rfl) (by rfl) (by rfl) (by rfl) e _
      · exact undo (by rfl) (by rfl) (by rfl) (by rfl) e _
  | rollbackToSig hat hs => exact inside hat (kpRollbackToSig hs)
  | rollbackToSigDone hat _ hs =>
      subst hs
      exact inside hat (quiet hat.2.1 rfl rfl)
  | batch hat hs => exact inside hat (batchStep hat.2.1 hs)
  | handlerOp hat hs => exact handlerOp hm hat (hfin.handler _ _ _ _ hat.2.2).2.1 hs
  | handlerReturn hat hc hs => exact inside hat (handlerReturn hat.2.1 hs)
  | initOp hat hs => exact initOp hm hcourse hat hs
  | initReturn hat _ hs =>
      subst hs
      exact inside hat (quiet hat.2.1 rfl rfl)
  | whiteLoop hat hs =>
      subst hs
      exact inside hat (quiet hat.2.1 rfl rfl)
  | reduce hat hs => exact absurd rfl (hout _)
  | reduced hat hs => exact afterReduction hcourse hat hs
  | gvtStore hat hs =>
      refine inside hat ?_
      obtain ⟨st, -, -, hle⟩ := hcourse.fits hat
      obtain ⟨-, n, rfl⟩ := Pe.gvtStore_ok hs
      unfold Pe.actIn Pe.undoneAct
      dsimp only
      rw [hat.2.1]
      exact .none rfl (.inr hle)
  | fossil hat hs => exact inside hat (fossilStep hat.2.1 hs)
  | hook hat hs => exact hookStep hat hi hs

end HookEffect

/-! ## The requests of one PE -/

/-- The trigger is the smallest pending request, `g_tw_max_sig` when there is none, and the hook
can be called at every pending request. -/
def Pe.Faithful (m : SimModel T S M R) (s : Pe T S M R) (l : RequestLedger (TwEventSig T)) :
    Prop :=
  s.trigger.sigAt = RequestLedger.least maxSig l.pending ∧ ∀ x ∈ l.pending, HookAct.Servable m x

namespace Pe.Faithful

variable {s s' : Pe T S M R} {l : RequestLedger (TwEventSig T)} {act : HookAct T}

theorem sigAt_le (h : s.Faithful m l) {x : TwEventSig T} (hx : x ∈ l.pending) :
    s.trigger.sigAt ≤ x := by
  rw [h.1]
  exact RequestLedger.least_le hx

/-- GVT at or past the end of time and not past the trigger is past all requests. -/
theorem pending_nil (h : s.Faithful m l) {gvt : TwEventSig T} (hle : gvt ≤ s.trigger.sigAt)
    (hend : m.tsEnd ≤ gvt.recvTs) : l.pending = [] := by
  refine List.eq_nil_iff_forall_not_mem.mpr fun x hx => ?_
  have hge := TwEventSig.recvTs_le_of_le (hle.trans (h.sigAt_le hx))
  exact (hend.trans hge).not_gt (h.2 x hx).1

/-- A step keeps the trigger the smallest pending request exactly when it meets the condition on
what it does to the requests. -/
theorem step_iff (h : s.Faithful m l) (he : HookEffect m s s' act) :
    s'.Faithful m (act.note l) ↔ act.Ok m s l := by
  cases he with
  | none hsig _ => exact iff_of_true ⟨hsig.trans h.1, h.2⟩ trivial
  | @request sig hsig _ _ =>
      have hservable : (∀ x ∈ sig :: l.pending, HookAct.Servable m x) ↔ HookAct.Servable m sig :=
        ⟨fun hall => hall sig List.mem_cons_self,
          fun hs x hx => (List.mem_cons.mp hx).elim (fun heq => heq ▸ hs) (h.2 x)⟩
      unfold Faithful HookAct.Ok HookAct.note RequestLedger.request
      rw [hsig, hservable, RequestLedger.eq_least_cons_iff, h.1]
  | @revoke sig n hsig _ =>
      have hservable : ∀ x ∈ (RequestLedger.revokeMany sig n l).pending, HookAct.Servable m x :=
        fun x hx => h.2 x (RequestLedger.mem_of_mem_revokeMany hx)
      unfold Faithful HookAct.Ok HookAct.note
      rw [hsig, and_iff_left hservable]
      by_cases hn : n = 0
      · subst hn
        exact iff_of_true h.1 fun hne => absurd rfl hne
      · rw [if_neg hn, RequestLedger.top_eq_least_iff]
        exact ⟨fun hall _ => hall, fun hall => hall hn⟩
  | serve hsig hle hgvt =>
      have hservable : ∀ x ∈ (l.serve s'.gvtSig).pending, HookAct.Servable m x :=
        fun x hx => h.2 x (RequestLedger.mem_serve.mp hx).1
      unfold Faithful HookAct.Ok HookAct.note
      rw [hsig, and_iff_left hservable, RequestLedger.top_eq_least_iff]
      simp only [RequestLedger.mem_serve, and_imp]
      rcases hgvt with hgvt | hend
      · rw [hgvt]
      · rw [h.pending_nil hle hend]
        exact iff_of_true (by simp) (by simp)
  | reset hsig _ =>
      unfold Faithful HookAct.Ok HookAct.note
      rw [hsig, and_iff_left h.2, RequestLedger.top_eq_least_iff]

end Pe.Faithful

/-- The requests made on a PE and its trigger in a run whose steps meet the condition. -/
structure Pe.Requested (m : SimModel T S M R) (s : Pe T S M R)
    (l : RequestLedger (TwEventSig T)) : Prop where
  faithful : s.Faithful m l
  balanced : l.Balanced
  exact : l.Exact
  past : m.tsEnd < s.gvtSig.recvTs → l.pending = []

namespace Pe.Requested

variable {s s' : Pe T S M R} {l : RequestLedger (TwEventSig T)} {act : HookAct T}

theorem balanced_note (h : l.Balanced) (act : HookAct T) : (act.note l).Balanced := by
  cases act with
  | none => exact h
  | request sig => exact h.request sig
  | revoke sig n => exact h.revokeMany sig n
  | serve gvt => exact h.serve gvt
  | reset => exact h

/-- Where GVT is not past the trigger, a hook invocation is at the requests it serves. -/
theorem exact_note (h : s.Requested m l) (he : HookEffect m s s' act) : (act.note l).Exact := by
  cases he with
  | none _ _ => exact h.exact
  | request _ _ _ => exact h.exact
  | @revoke sig n _ _ =>
      intro p hp
      rw [HookAct.note, RequestLedger.revokeMany_served] at hp
      exact h.exact p hp
  | serve _ hle hgvt =>
      refine h.exact.serve fun x hx => ?_
      rcases hgvt with hgvt | hend
      · rw [hgvt]
        exact hle.trans (h.faithful.sigAt_le hx)
      · rw [h.faithful.pending_nil hle hend] at hx
        cases hx
  | reset _ _ => exact h.exact

theorem past_note (h : s.Requested m l) (he : HookEffect m s s' act) (hok : act.Ok m s l)
    (hpast : m.tsEnd < s'.gvtSig.recvTs) : (act.note l).pending = [] := by
  cases he with
  | none _ hgvt =>
      rcases hgvt with hgvt | hle
      · exact h.past (hgvt ▸ hpast)
      · exact h.faithful.pending_nil hle hpast.le
  | request _ hgvt hend => exact absurd (hgvt ▸ hpast) (hend hok.2.1).not_gt
  | revoke _ hgvt =>
      refine List.eq_nil_iff_forall_not_mem.mpr fun x hx => ?_
      have hmem := RequestLedger.mem_of_mem_revokeMany hx
      rw [h.past (hgvt ▸ hpast)] at hmem
      cases hmem
  | serve _ hle hgvt =>
      have hnil : l.pending = [] := by
        rcases hgvt with hgvt | hend
        · exact h.past (hgvt ▸ hpast)
        · exact h.faithful.pending_nil hle hend
      refine List.eq_nil_iff_forall_not_mem.mpr fun x hx => ?_
      have hmem := (RequestLedger.mem_serve.mp hx).1
      rw [hnil] at hmem
      cases hmem
  | reset _ hgvt => exact h.past (hgvt ▸ hpast)

theorem step (h : s.Requested m l) (he : HookEffect m s s' act) (hok : act.Ok m s l) :
    s'.Requested m (act.note l) :=
  ⟨(h.faithful.step_iff he).mpr hok, balanced_note h.balanced act, h.exact_note he,
    h.past_note he hok⟩

end Pe.Requested

/-! ## Runs -/

/-- The input leaves the hook in the mode of `tw_trigger_gvt_hook_when_model_calls`. -/
def SystemInput.keepsMode : SystemInput T M → Bool
  | .pe _ x => x.keepsMode
  | _ => true

namespace System

variable (m : SimModel T S M R)

/-- The PEs with the requests made on each. -/
abbrev WithRequests (T S M R : Type) := System T S M R × (Nat → RequestLedger (TwEventSig T))

/-- What a step does to the requests made on PE `i`. -/
def hookAct (s : System T S M R) (l : SystemInput T M) (s' : System T S M R) (i : Nat) :
    HookAct T :=
  match l with
  | .pe j x => if j = i then (s i).hookAct m (s' i) x else .none
  | _ => .none

/-- A step of the system, with the requests of each PE. -/
def requestStep (a : WithRequests T S M R) (l : SystemInput T M) :
    Except TwError (WithRequests T S M R) :=
  match a.1.step m l with
  | .ok s' => .ok (s', fun i => (hookAct m a.1 l s' i).note (a.2 i))
  | .error e => .error e

/-- A step meets the condition on what it does to the requests of each PE. -/
def RequestOk (a : WithRequests T S M R) (l : SystemInput T M) : Prop :=
  ∀ s', a.1.step m l = .ok s' → ∀ i < m.npe, (hookAct m a.1 l s' i).Ok m (a.1 i) (a.2 i)

/-- The runs in the mode of `tw_trigger_gvt_hook_when_model_calls` whose steps meet a condition,
with the requests of each PE. -/
def RequestRun (ok : WithRequests T S M R → SystemInput T M → Prop) :
    WithRequests T S M R → Prop :=
  ReachableVia (· = (start m, fun _ => .empty)) (fun a l b => requestStep m a l = .ok b)
    fun a l => l.keepsMode = true ∧ ok a l

variable {m} {s s' : System T S M R}

/-- The result of a reduction, as far as the way to the hook depends on it. -/
theorem HookCourse.reduced (hg : m.gvtHook = true) (h : ∀ i, HookCourse (s i)) {r : Reduction}
    {i : Nat} (hi : i < m.npe) (hat : (s i).At (.reduce r)) :
    HookCourse ((s i).reduceDone r (s.outcome m r)) := by
  refine (h i).reduceDone hat (fun gvt ho => ?_) (fun white ho => ?_) fun b ho => ?_
  · cases r with
    | lvt =>
        cases ho
        have hmem : (s i).lvtSig m ∈ (List.range m.npe).map fun j => (s j).lvtSig m :=
          List.mem_map_of_mem (List.mem_range.mpr hi)
        have hmin := (findMinSig_spec (List.ne_nil_of_mem hmem)).2 _ hmem
        exact ⟨rfl, hmin.trans (Pe.lvtSig_le_sigAt hg (h i).mode)⟩
    | _ => cases ho
  · cases r with
    | white => rfl
    | _ => cases ho
  · cases r with
    | white => cases ho
    | lvt => cases ho
    | _ => exact ⟨nofun, nofun⟩

/-- What a step of the system does to the trigger of each PE, which stays on the way to the hook. -/
theorem hookEffect_step (hm : m.synch = .optimistic ∨ m.synch = .optimisticRealtime)
    (hg : m.gvtHook = true) (h : ∀ i, HookCourse (s i)) (hr : Reached m s)
    {l : SystemInput T M} (hl : l.keepsMode = true) (hs : s.step m l = .ok s') (i : Nat) :
    HookCourse (s' i) ∧ HookEffect m (s i) (s' i) (hookAct m s l s' i) := by
  obtain ⟨c, hcount⟩ := hr.recorded
  obtain ⟨g, hpe⟩ := CountedRun.countedPe hm hcount i
  have hfin : Finishing m g (s i) := hpe.finishing
  have own : ∀ {x : Input T M} {p : Pe T S M R}, x.keepsMode = true → (∀ c, x ≠ .call c) →
      (∀ o, x ≠ .outcome o) → (s i).step m x = .ok p →
      HookCourse p ∧ HookEffect m (s i) p ((s i).hookAct m p x) := fun hx hc ho hp =>
    ⟨(h i).step hm hfin.rollback hx hc ho (Pe.step_turn hp),
      .step (h i) hfin hm hx hc ho (Pe.step_turn hp)⟩
  have same : ∀ {p : Pe T S M R}, p = s i → HookCourse p ∧ HookEffect m (s i) p .none := by
    rintro p rfl
    exact ⟨h i, .none rfl (.inl rfl)⟩
  cases l with
  | pe j x =>
      obtain ⟨-, hlocal, p, hp, rfl⟩ := pe_ok hs
      unfold hookAct
      dsimp only
      split
      next hj =>
        subst hj
        rw [Function.update_self]
        refine own hl ?_ ?_ hp
        · rintro c rfl
          cases hlocal
        · rintro o rfl
          cases hlocal
      next hj =>
        rw [Function.update_of_ne fun heq => hj heq.symm]
        exact same rfl
  | deliver j src =>
      obtain ⟨-, -, w, p, -, hp, rfl⟩ := deliver_ok hs
      by_cases hj : i = j
      · subst hj
        rw [Function.update_self]
        have hown := own (x := .recv src w) rfl nofun nofun hp
        rw [Pe.hookAct_recv hp] at hown
        exact hown
      · rw [Function.update_of_ne hj]
        exact same rfl
  | reduce r =>
      obtain ⟨hat, rfl⟩ := reduce_ok hs
      by_cases hi : i < m.npe
      · dsimp only
        rw [if_pos hi]
        refine ⟨HookCourse.reduced hg h hi (hat i hi), ?_⟩
        show HookEffect m (s i) _ .none
        cases s.outcome m r with
        | total white => exact .none rfl (.inl rfl)
        | gvt gvt => exact .none rfl (.inl rfl)
        | flag b => exact .none rfl (.inl rfl)
      · dsimp only
        rw [if_neg hi]
        exact same rfl

theorem requestStep_ok {a b : WithRequests T S M R} {l : SystemInput T M}
    (h : requestStep m a l = .ok b) :
    ∃ s', a.1.step m l = .ok s' ∧ b = (s', fun i => (hookAct m a.1 l s' i).note (a.2 i)) := by
  unfold requestStep at h
  split at h
  next s' hs =>
    cases h
    exact ⟨s', hs, rfl⟩
  · cases h

/-- In a run whose steps meet the condition the trigger of each PE is its smallest pending
request. -/
theorem RequestRun.requested (hm : m.synch = .optimistic ∨ m.synch = .optimisticRealtime)
    (hg : m.gvtHook = true) (hmode : m.trigger0.status = .modelCall)
    (hsig : m.trigger0.sigAt = maxSig) {a : WithRequests T S M R}
    (h : RequestRun m (RequestOk m) a) :
    Reached m a.1 ∧ (∀ i, HookCourse (a.1 i)) ∧ ∀ i < m.npe, (a.1 i).Requested m (a.2 i) := by
  refine ReachableVia.invariant (P := fun a => Reached m a.1 ∧ (∀ i, HookCourse (a.1 i)) ∧
    ∀ i < m.npe, (a.1 i).Requested m (a.2 i)) ?_ ?_ h
  · rintro _ rfl
    refine ⟨.start rfl, .start hm hmode, fun i _ =>
      ⟨⟨hsig, ?_⟩, RequestLedger.balanced_empty, ?_, ?_⟩⟩
    · intro x hx
      cases hx
    · intro p hp
      cases hp
    · exact fun _ => rfl
  · rintro a l b ⟨hr, hcourse, hall⟩ ⟨hl, hok⟩ hstep
    obtain ⟨s', hs, rfl⟩ := requestStep_ok hstep
    have heffect := hookEffect_step hm hg hcourse hr hl hs
    exact ⟨.next hr trivial hs, fun i => (heffect i).1, fun i hi =>
      (hall i hi).step (heffect i).2 (hok s' hs i hi)⟩

instance (s : Pe T S M R) (l : RequestLedger (TwEventSig T)) :
    (act : HookAct T) → Decidable (act.Ok m s l)
  | .none => .isTrue trivial
  | .request _ => inferInstanceAs (Decidable (_ ∧ _ ∧ (_ → _)))
  | .revoke _ _ => inferInstanceAs (Decidable (_ → _))
  | .serve _ => inferInstanceAs (Decidable (∀ x ∈ _, _ → _))
  | .reset => inferInstanceAs (Decidable (∀ x ∈ _, _))

/-- The condition on a step, checked. -/
def checksRequests (m : SimModel T S M R) (a : WithRequests T S M R) (l : SystemInput T M) :
    Bool :=
  l.keepsMode && (a.1.step m l).toOption.all fun s' =>
    (List.range m.npe).all fun i => decide ((hookAct m a.1 l s' i).Ok m (a.1 i) (a.2 i))

theorem RequestOk.of_check {a : WithRequests T S M R} {l : SystemInput T M}
    (h : checksRequests m a l = true) :
    l.keepsMode = true ∧ RequestOk m a l := by
  unfold checksRequests at h
  rw [Bool.and_eq_true] at h
  refine ⟨h.1, fun s' hs i hi => ?_⟩
  have hall := h.2
  rw [hs] at hall
  exact of_decide_eq_true (List.all_eq_true.mp hall i (List.mem_range.mpr hi))

end System

end Ross

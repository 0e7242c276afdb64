import Ross.Core.System

/-!
# Events before the end of time

`tw_event_new` hands out a buffer only for a time before `g_tw_ts_end`, so no queue, no chain
of children and no message ever holds an event at or past it.
-/

namespace Ross

open Transition

variable {T S M R : Type} [TwStime T] {m : SimModel T S M R}

/-- The event is before the end of time. -/
def TwEvent.InTime (m : SimModel T S M R) (e : TwEvent T) : Prop := e.sig.recvTs < m.tsEnd

namespace Pe

/-- All events that the PE may still link into a queue or send are before the end of time. -/
structure InTime (m : SimModel T S M R) (s : Pe T S M R) : Prop where
  queue : ∀ q, ∀ e ∈ s.queue q, e.InTime m
  handles : ∀ e msg, .buffer e msg ∈ s.handles → e.InTime m
  children : ∀ e, ∀ c ∈ (s.ev e).causedByMe, c.InTime m
  rollback : ∀ r, s.rollback = some r → r.event.InTime m ∧ ∀ c ∈ r.children, c.InTime m
  current : ∀ e, s.curEvent = some e → e.InTime m
  wire : ∀ x ∈ s.wire, x.2.ev.InTime m

namespace InTime

variable {s s' : Pe T S M R}

/-- The chains of children after one of them is written. -/
theorem children_update {ev : TwEvent T → EventState T M}
    (h : ∀ x, ∀ c ∈ (ev x).causedByMe, c.InTime m) {e : TwEvent T} {st : EventState T M}
    (hst : ∀ c ∈ st.causedByMe, c.InTime m) :
    ∀ x, ∀ c ∈ (Function.update ev e st x).causedByMe, c.InTime m := by
  intro x
  by_cases hx : x = e
  · rw [hx, Function.update_self]
    exact hst
  · rw [Function.update_of_ne hx]
    exact h x

/-- A step that touches only queues and the fields of buffers. -/
theorem frame (h : InTime m s) (hq : ∀ q, ∀ e ∈ s'.queue q, e.InTime m)
    (hev : ∀ x, ∀ c ∈ (s'.ev x).causedByMe, c.InTime m) (hh : s'.handles = s.handles)
    (hr : s'.rollback = s.rollback) (hc : s'.curEvent = s.curEvent) (hw : s'.wire = s.wire) :
    InTime m s' where
  queue := hq
  children := hev
  handles := by
    rw [hh]
    exact h.handles
  rollback := by
    rw [hr]
    exact h.rollback
  current := by
    rw [hc]
    exact h.current
  wire := by
    rw [hw]
    exact h.wire

/-- A step that touches none of them. -/
theorem same (h : InTime m s) (hq : s'.queue = s.queue) (hev : s'.ev = s.ev)
    (hh : s'.handles = s.handles) (hr : s'.rollback = s.rollback)
    (hc : s'.curEvent = s.curEvent) (hw : s'.wire = s.wire) : InTime m s' :=
  h.frame (hq ▸ h.queue) (hev ▸ h.children) hh hr hc hw

/-- The chains after the other fields of a buffer are written. -/
theorem keepChain (h : InTime m s) (e : TwEvent T) {st : EventState T M}
    (hst : st.causedByMe = (s.ev e).causedByMe) :
    ∀ x, ∀ c ∈ (Function.update s.ev e st x).causedByMe, c.InTime m :=
  children_update h.children (hst ▸ h.children e)

/-- The first event of a queue, and the queues without it. -/
theorem unshift (h : InTime m s) {q : QueueId} {e : TwEvent T} {rest : List (TwEvent T)}
    (hq : s.queue q = e :: rest) :
    e.InTime m ∧ ∀ j, ∀ x ∈ Function.update s.queue q rest j, x.InTime m := by
  have hmem := h.queue q
  rw [hq] at hmem
  exact ⟨hmem e List.mem_cons_self,
    Pool.forall_update h.queue fun x hx => hmem x (List.mem_cons_of_mem e hx)⟩

theorem start (m : SimModel T S M R) (id : Nat) (program : List (Call T)) :
    InTime m (Pe.start m id program) where
  queue _ _ he := absurd he List.not_mem_nil
  handles _ _ he := absurd he List.not_mem_nil
  children _ _ hc := absurd hc List.not_mem_nil
  rollback _ hr := absurd hr (Option.some_ne_none _).symm
  current _ hc := absurd hc (Option.some_ne_none _).symm
  wire _ hx := absurd hx List.not_mem_nil

/-! ## The network -/

theorem recvFinish {src : Nat} {w : WireMsg T M} (h : InTime m s) (hw : w.ev.InTime m)
    (hs : s.recvFinish m src w = .ok s') : InTime m s' := by
  obtain ⟨-, ⟨-, c, -, rfl⟩ | ⟨-, -, ⟨-, -, rfl⟩ | ⟨-, rfl⟩⟩⟩ := recvFinish_ok hs
  · have hc : ∀ x, ∀ c' ∈ (Function.update s.ev c
        { s.ev c with cancelQ := true, remote := false } x).causedByMe, c'.InTime m :=
      h.keepChain c rfl
    exact h.frame h.queue (children_update hc (hc _)) rfl rfl rfl rfl
  · exact h.frame (Pool.forall_cons h.queue hw)
      (children_update h.children fun _ hc => absurd hc List.not_mem_nil) rfl rfl rfl rfl
  · exact h.frame (Pool.forall_snoc h.queue hw)
      (children_update h.children fun _ hc => absurd hc List.not_mem_nil) rfl rfl rfl rfl

theorem sendFinish {e : TwEvent T} (h : InTime m s) (he : e ∈ s.queue .postedSends)
    (hs : s.sendFinish m e = .ok s') : InTime m s' := by
  have hin := h.queue _ e he
  rcases sendFinish_ok hs with ⟨-, -, rfl⟩ | ⟨-, -, -, rfl⟩ | ⟨-, -, -, rfl⟩ | ⟨-, rfl⟩
  · exact h.frame (Pool.forall_snoc (Pool.forall_remove h.queue) hin) (h.keepChain e rfl) rfl rfl
      rfl rfl
  · exact h.frame (Pool.forall_remove h.queue) (h.keepChain e rfl) rfl rfl rfl rfl
  · exact h.frame (Pool.forall_cons (Pool.forall_remove h.queue) hin) (h.keepChain e rfl) rfl rfl
      rfl rfl
  · exact h.frame (Pool.forall_remove h.queue) (h.keepChain e rfl) rfl rfl rfl rfl

theorem sendBegin (h : InTime m s) (read changed : Bool) :
    InTime m (s.sendBegin m read changed) := by
  rcases sendBegin_ok (m := m) s read changed with ⟨e, he, -, hs⟩ | ⟨-, hs⟩
  · have hin := h.queue _ e (List.mem_of_getLast? he)
    rw [hs]
    refine ⟨Pool.forall_snoc (Pool.forall_remove h.queue) hin, h.handles,
      h.keepChain e rfl, h.rollback, h.current, ?_⟩
    intro x hx
    rcases List.mem_append.mp hx with hx | hx
    · exact h.wire x hx
    · rw [List.mem_singleton.mp hx]
      exact hin
  · rw [hs]
    exact h.same rfl rfl rfl rfl rfl rfl

/-! ## Handlers -/

theorem eventNew {destGid sender : Nat} {offsetTs prio : T} {msg : M} (h : InTime m s)
    (hs : s.twEventNewUserPrio m destGid offsetTs sender prio msg = .ok s') : InTime m s' := by
  obtain ⟨-, ⟨-, rfl⟩ | ⟨hend, -, rfl⟩⟩ := twEventNewUserPrio_ok hs
  · refine ⟨h.queue, ?_, h.children, h.rollback, h.current, h.wire⟩
    intro e msg he
    rcases List.mem_append.mp he with he | he
    · exact h.handles e msg he
    · cases List.mem_singleton.mp he
  · refine ⟨h.queue, ?_, h.children, h.rollback, h.current, h.wire⟩
    intro e msg he
    rcases List.mem_append.mp he with he | he
    · exact h.handles e msg he
    · cases List.mem_singleton.mp he
      exact hend

/-- The pointers of a handler after one of them is used up. -/
theorem handles_set (h : InTime m s) (i : Nat) (o : Option (TwEvent T)) :
    ∀ e msg, .buffer e msg ∈ s.handles.set i (.sent o) → e.InTime m := by
  intro e msg he
  rcases List.mem_or_eq_of_mem_set he with he | he
  · exact h.handles e msg he
  · cases he

theorem eventSend {i : Nat} (h : InTime m s) (hs : s.twEventSend m i = .ok s') : InTime m s' := by
  rcases twEventSend_ok hs with ⟨-, rfl⟩ | ⟨e, msg, hi, -, rfl⟩
  · refine ⟨h.queue, h.handles_set i none, ?_, h.rollback, h.current, h.wire⟩
    cases hcur : s.curEvent with
    | none =>
        exact h.children
    | some cev =>
        exact h.keepChain cev rfl
  · have hin : (s.stamp e).InTime m := h.handles e msg (List.mem_of_getElem? hi)
    have hreg : ∀ x, ∀ c ∈ ((s.register (s.stamp e) msg).ev x).causedByMe, c.InTime m :=
      children_update h.children fun _ hc => absurd hc List.not_mem_nil
    have hprep : InTime m (s.prepare i e msg) := by
      refine ⟨h.queue, h.handles_set i (some e), ?_, h.rollback, h.current, h.wire⟩
      show ∀ x, ∀ c ∈ (((s.register (s.stamp e) msg).linkCausality (s.stamp e)).ev x).causedByMe,
        c.InTime m
      unfold linkCausality
      cases hcur : (s.register (s.stamp e) msg).curEvent with
      | none => exact hreg
      | some cev =>
          refine children_update hreg fun c hc => ?_
          rcases List.mem_cons.mp hc with rfl | hc
          · exact hin
          · exact hreg cev c hc
    rcases deliver_cases m (s.prepare i e msg) (s.stamp e) with
      ⟨-, -, hd⟩ | ⟨-, -, hd⟩ | ⟨-, hd⟩
    · rw [hd]
      exact hprep.frame (Pool.forall_cons hprep.queue hin)
        (hprep.keepChain _ rfl) rfl rfl rfl rfl
    · rw [hd]
      exact hprep.frame (Pool.forall_snoc hprep.queue hin)
        (hprep.keepChain _ rfl) rfl rfl rfl rfl
    · rw [hd]
      exact hprep.frame (Pool.forall_cons hprep.queue hin)
        (hprep.keepChain _ rfl) rfl rfl rfl rfl

theorem handlerOp {lp : Nat} {op : HandlerOp T M} (h : InTime m s)
    (hs : s.handlerOp m lp op = .ok s') : InTime m s' := by
  cases op with
  | eventNew destGid offsetTs prio msg => exact h.eventNew hs
  | eventSend i => exact h.eventSend hs
  | lpSuspend doOrigEventRc =>
      cases hs
      exact h.same rfl rfl rfl rfl rfl rfl
  | triggerGvtHookNow =>
      rcases twTriggerGvtHookNow_ok hs with rfl | ⟨-, rfl⟩
      · exact h
      · exact h.same rfl rfl rfl rfl rfl rfl

/-! ## Rollbacks -/

theorem rollbackChild {r : Rollback T} {e : TwEvent T} {rest : List (TwEvent T)}
    (h : InTime m s) (hr : s.rollback = some r) (hc : r.children = e :: rest)
    (hs : s.rollbackChild m r e rest = .ok s') : InTime m s' := by
  obtain ⟨hevent, hchildren⟩ := h.rollback r hr
  rw [hc] at hchildren
  have hin : e.InTime m := hchildren e List.mem_cons_self
  have h₁ : InTime m { s with rollback := some { r with children := rest } } := by
    refine ⟨h.queue, h.handles, h.children, ?_, h.current, h.wire⟩
    intro r' hr'
    cases hr'
    exact ⟨hevent, fun c hc => hchildren c (List.mem_cons_of_mem e hc)⟩
  unfold Pe.rollbackChild at hs
  rcases eventCancel_ok hs with ⟨-, rfl⟩ | ⟨-, rfl⟩ | ⟨-, rfl⟩ | ⟨-, -, rfl⟩ | ⟨-, -, rfl⟩
  · exact h₁.frame (Pool.forall_remove h.queue) (h.keepChain e rfl)
      rfl rfl rfl rfl
  · exact h₁.frame h.queue (h.keepChain e rfl) rfl rfl rfl rfl
  · exact h₁.frame (Pool.forall_cons (Pool.forall_remove h.queue) hin)
      (h.keepChain e rfl) rfl rfl rfl rfl
  · exact h₁.frame (Pool.forall_remove h.queue) (h.keepChain e rfl)
      rfl rfl rfl rfl
  · exact h₁.frame h.queue (h.keepChain e rfl) rfl rfl rfl rfl

theorem afterRollback {r : Rollback T} (h : InTime m s) (hr : s.rollback = some r) :
    InTime m ((s.rollbackEnd m r.event).afterRollback m r.event r.after) := by
  have hin := (h.rollback r hr).1
  have hend : InTime m (s.rollbackEnd m r.event) := by
    refine ⟨h.queue, h.handles, h.keepChain r.event rfl, ?_, h.current,
      h.wire⟩
    intro r' hr'
    cases hr'
  rw [afterRollback_eq]
  cases r.after with
  | requeueReset =>
    exact hend.frame (Pool.forall_cons (Pool.forall_remove hend.queue) hin)
      (hend.keepChain r.event rfl) rfl rfl rfl rfl
  | requeue =>
    exact hend.frame (Pool.forall_cons (Pool.forall_remove hend.queue) hin)
      (hend.keepChain r.event rfl) rfl rfl rfl rfl
  | freeReset =>
      exact hend.frame (Pool.forall_remove hend.queue) (hend.keepChain r.event rfl) rfl rfl rfl rfl
  | abort kind =>
    exact hend.frame (Pool.forall_cons (Pool.forall_remove hend.queue) hin)
      (hend.keepChain r.event rfl) rfl rfl rfl rfl

theorem rollbackStep {r : Rollback T} (h : InTime m s) (hr : s.rollback = some r)
    (hs : s.rollbackStep m r = .ok s') : InTime m s' := by
  unfold Pe.rollbackStep at hs
  split at hs
  next e rest hc => exact h.rollbackChild hr hc hs
  · cases hs
    exact h.afterRollback hr

theorem twEventRollback (h : InTime m s) {e : TwEvent T} (he : e.InTime m)
    (after : RollbackAfter) : InTime m (s.twEventRollback m e after) := by
  obtain ⟨l, cv, msg, t, hs⟩ := twEventRollback_frame m s e after
  rw [hs]
  refine ⟨h.queue, h.handles, children_update h.children fun _ hc => absurd hc List.not_mem_nil,
    ?_, ?_, h.wire⟩
  · intro r hr
    cases hr
    exact ⟨he, h.children e⟩
  · intro e' he'
    cases he'
    exact he

theorem shiftPevent (h : InTime m s) {kp : Nat} {e : TwEvent T} {rest : List (TwEvent T)}
    (hq : s.queue (.peventQ kp) = e :: rest) :
    e.InTime m ∧ InTime m (s.shiftPevent kp e rest) := by
  obtain ⟨hin, hrest⟩ := h.unshift hq
  exact ⟨hin, h.frame (Pool.forall_cons hrest hin) h.children rfl rfl rfl rfl⟩

theorem kpRollbackToSig {kp : Nat} {toSig : TwEventSig T} (h : InTime m s)
    (hs : s.kpRollbackToSig m kp toSig = some s') : InTime m s' := by
  obtain ⟨e, rest, hq, -, rfl⟩ := kpRollbackToSig_some hs
  obtain ⟨hin, hshift⟩ := h.shiftPevent hq
  exact hshift.twEventRollback hin _

theorem kpRollbackEvent {event : TwEvent T} (h : InTime m s)
    (hs : s.kpRollbackEvent m event = .ok s') : InTime m s' := by
  obtain ⟨e, rest, hq, ⟨-, rfl⟩ | ⟨-, hd, tl, -, rfl⟩⟩ := kpRollbackEvent_ok hs
  · obtain ⟨hin, hshift⟩ := h.shiftPevent hq
    exact hshift.twEventRollback hin _
  · obtain ⟨hin, hshift⟩ := h.shiftPevent hq
    have hlast : InTime m ((s.shiftPevent (m.kpOf event.destLp) e rest).setLastSig
        (m.kpOf event.destLp) hd.sig) := hshift.same rfl rfl rfl rfl rfl rfl
    exact hlast.twEventRollback hin _

/-! ## The schedulers -/

theorem schedEventQ (h : InTime m s) (hs : s.schedEventQ m = .ok s') : InTime m s' := by
  rcases schedEventQ_ok hs with
    ⟨cev, rest, hq, hcases⟩ | ⟨-, -, rfl⟩ | ⟨-, -, rfl⟩
  · obtain ⟨hin, hrest⟩ := h.unshift hq
    rcases hcases with ⟨-, rfl⟩ | ⟨-, -, ⟨-, rfl⟩ | ⟨-, rfl⟩⟩
    · exact h.frame (Pool.forall_cons hrest hin) (h.keepChain cev rfl) rfl rfl rfl rfl
    · exact h.same rfl rfl rfl rfl rfl rfl
    · exact h.frame (Pool.forall_cons hrest hin) (h.keepChain cev rfl) rfl rfl rfl rfl
  · exact h.same rfl rfl rfl rfl rfl rfl
  · refine h.frame ?_ h.children rfl rfl rfl rfl
    have hnil := Pool.forall_update (q := .eventQ) (l := []) h.queue fun _ hx =>
      absurd hx List.not_mem_nil
    exact Pool.forall_update hnil (h.queue .eventQ)

theorem schedStraggler (h : InTime m s) (hs : s.schedStraggler m = .ok s') : InTime m s' := by
  obtain ⟨cev, rest, hq, hs | ⟨-, rfl⟩⟩ := schedStraggler_ok hs
  · exact h.kpRollbackToSig hs
  · obtain ⟨hin, hrest⟩ := h.unshift hq
    exact h.frame (Pool.forall_cons hrest hin) (h.keepChain cev rfl) rfl rfl rfl rfl

theorem schedCancelQ (h : InTime m s) (hs : s.schedCancelQ = .ok s') : InTime m s' := by
  rcases schedCancelQ_ok hs with
    ⟨cev, rest, -, -, ⟨q, -, rfl⟩ | ⟨-, rfl⟩⟩ | ⟨-, -, rfl⟩ | ⟨-, -, rfl⟩
  · exact h.frame (Pool.forall_remove h.queue)
      (h.keepChain cev rfl) rfl rfl rfl rfl
  · exact h.same rfl rfl rfl rfl rfl rfl
  · exact h.same rfl rfl rfl rfl rfl rfl
  · exact h.same rfl rfl rfl rfl rfl rfl

theorem batchStep {kind : BatchKind} {left : Nat} (h : InTime m s)
    (hs : s.batchStep m kind left = .ok s') : InTime m s' := by
  rcases batchStep_ok hs with ⟨c, n, rfl⟩ | ⟨cev, hc, -, -, -, rfl⟩
  · exact h.same rfl rfl rfl rfl rfl rfl
  · have hin : cev.InTime m := h.queue .pq cev (pqLeast_some hc).1
    obtain ⟨l, cv, msg, ops, hrun⟩ :=
      runEvent_frame (m := m) (s.dequeued m cev) kind (left - 1) cev
    rw [hrun]
    have hev : ∀ x, ∀ c ∈ ((s.dequeued m cev).ev x).causedByMe, c.InTime m :=
      h.keepChain cev rfl
    refine ⟨Pool.forall_cons (Pool.forall_remove h.queue) hin, ?_,
      children_update hev (hev cev), h.rollback, ?_, h.wire⟩
    · exact fun _ _ he => absurd he List.not_mem_nil
    · intro e he
      cases he
      exact hin

theorem handlerReturn {kind : BatchKind} {left : Nat} {cev : TwEvent T} {expired : Bool}
    (h : InTime m s) (hc : s.curEvent = some cev)
    (hs : s.handlerReturn m kind left cev expired = .ok s') : InTime m s' := by
  have hin := h.current cev hc
  rcases handlerReturn_ok hs with ⟨-, -, rfl⟩ | ⟨-, -, rfl⟩ | ⟨-, -, c, p, -, rfl⟩
  · exact h.frame (Pool.forall_remove h.queue) (h.keepChain cev rfl) rfl rfl rfl rfl
  · have habort : InTime m { s with cevAbort := false } := h.same rfl rfl rfl rfl rfl rfl
    exact habort.twEventRollback hin _
  · exact h.frame (Pool.forall_cons (Pool.forall_remove h.queue) hin) (h.keepChain cev rfl) rfl rfl
      rfl rfl

theorem fossilStep {kp : Nat} {children : List (TwEvent T)} (h : InTime m s)
    (hs : s.fossilStep m kp children = .ok s') : InTime m s' := by
  have hnil : ∀ c ∈ ([] : List (TwEvent T)), c.InTime m := fun _ hc => absurd hc List.not_mem_nil
  rcases fossilStep_ok hs with ⟨c, cs, -, ⟨-, rfl⟩ | ⟨-, rfl⟩⟩ | ⟨-, e, he, hs⟩ |
    ⟨-, -, -, rfl⟩ | ⟨-, -, -, rfl⟩
  · exact h.frame (Pool.forall_remove h.queue) (h.keepChain c rfl)
      rfl rfl rfl rfl
  · exact h.same rfl rfl rfl rfl rfl rfl
  · rcases commitEvent_ok hs with ⟨-, rfl⟩ | ⟨-, -, c, -, rfl⟩
    · exact h.frame (Pool.forall_remove h.queue) (children_update h.children hnil) rfl rfl rfl rfl
    · exact h.frame (Pool.forall_remove h.queue) (children_update h.children hnil) rfl rfl rfl rfl
  · have hcut := h.queue (.peventQ kp)
    rw [← fossilCut_append s.gvtSig (s.queue (.peventQ kp))] at hcut
    have hkept := Pool.forall_update (q := .peventQ kp) h.queue fun x hx =>
      hcut x (List.mem_append_left _ hx)
    exact h.frame (Pool.forall_update hkept fun x hx => hcut x (List.mem_append_right _ hx))
      h.children rfl rfl rfl rfl
  · exact h.same rfl rfl rfl rfl rfl rfl

/-! ## Calls and the GVT computation -/

theorem callHook (h : InTime m s) (hs : s.callHook m = .ok s') : InTime m s' := by
  rcases callHook_ok hs with rfl | ⟨-, -, rfl⟩
  · exact h.same rfl rfl rfl rfl rfl rfl
  · exact h.same rfl rfl rfl rfl rfl rfl

theorem callInit (h : InTime m s) (lp : Nat) (f : Nat → S → S × List (HandlerOp T M)) :
    InTime m (s.callInit lp f) := by
  refine ⟨h.queue, ?_, h.children, h.rollback, ?_, h.wire⟩
  · exact fun _ _ he => absurd he List.not_mem_nil
  · exact fun _ he => absurd he (Option.some_ne_none _).symm

theorem call {expired : Bool} {c : Call T} (h : InTime m s) (hs : s.call m expired c = .ok s') :
    InTime m s' := by
  cases c with
  | gvtStep1 =>
      cases hs
      obtain ⟨n, b, heq, -⟩ := gvtStep1_frame (m := m) s
      rw [heq]
      exact h.same rfl rfl rfl rfl rfl rfl
  | gvtStep1Realtime =>
      cases hs
      obtain ⟨n, b, heq, -⟩ := gvtStep1Realtime_frame (m := m) s expired
      rw [heq]
      exact h.same rfl rfl rfl rfl rfl rfl
  | gvtStep2 =>
      cases hs
      split
      · exact h.same rfl rfl rfl rfl rfl rfl
      · exact h
  | gvtHookStep =>
      rcases gvtHookStep_ok hs with rfl | rfl | rfl | ⟨-, hs⟩
      · exact h
      · exact h.same rfl rfl rfl rfl rfl rfl
      · exact h.same rfl rfl rfl rfl rfl rfl
      · exact h.callHook hs
  | optimisticTail =>
      cases hs
      split
      · exact h
      · exact h.same rfl rfl rfl rfl rfl rfl
  | optimisticRealtimeTail =>
      cases hs
      split
      · exact h
      · exact h.same rfl rfl rfl rfl rfl rfl
  | conservativeTail =>
      cases hs
      split
      · exact h
      · exact h.same rfl rfl rfl rfl rfl rfl
  | initLp lp => cases hs; exact h.callInit lp _
  | preRunLp lp => cases hs; exact h.callInit lp _
  | netRead => cases hs; exact h.same rfl rfl rfl rfl rfl rfl
  | schedEventQ => cases hs; exact h.same rfl rfl rfl rfl rfl rfl
  | schedCancelQ => cases hs; exact h.same rfl rfl rfl rfl rfl rfl
  | gvtStep2AndHook => cases hs; exact h.same rfl rfl rfl rfl rfl rfl
  | schedBatch => cases hs; exact h.same rfl rfl rfl rfl rfl rfl
  | schedBatchRealtime => cases hs; exact h.same rfl rfl rfl rfl rfl rfl
  | conservativeBatch => cases hs; exact h.same rfl rfl rfl rfl rfl rfl
  | kpRollbackToSig kp toSig => cases hs; exact h.same rfl rfl rfl rfl rfl rfl
  | rollbackAndCancelEventsPe => cases hs; exact h.same rfl rfl rfl rfl rfl rfl
  | cleanupLoop => cases hs; exact h.same rfl rfl rfl rfl rfl rfl
  | gvtStatusOn => cases hs; exact h.same rfl rfl rfl rfl rfl rfl
  | cleanupTest => cases hs; exact h.same rfl rfl rfl rfl rfl rfl
  | hookReturn => cases hs; exact h.same rfl rfl rfl rfl rfl rfl
  | schedulerOptimistic => cases hs; exact h.same rfl rfl rfl rfl rfl rfl
  | schedulerOptimisticRealtime => cases hs; exact h.same rfl rfl rfl rfl rfl rfl
  | schedulerConservative => cases hs; exact h.same rfl rfl rfl rfl rfl rfl

theorem reduceDone (h : InTime m s) (r : Reduction) (o : Outcome T) :
    InTime m (s.reduceDone r o) := by
  cases o with
  | total white => exact h.same rfl rfl rfl rfl rfl rfl
  | gvt sig => exact h.same rfl rfl rfl rfl rfl rfl
  | flag b => exact h.same rfl rfl rfl rfl rfl rfl

theorem afterReduction {r : Reduction} {flag : Bool} (h : InTime m s)
    (hs : s.afterReduction m r flag = .ok s') : InTime m s' := by
  rcases afterReduction_ok hs with ⟨-, -, t, hcall⟩ | ⟨-, -, rfl⟩ | ⟨-, -, rfl⟩ | ⟨-, -, rfl⟩
  · have ht : InTime m { s with trigger := t } := h.same rfl rfl rfl rfl rfl rfl
    exact ht.callHook hcall
  · exact h.same rfl rfl rfl rfl rfl rfl
  · exact h.same rfl rfl rfl rfl rfl rfl
  · exact h.same rfl rfl rfl rfl rfl rfl

theorem hookStep {i : Input T M} (h : InTime m s) (hs : s.hookStep i = .ok s') : InTime m s' := by
  rcases hookStep_ok hs with ⟨-, -, t, rfl⟩ | ⟨-, rfl⟩ | ⟨-, rfl⟩
  · exact h.same rfl rfl rfl rfl rfl rfl
  · exact h.same rfl rfl rfl rfl rfl rfl
  · exact h.same rfl rfl rfl rfl rfl rfl

/-! ## Steps and runs -/

/-- A step of a PE, when the message that it receives is before the end of time. -/
theorem step {i : Input T M} (h : InTime m s) (hw : ∀ src w, i = .recv src w → w.ev.InTime m)
    (hs : s.step m i = .ok s') : InTime m s' := by
  have hturn := step_turn hs
  clear hs
  cases hturn with
  | recv hn hp hs =>
      have h₁ : InTime m { s with net := .testRecvs true } := h.same rfl rfl rfl rfl rfl rfl
      exact h₁.recvFinish (hw _ _ rfl) hs
  | testRecvs hn hs =>
      subst hs
      exact h.same rfl rfl rfl rfl rfl rfl
  | @sent read changed e hn he hs =>
      have h₁ : InTime m { s with net := .testSends read true } := h.same rfl rfl rfl rfl rfl rfl
      exact h₁.sendFinish he hs
  | testSends hn hs =>
      subst hs
      exact h.same rfl rfl rfl rfl rfl rfl
  | recvBegin hn hs =>
      rcases recvBegin_ok hs with rfl | ⟨-, -, rfl⟩
      · exact h.same rfl rfl rfl rfl rfl rfl
      · exact h.same rfl rfl rfl rfl rfl rfl
  | sendBegin hn hs =>
      subst hs
      exact h.sendBegin _ _
  | rollback hn hr hs => exact h.rollbackStep hr hs
  | @call c rest expired hat ht hs =>
      have h₁ : InTime m { s with todo := rest } := h.same rfl rfl rfl rfl rfl rfl
      exact h₁.call hs
  | outerCall hat ht hs => exact h.call hs
  | eventQ hat hs => exact h.schedEventQ hs
  | eventQRollback hat hs => exact h.schedStraggler hs
  | cancelQ hat hs => exact h.schedCancelQ hs
  | cancelQRollback hat hs => exact h.kpRollbackEvent hs
  | rollbackToSig hat hs => exact h.kpRollbackToSig hs
  | rollbackToSigDone hat _ hs =>
      subst hs
      exact h.same rfl rfl rfl rfl rfl rfl
  | batch hat hs => exact h.batchStep hs
  | @handlerOp kind left lp op ops expired hat hs =>
      have h₁ : InTime m { s with phase := .handler kind left lp ops } :=
        h.same rfl rfl rfl rfl rfl rfl
      exact h₁.handlerOp hs
  | handlerReturn hat hc hs => exact h.handlerReturn hc hs
  | @initOp lp op ops expired hat hs =>
      have h₁ : InTime m { s with phase := .lpInit lp ops } := h.same rfl rfl rfl rfl rfl rfl
      exact h₁.handlerOp hs
  | initReturn hat _ hs =>
      subst hs
      exact h.same rfl rfl rfl rfl rfl rfl
  | whiteLoop hat hs =>
      subst hs
      exact h.same rfl rfl rfl rfl rfl rfl
  | reduce hat hs =>
      subst hs
      exact h.reduceDone _ _
  | reduced hat hs => exact h.afterReduction hs
  | gvtStore hat hs =>
      obtain ⟨-, n, rfl⟩ := gvtStore_ok hs
      exact h.same rfl rfl rfl rfl rfl rfl
  | fossil hat hs => exact h.fossilStep hs
  | hook hat hs => exact h.hookStep hs

end InTime

end Pe

namespace System

open Pe

omit [TwStime T] in
/-- The message that is delivered is one that was sent. -/
theorem inFlight_mem {s : System T S M R} {src i : Nat} {w : WireMsg T M}
    (h : (s.inFlight src i).head? = some w) : ∃ x ∈ (s src).wire, x.2 = w := by
  have hmem : w ∈ s.sentTo src i := List.mem_of_mem_drop (List.mem_of_mem_head? h)
  obtain ⟨x, hx, heq⟩ := List.mem_map.mp hmem
  exact ⟨x, (List.mem_filter.mp hx).1, heq⟩

theorem inTime_step {s s' : System T S M R} {l : SystemInput T M}
    (h : ∀ i, (s i).InTime m) (hs : s.step m l = .ok s') (i : Nat) : (s' i).InTime m := by
  cases step_of hs i with
  | own _ _ hw hp =>
      refine (h i).step (fun src w hrecv => ?_) hp
      obtain ⟨x, hx, hxw⟩ := inFlight_mem (hw src w hrecv)
      exact hxw ▸ (h src).wire x hx
  | reduced _ _ hi =>
      rw [hi]
      exact (h i).reduceDone _ _
  | other _ hi =>
      rw [hi]
      exact h i

/-- In every run all events are before the end of time. -/
theorem Reached.inTime {s : System T S M R} (h : Reached m s) (i : Nat) : (s i).InTime m := by
  refine ReachableVia.invariant (P := fun s => ∀ i, (s i).InTime m) ?_ ?_ h i
  · rintro s rfl i
    exact InTime.start m i _
  · intro s l s' h _ hs
    exact inTime_step h hs

end System

end Ross

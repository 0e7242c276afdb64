import Ross.Proofs.KpOrder

/-!
# The event in the hands of a scheduler

A batch holds one event while its handler runs, and a rollback the event that it undoes.  Nothing
is held between the functions of the schedulers.
-/

namespace Ross.Pe

variable {T S M R : Type} [TwStime T] {m : SimModel T S M R}

/-- What is in hand, by what the PE is doing. -/
structure Holding (s : Pe T S M R) : Prop where
  handler : ∀ kind left lp ops, s.phase = .handler kind left lp ops → s.rollback = none →
    ∃ cev, s.queue .hand = [cev] ∧ s.curEvent = some cev
  rollback : ∀ r, s.rollback = some r → s.queue .hand = [r.event]
  empty : s.rollback = none → OutsideHandler s.phase → s.queue .hand = []
  outside : ∀ r, s.rollback = some r → (∃ kind, r.after = .abort kind) ∨ OutsideHandler s.phase

namespace Holding

variable {s s' : Pe T S M R}

section

omit [TwStime T]

/-- A step that neither enters nor leaves a handler or a rollback. -/
theorem same (h : Holding s) (hhand : s'.queue .hand = s.queue .hand)
    (hcur : s'.curEvent = s.curEvent) (hphase : s'.phase = s.phase)
    (hroll : s'.rollback = s.rollback) : Holding s' := by
  refine ⟨?_, ?_, ?_, ?_⟩
  · rw [hphase, hroll, hhand, hcur]
    exact h.handler
  · rw [hroll, hhand]
    exact h.rollback
  · rw [hroll, hphase, hhand]
    exact h.empty
  · rw [hroll, hphase]
    exact h.outside

/-- Nothing is in hand outside of handlers and rollbacks. -/
theorem of_empty (hhand : s.queue .hand = []) (hroll : s.rollback = none)
    (hp : OutsideHandler s.phase) : Holding s where
  handler kind left lp ops hph := absurd hph (hp kind left lp ops)
  rollback r hr := absurd (hroll.symm.trans hr) (Option.some_ne_none r).symm
  empty _ _ := hhand
  outside r hr := absurd (hroll.symm.trans hr) (Option.some_ne_none r).symm

/-- A step from one function to another, neither of them a handler. -/
theorem goto (h : Holding s) (hhand : s'.queue .hand = s.queue .hand) (hroll : s.rollback = none)
    (hroll' : s'.rollback = none) (hp : OutsideHandler s.phase) (hp' : OutsideHandler s'.phase) :
    Holding s' :=
  of_empty (hhand.trans (h.empty hroll hp)) hroll' hp'

end

/-- The start of the rollback of the event in hand. -/
theorem of_rollback {e : TwEvent T} {after : RollbackAfter} (hhand : s.queue .hand = [e])
    (hp : (∃ kind, after = .abort kind) ∨ OutsideHandler s.phase) :
    Holding (s.twEventRollback m e after) := by
  obtain ⟨l, cv, msg, t, hs⟩ := twEventRollback_frame m s e after
  rw [hs]
  refine ⟨fun _ _ _ _ _ => nofun, fun r hr => ?_, nofun, fun r hr => ?_⟩
  · cases hr
    exact hhand
  · cases hr
    exact hp

/-! ## The network and the handlers -/

theorem recvFinish (h : Holding s) {src : Nat} {w : WireMsg T M}
    (hs : s.recvFinish m src w = .ok s') : Holding s' := by
  obtain ⟨-, ⟨-, c, -, rfl⟩ | ⟨-, -, ⟨-, -, rfl⟩ | ⟨-, rfl⟩⟩⟩ := recvFinish_ok hs
  · exact h.same rfl rfl rfl rfl
  · exact h.same rfl rfl rfl rfl
  · exact h.same rfl rfl rfl rfl

theorem sendFinish (h : Holding s) {e : TwEvent T} (hs : s.sendFinish m e = .ok s') :
    Holding s' := by
  rcases sendFinish_ok hs with ⟨-, -, rfl⟩ | ⟨-, -, -, rfl⟩ | ⟨-, -, -, rfl⟩ | ⟨-, rfl⟩
  · exact h.same rfl rfl rfl rfl
  · exact h.same rfl rfl rfl rfl
  · exact h.same rfl rfl rfl rfl
  · exact h.same rfl rfl rfl rfl

section

omit [TwStime T]

theorem recvBegin (h : Holding s) {changed : Bool} (hs : s.recvBegin m changed = .ok s') :
    Holding s' := by
  rcases recvBegin_ok hs with rfl | ⟨-, -, rfl⟩
  · exact h.same rfl rfl rfl rfl
  · exact h.same rfl rfl rfl rfl

/-- The handler has one call less to make. -/
theorem handlerNext (h : Holding s) (hr : s.rollback = none) {kind : BatchKind} {left lp : Nat}
    {ops : List (HandlerOp T M)} (hp : s.phase = .handler kind left lp ops)
    (ops' : List (HandlerOp T M)) : Holding { s with phase := .handler kind left lp ops' } where
  handler _ _ _ _ _ _ := h.handler _ _ _ _ hp hr
  rollback := h.rollback
  empty _ hout := absurd rfl (hout kind left lp ops')
  outside r hr' := absurd (hr.symm.trans hr') (Option.some_ne_none r).symm

end

theorem sendBegin (h : Holding s) (read changed : Bool) : Holding (s.sendBegin m read changed) := by
  rcases sendBegin_ok (m := m) s read changed with ⟨e, -, -, hs⟩ | ⟨-, hs⟩
  · rw [hs]
    exact h.same rfl rfl rfl rfl
  · rw [hs]
    exact h.same rfl rfl rfl rfl

theorem deliver (h : Holding s) (e : TwEvent T) : Holding (s.deliver m e) := by
  rcases deliver_cases m s e with ⟨-, -, hd⟩ | ⟨-, -, hd⟩ | ⟨-, hd⟩
  · rw [hd]
    exact h.same rfl rfl rfl rfl
  · rw [hd]
    exact h.same rfl rfl rfl rfl
  · rw [hd]
    exact h.same rfl rfl rfl rfl

theorem handlerOp (h : Holding s) {lp : Nat} {op : HandlerOp T M}
    (hs : s.handlerOp m lp op = .ok s') : Holding s' := by
  cases op with
  | eventNew destGid offsetTs prio msg =>
      obtain ⟨-, ⟨-, rfl⟩ | ⟨-, -, rfl⟩⟩ := twEventNewUserPrio_ok hs
      · exact h.same rfl rfl rfl rfl
      · exact h.same rfl rfl rfl rfl
  | eventSend i =>
      rcases twEventSend_ok hs with ⟨-, rfl⟩ | ⟨e, msg, -, -, rfl⟩
      · exact h.same rfl rfl rfl rfl
      · have hprep : Holding (s.prepare i e msg) := h.same rfl rfl rfl rfl
        exact hprep.deliver _
  | lpSuspend b =>
      cases hs
      exact h.same rfl rfl rfl rfl
  | triggerGvtHookNow =>
      rcases twTriggerGvtHookNow_ok hs with rfl | ⟨-, rfl⟩
      · exact h
      · exact h.same rfl rfl rfl rfl

/-! ## Rollbacks -/

omit [TwStime T] in
/-- The event shifted off a `pevent_q` is the one in hand. -/
theorem shiftPevent_hand (h : Holding s) (hr : s.rollback = none) (hp : OutsideHandler s.phase)
    (kp : Nat) (e : TwEvent T) (rest : List (TwEvent T)) :
    (s.shiftPevent kp e rest).queue .hand = [e] := by
  have hhand := h.empty hr hp
  show e :: s.queue .hand = [e]
  rw [hhand]

theorem kpRollbackToSig (h : Holding s) (hr : s.rollback = none) (hp : OutsideHandler s.phase)
    {kp : Nat} {toSig : TwEventSig T} (hs : s.kpRollbackToSig m kp toSig = some s') :
    Holding s' := by
  obtain ⟨e, rest, -, -, rfl⟩ := kpRollbackToSig_some hs
  exact of_rollback (h.shiftPevent_hand hr hp kp e rest) (.inr hp)

theorem kpRollbackEvent (h : Holding s) (hr : s.rollback = none) (hp : OutsideHandler s.phase)
    {event : TwEvent T} (hs : s.kpRollbackEvent m event = .ok s') : Holding s' := by
  obtain ⟨e, rest, -, ⟨-, rfl⟩ | ⟨-, hd, tl, -, rfl⟩⟩ := kpRollbackEvent_ok hs
  · exact of_rollback (h.shiftPevent_hand hr hp _ e rest) (.inr hp)
  · exact of_rollback (h.shiftPevent_hand hr hp _ e rest) (.inr hp)

theorem rollbackStep (h : Holding s) {r : Rollback T} (hr : s.rollback = some r)
    (hs : s.rollbackStep m r = .ok s') : Holding s' := by
  unfold Pe.rollbackStep at hs
  split at hs
  next e rest hc =>
    obtain ⟨l, sig, q, qc, ev, n, freed, t, -, -, hhand, rfl⟩ := rollbackChild_frame hs
    refine ⟨fun _ _ _ _ _ => nofun, fun r' hr' => ?_, nofun, fun r' hr' => ?_⟩
    · cases hr'
      exact hhand.trans (h.rollback r hr)
    · cases hr'
      exact h.outside r hr
  next hc =>
    cases hs
    have hhand : (s.queue .hand).erase r.event = [] := by
      rw [h.rollback r hr, List.erase_cons_head]
    have hout := h.outside r hr
    rw [afterRollback_eq]
    cases hafter : r.after with
    | requeueReset =>
        rw [hafter] at hout
        exact of_empty hhand rfl (hout.resolve_left nofun)
    | requeue =>
        rw [hafter] at hout
        exact of_empty hhand rfl (hout.resolve_left nofun)
    | freeReset => exact of_empty hhand rfl nofun
    | abort kind => exact of_empty hhand rfl nofun

/-! ## The schedulers -/

theorem schedEventQ (h : Holding s) (hr : s.rollback = none) (hp : OutsideHandler s.phase)
    (hs : s.schedEventQ m = .ok s') : Holding s' := by
  rcases schedEventQ_ok hs with ⟨cev, rest, -, ⟨-, rfl⟩ | ⟨-, -, ⟨-, rfl⟩ | ⟨-, rfl⟩⟩⟩ |
    ⟨-, -, rfl⟩ | ⟨-, -, rfl⟩
  · exact h.same rfl rfl rfl rfl
  · exact h.goto rfl hr hr hp nofun
  · exact h.same rfl rfl rfl rfl
  · exact h.goto rfl hr hr hp nofun
  · exact h.same rfl rfl rfl rfl

theorem schedStraggler (h : Holding s) (hr : s.rollback = none) (hp : OutsideHandler s.phase)
    (hs : s.schedStraggler m = .ok s') : Holding s' := by
  obtain ⟨cev, rest, -, hback | ⟨-, rfl⟩⟩ := schedStraggler_ok hs
  · exact h.kpRollbackToSig hr hp hback
  · exact h.goto rfl hr hr hp nofun

theorem schedCancelQ (h : Holding s) (hr : s.rollback = none) (hp : OutsideHandler s.phase)
    (hs : s.schedCancelQ = .ok s') : Holding s' := by
  rcases schedCancelQ_ok hs with ⟨cev, rest, -, -, ⟨q, hq, rfl⟩ | ⟨-, rfl⟩⟩ | ⟨-, -, rfl⟩ |
    ⟨-, -, rfl⟩
  · refine h.same (Pool.remove_of_ne ?_) rfl rfl rfl
    rintro rfl
    rcases hq with ⟨-, hq⟩ | ⟨-, hq⟩ | ⟨-, hq⟩
    · cases hq
    · cases hq
    · cases hq
  · exact h.goto rfl hr hr hp nofun
  · exact h.goto rfl hr hr hp nofun
  · exact h.same rfl rfl rfl rfl

theorem batchStep (h : Holding s) (hr : s.rollback = none) (hp : OutsideHandler s.phase)
    {kind : BatchKind} {left : Nat} (hs : s.batchStep m kind left = .ok s') : Holding s' := by
  rcases batchStep_ok hs with ⟨c, n, rfl⟩ | ⟨cev, -, -, -, -, rfl⟩
  · exact h.goto rfl hr hr hp nofun
  · obtain ⟨l, cv, msg, ops, hrun⟩ := runEvent_frame (m := m) (s.dequeued m cev) kind (left - 1) cev
    rw [hrun]
    have hhand : cev :: s.queue .hand = [cev] := by
      rw [h.empty hr hp]
    refine ⟨fun _ _ _ _ _ _ => ⟨cev, hhand, rfl⟩, fun r hr' => ?_, fun _ hout => ?_,
      fun r hr' => ?_⟩
    · exact absurd (hr.symm.trans hr') (Option.some_ne_none r).symm
    · exact absurd rfl (hout _ _ _ _)
    · exact absurd (hr.symm.trans hr') (Option.some_ne_none r).symm

theorem handlerReturn (h : Holding s) (hr : s.rollback = none) {kind : BatchKind} {left lp : Nat}
    {cev : TwEvent T} {expired : Bool} (hp : s.phase = .handler kind left lp [])
    (hcur : s.curEvent = some cev) (hs : s.handlerReturn m kind left cev expired = .ok s') :
    Holding s' := by
  obtain ⟨cev', hhand, hcur'⟩ := h.handler _ _ _ _ hp hr
  cases hcur.symm.trans hcur'
  have hnil : (s.queue .hand).erase cev = [] := by
    rw [hhand, List.erase_cons_head]
  rcases handlerReturn_ok hs with ⟨-, -, rfl⟩ | ⟨-, -, rfl⟩ | ⟨-, -, c, p, hp', rfl⟩
  · exact of_empty hnil hr nofun
  · exact of_rollback hhand (.inl ⟨kind, rfl⟩)
  · refine of_empty hnil hr ?_
    rcases hp' with rfl | rfl
    · exact nofun
    · exact nofun

theorem fossilStep (h : Holding s) (hr : s.rollback = none) (hp : OutsideHandler s.phase)
    {kp : Nat} {children : List (TwEvent T)} (hs : s.fossilStep m kp children = .ok s') :
    Holding s' := by
  rcases fossilStep_ok hs with ⟨c, cs, -, ⟨-, rfl⟩ | ⟨-, rfl⟩⟩ | ⟨-, e, -, hce⟩ | ⟨-, -, -, rfl⟩ |
    ⟨-, -, -, rfl⟩
  · exact h.goto rfl hr hr hp nofun
  · exact h.goto rfl hr hr hp nofun
  · rcases commitEvent_ok hce with ⟨-, rfl⟩ | ⟨-, -, c, -, rfl⟩
    · exact h.goto rfl hr hr hp nofun
    · exact h.goto rfl hr hr hp nofun
  · exact h.goto rfl hr hr hp nofun
  · exact h.goto rfl hr hr hp nofun

theorem call (h : Holding s) (hr : s.rollback = none) (hp : OutsideHandler s.phase)
    {expired : Bool} {c : Call T} (hs : s.call m expired c = .ok s') : Holding s' := by
  cases c with
  | gvtStep1 =>
      obtain ⟨n, b, hg, -⟩ := gvtStep1_frame (m := m) s
      cases hs
      rw [hg]
      exact h.same rfl rfl rfl rfl
  | gvtStep1Realtime =>
      obtain ⟨n, b, hg, -⟩ := gvtStep1Realtime_frame (m := m) s expired
      cases hs
      rw [hg]
      exact h.same rfl rfl rfl rfl
  | gvtStep2 =>
      cases hs
      split
      · exact h.goto rfl hr hr hp nofun
      · exact h
  | gvtHookStep =>
      rcases gvtHookStep_ok hs with rfl | rfl | rfl | ⟨-, hc⟩
      · exact h
      · exact h.goto rfl hr hr hp nofun
      · exact h.goto rfl hr hr hp nofun
      · rcases callHook_ok hc with rfl | ⟨-, -, rfl⟩
        · exact h.goto rfl hr hr hp nofun
        · exact h.goto rfl hr hr hp nofun
  | optimisticTail | optimisticRealtimeTail | conservativeTail =>
      cases hs
      split
      · exact h
      · exact h.same rfl rfl rfl rfl
  | netRead | gvtStep2AndHook | rollbackAndCancelEventsPe | cleanupLoop | gvtStatusOn
  | schedulerOptimistic | schedulerOptimisticRealtime | schedulerConservative =>
      cases hs
      exact h.same rfl rfl rfl rfl
  | initLp | preRunLp | schedEventQ | schedCancelQ | schedBatch | schedBatchRealtime
  | conservativeBatch | kpRollbackToSig | cleanupTest | hookReturn =>
      cases hs
      exact h.goto rfl hr hr hp nofun

/-! ## Steps -/

theorem start (m : SimModel T S M R) (id : Nat) (program : List (Call T)) :
    Holding (Pe.start m id program) := of_empty rfl rfl nofun

omit [TwStime T] in
/-- A phase that is not a handler. -/
theorem outside_of_at {p : Phase T M} (hat : s.At p) (hp : OutsideHandler p) :
    OutsideHandler s.phase := by
  rw [hat.2.2]
  exact hp

theorem step (h : Holding s) {i : Input T M} (hs : s.step m i = .ok s') : Holding s' := by
  have hturn := step_turn hs
  clear hs
  cases hturn with
  | recv hn hp hs =>
      have h' : Holding { s with net := .testRecvs true } := h.same rfl rfl rfl rfl
      exact h'.recvFinish hs
  | testRecvs hn hs => exact hs ▸ h.same rfl rfl rfl rfl
  | @sent read changed e hn he hs =>
      have h' : Holding { s with net := .testSends read true } := h.same rfl rfl rfl rfl
      exact h'.sendFinish hs
  | testSends hn hs => exact hs ▸ h.same rfl rfl rfl rfl
  | recvBegin hn hs => exact h.recvBegin hs
  | sendBegin hn hs => exact hs ▸ h.sendBegin _ _
  | rollback hn hr hs => exact h.rollbackStep hr hs
  | @call c rest expired hat ht hs =>
      have h' : Holding { s with todo := rest } := h.same rfl rfl rfl rfl
      exact h'.call hat.2.1 (outside_of_at hat nofun) hs
  | outerCall hat ht hs => exact h.call hat.2.1 (outside_of_at hat nofun) hs
  | eventQ hat hs => exact h.schedEventQ hat.2.1 (outside_of_at hat nofun) hs
  | eventQRollback hat hs => exact h.schedStraggler hat.2.1 (outside_of_at hat nofun) hs
  | cancelQ hat hs => exact h.schedCancelQ hat.2.1 (outside_of_at hat nofun) hs
  | cancelQRollback hat hs => exact h.kpRollbackEvent hat.2.1 (outside_of_at hat nofun) hs
  | rollbackToSig hat hs => exact h.kpRollbackToSig hat.2.1 (outside_of_at hat nofun) hs
  | rollbackToSigDone hat _ hs =>
      exact hs ▸ h.goto rfl hat.2.1 hat.2.1 (outside_of_at hat nofun) nofun
  | batch hat hs => exact h.batchStep hat.2.1 (outside_of_at hat nofun) hs
  | handlerOp hat hs => exact (h.handlerNext hat.2.1 hat.2.2 _).handlerOp hs
  | handlerReturn hat hc hs => exact h.handlerReturn hat.2.1 hat.2.2 hc hs
  | @initOp lp op ops expired hat hs =>
      have h' : Holding { s with phase := .lpInit lp ops } :=
        h.goto rfl hat.2.1 hat.2.1 (outside_of_at hat nofun) nofun
      exact h'.handlerOp hs
  | initReturn hat _ hs =>
      exact hs ▸ h.goto rfl hat.2.1 hat.2.1 (outside_of_at hat nofun) nofun
  | whiteLoop hat hs => exact hs ▸ h.goto rfl hat.2.1 hat.2.1 (outside_of_at hat nofun) nofun
  | @reduce r o hat hs =>
      have hp := outside_of_at hat (p := .reduce r) nofun
      rw [hs]
      cases o with
      | total white =>
          refine h.goto rfl hat.2.1 hat.2.1 hp ?_
          unfold reduceDone
          dsimp only
          split
          · exact nofun
          · exact nofun
      | gvt sig => exact h.goto rfl hat.2.1 hat.2.1 hp nofun
      | flag b => exact h.goto rfl hat.2.1 hat.2.1 hp nofun
  | @reduced r flag expired hat hs =>
      have hp := outside_of_at hat (p := .reduced r flag) nofun
      rcases afterReduction_ok hs with ⟨-, -, t, hcall⟩ | ⟨-, -, rfl⟩ | ⟨-, -, rfl⟩ | ⟨-, -, rfl⟩
      · rcases callHook_ok hcall with rfl | ⟨-, -, rfl⟩
        · exact h.goto rfl hat.2.1 hat.2.1 hp nofun
        · exact h.goto rfl hat.2.1 hat.2.1 hp nofun
      · exact h.goto rfl hat.2.1 hat.2.1 hp nofun
      · exact h.goto rfl hat.2.1 hat.2.1 hp nofun
      · exact h.goto rfl hat.2.1 hat.2.1 hp nofun
  | gvtStore hat hs =>
      obtain ⟨-, n, rfl⟩ := gvtStore_ok hs
      refine h.goto rfl hat.2.1 hat.2.1 (outside_of_at hat nofun) ?_
      dsimp only
      split
      · exact nofun
      · exact nofun
  | fossil hat hs => exact h.fossilStep hat.2.1 (outside_of_at hat nofun) hs
  | hook hat hs =>
      have hp := outside_of_at hat (p := .inHook) nofun
      rcases hookStep_ok hs with ⟨-, -, t, rfl⟩ | ⟨-, rfl⟩ | ⟨-, rfl⟩
      · exact h.same rfl rfl rfl rfl
      · exact h.goto rfl hat.2.1 hat.2.1 hp nofun
      · exact h.goto rfl hat.2.1 hat.2.1 hp nofun

end Holding

end Ross.Pe

import Ross.Proofs.GvtCourse
import Ross.Proofs.WhiteMessages

/-!
# The turns of a PE between two values of GVT

Each turn keeps the PE on its course.
-/

namespace Ross

open Pe StagedProgram

variable {T S M R : Type} [TwStime T] {m : SimModel T S M R} {s s' : Pe T S M R}
  {low : TwEventSig T}

theorem Pe.Deed.keepsFlushed {i : Input T M} (hn : ∀ gvt, ¬ s.At (.gvtStore gvt))
    (hrecv : ∀ src w, i = .recv src w → ∀ c, s.hashT.find? (sameKey m w.ev) = some c →
      c.sig = w.ev.sig) (hd : Deed m s s' i) : s.KeepsFlushed s' := fun hg =>
  ⟨fun h => hd.eventsFlushed h hg hn, fun h => hd.cancelsFlushed h hg hn hrecv⟩

omit [TwStime T] in
theorem Pe.At.not_store {p : Phase T M} (hat : s.At p) (hp : ∀ gvt, p ≠ .gvtStore gvt) :
    ∀ gvt, ¬ s.At (.gvtStore gvt) := fun gvt hg => hp gvt (hat.2.2.symm.trans hg.2.2)

namespace Course

/-! ## The network -/

theorem recvFinish {src : Nat} {w : WireMsg T M} {n : NetLoop} (h : Course m low s)
    (hs : ({ s with net := n } : Pe T S M R).recvFinish m src w = .ok s')
    (hf : s.KeepsFlushed s') : Course m low s' := by
  refine h.keep ?_ hf
  obtain ⟨-, ⟨-, c, -, rfl⟩ | ⟨-, -, ⟨-, -, rfl⟩ | ⟨-, rfl⟩⟩⟩ := recvFinish_ok hs
  · exact ⟨rfl, rfl, rfl, rfl, rfl, rfl, rfl, rfl, rfl, fun _ => rfl⟩
  · exact ⟨rfl, rfl, rfl, rfl, rfl, rfl, rfl, rfl, rfl, fun _ => rfl⟩
  · exact ⟨rfl, rfl, rfl, rfl, rfl, rfl, rfl, rfl, rfl, fun _ => rfl⟩

theorem sendFinish {e : TwEvent T} {n : NetLoop} (h : Course m low s)
    (hs : ({ s with net := n } : Pe T S M R).sendFinish m e = .ok s')
    (hf : s.KeepsFlushed s') : Course m low s' := by
  refine h.keep ?_ hf
  rcases sendFinish_ok hs with ⟨-, -, rfl⟩ | ⟨-, -, -, rfl⟩ | ⟨-, -, -, rfl⟩ | ⟨-, rfl⟩
  · exact ⟨rfl, rfl, rfl, rfl, rfl, rfl, rfl, rfl, rfl, fun _ => rfl⟩
  · exact ⟨rfl, rfl, rfl, rfl, rfl, rfl, rfl, rfl, rfl, fun _ => rfl⟩
  · exact ⟨rfl, rfl, rfl, rfl, rfl, rfl, rfl, rfl, rfl, fun _ => rfl⟩
  · exact ⟨rfl, rfl, rfl, rfl, rfl, rfl, rfl, rfl, rfl, fun _ => rfl⟩

theorem recvBegin {changed : Bool} (h : Course m low s) (hs : s.recvBegin m changed = .ok s')
    (hf : s.KeepsFlushed s') : Course m low s' := by
  refine h.keep ?_ hf
  rcases recvBegin_ok hs with rfl | ⟨-, -, rfl⟩
  · exact ⟨rfl, rfl, rfl, rfl, rfl, rfl, rfl, rfl, rfl, fun _ => rfl⟩
  · exact ⟨rfl, rfl, rfl, rfl, rfl, rfl, rfl, rfl, rfl, fun _ => rfl⟩

theorem sendBegin (h : Course m low s) (read changed : Bool)
    (hf : s.KeepsFlushed (s.sendBegin m read changed)) :
    Course m low (s.sendBegin m read changed) := by
  refine h.keep ?_ hf
  rcases sendBegin_ok (m := m) s read changed with ⟨e, -, -, hs⟩ | ⟨-, hs⟩
  · rw [hs]
    exact ⟨rfl, rfl, rfl, rfl, rfl, rfl, rfl, rfl, rfl, fun _ => rfl⟩
  · rw [hs]
    exact ⟨rfl, rfl, rfl, rfl, rfl, rfl, rfl, rfl, rfl, fun _ => rfl⟩

/-! ## Rollbacks -/

theorem rollbackStep {r : Rollback T} (h : Course m low s) (hr : s.rollback = some r)
    (hp : ∀ gvt, s.phase ≠ .gvtStore gvt) (hs : s.rollbackStep m r = .ok s')
    (hf : s.KeepsFlushed s') : Course m low s' := by
  unfold Pe.rollbackStep at hs
  split at hs
  next e rest hc =>
    refine h.keep ?_ hf
    obtain ⟨_, _, _, _, _, _, _, _, hpe, -, -, rfl⟩ := rollbackChild_frame hs
    exact ⟨rfl, rfl, rfl, rfl, rfl, rfl, rfl, rfl, by simp [hr], hpe⟩
  · cases hs
    exact h.rollbackEnd hr hp hf

/-- The rollback of the head of a `pevent_q` to a signature. -/
theorem kpRollbackToSig {p : Phase T M} {kp : Nat} {toSig : TwEventSig T} (h : Course m low s)
    (hmax : low ≤ maxSig) (hat : s.At p)
    (hp : p = .eventQRollback ∨ p = .rollbackToSig kp toSig)
    (hs : s.kpRollbackToSig m kp toSig = some s') : Course m low s' := by
  obtain ⟨e, rest, -, -, rfl⟩ := kpRollbackToSig_some hs
  obtain ⟨l, cv, msg, g, heq⟩ :=
    twEventRollback_frame m (s.shiftPevent kp e rest) e .requeueReset
  have hfits := h.fits_at hat
  rcases hp with rfl | rfl
  · refine h.undo hat nofun hmax rfl rfl rfl rfl ?_
    rw [heq]
    exact hfits
  · refine h.undo hat nofun hmax rfl rfl rfl rfl ?_
    rw [heq]
    exact hfits

/-! ## `tw_sched_event_q` and `tw_sched_cancel_q` -/

theorem schedEventQ (h : Course m low s) (hat : s.At .eventQ) (hs : s.schedEventQ m = .ok s') :
    Course m low s' := by
  have hfits := h.fits_at hat
  have hr := hat.2.1
  have hphase := hat.2.2
  rcases schedEventQ_ok hs with ⟨cev, rest, -, ⟨-, rfl⟩ | ⟨-, -, ⟨-, rfl⟩ | ⟨-, rfl⟩⟩⟩ |
    ⟨hl, hq, rfl⟩ | ⟨-, -, rfl⟩
  · refine h.goto hat nofun ?_ hr rfl rfl
    dsimp only
    rw [hphase]
    exact hfits
  · exact h.goto hat nofun hfits hr rfl rfl
  · refine h.goto hat nofun ?_ hr rfl rfl
    dsimp only
    rw [hphase]
    exact hfits
  · refine h.goto hat nofun ⟨.events, fun _ q e he hor => ?_, hfits⟩ hr rfl rfl
    have he : e ∈ s.queue q := he
    rcases hor with rfl | rfl
    · rw [hq] at he
      cases he
    · rw [hl] at he
      cases he
  · refine h.goto hat nofun ?_ hr rfl rfl
    dsimp only
    rw [hphase]
    exact hfits

theorem schedStraggler (h : Course m low s) (hmax : low ≤ maxSig) (hat : s.At .eventQRollback)
    (hs : s.schedStraggler m = .ok s') : Course m low s' := by
  obtain ⟨cev, rest, -, hback | ⟨-, rfl⟩⟩ := schedStraggler_ok hs
  · exact h.kpRollbackToSig hmax hat (.inl rfl) hback
  · exact h.goto hat nofun (h.fits_at hat) hat.2.1 rfl rfl

/-- A processed event over the floor is not committed yet. -/
theorem target (hfl : s.stock.Floor m low) (hkept : s.stock.Kept m)
    (hhand : s.queue .hand = []) {e : TwEvent T} (ho : (s.ev e).owner = .kpPeventQ)
    (hlow : low ≤ e.sig) : e ∈ s.queue (.peventQ (m.kpOf e.destLp)) := by
  rcases hkept e ho with ⟨q, hk, he⟩ | he
  · have he : e ∈ s.queue q := he
    cases q with
    | peventQ k =>
        have hk : k = m.kpOf e.destLp := hk
        exact hk ▸ he
    | hand =>
        rw [hhand] at he
        cases he
    | fossil => exact absurd ((hfl.queue .fossil e he).2 rfl) hlow.not_gt
    | _ => exact hk.elim
  · exact absurd (hfl.commits e he) hlow.not_gt

theorem schedCancelQ (h : Course m low s) (hfl : s.stock.Floor m low) (hk : KpOrder m s)
    (hkept : s.stock.Kept m) (hat : s.At .cancelQ) (hs : s.schedCancelQ = .ok s')
    (hf : s.KeepsFlushed s') : Course m low s' := by
  obtain ⟨hst, had⟩ : Drain.events.Holds m low s ∧ Drain.cancels.Admits s.todo := h.fits_at hat
  have hr := hat.2.1
  have hphase := hat.2.2
  rcases schedCancelQ_ok hs with ⟨cev, rest, hl, -, ⟨q, -, rfl⟩ | ⟨ho, rfl⟩⟩ | ⟨hl, hc, rfl⟩ |
    ⟨-, -, rfl⟩
  · refine h.goto hat nofun ?_ hr rfl rfl
    dsimp only
    rw [hphase]
    exact ⟨hst.keep rfl rfl rfl rfl hf, had⟩
  · have hhand : s.queue .hand = [] := hk.empty hr fun _ _ _ _ hp => by
      cases hphase.symm.trans hp
    have hlow : low ≤ cev.sig :=
      (hfl.cancelList cev (show cev ∈ s.cancelList by rw [hl]; exact List.mem_cons_self)).1
    refine h.goto hat nofun ⟨⟨hlow, .inr ?_⟩, hst.keep rfl rfl rfl rfl hf, had⟩ hr rfl rfl
    exact target hfl hkept hhand ho hlow
  · refine h.goto hat nofun ⟨.cancels, fun hg => ⟨hst hg, fun e he => ?_, fun e he => ?_⟩, had⟩
      hr rfl rfl
    · have he : e ∈ s.cancelQ := he
      rw [hc] at he
      cases he
    · have he : e ∈ s.cancelList := he
      rw [hl] at he
      cases he
  · refine h.goto hat nofun ?_ hr rfl rfl
    dsimp only
    rw [hphase]
    exact ⟨hst.keep rfl rfl rfl rfl hf, had⟩

theorem kpRollbackEvent {target : TwEvent T} (h : Course m low s) (hmax : low ≤ maxSig)
    (hat : s.At (.cancelQRollback target)) (hs : s.kpRollbackEvent m target = .ok s')
    (hf : s.KeepsFlushed s') : Course m low s' := by
  obtain ⟨⟨hlow, htarget⟩, hst, had⟩ : s.Targets m low target ∧ Drain.events.Holds m low s ∧
    Drain.cancels.Admits s.todo := h.fits_at hat
  have hmem : target ∈ s.queue (.peventQ (m.kpOf target.destLp)) :=
    htarget.resolve_left fun ⟨r, hr, _⟩ => absurd (hat.2.1.symm.trans hr) (by simp)
  obtain ⟨e, rest, hq, ⟨rfl, rfl⟩ | ⟨hne, hd, tl, rfl, rfl⟩⟩ := kpRollbackEvent_ok hs
  · refine h.undo hat nofun hmax rfl rfl rfl (.inr rfl) ?_
    obtain ⟨l, cv, msg, g, heq⟩ :=
      twEventRollback_frame m (s.shiftPevent (m.kpOf e.destLp) e rest) e .freeReset
    rw [heq] at hf ⊢
    exact ⟨⟨hlow, .inl ⟨_, rfl, rfl⟩⟩, fun hg => (hf hg).1 (hst hg), had⟩
  · refine h.undo hat nofun hmax rfl rfl rfl (.inl rfl) ?_
    obtain ⟨l, cv, msg, g, heq⟩ := twEventRollback_frame m
      ((s.shiftPevent (m.kpOf target.destLp) e (hd :: tl)).setLastSig (m.kpOf target.destLp) hd.sig)
      e .requeue
    rw [heq] at hf ⊢
    rw [hq] at hmem
    refine ⟨⟨hlow, .inr ?_⟩, fun hg => (hf hg).1 (hst hg), had⟩
    show target ∈ (s.shiftPevent (m.kpOf target.destLp) e (hd :: tl)).queue
      (.peventQ (m.kpOf target.destLp))
    rw [shiftPevent_self]
    exact (List.mem_cons.mp hmem).resolve_left (Ne.symm hne)

/-! ## The batches -/

theorem batchStep {kind : BatchKind} {left : Nat} (h : Course m low s)
    (hfl : s.stock.Floor m low) (ht : s.InTime m) (hat : s.At (.batch kind left))
    (hs : s.batchStep m kind left = .ok s') : Course m low s' := by
  have had : Drain.batch.Admits s.todo := h.fits_at hat
  have hr := hat.2.1
  rcases batchStep_ok hs with ⟨c, n, rfl⟩ | ⟨cev, hcev, -, -, -, rfl⟩
  · exact h.goto hat nofun ⟨.batch, trivial, had⟩ hr rfl rfl
  · obtain ⟨l, cv, msg, ops, hrun⟩ :=
      runEvent_frame (m := m) (s.dequeued m cev) kind (left - 1) cev
    have hmem : cev ∈ s.queue .pq := (pqLeast_some hcev).1
    have hlast : (s.dequeued m cev).lastSig (m.kpOf cev.destLp) = cev.sig :=
      Function.update_self ..
    rw [hrun]
    refine h.goto hat nofun ⟨?_, fun e msg he => ?_, had⟩ hr rfl rfl
    · dsimp only
      rw [hlast]
      exact ⟨(hfl.queue .pq cev hmem).1 rfl, ht.queue .pq cev hmem⟩
    · cases he

end Course

/-- What a call of a handler into the kernel does to the signatures. -/
structure Pe.Calls (m : SimModel T S M R) (s s' : Pe T S M R) (lp : Nat)
    (op : HandlerOp T M) : Prop where
  phase : s'.phase = s.phase
  todo : s'.todo = s.todo
  rollback : s'.rollback = s.rollback
  gvtSig : s'.gvtSig = s.gvtSig
  lastSig : s'.lastSig = s.lastSig
  curEvent : s'.curEvent = s.curEvent
  trigger : s'.trigger = s.trigger ∨ op = .triggerGvtHookNow ∧ s'.trigger = { s.trigger with
    sigAt := (s.lastSig (m.kpOf lp)).extend 0 }
  handles : ∀ e msg, .buffer e msg ∈ s'.handles → .buffer e msg ∈ s.handles ∨
    ∃ destGid offsetTs prio, op = .eventNew destGid offsetTs prio msg ∧
      e.sig = s.newSig m offsetTs lp prio

theorem Pe.handlerOp_calls {lp : Nat} {op : HandlerOp T M} (hs : s.handlerOp m lp op = .ok s') :
    s.Calls m s' lp op := by
  have used : ∀ (i : Nat) (o : Option (TwEvent T)) (e : TwEvent T) (msg : M),
      .buffer e msg ∈ s.handles.set i (.sent o) → .buffer e msg ∈ s.handles := fun i o e msg he =>
    (List.mem_or_eq_of_mem_set he).resolve_right (by simp)
  cases op with
  | eventNew destGid offsetTs prio msg =>
      obtain ⟨-, ⟨-, rfl⟩ | ⟨-, -, rfl⟩⟩ := twEventNewUserPrio_ok hs
      · refine ⟨rfl, rfl, rfl, rfl, rfl, rfl, .inl rfl, fun e msg' he => .inl ?_⟩
        exact (List.mem_append.mp he).resolve_right (by simp)
      · refine ⟨rfl, rfl, rfl, rfl, rfl, rfl, .inl rfl, fun e msg' he => ?_⟩
        rcases List.mem_append.mp he with he | he
        · exact .inl he
        · cases List.mem_singleton.mp he
          exact .inr ⟨destGid, offsetTs, prio, rfl, rfl⟩
  | eventSend i =>
      rcases twEventSend_ok hs with ⟨-, rfl⟩ | ⟨e, msg, -, -, rfl⟩
      · exact ⟨rfl, rfl, rfl, rfl, rfl, rfl, .inl rfl, fun e msg he => .inl (used i none e msg he)⟩
      · have hused : ∀ x msg', .buffer x msg' ∈ s.handles.set i (.sent (some e)) →
            .buffer x msg' ∈ s.handles ∨ ∃ destGid offsetTs prio,
              (.eventSend i : HandlerOp T M) = .eventNew destGid offsetTs prio msg' ∧
                x.sig = s.newSig m offsetTs lp prio := fun x msg' hx =>
          .inl (used i _ x msg' hx)
        rcases deliver_cases m (s.prepare i e msg) (s.stamp e) with
          ⟨-, -, hd⟩ | ⟨-, -, hd⟩ | ⟨-, hd⟩
        · rw [hd]
          exact ⟨rfl, rfl, rfl, rfl, rfl, rfl, .inl rfl, hused⟩
        · rw [hd]
          exact ⟨rfl, rfl, rfl, rfl, rfl, rfl, .inl rfl, hused⟩
        · rw [hd]
          exact ⟨rfl, rfl, rfl, rfl, rfl, rfl, .inl rfl, hused⟩
  | lpSuspend b =>
      cases hs
      exact ⟨rfl, rfl, rfl, rfl, rfl, rfl, .inl rfl, fun _ _ he => .inl he⟩
  | triggerGvtHookNow =>
      rcases twTriggerGvtHookNow_ok hs with rfl | ⟨-, rfl⟩
      · exact ⟨rfl, rfl, rfl, rfl, rfl, rfl, .inl rfl, fun _ _ he => .inl he⟩
      · exact ⟨rfl, rfl, rfl, rfl, rfl, rfl, .inr ⟨rfl, rfl⟩, fun _ _ he => .inl he⟩

/-- The events of a handler after one of its calls. -/
theorem Pe.Calls.handlesAbove {lp : Nat} {op : HandlerOp T M} (hc : s.Calls m s' lp op)
    (h : s.HandlesAbove low)
    (hnew : ∀ destGid offsetTs prio msg, op = .eventNew destGid offsetTs prio msg →
      low ≤ s.newSig m offsetTs lp prio ∧
        ∀ cev, s.curEvent = some cev → cev.sig ≤ s.newSig m offsetTs lp prio) :
    s'.HandlesAbove low := by
  intro e msg he
  rw [hc.curEvent]
  rcases hc.handles e msg he with he | ⟨destGid, offsetTs, prio, hop, hsig⟩
  · exact h e msg he
  · rw [hsig]
    exact hnew destGid offsetTs prio msg hop

namespace Course

/-- A call of a handler into the kernel, for the handlers of both kinds. -/
theorem calls {p p' : Phase T M} {lp : Nat} {op : HandlerOp T M} (h : Course m low s)
    (hat : s.At p) (hp : ∀ gvt, p ≠ .gvtStore gvt)
    (hc : ({ s with phase := p' } : Pe T S M R).Calls m s' lp op)
    (hlow : low ≤ s.lastSig (m.kpOf lp) ∧ (s.lastSig (m.kpOf lp)).recvTs < m.tsEnd)
    (hfits : p'.Fits m low s') : Course m low s' where
  fits := hc.phase ▸ hfits
  rolls r hr := absurd ((hc.rollback.trans hat.2.1).symm.trans hr) (by simp)
  gvt _ := by
    rw [hc.gvtSig]
    exact h.gvt_at hat hp
  trigger hg hst := by
    rcases hc.trigger with ht | ⟨-, ht⟩
    · rw [ht] at hst ⊢
      exact h.trigger hg hst
    · rw [ht]
      exact ⟨hlow.1.trans (TwEventSig.lt_extend _ _).le, .inr hlow.2⟩

theorem handlerOp {kind : BatchKind} {left lp : Nat} {op : HandlerOp T M}
    {ops : List (HandlerOp T M)} {cev : TwEvent T} (h : Course m low s)
    (hat : s.At (.handler kind left lp (op :: ops))) (hcur : s.curEvent = some cev)
    (hcev : low ≤ cev.sig)
    (hnew : ∀ destGid offsetTs prio msg, op = .eventNew destGid offsetTs prio msg →
      cev.sig ≤ s.newSig m offsetTs lp prio)
    (hs : ({ s with phase := .handler kind left lp ops } : Pe T S M R).handlerOp m lp op =
      .ok s') : Course m low s' := by
  obtain ⟨hlow, hh, had⟩ := h.fits_at hat
  have hc := handlerOp_calls hs
  refine h.calls hat nofun hc hlow ⟨?_, hc.handlesAbove hh fun d o p msg hop => ?_, ?_⟩
  · rw [hc.lastSig]
    exact hlow
  · have hle := hnew d o p msg hop
    refine ⟨hcev.trans hle, fun cev' hcur' => ?_⟩
    cases hcur.symm.trans hcur'
    exact hle
  · rw [hc.todo]
    exact had

theorem handlerReturn {kind : BatchKind} {left lp : Nat} {cev : TwEvent T} {expired : Bool}
    (h : Course m low s) (hmax : low ≤ maxSig) (hcev : low ≤ cev.sig ∧ cev.InTime m)
    (hat : s.At (.handler kind left lp [])) (hcur : s.curEvent = some cev)
    (hs : s.handlerReturn m kind left cev expired = .ok s') : Course m low s' := by
  obtain ⟨hlow, hh, had⟩ : (low ≤ s.lastSig (m.kpOf lp) ∧
      (s.lastSig (m.kpOf lp)).recvTs < m.tsEnd) ∧ s.HandlesAbove low ∧
    Drain.batch.Admits s.todo := h.fits_at hat
  have hr := hat.2.1
  rcases handlerReturn_ok hs with ⟨-, -, rfl⟩ | ⟨-, -, rfl⟩ | ⟨-, -, c, p, hp, rfl⟩
  · exact h.goto hat nofun had hr rfl rfl
  · obtain ⟨l, cv, msg, g, heq⟩ :=
      twEventRollback_frame m ({ s with cevAbort := false } : Pe T S M R) cev (.abort kind)
    refine h.undo (t := { s with cevAbort := false }) hat nofun hmax rfl rfl rfl ⟨kind, rfl⟩ ?_
    rw [heq]
    refine ⟨?_, fun e msg he => ?_, had⟩
    · dsimp only
      by_cases hkp : m.kpOf lp = m.kpOf cev.destLp
      · rw [hkp, Function.update_self]
        exact hcev
      · rw [Function.update_of_ne hkp]
        exact hlow
    · obtain ⟨hle, hle'⟩ := hh e msg he
      exact ⟨hle, fun cev' hcur' => hle' cev' (hcur.trans hcur')⟩
  · rcases hp with rfl | rfl
    · exact h.goto hat nofun ⟨.batch, trivial, had⟩ hr rfl rfl
    · exact h.goto hat nofun had hr rfl rfl

/-! ## The handlers before the run -/

/-- Before the run GVT is zero. -/
theorem zero_le (h : Course m low s) (hend : (0 : T) < m.tsEnd) {p : Phase T M} (hat : s.At p)
    (hp : ∀ gvt, p ≠ .gvtStore gvt) (hst : Drain.start.Holds m low s) : low ≤ zeroSig := by
  obtain ⟨hzero, -⟩ := hst
  have hstands := h.gvt_at hat hp
  rw [hzero] at hstands
  exact hstands.le_of_end le_rfl hend

theorem initOp {lp : Nat} {op : HandlerOp T M} {ops : List (HandlerOp T M)} (h : Course m low s)
    (hend : (0 : T) < m.tsEnd) (hat : s.At (.lpInit lp (op :: ops)))
    (hnew : ∀ destGid offsetTs prio msg, op = .eventNew destGid offsetTs prio msg →
      zeroSig ≤ s.newSig m offsetTs lp prio)
    (hs : ({ s with phase := .lpInit lp ops } : Pe T S M R).handlerOp m lp op = .ok s') :
    Course m low s' := by
  obtain ⟨hcur, hh, hst, had⟩ : s.curEvent = none ∧ s.HandlesAbove low ∧
    Drain.start.Holds m low s ∧ Drain.start.Admits s.todo := h.fits_at hat
  have hzero := h.zero_le hend hat nofun hst
  have hc := handlerOp_calls hs
  refine h.calls hat nofun hc ?_ ⟨hc.curEvent.trans hcur, hc.handlesAbove hh ?_, ?_, ?_⟩
  · rw [hst.2]
    exact ⟨hzero, hend⟩
  · intro d o p msg hop
    refine ⟨hzero.trans (hnew d o p msg hop), fun cev hcev => ?_⟩
    cases hcur.symm.trans hcev
  · exact ⟨hc.gvtSig.trans hst.1, fun kp => by rw [hc.lastSig]; exact hst.2 kp⟩
  · rw [hc.todo]
    exact had

theorem initReturn {lp : Nat} (h : Course m low s) (hat : s.At (.lpInit lp [])) :
    Course m low { s with phase := .idle } := by
  obtain ⟨-, -, hst, had⟩ := h.fits_at hat
  exact h.goto hat nofun ⟨.start, hst, had⟩ hat.2.1 rfl rfl

/-! ## The hook -/

/-- The hook is called, past the end of time with GVT put to the trigger. -/
theorem callHook {p : Phase T M} {g : GvtHookTrigger T} {rest : List (Call T)}
    (h : Course m low s) (hmax : low ≤ maxSig) (hat : s.At p) (hp : ∀ gvt, p ≠ .gvtStore gvt)
    (had : Drain.batch.Admits rest) (hsig : TwEventSig.Bounds m low g.sigAt)
    (hs : ({ s with trigger := g, todo := rest } : Pe T S M R).callHook m = .ok s') :
    Course m low s' := by
  have hstands := h.gvt_at hat hp
  have none : ∀ {r : Rollback T} {P : Prop}, s.rollback = some r → P := fun hr =>
    absurd (hat.2.1.symm.trans hr) (by simp)
  rcases callHook_ok hs with rfl | ⟨hend, -, rfl⟩
  · exact ⟨had, fun _ hr => none hr, fun _ => hstands, fun _ _ => hsig⟩
  · refine ⟨had, fun _ hr => none hr, fun _ => .inr ?_, fun _ _ => hsig⟩
    have hlow := hstands.end_le hend
    have hge := hlow.trans (TwEventSig.recvTs_le_of_le hmax)
    rw [hsig.eq_max hlow]
    exact ⟨hge, hlow, le_rfl⟩

theorem afterReduction {r : Reduction} {flag : Bool} (h : Course m low s) (hmax : low ≤ maxSig)
    (hat : s.At (.reduced r flag)) (hs : s.afterReduction m r flag = .ok s') :
    Course m low s' := by
  have hr := hat.2.1
  have hfits := h.fits_at hat
  cases r with
  | white => cases hs
  | lvt => cases hs
  | hookAll =>
      obtain ⟨⟨hg, hst⟩, had⟩ := hfits
      cases flag with
      | true =>
          refine h.callHook (g := { s.trigger with status := .disabled }) hmax hat nofun had ?_ hs
          exact h.trigger hg (by simp [hst])
      | false =>
          cases hs
          exact h.goto hat nofun ⟨.batch, trivial, had⟩ hr rfl rfl
  | hookAny =>
      cases flag with
      | true =>
          exact h.callHook (g := { s.trigger with sigAt := maxSig }) hmax hat nofun hfits
            (.max hmax) hs
      | false =>
          cases hs
          exact h.goto hat nofun ⟨.batch, trivial, hfits⟩ hr rfl rfl
  | cleanupCancel =>
      cases flag with
      | true =>
          cases hs
          exact h.goto hat nofun ⟨.batch, trivial, .cons rfl hfits⟩ hr rfl rfl
      | false =>
          cases hs
          exact h.goto hat nofun hfits hr rfl rfl
  | cleanupEvent =>
      cases flag with
      | true =>
          cases hs
          exact h.goto hat nofun ⟨.batch, trivial, .cons rfl hfits⟩ hr rfl rfl
      | false =>
          cases hs
          exact h.goto hat nofun ⟨.batch, trivial, hfits⟩ hr rfl rfl

/-- What the hook does; it does not ask for a time that has gone. -/
theorem hookStep {i : Input T M} (h : Course m low s) (hmax : low ≤ maxSig) (hat : s.At .inHook)
    (hhook : ∀ sig, i = .hookAt sig → s.gvtSig ≤ sig ∧ sig.recvTs < m.tsEnd)
    (hs : s.hookStep i = .ok s') : Course m low s' := by
  have had : Drain.batch.Admits s.todo := h.fits_at hat
  have hr := hat.2.1
  have hstands := h.gvt_at hat nofun
  have set : ∀ g : GvtHookTrigger T, TwEventSig.Bounds m low g.sigAt →
      Course m low { s with trigger := g } := fun g hg =>
    ⟨by show s.phase.Fits m low _; rw [hat.2.2]; exact had,
      fun _ hr' => absurd (hr.symm.trans hr') (by simp), fun _ => hstands, fun _ _ => hg⟩
  unfold Pe.hookStep at hs
  split at hs
  next sig =>
    cases hs
    obtain ⟨hle, hend⟩ := hhook sig rfl
    exact set _ ⟨hstands.le_of_end hle hend, .inr hend⟩
  next n =>
    unfold twTriggerGvtHookEvery at hs
    split at hs
    · cases hs
    · cases hs
      exact set _ (.max hmax)
  · cases hs
    exact set _ (.max hmax)
  · cases hs
    exact h.goto hat nofun ⟨.batch, trivial, .cons rfl (.cons rfl had)⟩ hr rfl rfl
  · cases hs
    exact h.goto hat nofun ⟨.batch, trivial, had⟩ hr rfl rfl
  · cases hs

theorem gvtHookStep {rest : List (Call T)} (h : Course m low s) (hmax : low ≤ maxSig)
    (hat : s.At .idle) (had : Drain.batch.Admits rest)
    (hs : ({ s with todo := rest } : Pe T S M R).gvtHookStep m = .ok s') : Course m low s' := by
  have hr := hat.2.1
  have back : Course m low { s with todo := rest } :=
    h.goto hat nofun (by show s.phase.Fits m low _; rw [hat.2.2]; exact ⟨.batch, trivial, had⟩)
      hr rfl rfl
  unfold Pe.gvtHookStep at hs
  split at hs
  next hg =>
    split at hs
    · cases hs
      exact back
    next hst =>
      cases hs
      exact h.goto hat nofun ⟨⟨hg, hst⟩, had⟩ hr rfl rfl
    · cases hs
      exact h.goto hat nofun had hr rfl rfl
    next hst =>
      split at hs
      · have hst : s.trigger.status = .everyNGvt := hst
        exact h.callHook (g := s.trigger) hmax hat nofun had (h.trigger hg (by simp [hst])) hs
      · cases hs
        exact back
  · cases hs
    exact back

/-! ## GVT and fossil collection -/

theorem gvtStore {gvt : TwEventSig T} (h : Course m low s) (hat : s.At (.gvtStore gvt))
    (hs : s.gvtStore m gvt = .ok s') : Course m low s' := by
  obtain ⟨⟨hlow, -⟩, had⟩ : (low = min gvt maxSig ∧ s.gvtSig ≤ low) ∧
    Drain.batch.Admits s.todo := h.fits_at hat
  obtain ⟨-, n, rfl⟩ := gvtStore_ok hs
  refine ⟨?_, fun _ hr => absurd (hat.2.1.symm.trans hr) (by simp), fun _ => .inl hlow.symm,
    h.trigger⟩
  dsimp only
  split
  · exact had
  · exact ⟨.batch, trivial, had⟩

theorem fossilStep {kp : Nat} {children : List (TwEvent T)} (h : Course m low s)
    (hat : s.At (.fossilCollect kp children)) (hs : s.fossilStep m kp children = .ok s') :
    Course m low s' := by
  have had : Drain.batch.Admits s.todo := h.fits_at hat
  have hr := hat.2.1
  rcases fossilStep_ok hs with ⟨c, cs, -, ⟨-, rfl⟩ | ⟨-, rfl⟩⟩ | ⟨-, e, -, hcommit⟩ |
    ⟨-, -, -, rfl⟩ | ⟨-, -, -, rfl⟩
  · exact h.goto hat nofun had hr rfl rfl
  · exact h.goto hat nofun had hr rfl rfl
  · rcases commitEvent_ok hcommit with ⟨-, rfl⟩ | ⟨-, -, c, -, rfl⟩
    · exact h.goto hat nofun had hr rfl rfl
    · exact h.goto hat nofun had hr rfl rfl
  · exact h.goto hat nofun had hr rfl rfl
  · exact h.goto hat nofun ⟨.batch, trivial, had⟩ hr rfl rfl

end Course

/-! ## Calls -/

theorem Drain.Holds.pop {st : Drain} (h : st.Holds m low s) {c : Call T} {rest : List (Call T)}
    (ht : s.todo = c :: rest) : st.Holds m low ({ s with todo := rest } : Pe T S M R) := by
  cases st with
  | rolling =>
      intro kp sig hmem
      exact h kp sig (by rw [ht]; exact List.mem_cons_of_mem c hmem)
  | _ => exact h

omit [TwStime T] in
/-- Only `tw_scheduler_rollback_and_cancel_events_pe` rolls KPs back. -/
theorem Drain.admits_no_rollback {st : Drain} (hne : st ≠ .rolling) {cs : List (Call T)}
    (h : st.Admits cs) (kp : Nat) (sig : TwEventSig T) : .kpRollbackToSig kp sig ∉ cs := by
  intro hmem
  refine Admits.forall_mem (P := (· ≠ .rolling)) (Q := (· ≠ .kpRollbackToSig kp sig)) ?_ hne h
    _ hmem rfl
  intro st c st' hst hc
  cases st <;> cases c <;> cases hc <;> simp at hst ⊢

namespace Course

/-- A call after which the PE is at the next call. -/
theorem idle (h : Course m low s) (st : Drain) (hat : s.At .idle) (hphase : s'.phase = .idle)
    (hst : st.Holds m low s') (had : st.Admits s'.todo) (hr : s'.rollback = none)
    (hgvt : s'.gvtSig = s.gvtSig) (htrigger : s'.trigger = s.trigger) : Course m low s' :=
  h.goto hat nofun (hphase ▸ ⟨st, hst, had⟩) hr hgvt htrigger

theorem callInit {rest : List (Call T)} (h : Course m low s) (hat : s.At .idle)
    (hst : Drain.start.Holds m low s) (had : Drain.start.Admits rest) (lp : Nat)
    (f : Nat → S → S × List (HandlerOp T M)) :
    Course m low (({ s with todo := rest } : Pe T S M R).callInit lp f) :=
  h.goto hat nofun ⟨rfl, fun _ _ he => absurd he List.not_mem_nil, hst, had⟩ hat.2.1 rfl rfl

/-- The loop body of a scheduler, or its end. -/
theorem schedulerTail {rest : List (Call T)} {batch scheduler : Call T} (h : Course m low s)
    (hat : s.At .idle) (had : Drain.batch.Admits rest)
    (hbatch : Drain.next .batch batch = some .batch)
    (hscheduler : Drain.next .batch scheduler = some .batch) :
    Course m low (if m.tsEnd < s.gvtSig.recvTs then { s with todo := rest }
      else { s with todo := [batch, scheduler] ++ rest }) := by
  split
  · exact h.idle .batch hat hat.2.2 trivial had hat.2.1 rfl rfl
  · exact h.idle .batch hat hat.2.2 trivial (.cons hbatch (.cons hscheduler had)) hat.2.1
      rfl rfl

theorem call {c : Call T} {rest : List (Call T)} {expired : Bool} (h : Course m low s)
    (hmax : low ≤ maxSig) (hat : s.At .idle) (ht : s.todo = c :: rest)
    (hs : ({ s with todo := rest } : Pe T S M R).call m expired c = .ok s') :
    Course m low s' := by
  obtain ⟨st, hst, hprog⟩ : ∃ st : Drain, st.Holds m low s ∧ st.Admits s.todo := h.fits_at hat
  have hr := hat.2.1
  have hphase := hat.2.2
  rw [ht] at hprog
  obtain ⟨st', hnext, had⟩ := admits_cons.mp hprog
  have hpop := hst.pop ht
  cases c with
  | initLp lp =>
      cases st <;> cases hnext
      cases hs
      exact h.callInit hat hst had lp m.init
  | preRunLp lp =>
      cases st <;> cases hnext
      cases hs
      exact h.callInit hat hst had lp m.preRun
  | netRead =>
      have heq : st' = st := by cases st <;> cases hnext <;> rfl
      subst heq
      cases hs
      exact h.idle st' hat hphase (hpop.keep rfl rfl rfl rfl fun _ => ⟨id, id⟩) had hr rfl
        rfl
  | gvtStep1 =>
      cases st <;> cases hnext
      cases hs
      obtain ⟨n, b, heq, -⟩ := gvtStep1_frame (m := m) { s with todo := rest }
      rw [heq]
      exact h.idle .batch hat hphase trivial had hr rfl rfl
  | gvtStep1Realtime =>
      cases st <;> cases hnext
      cases hs
      obtain ⟨n, b, heq, -⟩ := gvtStep1Realtime_frame (m := m) { s with todo := rest } expired
      rw [heq]
      exact h.idle .batch hat hphase trivial had hr rfl rfl
  | schedEventQ =>
      cases st <;> cases hnext
      cases hs
      exact h.goto hat nofun had hr rfl rfl
  | schedCancelQ =>
      cases st <;> cases hnext
      cases hs
      exact h.goto hat nofun ⟨hst, had⟩ hr rfl rfl
  | gvtStep2 =>
      cases st <;> cases hnext
      cases hs
      split
      next hg => exact h.goto hat nofun ⟨⟨hg, hst hg⟩, had⟩ hr rfl rfl
      · exact h.idle .batch hat hphase trivial had hr rfl rfl
  | gvtStep2AndHook =>
      cases st <;> cases hnext
      cases hs
      refine h.idle .cancels hat hphase hst (.cons rfl ?_) hr rfl rfl
      split
      · exact .cons rfl had
      · exact had
  | gvtHookStep =>
      cases st <;> cases hnext
      exact h.gvtHookStep hmax hat had hs
  | schedBatch =>
      cases st <;> cases hnext
      cases hs
      exact h.goto hat nofun had hr rfl rfl
  | schedBatchRealtime =>
      cases st <;> cases hnext
      cases hs
      exact h.goto hat nofun had hr rfl rfl
  | kpRollbackToSig kp toSig =>
      cases st <;> cases hnext
      cases hs
      refine h.goto hat nofun ⟨?_, hpop, had⟩ hr rfl rfl
      exact hst kp toSig (by rw [ht]; exact List.mem_cons_self)
  | rollbackAndCancelEventsPe =>
      cases st <;> cases hnext
      cases hs
      have hstands := h.gvt_at hat nofun
      have hmap : ∀ c ∈ (List.range m.nkp).map (.kpRollbackToSig · s.gvtSig : Nat → Call T),
          Drain.next .rolling c = some .rolling := by
        intro c hc
        obtain ⟨kp, -, rfl⟩ := List.mem_map.mp hc
        rfl
      refine h.idle .rolling hat hphase ?_ (Admits.append_of_keep hmap (.cons rfl had))
        hr rfl rfl
      intro kp sig hmem
      rcases List.mem_append.mp hmem with hmem | hmem
      · obtain ⟨k, -, heq⟩ := List.mem_map.mp hmem
        cases heq
        exact hstands.reaches
      · rcases List.mem_cons.mp hmem with heq | hmem
        · cases heq
        · exact absurd hmem (Drain.admits_no_rollback (by simp) had kp sig)
  | cleanupLoop =>
      have hbatch : st' = .batch := by cases st <;> cases hnext <;> rfl
      subst hbatch
      cases hs
      refine h.idle .batch hat hphase trivial ?_ hr rfl rfl
      dsimp only
      rw [List.append_assoc]
      exact Drain.admits_readCall m
        (.cons rfl (.cons rfl (.cons rfl (.cons rfl (.cons rfl had)))))
  | gvtStatusOn =>
      cases st <;> cases hnext
      cases hs
      exact h.idle .batch hat hphase trivial had hr rfl rfl
  | cleanupTest =>
      cases st <;> cases hnext
      cases hs
      exact h.goto hat nofun had hr rfl rfl
  | hookReturn =>
      cases st <;> cases hnext
      cases hs
      exact h.goto hat nofun had hr rfl rfl
  | schedulerOptimistic =>
      have hbatch : st' = .batch := by cases st <;> cases hnext <;> rfl
      subst hbatch
      cases hs
      refine h.idle .batch hat hphase trivial ?_ hr rfl rfl
      dsimp only
      rw [List.append_assoc]
      exact Drain.admits_readCall m
        (.cons rfl (.cons rfl (.cons rfl (.cons rfl (.cons rfl had)))))
  | optimisticTail =>
      cases st <;> cases hnext
      cases hs
      exact h.schedulerTail hat had rfl rfl
  | schedulerOptimisticRealtime =>
      have hbatch : st' = .batch := by cases st <;> cases hnext <;> rfl
      subst hbatch
      cases hs
      refine h.idle .batch hat hphase trivial ?_ hr rfl rfl
      dsimp only
      rw [List.append_assoc]
      exact Drain.admits_readCall m
        (.cons rfl (.cons rfl (.cons rfl (.cons rfl (.cons rfl had)))))
  | optimisticRealtimeTail =>
      cases st <;> cases hnext
      cases hs
      exact h.schedulerTail hat had rfl rfl
  | conservativeBatch => cases st <;> cases hnext
  | schedulerConservative => cases st <;> cases hnext
  | conservativeTail => cases st <;> cases hnext

end Course

/-! ## What a step takes up -/

/-- The signature of the event whose handler runs; zero before the run. -/
def Pe.parentSig (s : Pe T S M R) : TwEventSig T := s.curEvent.elim zeroSig TwEvent.sig

/-- What is asked of the model at a step: no event is undone over two or more processed ones, no
event is created below its parent, and the hook asks for a time that is still to come. -/
structure Pe.Careful (m : SimModel T S M R) (s : Pe T S M R) (i : Input T M) : Prop where
  order : ¬ s.UndoesOverProcessed m
  creates : ∀ lp destGid offsetTs prio msg, s.Speaks lp (.eventNew destGid offsetTs prio msg) →
    s.parentSig ≤ s.newSig m offsetTs lp prio
  hook : ∀ sig, i = .hookAt sig → s.gvtSig ≤ sig ∧ sig.recvTs < m.tsEnd

namespace Course

/-- The event of a handler is in hand, over the floor. -/
theorem current (hfl : s.stock.Floor m low) (hk : KpOrder m s) (ht : s.InTime m)
    {kind : BatchKind} {left lp : Nat} {ops : List (HandlerOp T M)}
    (hat : s.At (.handler kind left lp ops)) :
    ∃ cev, cev ∈ s.queue .hand ∧ s.curEvent = some cev ∧ low ≤ cev.sig ∧ cev.InTime m := by
  obtain ⟨cev, hhand, hcur, -⟩ := hk.handler kind left lp ops hat.2.2
  have hmem : cev ∈ s.queue .hand := by simp [hhand]
  exact ⟨cev, hmem, hcur, (hfl.queue .hand cev hmem).1 rfl, ht.queue .hand cev hmem⟩

theorem takesAbove {i : Input T M} (h : Course m low s) (hfl : s.stock.Floor m low)
    (hk : KpOrder m s) (ht : s.InTime m)
    (hrecv : ∀ src w, i = .recv src w → low ≤ w.ev.sig ∧ w.ev.InTime m ∧
      ∀ c, s.hashT.find? (sameKey m w.ev) = some c → c.sig = w.ev.sig) :
    s.TakesAbove m low i where
  hand r hr := by simp [hk.rollback r hr]
  current kind left lp ops cev hat hcur := by
    obtain ⟨cev', hmem, hcur', -⟩ := current hfl hk ht hat
    cases hcur.symm.trans hcur'
    exact hmem
  handles lp op hsp := by
    obtain ⟨ops, ⟨kind, left, hat⟩ | hat⟩ := hsp
    · exact (h.fits_at hat).2.1
    · exact (h.fits_at hat).2.1
  recv := hrecv
  undo kp e rest after hq hu := by
    have he : e ∈ s.queue (.peventQ kp) := by simp [hq]
    cases hu with
    | @straggler cev l hat hl _ hle =>
        have hmem : cev ∈ s.queue .evList := by simp [hl]
        exact ((hfl.queue .evList cev hmem).1 rfl).trans hle
    | toSig hat hle => exact (h.fits_at hat).1.le hle (ht.queue _ e he)
    | @above event hat hkp _ _ =>
        obtain ⟨⟨hlow, htarget⟩, -⟩ := h.fits_at hat
        have hmem : event ∈ s.queue (.peventQ (m.kpOf event.destLp)) :=
          htarget.resolve_left fun ⟨r, hr, _⟩ => absurd (hat.2.1.symm.trans hr) (by simp)
        rw [← hkp] at hmem
        exact hlow.trans (hk.le_head hq event hmem)
    | cancelled hat _ => exact (h.fits_at hat).1.1
  cut kp children hat e he := by
    rcases h.gvt_at hat nofun with hgvt | ⟨-, hend, -⟩
    · rw [hgvt] at he
      exact fossilCut_lt (hk.sorted kp) e he
    · have hmem : e ∈ s.queue (.peventQ kp) := by
        rw [← fossilCut_append s.gvtSig (s.queue (.peventQ kp))]
        exact List.mem_append_right _ he
      exact TwEventSig.lt_of_recvTs_lt ((ht.queue _ e hmem).trans_le hend)

/-- A step keeps a PE on its course. -/
theorem step {i : Input T M} (h : Course m low s) (hfl : s.stock.Floor m low)
    (hmax : low ≤ maxSig) (hend : (0 : T) < m.tsEnd) (hk : KpOrder m s) (ht : s.InTime m)
    (hkept : s.stock.Kept m) (hi : (∀ o, i ≠ .outcome o) ∧ ∀ c, i ≠ .call c)
    (hcare : s.Careful m i)
    (hrecv : ∀ src w, i = .recv src w → ∀ c, s.hashT.find? (sameKey m w.ev) = some c →
      c.sig = w.ev.sig) (hpark : s.Parked) (hs : s.step m i = .ok s') : Course m low s' := by
  have hdeed := step_deed hi hs
  have hflush : (∀ gvt, ¬ s.At (.gvtStore gvt)) → s.KeepsFlushed s' := fun hn =>
    hdeed.keepsFlushed hn hrecv
  have hoff : s.net ≠ .off → s.KeepsFlushed s' := fun hne => hflush fun gvt hg => hne hg.1
  have hturn := step_turn hs
  clear hs
  cases hturn with
  | recv hn hp hs => exact h.recvFinish hs (hoff (by simp [hn]))
  | testRecvs hn hs =>
      have hf := hoff (by simp [hn])
      subst hs
      exact h.keep ⟨rfl, rfl, rfl, rfl, rfl, rfl, rfl, rfl, rfl, fun _ => rfl⟩ hf
  | sent hn he hs => exact h.sendFinish hs (hoff (by simp [hn]))
  | testSends hn hs =>
      have hf := hoff (by simp [hn])
      subst hs
      exact h.keep ⟨rfl, rfl, rfl, rfl, rfl, rfl, rfl, rfl, rfl, fun _ => rfl⟩ hf
  | recvBegin hn hs => exact h.recvBegin hs (hoff (by simp [hn]))
  | sendBegin hn hs =>
      have hf := hoff (by simp [hn])
      subst hs
      exact h.sendBegin _ _ hf
  | rollback hn hr hs =>
      have hstore : ∀ gvt, s.phase ≠ .gvtStore gvt := fun gvt hg => by
        have hat := hpark.at hg fun hu => hu.2 gvt rfl
        exact absurd (hat.2.1.symm.trans hr) (by simp)
      exact h.rollbackStep hr hstore hs (hflush fun gvt hg => hstore gvt hg.2.2)
  | call hat hl hs => exact h.call hmax hat hl hs
  | outerCall hat hl hs => exact absurd rfl (hi.2 _)
  | eventQ hat hs => exact h.schedEventQ hat hs
  | eventQRollback hat hs => exact h.schedStraggler hmax hat hs
  | cancelQ hat hs =>
      exact h.schedCancelQ hfl hk hkept hat hs (hflush (hat.not_store nofun))
  | cancelQRollback hat hs =>
      exact h.kpRollbackEvent hmax hat hs (hflush (hat.not_store nofun))
  | rollbackToSig hat hs => exact h.kpRollbackToSig hmax hat (.inr rfl) hs
  | rollbackToSigDone hat _ hs =>
      subst hs
      obtain ⟨-, hst, had⟩ := h.fits_at hat
      exact h.goto hat nofun ⟨.rolling, hst, had⟩ hat.2.1 rfl rfl
  | batch hat hs => exact h.batchStep hfl ht hat hs
  | @handlerOp kind left lp op ops expired hat hs =>
      obtain ⟨cev, -, hcur, hlow, -⟩ := current hfl hk ht hat
      refine h.handlerOp hat hcur hlow (fun d o p msg hop => ?_) hs
      have hnew := hcare.creates lp d o p msg ⟨ops, .inl ⟨kind, left, hop ▸ hat⟩⟩
      unfold Pe.parentSig at hnew
      rwa [hcur] at hnew
  | handlerReturn hat hc hs =>
      obtain ⟨cev, -, hcur, hcev⟩ := current hfl hk ht hat
      cases hc.symm.trans hcur
      exact h.handlerReturn hmax hcev hat hc hs
  | @initOp lp op ops expired hat hs =>
      refine h.initOp hend hat (fun d o p msg hop => ?_) hs
      have hnew := hcare.creates lp d o p msg ⟨ops, .inr (hop ▸ hat)⟩
      unfold Pe.parentSig at hnew
      rwa [(h.fits_at hat).1] at hnew
  | initReturn hat _ hs =>
      subst hs
      exact h.initReturn hat
  | whiteLoop hat hs =>
      subst hs
      exact h.goto hat nofun (h.fits_at hat) hat.2.1 rfl rfl
  | reduce hat hs => exact absurd rfl (hi.1 _)
  | reduced hat hs => exact h.afterReduction hmax hat hs
  | gvtStore hat hs => exact h.gvtStore hat hs
  | fossil hat hs => exact h.fossilStep hat hs
  | hook hat hs => exact h.hookStep hmax hat hcare.hook hs

end Course

end Ross

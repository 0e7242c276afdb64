import Mathlib.Algebra.BigOperators.Ring.Finset
import Ross.Lib.ChannelCount
import Ross.Proofs.Buffers

/-!
# White messages

The messages of a pair of PEs arrive in the order in which they were sent.  The counters of white
messages add up to the number of messages under way, so that none is under way when the reduction
of `tw_gvt_step2` gives zero.
-/

namespace Ross

variable {T S M R : Type} [TwStime T]

namespace Pe

/-! ## The cut of a GVT computation -/

/-- The PE does not stand between the cut of a GVT computation and its result. -/
def Unparked (p : Phase T M) : Prop := p ≠ .reduce .lvt ∧ ∀ gvt, p ≠ .gvtStore gvt

/-- The PE is inside of the network loop or of a rollback. -/
def Busy (s : Pe T S M R) : Prop := s.net ≠ .off ∨ s.rollback ≠ none

section Passing

variable {m : SimModel T S M R} {s s' : Pe T S M R}

theorem callHook_unparked (hs : s.callHook m = .ok s') : Unparked s'.phase := by
  rcases callHook_ok hs with rfl | ⟨-, -, rfl⟩
  · exact ⟨nofun, nofun⟩
  · exact ⟨nofun, nofun⟩

theorem call_unparked {expired : Bool} {c : Call T} (hp : Unparked s.phase)
    (hs : s.call m expired c = .ok s') : Unparked s'.phase := by
  cases c with
  | gvtStep1 =>
      cases hs
      obtain ⟨n, b, heq, -⟩ := gvtStep1_frame (m := m) s
      rw [heq]
      exact hp
  | gvtStep1Realtime =>
      cases hs
      obtain ⟨n, b, heq, -⟩ := gvtStep1Realtime_frame (m := m) s expired
      rw [heq]
      exact hp
  | gvtStep2 =>
      cases hs
      split
      · exact ⟨nofun, nofun⟩
      · exact hp
  | optimisticTail | optimisticRealtimeTail | conservativeTail =>
      cases hs
      split
      · exact hp
      · exact hp
  | gvtHookStep =>
      rcases gvtHookStep_ok hs with rfl | rfl | rfl | ⟨-, hc⟩
      · exact hp
      · exact ⟨nofun, nofun⟩
      · exact ⟨nofun, nofun⟩
      · exact callHook_unparked hc
  | netRead | gvtStep2AndHook | rollbackAndCancelEventsPe | cleanupLoop | gvtStatusOn
  | schedulerOptimistic | schedulerOptimisticRealtime | schedulerConservative =>
      cases hs
      exact hp
  | initLp | preRunLp | schedEventQ | schedCancelQ | schedBatch | schedBatchRealtime
  | conservativeBatch | kpRollbackToSig | cleanupTest | hookReturn =>
      cases hs
      exact ⟨nofun, nofun⟩

theorem handlerOp_phase {lp : Nat} {op : HandlerOp T M} {p : Phase T M}
    (hs : ({ s with phase := p } : Pe T S M R).handlerOp m lp op = .ok s') : s'.phase = p := by
  cases op with
  | eventNew destGid offsetTs prio msg =>
      obtain ⟨-, ⟨-, rfl⟩ | ⟨-, -, rfl⟩⟩ := twEventNewUserPrio_ok hs
      · rfl
      · rfl
  | eventSend i =>
      rcases twEventSend_ok hs with ⟨-, rfl⟩ | ⟨e, msg, -, -, rfl⟩
      · rfl
      · rcases deliver_cases m (({ s with phase := p } : Pe T S M R).prepare i e msg)
            (({ s with phase := p } : Pe T S M R).stamp e) with
          ⟨-, -, hd⟩ | ⟨-, -, hd⟩ | ⟨-, hd⟩
        all_goals
          rw [hd]
          rfl
  | lpSuspend b =>
      cases hs
      rfl
  | triggerGvtHookNow =>
      rcases twTriggerGvtHookNow_ok hs with rfl | ⟨-, rfl⟩
      · rfl
      · rfl

theorem recvFinish_phase {src : Nat} {w : WireMsg T M} {n : NetLoop}
    (hs : ({ s with net := n } : Pe T S M R).recvFinish m src w = .ok s') :
    s'.phase = s.phase := by
  obtain ⟨-, ⟨-, c, -, rfl⟩ | ⟨-, -, ⟨-, -, rfl⟩ | ⟨-, rfl⟩⟩⟩ := recvFinish_ok hs
  · rfl
  · rfl
  · rfl

theorem sendFinish_phase {e : TwEvent T} {n : NetLoop}
    (hs : ({ s with net := n } : Pe T S M R).sendFinish m e = .ok s') : s'.phase = s.phase := by
  rcases sendFinish_ok hs with ⟨-, -, rfl⟩ | ⟨-, -, -, rfl⟩ | ⟨-, -, -, rfl⟩ | ⟨-, rfl⟩
  · rfl
  · rfl
  · rfl
  · rfl

theorem twEventRollback_phase (m : SimModel T S M R) (s : Pe T S M R) (e : TwEvent T)
    (after : RollbackAfter) : (s.twEventRollback m e after).phase = s.phase := by
  obtain ⟨l, cv, msg, t, heq⟩ := twEventRollback_frame m s e after
  rw [heq]

theorem kpRollbackToSig_phase {kp : Nat} {toSig : TwEventSig T}
    (hs : s.kpRollbackToSig m kp toSig = some s') : s'.phase = s.phase := by
  obtain ⟨e, rest, -, -, rfl⟩ := kpRollbackToSig_some hs
  exact twEventRollback_phase m (s.shiftPevent kp e rest) e _

theorem kpRollbackEvent_phase {event : TwEvent T} (hs : s.kpRollbackEvent m event = .ok s') :
    s'.phase = s.phase := by
  obtain ⟨e, rest, -, ⟨-, rfl⟩ | ⟨-, hd, tl, -, rfl⟩⟩ := kpRollbackEvent_ok hs
  · exact twEventRollback_phase m (s.shiftPevent _ e rest) e _
  · exact twEventRollback_phase m ((s.shiftPevent _ e rest).setLastSig _ hd.sig) e _

theorem rollbackStep_phase {r : Rollback T} (hs : s.rollbackStep m r = .ok s') :
    s'.phase = s.phase ∨ Unparked s'.phase := by
  unfold rollbackStep at hs
  split at hs
  next e rest _ =>
    obtain ⟨l, sig, q, qc, ev, n, freed, t, -, -, -, rfl⟩ := rollbackChild_frame hs
    exact .inl rfl
  · cases hs
    rw [afterRollback_eq]
    cases r.after with
    | requeueReset => exact .inl rfl
    | requeue => exact .inl rfl
    | freeReset => exact .inr ⟨nofun, nofun⟩
    | abort kind => exact .inr ⟨nofun, nofun⟩

end Passing

/-- No step but a reduction brings a PE to the cut. -/
theorem step_phase {m : SimModel T S M R} {s s' : Pe T S M R} {i : Input T M}
    (hi : (∀ o, i ≠ .outcome o) ∧ ∀ c, i ≠ .call c) (hs : s.step m i = .ok s') :
    s'.phase = s.phase ∨ Unparked s'.phase := by
  have hturn := step_turn hs
  clear hs
  cases hturn with
  | recv hn hp hs => exact .inl (recvFinish_phase hs)
  | testRecvs hn hs | testSends hn hs =>
      subst hs
      exact .inl rfl
  | sent hn he hs => exact .inl (sendFinish_phase hs)
  | recvBegin hn hs =>
      rcases recvBegin_ok hs with rfl | ⟨-, -, rfl⟩
      · exact .inl rfl
      · exact .inl rfl
  | @sendBegin read changed expired hn hs =>
      subst hs
      rcases sendBegin_ok (m := m) s read changed with ⟨e, -, -, heq⟩ | ⟨-, heq⟩
      · rw [heq]
        exact .inl rfl
      · rw [heq]
        exact .inl rfl
  | rollback hn hr hs => exact rollbackStep_phase hs
  | @call c rest expired hat ht hs =>
      refine .inr (call_unparked ?_ hs)
      rw [show ({ s with todo := rest } : Pe T S M R).phase = .idle from hat.2.2]
      exact ⟨nofun, nofun⟩
  | outerCall hat ht hs => exact absurd rfl (hi.2 _)
  | eventQ hat hs =>
      rcases schedEventQ_ok hs with ⟨cev, rest, -, ⟨-, rfl⟩ | ⟨-, -, ⟨-, rfl⟩ | ⟨-, rfl⟩⟩⟩ |
        ⟨-, -, rfl⟩ | ⟨-, -, rfl⟩
      · exact .inl rfl
      · exact .inr ⟨nofun, nofun⟩
      · exact .inl rfl
      · exact .inr ⟨nofun, nofun⟩
      · exact .inl rfl
  | eventQRollback hat hs =>
      obtain ⟨cev, rest, -, hback | ⟨-, rfl⟩⟩ := schedStraggler_ok hs
      · exact .inl (kpRollbackToSig_phase hback)
      · exact .inr ⟨nofun, nofun⟩
  | cancelQ hat hs =>
      rcases schedCancelQ_ok hs with ⟨cev, rest, -, -, ⟨q, -, rfl⟩ | ⟨-, rfl⟩⟩ | ⟨-, -, rfl⟩ |
        ⟨-, -, rfl⟩
      · exact .inl rfl
      · exact .inr ⟨nofun, nofun⟩
      · exact .inr ⟨nofun, nofun⟩
      · exact .inl rfl
  | cancelQRollback hat hs => exact .inl (kpRollbackEvent_phase hs)
  | rollbackToSig hat hs => exact .inl (kpRollbackToSig_phase hs)
  | rollbackToSigDone hat _ hs =>
      subst hs
      exact .inr ⟨nofun, nofun⟩
  | @batch kind left expired hat hs =>
      rcases batchStep_ok hs with ⟨c, n, rfl⟩ | ⟨cev, -, -, -, -, rfl⟩
      · exact .inr ⟨nofun, nofun⟩
      · obtain ⟨l, cv, msg, ops, hrun⟩ :=
          runEvent_frame (m := m) (s.dequeued m cev) kind (left - 1) cev
        rw [hrun]
        exact .inr ⟨nofun, nofun⟩
  | handlerOp hat hs =>
      refine .inr ?_
      rw [handlerOp_phase hs]
      exact ⟨nofun, nofun⟩
  | handlerReturn hat hc hs =>
      rcases handlerReturn_ok hs with ⟨-, -, rfl⟩ | ⟨-, -, rfl⟩ | ⟨-, -, c, p, hp, rfl⟩
      · exact .inr ⟨nofun, nofun⟩
      · exact .inl (twEventRollback_phase m { s with cevAbort := false } _ _)
      · refine .inr ?_
        rcases hp with rfl | rfl
        · exact ⟨nofun, nofun⟩
        · exact ⟨nofun, nofun⟩
  | initOp hat hs =>
      refine .inr ?_
      rw [handlerOp_phase hs]
      exact ⟨nofun, nofun⟩
  | initReturn hat _ hs | whiteLoop hat hs =>
      subst hs
      exact .inr ⟨nofun, nofun⟩
  | reduce hat hs => exact absurd rfl (hi.1 _)
  | reduced hat hs =>
      rcases afterReduction_ok hs with ⟨-, -, t, hc⟩ | ⟨-, -, rfl⟩ | ⟨-, -, rfl⟩ | ⟨-, -, rfl⟩
      · exact .inr (callHook_unparked hc)
      · exact .inr ⟨nofun, nofun⟩
      · exact .inr ⟨nofun, nofun⟩
      · exact .inr ⟨nofun, nofun⟩
  | gvtStore hat hs =>
      obtain ⟨-, n, rfl⟩ := gvtStore_ok hs
      refine .inr ?_
      dsimp only
      split
      · exact ⟨nofun, nofun⟩
      · exact ⟨nofun, nofun⟩
  | fossil hat hs =>
      rcases fossilStep_ok hs with ⟨c, cs, -, ⟨-, rfl⟩ | ⟨-, rfl⟩⟩ | ⟨-, e, -, hc⟩ |
        ⟨-, -, -, rfl⟩ | ⟨-, -, -, rfl⟩
      · exact .inr ⟨nofun, nofun⟩
      · exact .inr ⟨nofun, nofun⟩
      · rcases commitEvent_ok hc with ⟨-, rfl⟩ | ⟨-, -, c, -, rfl⟩
        · exact .inr ⟨nofun, nofun⟩
        · exact .inr ⟨nofun, nofun⟩
      · exact .inr ⟨nofun, nofun⟩
      · exact .inr ⟨nofun, nofun⟩
  | hook hat hs =>
      rcases hookStep_ok hs with ⟨-, -, t, rfl⟩ | ⟨-, rfl⟩ | ⟨-, rfl⟩
      · exact .inl rfl
      · exact .inr ⟨nofun, nofun⟩
      · exact .inr ⟨nofun, nofun⟩

/-! ## The counters of one PE -/

/-- What the PE adds to `all_white`; after the reductions its counters stand for nothing. -/
def white (s : Pe T S M R) : Int :=
  match s.phase with
  | .gvtStore _ => 0
  | _ => s.localWhite

/-- The messages that the PE sent, less those that it received. -/
def surplus (s : Pe T S M R) : Int := s.wire.length - s.arrived.length

/-- At the cut of a GVT computation the PE does nothing else. -/
def Parked (s : Pe T S M R) : Prop := Unparked s.phase ∨ ¬ s.Busy

variable {m : SimModel T S M R} {s s' : Pe T S M R}

section

omit [TwStime T]

theorem white_of_unparked (h : Unparked s.phase) : s.white = s.localWhite := by
  unfold white
  split
  next gvt hp => exact absurd hp (h.2 gvt)
  · rfl

theorem white_of_ne (h : ∀ gvt, s.phase ≠ .gvtStore gvt) : s.white = s.localWhite := by
  unfold white
  split
  next gvt hp => exact absurd hp (h gvt)
  · rfl

theorem Parked.at {p : Phase T M} (h : s.Parked) (hp : s.phase = p) (hn : ¬ Unparked p) :
    s.At p := by
  have hidle : ¬ s.Busy := h.resolve_left fun hu => hn (hp ▸ hu)
  unfold Busy at hidle
  rw [not_or, not_not, not_not] at hidle
  exact ⟨hidle.1, hidle.2, hp⟩

end

/-- Nothing but a reduction lets a PE go on from the cut. -/
theorem Parked.ne_lvt (h : s.Parked) {i : Input T M} (hi : ∀ o, i ≠ .outcome o)
    (hs : s.step m i = .ok s') : s.phase ≠ .reduce .lvt := by
  intro hp
  have hat := h.at hp fun hu => hu.1 rfl
  obtain ⟨hn, hr, hp⟩ := hat
  unfold step at hs
  rw [hn, hr] at hs
  dsimp only at hs
  rw [hp] at hs
  cases i with
  | outcome o => exact hi o rfl
  | _ => cases hs

/-- A PE that has the result of a reduction to store stores it. -/
theorem Parked.stores (h : s.Parked) {gvt : TwEventSig T} (hp : s.phase = .gvtStore gvt)
    {i : Input T M} (hs : s.step m i = .ok s') : s.gvtStore m gvt = .ok s' := by
  obtain ⟨hn, hr, -⟩ := h.at hp fun hu => hu.2 gvt rfl
  unfold Pe.step at hs
  rw [hn, hr] at hs
  dsimp only at hs
  rw [hp] at hs
  cases i with
  | tau expired => exact hs
  | _ => cases hs

/-- A step leads to the cut from nowhere. -/
theorem Parked.step (h : s.Parked) {i : Input T M}
    (hi : (∀ o, i ≠ .outcome o) ∧ ∀ c, i ≠ .call c) (hs : s.step m i = .ok s') :
    Unparked s'.phase := by
  rcases step_phase hi hs with hp | hp
  · rw [hp]
    refine ⟨h.ne_lvt hi.1 hs, fun gvt hg => ?_⟩
    obtain ⟨-, n, rfl⟩ := gvtStore_ok (h.stores hg hs)
    rw [hg] at hp
    dsimp only at hp
    split at hp <;> cases hp
  · exact hp

/-- The counters of white messages, less the messages that the PE sent and did not receive. -/
def gap (s : Stock T M) : Int :=
  s.sNwhiteSent - s.sNwhiteRecv - (s.wire.length - s.arrived.length)

/-- A step that does not store GVT counts the messages that it sends and receives. -/
theorem Deed.gap_eq {i : Input T M} (h : Deed m s s' i) :
    gap s'.stock = gap s.stock ∨ ∃ gvt, s.At (.gvtStore gvt) := by
  have same : ∀ {t : Stock T M}, s'.stock = t → gap t = gap s.stock →
      gap s'.stock = gap s.stock ∨ ∃ gvt, s.At (.gvtStore gvt) := by
    rintro _ rfl hg
    exact .inl hg
  cases h with
  | store hat _ _ => exact .inr ⟨_, hat⟩
  | recvCancel _ _ _ hst | recvEvent _ _ _ _ hst | isend _ hst =>
      refine same hst ?_
      simp only [gap, stock, List.length_append, List.length_singleton]
      omega
  | commit _ _ _ hst _ => exact same hst rfl
  | cancelProcessed _ _ _ _ hst => exact same hst rfl
  | none hst | raise _ _ hst | recalled _ _ _ hst | keep _ _ _ _ hst | sendFree _ _ hst
  | create _ _ hst | createAbort hst | sendAbort _ hst | send _ _ _ hst | dropOutq _ _ _ hst
  | markAsend _ _ _ hst | antiMessage _ _ _ hst | dropPq _ _ _ _ hst | cancelLocal _ _ _ _ hst
  | requeue _ _ _ hst | undoneFree _ _ _ hst | undo _ _ hst | abort _ _ _ hst | dropAnti _ _ _ hst
  | enqueue _ _ hst | loadEvents _ _ hst | cancelFree _ _ _ _ hst | loadCancel _ _ hst
  | start _ _ hst | release _ _ hst | process _ _ _ _ hst | freeChild _ _ hst | cut _ _ hst
  | init _ hst =>
      exact same hst rfl

/-- A step of a PE changes its part of `all_white` by the messages that it sends and receives. -/
theorem white_step (h : s.Parked) {i : Input T M}
    (hi : (∀ o, i ≠ .outcome o) ∧ ∀ c, i ≠ .call c) (hs : s.step m i = .ok s') :
    s'.white - s.white = s'.surplus - s.surplus := by
  rw [white_of_unparked (h.step hi hs)]
  by_cases hp : ∃ gvt, s.phase = .gvtStore gvt
  · obtain ⟨gvt, hp⟩ := hp
    have hw : s.white = 0 := by
      unfold white
      rw [hp]
    obtain ⟨-, n, rfl⟩ := gvtStore_ok (h.stores hp hs)
    rw [hw]
    simp only [localWhite, surplus, Nat.cast_zero, Int.sub_self]
  · have hgap := (step_deed hi hs).gap_eq.resolve_right fun ⟨gvt, hat⟩ => hp ⟨gvt, hat.2.2⟩
    rw [white_of_ne fun gvt hg => hp ⟨gvt, hg⟩]
    simp only [gap, stock] at hgap
    simp only [localWhite, surplus]
    omega

/-- What arrives comes from a channel, what is sent goes to one, and the rest stays. -/
theorem Deed.channels {i : Input T M} (h : Deed m s s' i) :
    (∃ ws, s'.wire = s.wire ++ ws) ∧ (s'.arrived = s.arrived ∨
      ∃ src w, i = .recv src w ∧ s'.arrived = s.arrived ++ [(src, w, s.received w)]) := by
  have same : ∀ {t : Stock T M}, s'.stock = t → t.wire = s.wire → t.arrived = s.arrived →
      (∃ ws, s'.wire = s.wire ++ ws) ∧ (s'.arrived = s.arrived ∨
        ∃ src w, i = .recv src w ∧ s'.arrived = s.arrived ++ [(src, w, s.received w)]) := by
    rintro _ rfl hw ha
    exact ⟨⟨[], hw.trans (List.append_nil _).symm⟩, .inl ha⟩
  cases h with
  | recvCancel _ _ _ hst =>
      exact ⟨⟨[], (congrArg Stock.wire hst).trans (List.append_nil _).symm⟩,
        .inr ⟨_, _, rfl, congrArg Stock.arrived hst⟩⟩
  | recvEvent _ _ _ _ hst =>
      exact ⟨⟨[], (congrArg Stock.wire hst).trans (List.append_nil _).symm⟩,
        .inr ⟨_, _, rfl, congrArg Stock.arrived hst⟩⟩
  | isend _ hst => exact ⟨⟨_, congrArg Stock.wire hst⟩, .inl (congrArg Stock.arrived hst)⟩
  | commit _ _ _ hst _ => exact same hst rfl rfl
  | cancelProcessed _ _ _ _ hst => exact same hst rfl rfl
  | none hst | store _ _ hst | raise _ _ hst | recalled _ _ _ hst | keep _ _ _ _ hst
  | sendFree _ _ hst | create _ _ hst | createAbort hst | sendAbort _ hst | send _ _ _ hst
  | dropOutq _ _ _ hst | markAsend _ _ _ hst | antiMessage _ _ _ hst | dropPq _ _ _ _ hst
  | cancelLocal _ _ _ _ hst | requeue _ _ _ hst | undoneFree _ _ _ hst | undo _ _ hst
  | abort _ _ _ hst | dropAnti _ _ _ hst | enqueue _ _ hst | loadEvents _ _ hst
  | cancelFree _ _ _ _ hst | loadCancel _ _ hst | start _ _ hst | release _ _ hst
  | process _ _ _ _ hst | freeChild _ _ hst | cut _ _ hst | init _ hst =>
      exact same hst rfl rfl

end Pe

namespace System

variable {m : SimModel T S M R} {s s' : System T S M R}

/-! ## Channels -/

/-- What arrived on each channel is the first part of what was sent on it. -/
structure Fifo (m : SimModel T S M R) (s : System T S M R) : Prop where
  pair : ∀ i < m.npe, ∀ src < m.npe, s.arrivedFrom src i <+: s.sentTo src i
  source : ∀ i < m.npe, ∀ x ∈ (s i).arrived, x.1 < m.npe

namespace Fifo

section

omit [TwStime T]

theorem arrived_append (h : Fifo m s) {src i : Nat} (hsrc : src < m.npe) (hi : i < m.npe) :
    s.arrivedFrom src i ++ s.inFlight src i = s.sentTo src i := by
  obtain ⟨l, hl⟩ := h.pair i hi src hsrc
  unfold inFlight
  rw [← hl, List.drop_left]

/-- A PE has sent more. -/
theorem sentTo_update {i : Nat} {p : Pe T S M R} (h : ∃ ws, p.wire = (s i).wire ++ ws)
    (src j : Nat) : s.sentTo src j <+: System.sentTo (Function.update s i p) src j := by
  unfold sentTo
  by_cases hsrc : src = i
  · obtain ⟨ws, hws⟩ := h
    rw [hsrc, Function.update_self, hws, List.filter_append, List.map_append]
    exact List.prefix_append _ _
  · rw [Function.update_of_ne hsrc]

/-- A message has arrived at a PE. -/
theorem arrivedFrom_update {i src' : Nat} {p : Pe T S M R} {w : WireMsg T M} {e : TwEvent T}
    (h : p.arrived = (s i).arrived ++ [(src', w, e)]) (src : Nat) :
    System.arrivedFrom (Function.update s i p) src i =
      s.arrivedFrom src i ++ if src' = src then [w] else [] := by
  unfold arrivedFrom
  rw [Function.update_self, h, List.filter_append, List.map_append]
  by_cases hsrc : src' = src
  · rw [if_pos hsrc]
    simp [hsrc]
  · rw [if_neg hsrc]
    simp [hsrc]

theorem arrivedFrom_same {i : Nat} {p : Pe T S M R} (h : p.arrived = (s i).arrived)
    (src j : Nat) : System.arrivedFrom (Function.update s i p) src j = s.arrivedFrom src j := by
  unfold arrivedFrom
  by_cases hj : j = i
  · rw [hj, Function.update_self, h]
  · rw [Function.update_of_ne hj]

theorem arrivedFrom_of_ne {i j : Nat} {p : Pe T S M R} (h : j ≠ i) (src : Nat) :
    System.arrivedFrom (Function.update s i p) src j = s.arrivedFrom src j := by
  unfold arrivedFrom
  rw [Function.update_of_ne h]

end

theorem step (h : Fifo m s) {l : SystemInput T M} (hs : s.step m l = .ok s') : Fifo m s' := by
  rcases step_cases hs with ⟨i, x, p, -, hi, ho, hrecv, hp, rfl⟩ | ⟨r, -, -, rfl⟩
  · obtain ⟨hwire, harrived⟩ := (Pe.step_deed ho hp).channels
    have hsent := sentTo_update hwire
    rcases harrived with harr | ⟨src', w, hx, harr⟩
    · refine ⟨fun j hj src hsrc => ?_, fun j hj y hy => ?_⟩
      · rw [arrivedFrom_same harr]
        exact (h.pair j hj src hsrc).trans (hsent src j)
      · by_cases hji : j = i
        · subst hji
          rw [Function.update_self, harr] at hy
          exact h.source j hj y hy
        · rw [Function.update_of_ne hji] at hy
          exact h.source j hj y hy
    · obtain ⟨hsrc', hw⟩ := hrecv _ _ hx
      refine ⟨fun j hj src hsrc => ?_, fun j hj y hy => ?_⟩
      · by_cases hji : j = i
        · subst hji
          rw [arrivedFrom_update harr]
          by_cases hsame : src' = src
          · -- What arrives is the next message of its channel.
            subst hsame
            refine List.IsPrefix.trans ?_ (hsent src' j)
            rw [if_pos rfl, ← h.arrived_append hsrc' hj]
            obtain ⟨rest, hrest⟩ := List.head?_eq_some_iff.mp hw
            rw [hrest]
            exact ⟨rest, by rw [List.append_assoc]; rfl⟩
          · rw [if_neg hsame, List.append_nil]
            exact (h.pair j hj src hsrc).trans (hsent src j)
        · rw [arrivedFrom_of_ne hji]
          exact (h.pair j hj src hsrc).trans (hsent src j)
      · by_cases hji : j = i
        · subst hji
          rw [Function.update_self, harr] at hy
          rcases List.mem_append.mp hy with hy | hy
          · exact h.source j hj y hy
          · rw [List.mem_singleton.mp hy]
            exact hsrc'
        · rw [Function.update_of_ne hji] at hy
          exact h.source j hj y hy
  · have hwire : ∀ j, ((fun i => if i < m.npe then (s i).reduceDone r (s.outcome m r) else s i :
        System T S M R) j).wire = (s j).wire ∧
        ((fun i => if i < m.npe then (s i).reduceDone r (s.outcome m r) else s i :
          System T S M R) j).arrived = (s j).arrived := by
      intro j
      dsimp only
      split
      · cases s.outcome m r with
        | total n => exact ⟨rfl, rfl⟩
        | gvt sig => exact ⟨rfl, rfl⟩
        | flag b => exact ⟨rfl, rfl⟩
      · exact ⟨rfl, rfl⟩
    refine ⟨fun j hj src hsrc => ?_, fun j hj x hx => ?_⟩
    · unfold arrivedFrom sentTo
      rw [(hwire j).2, (hwire src).1]
      exact h.pair j hj src hsrc
    · rw [(hwire j).2] at hx
      exact h.source j hj x hx

end Fifo

theorem Reached.fifo (h : Reached m s) : Fifo m s := by
  refine Transition.ReachableVia.invariant ?_ (fun a l b ha _ hs => ha.step hs) h
  rintro s rfl
  exact ⟨fun i _ src _ => List.prefix_rfl, fun i _ x hx => absurd hx List.not_mem_nil⟩

/-! ## The cut -/

/-- The sum of `f` over the PEs. -/
def overPes (m : SimModel T S M R) (f : Nat → Int) : Int := ∑ i ∈ Finset.range m.npe, f i

section

omit [TwStime T]

/-- A change at one PE. -/
theorem overPes_update {f g : Nat → Int} {i : Nat} (hi : i < m.npe) (hne : ∀ j, j ≠ i → g j = f j) :
    overPes m g = overPes m f + (g i - f i) := by
  unfold overPes
  have hmem := Finset.mem_range.mpr hi
  have hrest : ∑ j ∈ (Finset.range m.npe).erase i, g j = ∑ j ∈ (Finset.range m.npe).erase i, f j :=
    Finset.sum_congr rfl fun j hj => hne j (Finset.mem_erase.mp hj).1
  have hg := Finset.add_sum_erase _ g hmem
  have hf := Finset.add_sum_erase _ f hmem
  omega

theorem overPes_congr {f g : Nat → Int} (h : ∀ i < m.npe, f i = g i) : overPes m f = overPes m g :=
  Finset.sum_congr rfl fun i hi => h i (Finset.mem_range.mp hi)

end

/-- The reduction of white messages. -/
theorem outcome_white : s.outcome m .white = .total (overPes m fun i => (s i).localWhite) := rfl

/-- The counters of white messages balance, and a PE that waits at the cut does so with all others
and with no message under way. -/
structure WhiteBalance (m : SimModel T S M R) (s : System T S M R) : Prop where
  parked : ∀ i, (s i).Parked
  balance : overPes m (fun i => (s i).white) = overPes m fun i => (s i).surplus
  cut : (∃ i < m.npe, (s i).phase = .reduce .lvt) →
    (∀ i < m.npe, (s i).At (.reduce .lvt)) ∧ overPes m (fun i => (s i).surplus) = 0

namespace WhiteBalance

theorem step (h : WhiteBalance m s) {l : SystemInput T M} (hs : s.step m l = .ok s') :
    WhiteBalance m s' := by
  rcases step_cases hs with ⟨i, x, p, -, hi, ho, -, hp, rfl⟩ | ⟨r, -, hat, hs'⟩
  · have hpark := (h.parked i).step ho hp
    have hother : ∀ j, j ≠ i → Function.update s i p j = s j := fun j hj =>
      Function.update_of_ne hj p s
    have hself : Function.update s i p i = p := Function.update_self i p s
    refine ⟨fun j => ?_, ?_, ?_⟩
    · by_cases hj : j = i
      · rw [hj, hself]
        exact .inl hpark
      · rw [hother j hj]
        exact h.parked j
    · have hwhite := overPes_update (f := fun i => (s i).white)
        (g := fun j => (Function.update s i p j).white) hi fun j hj => by
          rw [hother j hj]
      have hsurplus := overPes_update (f := fun i => (s i).surplus)
        (g := fun j => (Function.update s i p j).surplus) hi fun j hj => by
          rw [hother j hj]
      rw [hwhite, hsurplus, h.balance, hself, Pe.white_step (h.parked i) ho hp]
    · rintro ⟨j, hj, hphase⟩
      -- The PE that took the step has not been at the cut, so that no other one has been.
      exfalso
      by_cases hji : j = i
      · rw [hji, hself] at hphase
        exact hpark.1 hphase
      · rw [hother j hji] at hphase
        exact (h.parked i).ne_lvt ho.1 hp (((h.cut ⟨j, hj, hphase⟩).1 i hi).2.2)
  · have hwhite : ∀ j < m.npe, (s j).white = (s j).localWhite := fun j hj =>
      Pe.white_of_ne fun gvt hg => nomatch (hat j hj).2.2.symm.trans hg
    have hin : ∀ j < m.npe, s' j = (s j).reduceDone r (s.outcome m r) := by
      intro j hj
      rw [hs']
      exact if_pos hj
    have hsame : overPes m (fun i => (s' i).surplus) = overPes m fun i => (s i).surplus :=
      overPes_congr fun j hj => by
        obtain ⟨p, hp⟩ := reduceDone_frame (s j) r (s.outcome m r)
        rw [hin j hj, hp]
        rfl
    have hpark : ∀ j, (s' j).Parked := by
      intro j
      by_cases hj : j < m.npe
      · obtain ⟨p, hp⟩ := reduceDone_frame (s j) r (s.outcome m r)
        rw [hin j hj, hp]
        refine .inr fun hb => ?_
        rcases hb with hn | hr
        · exact hn (hat j hj).1
        · exact hr (hat j hj).2.1
      · rw [hs']
        dsimp only
        rw [if_neg hj]
        exact h.parked j
    -- The counters stay as they are unless they have been reduced to nothing.
    have hkeep : (∀ j < m.npe, ∀ gvt, (s' j).phase ≠ .gvtStore gvt) →
        overPes m (fun i => (s' i).white) = overPes m fun i => (s' i).surplus := by
      intro hg
      rw [hsame, ← h.balance]
      refine overPes_congr fun j hj => ?_
      rw [Pe.white_of_ne (hg j hj), hwhite j hj]
      obtain ⟨p, hp⟩ := reduceDone_frame (s j) r (s.outcome m r)
      rw [hin j hj, hp]
      rfl
    cases r with
    | white =>
        have hphase : ∀ j < m.npe, (s' j).phase =
            if overPes m (fun i => (s i).localWhite) = 0 then .reduce .lvt else .whiteLoop := by
          intro j hj
          rw [hin j hj, outcome_white]
          rfl
        refine ⟨hpark, hkeep fun j hj gvt => ?_, ?_⟩
        · rw [hphase j hj]
          split
          · nofun
          · nofun
        · rintro ⟨j, hj, hp⟩
          have hzero : overPes m (fun i => (s i).localWhite) = 0 := by
            by_contra hne
            rw [hphase j hj, if_neg hne] at hp
            cases hp
          refine ⟨fun i hi => ⟨?_, ?_, ?_⟩, ?_⟩
          · rw [hin i hi, outcome_white]
            exact (hat i hi).1
          · rw [hin i hi, outcome_white]
            exact (hat i hi).2.1
          · rw [hphase i hi, if_pos hzero]
          · rw [hsame, ← h.balance, ← hzero]
            exact overPes_congr hwhite
    | lvt =>
        have hphase : ∀ j < m.npe, ∃ gvt, (s' j).phase = .gvtStore gvt := by
          intro j hj
          rw [hin j hj]
          exact ⟨_, rfl⟩
        refine ⟨hpark, ?_, ?_⟩
        · rw [hsame]
          by_cases hn : 0 < m.npe
          · rw [(h.cut ⟨0, hn, (hat 0 hn).2.2⟩).2]
            refine (overPes_congr fun j hj => ?_).trans
              (Finset.sum_const_zero (s := Finset.range m.npe))
            obtain ⟨gvt, hg⟩ := hphase j hj
            unfold Pe.white
            rw [hg]
          · have hzero : ∀ f : Nat → Int, overPes m f = 0 := fun f =>
              Finset.sum_eq_zero fun j hj => absurd (Finset.mem_range.mp hj) (by omega)
            rw [hzero, hzero]
        · rintro ⟨j, hj, hp⟩
          obtain ⟨gvt, hg⟩ := hphase j hj
          cases hg.symm.trans hp
    | hookAll | hookAny | cleanupCancel | cleanupEvent =>
        have hphase : ∀ j < m.npe, ∃ q b, (s' j).phase = .reduced q b := by
          intro j hj
          rw [hin j hj]
          exact ⟨_, _, rfl⟩
        refine ⟨hpark, hkeep fun j hj gvt hg => ?_, ?_⟩
        · obtain ⟨q, b, hq⟩ := hphase j hj
          cases hq.symm.trans hg
        · rintro ⟨j, hj, hp⟩
          obtain ⟨q, b, hq⟩ := hphase j hj
          cases hq.symm.trans hp

theorem start : WhiteBalance m (System.start m) where
  parked _ := .inl ⟨nofun, nofun⟩
  balance := rfl
  cut := fun ⟨_, _, hp⟩ => nomatch hp

end WhiteBalance

theorem Reached.whiteBalance (h : Reached m s) : WhiteBalance m s := by
  refine Transition.ReachableVia.invariant ?_ (fun a l b ha _ hs => ha.step hs) h
  rintro s rfl
  exact .start

omit [TwStime T] in
/-- Nothing is under way between the PEs that wait for the reduction of `lvt_sig`. -/
theorem WhiteBalance.nothing_under_way (h : WhiteBalance m s) (hf : Fifo m s)
    (hcut : ∃ i < m.npe, (s i).phase = .reduce .lvt) :
    (∀ i < m.npe, ∀ x ∈ (s i).wire, x.1 < m.npe) ∧
      ∀ i < m.npe, ∀ src < m.npe, s.inFlight src i = [] := by
  have hsum := (h.cut hcut).2
  have htotal : ∑ i ∈ Finset.range m.npe, (s i).wire.length =
      ∑ i ∈ Finset.range m.npe, (s i).arrived.length := by
    have hsplit : overPes m (fun i => (s i).surplus) =
        (∑ i ∈ Finset.range m.npe, ((s i).wire.length : Int)) -
          ∑ i ∈ Finset.range m.npe, ((s i).arrived.length : Int) := Finset.sum_sub_distrib ..
    rw [hsplit] at hsum
    have hcast := sub_eq_zero.mp hsum
    exact_mod_cast hcast
  have hsent : ∀ src j, (s.sentTo src j).length =
      ((s src).wire.filter fun x => x.1 = j).length := fun _ _ => List.length_map _
  have harr : ∀ src j, (s.arrivedFrom src j).length =
      ((s j).arrived.filter fun x => x.1 = src).length := fun _ _ => List.length_map _
  obtain ⟨hto, heq⟩ := @ChannelCount.all_received _ _ m.npe (fun x => x.1) (fun y => y.1)
    (fun i => (s i).wire) (fun i => (s i).arrived) (fun j hj y hy => hf.source j hj y hy)
    (fun i hi j hj => by
      rw [← hsent, ← harr]
      exact (hf.pair j hj i hi).length_le)
    htotal
  refine ⟨hto, fun i hi src hsrc => List.drop_eq_nil_of_le ?_⟩
  rw [hsent, harr]
  exact (heq src hsrc i hi).ge

/-- In every run of any scheduler, what has arrived from a PE is the first part of what was sent,
in order; the counters of white messages add up to the number of messages under way, as long as no
PE has the result of a reduction to store; and while a PE waits for the reduction of `lvt_sig`,
all of them do and every message sent has arrived.  The first part is how `deliver` takes the
messages, as MPI does those of one pair of ranks; the other two are work of the algorithm. -/
theorem consistent_cut (h : Reached m s) :
    (∀ i < m.npe, ∀ src < m.npe, s.arrivedFrom src i <+: s.sentTo src i) ∧
      ((∀ i < m.npe, ∀ gvt, (s i).phase ≠ .gvtStore gvt) →
        ∑ i ∈ Finset.range m.npe, (s i).localWhite =
          ∑ i ∈ Finset.range m.npe, ((s i).wire.length - (s i).arrived.length : Int)) ∧
      ((∃ i < m.npe, (s i).phase = .reduce .lvt) →
        (∀ i < m.npe, (s i).At (.reduce .lvt)) ∧
          (∀ i < m.npe, ∀ x ∈ (s i).wire, x.1 < m.npe) ∧
          ∀ i < m.npe, ∀ src < m.npe, s.arrivedFrom src i = s.sentTo src i) := by
  have hf := h.fifo
  have hw := h.whiteBalance
  refine ⟨hf.pair, fun hg => ?_, fun hcut => ?_⟩
  · have hwhite : overPes m (fun i => (s i).white) = overPes m fun i => (s i).localWhite :=
      overPes_congr fun i hi => Pe.white_of_ne (hg i hi)
    exact hwhite.symm.trans hw.balance
  · obtain ⟨hto, hnone⟩ := hw.nothing_under_way hf hcut
    refine ⟨(hw.cut hcut).1, hto, fun i hi src hsrc => ?_⟩
    have happ := hf.arrived_append hsrc hi
    rw [hnone i hi src hsrc, List.append_nil] at happ
    exact happ

/-- Two PEs, the LP of the first one sends an event to that of the second. -/
def pairModel : SimModel Int Nat Nat Nat :=
  { quietModel with
    gvtInterval := 1
    init := fun lp st => (st, if lp = 0 then [.eventNew 1 1 1 0, .eventSend 0] else []) }

theorem consistent_cut_run :
    ∃ s, Reached pairModel s ∧ (s 0).phase = .reduce .lvt ∧ (s 0).wire.length = 1 ∧
      s.arrivedFrom 0 1 = s.sentTo 0 1 := by
  have hrun : ∃ s, Reached pairModel s ∧
      (waitsFor (s 0) .lvt && decide ((s 0).wire.length = 1)) = true :=
    Transition.Reachable.exists_of_runList _
      (List.replicate 39 (.pe 0 (.tau false)) ++ List.replicate 32 (.pe 1 (.tau false)) ++
        [.reduce .white, .pe 1 (.tau false), .deliver 1 0] ++
        List.replicate 5 (.pe 0 (.tau false)) ++ List.replicate 9 (.pe 1 (.tau false)) ++
        [.reduce .white]) (.start rfl) (by decide +kernel)
  obtain ⟨s, hs, ht⟩ := hrun
  rw [Bool.and_eq_true] at ht
  have hp : (s 0).phase = .reduce .lvt := (waitsFor_iff.mp ht.1).2.2
  obtain ⟨-, -, hall⟩ := (consistent_cut hs).2.2 ⟨0, Nat.zero_lt_two, hp⟩
  exact ⟨s, hs, hp, of_decide_eq_true ht.2, hall 1 Nat.one_lt_two 0 Nat.zero_lt_two⟩

end System

end Ross

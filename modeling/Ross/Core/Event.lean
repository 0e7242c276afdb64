import Ross.Core.Network

/-!
# Creating, sending, cancelling and rolling back events

`tw_event_new_user_prio` of `ross-inline.h`, and `tw-event.c`.  A rollback takes
the chain of its event's children off the event and cancels one child a step,
because the cancellation of a remote child runs the network loop.
-/

namespace Ross

variable {T S M R : Type} [TwStime T]

/-- `event_tiebreaker` of a new event: the lineage of the current event extended
by the random number `u` when the offset is zero, else `u` alone. -/
def tieLineage (now : TwEventSig T) (offsetTs u : T) : List T :=
  if offsetTs = 0 then now.eventTiebreaker ++ [u] else [u]

namespace Pe

variable (m : SimModel T S M R)

/-- `tw_now`. -/
def twNow (s : Pe T S M R) (lp : Nat) : T := (s.lastSig (m.kpOf lp)).recvTs

/-! ## `tw_event_new_user_prio` -/

/-- The choice of the buffer in `tw_event_new_user_prio`; `false` stands for the
abort event. -/
def newBuffer (s : Pe T S M R) (recvTs : T) : Except TwError (Bool × Pe T S M R) :=
  if m.tsEnd ≤ recvTs then .ok (false, s)
  else
    match s.twEventGrab with
    | some s => .ok (true, s)
    | none =>
        if m.synch = .conservative ∨ m.synch = .sequential then .error .noFreeEventBuffers
        else .ok (false, s)

/-- The signature and the addresses written into the chosen buffer. -/
def writeNew (s : Pe T S M R) (buffer : Bool) (sig : TwEventSig T) (destGid sender : Nat)
    (msg : M) : Pe T S M R :=
  if buffer then
    { s with
      nextUid := s.nextUid + 1
      handles := s.handles ++ [.buffer ⟨s.nextUid, sig, 0, destGid, sender, s.id⟩ msg] }
  else
    { s with
      abortEvent := { s.abortEvent with sig, destLp := destGid, srcLp := sender, sendPe := s.id }
      handles := s.handles ++ [.abort] }

/-- `tw_event_new_user_prio`; `msg` is what the handler then writes into the
event. -/
def twEventNewUserPrio (s : Pe T S M R) (destGid : Nat) (offsetTs : T) (sender : Nat)
    (prio : T) (msg : M) : Except TwError (Pe T S M R) :=
  if offsetTs < 0 then .error .eventIntoPast
  else if prio < 0 ∨ 1 < prio then .error .priorityRange
  else
    let recvTs := s.twNow m sender + offsetTs
    match s.newBuffer m recvTs with
    | .error e => .error e
    | .ok (buffer, s) =>
        let u := m.randUnif (s.lp sender).coreRng
        let s := s.setLp sender { s.lp sender with coreRng := u.2 }
        if offsetTs = 0 ∧ maxTieChain ≤ s.curSig.tieLineageLength then .error .maximumTieChain
        else
          let sig := ⟨recvTs, prio, tieLineage s.curSig offsetTs u.1⟩
          .ok (s.writeNew buffer sig destGid sender msg)

/-! ## `tw_event_send` -/

/-- `link_causality`. -/
def linkCausality (s : Pe T S M R) (nev : TwEvent T) : Pe T S M R :=
  { s with
    ev := match s.curEvent with
      | some cev =>
          Function.update s.ev cev { s.ev cev with causedByMe := nev :: (s.ev cev).causedByMe }
      | none => s.ev
    abortCausedByMe := match s.curEvent with
      | some _ => s.abortCausedByMe
      | none => nev :: s.abortCausedByMe }

/-- `INCREASE_ABORTED_COUNT` of `cur_event`; the count of the abort event is
never read. -/
def increaseAbortedCount (s : Pe T S M R) : Pe T S M R :=
  { s with
    ev := match s.curEvent with
      | some cev =>
          Function.update s.ev cev { s.ev cev with abortedTotal := (s.ev cev).abortedTotal + 1 }
      | none => s.ev }

/-- `tw_event_send` of the abort event. -/
def sendAbort (s : Pe T S M R) : Pe T S M R :=
  { s with
    cevAbort := if s.abortEvent.sig.recvTs < m.tsEnd then true else s.cevAbort
  }.increaseAbortedCount

/-- The `event_id` of the next event: `seq_num` is an `unsigned int`. -/
def nextEventId (s : Pe T S M R) : Nat := (s.seqNum + 1) % 2 ^ 32

/-- The delivery part of `tw_event_send`. -/
def deliver (s : Pe T S M R) (e : TwEvent T) : Pe T S M R :=
  if m.map e.destLp = s.id then
    if twEventSigComparePtr (s.lastSig (m.kpOf e.destLp)) e.sig ≤ 0 then s.twPqEnqueue e
    else ((s.setOwner e .peEventQ).push .eventQ e).lowerTrans e.sig
  else (s.twNetSend e).lowerTrans e.sig

/-- The event with the `event_id` that `tw_event_send` gives it. -/
def stamp (s : Pe T S M R) (e : TwEvent T) : TwEvent T := { e with eventId := s.nextEventId }

/-- The event `e`, stamped, and the message `msg` written into it. -/
def register (s : Pe T S M R) (e : TwEvent T) (msg : M) : Pe T S M R :=
  { s.setEv e ⟨.unowned, false, false, false, 0, msg, 0, []⟩ with
    seqNum := s.nextEventId, sent := s.sent ++ [e] }

/-- `tw_event_send` of an allocated event. -/
def sendEvent (s : Pe T S M R) (e : TwEvent T) (msg : M) : Except TwError (Pe T S M R) :=
  if m.synch = .conservative ∧ e.sig.recvTs - s.twNow m e.srcLp < m.lookahead then
    .error .lookaheadViolation
  else
    let e := s.stamp e
    .ok (((s.register e msg).linkCausality e).deliver m e)

/-- The `i`-th pointer of the handler is used up. -/
def takeHandle (s : Pe T S M R) (i : Nat) (e : Option (TwEvent T)) : Pe T S M R :=
  { s with handles := s.handles.set i (.sent e) }

/-- `tw_event_send` of the event the handler holds in its `i`-th pointer. -/
def twEventSend (s : Pe T S M R) (i : Nat) : Except TwError (Pe T S M R) :=
  match s.handles[i]? with
  | some .abort => .ok ((s.takeHandle i none).sendAbort m)
  | some (.buffer e msg) => (s.takeHandle i (some e)).sendEvent m e msg
  | _ => .error .badHandle

/-! ## Cancellation -/

/-- `local_cancel`. -/
def localCancel (s : Pe T S M R) (e : TwEvent T) : Pe T S M R :=
  let s := s.setEv e { s.ev e with cancelQ := true }
  { s with cancelQ := e :: s.cancelQ }

/-- `event_cancel`, up to the network loop of `tw_net_cancel`. -/
def eventCancel (s : Pe T S M R) (e : TwEvent T) : Except TwError (Pe T S M R) :=
  match (s.ev e).owner with
  | .netAsend | .netOutq | .peSeventQ => (s.lowerTrans e.sig).twNetCancel e
  | owner =>
      if m.map e.destLp = s.id then
        match owner with
        | .pePq => .ok ((s.twPqDeleteAny e).twEventFree e)
        | .peEventQ | .kpPeventQ => .ok ((s.localCancel e).lowerTrans e.sig)
        | _ => .error .fastLocalCancelOwner
      else .error .shouldBeRemoteCancel

/-! ## Rollback of one event -/

/-- `tw_trigger_gvt_hook_now_rev`. -/
def twTriggerGvtHookNowRev (s : Pe T S M R) (lp : Nat) : Pe T S M R :=
  let s := { s with trigger := { s.trigger with sigAt := maxSig } }
  s.setLp lp { s.lp lp with triggeredGvtHook := (s.lp lp).triggeredGvtHook - 1 }

/-- The reverse handler of `event`'s LP. -/
def runRevent (s : Pe T S M R) (event : TwEvent T) : Pe T S M R :=
  let lp := event.destLp
  let st := s.ev event
  let r := m.revent lp (s.twNow m lp) (s.lp lp).curState st.cv st.msg
  let s := s.setLp lp { s.lp lp with curState := r.state }
  let s := s.setEv event { s.ev event with cv := r.cv, msg := r.msg }
  (fun s => s.twTriggerGvtHookNowRev lp)^[r.hookRev] s

/-- The part of `tw_event_rollback` before its loop over the children: the
suspension test and the reverse handler. -/
def unprocess (s : Pe T S M R) (event : TwEvent T) : Pe T S M R :=
  let lp := s.lp event.destLp
  if lp.suspendFlag ∧ lp.suspendEvent = some event ∧
      twEventSigComparePtr lp.suspendSig event.sig = 0 then
    let lp' := { lp with
      suspendFlag := false, suspendEvent := none, suspendSig := zeroSig
      suspendDoOrigEventRc := false }
    let s := s.setLp event.destLp lp'
    if lp.suspendDoOrigEventRc then s.runRevent m event else s
  else if lp.suspendFlag then s
  else s.runRevent m event

/-- The calls of `tw_trigger_gvt_hook_now_rev` by one reverse handler. -/
theorem twTriggerGvtHookNowRev_iterate (s : Pe T S M R) (lp n : Nat) :
    (fun s : Pe T S M R => s.twTriggerGvtHookNowRev lp)^[n] s = { s with
      lp := Function.update s.lp lp { s.lp lp with
        triggeredGvtHook := (s.lp lp).triggeredGvtHook - BitVec.ofNat 32 n }
      trigger := if n = 0 then s.trigger else { s.trigger with sigAt := maxSig } } := by
  induction n with
  | zero =>
      have hlp : Function.update s.lp lp { s.lp lp with
          triggeredGvtHook := (s.lp lp).triggeredGvtHook - BitVec.ofNat 32 0 } = s.lp := by
        rw [BitVec.sub_zero]
        exact Function.update_eq_self lp s.lp
      rw [hlp]
      rfl
  | succ n ih =>
      have hcount : (s.lp lp).triggeredGvtHook - BitVec.ofNat 32 n - 1 =
          (s.lp lp).triggeredGvtHook - BitVec.ofNat 32 (n + 1) := by
        rw [BitVec.sub_sub, BitVec.ofNat_add]
        rfl
      rw [Function.iterate_succ_apply', ih]
      unfold twTriggerGvtHookNowRev
      simp only [setLp, Function.update_self, Function.update_idem, hcount]
      split <;> rfl

/-- What the reverse handler of `event`'s LP leaves in the buffer, the LP and the
trigger of the GVT hook. -/
theorem runRevent_eq (s : Pe T S M R) (event : TwEvent T) :
    let r := m.revent event.destLp (s.twNow m event.destLp) (s.lp event.destLp).curState
      (s.ev event).cv (s.ev event).msg
    s.runRevent m event = { s.setEv event { s.ev event with cv := r.cv, msg := r.msg } with
      lp := Function.update s.lp event.destLp { s.lp event.destLp with
        curState := r.state
        triggeredGvtHook :=
          (s.lp event.destLp).triggeredGvtHook - BitVec.ofNat 32 r.hookRev }
      trigger := if r.hookRev = 0 then s.trigger else { s.trigger with sigAt := maxSig } } := by
  unfold runRevent
  dsimp only
  rw [twTriggerGvtHookNowRev_iterate]
  simp only [setLp, setEv, Function.update_self, Function.update_idem]

theorem runRevent_frame (s : Pe T S M R) (event : TwEvent T) :
    ∃ l cv msg t, s.runRevent m event =
      { s.setEv event { s.ev event with cv, msg } with lp := l, trigger := t } :=
  ⟨_, _, _, _, runRevent_eq m s event⟩

/-- Undoing an event changes its bitfield and message, the LPs and the trigger
of the GVT hook, and nothing else. -/
theorem unprocess_frame (s : Pe T S M R) (event : TwEvent T) :
    ∃ l cv msg t, s.unprocess m event =
      { s.setEv event { s.ev event with cv, msg } with lp := l, trigger := t } := by
  have hself : s.setEv event { s.ev event with } = s := by
    simp only [setEv, Function.update_eq_self]
  unfold unprocess
  dsimp only
  split
  · split
    · exact runRevent_frame m _ event
    · exact ⟨_, _, _, s.trigger, by rw [hself]; rfl⟩
  · split
    · exact ⟨s.lp, _, _, s.trigger, by rw [hself]⟩
    · exact runRevent_frame m s event

/-- `tw_event_rollback`, up to its loop over the children; `event` is in
`hand`. -/
def twEventRollback (s : Pe T S M R) (event : TwEvent T) (after : RollbackAfter) :
    Pe T S M R :=
  let s := { s with curEvent := some event }.setLastSig (m.kpOf event.destLp) event.sig
  let s := s.unprocess m event
  let children := (s.ev event).causedByMe
  { s.setEv event { s.ev event with causedByMe := [] } with
    rollback := some ⟨event, children, after⟩ }

theorem twEventRollback_frame (s : Pe T S M R) (event : TwEvent T) (after : RollbackAfter) :
    ∃ l cv msg t, s.twEventRollback m event after = { s with
      curEvent := some event
      lastSig := Function.update s.lastSig (m.kpOf event.destLp) event.sig
      lp := l
      trigger := t
      ev := Function.update s.ev event { s.ev event with cv, msg, causedByMe := [] }
      rollback := some ⟨event, (s.ev event).causedByMe, after⟩ } := by
  obtain ⟨l, cv, msg, t, hu⟩ := unprocess_frame m
    (({ s with curEvent := some event } : Pe T S M R).setLastSig (m.kpOf event.destLp)
      event.sig) event
  refine ⟨l, cv, msg, t, ?_⟩
  unfold twEventRollback
  dsimp only
  rw [hu]
  simp only [setEv, setLastSig, Function.update_self, Function.update_idem]

/-- Reverse the core random number generator of an LP `n` times. -/
def reverseUnif (s : Pe T S M R) (lp n : Nat) : Pe T S M R :=
  s.setLp lp { s.lp lp with coreRng := (m.randReverseUnif^[n]) (s.lp lp).coreRng }

/-- One turn of the loop of `tw_event_rollback`: the child `e` is cancelled. -/
def rollbackChild (s : Pe T S M R) (r : Rollback T) (e : TwEvent T)
    (rest : List (TwEvent T)) : Except TwError (Pe T S M R) :=
  let s := { s with rollback := some { r with children := rest } }
  (s.reverseUnif m e.srcLp 1).eventCancel m e

/-- The end of `tw_event_rollback`. -/
def rollbackEnd (s : Pe T S M R) (event : TwEvent T) : Pe T S M R :=
  { s.reverseUnif m event.destLp (s.ev event).abortedTotal with
    ev := Function.update s.ev event { s.ev event with abortedTotal := 0 }
    rollback := none }

/-! ## What these steps can do -/

variable {m} {s s' : Pe T S M R}

theorem newBuffer_ok {recvTs : T} {b : Bool} (h : s.newBuffer m recvTs = .ok (b, s')) :
    (b = false ∧ s' = s ∧
        (m.tsEnd ≤ recvTs ∨ s.freeQ = 0 ∧ m.synch ≠ .conservative ∧ m.synch ≠ .sequential)) ∨
      (b = true ∧ recvTs < m.tsEnd ∧ 0 < s.freeQ ∧ s' = { s with freeQ := s.freeQ - 1 }) := by
  unfold newBuffer twEventGrab at h
  split at h
  next hend =>
    cases h
    exact .inl ⟨rfl, rfl, .inl hend⟩
  next hend =>
    split at h
    next s₁ hg =>
      split at hg
      · cases hg
      next hf =>
        cases hg
        cases h
        exact .inr ⟨rfl, not_le.mp hend, Nat.pos_of_ne_zero hf, rfl⟩
    next hg =>
      split at hg
      next hf =>
        split at h
        · cases h
        next hm =>
          cases h
          exact .inl ⟨rfl, rfl, .inr ⟨hf, not_or.mp hm⟩⟩
      · cases hg

/-- The signature that `tw_event_new_user_prio` computes. -/
def newSig (m : SimModel T S M R) (s : Pe T S M R) (offsetTs : T) (sender : Nat) (prio : T) :
    TwEventSig T :=
  ⟨s.twNow m sender + offsetTs, prio,
    tieLineage s.curSig offsetTs (m.randUnif (s.lp sender).coreRng).1⟩

/-- The LPs after `tw_event_new_user_prio` drew a random number for `sender`. -/
def drawnLp (m : SimModel T S M R) (s : Pe T S M R) (sender : Nat) : Nat → TwLp T S R :=
  Function.update s.lp sender
    { s.lp sender with coreRng := (m.randUnif (s.lp sender).coreRng).2 }

/-- `tw_event_new_user_prio` writes the abort event, past the end of time or when
the free buffers are used up, or a new buffer. -/
theorem twEventNewUserPrio_ok {destGid sender : Nat} {offsetTs prio : T} {msg : M}
    (h : s.twEventNewUserPrio m destGid offsetTs sender prio msg = .ok s') :
    (0 ≤ offsetTs ∧ 0 ≤ prio ∧ prio ≤ 1 ∧
      (offsetTs = 0 → s.curSig.tieLineageLength < maxTieChain)) ∧
    (((m.tsEnd ≤ s.twNow m sender + offsetTs ∨
          s.freeQ = 0 ∧ m.synch ≠ .conservative ∧ m.synch ≠ .sequential) ∧
        s' = { s with
          lp := s.drawnLp m sender
          abortEvent := { s.abortEvent with
            sig := s.newSig m offsetTs sender prio
            destLp := destGid
            srcLp := sender
            sendPe := s.id }
          handles := s.handles ++ [.abort] }) ∨
      (s.twNow m sender + offsetTs < m.tsEnd ∧ 0 < s.freeQ ∧
        s' = { s with
          lp := s.drawnLp m sender
          freeQ := s.freeQ - 1
          nextUid := s.nextUid + 1
          handles := s.handles ++ [.buffer
            ⟨s.nextUid, s.newSig m offsetTs sender prio, 0, destGid, sender, s.id⟩ msg] })) := by
  unfold twEventNewUserPrio at h
  dsimp only at h
  split at h
  · cases h
  next hoff =>
    split at h
    · cases h
    next hprio =>
      split at h
      · cases h
      next b s₁ hb =>
        have hs₁ : s₁.lp = s.lp ∧ s₁.curSig = s.curSig := by
          rcases newBuffer_ok hb with ⟨-, rfl, -⟩ | ⟨-, -, -, rfl⟩ <;> exact ⟨rfl, rfl⟩
        have hcur : ∀ i l, (s₁.setLp i l).curSig = s.curSig := fun _ _ => hs₁.2
        simp only [hcur, hs₁.1] at h
        split at h
        · cases h
        next htie =>
          cases h
          refine ⟨⟨not_lt.mp hoff, not_lt.mp fun hp => hprio (.inl hp),
            not_lt.mp fun hp => hprio (.inr hp), fun h0 => not_le.mp fun hm => htie ⟨h0, hm⟩⟩, ?_⟩
          rcases newBuffer_ok hb with ⟨rfl, rfl, hend⟩ | ⟨rfl, hend, hfree, rfl⟩
          · exact .inl ⟨hend, rfl⟩
          · exact .inr ⟨hend, hfree, rfl⟩

/-- The three places `tw_event_send` puts an event at. -/
theorem deliver_cases (m : SimModel T S M R) (s : Pe T S M R) (e : TwEvent T) :
    (m.map e.destLp = s.id ∧ s.lastSig (m.kpOf e.destLp) ≤ e.sig ∧
        s.deliver m e = { s with
          queue := Pool.cons s.queue .pq e
          ev := Function.update s.ev e { s.ev e with owner := .pePq } }) ∨
      (m.map e.destLp = s.id ∧ e.sig < s.lastSig (m.kpOf e.destLp) ∧
        s.deliver m e = { s with
          queue := Pool.snoc s.queue .eventQ e
          ev := Function.update s.ev e { s.ev e with owner := .peEventQ }
          transMsgSig := s.transSig e.sig }) ∨
      (m.map e.destLp ≠ s.id ∧ s.deliver m e = { s with
          queue := Pool.cons s.queue .outq e
          ev := Function.update s.ev e { s.ev e with remote := false, owner := .netOutq }
          transMsgSig := s.transSig e.sig
          net := .testSends false false }) := by
  unfold deliver
  split
  next hmap =>
    split
    next hl => exact .inl ⟨hmap, twEventSigComparePtr_nonpos.mp hl, rfl⟩
    next hl =>
      have hl : ¬ s.lastSig (m.kpOf e.destLp) ≤ e.sig := fun hle =>
        hl (twEventSigComparePtr_nonpos.mpr hle)
      exact .inr (.inl ⟨hmap, not_le.mp hl, rfl⟩)
  next hmap => exact .inr (.inr ⟨hmap, rfl⟩)

/-- The event `e` stamped, filled with `msg` and linked to the current event. -/
def prepare (s : Pe T S M R) (i : Nat) (e : TwEvent T) (msg : M) : Pe T S M R :=
  let s := s.takeHandle i (some e)
  (s.register (s.stamp e) msg).linkCausality (s.stamp e)

theorem twEventSend_ok {i : Nat} (h : s.twEventSend m i = .ok s') :
    (s.handles[i]? = some .abort ∧ s' = { s with
        handles := s.handles.set i (.sent none)
        cevAbort := if s.abortEvent.sig.recvTs < m.tsEnd then true else s.cevAbort
        ev := match s.curEvent with
          | some cev => Function.update s.ev cev
              { s.ev cev with abortedTotal := (s.ev cev).abortedTotal + 1 }
          | none => s.ev }) ∨
      ∃ e msg, s.handles[i]? = some (.buffer e msg) ∧
        (m.synch = .conservative → ¬ e.sig.recvTs - s.twNow m e.srcLp < m.lookahead) ∧
        s' = (s.prepare i e msg).deliver m (s.stamp e) := by
  unfold twEventSend at h
  split at h
  next hi =>
    cases h
    exact .inl ⟨hi, rfl⟩
  next e msg hi =>
    refine .inr ⟨e, msg, hi, ?_⟩
    unfold sendEvent at h
    split at h
    · cases h
    next hla =>
      cases h
      exact ⟨fun hc hl => hla ⟨hc, hl⟩, rfl⟩
  · cases h

/-- What `event_cancel` does with an event: a remote one is dropped from `outq`,
marked while its send is under way or handed to `outq` again as an anti-message,
a local one is dropped from the priority queue or joins `cancel_q`. -/
theorem eventCancel_ok {e : TwEvent T} (h : s.eventCancel m e = .ok s') :
    ((s.ev e).owner = .netOutq ∧ s' = { s with
        transMsgSig := s.transSig e.sig
        queue := Pool.remove s.queue .outq e
        ev := Function.update s.ev e { s.ev e with owner := .peFreeQ }
        freeQ := s.freeQ + 1
        freed := s.freed ++ [e] }) ∨
      ((s.ev e).owner = .netAsend ∧ s' = { s with
        transMsgSig := s.transSig e.sig
        ev := Function.update s.ev e { s.ev e with cancelAsend := true }
        net := .testRecvs false }) ∨
      ((s.ev e).owner = .peSeventQ ∧ s' = { s with
        transMsgSig := s.transSig e.sig
        queue := Pool.cons (Pool.remove s.queue .seventQ e) .outq e
        ev := Function.update s.ev e { s.ev e with cancelQ := true }
        net := .testRecvs false }) ∨
      ((s.ev e).owner = .pePq ∧ m.map e.destLp = s.id ∧ s' = { s with
        queue := Pool.remove s.queue .pq e
        ev := Function.update s.ev e { s.ev e with owner := .peFreeQ }
        freeQ := s.freeQ + 1
        freed := s.freed ++ [e] }) ∨
      (((s.ev e).owner = .peEventQ ∨ (s.ev e).owner = .kpPeventQ) ∧ m.map e.destLp = s.id ∧
        s' = { s with
          transMsgSig := s.transSig e.sig
          cancelQ := e :: s.cancelQ
          ev := Function.update s.ev e { s.ev e with cancelQ := true } }) := by
  have net : (s.lowerTrans e.sig).twNetCancel e = .ok s' → _ := fun hc => twNetCancel_ok hc
  unfold eventCancel at h
  split at h
  -- A remote event has one of the three owners of the network.
  iterate 3
    · rcases net h with ⟨ho, rfl⟩ | ⟨ho, rfl⟩ | ⟨ho, rfl⟩
      · exact .inl ⟨ho, rfl⟩
      · exact .inr (.inl ⟨ho, rfl⟩)
      · exact .inr (.inr (.inl ⟨ho, rfl⟩))
  · split at h
    next hmap =>
      split at h
      next ho =>
        cases h
        refine .inr (.inr (.inr (.inl ⟨ho, hmap, ?_⟩)))
        simp only [twPqDeleteAny, twEventFree, setOwner, setEv, unlink, Function.update_self,
          Function.update_idem]
      next ho =>
        cases h
        exact .inr (.inr (.inr (.inr ⟨.inl ho, hmap, rfl⟩)))
      next ho =>
        cases h
        exact .inr (.inr (.inr (.inr ⟨.inr ho, hmap, rfl⟩)))
      · cases h
    · cases h

/-- The cancellation of an event in a rollback leaves the processed events and the one in hand. -/
theorem rollbackChild_frame {r : Rollback T} {e : TwEvent T} {rest : List (TwEvent T)}
    (h : s.rollbackChild m r e rest = .ok s') :
    ∃ l sig q qc ev n freed t, (∀ k, q (.peventQ k) = s.queue (.peventQ k)) ∧
      q .fossil = s.queue .fossil ∧ q .hand = s.queue .hand ∧ s' = { s with
        rollback := some { r with children := rest }
        lp := l
        transMsgSig := sig
        queue := q
        cancelQ := qc
        ev := ev
        freeQ := n
        freed := freed
        net := t } := by
  unfold rollbackChild at h
  rcases eventCancel_ok h with ⟨-, rfl⟩ | ⟨-, rfl⟩ | ⟨-, rfl⟩ | ⟨-, -, rfl⟩ | ⟨-, -, rfl⟩
  all_goals
    refine ⟨_, _, _, _, _, _, _, _, ?_, ?_, ?_, rfl⟩
    · intro k
      rfl
    · rfl
    · rfl

end Pe

end Ross

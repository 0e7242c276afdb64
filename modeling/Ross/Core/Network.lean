import Ross.Core.EventQueue

/-!
# The MPI network layer

`network-mpi.c`.  The loops of `service_queues` and `tw_net_send` run one
message at a time: `MPI_Testsome` reports what the environment chooses to
report, so each receive and each finished send is an input, and the loops over
`posted_recvs` and `posted_sends` take one buffer a step.
-/

namespace Ross.Pe

variable {T S M R : Type} [TwStime T] (m : SimModel T S M R)

/-- `tw_net_minimum_sig_ptr`. -/
def twNetMinimumSig (s : Pe T S M R) : TwEventSig T :=
  (s.queue .outq ++ s.queue .postedSends).foldl
    (fun sig e => if 0 < twEventSigComparePtr sig e.sig then e.sig else sig) maxSig

/-- One turn of the loop of `recv_begin`, or its end. -/
def recvBegin (s : Pe T S M R) (changed : Bool) : Except TwError (Pe T S M R) :=
  if s.postedRecvs < m.readBuffer then
    match s.twEventGrab with
    | none =>
        if s.gvtCompute then .error .outOfEventsInGvt
        else .ok { s with net := .sendBegin true changed }
    | some s => .ok { s with postedRecvs := s.postedRecvs + 1, net := .recvBegin true }
  else .ok { s with net := .sendBegin true changed }

/-- The part of `recv_finish` for an anti-message held in the buffer `e`: the
event it cancels is found in the index and joins `cancel_q`. -/
def recvCancel (s : Pe T S M R) (e : TwEvent T) : Except TwError (Pe T S M R) :=
  match s.twHashRemove m e with
  | none => .error .nonExistentEvent
  | some (cancel, s) =>
      let s := s.setEv cancel { s.ev cancel with cancelQ := true, remote := false }
      .ok ({ s with cancelQ := cancel :: s.cancelQ }.twEventFree e)

/-- The buffer `e` filled with a positive message, and its entry in the index. -/
def indexPositive (s : Pe T S M R) (e : TwEvent T) (msg : M) : Pe T S M R :=
  { s.setEv e ⟨.unowned, false, false, m.synch.isOptimistic, 0, msg, 0, []⟩ with
    hashT := if m.synch.isOptimistic then (s.twHashInsert e).hashT else s.hashT }

/-- The part of `recv_finish` for a positive message `msg` held in `e`. -/
def recvPositive (s : Pe T S M R) (e : TwEvent T) (msg : M) : Except TwError (Pe T S M R) :=
  let s := s.indexPositive m e msg
  if m.map e.destLp ≠ s.id then .error .notForThisPe
  else if twEventSigComparePtr (s.lastSig (m.kpOf e.destLp)) e.sig ≤ 0 ∧ s.cancelQ = [] then
    .ok (s.twPqEnqueue e)
  else .ok ((s.setOwner e .peEventQ).push .eventQ e)

/-- The local name of a message: the posted buffer it was received into is named
when it is filled. -/
def received (s : Pe T S M R) (w : WireMsg T M) : TwEvent T := { w.ev with uid := s.nextUid }

/-- What `test_q` and `recv_finish` do for any message `w` from PE `src`. -/
def receive (s : Pe T S M R) (src : Nat) (w : WireMsg T M) : Pe T S M R :=
  { s with
    nextUid := s.nextUid + 1
    postedRecvs := s.postedRecvs - 1
    sNwhiteRecv := s.sNwhiteRecv + 1
    transMsgSig := s.transSig w.ev.sig
    arrived := s.arrived ++ [(src, w, s.received w)] }

/-- `recv_finish`. -/
def recvFinish (s : Pe T S M R) (src : Nat) (w : WireMsg T M) : Except TwError (Pe T S M R) :=
  let e := s.received w
  let s := s.receive src w
  if m.npe - 1 < e.sendPe then .error .badSendPe
  else if twEventSigComparePtr e.sig s.gvtSig < 0 then .error .receivedStraggler
  else if w.cancelQ then s.recvCancel m e
  else s.recvPositive m e w.msg

/-- `send_finish`. -/
def sendFinish (s : Pe T S M R) (e : TwEvent T) : Except TwError (Pe T S M R) :=
  let s := s.unlink .postedSends e
  match (s.ev e).owner with
  | .netAsend =>
      if (s.ev e).cancelAsend then
        .ok ((s.setEv e { s.ev e with cancelAsend := false, cancelQ := true }).push .outq e)
      else
        let s := s.setOwner e .peSeventQ
        if m.synch = .conservative then .ok (s.twEventFree e)
        else .ok (s.unshift .seventQ e)
  | .netAcancel => .ok (s.twEventFree e)
  | _ => .error .dontKnowHowToFinish

/-- The `MPI_Isend` of `send_begin` for the event at the tail of `outq`. -/
def isend (s : Pe T S M R) (e : TwEvent T) : Pe T S M R :=
  let cancel := (s.ev e).cancelQ
  let s := { s with
    sNwhiteSent := s.sNwhiteSent + 1
    wire := s.wire ++ [(m.map e.destLp, WireMsg.mk e cancel (s.ev e).msg)] }
  ((s.unlink .outq e).setOwner e (if cancel then .netAcancel else .netAsend)).push
    .postedSends e

/-- The `while (changed)` of the loop of `service_queues` or `tw_net_send`. -/
def loopAgain (read changed : Bool) : NetLoop :=
  if changed then (if read then .testRecvs false else .testSends false false) else .off

/-- One turn of the loop of `send_begin`, or its end. -/
def sendBegin (s : Pe T S M R) (read changed : Bool) : Pe T S M R :=
  match (s.queue .outq).getLast? with
  | some e =>
      if (s.queue .postedSends).length < m.sendBuffer then
        { s.isend m e with net := .sendBegin read true }
      else { s with net := loopAgain read changed }
  | none => { s with net := loopAgain read changed }

/-- `tw_net_read`. -/
def twNetRead (s : Pe T S M R) : Pe T S M R := { s with net := .testRecvs false }

/-- `tw_net_send`, up to its loop. -/
def twNetSend (s : Pe T S M R) (e : TwEvent T) : Pe T S M R :=
  let s := s.setEv e { s.ev e with remote := false, owner := .netOutq }
  { s.unshift .outq e with net := .testSends false false }

/-- `tw_net_cancel`, up to its call of `service_queues`. -/
def twNetCancel (s : Pe T S M R) (e : TwEvent T) : Except TwError (Pe T S M R) :=
  match (s.ev e).owner with
  | .netOutq => .ok ((s.unlink .outq e).twEventFree e)
  | .netAsend => .ok (s.setEv e { s.ev e with cancelAsend := true }).twNetRead
  | .peSeventQ =>
      .ok (((s.setEv e { s.ev e with cancelQ := true }).unlink .seventQ e).unshift
        .outq e).twNetRead
  | _ => .error .dontKnowHowToCancel

/-! ## What the steps of the network layer can do -/

variable {m} {s s' : Pe T S M R}

theorem recvCancel_ok {e : TwEvent T} (h : s.recvCancel m e = .ok s') :
    ∃ c, s.hashT.find? (sameKey m e) = some c ∧
      s' = ({ s.setEv c { s.ev c with cancelQ := true, remote := false } with
        hashT := s.hashT.erase c, cancelQ := c :: s.cancelQ } : Pe T S M R).twEventFree e := by
  unfold recvCancel twHashRemove at h
  cases hc : s.hashT.find? (sameKey m e) with
  | none => rw [hc] at h; cases h
  | some c =>
      rw [hc] at h
      cases h
      exact ⟨c, rfl, rfl⟩

theorem recvPositive_ok {e : TwEvent T} {msg : M} (h : s.recvPositive m e msg = .ok s') :
    m.map e.destLp = s.id ∧
      ((s.lastSig (m.kpOf e.destLp) ≤ e.sig ∧ s.cancelQ = [] ∧
          s' = (s.indexPositive m e msg).twPqEnqueue e) ∨
        (¬ (s.lastSig (m.kpOf e.destLp) ≤ e.sig ∧ s.cancelQ = []) ∧
          s' = ((s.indexPositive m e msg).setOwner e .peEventQ).push .eventQ e)) := by
  have hid : (s.indexPositive m e msg).id = s.id := rfl
  have hlast : (s.indexPositive m e msg).lastSig = s.lastSig := rfl
  have hcancel : (s.indexPositive m e msg).cancelQ = s.cancelQ := rfl
  unfold recvPositive at h
  simp only [hid, hlast, hcancel, twEventSigComparePtr_nonpos] at h
  split at h
  · cases h
  next hmap =>
    refine ⟨not_not.mp hmap, ?_⟩
    split at h
    next hfast =>
      cases h
      exact .inl ⟨hfast.1, hfast.2, rfl⟩
    next hfast =>
      cases h
      exact .inr ⟨hfast, rfl⟩

/-- The arrival of a message: an anti-message sends the event it finds in the
index to `cancel_q`, a positive one goes to the priority queue or to `event_q`. -/
theorem recvFinish_ok {src : Nat} {w : WireMsg T M} (h : s.recvFinish m src w = .ok s') :
    s.gvtSig ≤ w.ev.sig ∧
      ((w.cancelQ = true ∧ ∃ c, s.hashT.find? (sameKey m w.ev) = some c ∧
          s' = { s.receive src w with
            ev := Function.update
              (Function.update s.ev c { s.ev c with cancelQ := true, remote := false })
              (s.received w)
              { Function.update s.ev c { s.ev c with cancelQ := true, remote := false }
                  (s.received w) with owner := .peFreeQ }
            hashT := s.hashT.erase c
            cancelQ := c :: s.cancelQ
            freeQ := s.freeQ + 1
            freed := s.freed ++ [s.received w] }) ∨
        (w.cancelQ = false ∧ m.map w.ev.destLp = s.id ∧
          ((s.lastSig (m.kpOf w.ev.destLp) ≤ w.ev.sig ∧ s.cancelQ = [] ∧
              s' = { s.receive src w with
                ev := Function.update s.ev (s.received w)
                  ⟨.pePq, false, false, m.synch.isOptimistic, 0, w.msg, 0, []⟩
                hashT := if m.synch.isOptimistic then s.hashT ++ [s.received w] else s.hashT
                queue := Pool.cons s.queue .pq (s.received w) }) ∨
            (¬ (s.lastSig (m.kpOf w.ev.destLp) ≤ w.ev.sig ∧ s.cancelQ = []) ∧
              s' = { s.receive src w with
                ev := Function.update s.ev (s.received w)
                  ⟨.peEventQ, false, false, m.synch.isOptimistic, 0, w.msg, 0, []⟩
                hashT := if m.synch.isOptimistic then s.hashT ++ [s.received w] else s.hashT
                queue := Pool.snoc s.queue .eventQ (s.received w) })))) := by
  unfold recvFinish at h
  simp only [twEventSigComparePtr_neg] at h
  split at h
  · cases h
  split at h
  · cases h
  next hsig =>
    refine ⟨not_lt.mp hsig, ?_⟩
    split at h
    next hc =>
      obtain ⟨c, hf, rfl⟩ := recvCancel_ok h
      exact .inl ⟨hc, c, hf, rfl⟩
    next hc =>
      refine .inr ⟨by simpa using hc, ?_⟩
      obtain ⟨hmap, ⟨hl, hq, rfl⟩ | ⟨hn, rfl⟩⟩ := recvPositive_ok h
      · refine ⟨hmap, .inl ⟨hl, hq, ?_⟩⟩
        simp only [twPqEnqueue, setOwner, setEv, unshift, indexPositive, Function.update_self,
          Function.update_idem]
        rfl
      · refine ⟨hmap, .inr ⟨hn, ?_⟩⟩
        simp only [push, setOwner, setEv, indexPositive, Function.update_self,
          Function.update_idem]
        rfl

/-- A finished send: an anti-message that waited for it goes to `outq`, the
buffer of a positive message stays with the sender until its parent is
committed, that of an anti-message is freed. -/
theorem sendFinish_ok {e : TwEvent T} (h : s.sendFinish m e = .ok s') :
    ((s.ev e).owner = .netAsend ∧ (s.ev e).cancelAsend = true ∧ s' = { s with
        queue := Pool.snoc (Pool.remove s.queue .postedSends e) .outq e
        ev := Function.update s.ev e { s.ev e with cancelAsend := false, cancelQ := true } }) ∨
      ((s.ev e).owner = .netAsend ∧ (s.ev e).cancelAsend = false ∧ m.synch = .conservative ∧
        s' = { s with
          queue := Pool.remove s.queue .postedSends e
          ev := Function.update s.ev e { s.ev e with owner := .peFreeQ }
          freeQ := s.freeQ + 1
          freed := s.freed ++ [e] }) ∨
      ((s.ev e).owner = .netAsend ∧ (s.ev e).cancelAsend = false ∧ m.synch ≠ .conservative ∧
        s' = { s with
          queue := Pool.cons (Pool.remove s.queue .postedSends e) .seventQ e
          ev := Function.update s.ev e { s.ev e with owner := .peSeventQ } }) ∨
      ((s.ev e).owner = .netAcancel ∧ s' = { s with
        queue := Pool.remove s.queue .postedSends e
        ev := Function.update s.ev e { s.ev e with owner := .peFreeQ }
        freeQ := s.freeQ + 1
        freed := s.freed ++ [e] }) := by
  have hev : (s.unlink .postedSends e).ev = s.ev := rfl
  unfold sendFinish at h
  simp only [hev] at h
  split at h
  next ho =>
    split at h
    next hc =>
      cases h
      exact .inl ⟨ho, hc, rfl⟩
    next hc =>
      split at h
      next hm =>
        cases h
        refine .inr (.inl ⟨ho, by simpa using hc, hm, ?_⟩)
        simp only [twEventFree, setOwner, setEv, unlink, Function.update_self,
          Function.update_idem]
      next hm =>
        cases h
        exact .inr (.inr (.inl ⟨ho, by simpa using hc, hm, rfl⟩))
  next ho =>
    cases h
    exact .inr (.inr (.inr ⟨ho, rfl⟩))
  · cases h

/-- The last event of `outq` is handed to `MPI_Isend` while a slot is free. -/
theorem sendBegin_ok (s : Pe T S M R) (read changed : Bool) :
    (∃ e, (s.queue .outq).getLast? = some e ∧ (s.queue .postedSends).length < m.sendBuffer ∧
        s.sendBegin m read changed = { s with
          queue := Pool.snoc (Pool.remove s.queue .outq e) .postedSends e
          ev := Function.update s.ev e { s.ev e with
            owner := if (s.ev e).cancelQ then .netAcancel else .netAsend }
          sNwhiteSent := s.sNwhiteSent + 1
          wire := s.wire ++ [(m.map e.destLp, ⟨e, (s.ev e).cancelQ, (s.ev e).msg⟩)]
          net := .sendBegin read true }) ∨
      ((s.queue .outq = [] ∨ m.sendBuffer ≤ (s.queue .postedSends).length) ∧
        s.sendBegin m read changed = { s with net := loopAgain read changed }) := by
  unfold sendBegin
  split
  next e he =>
    split
    next hl => exact .inl ⟨e, he, hl, rfl⟩
    next hl => exact .inr ⟨.inr (not_lt.mp hl), rfl⟩
  next he => exact .inr ⟨.inl (List.getLast?_eq_none_iff.mp he), rfl⟩

omit [TwStime T] in
theorem recvBegin_ok {changed : Bool} (h : s.recvBegin m changed = .ok s') :
    s' = { s with net := .sendBegin true changed } ∨
      s.postedRecvs < m.readBuffer ∧ 0 < s.freeQ ∧
        s' = { s with
          freeQ := s.freeQ - 1, postedRecvs := s.postedRecvs + 1, net := .recvBegin true } := by
  unfold recvBegin twEventGrab at h
  split at h
  next hp =>
    split at h
    next hg =>
      split at h
      · cases h
      · cases h
        exact .inl rfl
    next s₁ hg =>
      split at hg
      · cases hg
      next hf =>
        cases hg
        cases h
        exact .inr ⟨hp, Nat.pos_of_ne_zero hf, rfl⟩
  · cases h
    exact .inl rfl

theorem twNetCancel_ok {e : TwEvent T} (h : s.twNetCancel e = .ok s') :
    ((s.ev e).owner = .netOutq ∧ s' = { s with
        queue := Pool.remove s.queue .outq e
        ev := Function.update s.ev e { s.ev e with owner := .peFreeQ }
        freeQ := s.freeQ + 1
        freed := s.freed ++ [e] }) ∨
      ((s.ev e).owner = .netAsend ∧ s' = { s with
        ev := Function.update s.ev e { s.ev e with cancelAsend := true }
        net := .testRecvs false }) ∨
      ((s.ev e).owner = .peSeventQ ∧ s' = { s with
        queue := Pool.cons (Pool.remove s.queue .seventQ e) .outq e
        ev := Function.update s.ev e { s.ev e with cancelQ := true }
        net := .testRecvs false }) := by
  unfold twNetCancel at h
  split at h
  next ho =>
    cases h
    exact .inl ⟨ho, rfl⟩
  next ho =>
    cases h
    exact .inr (.inl ⟨ho, rfl⟩)
  next ho =>
    cases h
    exact .inr (.inr ⟨ho, rfl⟩)
  · cases h

end Ross.Pe

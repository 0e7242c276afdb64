import Ross.Core.System

/-!
# What a step does to the buffers of a PE

The buffers of a PE, where they are linked, the messages that it sent and received and its two
signatures of a GVT computation, and all that a step may do to them.
-/

namespace Ross

variable {T S M R : Type} [TwStime T]

/-- The buffers of a PE and its history. -/
structure Stock (T M : Type) where
  id : Nat
  ev : TwEvent T → EventState T M
  queue : QueueId → List (TwEvent T)
  cancelQ : List (TwEvent T)
  cancelList : List (TwEvent T)
  abortCausedByMe : List (TwEvent T)
  curEvent : Option (TwEvent T)
  handles : List (Handle T M)
  rollback : Option (Rollback T)
  transMsgSig : TwEventSig T
  gvtSig : TwEventSig T
  sNwhiteSent : Nat
  sNwhiteRecv : Nat
  seqNum : Nat
  hashT : List (TwEvent T)
  sent : List (TwEvent T)
  wire : List (Nat × WireMsg T M)
  arrived : List (Nat × WireMsg T M × TwEvent T)
  commits : List (TwEvent T)
  freed : List (TwEvent T)

namespace Pe

def stock (s : Pe T S M R) : Stock T M where
  id := s.id
  ev := s.ev
  queue := s.queue
  cancelQ := s.cancelQ
  cancelList := s.cancelList
  abortCausedByMe := s.abortCausedByMe
  curEvent := s.curEvent
  handles := s.handles
  rollback := s.rollback
  transMsgSig := s.transMsgSig
  gvtSig := s.gvtSig
  sNwhiteSent := s.sNwhiteSent
  sNwhiteRecv := s.sNwhiteRecv
  seqNum := s.seqNum
  hashT := s.hashT
  sent := s.sent
  wire := s.wire
  arrived := s.arrived
  commits := s.commits
  freed := s.freed

/-- The handler that runs calls into the kernel. -/
def Speaks (s : Pe T S M R) (lp : Nat) (op : HandlerOp T M) : Prop :=
  ∃ ops, (∃ kind left, s.At (.handler kind left lp (op :: ops))) ∨ s.At (.lpInit lp (op :: ops))

/-- Why an event comes off the `pevent_q` of the KP `kp`, to be undone. -/
inductive Undoes (m : SimModel T S M R) (s : Pe T S M R) (kp : Nat) (e : TwEvent T)
    (rest : List (TwEvent T)) : RollbackAfter → Prop
  | straggler {cev : TwEvent T} {l : List (TwEvent T)} :
      s.At .eventQRollback → s.queue .evList = cev :: l → kp = m.kpOf cev.destLp →
      cev.sig ≤ e.sig → Undoes m s kp e rest .requeueReset
  | toSig {toSig : TwEventSig T} :
      s.At (.rollbackToSig kp toSig) → toSig ≤ e.sig → Undoes m s kp e rest .requeueReset
  | above {event : TwEvent T} :
      s.At (.cancelQRollback event) → kp = m.kpOf event.destLp → e ≠ event → rest ≠ [] →
      Undoes m s kp e rest .requeue
  | cancelled :
      s.At (.cancelQRollback e) → kp = m.kpOf e.destLp → Undoes m s kp e rest .freeReset

/-- What a step does to the buffers. -/
inductive Deed (m : SimModel T S M R) (s s' : Pe T S M R) : Input T M → Prop
  /-- Nothing. -/
  | none {i : Input T M} : s'.stock = s.stock → Deed m s s' i
  /-- A new GVT is stored. -/
  | store {gvt : TwEventSig T} {expired : Bool} :
      s.At (.gvtStore gvt) → s.gvtSig ≤ min gvt maxSig →
      s'.stock = { s.stock with
        sNwhiteSent := 0, sNwhiteRecv := 0, transMsgSig := maxSig, gvtSig := min gvt maxSig } →
      Deed m s s' (.tau expired)
  /-- Past the end of time GVT goes to the trigger of the hook. -/
  | raise {sig : TwEventSig T} {expired : Bool} :
      m.tsEnd ≤ s.gvtSig.recvTs →
      (sig = s.trigger.sigAt ∧ (s.At (.reduced .hookAll true) ∨
          s.At .idle ∧ s.trigger.status = .everyNGvt ∧ m.gvtHook = true) ∨
        sig = maxSig ∧ s.At (.reduced .hookAny true)) →
      s'.stock = { s.stock with gvtSig := sig } → Deed m s s' (.tau expired)
  /-- An anti-message arrives. -/
  | recvCancel {src : Nat} {w : WireMsg T M} {c : TwEvent T} :
      s.gvtSig ≤ w.ev.sig → w.cancelQ = true → s.hashT.find? (sameKey m w.ev) = some c →
      s'.stock = { s.stock with
        ev := Function.update
          (Function.update s.ev c { s.ev c with cancelQ := true, remote := false })
          (s.received w)
          { Function.update s.ev c { s.ev c with cancelQ := true, remote := false }
              (s.received w) with owner := .peFreeQ }
        cancelQ := c :: s.cancelQ
        transMsgSig := s.transSig w.ev.sig
        sNwhiteRecv := s.sNwhiteRecv + 1
        hashT := s.hashT.erase c
        arrived := s.arrived ++ [(src, w, s.received w)]
        freed := s.freed ++ [s.received w] } →
      Deed m s s' (.recv src w)
  /-- An event arrives. -/
  | recvEvent {src : Nat} {w : WireMsg T M} {o : TwEventOwner}
      {queue : QueueId → List (TwEvent T)} :
      s.gvtSig ≤ w.ev.sig → w.cancelQ = false → m.map w.ev.destLp = s.id →
      (s.lastSig (m.kpOf w.ev.destLp) ≤ w.ev.sig ∧ s.cancelQ = [] ∧ o = .pePq ∧
          queue = Pool.cons s.queue .pq (s.received w) ∨
        o = .peEventQ ∧ queue = Pool.snoc s.queue .eventQ (s.received w)) →
      s'.stock = { s.stock with
        ev := Function.update s.ev (s.received w)
          ⟨o, false, false, m.synch.isOptimistic, 0, w.msg, 0, []⟩
        queue := queue
        transMsgSig := s.transSig w.ev.sig
        sNwhiteRecv := s.sNwhiteRecv + 1
        hashT := if m.synch.isOptimistic then s.hashT ++ [s.received w] else s.hashT
        arrived := s.arrived ++ [(src, w, s.received w)] } →
      Deed m s s' (.recv src w)
  /-- An event handed to `MPI_Isend` was cancelled meanwhile. -/
  | recalled {e : TwEvent T} :
      e ∈ s.queue .postedSends → (s.ev e).owner = .netAsend → (s.ev e).cancelAsend = true →
      s'.stock = { s.stock with
        queue := Pool.snoc (Pool.remove s.queue .postedSends e) .outq e
        ev := Function.update s.ev e { s.ev e with cancelAsend := false, cancelQ := true } } →
      Deed m s s' (.sent e)
  /-- The buffer of an event handed to `MPI_Isend` is kept. -/
  | keep {e : TwEvent T} :
      e ∈ s.queue .postedSends → (s.ev e).owner = .netAsend → (s.ev e).cancelAsend = false →
      m.synch ≠ .conservative →
      s'.stock = { s.stock with
        queue := Pool.cons (Pool.remove s.queue .postedSends e) .seventQ e
        ev := Function.update s.ev e { s.ev e with owner := .peSeventQ } } →
      Deed m s s' (.sent e)
  /-- The buffer of an anti-message handed to `MPI_Isend`, or of a conservative send, is freed. -/
  | sendFree {e : TwEvent T} :
      e ∈ s.queue .postedSends →
      ((s.ev e).owner = .netAcancel ∨ (s.ev e).owner = .netAsend ∧ (s.ev e).cancelAsend = false ∧
        m.synch = .conservative) →
      s'.stock = { s.stock with
        queue := Pool.remove s.queue .postedSends e
        ev := Function.update s.ev e { s.ev e with owner := .peFreeQ }
        freed := s.freed ++ [e] } →
      Deed m s s' (.sent e)
  /-- A message is handed to `MPI_Isend`. -/
  | isend {e : TwEvent T} {expired : Bool} :
      (s.queue .outq).getLast? = some e →
      s'.stock = { s.stock with
        queue := Pool.snoc (Pool.remove s.queue .outq e) .postedSends e
        ev := Function.update s.ev e { s.ev e with
          owner := if (s.ev e).cancelQ then .netAcancel else .netAsend }
        sNwhiteSent := s.sNwhiteSent + 1
        wire := s.wire ++ [(m.map e.destLp, ⟨e, (s.ev e).cancelQ, (s.ev e).msg⟩)] } →
      Deed m s s' (.tau expired)
  /-- A handler creates an event. -/
  | create {lp destGid : Nat} {offsetTs prio : T} {msg : M} {expired : Bool} :
      s.Speaks lp (.eventNew destGid offsetTs prio msg) →
      s.twNow m lp + offsetTs < m.tsEnd →
      s'.stock = { s.stock with
        handles := s.handles ++ [.buffer
          ⟨s.nextUid, s.newSig m offsetTs lp prio, 0, destGid, lp, s.id⟩ msg] } →
      Deed m s s' (.tau expired)
  /-- A handler gets the abort event. -/
  | createAbort {expired : Bool} :
      s'.stock = { s.stock with handles := s.handles ++ [.abort] } → Deed m s s' (.tau expired)
  /-- A handler sends the abort event. -/
  | sendAbort {i : Nat} {expired : Bool} :
      s.handles[i]? = some .abort →
      s'.stock = { s.stock with
        handles := s.handles.set i (.sent none)
        ev := s.increaseAbortedCount.ev } →
      Deed m s s' (.tau expired)
  /-- A handler sends an event. -/
  | send {i lp : Nat} {e : TwEvent T} {msg : M} {o : TwEventOwner}
      {queue : QueueId → List (TwEvent T)} {sig : TwEventSig T} {expired : Bool} :
      s.Speaks lp (.eventSend i) → s.handles[i]? = some (.buffer e msg) →
      (m.map e.destLp = s.id ∧ s.lastSig (m.kpOf e.destLp) ≤ e.sig ∧ o = .pePq ∧
          queue = Pool.cons s.queue .pq (s.stamp e) ∧ sig = s.transMsgSig ∨
        m.map e.destLp = s.id ∧ e.sig < s.lastSig (m.kpOf e.destLp) ∧ o = .peEventQ ∧
          queue = Pool.snoc s.queue .eventQ (s.stamp e) ∧ sig = s.transSig e.sig ∨
        m.map e.destLp ≠ s.id ∧ o = .netOutq ∧
          queue = Pool.cons s.queue .outq (s.stamp e) ∧ sig = s.transSig e.sig) →
      s'.stock = { (s.prepare i e msg).stock with
        ev := Function.update (s.prepare i e msg).ev (s.stamp e)
          { (s.prepare i e msg).ev (s.stamp e) with owner := o }
        queue := queue
        transMsgSig := sig } →
      Deed m s s' (.tau expired)
  /-- A child that has not been handed to `MPI_Isend` is dropped. -/
  | dropOutq {r : Rollback T} {e : TwEvent T} {rest : List (TwEvent T)} {expired : Bool} :
      s.rollback = some r → r.children = e :: rest → (s.ev e).owner = .netOutq →
      s'.stock = { s.stock with
        rollback := some { r with children := rest }
        transMsgSig := s.transSig e.sig
        queue := Pool.remove s.queue .outq e
        ev := Function.update s.ev e { s.ev e with owner := .peFreeQ }
        freed := s.freed ++ [e] } →
      Deed m s s' (.tau expired)
  /-- A child handed to `MPI_Isend` is marked. -/
  | markAsend {r : Rollback T} {e : TwEvent T} {rest : List (TwEvent T)} {expired : Bool} :
      s.rollback = some r → r.children = e :: rest → (s.ev e).owner = .netAsend →
      s'.stock = { s.stock with
        rollback := some { r with children := rest }
        transMsgSig := s.transSig e.sig
        ev := Function.update s.ev e { s.ev e with cancelAsend := true } } →
      Deed m s s' (.tau expired)
  /-- A child that has been sent is sent again as an anti-message. -/
  | antiMessage {r : Rollback T} {e : TwEvent T} {rest : List (TwEvent T)} {expired : Bool} :
      s.rollback = some r → r.children = e :: rest → (s.ev e).owner = .peSeventQ →
      s'.stock = { s.stock with
        rollback := some { r with children := rest }
        transMsgSig := s.transSig e.sig
        queue := Pool.cons (Pool.remove s.queue .seventQ e) .outq e
        ev := Function.update s.ev e { s.ev e with cancelQ := true } } →
      Deed m s s' (.tau expired)
  /-- A local child not processed yet is freed. -/
  | dropPq {r : Rollback T} {e : TwEvent T} {rest : List (TwEvent T)} {expired : Bool} :
      s.rollback = some r → r.children = e :: rest → (s.ev e).owner = .pePq →
      m.map e.destLp = s.id →
      s'.stock = { s.stock with
        rollback := some { r with children := rest }
        queue := Pool.remove s.queue .pq e
        ev := Function.update s.ev e { s.ev e with owner := .peFreeQ }
        freed := s.freed ++ [e] } →
      Deed m s s' (.tau expired)
  /-- Any other local child is cancelled. -/
  | cancelLocal {r : Rollback T} {e : TwEvent T} {rest : List (TwEvent T)} {expired : Bool} :
      s.rollback = some r → r.children = e :: rest →
      ((s.ev e).owner = .peEventQ ∨ (s.ev e).owner = .kpPeventQ) → m.map e.destLp = s.id →
      s'.stock = { s.stock with
        rollback := some { r with children := rest }
        transMsgSig := s.transSig e.sig
        cancelQ := e :: s.cancelQ
        ev := Function.update s.ev e { s.ev e with cancelQ := true } } →
      Deed m s s' (.tau expired)
  /-- The event undone goes back to the priority queue. -/
  | requeue {r : Rollback T} {expired : Bool} :
      s.rollback = some r → r.children = [] → r.after ≠ .freeReset →
      s'.stock = { s.stock with
        rollback := none
        queue := Pool.cons (Pool.remove s.queue .hand r.event) .pq r.event
        ev := Function.update s.ev r.event
          { s.ev r.event with owner := .pePq, abortedTotal := 0 } } →
      Deed m s s' (.tau expired)
  /-- The event undone is freed. -/
  | undoneFree {r : Rollback T} {expired : Bool} :
      s.rollback = some r → r.children = [] → r.after = .freeReset →
      s'.stock = { s.stock with
        rollback := none
        queue := Pool.remove s.queue .hand r.event
        ev := Function.update s.ev r.event
          { s.ev r.event with owner := .peFreeQ, abortedTotal := 0 }
        freed := s.freed ++ [r.event] } →
      Deed m s s' (.tau expired)
  /-- A processed event is undone. -/
  | undo {kp : Nat} {e : TwEvent T} {rest : List (TwEvent T)} {after : RollbackAfter}
      {cv : BitVec 32} {msg : M} {expired : Bool} :
      s.queue (.peventQ kp) = e :: rest → Undoes m s kp e rest after →
      s'.stock = { s.stock with
        queue := Pool.cons (Function.update s.queue (.peventQ kp) rest) .hand e
        curEvent := some e
        ev := Function.update s.ev e { s.ev e with cv, msg, causedByMe := [] }
        rollback := some ⟨e, (s.ev e).causedByMe, after⟩ } →
      Deed m s s' (.tau expired)
  /-- The event of a handler that ran out of buffers is undone. -/
  | abort {kind : BatchKind} {left lp : Nat} {cev : TwEvent T} {cv : BitVec 32} {msg : M}
      {expired : Bool} :
      s.At (.handler kind left lp []) → s.curEvent = some cev → kind ≠ .conservative →
      s'.stock = { s.stock with
        curEvent := some cev
        ev := Function.update s.ev cev { s.ev cev with cv, msg, causedByMe := [] }
        rollback := some ⟨cev, (s.ev cev).causedByMe, .abort kind⟩ } →
      Deed m s s' (.tau expired)
  /-- A cancelled event is dropped from the list. -/
  | dropAnti {cev : TwEvent T} {rest : List (TwEvent T)} {expired : Bool} :
      s.At .eventQ → s.queue .evList = cev :: rest → (s.ev cev).cancelQ = true →
      s'.stock = { s.stock with
        queue := Pool.cons (Function.update s.queue .evList rest) .antiMsg cev
        ev := Function.update s.ev cev { s.ev cev with owner := .peAntiMsg } } →
      Deed m s s' (.tau expired)
  /-- An event of the list joins the priority queue. -/
  | enqueue {cev : TwEvent T} {rest : List (TwEvent T)} {expired : Bool} :
      s.At .eventQ ∨ s.At .eventQRollback → s.queue .evList = cev :: rest →
      s'.stock = { s.stock with
        queue := Pool.cons (Function.update s.queue .evList rest) .pq cev
        ev := Function.update s.ev cev { s.ev cev with owner := .pePq } } →
      Deed m s s' (.tau expired)
  /-- The events of `event_q` become the list. -/
  | loadEvents {expired : Bool} :
      s.At .eventQ → s.queue .evList = [] →
      s'.stock = { s.stock with
        queue := Function.update (Function.update s.queue .eventQ []) .evList
          (s.queue .eventQ) } →
      Deed m s s' (.tau expired)
  /-- A cancelled event is taken out of its queue and freed. -/
  | cancelFree {cev : TwEvent T} {rest : List (TwEvent T)} {q : QueueId} {expired : Bool} :
      s.At .cancelQ → s.cancelList = cev :: rest → (s.ev cev).cancelQ = true →
      ((s.ev cev).owner = .peEventQ ∧ q = .eventQ ∨ (s.ev cev).owner = .peAntiMsg ∧ q = .antiMsg ∨
        (s.ev cev).owner = .pePq ∧ q = .pq) →
      s'.stock = { s.stock with
        cancelList := rest
        queue := Pool.remove s.queue q cev
        ev := Function.update s.ev cev { s.ev cev with owner := .peFreeQ }
        freed := s.freed ++ [cev] } →
      Deed m s s' (.tau expired)
  /-- A cancelled event that has been processed is going to be undone. -/
  | cancelProcessed {cev : TwEvent T} {rest : List (TwEvent T)} {expired : Bool} :
      s.At .cancelQ → s.cancelList = cev :: rest → (s.ev cev).owner = .kpPeventQ →
      s'.phase = .cancelQRollback cev → s'.stock = { s.stock with cancelList := rest } →
      Deed m s s' (.tau expired)
  /-- The events of `cancel_q` become the list. -/
  | loadCancel {expired : Bool} :
      s.At .cancelQ → s.cancelList = [] →
      s'.stock = { s.stock with cancelList := s.cancelQ, cancelQ := [] } →
      Deed m s s' (.tau expired)
  /-- The handler of the least event starts. -/
  | start {kind : BatchKind} {left : Nat} {cev : TwEvent T} {cv : BitVec 32} {msg : M}
      {expired : Bool} :
      s.At (.batch kind left) → pqLeast (s.queue .pq) = some cev →
      s'.stock = { s.stock with
        queue := Pool.cons (Pool.remove s.queue .pq cev) .hand cev
        ev := Function.update s.ev cev { s.ev cev with owner := .unowned, cv, msg }
        curEvent := some cev
        handles := [] } →
      Deed m s s' (.tau expired)
  /-- The event processed is freed. -/
  | release {left lp : Nat} {cev : TwEvent T} {expired : Bool} :
      s.At (.handler .conservative left lp []) → s.curEvent = some cev →
      s'.stock = { s.stock with
        queue := Pool.remove s.queue .hand cev
        ev := Function.update s.ev cev { s.ev cev with owner := .peFreeQ }
        freed := s.freed ++ [cev] } →
      Deed m s s' (.tau expired)
  /-- The event processed joins the others of its KP. -/
  | process {kind : BatchKind} {left lp : Nat} {cev : TwEvent T} {expired : Bool} :
      s.At (.handler kind left lp []) → kind ≠ .conservative → s.cevAbort = false →
      s.curEvent = some cev →
      s'.stock = { s.stock with
        queue := Pool.cons (Pool.remove s.queue .hand cev) (.peventQ (m.kpOf cev.destLp)) cev
        ev := Function.update s.ev cev { s.ev cev with owner := .kpPeventQ } } →
      Deed m s s' (.tau expired)
  /-- A sent child of a committed event is freed. -/
  | freeChild {kp : Nat} {c : TwEvent T} {cs : List (TwEvent T)} {expired : Bool} :
      s.At (.fossilCollect kp (c :: cs)) → (s.ev c).owner = .peSeventQ →
      s'.stock = { s.stock with
        queue := Pool.remove s.queue .seventQ c
        ev := Function.update s.ev c { s.ev c with owner := .peFreeQ }
        freed := s.freed ++ [c] } →
      Deed m s s' (.tau expired)
  /-- An event is committed. -/
  | commit {kp : Nat} {e : TwEvent T} {index : List (TwEvent T)} {expired : Bool} :
      s.At (.fossilCollect kp []) → (s.queue .fossil).getLast? = some e →
      ((e.eventId = 0 ∨ (s.ev e).remote = false) ∧ index = s.hashT ∨
        e.eventId ≠ 0 ∧ (s.ev e).remote = true ∧ ∃ c, s.hashT.find? (sameKey m e) = some c ∧
          index = s.hashT.erase c) →
      s'.stock = { s.stock with
        queue := Pool.remove s.queue .fossil e
        ev := Function.update s.ev e { s.ev e with
          owner := if (s.ev e).causedByMe = [] then (s.ev e).owner else .peFreeQ
          causedByMe := [] }
        hashT := index
        commits := s.commits ++ [e]
        freed := s.freed ++ [e] } →
      s'.phase = .fossilCollect kp (s.ev e).causedByMe →
      Deed m s s' (.tau expired)
  /-- The events to commit are cut off the processed ones of a KP. -/
  | cut {kp : Nat} {expired : Bool} :
      s.At (.fossilCollect kp []) → s.queue .fossil = [] →
      s'.stock = (s.cutPevent kp).stock → Deed m s s' (.tau expired)
  /-- An `init` or `pre_run` handler starts. -/
  | init {expired : Bool} :
      s.At .idle →
      s'.stock = { s.stock with curEvent := none, abortCausedByMe := [], handles := [] } →
      Deed m s s' (.tau expired)

section Functions

variable {m : SimModel T S M R} {s s' : Pe T S M R}

theorem recvFinish_deed {src : Nat} {w : WireMsg T M} {n : NetLoop}
    (hs : ({ s with net := n } : Pe T S M R).recvFinish m src w = .ok s') :
    Deed m s s' (.recv src w) := by
  obtain ⟨hg, ⟨hw, c, hc, rfl⟩ | ⟨hw, hmap, ⟨hl, hq, rfl⟩ | ⟨-, rfl⟩⟩⟩ := recvFinish_ok hs
  · exact .recvCancel hg hw hc rfl
  · exact .recvEvent hg hw hmap (.inl ⟨hl, hq, rfl, rfl⟩) rfl
  · exact .recvEvent hg hw hmap (.inr ⟨rfl, rfl⟩) rfl

theorem sendFinish_deed {e : TwEvent T} {n : NetLoop} (he : e ∈ s.queue .postedSends)
    (hs : ({ s with net := n } : Pe T S M R).sendFinish m e = .ok s') :
    Deed m s s' (.sent e) := by
  rcases sendFinish_ok hs with ⟨ho, hc, rfl⟩ | ⟨ho, hc, hm, rfl⟩ | ⟨ho, hc, hm, rfl⟩ | ⟨ho, rfl⟩
  · exact .recalled he ho hc rfl
  · exact .sendFree he (.inr ⟨ho, hc, hm⟩) rfl
  · exact .keep he ho hc hm rfl
  · exact .sendFree he (.inl ho) rfl

/-- An event is not remote where it is sent. -/
theorem prepare_remote (s : Pe T S M R) (i : Nat) (e : TwEvent T) (msg : M) :
    ((s.prepare i e msg).ev (s.stamp e)).remote = false := by
  have hreg : (((s.takeHandle i (some e)).register (s.stamp e) msg).ev (s.stamp e)).remote =
      false := by
    unfold register setEv
    dsimp only
    rw [Function.update_self]
  show ((((s.takeHandle i (some e)).register (s.stamp e) msg).linkCausality
    (s.stamp e)).ev (s.stamp e)).remote = false
  unfold linkCausality
  cases hcur : ((s.takeHandle i (some e)).register (s.stamp e) msg).curEvent with
  | none => exact hreg
  | some cev =>
      dsimp only
      by_cases hc : s.stamp e = cev
      · rw [hc] at hreg ⊢
        rw [Function.update_self]
        exact hreg
      · rw [Function.update_of_ne hc]
        exact hreg

theorem handlerOp_deed {lp : Nat} {op : HandlerOp T M} {p : Phase T M} {expired : Bool}
    (hsp : s.Speaks lp op) (hs : ({ s with phase := p } : Pe T S M R).handlerOp m lp op = .ok s') :
    Deed m s s' (.tau expired) := by
  cases op with
  | eventNew destGid offsetTs prio msg =>
      obtain ⟨-, ⟨-, rfl⟩ | ⟨hend, -, rfl⟩⟩ := twEventNewUserPrio_ok hs
      · exact .createAbort rfl
      · exact .create hsp hend rfl
  | eventSend i =>
      rcases twEventSend_ok hs with ⟨hi, rfl⟩ | ⟨e, msg, hi, -, rfl⟩
      · exact .sendAbort hi rfl
      · rcases deliver_cases m (({ s with phase := p } : Pe T S M R).prepare i e msg)
            (({ s with phase := p } : Pe T S M R).stamp e) with
          ⟨hmap, hl, hd⟩ | ⟨hmap, hl, hd⟩ | ⟨hmap, hd⟩
        · refine .send hsp hi (.inl ⟨hmap, hl, rfl, rfl, rfl⟩) ?_
          exact congrArg stock hd
        · refine .send hsp hi (.inr (.inl ⟨hmap, hl, rfl, rfl, rfl⟩)) ?_
          exact congrArg stock hd
        · refine .send hsp hi (.inr (.inr ⟨hmap, rfl, rfl, rfl⟩)) ?_
          have hrec : ({ (s.prepare i e msg).ev (s.stamp e) with
              remote := false, owner := .netOutq } : EventState T M) =
              { (s.prepare i e msg).ev (s.stamp e) with owner := .netOutq } := by
            rw [← prepare_remote s i e msg]
          rw [hd, ← hrec]
          rfl
  | lpSuspend b =>
      cases hs
      exact .none rfl
  | triggerGvtHookNow =>
      rcases twTriggerGvtHookNow_ok hs with rfl | ⟨-, rfl⟩
      · exact .none rfl
      · exact .none rfl

theorem rollbackStep_deed {r : Rollback T} {expired : Bool} (hr : s.rollback = some r)
    (hs : s.rollbackStep m r = .ok s') : Deed m s s' (.tau expired) := by
  unfold rollbackStep at hs
  split at hs
  next e rest hc =>
    unfold rollbackChild at hs
    rcases eventCancel_ok hs with ⟨ho, rfl⟩ | ⟨ho, rfl⟩ | ⟨ho, rfl⟩ | ⟨ho, hmap, rfl⟩ |
      ⟨ho, hmap, rfl⟩
    · exact .dropOutq hr hc ho rfl
    · exact .markAsend hr hc ho rfl
    · exact .antiMessage hr hc ho rfl
    · exact .dropPq hr hc ho hmap rfl
    · exact .cancelLocal hr hc ho hmap rfl
  next hc =>
    cases hs
    have hself : ({ s with
        ev := Function.update s.ev r.event { s.ev r.event with abortedTotal := 0 } } :
        Pe T S M R).ev r.event = { s.ev r.event with abortedTotal := 0 } :=
      Function.update_self ..
    cases ha : r.after with
    | requeueReset | requeue | abort kind =>
        refine .requeue hr hc (by simp [ha]) ?_
        rw [afterRollback_eq]
        simp only [stock, rollbackEnd, reverseUnif, setLp, Function.update_self,
          Function.update_idem]
    | freeReset =>
        refine .undoneFree hr hc ha ?_
        rw [afterRollback_eq]
        simp only [stock, rollbackEnd, reverseUnif, setLp, Function.update_self,
          Function.update_idem]

theorem undo_deed {kp : Nat} {e : TwEvent T} {rest : List (TwEvent T)} {after : RollbackAfter}
    {t : Pe T S M R} {expired : Bool} (hq : s.queue (.peventQ kp) = e :: rest)
    (hu : Undoes m s kp e rest after)
    (ht : t.stock = { s.stock with
      queue := Pool.cons (Function.update s.queue (.peventQ kp) rest) .hand e }) :
    Deed m s (t.twEventRollback m e after) (.tau expired) := by
  have hev : t.ev = s.ev := congrArg Stock.ev ht
  obtain ⟨l, cv, msg, g, heq⟩ := twEventRollback_frame m t e after
  refine @Deed.undo T S M R _ m s _ kp e rest after cv msg _ hq hu ?_
  rw [heq, ← hev]
  have hstock : ∀ (ev : TwEvent T → EventState T M) (r : Option (Rollback T)),
      { t.stock with curEvent := some e, ev := ev, rollback := r } = { s.stock with
        queue := Pool.cons (Function.update s.queue (.peventQ kp) rest) .hand e
        curEvent := some e, ev := ev, rollback := r } := by
    intro ev r
    rw [ht]
  exact hstock _ _

theorem fossilStep_deed {kp : Nat} {children : List (TwEvent T)} {expired : Bool}
    (hat : s.At (.fossilCollect kp children)) (hs : s.fossilStep m kp children = .ok s') :
    Deed m s s' (.tau expired) := by
  rcases fossilStep_ok hs with ⟨c, cs, hc, ⟨ho, rfl⟩ | ⟨-, rfl⟩⟩ | ⟨hc, e, he, hcommit⟩ |
    ⟨hc, hf, -, rfl⟩ | ⟨-, -, -, rfl⟩
  · rw [hc] at hat
    exact .freeChild hat ho rfl
  · exact .none rfl
  · rw [hc] at hat
    rcases commitEvent_ok hcommit with ⟨hid, rfl⟩ | ⟨hid, hrem, c, hfind, rfl⟩
    · exact .commit hat he (.inl ⟨hid, rfl⟩) rfl rfl
    · exact .commit hat he (.inr ⟨hid, hrem, c, hfind, rfl⟩) rfl rfl
  · rw [hc] at hat
    exact .cut hat hf rfl
  · exact .none rfl

theorem callHook_deed {t : GvtHookTrigger T} {expired : Bool}
    (hsig : t.sigAt = s.trigger.sigAt ∧ (s.At (.reduced .hookAll true) ∨
          s.At .idle ∧ s.trigger.status = .everyNGvt ∧ m.gvtHook = true) ∨
        t.sigAt = maxSig ∧ s.At (.reduced .hookAny true))
    {u : Pe T S M R} (hu : u.stock = s.stock)
    (hs : ({ u with trigger := t } : Pe T S M R).callHook m = .ok s') :
    Deed m s s' (.tau expired) := by
  have hgvt : u.gvtSig = s.gvtSig := congrArg Stock.gvtSig hu
  rcases callHook_ok hs with rfl | ⟨hend, -, rfl⟩
  · exact .none hu
  · refine .raise (hgvt ▸ hend) hsig ?_
    show { u.stock with gvtSig := t.sigAt } = _
    rw [hu]

theorem call_deed {c : Call T} {rest : List (Call T)} {expired : Bool} (hat : s.At .idle)
    (hs : ({ s with todo := rest } : Pe T S M R).call m expired c = .ok s') :
    Deed m s s' (.tau expired) := by
  cases c with
  | initLp lp =>
      cases hs
      exact .init hat rfl
  | preRunLp lp =>
      cases hs
      exact .init hat rfl
  | gvtStep1 =>
      cases hs
      obtain ⟨n, b, heq, -⟩ := gvtStep1_frame (m := m) { s with todo := rest }
      rw [heq]
      exact .none rfl
  | gvtStep1Realtime =>
      cases hs
      obtain ⟨n, b, heq, -⟩ := gvtStep1Realtime_frame (m := m) { s with todo := rest } expired
      rw [heq]
      exact .none rfl
  | gvtStep2 | optimisticTail | optimisticRealtimeTail | conservativeTail =>
      cases hs
      split
      · exact .none rfl
      · exact .none rfl
  | gvtHookStep =>
      by_cases hg : m.gvtHook = true
      · rcases gvtHookStep_ok hs with rfl | rfl | rfl | ⟨hst, hc⟩
        · exact .none rfl
        · exact .none rfl
        · exact .none rfl
        · exact callHook_deed (t := s.trigger) (u := { s with todo := rest })
            (.inl ⟨rfl, .inr ⟨hat, hst, hg⟩⟩) rfl hc
      · have hs : ({ s with todo := rest } : Pe T S M R).gvtHookStep m = .ok s' := hs
        unfold gvtHookStep at hs
        rw [if_neg hg] at hs
        cases hs
        exact .none rfl
  | netRead | gvtStep2AndHook | rollbackAndCancelEventsPe | cleanupLoop | gvtStatusOn
  | schedulerOptimistic | schedulerOptimisticRealtime | schedulerConservative | schedEventQ
  | schedCancelQ | schedBatch | schedBatchRealtime | conservativeBatch | kpRollbackToSig
  | cleanupTest | hookReturn =>
      cases hs
      exact .none rfl

end Functions

/-- What any step but a reduction does to the buffers. -/
theorem step_deed {m : SimModel T S M R} {s s' : Pe T S M R} {i : Input T M}
    (hi : (∀ o, i ≠ .outcome o) ∧ ∀ c, i ≠ .call c) (hs : s.step m i = .ok s') :
    Deed m s s' i := by
  have hturn := step_turn hs
  clear hs
  cases hturn with
  | recv hn hp hs => exact recvFinish_deed hs
  | testRecvs hn hs =>
      subst hs
      exact .none rfl
  | sent hn he hs => exact sendFinish_deed he hs
  | testSends hn hs =>
      subst hs
      exact .none rfl
  | recvBegin hn hs =>
      rcases recvBegin_ok hs with rfl | ⟨-, -, rfl⟩
      · exact .none rfl
      · exact .none rfl
  | @sendBegin read changed expired hn hs =>
      subst hs
      rcases sendBegin_ok (m := m) s read changed with ⟨e, he, -, heq⟩ | ⟨-, heq⟩
      · rw [heq]
        exact .isend he rfl
      · rw [heq]
        exact .none rfl
  | rollback hn hr hs => exact rollbackStep_deed hr hs
  | call hat ht hs => exact call_deed hat hs
  | outerCall hat ht hs => exact absurd rfl (hi.2 _)
  | eventQ hat hs =>
      rcases schedEventQ_ok hs with ⟨cev, rest, hq, ⟨hc, rfl⟩ | ⟨-, -, ⟨-, rfl⟩ | ⟨-, rfl⟩⟩⟩ |
        ⟨-, -, rfl⟩ | ⟨hq, -, rfl⟩
      · exact .dropAnti hat hq hc rfl
      · exact .none rfl
      · exact .enqueue (.inl hat) hq rfl
      · exact .none rfl
      · exact .loadEvents hat hq rfl
  | eventQRollback hat hs =>
      obtain ⟨cev, rest, hq, hback | ⟨-, rfl⟩⟩ := schedStraggler_ok hs
      · obtain ⟨e, tl, hkp, hle, rfl⟩ := kpRollbackToSig_some hback
        exact undo_deed hkp (.straggler hat hq rfl hle) rfl
      · exact .enqueue (.inr hat) hq rfl
  | cancelQ hat hs =>
      rcases schedCancelQ_ok hs with ⟨cev, rest, hl, hc, ⟨q, ho, rfl⟩ | ⟨ho, rfl⟩⟩ | ⟨-, -, rfl⟩ |
        ⟨hl, -, rfl⟩
      · exact .cancelFree hat hl hc ho rfl
      · exact .cancelProcessed hat hl ho rfl rfl
      · exact .none rfl
      · exact .loadCancel hat hl rfl
  | cancelQRollback hat hs =>
      obtain ⟨e, rest, hq, ⟨rfl, rfl⟩ | ⟨hne, hd, tl, hrest, rfl⟩⟩ := kpRollbackEvent_ok hs
      · exact undo_deed hq (.cancelled hat rfl) rfl
      · exact undo_deed hq (.above hat rfl hne (by rw [hrest]; nofun)) rfl
  | rollbackToSig hat hs =>
      obtain ⟨e, rest, hq, hle, rfl⟩ := kpRollbackToSig_some hs
      exact undo_deed hq (.toSig hat hle) rfl
  | rollbackToSigDone hat _ hs =>
      subst hs
      exact .none rfl
  | @batch kind left expired hat hs =>
      rcases batchStep_ok hs with ⟨c, n, rfl⟩ | ⟨cev, hcev, -, -, -, rfl⟩
      · exact .none rfl
      · obtain ⟨l, cv, msg, ops, hrun⟩ :=
          runEvent_frame (m := m) (s.dequeued m cev) kind (left - 1) cev
        rw [hrun]
        refine @Deed.start T S M R _ m s _ kind left cev cv msg _ hat hcev ?_
        simp only [stock, dequeued, Function.update_self, Function.update_idem]
  | handlerOp hat hs => exact handlerOp_deed ⟨_, .inl ⟨_, _, hat⟩⟩ hs
  | @handlerReturn kind left lp cev expired hat hc hs =>
      rcases handlerReturn_ok hs with ⟨hk, -, rfl⟩ | ⟨hk, -, rfl⟩ | ⟨hk, ha, c, p, -, rfl⟩
      · rw [hk] at hat
        exact .release hat hc rfl
      · obtain ⟨l, cv, msg, g, heq⟩ :=
          twEventRollback_frame m { s with cevAbort := false } cev (.abort kind)
        rw [heq]
        exact @Deed.abort T S M R _ m s _ kind left lp cev cv msg _ hat hc hk rfl
      · exact .process hat hk ha hc rfl
  | initOp hat hs => exact handlerOp_deed ⟨_, .inr hat⟩ hs
  | initReturn hat _ hs =>
      subst hs
      exact .none rfl
  | whiteLoop hat hs =>
      subst hs
      exact .none rfl
  | reduce hat hs => exact absurd rfl (hi.1 _)
  | reduced hat hs =>
      have hcall := hs
      rcases afterReduction_ok hs with ⟨hr, rfl, -⟩ | ⟨-, -, rfl⟩ | ⟨-, -, rfl⟩ | ⟨-, -, rfl⟩
      · rcases hr with rfl | rfl
        · exact callHook_deed (t := { s.trigger with status := .disabled }) (u := s)
            (.inl ⟨rfl, .inl hat⟩) rfl hcall
        · exact callHook_deed (t := { s.trigger with sigAt := maxSig }) (u := s)
            (.inr ⟨rfl, hat⟩) rfl hcall
      · exact .none rfl
      · exact .none rfl
      · exact .none rfl
  | gvtStore hat hs =>
      obtain ⟨hle, n, rfl⟩ := gvtStore_ok hs
      exact .store hat hle rfl
  | fossil hat hs => exact fossilStep_deed hat hs
  | hook hat hs =>
      rcases hookStep_ok hs with ⟨-, -, t, rfl⟩ | ⟨-, rfl⟩ | ⟨-, rfl⟩
      · exact .none rfl
      · exact .none rfl
      · exact .none rfl

/-! ## Chains of children -/

section Chains

variable {P : TwEvent T → TwEvent T → Prop} {ev : TwEvent T → EventState T M} {s : Pe T S M R}

/-- What holds of the children of every event, after one record is written. -/
theorem chains_update (h : ∀ x, ∀ c ∈ (ev x).causedByMe, P x c) {e : TwEvent T}
    {st : EventState T M} (hst : ∀ c ∈ st.causedByMe, P e c) :
    ∀ x, ∀ c ∈ (Function.update ev e st x).causedByMe, P x c := by
  intro x
  by_cases hx : x = e
  · rw [hx, Function.update_self]
    exact hst
  · rw [Function.update_of_ne hx]
    exact h x

/-- After other fields of a record are written. -/
theorem chains_keep (h : ∀ x, ∀ c ∈ (ev x).causedByMe, P x c) {e : TwEvent T}
    {st : EventState T M} (hst : st.causedByMe = (ev e).causedByMe) :
    ∀ x, ∀ c ∈ (Function.update ev e st x).causedByMe, P x c :=
  chains_update h (hst ▸ h e)

/-- After a chain is emptied. -/
theorem chains_clear (h : ∀ x, ∀ c ∈ (ev x).causedByMe, P x c) {e : TwEvent T}
    {st : EventState T M} (hst : st.causedByMe = []) :
    ∀ x, ∀ c ∈ (Function.update ev e st x).causedByMe, P x c :=
  chains_update h fun _ hc => absurd (hst ▸ hc) List.not_mem_nil

theorem increaseAbortedCount_ev (s : Pe T S M R) (x : TwEvent T) :
    ∃ n, s.increaseAbortedCount.ev x = { s.ev x with abortedTotal := n } := by
  unfold increaseAbortedCount
  cases s.curEvent with
  | none => exact ⟨(s.ev x).abortedTotal, rfl⟩
  | some cev =>
      dsimp only
      by_cases hx : x = cev
      · rw [hx, Function.update_self]
        exact ⟨_, rfl⟩
      · rw [Function.update_of_ne hx]
        exact ⟨(s.ev x).abortedTotal, rfl⟩

/-- The record of an event after another one has been sent: that of the event sent is new, and the
event sent is the first child of the current event. -/
theorem prepare_record (s : Pe T S M R) (i : Nat) (e : TwEvent T) (msg : M) (x : TwEvent T) :
    ∃ st : EventState T M, (x = s.stamp e ∧ st = ⟨.unowned, false, false, false, 0, msg, 0, []⟩ ∨
        x ≠ s.stamp e ∧ st = s.ev x) ∧
      (s.prepare i e msg).ev x = { st with
        causedByMe := if s.curEvent = some x then s.stamp e :: st.causedByMe
          else st.causedByMe } := by
  let base := Function.update s.ev (s.stamp e) ⟨.unowned, false, false, false, 0, msg, 0, []⟩
  have hprep : (s.prepare i e msg).ev x = { base x with
      causedByMe := if s.curEvent = some x then s.stamp e :: (base x).causedByMe
        else (base x).causedByMe } := by
    show (((s.takeHandle i (some e)).register (s.stamp e) msg).linkCausality (s.stamp e)).ev x = _
    unfold linkCausality
    have hcur : ((s.takeHandle i (some e)).register (s.stamp e) msg).curEvent = s.curEvent := rfl
    have hev : ((s.takeHandle i (some e)).register (s.stamp e) msg).ev = base := rfl
    rw [hcur, hev]
    cases s.curEvent with
    | none => rfl
    | some cev =>
        dsimp only
        by_cases hx : x = cev
        · rw [hx, Function.update_self, if_pos rfl]
        · rw [Function.update_of_ne hx, if_neg fun heq => hx (Option.some.inj heq).symm]
  refine ⟨base x, ?_, hprep⟩
  by_cases hx : x = s.stamp e
  · exact .inl ⟨hx, by rw [hx]; exact Function.update_self ..⟩
  · exact .inr ⟨hx, Function.update_of_ne hx ..⟩

/-- The children of an event after another one has been sent. -/
theorem chains_prepare (h : ∀ x, ∀ c ∈ (s.ev x).causedByMe, P x c) {i : Nat} {e : TwEvent T}
    {msg : M} (hnew : ∀ cev, s.curEvent = some cev → P cev (s.stamp e)) :
    ∀ x, ∀ c ∈ ((s.prepare i e msg).ev x).causedByMe, P x c := by
  intro x c hc
  obtain ⟨st, hst, heq⟩ := prepare_record s i e msg x
  have hold : ∀ c ∈ st.causedByMe, P x c := by
    intro c hc
    rcases hst with ⟨-, rfl⟩ | ⟨-, rfl⟩
    · exact absurd hc List.not_mem_nil
    · exact h x c hc
  rw [heq] at hc
  dsimp only at hc
  split at hc
  next hcur =>
    rcases List.mem_cons.mp hc with rfl | hc
    · exact hnew x hcur
    · exact hold c hc
  · exact hold c hc

end Chains

end Pe

namespace System

variable {m : SimModel T S M R} {s s' : System T S M R}

omit [TwStime T] in
theorem reduceDone_frame (s : Pe T S M R) (r : Reduction) (o : Outcome T) :
    ∃ p, s.reduceDone r o = { s with phase := p } := by
  cases o with
  | total n => exact ⟨_, rfl⟩
  | gvt sig => exact ⟨_, rfl⟩
  | flag b => exact ⟨_, rfl⟩

/-- A step of the system is one of a single PE or a reduction. -/
theorem step_cases {l : SystemInput T M} (h : s.step m l = .ok s') :
    (∃ i x p, l.actor = some i ∧ i < m.npe ∧ ((∀ o, x ≠ .outcome o) ∧ ∀ c, x ≠ .call c) ∧
        (∀ src w, x = .recv src w → src < m.npe ∧ (s.inFlight src i).head? = some w) ∧
        (s i).step m x = .ok p ∧ s' = Function.update s i p) ∨
      ∃ r, l = .reduce r ∧ (∀ i < m.npe, (s i).At (.reduce r)) ∧
        s' = fun i => if i < m.npe then (s i).reduceDone r (s.outcome m r) else s i := by
  cases l with
  | pe i x =>
      obtain ⟨hi, hlocal, p, hp, hs⟩ := pe_ok h
      refine .inl ⟨i, x, p, rfl, hi, ⟨fun o hx => ?_, fun c hx => ?_⟩, fun src w hx => ?_, hp, hs⟩
      all_goals
        rw [hx] at hlocal
        cases hlocal
  | deliver i src =>
      obtain ⟨hi, hsrc, w, p, hw, hp, hs⟩ := deliver_ok h
      refine .inl ⟨i, .recv src w, p, rfl, hi, ⟨nofun, nofun⟩, fun src' w' hx => ?_, hp, hs⟩
      cases hx
      exact ⟨hsrc, hw⟩
  | reduce r => exact .inr ⟨r, rfl, reduce_ok h⟩

/-- What a step of the system does to the buffers of one PE. -/
theorem deed_of {l : SystemInput T M} (h : s.step m l = .ok s') (i : Nat) :
    (∃ x, l.actor = some i ∧ i < m.npe ∧
        (∀ src w, x = .recv src w → src < m.npe ∧ (s.inFlight src i).head? = some w) ∧
        (s i).step m x = .ok (s' i) ∧ Pe.Deed m (s i) (s' i) x) ∨
      l.actor ≠ some i ∧ (s' i).stock = (s i).stock := by
  rcases step_cases h with ⟨j, x, p, hl, hj, ho, hrecv, hp, rfl⟩ | ⟨r, rfl, -, rfl⟩
  · by_cases hij : i = j
    · subst hij
      rw [Function.update_self]
      exact .inl ⟨x, hl, hj, hrecv, hp, Pe.step_deed ho hp⟩
    · refine .inr ⟨fun he => hij (Option.some.inj (he.symm.trans hl)), ?_⟩
      rw [Function.update_of_ne hij]
  · refine .inr ⟨nofun, ?_⟩
    dsimp only
    split
    · obtain ⟨p, hp⟩ := reduceDone_frame (s i) r (s.outcome m r)
      rw [hp]
      rfl
    · rfl

end System

end Ross

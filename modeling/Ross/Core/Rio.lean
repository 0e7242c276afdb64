import Ross.Core.Serial

/-!
# Events past the end of time in a build with RIO

With `USE_RIO` an event past `g_tw_ts_end` gets a buffer of its own from
`g_io_free_events` (`rio/io-mpi.c`), which waits in `g_io_buffered_events` for
the next checkpoint; `tw_event_send` and `event_cancel` have a branch for it, and
`io_load_events` makes those of a checkpoint again.  The rest of the kernel is
that of `Pe`.  Whether an event has the owner `IO_buffer` is whether it is in
`g_io_buffered_events`.
-/

namespace Ross

variable {T S M R : Type} [TwStime T]

/-- The build and the settings of RIO: `ioInit` is `l_io_init_flag`,
`ioEventsBuffered` is `g_io_events_buffered_per_rank`. -/
structure RioConfig where
  useRio : Bool
  ioInit : Bool
  ioEventsBuffered : Nat

/-- A PE with the two queues of RIO; the free one is its number of buffers.  The
last two fields record how often the core random number generator of an LP was
advanced and reversed. -/
structure IoPe (T S M R : Type) where
  pe : Pe T S M R
  ioFree : Nat
  ioBuffered : List (TwEvent T)
  drawn : Nat → Nat
  reversed : Nat → Nat

/-- The buffer that `tw_event_new_user_prio` chooses. -/
inductive BufferKind
  | abort
  | free
  | rio
deriving DecidableEq

namespace IoPe

variable (c : RioConfig) (m : SimModel T S M R)

/-- A function of the kernel that does not touch the queues of RIO. -/
def lift (s : IoPe T S M R) : Except TwError (Pe T S M R) → Except TwError (IoPe T S M R)
  | .ok pe => .ok { s with pe }
  | .error e => .error e

/-! ## `io-mpi.c` -/

/-- `io_event_grab`. -/
def ioEventGrab (s : IoPe T S M R) : BufferKind × IoPe T S M R :=
  if c.ioInit = false ∨ c.ioEventsBuffered = 0 then (.abort, s)
  else if s.ioFree = 0 then (.abort, s)
  else (.rio, { s with ioFree := s.ioFree - 1 })

/-- `io_event_cancel`. -/
def ioEventCancel (s : IoPe T S M R) (e : TwEvent T) : IoPe T S M R :=
  { s with ioFree := s.ioFree + 1, ioBuffered := s.ioBuffered.erase e }

/-! ## `tw_event_new_user_prio` -/

/-- The choice of the buffer. -/
def newBuffer (s : IoPe T S M R) (recvTs : T) : Except TwError (BufferKind × IoPe T S M R) :=
  if c.useRio = true ∧ m.tsEnd ≤ recvTs then .ok (s.ioEventGrab c)
  else
    match s.pe.newBuffer m recvTs with
    | .ok (buffer, pe) => .ok (if buffer then .free else .abort, { s with pe })
    | .error e => .error e

/-- What is written into the chosen buffer. -/
def writeNew (s : IoPe T S M R) (kind : BufferKind) (sig : TwEventSig T) (destGid sender : Nat)
    (msg : M) : IoPe T S M R :=
  { s with
    pe := s.pe.writeNew (decide (kind ≠ .abort)) sig destGid sender msg
    ioBuffered :=
      if kind = .rio then s.ioBuffered ++ [⟨s.pe.nextUid, sig, 0, destGid, sender, s.pe.id⟩]
      else s.ioBuffered }

/-- The random number drawn for `sender`. -/
def draw (s : IoPe T S M R) (sender : Nat) : IoPe T S M R :=
  { s with
    pe := s.pe.setLp sender { s.pe.lp sender with
      coreRng := (m.randUnif (s.pe.lp sender).coreRng).2 }
    drawn := Function.update s.drawn sender (s.drawn sender + 1) }

/-- `tw_event_new_user_prio`. -/
def twEventNewUserPrio (s : IoPe T S M R) (destGid : Nat) (offsetTs : T) (sender : Nat)
    (prio : T) (msg : M) : Except TwError (IoPe T S M R) :=
  if offsetTs < 0 then .error .eventIntoPast
  else if prio < 0 ∨ 1 < prio then .error .priorityRange
  else
    let recvTs := s.pe.twNow m sender + offsetTs
    match s.newBuffer c m recvTs with
    | .error e => .error e
    | .ok (kind, s) =>
        let u := (m.randUnif (s.pe.lp sender).coreRng).1
        let s := s.draw m sender
        if offsetTs = 0 ∧ maxTieChain ≤ s.pe.curSig.tieLineageLength then .error .maximumTieChain
        else
          .ok (s.writeNew kind ⟨recvTs, prio, tieLineage s.pe.curSig offsetTs u⟩ destGid sender
            msg)

/-! ## `tw_event_send` -/

/-- The branch of `tw_event_send` for an event past the end of time. -/
def sendRio (s : IoPe T S M R) (i : Nat) (e : TwEvent T) (msg : M) : IoPe T S M R :=
  let pe := (s.pe.takeHandle i (some e)).setEv e ⟨.unowned, false, false, false, 0, msg, 0, []⟩
  { s with pe := (pe.linkCausality e).increaseAbortedCount }

/-- `tw_event_send`. -/
def twEventSend (s : IoPe T S M R) (i : Nat) : Except TwError (IoPe T S M R) :=
  match s.pe.handles[i]? with
  | some (.buffer e msg) =>
      if c.useRio = true ∧ m.tsEnd ≤ e.sig.recvTs then .ok (s.sendRio i e msg)
      else s.lift (s.pe.twEventSend m i)
  | _ => s.lift (s.pe.twEventSend m i)

/-- One call of a handler of `lp` into the kernel. -/
def handlerOp (s : IoPe T S M R) (lp : Nat) : HandlerOp T M → Except TwError (IoPe T S M R)
  | .eventNew destGid offsetTs prio msg => s.twEventNewUserPrio c m destGid offsetTs lp prio msg
  | .eventSend i => s.twEventSend c m i
  | op => s.lift (s.pe.handlerOp m lp op)

/-! ## Cancellation and rollback -/

/-- `event_cancel`. -/
def eventCancel (s : IoPe T S M R) (e : TwEvent T) : Except TwError (IoPe T S M R) :=
  match (s.pe.ev e).owner with
  | .netAsend | .netOutq | .peSeventQ => s.lift (s.pe.eventCancel m e)
  | _ =>
      if c.useRio = true ∧ s.ioBuffered.contains e then .ok (s.ioEventCancel e)
      else s.lift (s.pe.eventCancel m e)

/-- The core random number generator of `lp` reversed `n` times. -/
def reverseUnif (s : IoPe T S M R) (lp n : Nat) : IoPe T S M R :=
  { s with
    pe := s.pe.reverseUnif m lp n
    reversed := Function.update s.reversed lp (s.reversed lp + n) }

/-- One turn of the loop of `tw_event_rollback` over the children. -/
def rollbackChild (s : IoPe T S M R) (e : TwEvent T) : Except TwError (IoPe T S M R) :=
  (s.reverseUnif m e.srcLp 1).eventCancel c m e

/-- The end of `tw_event_rollback`. -/
def rollbackEnd (s : IoPe T S M R) (event : TwEvent T) : IoPe T S M R :=
  let s' := s.reverseUnif m event.destLp (s.pe.ev event).abortedTotal
  { s' with pe := { s'.pe with
      ev := Function.update s'.pe.ev event { s'.pe.ev event with abortedTotal := 0 }
      rollback := none } }

/-! ## `io_load_events` -/

/-- The copy of the bitfield into the event just sent; only one that waits for the next
checkpoint keeps it, the schedulers clear it before the handler. -/
def copyCv (s : IoPe T S M R) (cv : BitVec 32) : IoPe T S M R :=
  match s.pe.handles with
  | .sent (some n) :: _ =>
      if s.ioBuffered.contains n then { s with pe := s.pe.setEv n { s.pe.ev n with cv } } else s
  | _ => s

/-- A turn of `io_load_events`, with the event that it pops: the last one of
`g_io_buffered_events`.  `g_tw_lookahead` is 0 meanwhile. -/
def ioLoadEvent (s : IoPe T S M R) : Except TwError (TwEvent T × IoPe T S M R) :=
  match s.ioBuffered.getLast? with
  | none => .error .nullPointer
  | some e =>
      let st := s.pe.ev e
      let s : IoPe T S M R := { s with
        pe := { s.pe with curEvent := none, abortCausedByMe := [], handles := [] }
        ioBuffered := s.ioBuffered.dropLast }
      match s.twEventNewUserPrio c m e.destLp e.sig.recvTs e.srcLp 1 st.msg with
      | .error err => .error err
      | .ok s =>
          let s : IoPe T S M R := { s with ioFree := s.ioFree + 1 }
          match s.twEventSend c { m with lookahead := 0 } 0 with
          | .error err => .error err
          | .ok s =>
              if s.pe.cevAbort then .error .ranOutOfEventsDuringIoLoad
              else .ok (e, s.copyCv st.cv)

/-- What the loops of `tw_net_send` between two turns leave alone. -/
structure BetweenLoads (s s' : IoPe T S M R) : Prop where
  id : s'.pe.id = s.pe.id
  lastSig : s'.pe.lastSig = s.pe.lastSig
  cevAbort : s'.pe.cevAbort = s.pe.cevAbort
  abortEvent : s'.pe.abortEvent = s.pe.abortEvent
  sent : s'.pe.sent = s.pe.sent
  nextUid : s.pe.nextUid ≤ s'.pe.nextUid
  msg : ∀ e : TwEvent T, e.uid < s.pe.nextUid → (s'.pe.ev e).msg = (s.pe.ev e).msg
  ioFree : s'.ioFree = s.ioFree
  ioBuffered : s'.ioBuffered = s.ioBuffered

/-- A number of turns of `io_load_events`, with the events popped; the network loops run in
between. -/
inductive Loading : Nat → IoPe T S M R → List (TwEvent T) → IoPe T S M R → Prop
  | done (s : IoPe T S M R) : Loading 0 s [] s
  | turn {n : Nat} {s s' t : IoPe T S M R} {e : TwEvent T} {popped : List (TwEvent T)} :
      s.ioLoadEvent c m = .ok (e, s') → Loading n s' popped t →
      Loading (n + 1) s (e :: popped) t
  | net {n : Nat} {s s' t : IoPe T S M R} {popped : List (TwEvent T)} :
      BetweenLoads s s' → Loading n s' popped t → Loading n s popped t

/-- `io_load_events`: as many turns as there are events at its start. -/
def IoLoadEvents (s : IoPe T S M R) (popped : List (TwEvent T)) (t : IoPe T S M R) : Prop :=
  Loading c m s.ioBuffered.length s popped t

/-! ## Runs of the two functions -/

/-- What a step of the network loops between two calls, or another event's
processing, may not change: what the execution of `cev` left on the event, the
pointers of the handler, and the generator of its LP. -/
structure Undisturbed (cev : TwEvent T) (s s' : IoPe T S M R) : Prop where
  causedByMe : (s'.pe.ev cev).causedByMe = (s.pe.ev cev).causedByMe
  abortedTotal : (s'.pe.ev cev).abortedTotal = (s.pe.ev cev).abortedTotal
  coreRng : (s'.pe.lp cev.destLp).coreRng = (s.pe.lp cev.destLp).coreRng
  curEvent : s'.pe.curEvent = s.pe.curEvent
  handles : s'.pe.handles = s.pe.handles
  lastSig : s'.pe.lastSig = s.pe.lastSig
  nextUid : s.pe.nextUid ≤ s'.pe.nextUid
  ioFree : s'.ioFree = s.ioFree
  drawn : s'.drawn = s.drawn
  reversed : s'.reversed = s.reversed

/-- The handler called for `cev` makes the calls of a list; the loops of
`tw_net_send` run in between. -/
inductive Execution (cev : TwEvent T) : IoPe T S M R → List (HandlerOp T M) → IoPe T S M R → Prop
  | returns (s : IoPe T S M R) : Execution cev s [] s
  | call {s s' t : IoPe T S M R} {op : HandlerOp T M} {ops : List (HandlerOp T M)} :
      s.handlerOp c m cev.destLp op = .ok s' → Execution cev s' ops t →
      Execution cev s (op :: ops) t
  | net {s s' t : IoPe T S M R} {ops : List (HandlerOp T M)} :
      Undisturbed cev s s' → Execution cev s' ops t → Execution cev s ops t

/-- The loop of `tw_event_rollback` of `cev` over the children; the network loops
run in between. -/
inductive Cancellation (cev : TwEvent T) : IoPe T S M R → List (TwEvent T) → IoPe T S M R → Prop
  | ends (s : IoPe T S M R) : Cancellation cev s [] s
  | child {s s' t : IoPe T S M R} {e : TwEvent T} {rest : List (TwEvent T)} :
      s.rollbackChild c m e = .ok s' → Cancellation cev s' rest t →
      Cancellation cev s (e :: rest) t
  | net {s s' t : IoPe T S M R} {children : List (TwEvent T)} :
      Undisturbed cev s s' → Cancellation cev s' children t → Cancellation cev s children t

/-- `tw_event_rollback` of `cev` leads from `s` to `t`. -/
def RolledBack (cev : TwEvent T) (after : RollbackAfter) (s t : IoPe T S M R) : Prop :=
  ∃ s', Cancellation c m cev { s with pe := s.pe.twEventRollback m cev after }
      (s.pe.ev cev).causedByMe s' ∧ t = s'.rollbackEnd m cev

/-! ## The build without RIO -/

variable {c m}

omit [TwStime T] in
theorem lift_map (s : IoPe T S M R) (r : Except TwError (Pe T S M R)) :
    (s.lift r).map (·.pe) = r := by
  cases r <;> rfl

/-- Without `USE_RIO` a handler's calls are those of `Pe`. -/
theorem handlerOp_off (hc : c.useRio = false) (s : IoPe T S M R) (lp : Nat)
    (op : HandlerOp T M) : (s.handlerOp c m lp op).map (·.pe) = s.pe.handlerOp m lp op := by
  have hno : ∀ P : Prop, ¬ (c.useRio = true ∧ P) := fun P h => by
    rw [hc] at h
    cases h.1
  cases op with
  | eventNew destGid offsetTs prio msg =>
      show (s.twEventNewUserPrio c m destGid offsetTs lp prio msg).map (·.pe) =
        s.pe.twEventNewUserPrio m destGid offsetTs lp prio msg
      unfold twEventNewUserPrio Pe.twEventNewUserPrio
      split
      · rfl
      · split
        · rfl
        · unfold newBuffer
          dsimp only
          rw [if_neg (hno _)]
          cases s.pe.newBuffer m (s.pe.twNow m lp + offsetTs) with
          | error e => rfl
          | ok b =>
              obtain ⟨buffer, pe⟩ := b
              by_cases htie : offsetTs = 0 ∧ maxTieChain ≤ (pe.setLp lp { pe.lp lp with
                  coreRng := (m.randUnif (pe.lp lp).coreRng).2 }).curSig.tieLineageLength
              · exact (congrArg _ (if_pos htie)).trans (if_pos htie).symm
              · refine (congrArg _ (if_neg htie)).trans (Eq.trans ?_ (if_neg htie).symm)
                cases buffer <;> rfl
  | eventSend i =>
      show (s.twEventSend c m i).map (·.pe) = s.pe.twEventSend m i
      unfold twEventSend
      split
      · rw [if_neg (hno _)]
        exact lift_map _ _
      · exact lift_map _ _
  | lpSuspend b => exact lift_map s (s.pe.handlerOp m lp (.lpSuspend b))
  | triggerGvtHookNow => exact lift_map s (s.pe.handlerOp m lp .triggerGvtHookNow)

/-- Without `USE_RIO` a child is cancelled as in `Pe`. -/
theorem eventCancel_off (hc : c.useRio = false) (s : IoPe T S M R) (e : TwEvent T) :
    (s.eventCancel c m e).map (·.pe) = s.pe.eventCancel m e := by
  have hno : ¬ (c.useRio = true ∧ s.ioBuffered.contains e = true) := fun h => by
    rw [hc] at h
    cases h.1
  unfold eventCancel
  split
  · exact lift_map _ _
  · exact lift_map _ _
  · exact lift_map _ _
  · rw [if_neg hno]
    exact lift_map _ _

end IoPe

end Ross

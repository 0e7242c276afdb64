import Ross.Proofs.NetBalance
import Ross.Proofs.Placed

/-!
# The executions that stand

An execution stands from the call of its handler until it is undone or committed.  All this time
its event is in the hands of a batch, processed, or cut off for its commit.
-/

namespace Ross.Pe

variable {T S M R : Type} [TwStime T] {m : SimModel T S M R}

/-- The event has an execution that is neither undone nor committed. -/
def Standing (s : Pe T S M R) (e : TwEvent T) : Prop :=
  (∃ k, e ∈ s.queue (.peventQ k)) ∨ e ∈ s.queue .fossil ∨ s.rollback = none ∧ e ∈ s.queue .hand

/-- The event whose handler runs, with the calls into the kernel that it has still to make. -/
def pending (s : Pe T S M R) : Option (TwEvent T × List (HandlerOp T M)) :=
  match s.rollback, s.phase, s.curEvent with
  | none, .handler _ _ _ ops, some cev => some (cev, ops)
  | _, _, _ => none

/-- A step in which no execution starts or ends and no handler makes a call.  What it gives to
`tw_event_free` or takes for a new event has no execution that stands. -/
structure Calm (s s' : Pe T S M R) : Prop extends KeepsProcessed s s' where
  hand : s'.queue .hand = s.queue .hand
  rollback : s'.rollback = none ↔ s.rollback = none
  pending : s'.pending = s.pending
  gone : ∀ e ∈ s.newFreed s' ++ s.newBuffers s', ¬ s.Standing e

section Basics

variable {s s' : Pe T S M R} {e : TwEvent T}

section

omit [TwStime T]

theorem pending_outside (hp : OutsideHandler s.phase) : s.pending = none := by
  unfold pending
  split
  next hph _ => exact absurd hph (hp _ _ _ _)
  · rfl

theorem pending_rollback {r : Rollback T} (hr : s.rollback = some r) : s.pending = none := by
  unfold pending
  rw [hr]

theorem pending_handler (hr : s.rollback = none) {kind : BatchKind} {left lp : Nat}
    {ops : List (HandlerOp T M)} (hp : s.phase = .handler kind left lp ops) {cev : TwEvent T}
    (hc : s.curEvent = some cev) : s.pending = some (cev, ops) := by
  unfold pending
  rw [hr, hp, hc]

theorem newBuffers_nil (hh : s'.handles.length ≤ s.handles.length) : s.newBuffers s' = [] := by
  unfold newBuffers
  rw [List.drop_eq_nil_of_le hh]
  rfl

/-- What an event with an execution that stands is owned by. -/
theorem Placed.owner_of_standing (h : Placed m s) (he : s.Standing e) :
    (s.ev e).owner = .kpPeventQ ∨ (s.ev e).owner = .unowned := by
  have hall : ∀ q, e ∈ s.queue q → QueueId.allows (s.here m e) q (s.ev e).owner = true :=
    fun q hq => h.located.allows q e hq
  rcases he with ⟨k, he⟩ | he | ⟨-, he⟩
  · have hown := hall _ he
    cases ho : (s.ev e).owner <;> rw [ho] at hown <;> first | exact .inl rfl | cases hown
  · have hown := hall _ he
    cases ho : (s.ev e).owner <;> rw [ho] at hown <;> first | exact .inl rfl | cases hown
  · have hown := hall _ he
    cases ho : (s.ev e).owner <;> rw [ho] at hown <;>
      first | exact .inl rfl | exact .inr rfl | cases hown

theorem Placed.known_of_standing (h : Placed m s) (he : s.Standing e) : s.Known e := by
  rcases he with ⟨k, he⟩ | he | ⟨-, he⟩
  · exact h.located.known_of_mem (q := .peventQ k) nofun he
  · exact h.located.known_of_mem (q := .fossil) nofun he
  · exact h.located.known_of_mem (q := .hand) nofun he

/-- An event that something else owns has no execution that stands. -/
theorem Placed.not_standing (h : Placed m s) {o : TwEventOwner} (ho : (s.ev e).owner = o)
    (hk : o ≠ .kpPeventQ) (hu : o ≠ .unowned) : ¬ s.Standing e := fun he =>
  (h.owner_of_standing he).elim (fun heq => hk (ho.symm.trans heq))
    fun heq => hu (ho.symm.trans heq)

end

theorem newFreed_nil (hf : s'.freed = s.freed) : s.newFreed s' = [] := by
  unfold newFreed
  rw [hf, List.drop_length, List.filter_nil]

/-- Nothing is freed or taken. -/
theorem gone_nil (hf : s'.freed = s.freed) (hh : s'.handles.length ≤ s.handles.length) :
    ∀ e ∈ s.newFreed s' ++ s.newBuffers s', ¬ s.Standing e := by
  rw [newFreed_nil hf, newBuffers_nil hh]
  exact nofun

/-- One buffer is freed. -/
theorem gone_freed (hf : s'.freed = s.freed ++ [e]) (hh : s'.handles.length ≤ s.handles.length)
    (he : ¬ s.Standing e) : ∀ e ∈ s.newFreed s' ++ s.newBuffers s', ¬ s.Standing e := by
  rw [newBuffers_nil hh, List.append_nil]
  unfold newFreed
  rw [hf, List.drop_left]
  intro x hx
  rw [List.mem_singleton.mp (List.mem_of_mem_filter hx)]
  exact he

/-- A committed event is not freed. -/
theorem newFreed_commit (hf : s'.freed = s.freed ++ [e]) (hc : s'.commits = s.commits ++ [e]) :
    s.newFreed s' = [] := by
  unfold newFreed newCommits
  rw [hf, hc, List.drop_left, List.drop_left]
  simp

/-- The handler got a pointer. -/
theorem gone_new (hf : s'.freed = s.freed) {x : Handle T M} (hh : s'.handles = s.handles ++ [x])
    (hx : ∀ e, x.unsentEvent = some e → ¬ s.Standing e) :
    ∀ e ∈ s.newFreed s' ++ s.newBuffers s', ¬ s.Standing e := by
  rw [newFreed_nil hf]
  unfold newBuffers
  rw [hh, List.drop_left]
  intro e he
  obtain ⟨y, hy, hye⟩ := List.mem_filterMap.mp he
  rw [List.mem_singleton.mp hy] at hye
  exact hx e hye

end Basics

namespace Calm

variable {s s' : Pe T S M R}

theorem standing (h : Calm s s') (e : TwEvent T) : s'.Standing e ↔ s.Standing e := by
  unfold Standing
  simp only [h.pevent, h.fossil, h.hand, h.rollback]

/-- Between two functions that are not handlers. -/
theorem goto (hk : KeepsProcessed s s') (hhand : s'.queue .hand = s.queue .hand)
    (hroll : s'.rollback = none ↔ s.rollback = none) (hp : OutsideHandler s.phase)
    (hp' : OutsideHandler s'.phase)
    (hgone : ∀ e ∈ s.newFreed s' ++ s.newBuffers s', ¬ s.Standing e) : Calm s s' :=
  ⟨hk, hhand, hroll, (pending_outside hp').trans (pending_outside hp).symm, hgone⟩

/-! ## The network and the handlers -/

theorem recvFinish (h : Placed m s) {src : Nat} {w : WireMsg T M}
    (hs : s.recvFinish m src w = .ok s') : Calm s s' := by
  have hnew : ¬ s.Standing (s.received w) := fun he =>
    Placed.received_new s w (h.known_of_standing he)
  obtain ⟨-, ⟨-, c, -, rfl⟩ | ⟨-, -, ⟨-, -, rfl⟩ | ⟨-, rfl⟩⟩⟩ := recvFinish_ok hs
  · exact ⟨⟨fun _ => rfl, rfl, rfl⟩, rfl, Iff.rfl, rfl, gone_freed rfl le_rfl hnew⟩
  · exact ⟨⟨fun _ => rfl, rfl, rfl⟩, rfl, Iff.rfl, rfl, gone_nil rfl le_rfl⟩
  · exact ⟨⟨fun _ => rfl, rfl, rfl⟩, rfl, Iff.rfl, rfl, gone_nil rfl le_rfl⟩

theorem sendFinish (h : Placed m s) {e : TwEvent T} (hs : s.sendFinish m e = .ok s') :
    Calm s s' := by
  rcases sendFinish_ok hs with ⟨-, -, rfl⟩ | ⟨ho, -, -, rfl⟩ | ⟨-, -, -, rfl⟩ | ⟨ho, rfl⟩
  · exact ⟨⟨fun _ => rfl, rfl, rfl⟩, rfl, Iff.rfl, rfl, gone_nil rfl le_rfl⟩
  · exact ⟨⟨fun _ => rfl, rfl, rfl⟩, rfl, Iff.rfl, rfl,
      gone_freed rfl le_rfl (h.not_standing ho nofun nofun)⟩
  · exact ⟨⟨fun _ => rfl, rfl, rfl⟩, rfl, Iff.rfl, rfl, gone_nil rfl le_rfl⟩
  · exact ⟨⟨fun _ => rfl, rfl, rfl⟩, rfl, Iff.rfl, rfl,
      gone_freed rfl le_rfl (h.not_standing ho nofun nofun)⟩

theorem recvBegin {changed : Bool} (hs : s.recvBegin m changed = .ok s') : Calm s s' := by
  rcases recvBegin_ok hs with rfl | ⟨-, -, rfl⟩
  · exact ⟨⟨fun _ => rfl, rfl, rfl⟩, rfl, Iff.rfl, rfl, gone_nil rfl le_rfl⟩
  · exact ⟨⟨fun _ => rfl, rfl, rfl⟩, rfl, Iff.rfl, rfl, gone_nil rfl le_rfl⟩

theorem sendBegin (m : SimModel T S M R) (s : Pe T S M R) (read changed : Bool) :
    Calm s (s.sendBegin m read changed) := by
  rcases sendBegin_ok (m := m) s read changed with ⟨e, -, -, hs⟩ | ⟨-, hs⟩
  · rw [hs]
    exact ⟨⟨fun _ => rfl, rfl, rfl⟩, rfl, Iff.rfl, rfl, gone_nil rfl le_rfl⟩
  · rw [hs]
    exact ⟨⟨fun _ => rfl, rfl, rfl⟩, rfl, Iff.rfl, rfl, gone_nil rfl le_rfl⟩

theorem eventNew (h : Placed m s) {destGid sender : Nat} {offsetTs prio : T} {msg : M}
    (hs : s.twEventNewUserPrio m destGid offsetTs sender prio msg = .ok s') : Calm s s' := by
  obtain ⟨-, ⟨-, rfl⟩ | ⟨-, -, rfl⟩⟩ := twEventNewUserPrio_ok hs
  · exact ⟨⟨fun _ => rfl, rfl, rfl⟩, rfl, Iff.rfl, rfl, gone_new rfl rfl nofun⟩
  · refine ⟨⟨fun _ => rfl, rfl, rfl⟩, rfl, Iff.rfl, rfl, gone_new rfl rfl fun e he hst => ?_⟩
    cases he
    exact Nat.lt_irrefl _ (h.known_of_standing hst).1

theorem eventSend {i : Nat} (hs : s.twEventSend m i = .ok s') : Calm s s' := by
  have hlen : ∀ x, (s.handles.set i x).length ≤ s.handles.length := fun x =>
    (List.length_set ..).le
  rcases twEventSend_ok hs with ⟨-, rfl⟩ | ⟨e, msg, -, -, rfl⟩
  · exact ⟨⟨fun _ => rfl, rfl, rfl⟩, rfl, Iff.rfl, rfl, gone_nil rfl (hlen _)⟩
  · rcases deliver_cases m (s.prepare i e msg) (s.stamp e) with
      ⟨-, -, hd⟩ | ⟨-, -, hd⟩ | ⟨-, hd⟩
    · rw [hd]
      exact ⟨⟨fun _ => rfl, rfl, rfl⟩, rfl, Iff.rfl, rfl, gone_nil rfl (hlen _)⟩
    · rw [hd]
      exact ⟨⟨fun _ => rfl, rfl, rfl⟩, rfl, Iff.rfl, rfl, gone_nil rfl (hlen _)⟩
    · rw [hd]
      exact ⟨⟨fun _ => rfl, rfl, rfl⟩, rfl, Iff.rfl, rfl, gone_nil rfl (hlen _)⟩

theorem handlerOp (h : Placed m s) {lp : Nat} {op : HandlerOp T M}
    (hs : s.handlerOp m lp op = .ok s') : Calm s s' := by
  cases op with
  | eventNew destGid offsetTs prio msg => exact eventNew h hs
  | eventSend i => exact eventSend hs
  | lpSuspend b =>
      cases hs
      exact ⟨⟨fun _ => rfl, rfl, rfl⟩, rfl, Iff.rfl, rfl, gone_nil rfl le_rfl⟩
  | triggerGvtHookNow =>
      rcases twTriggerGvtHookNow_ok hs with rfl | ⟨-, rfl⟩
      · exact ⟨⟨fun _ => rfl, rfl, rfl⟩, rfl, Iff.rfl, rfl, gone_nil rfl le_rfl⟩
      · exact ⟨⟨fun _ => rfl, rfl, rfl⟩, rfl, Iff.rfl, rfl, gone_nil rfl le_rfl⟩

/-! ## Rollbacks -/

/-- The cancellation of a child in a rollback. -/
theorem eventCancel (h : Placed m s) {e : TwEvent T} (hs : s.eventCancel m e = .ok s') :
    Calm s s' := by
  rcases eventCancel_ok hs with ⟨ho, rfl⟩ | ⟨-, rfl⟩ | ⟨-, rfl⟩ | ⟨ho, -, rfl⟩ | ⟨-, -, rfl⟩
  · exact ⟨⟨fun _ => rfl, rfl, rfl⟩, rfl, Iff.rfl, rfl,
      gone_freed rfl le_rfl (h.not_standing ho nofun nofun)⟩
  · exact ⟨⟨fun _ => rfl, rfl, rfl⟩, rfl, Iff.rfl, rfl, gone_nil rfl le_rfl⟩
  · exact ⟨⟨fun _ => rfl, rfl, rfl⟩, rfl, Iff.rfl, rfl, gone_nil rfl le_rfl⟩
  · exact ⟨⟨fun _ => rfl, rfl, rfl⟩, rfl, Iff.rfl, rfl,
      gone_freed rfl le_rfl (h.not_standing ho nofun nofun)⟩
  · exact ⟨⟨fun _ => rfl, rfl, rfl⟩, rfl, Iff.rfl, rfl, gone_nil rfl le_rfl⟩

/-! ## The schedulers -/

theorem schedEventQ (hp : OutsideHandler s.phase) (hs : s.schedEventQ m = .ok s') : Calm s s' := by
  rcases schedEventQ_ok hs with ⟨cev, rest, -, ⟨-, rfl⟩ | ⟨-, -, ⟨-, rfl⟩ | ⟨-, rfl⟩⟩⟩ |
    ⟨-, -, rfl⟩ | ⟨-, -, rfl⟩
  · exact goto ⟨fun _ => rfl, rfl, rfl⟩ rfl Iff.rfl hp hp (gone_nil rfl le_rfl)
  · exact goto ⟨fun _ => rfl, rfl, rfl⟩ rfl Iff.rfl hp nofun (gone_nil rfl le_rfl)
  · exact goto ⟨fun _ => rfl, rfl, rfl⟩ rfl Iff.rfl hp hp (gone_nil rfl le_rfl)
  · exact goto ⟨fun _ => rfl, rfl, rfl⟩ rfl Iff.rfl hp nofun (gone_nil rfl le_rfl)
  · exact goto ⟨fun _ => rfl, rfl, rfl⟩ rfl Iff.rfl hp hp (gone_nil rfl le_rfl)

theorem schedCancelQ (h : Placed m s) (hp : OutsideHandler s.phase)
    (hs : s.schedCancelQ = .ok s') : Calm s s' := by
  rcases schedCancelQ_ok hs with ⟨cev, rest, -, -, ⟨q, hq, rfl⟩ | ⟨-, rfl⟩⟩ | ⟨-, -, rfl⟩ |
    ⟨-, -, rfl⟩
  · rcases hq with ⟨ho, rfl⟩ | ⟨ho, rfl⟩ | ⟨ho, rfl⟩
    all_goals
      exact goto ⟨fun _ => rfl, rfl, rfl⟩ rfl Iff.rfl hp hp
        (gone_freed rfl le_rfl (h.not_standing ho nofun nofun))
  · exact goto ⟨fun _ => rfl, rfl, rfl⟩ rfl Iff.rfl hp nofun (gone_nil rfl le_rfl)
  · exact goto ⟨fun _ => rfl, rfl, rfl⟩ rfl Iff.rfl hp nofun (gone_nil rfl le_rfl)
  · exact goto ⟨fun _ => rfl, rfl, rfl⟩ rfl Iff.rfl hp hp (gone_nil rfl le_rfl)

theorem callHook (hp : OutsideHandler s.phase) (hs : s.callHook m = .ok s') : Calm s s' := by
  rcases callHook_ok hs with rfl | ⟨-, -, rfl⟩
  · exact goto ⟨fun _ => rfl, rfl, rfl⟩ rfl Iff.rfl hp nofun (gone_nil rfl le_rfl)
  · exact goto ⟨fun _ => rfl, rfl, rfl⟩ rfl Iff.rfl hp nofun (gone_nil rfl le_rfl)

theorem call (hp : OutsideHandler s.phase) {expired : Bool} {c : Call T}
    (hs : s.call m expired c = .ok s') : Calm s s' := by
  cases c with
  | gvtStep1 =>
      obtain ⟨n, b, hg, -⟩ := gvtStep1_frame (m := m) s
      cases hs
      rw [hg]
      exact goto ⟨fun _ => rfl, rfl, rfl⟩ rfl Iff.rfl hp hp (gone_nil rfl le_rfl)
  | gvtStep1Realtime =>
      obtain ⟨n, b, hg, -⟩ := gvtStep1Realtime_frame (m := m) s expired
      cases hs
      rw [hg]
      exact goto ⟨fun _ => rfl, rfl, rfl⟩ rfl Iff.rfl hp hp (gone_nil rfl le_rfl)
  | gvtStep2 | optimisticTail | optimisticRealtimeTail | conservativeTail =>
      cases hs
      split
      · exact goto ⟨fun _ => rfl, rfl, rfl⟩ rfl Iff.rfl hp (by first | exact hp | exact nofun)
          (gone_nil rfl le_rfl)
      · exact goto ⟨fun _ => rfl, rfl, rfl⟩ rfl Iff.rfl hp hp (gone_nil rfl le_rfl)
  | gvtHookStep =>
      rcases gvtHookStep_ok hs with rfl | rfl | rfl | ⟨-, hc⟩
      · exact goto ⟨fun _ => rfl, rfl, rfl⟩ rfl Iff.rfl hp hp (gone_nil rfl le_rfl)
      · exact goto ⟨fun _ => rfl, rfl, rfl⟩ rfl Iff.rfl hp nofun (gone_nil rfl le_rfl)
      · exact goto ⟨fun _ => rfl, rfl, rfl⟩ rfl Iff.rfl hp nofun (gone_nil rfl le_rfl)
      · exact callHook hp hc
  | initLp | preRunLp =>
      cases hs
      exact goto ⟨fun _ => rfl, rfl, rfl⟩ rfl Iff.rfl hp nofun (gone_nil rfl (Nat.zero_le _))
  | netRead | gvtStep2AndHook | rollbackAndCancelEventsPe | cleanupLoop | gvtStatusOn
  | schedulerOptimistic | schedulerOptimisticRealtime | schedulerConservative =>
      cases hs
      exact goto ⟨fun _ => rfl, rfl, rfl⟩ rfl Iff.rfl hp hp (gone_nil rfl le_rfl)
  | schedEventQ | schedCancelQ | schedBatch | schedBatchRealtime
  | conservativeBatch | kpRollbackToSig | cleanupTest | hookReturn =>
      cases hs
      exact goto ⟨fun _ => rfl, rfl, rfl⟩ rfl Iff.rfl hp nofun (gone_nil rfl le_rfl)

theorem afterReduction (hp : OutsideHandler s.phase) {r : Reduction} {flag : Bool}
    (hs : s.afterReduction m r flag = .ok s') : Calm s s' := by
  rcases afterReduction_ok hs with ⟨-, -, t, hcall⟩ | ⟨-, -, rfl⟩ | ⟨-, -, rfl⟩ | ⟨-, -, rfl⟩
  · obtain ⟨hk, hhand, hroll, hpend, hgone⟩ := callHook (s := { s with trigger := t }) hp hcall
    exact ⟨⟨hk.pevent, hk.fossil, hk.commits⟩, hhand, hroll, hpend, hgone⟩
  · exact goto ⟨fun _ => rfl, rfl, rfl⟩ rfl Iff.rfl hp nofun (gone_nil rfl le_rfl)
  · exact goto ⟨fun _ => rfl, rfl, rfl⟩ rfl Iff.rfl hp nofun (gone_nil rfl le_rfl)
  · exact goto ⟨fun _ => rfl, rfl, rfl⟩ rfl Iff.rfl hp nofun (gone_nil rfl le_rfl)

theorem reduceDone (hp : OutsideHandler s.phase) (r : Reduction) (o : Outcome T) :
    Calm s (s.reduceDone r o) := by
  cases o with
  | total white =>
      refine goto ⟨fun _ => rfl, rfl, rfl⟩ rfl Iff.rfl hp ?_ (gone_nil rfl le_rfl)
      unfold Pe.reduceDone
      dsimp only
      split
      · exact nofun
      · exact nofun
  | gvt sig => exact goto ⟨fun _ => rfl, rfl, rfl⟩ rfl Iff.rfl hp nofun (gone_nil rfl le_rfl)
  | flag b => exact goto ⟨fun _ => rfl, rfl, rfl⟩ rfl Iff.rfl hp nofun (gone_nil rfl le_rfl)

theorem hookStep (hp : OutsideHandler s.phase) {i : Input T M} (hs : s.hookStep i = .ok s') :
    Calm s s' := by
  rcases hookStep_ok hs with ⟨-, -, t, rfl⟩ | ⟨-, rfl⟩ | ⟨-, rfl⟩
  · exact goto ⟨fun _ => rfl, rfl, rfl⟩ rfl Iff.rfl hp hp (gone_nil rfl le_rfl)
  · exact goto ⟨fun _ => rfl, rfl, rfl⟩ rfl Iff.rfl hp nofun (gone_nil rfl le_rfl)
  · exact goto ⟨fun _ => rfl, rfl, rfl⟩ rfl Iff.rfl hp nofun (gone_nil rfl le_rfl)

end Calm

/-! ## What a step does to the executions -/

/-- What is left to do of a handler once it has made its next call, or returned. -/
def afterCall (p : TwEvent T × List (HandlerOp T M)) :
    Option (TwEvent T × List (HandlerOp T M)) :=
  match p.2 with
  | [] => none
  | _ :: ops => some (p.1, ops)

/-- The handler in progress, if there is one, makes its next call, or waits for the network. -/
def Talk (s s' : Pe T S M R) : Prop :=
  s.speaker = none ∧ s'.pending = s.pending ∨
    ∃ p, s.speaker = some p.1 ∧ s.pending = some p ∧ s'.pending = afterCall p

/-- What a step does to the executions of the PE. -/
inductive Effect (m : SimModel T S M R) (s s' : Pe T S M R) : Prop
  /-- None starts or ends. -/
  | keep : s.startsEvent s' = none → s.undoesEvent s' = none → s'.commits = s.commits →
      (∀ e ∈ s.newFreed s' ++ s.newBuffers s', ¬ s.Standing e) → Talk s s' →
      (∀ e, s'.Standing e ↔ s.Standing e) → Effect m s s'
  /-- A handler is called. -/
  | start {cev : TwEvent T} : s.startsEvent s' = some cev → s.undoesEvent s' = none →
      s'.commits = s.commits → (∀ e ∈ s.newFreed s' ++ s.newBuffers s', ¬ s.Standing e) →
      s.speaker = none → s'.pending = some (cev, s.forwardOps m cev) → ¬ s.Standing cev →
      (∀ e, s'.Standing e ↔ s.Standing e ∨ e = cev) → Effect m s s'
  /-- The event is going to be undone. -/
  | undo {e : TwEvent T} : s.startsEvent s' = none → s.undoesEvent s' = some e →
      s'.commits = s.commits → (∀ e ∈ s.newFreed s' ++ s.newBuffers s', ¬ s.Standing e) →
      Talk s s' → s'.pending = none → s.Standing e →
      (∀ x, s'.Standing x ↔ s.Standing x ∧ x ≠ e) → Effect m s s'
  /-- The event is committed. -/
  | commit {e : TwEvent T} : s.startsEvent s' = none → s.undoesEvent s' = none →
      s'.commits = s.commits ++ [e] → s.newFreed s' = [] → s.newBuffers s' = [] → Talk s s' →
      s'.pending = none → s.Standing e → (∀ x, s'.Standing x ↔ s.Standing x ∧ x ≠ e) → Effect m s s'

section Observations

variable {s s' : Pe T S M R}

section

omit [TwStime T]

theorem startsEvent_some {cev : TwEvent T} (h : s.startsEvent s' = some cev) :
    s.rollback = none ∧ (∃ kind left, s.phase = .batch kind left) ∧
      (∃ kind left lp ops, s'.phase = .handler kind left lp ops) ∧ s'.curEvent = some cev := by
  unfold startsEvent at h
  split at h
  next hr hp hp' => exact ⟨hr, ⟨_, _, hp⟩, ⟨_, _, _, _, hp'⟩, h⟩
  · cases h

/-- Only a batch calls handlers. -/
theorem startsEvent_none {p : Phase T M} (hp : s.phase = p)
    (hb : ∀ kind left, p ≠ .batch kind left) :
    s.startsEvent s' = none := by
  by_contra h
  obtain ⟨cev, hcev⟩ := Option.ne_none_iff_exists'.mp h
  obtain ⟨-, ⟨kind, left, hbatch⟩, -⟩ := startsEvent_some hcev
  exact hb kind left (hp.symm.trans hbatch)

theorem undoesEvent_none (h : s.rollback = none → s'.rollback = none) :
    s.undoesEvent s' = none := by
  unfold undoesEvent
  split
  next hr hr' => exact absurd (h hr) (hr' ▸ nofun)
  · rfl

theorem undoesEvent_some {r : Rollback T} (hr : s.rollback = none) (hr' : s'.rollback = some r) :
    s.undoesEvent s' = some r.event := by
  unfold undoesEvent
  rw [hr, hr']

theorem speaker_net (hn : s.net ≠ .off) : s.speaker = none := by
  unfold speaker
  split
  next hoff _ _ => exact absurd hoff hn
  · rfl

theorem speaker_rollback {r : Rollback T} (hr : s.rollback = some r) : s.speaker = none := by
  unfold speaker
  split
  next hnone _ => cases hr.symm.trans hnone
  · rfl

theorem speaker_outside (hp : OutsideHandler s.phase) : s.speaker = none := by
  unfold speaker
  split
  next hph => exact absurd hph (hp _ _ _ _)
  · rfl

theorem speaker_handler {kind : BatchKind} {left lp : Nat} {ops : List (HandlerOp T M)}
    (hat : s.At (.handler kind left lp ops)) : s.speaker = s.curEvent := by
  obtain ⟨hn, hr, hp⟩ := hat
  unfold speaker
  rw [hn, hr, hp]

/-- Nothing is said outside of the handlers of a batch. -/
theorem Talk.outside (hp : OutsideHandler s.phase) (hp' : s'.pending = none) : Talk s s' :=
  .inl ⟨speaker_outside hp, hp'.trans (pending_outside hp).symm⟩

end

end Observations

/-! ## Events that leave their queues -/

section Leaving

variable {s s' : Pe T S M R} {e x : TwEvent T} {q j : QueueId}

/-- An event that leaves its queue leaves them all. -/
theorem Placed.mem_remove (h : Placed m s) (hq : q.isHome = true) (he : e ∈ s.queue q)
    (hj : j.isHome = true) : x ∈ Pool.remove s.queue q e j ↔ x ∈ s.queue j ∧ x ≠ e := by
  have hmem := h.located.home.mem_remove (q := q) (j := j) (e := e) (x := x)
  rw [← Pool.restrict_remove hq, Pool.mem_restrict, Pool.mem_restrict] at hmem
  constructor
  · intro hx
    obtain ⟨⟨-, hxj⟩, hne⟩ := hmem.mp ⟨hj, hx⟩
    refine ⟨hxj, ?_⟩
    rintro rfl
    rcases h.located.place hq he hxj with rfl | rfl
    · exact hne ⟨rfl, rfl⟩
    · cases hj
  · rintro ⟨hxj, hne⟩
    exact (hmem.mpr ⟨⟨hj, hxj⟩, fun hx => hne hx.2⟩).2

/-- The execution of an event ends when the event leaves its queue. -/
theorem Placed.standing_remove (h : Placed m s) (hq : q.isHome = true) (he : e ∈ s.queue q)
    (hpe : ∀ k, s'.queue (.peventQ k) = Pool.remove s.queue q e (.peventQ k))
    (hf : s'.queue .fossil = Pool.remove s.queue q e .fossil)
    (hhand : ∀ x, s'.rollback = none ∧ x ∈ s'.queue .hand ↔
      (s.rollback = none ∧ x ∈ s.queue .hand) ∧ x ≠ e) (x : TwEvent T) :
    s'.Standing x ↔ s.Standing x ∧ x ≠ e := by
  have hleft : ∀ k, x ∈ Pool.remove s.queue q e (.peventQ k) ↔ x ∈ s.queue (.peventQ k) ∧ x ≠ e :=
    fun k => h.mem_remove hq he rfl
  have hcut : x ∈ Pool.remove s.queue q e .fossil ↔ x ∈ s.queue .fossil ∧ x ≠ e :=
    h.mem_remove hq he rfl
  unfold Standing
  simp only [hpe, hf, hhand, hleft, hcut, exists_and_right, or_and_right]

end Leaving

/-! ## One step -/

namespace Effect

variable {s s' : Pe T S M R}

/-- A calm step of anything but a handler. -/
theorem of_calm (h : Calm s s') (hsp : s.speaker = none) : Effect m s s' := by
  refine .keep ?_ (undoesEvent_none h.rollback.mpr) h.commits h.gone (.inl ⟨hsp, h.pending⟩)
    h.standing
  by_contra hstart
  obtain ⟨cev, hcev⟩ := Option.ne_none_iff_exists'.mp hstart
  obtain ⟨hr, ⟨kind, left, hb⟩, ⟨_, _, _, _, hp'⟩, hc'⟩ := startsEvent_some hcev
  have hpend := h.pending
  rw [pending_handler (h.rollback.mpr hr) hp' hc', pending_outside fun _ _ _ _ hp =>
    nomatch hb.symm.trans hp] at hpend
  cases hpend

/-- A step of the network loop. -/
theorem net {n : NetLoop} (hn : s.net = n) (hne : n ≠ .off) (h : Calm s s') : Effect m s s' :=
  of_calm h (speaker_net fun hoff => hne (hn.symm.trans hoff))

/-- A calm step of a function. -/
theorem inside {p : Phase T M} (hat : s.At p) (hp : OutsideHandler p) (h : Calm s s') :
    Effect m s s' :=
  of_calm h (speaker_outside (Holding.outside_of_at hat hp))

/-! ## Rollbacks -/

/-- The latest processed event of a KP is shifted off and undone. -/
theorem shiftRollback (h : Placed m s) (hhand : Holding s) {p : Phase T M} (hat : s.At p)
    (hp : OutsideHandler p) (hb : ∀ kind left, p ≠ .batch kind left) {kp : Nat} {e : TwEvent T}
    {rest : List (TwEvent T)} (hq : s.queue (.peventQ kp) = e :: rest) (sig : Nat → TwEventSig T)
    (after : RollbackAfter) :
    Effect m s (({ s.shiftPevent kp e rest with lastSig := sig } :
      Pe T S M R).twEventRollback m e after) := by
  obtain ⟨l, cv, msg, t, hs⟩ := twEventRollback_frame m
    ({ s.shiftPevent kp e rest with lastSig := sig } : Pe T S M R) e after
  rw [hs]
  have hout : OutsideHandler s.phase := Holding.outside_of_at hat hp
  have he : e ∈ s.queue (.peventQ kp) := hq ▸ List.mem_cons_self
  have hnil := hhand.empty hat.2.1 hout
  have hrem : Function.update s.queue (.peventQ kp) rest = Pool.remove s.queue (.peventQ kp) e :=
    Pool.update_tail hq
  refine .undo (startsEvent_none hat.2.2 hb) (undoesEvent_some hat.2.1 rfl) rfl
    (gone_nil rfl le_rfl) (Talk.outside hout (pending_rollback rfl)) (pending_rollback rfl)
    (.inl ⟨kp, he⟩)
    (h.standing_remove rfl he (fun k => ?_) ?_ fun x => ?_)
  · rw [← hrem]
    rfl
  · rw [← hrem]
    rfl
  · rw [hnil]
    simp

theorem kpRollbackToSig (h : Placed m s) (hhand : Holding s) {p : Phase T M} (hat : s.At p)
    (hp : OutsideHandler p) (hb : ∀ kind left, p ≠ .batch kind left) {kp : Nat}
    {toSig : TwEventSig T} (hs : s.kpRollbackToSig m kp toSig = some s') : Effect m s s' := by
  obtain ⟨e, rest, hq, -, rfl⟩ := kpRollbackToSig_some hs
  exact shiftRollback h hhand hat hp hb hq _ _

theorem kpRollbackEvent (h : Placed m s) (hhand : Holding s) {p : Phase T M} (hat : s.At p)
    (hp : OutsideHandler p) (hb : ∀ kind left, p ≠ .batch kind left) {event : TwEvent T}
    (hs : s.kpRollbackEvent m event = .ok s') : Effect m s s' := by
  obtain ⟨e, rest, hq, ⟨-, rfl⟩ | ⟨-, hd, tl, -, rfl⟩⟩ := kpRollbackEvent_ok hs
  · exact shiftRollback h hhand hat hp hb hq _ _
  · exact shiftRollback h hhand hat hp hb hq _ _

/-- The end of a rollback: the event undone goes on or is freed. -/
theorem rollbackEnds (h : Placed m s) (hhand : Holding s) {r : Rollback T}
    (hr : s.rollback = some r)
    (hpe : ∀ k, s'.queue (.peventQ k) = s.queue (.peventQ k))
    (hf : s'.queue .fossil = s.queue .fossil) (hnil : s'.queue .hand = [])
    (hc : s'.commits = s.commits) (hpend : s'.pending = none)
    (hgone : s'.freed = s.freed ∨ s'.freed = s.freed ++ [r.event])
    (hh : s'.handles = s.handles) : Effect m s s' := by
  have hmem : r.event ∈ s.queue .hand := by
    rw [hhand.rollback r hr]
    exact List.mem_singleton_self _
  have hnot : ¬ s.Standing r.event := by
    rintro (⟨k, he⟩ | he | ⟨hnone, -⟩)
    · rcases h.located.place (q := .hand) rfl hmem he with hj | hj <;> cases hj
    · rcases h.located.place (q := .hand) rfl hmem he with hj | hj <;> cases hj
    · cases hr.symm.trans hnone
  have hstart : s.startsEvent s' = none := by
    by_contra hne
    obtain ⟨cev, hcev⟩ := Option.ne_none_iff_exists'.mp hne
    cases hr.symm.trans (startsEvent_some hcev).1
  refine .keep hstart (undoesEvent_none fun hnone => nomatch hr.symm.trans hnone) hc ?_
    (.inl ⟨speaker_rollback hr, hpend.trans (pending_rollback hr).symm⟩) fun x => ?_
  · rcases hgone with hgone | hgone
    · exact gone_nil hgone (hh ▸ le_rfl)
    · exact gone_freed hgone (hh ▸ le_rfl) hnot
  · unfold Standing
    simp [hpe, hf, hnil, hr]

theorem rollbackStep (h : Placed m s) (hhand : Holding s) {r : Rollback T}
    (hr : s.rollback = some r) (hs : s.rollbackStep m r = .ok s') : Effect m s s' := by
  have hout := hhand.outside r hr
  unfold Pe.rollbackStep at hs
  split at hs
  next e rest hc =>
    have h' : Placed m (({ s with rollback := some { r with children := rest } } :
        Pe T S M R).reverseUnif m e.srcLp 1) := h.same rfl rfl rfl rfl rfl
    obtain ⟨hk, hh, hroll, hpend, hgone⟩ := Calm.eventCancel h' hs
    refine of_calm ⟨⟨hk.pevent, hk.fossil, hk.commits⟩, hh, hroll.trans ?_, hpend.trans ?_, ?_⟩
      (speaker_rollback hr)
    · rw [hr]
      exact ⟨nofun, nofun⟩
    · rw [pending_rollback hr, pending_rollback rfl]
    · intro x hx hst
      refine hgone x hx ?_
      rcases hst with hst | hst | ⟨hnone, -⟩
      · exact .inl hst
      · exact .inr (.inl hst)
      · cases hr.symm.trans hnone
  next hc =>
    cases hs
    have hnil : (s.queue .hand).erase r.event = [] := by
      rw [hhand.rollback r hr, List.erase_cons_head]
    rw [afterRollback_eq]
    cases hafter : r.after with
    | requeueReset =>
        rw [hafter] at hout
        exact rollbackEnds h hhand hr (fun _ => rfl) rfl hnil rfl
          (pending_outside (hout.resolve_left nofun)) (.inl rfl) rfl
    | requeue =>
        rw [hafter] at hout
        exact rollbackEnds h hhand hr (fun _ => rfl) rfl hnil rfl
          (pending_outside (hout.resolve_left nofun)) (.inl rfl) rfl
    | freeReset =>
        exact rollbackEnds h hhand hr (fun _ => rfl) rfl hnil rfl (pending_outside nofun)
          (.inr rfl) rfl
    | abort kind =>
        exact rollbackEnds h hhand hr (fun _ => rfl) rfl hnil rfl (pending_outside nofun)
          (.inl rfl) rfl

/-! ## Handlers -/

/-- A batch calls the handler with the calls it is going to make. -/
theorem pending_runEvent (hr : s.rollback = none) {kind : BatchKind} (hkind : kind ≠ .conservative)
    (left : Nat) (cev : TwEvent T) :
    ((s.dequeued m cev).runEvent m kind left cev).pending = some (cev, s.forwardOps m cev) := by
  unfold runEvent forwardOps
  dsimp only
  by_cases hf : ((s.dequeued m cev).lp cev.destLp).suspendFlag = true
  · rw [if_pos ⟨hf, hkind⟩, if_pos hf]
    refine pending_handler ?_ rfl rfl
    exact hr
  · rw [if_neg fun hand => hf hand.1, if_neg hf]
    refine pending_handler ?_ rfl rfl
    exact hr

theorem batchStep (h : Placed m s) (hhand : Holding s) {kind : BatchKind} {left : Nat}
    (hat : s.At (.batch kind left)) (hkind : kind ≠ .conservative)
    (hs : s.batchStep m kind left = .ok s') : Effect m s s' := by
  have hout : OutsideHandler s.phase := Holding.outside_of_at hat nofun
  rcases batchStep_ok hs with ⟨c, n, rfl⟩ | ⟨cev, hcev, -, -, -, rfl⟩
  · exact inside hat nofun
      (.goto ⟨fun _ => rfl, rfl, rfl⟩ rfl Iff.rfl hout nofun (gone_nil rfl le_rfl))
  · have hnil := hhand.empty hat.2.1 hout
    have hpend := pending_runEvent (m := m) hat.2.1 hkind (left - 1) cev
    have hown := h.located.allows _ cev (pqLeast_some hcev).1
    have ho : (s.ev cev).owner = .pePq := by
      cases ho : (s.ev cev).owner <;> rw [ho] at hown <;> first | rfl | cases hown
    obtain ⟨l, cv, msg, ops, hrun⟩ :=
      runEvent_frame (m := m) (s.dequeued m cev) kind (left - 1) cev
    rw [hrun] at hpend ⊢
    refine .start ?_ (undoesEvent_none fun hr => hr) rfl (gone_nil rfl (Nat.zero_le _))
      (speaker_outside hout) hpend (h.not_standing ho nofun nofun) fun x => ?_
    · unfold startsEvent
      rw [hat.1, hat.2.1, hat.2.2]
      rfl
    · show (∃ k, x ∈ s.queue (.peventQ k)) ∨ x ∈ s.queue .fossil ∨
        s.rollback = none ∧ x ∈ cev :: s.queue .hand ↔ _
      unfold Standing
      simp [hnil, hat.2.1, or_assoc]

theorem handlerOp (h : Placed m s) (hhand : Holding s) {kind : BatchKind} {left lp : Nat}
    {op : HandlerOp T M} {ops : List (HandlerOp T M)}
    (hat : s.At (.handler kind left lp (op :: ops)))
    (hs : { s with phase := .handler kind left lp ops }.handlerOp m lp op = .ok s') :
    Effect m s s' := by
  obtain ⟨cev, -, hcur⟩ := hhand.handler _ _ _ _ hat.2.2 hat.2.1
  have h' : Placed m { s with phase := .handler kind left lp ops } := h.same rfl rfl rfl rfl rfl
  have hcalm := Calm.handlerOp h' hs
  have hpend : s'.pending = some (cev, ops) :=
    hcalm.pending.trans (pending_handler (s := { s with phase := .handler kind left lp ops })
      hat.2.1 rfl hcur)
  refine .keep (startsEvent_none hat.2.2 nofun) (undoesEvent_none hcalm.rollback.mpr)
    hcalm.commits hcalm.gone ?_ hcalm.standing
  exact .inr ⟨(cev, op :: ops), (speaker_handler hat).trans hcur,
    pending_handler hat.2.1 hat.2.2 hcur, hpend⟩

theorem handlerReturn (h : Placed m s) (hhand : Holding s) {kind : BatchKind} {left lp : Nat}
    {cev : TwEvent T} {expired : Bool} (hat : s.At (.handler kind left lp []))
    (hkind : kind ≠ .conservative) (hc : s.curEvent = some cev)
    (hs : s.handlerReturn m kind left cev expired = .ok s') : Effect m s s' := by
  obtain ⟨cev', hcev, hc'⟩ := hhand.handler _ _ _ _ hat.2.2 hat.2.1
  cases hc.symm.trans hc'
  have hmem : cev ∈ s.queue .hand := hcev ▸ List.mem_singleton_self cev
  have hsay : s.speaker = some cev ∧ s.pending = some (cev, []) :=
    ⟨(speaker_handler hat).trans hc, pending_handler hat.2.1 hat.2.2 hc⟩
  have hstart : s.startsEvent s' = none := startsEvent_none hat.2.2 nofun
  rcases handlerReturn_ok hs with ⟨hcons, -, -⟩ | ⟨-, -, rfl⟩ | ⟨-, -, c, p, hp, rfl⟩
  · exact absurd hcons hkind
  · obtain ⟨l, cv, msg, t, hroll⟩ := twEventRollback_frame m
      ({ s with cevAbort := false } : Pe T S M R) cev (.abort kind)
    rw [hroll] at hstart ⊢
    refine .undo hstart (undoesEvent_some hat.2.1 rfl) rfl (gone_nil rfl le_rfl)
      (.inr ⟨(cev, []), hsay.1, hsay.2, pending_rollback rfl⟩) (pending_rollback rfl)
      (.inr (.inr ⟨hat.2.1, hmem⟩))
      (h.standing_remove rfl hmem (fun k => rfl) rfl fun x => ?_)
    rw [hcev]
    simp
  · have hout : OutsideHandler p := by
      rcases hp with rfl | rfl
      · exact nofun
      · exact nofun
    refine .keep hstart (undoesEvent_none fun hr => hr) rfl (gone_nil rfl le_rfl)
      (.inr ⟨(cev, []), hsay.1, hsay.2, pending_outside hout⟩) fun x => ?_
    have hnil : (s.queue .hand).erase cev = [] := by
      rw [hcev, List.erase_cons_head]
    have hq := Flow.cons_remove_hand s.queue cev (m.kpOf cev.destLp)
    show (∃ k, x ∈ Pool.cons (Pool.remove s.queue .hand cev) (.peventQ (m.kpOf cev.destLp)) cev
      (.peventQ k)) ∨ x ∈ s.queue .fossil ∨ s.rollback = none ∧ x ∈ (s.queue .hand).erase cev ↔ _
    simp only [hq, hnil, Pool.mem_cons]
    unfold Standing
    rw [hcev, hat.2.1]
    constructor
    · rintro (⟨k, ⟨-, rfl⟩ | hx⟩ | hx | ⟨-, hx⟩)
      · exact .inr (.inr ⟨rfl, List.mem_singleton_self x⟩)
      · exact .inl ⟨k, hx⟩
      · exact .inr (.inl hx)
      · cases hx
    · rintro (⟨k, hx⟩ | hx | ⟨-, hx⟩)
      · exact .inl ⟨k, .inr hx⟩
      · exact .inr (.inl hx)
      · exact .inl ⟨m.kpOf cev.destLp, .inl ⟨rfl, List.mem_singleton.mp hx⟩⟩

/-! ## Fossil collection -/

/-- Fossil collection commits an event that it has cut off. -/
theorem commitEvent (h : Placed m s) (hhand : Holding s) {kp : Nat} {children : List (TwEvent T)}
    (hat : s.At (.fossilCollect kp children)) {e : TwEvent T} (he : e ∈ s.queue .fossil)
    (hs : s.commitEvent m kp e = .ok s') : Effect m s s' := by
  have hout : OutsideHandler s.phase := Holding.outside_of_at hat nofun
  have hnil := hhand.empty hat.2.1 hout
  have hstart : s.startsEvent s' = none := startsEvent_none hat.2.2 nofun
  rcases commitEvent_ok hs with ⟨-, rfl⟩ | ⟨-, -, c, -, rfl⟩
  all_goals
    refine .commit hstart (undoesEvent_none fun hr => hr) rfl (newFreed_commit rfl rfl)
      (newBuffers_nil le_rfl) (Talk.outside hout (pending_outside nofun)) (pending_outside nofun)
      (.inr (.inl he))
      (h.standing_remove rfl he (fun k => rfl) rfl fun x => ?_)
    show s.rollback = none ∧ x ∈ s.queue .hand ↔ _
    rw [hnil]
    simp

theorem fossilStep (h : Placed m s) (hhand : Holding s) {kp : Nat} {children : List (TwEvent T)}
    (hat : s.At (.fossilCollect kp children)) (hs : s.fossilStep m kp children = .ok s') :
    Effect m s s' := by
  have hout : OutsideHandler s.phase := Holding.outside_of_at hat nofun
  rcases fossilStep_ok hs with
    ⟨c, cs, -, ⟨ho, rfl⟩ | ⟨-, rfl⟩⟩ | ⟨-, e, he, hce⟩ | ⟨-, hf, -, rfl⟩ |
    ⟨-, -, -, rfl⟩
  · exact inside hat nofun (.goto ⟨fun _ => rfl, rfl, rfl⟩ rfl Iff.rfl hout nofun
      (gone_freed rfl le_rfl (h.not_standing ho nofun nofun)))
  · exact inside hat nofun (.goto ⟨fun _ => rfl, rfl, rfl⟩ rfl Iff.rfl hout nofun
      (gone_nil rfl le_rfl))
  · exact commitEvent h hhand hat (List.mem_of_getLast? he) hce
  · -- The events cut off are those that were in the queue of the KP.
    refine .keep (startsEvent_none hat.2.2 nofun) (undoesEvent_none fun hr => hr) rfl
      (gone_nil rfl le_rfl) (Talk.outside hout (pending_outside nofun)) fun x => ?_
    have hsplit : x ∈ (s.cutPevent kp).queue (.peventQ kp) ∨ x ∈ (s.cutPevent kp).queue .fossil ↔
        x ∈ s.queue (.peventQ kp) := by
      rw [cutPevent_self, cutPevent_fossil, ← List.mem_append, fossilCut_append]
    have hleft : (∃ k, x ∈ (s.cutPevent kp).queue (.peventQ k)) ∨
        x ∈ (s.cutPevent kp).queue .fossil ↔ ∃ k, x ∈ s.queue (.peventQ k) := by
      constructor
      · rintro (⟨k, hx⟩ | hx)
        · by_cases hk : k = kp
          · exact ⟨kp, hsplit.mp (.inl (hk ▸ hx))⟩
          · exact ⟨k, cutPevent_of_ne s hk ▸ hx⟩
        · exact ⟨kp, hsplit.mp (.inr hx)⟩
      · rintro ⟨k, hx⟩
        by_cases hk : k = kp
        · rcases hsplit.mpr (hk ▸ hx) with hx | hx
          · exact .inl ⟨kp, hx⟩
          · exact .inr hx
        · exact .inl ⟨k, (cutPevent_of_ne s hk).symm ▸ hx⟩
    show (∃ k, x ∈ (s.cutPevent kp).queue (.peventQ k)) ∨ x ∈ (s.cutPevent kp).queue .fossil ∨
      s.rollback = none ∧ x ∈ s.queue .hand ↔ _
    rw [← or_assoc, hleft]
    unfold Standing
    rw [hf]
    simp
  · exact inside hat nofun (.goto ⟨fun _ => rfl, rfl, rfl⟩ rfl Iff.rfl hout nofun
      (gone_nil rfl le_rfl))

/-! ## Steps -/

/-- What any step of an optimistic scheduler does to the executions of the PE. -/
theorem of_step (h : Placed m s) (hhand : Holding s)
    (hbatch : ∀ left, s.phase ≠ .batch .conservative left)
    (hhandler : ∀ left lp ops, s.phase ≠ .handler .conservative left lp ops) {i : Input T M}
    (hs : s.step m i = .ok s') : Effect m s s' := by
  have hturn := step_turn hs
  clear hs
  cases hturn with
  | recv hn hp hs =>
      have h' : Placed m { s with net := .testRecvs true } := h.same rfl rfl rfl rfl rfl
      obtain ⟨hk, hh, hr, hpend, hgone⟩ := Calm.recvFinish h' hs
      exact net hn nofun ⟨⟨hk.pevent, hk.fossil, hk.commits⟩, hh, hr, hpend, hgone⟩
  | testRecvs hn hs =>
      subst hs
      exact net hn nofun ⟨⟨fun _ => rfl, rfl, rfl⟩, rfl, Iff.rfl, rfl, gone_nil rfl le_rfl⟩
  | @sent read changed e hn he hs =>
      have h' : Placed m { s with net := .testSends read true } := h.same rfl rfl rfl rfl rfl
      obtain ⟨hk, hh, hr, hpend, hgone⟩ := Calm.sendFinish h' hs
      exact net hn nofun ⟨⟨hk.pevent, hk.fossil, hk.commits⟩, hh, hr, hpend, hgone⟩
  | testSends hn hs =>
      subst hs
      exact net hn nofun ⟨⟨fun _ => rfl, rfl, rfl⟩, rfl, Iff.rfl, rfl, gone_nil rfl le_rfl⟩
  | recvBegin hn hs => exact net hn nofun (Calm.recvBegin hs)
  | sendBegin hn hs =>
      subst hs
      exact net hn nofun (Calm.sendBegin m s _ _)
  | rollback hn hr hs => exact rollbackStep h hhand hr hs
  | @call c rest expired hat ht hs =>
      have hout : OutsideHandler s.phase := Holding.outside_of_at hat nofun
      obtain ⟨hk, hh, hr, hpend, hgone⟩ := Calm.call (s := { s with todo := rest }) hout hs
      exact inside hat nofun ⟨⟨hk.pevent, hk.fossil, hk.commits⟩, hh, hr, hpend, hgone⟩
  | outerCall hat ht hs =>
      exact inside hat nofun (Calm.call (Holding.outside_of_at hat nofun) hs)
  | eventQ hat hs =>
      exact inside hat nofun (Calm.schedEventQ (Holding.outside_of_at hat nofun) hs)
  | eventQRollback hat hs =>
      obtain ⟨cev, rest, -, hback | ⟨-, rfl⟩⟩ := schedStraggler_ok hs
      · exact kpRollbackToSig h hhand hat nofun nofun hback
      · exact inside hat nofun (.goto ⟨fun _ => rfl, rfl, rfl⟩ rfl Iff.rfl
          (Holding.outside_of_at hat nofun) nofun (gone_nil rfl le_rfl))
  | cancelQ hat hs =>
      exact inside hat nofun (Calm.schedCancelQ h (Holding.outside_of_at hat nofun) hs)
  | cancelQRollback hat hs => exact kpRollbackEvent h hhand hat nofun nofun hs
  | rollbackToSig hat hs => exact kpRollbackToSig h hhand hat nofun nofun hs
  | rollbackToSigDone hat _ hs =>
      subst hs
      exact inside hat nofun (.goto ⟨fun _ => rfl, rfl, rfl⟩ rfl Iff.rfl
        (Holding.outside_of_at hat nofun) nofun (gone_nil rfl le_rfl))
  | batch hat hs =>
      refine batchStep h hhand hat (fun hcons => ?_) hs
      rw [hcons] at hat
      exact hbatch _ hat.2.2
  | handlerOp hat hs => exact handlerOp h hhand hat hs
  | handlerReturn hat hc hs =>
      refine handlerReturn h hhand hat (fun hcons => ?_) hc hs
      rw [hcons] at hat
      exact hhandler _ _ _ hat.2.2
  | @initOp lp op ops expired hat hs =>
      have h' : Placed m { s with phase := .lpInit lp ops } := h.same rfl rfl rfl rfl rfl
      obtain ⟨hk, hh, hr, hpend, hgone⟩ := Calm.handlerOp h' hs
      have hout : OutsideHandler s.phase := Holding.outside_of_at hat nofun
      refine inside hat nofun ⟨⟨hk.pevent, hk.fossil, hk.commits⟩, hh, hr, hpend.trans ?_, hgone⟩
      rw [pending_outside hout]
      exact pending_outside nofun
  | initReturn hat _ hs =>
      subst hs
      exact inside hat nofun (.goto ⟨fun _ => rfl, rfl, rfl⟩ rfl Iff.rfl
        (Holding.outside_of_at hat nofun) nofun (gone_nil rfl le_rfl))
  | whiteLoop hat hs =>
      subst hs
      exact inside hat nofun (.goto ⟨fun _ => rfl, rfl, rfl⟩ rfl Iff.rfl
        (Holding.outside_of_at hat nofun) nofun (gone_nil rfl le_rfl))
  | reduce hat hs =>
      subst hs
      exact inside hat nofun (Calm.reduceDone (Holding.outside_of_at hat nofun) _ _)
  | reduced hat hs =>
      exact inside hat nofun (Calm.afterReduction (Holding.outside_of_at hat nofun) hs)
  | gvtStore hat hs =>
      obtain ⟨-, n, rfl⟩ := gvtStore_ok hs
      refine inside hat nofun (.goto ⟨fun _ => rfl, rfl, rfl⟩ rfl Iff.rfl
        (Holding.outside_of_at hat nofun) ?_ (gone_nil rfl le_rfl))
      dsimp only
      split
      · exact nofun
      · exact nofun
  | fossil hat hs => exact fossilStep h hhand hat hs
  | hook hat hs => exact inside hat nofun (Calm.hookStep (Holding.outside_of_at hat nofun) hs)

end Effect

end Ross.Pe

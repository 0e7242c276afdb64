import Ross.Core.NetEvents
import Ross.Lib.Transition

/-!
# The balance of the event counters

Every event that a batch counts is in `pevent_q`, committed, or being undone until
`tw_event_rollback` counts it too.
-/

namespace Ross.Pe

open Transition

variable {T S M R : Type} [TwStime T] {m : SimModel T S M R}

/-! ## What a step does to the processed events -/

/-- The PE is inside of `tw_pe_fossil_collect`. -/
def Collecting (s : Pe T S M R) : Prop :=
  s.rollback = none ∧ ∃ kp children, s.phase = .fossilCollect kp children

/-- The event whose rollback is in progress. -/
def undoing (s : Pe T S M R) : Option (TwEvent T) := s.rollback.map Rollback.event

/-- Between two states the processed events, those cut off by fossil collection and those
committed stay as they are. -/
structure KeepsProcessed (s s' : Pe T S M R) : Prop where
  pevent : ∀ k, s'.queue (.peventQ k) = s.queue (.peventQ k)
  fossil : s'.queue .fossil = s.queue .fossil
  commits : s'.commits = s.commits

/-- What a step does to the processed events, and what it counts. -/
inductive Flow (m : SimModel T S M R) (s s' : Pe T S M R) : Prop
  /-- Nothing. -/
  | keep : (∀ c, s.countEvents m c = c) → KeepsProcessed s s' → s'.undoing = s.undoing →
      (s.Collecting → s'.Collecting ∨ s.queue .fossil = []) → Flow m s s'
  /-- The event whose handler returned joins them. -/
  | processed {kind : BatchKind} {left lp : Nat} {cev : TwEvent T} :
      (∀ c, s.countEvents m c = c.process (m.kpOf cev.destLp) 1) →
      s.phase = .handler kind left lp [] → s.undoing = none → s'.undoing = none →
      (∀ k, s'.queue (.peventQ k) =
        Pool.cons s.queue (.peventQ (m.kpOf cev.destLp)) cev (.peventQ k)) →
      s'.queue .fossil = s.queue .fossil → s'.commits = s.commits → Flow m s s'
  /-- The event whose handler ran out of buffers is going to be undone. -/
  | aborted {kind : BatchKind} {left lp : Nat} {cev : TwEvent T} :
      (∀ c, s.countEvents m c = c.process (m.kpOf cev.destLp) 1) →
      s.phase = .handler kind left lp [] → s.undoing = none → s'.undoing = some cev →
      KeepsProcessed s s' → Flow m s s'
  /-- The latest processed event of a KP is going to be undone. -/
  | undo {kp : Nat} {e : TwEvent T} {rest : List (TwEvent T)} :
      (∀ c, s.countEvents m c = c) → ¬ s.Collecting → s.undoing = none → s'.undoing = some e →
      s.queue (.peventQ kp) = e :: rest →
      (∀ k, s'.queue (.peventQ k) = Function.update s.queue (.peventQ kp) rest (.peventQ k)) →
      s'.queue .fossil = s.queue .fossil → s'.commits = s.commits → Flow m s s'
  /-- The rollback of an event ends. -/
  | undone {e : TwEvent T} :
      (∀ c, s.countEvents m c = c.rollBack (m.kpOf e.destLp)) → s.undoing = some e →
      s'.undoing = none → KeepsProcessed s s' → Flow m s s'
  /-- Fossil collection cuts events off a KP. -/
  | cut {kp : Nat} {children : List (TwEvent T)} :
      (∀ c, s.countEvents m c = c) → s.phase = .fossilCollect kp children → s.undoing = none →
      s.queue .fossil = [] → s' = { s.cutPevent kp with phase := .fossilCollect (kp + 1) [] } →
      Flow m s s'
  /-- Fossil collection commits an event. -/
  | commit {e : TwEvent T} :
      (∀ c, s.countEvents m c = c) → s.undoing = none → s'.Collecting → e ∈ s.queue .fossil →
      (∀ k, s'.queue (.peventQ k) = s.queue (.peventQ k)) →
      s'.queue .fossil = (s.queue .fossil).erase e → s'.commits = s.commits ++ [e] → Flow m s s'

section Counts

variable {s : Pe T S M R}

section

omit [TwStime T]

theorem countEvents_of_net (hn : s.net ≠ .off) (c : EventCounts) : s.countEvents m c = c := by
  unfold countEvents
  cases hnet : s.net with
  | off => exact absurd hnet hn
  | testRecvs changed => rfl
  | testSends read changed => rfl
  | recvBegin changed => rfl
  | sendBegin read changed => rfl

/-- Of the functions of the PE only the return of a handler counts. -/
theorem countEvents_of_at {p : Phase T M} (hat : s.At p)
    (hp : ∀ kind left lp, p ≠ .handler kind left lp []) (c : EventCounts) :
    s.countEvents m c = c := by
  obtain ⟨hn, hr, hphase⟩ := hat
  unfold countEvents
  rw [hn, hr, hphase]
  split
  next h => cases h
  next kind left lp _ _ _ _ => exact absurd rfl (hp kind left lp)
  · rfl

theorem countEvents_of_return {kind : BatchKind} {left lp : Nat} {cev : TwEvent T}
    (hat : s.At (.handler kind left lp [])) (hc : s.curEvent = some cev) (c : EventCounts) :
    s.countEvents m c = c.process (m.kpOf cev.destLp) 1 := by
  obtain ⟨hn, hr, hp⟩ := hat
  unfold countEvents
  rw [hn, hr, hp, hc]

theorem countEvents_of_rollback {r : Rollback T} (hn : s.net = .off) (hr : s.rollback = some r)
    (c : EventCounts) :
    s.countEvents m c = if r.children = [] then c.rollBack (m.kpOf r.event.destLp) else c := by
  unfold countEvents
  rw [hn, hr]

end

end Counts

namespace Flow

variable {s s' : Pe T S M R}

/-- A step of the network loop. -/
theorem net (hn : s.net ≠ .off) (hk : KeepsProcessed s s') (hr : s'.rollback = s.rollback)
    (hp : s'.phase = s.phase) : Flow m s s' := by
  have hu : s'.undoing = s.undoing := by
    unfold undoing
    rw [hr]
  refine .keep (countEvents_of_net hn) hk hu fun hcol => .inl ?_
  unfold Collecting
  rw [hr, hp]
  exact hcol

/-- A step of a function that neither counts nor collects. -/
theorem inside {p : Phase T M} (hat : s.At p)
    (hp : ∀ kind left lp, p ≠ .handler kind left lp [])
    (hc : ∀ kp children, p ≠ .fossilCollect kp children) (hk : KeepsProcessed s s')
    (hr : s'.rollback = none) : Flow m s s' := by
  refine .keep (countEvents_of_at hat hp) hk ?_ fun hcol => ?_
  · unfold undoing
    rw [hr, hat.2.1]
  · obtain ⟨-, kp, children, hphase⟩ := hcol
    exact absurd (hat.2.2.symm.trans hphase) (hc kp children)

/-! ## The network and the handlers -/

theorem recvFinish {src : Nat} {w : WireMsg T M} (hs : s.recvFinish m src w = .ok s') :
    KeepsProcessed s s' ∧ s'.rollback = s.rollback ∧ s'.phase = s.phase := by
  obtain ⟨-, ⟨-, c, -, rfl⟩ | ⟨-, -, ⟨-, -, rfl⟩ | ⟨-, rfl⟩⟩⟩ := recvFinish_ok hs
  · exact ⟨⟨fun _ => rfl, rfl, rfl⟩, rfl, rfl⟩
  · exact ⟨⟨fun _ => rfl, rfl, rfl⟩, rfl, rfl⟩
  · exact ⟨⟨fun _ => rfl, rfl, rfl⟩, rfl, rfl⟩

theorem sendFinish {e : TwEvent T} (hs : s.sendFinish m e = .ok s') :
    KeepsProcessed s s' ∧ s'.rollback = s.rollback ∧ s'.phase = s.phase := by
  rcases sendFinish_ok hs with ⟨-, -, rfl⟩ | ⟨-, -, -, rfl⟩ | ⟨-, -, -, rfl⟩ | ⟨-, rfl⟩
  · exact ⟨⟨fun _ => rfl, rfl, rfl⟩, rfl, rfl⟩
  · exact ⟨⟨fun _ => rfl, rfl, rfl⟩, rfl, rfl⟩
  · exact ⟨⟨fun _ => rfl, rfl, rfl⟩, rfl, rfl⟩
  · exact ⟨⟨fun _ => rfl, rfl, rfl⟩, rfl, rfl⟩

theorem sendBegin (m : SimModel T S M R) (s : Pe T S M R) (read changed : Bool) :
    KeepsProcessed s (s.sendBegin m read changed) ∧
      (s.sendBegin m read changed).rollback = s.rollback ∧
      (s.sendBegin m read changed).phase = s.phase := by
  rcases sendBegin_ok (m := m) s read changed with ⟨e, -, -, hs⟩ | ⟨-, hs⟩
  · rw [hs]
    exact ⟨⟨fun _ => rfl, rfl, rfl⟩, rfl, rfl⟩
  · rw [hs]
    exact ⟨⟨fun _ => rfl, rfl, rfl⟩, rfl, rfl⟩

theorem handlerOp {lp : Nat} {op : HandlerOp T M} (hs : s.handlerOp m lp op = .ok s') :
    KeepsProcessed s s' ∧ s'.rollback = s.rollback := by
  cases op with
  | eventNew destGid offsetTs prio msg =>
      obtain ⟨-, ⟨-, rfl⟩ | ⟨-, -, rfl⟩⟩ := twEventNewUserPrio_ok hs
      · exact ⟨⟨fun _ => rfl, rfl, rfl⟩, rfl⟩
      · exact ⟨⟨fun _ => rfl, rfl, rfl⟩, rfl⟩
  | eventSend i =>
      rcases twEventSend_ok hs with ⟨-, rfl⟩ | ⟨e, msg, -, -, rfl⟩
      · exact ⟨⟨fun _ => rfl, rfl, rfl⟩, rfl⟩
      · rcases deliver_cases m (s.prepare i e msg) (s.stamp e) with
          ⟨-, -, hd⟩ | ⟨-, -, hd⟩ | ⟨-, hd⟩
        · rw [hd]
          exact ⟨⟨fun _ => rfl, rfl, rfl⟩, rfl⟩
        · rw [hd]
          exact ⟨⟨fun _ => rfl, rfl, rfl⟩, rfl⟩
        · rw [hd]
          exact ⟨⟨fun _ => rfl, rfl, rfl⟩, rfl⟩
  | lpSuspend doOrigEventRc =>
      cases hs
      exact ⟨⟨fun _ => rfl, rfl, rfl⟩, rfl⟩
  | triggerGvtHookNow =>
      rcases twTriggerGvtHookNow_ok hs with rfl | ⟨-, rfl⟩
      · exact ⟨⟨fun _ => rfl, rfl, rfl⟩, rfl⟩
      · exact ⟨⟨fun _ => rfl, rfl, rfl⟩, rfl⟩

/-! ## Rollbacks -/

/-- The start of a rollback. -/
theorem twEventRollback (s : Pe T S M R) (e : TwEvent T) (after : RollbackAfter) :
    KeepsProcessed s (s.twEventRollback m e after) ∧
      (s.twEventRollback m e after).undoing = some e := by
  obtain ⟨l, cv, msg, t, hs⟩ := twEventRollback_frame m s e after
  rw [hs]
  exact ⟨⟨fun _ => rfl, rfl, rfl⟩, rfl⟩

/-- The latest processed event of a KP is shifted off and undone. -/
theorem shiftRollback {p : Phase T M} (hat : s.At p)
    (hp : ∀ kind left lp, p ≠ .handler kind left lp [])
    (hc : ∀ kp children, p ≠ .fossilCollect kp children) {kp : Nat} {e : TwEvent T}
    {rest : List (TwEvent T)} (hq : s.queue (.peventQ kp) = e :: rest) {s₁ : Pe T S M R}
    (hs₁ : KeepsProcessed (s.shiftPevent kp e rest) s₁) (hr : s'.undoing = some e)
    (hk : KeepsProcessed s₁ s') : Flow m s s' := by
  have hu : s.undoing = none := by
    unfold undoing
    rw [hat.2.1]
    rfl
  refine .undo (countEvents_of_at hat hp) ?_ hu hr hq ?_ ?_ ?_
  · rintro ⟨-, kp', children, hphase⟩
    exact hc kp' children (hat.2.2.symm.trans hphase)
  · intro k
    rw [hk.pevent, hs₁.pevent]
    rfl
  · rw [hk.fossil, hs₁.fossil]
    rfl
  · rw [hk.commits, hs₁.commits]
    rfl

theorem kpRollbackToSig {p : Phase T M} (hat : s.At p)
    (hp : ∀ kind left lp, p ≠ .handler kind left lp [])
    (hc : ∀ kp children, p ≠ .fossilCollect kp children) {kp : Nat} {toSig : TwEventSig T}
    (hs : s.kpRollbackToSig m kp toSig = some s') : Flow m s s' := by
  obtain ⟨e, rest, hq, -, rfl⟩ := kpRollbackToSig_some hs
  obtain ⟨hk, hu⟩ := twEventRollback (m := m) (s.shiftPevent kp e rest) e .requeueReset
  exact shiftRollback hat hp hc hq ⟨fun _ => rfl, rfl, rfl⟩ hu hk

theorem kpRollbackEvent {p : Phase T M} (hat : s.At p)
    (hp : ∀ kind left lp, p ≠ .handler kind left lp [])
    (hc : ∀ kp children, p ≠ .fossilCollect kp children) {event : TwEvent T}
    (hs : s.kpRollbackEvent m event = .ok s') : Flow m s s' := by
  obtain ⟨e, rest, hq, ⟨-, rfl⟩ | ⟨-, hd, tl, -, rfl⟩⟩ := kpRollbackEvent_ok hs
  · obtain ⟨hk, hu⟩ :=
      twEventRollback (m := m) (s.shiftPevent (m.kpOf event.destLp) e rest) e .freeReset
    exact shiftRollback hat hp hc hq ⟨fun _ => rfl, rfl, rfl⟩ hu hk
  · have hs₁ : KeepsProcessed (s.shiftPevent (m.kpOf event.destLp) e rest)
        ((s.shiftPevent (m.kpOf event.destLp) e rest).setLastSig (m.kpOf event.destLp) hd.sig) :=
      ⟨fun _ => rfl, rfl, rfl⟩
    obtain ⟨hk, hu⟩ := twEventRollback (m := m)
      ((s.shiftPevent (m.kpOf event.destLp) e rest).setLastSig (m.kpOf event.destLp) hd.sig) e
      .requeue
    exact shiftRollback hat hp hc hq hs₁ hu hk

/-- A step of a rollback in progress. -/
theorem rollbackStep {r : Rollback T} (hn : s.net = .off) (hr : s.rollback = some r)
    (hs : s.rollbackStep m r = .ok s') : Flow m s s' := by
  have hu : s.undoing = some r.event := by
    unfold undoing
    rw [hr]
    rfl
  have hcol : ¬ s.Collecting := fun hcol => Option.some_ne_none r (hr.symm.trans hcol.1)
  unfold Pe.rollbackStep at hs
  split at hs
  next e rest hc =>
    have hcount : ∀ c, s.countEvents m c = c := by
      intro c
      rw [countEvents_of_rollback hn hr, hc]
      exact if_neg (List.cons_ne_nil e rest)
    obtain ⟨_, _, _, _, _, _, _, _, hq, hf, -, rfl⟩ := rollbackChild_frame hs
    exact .keep hcount ⟨hq, hf, rfl⟩ hu.symm fun h => absurd h hcol
  next hc =>
    cases hs
    have hcount : ∀ c, s.countEvents m c = c.rollBack (m.kpOf r.event.destLp) := by
      intro c
      rw [countEvents_of_rollback hn hr]
      exact if_pos hc
    rw [afterRollback_eq]
    cases r.after with
    | requeueReset => exact .undone hcount hu rfl ⟨fun _ => rfl, rfl, rfl⟩
    | requeue => exact .undone hcount hu rfl ⟨fun _ => rfl, rfl, rfl⟩
    | freeReset => exact .undone hcount hu rfl ⟨fun _ => rfl, rfl, rfl⟩
    | abort kind => exact .undone hcount hu rfl ⟨fun _ => rfl, rfl, rfl⟩

/-! ## The schedulers -/

theorem schedEventQ (hs : s.schedEventQ m = .ok s') :
    KeepsProcessed s s' ∧ s'.rollback = s.rollback := by
  rcases schedEventQ_ok hs with
    ⟨cev, rest, -, ⟨-, rfl⟩ | ⟨-, -, ⟨-, rfl⟩ | ⟨-, rfl⟩⟩⟩ | ⟨-, -, rfl⟩ | ⟨-, -, rfl⟩
  · exact ⟨⟨fun _ => rfl, rfl, rfl⟩, rfl⟩
  · exact ⟨⟨fun _ => rfl, rfl, rfl⟩, rfl⟩
  · exact ⟨⟨fun _ => rfl, rfl, rfl⟩, rfl⟩
  · exact ⟨⟨fun _ => rfl, rfl, rfl⟩, rfl⟩
  · exact ⟨⟨fun _ => rfl, rfl, rfl⟩, rfl⟩

theorem schedCancelQ (hs : s.schedCancelQ = .ok s') :
    KeepsProcessed s s' ∧ s'.rollback = s.rollback := by
  rcases schedCancelQ_ok hs with
    ⟨cev, rest, -, -, ⟨q, hq, rfl⟩ | ⟨-, rfl⟩⟩ | ⟨-, -, rfl⟩ | ⟨-, -, rfl⟩
  · have hplace : q = .eventQ ∨ q = .antiMsg ∨ q = .pq :=
      hq.imp And.right (Or.imp And.right And.right)
    rcases hplace with rfl | rfl | rfl
    · exact ⟨⟨fun _ => rfl, rfl, rfl⟩, rfl⟩
    · exact ⟨⟨fun _ => rfl, rfl, rfl⟩, rfl⟩
    · exact ⟨⟨fun _ => rfl, rfl, rfl⟩, rfl⟩
  · exact ⟨⟨fun _ => rfl, rfl, rfl⟩, rfl⟩
  · exact ⟨⟨fun _ => rfl, rfl, rfl⟩, rfl⟩
  · exact ⟨⟨fun _ => rfl, rfl, rfl⟩, rfl⟩

theorem batchStep {kind : BatchKind} {left : Nat} (hs : s.batchStep m kind left = .ok s') :
    KeepsProcessed s s' ∧ s'.rollback = s.rollback := by
  rcases batchStep_ok hs with ⟨c, n, rfl⟩ | ⟨cev, -, -, -, -, rfl⟩
  · exact ⟨⟨fun _ => rfl, rfl, rfl⟩, rfl⟩
  · obtain ⟨l, cv, msg, ops, hrun⟩ :=
      runEvent_frame (m := m) (s.dequeued m cev) kind (left - 1) cev
    rw [hrun]
    exact ⟨⟨fun _ => rfl, rfl, rfl⟩, rfl⟩

/-- The event joins the processed events of a KP from the hands of the batch. -/
theorem cons_remove_hand (q : QueueId → List (TwEvent T)) (cev : TwEvent T) (kp k : Nat) :
    Pool.cons (Pool.remove q .hand cev) (.peventQ kp) cev (.peventQ k) =
      Pool.cons q (.peventQ kp) cev (.peventQ k) := by
  by_cases hk : k = kp
  · rw [hk, Pool.cons_self, Pool.cons_self]
    rfl
  · have hne : QueueId.peventQ k ≠ .peventQ kp := fun heq => hk (QueueId.peventQ.inj heq)
    rw [Pool.cons_of_ne hne, Pool.cons_of_ne hne]
    rfl

theorem handlerReturn {kind : BatchKind} {left lp : Nat} {cev : TwEvent T} {expired : Bool}
    (hkind : kind ≠ .conservative) (hat : s.At (.handler kind left lp []))
    (hc : s.curEvent = some cev) (hs : s.handlerReturn m kind left cev expired = .ok s') :
    Flow m s s' := by
  have hu : s.undoing = none := by
    unfold undoing
    rw [hat.2.1]
    rfl
  have hcount := fun c => countEvents_of_return (m := m) hat hc c
  rcases handlerReturn_ok hs with ⟨hcons, -, -⟩ | ⟨-, -, rfl⟩ | ⟨-, -, c, p, -, rfl⟩
  · exact absurd hcons hkind
  · obtain ⟨hk, hu'⟩ :=
      twEventRollback (m := m) { s with cevAbort := false } cev (.abort kind)
    exact .aborted hcount hat.2.2 hu hu' ⟨hk.pevent, hk.fossil, hk.commits⟩
  · have hq := cons_remove_hand s.queue cev (m.kpOf cev.destLp)
    exact .processed hcount hat.2.2 hu hu hq rfl rfl

theorem fossilStep {kp : Nat} {children : List (TwEvent T)}
    (hat : s.At (.fossilCollect kp children)) (hs : s.fossilStep m kp children = .ok s') :
    Flow m s s' := by
  have hu : s.undoing = none := by
    unfold undoing
    rw [hat.2.1]
    rfl
  have hcount := fun c => countEvents_of_at (m := m) hat (by rintro _ _ _ ⟨⟩) c
  have hcol : ∀ {s₁ : Pe T S M R} {k : Nat} {cs : List (TwEvent T)}, s₁.rollback = s.rollback →
      s₁.phase = .fossilCollect k cs → s₁.Collecting := fun hr hp => ⟨hr.trans hat.2.1, _, _, hp⟩
  rcases fossilStep_ok hs with ⟨c, cs, -, ⟨-, rfl⟩ | ⟨-, rfl⟩⟩ | ⟨-, e, he, hs⟩ |
    ⟨-, hf, -, rfl⟩ | ⟨-, hf, -, rfl⟩
  · exact .keep hcount ⟨fun _ => rfl, rfl, rfl⟩ rfl fun _ => .inl (hcol rfl rfl)
  · exact .keep hcount ⟨fun _ => rfl, rfl, rfl⟩ rfl fun _ => .inl (hcol rfl rfl)
  · have hmem : e ∈ s.queue .fossil := List.mem_of_getLast? he
    rcases commitEvent_ok hs with ⟨-, rfl⟩ | ⟨-, -, c, -, rfl⟩
    · exact .commit hcount hu (hcol rfl rfl) hmem (fun _ => rfl) rfl rfl
    · exact .commit hcount hu (hcol rfl rfl) hmem (fun _ => rfl) rfl rfl
  · exact .cut hcount hat.2.2 hu hf rfl
  · exact .keep hcount ⟨fun _ => rfl, rfl, rfl⟩ rfl fun _ => .inr hf

/-! ## Calls and the GVT computation -/

theorem callHook (hs : s.callHook m = .ok s') :
    KeepsProcessed s s' ∧ s'.rollback = s.rollback := by
  rcases callHook_ok hs with rfl | ⟨-, -, rfl⟩
  · exact ⟨⟨fun _ => rfl, rfl, rfl⟩, rfl⟩
  · exact ⟨⟨fun _ => rfl, rfl, rfl⟩, rfl⟩

theorem call {expired : Bool} {c : Call T} (hs : s.call m expired c = .ok s') :
    KeepsProcessed s s' ∧ s'.rollback = s.rollback := by
  cases c with
  | gvtStep1 =>
      cases hs
      obtain ⟨n, b, heq, -⟩ := gvtStep1_frame (m := m) s
      rw [heq]
      exact ⟨⟨fun _ => rfl, rfl, rfl⟩, rfl⟩
  | gvtStep1Realtime =>
      cases hs
      obtain ⟨n, b, heq, -⟩ := gvtStep1Realtime_frame (m := m) s expired
      rw [heq]
      exact ⟨⟨fun _ => rfl, rfl, rfl⟩, rfl⟩
  | gvtStep2 =>
      cases hs
      split
      · exact ⟨⟨fun _ => rfl, rfl, rfl⟩, rfl⟩
      · exact ⟨⟨fun _ => rfl, rfl, rfl⟩, rfl⟩
  | gvtHookStep =>
      rcases gvtHookStep_ok hs with rfl | rfl | rfl | ⟨-, hs⟩
      · exact ⟨⟨fun _ => rfl, rfl, rfl⟩, rfl⟩
      · exact ⟨⟨fun _ => rfl, rfl, rfl⟩, rfl⟩
      · exact ⟨⟨fun _ => rfl, rfl, rfl⟩, rfl⟩
      · exact callHook hs
  | optimisticTail =>
      cases hs
      split
      · exact ⟨⟨fun _ => rfl, rfl, rfl⟩, rfl⟩
      · exact ⟨⟨fun _ => rfl, rfl, rfl⟩, rfl⟩
  | optimisticRealtimeTail =>
      cases hs
      split
      · exact ⟨⟨fun _ => rfl, rfl, rfl⟩, rfl⟩
      · exact ⟨⟨fun _ => rfl, rfl, rfl⟩, rfl⟩
  | conservativeTail =>
      cases hs
      split
      · exact ⟨⟨fun _ => rfl, rfl, rfl⟩, rfl⟩
      · exact ⟨⟨fun _ => rfl, rfl, rfl⟩, rfl⟩
  | initLp lp => cases hs; exact ⟨⟨fun _ => rfl, rfl, rfl⟩, rfl⟩
  | preRunLp lp => cases hs; exact ⟨⟨fun _ => rfl, rfl, rfl⟩, rfl⟩
  | netRead => cases hs; exact ⟨⟨fun _ => rfl, rfl, rfl⟩, rfl⟩
  | schedEventQ => cases hs; exact ⟨⟨fun _ => rfl, rfl, rfl⟩, rfl⟩
  | schedCancelQ => cases hs; exact ⟨⟨fun _ => rfl, rfl, rfl⟩, rfl⟩
  | gvtStep2AndHook => cases hs; exact ⟨⟨fun _ => rfl, rfl, rfl⟩, rfl⟩
  | schedBatch => cases hs; exact ⟨⟨fun _ => rfl, rfl, rfl⟩, rfl⟩
  | schedBatchRealtime => cases hs; exact ⟨⟨fun _ => rfl, rfl, rfl⟩, rfl⟩
  | conservativeBatch => cases hs; exact ⟨⟨fun _ => rfl, rfl, rfl⟩, rfl⟩
  | kpRollbackToSig kp toSig => cases hs; exact ⟨⟨fun _ => rfl, rfl, rfl⟩, rfl⟩
  | rollbackAndCancelEventsPe => cases hs; exact ⟨⟨fun _ => rfl, rfl, rfl⟩, rfl⟩
  | cleanupLoop => cases hs; exact ⟨⟨fun _ => rfl, rfl, rfl⟩, rfl⟩
  | gvtStatusOn => cases hs; exact ⟨⟨fun _ => rfl, rfl, rfl⟩, rfl⟩
  | cleanupTest => cases hs; exact ⟨⟨fun _ => rfl, rfl, rfl⟩, rfl⟩
  | hookReturn => cases hs; exact ⟨⟨fun _ => rfl, rfl, rfl⟩, rfl⟩
  | schedulerOptimistic => cases hs; exact ⟨⟨fun _ => rfl, rfl, rfl⟩, rfl⟩
  | schedulerOptimisticRealtime => cases hs; exact ⟨⟨fun _ => rfl, rfl, rfl⟩, rfl⟩
  | schedulerConservative => cases hs; exact ⟨⟨fun _ => rfl, rfl, rfl⟩, rfl⟩

omit [TwStime T] in
theorem reduceDone (s : Pe T S M R) (r : Reduction) (o : Outcome T) :
    KeepsProcessed s (s.reduceDone r o) ∧ (s.reduceDone r o).rollback = s.rollback := by
  cases o with
  | total white => exact ⟨⟨fun _ => rfl, rfl, rfl⟩, rfl⟩
  | gvt sig => exact ⟨⟨fun _ => rfl, rfl, rfl⟩, rfl⟩
  | flag b => exact ⟨⟨fun _ => rfl, rfl, rfl⟩, rfl⟩

theorem afterReduction {r : Reduction} {flag : Bool} (hs : s.afterReduction m r flag = .ok s') :
    KeepsProcessed s s' ∧ s'.rollback = s.rollback := by
  rcases afterReduction_ok hs with ⟨-, -, t, hcall⟩ | ⟨-, -, rfl⟩ | ⟨-, -, rfl⟩ | ⟨-, -, rfl⟩
  · obtain ⟨hk, hr⟩ := callHook hcall
    exact ⟨⟨hk.pevent, hk.fossil, hk.commits⟩, hr⟩
  · exact ⟨⟨fun _ => rfl, rfl, rfl⟩, rfl⟩
  · exact ⟨⟨fun _ => rfl, rfl, rfl⟩, rfl⟩
  · exact ⟨⟨fun _ => rfl, rfl, rfl⟩, rfl⟩

theorem hookStep {i : Input T M} (hs : s.hookStep i = .ok s') :
    KeepsProcessed s s' ∧ s'.rollback = s.rollback := by
  rcases hookStep_ok hs with ⟨-, -, t, rfl⟩ | ⟨-, rfl⟩ | ⟨-, rfl⟩
  · exact ⟨⟨fun _ => rfl, rfl, rfl⟩, rfl⟩
  · exact ⟨⟨fun _ => rfl, rfl, rfl⟩, rfl⟩
  · exact ⟨⟨fun _ => rfl, rfl, rfl⟩, rfl⟩

/-! ## One step -/

/-- A step of a function that neither counts nor collects and keeps the processed events. -/
theorem at_keeps {p : Phase T M} (hat : s.At p) (h : KeepsProcessed s s' ∧ s'.rollback = s.rollback)
    (hp : ∀ kind left lp, p ≠ .handler kind left lp [])
    (hc : ∀ kp children, p ≠ .fossilCollect kp children) : Flow m s s' :=
  inside hat hp hc h.1 (h.2.trans hat.2.1)

/-- What any step of the PE does to the processed events. -/
theorem of_step {i : Input T M}
    (hkind : ∀ left lp ops, s.phase ≠ .handler .conservative left lp ops)
    (hs : s.step m i = .ok s') : Flow m s s' := by
  have hturn := step_turn hs
  clear hs
  have hnet : ∀ {n : NetLoop}, s.net = n → n ≠ .off → s.net ≠ .off := fun hn hne h =>
    hne (hn.symm.trans h)
  cases hturn with
  | recv hn hp hs =>
      obtain ⟨hk, hr, hp⟩ := recvFinish hs
      exact net (hnet hn NetLoop.noConfusion) ⟨hk.pevent, hk.fossil, hk.commits⟩ hr hp
  | testRecvs hn hs =>
      subst hs
      exact net (hnet hn NetLoop.noConfusion) ⟨fun _ => rfl, rfl, rfl⟩ rfl rfl
  | sent hn he hs =>
      obtain ⟨hk, hr, hp⟩ := sendFinish hs
      exact net (hnet hn NetLoop.noConfusion) ⟨hk.pevent, hk.fossil, hk.commits⟩ hr hp
  | testSends hn hs =>
      subst hs
      exact net (hnet hn NetLoop.noConfusion) ⟨fun _ => rfl, rfl, rfl⟩ rfl rfl
  | recvBegin hn hs =>
      rcases recvBegin_ok hs with rfl | ⟨-, -, rfl⟩
      · exact net (hnet hn NetLoop.noConfusion) ⟨fun _ => rfl, rfl, rfl⟩ rfl rfl
      · exact net (hnet hn NetLoop.noConfusion) ⟨fun _ => rfl, rfl, rfl⟩ rfl rfl
  | sendBegin hn hs =>
      subst hs
      obtain ⟨hk, hr, hp⟩ := sendBegin m s _ _
      exact net (hnet hn NetLoop.noConfusion) hk hr hp
  | rollback hn hr hs => exact rollbackStep hn hr hs
  | call hat ht hs =>
      obtain ⟨hk, hr⟩ := call hs
      exact at_keeps hat ⟨⟨hk.pevent, hk.fossil, hk.commits⟩, hr⟩ nofun nofun
  | outerCall hat ht hs => exact at_keeps hat (call hs) nofun nofun
  | eventQ hat hs => exact at_keeps hat (schedEventQ hs) nofun nofun
  | eventQRollback hat hs =>
      obtain ⟨cev, rest, -, hs | ⟨-, rfl⟩⟩ := schedStraggler_ok hs
      · exact kpRollbackToSig hat nofun nofun hs
      · exact at_keeps hat ⟨⟨fun _ => rfl, rfl, rfl⟩, rfl⟩ nofun nofun
  | cancelQ hat hs => exact at_keeps hat (schedCancelQ hs) nofun nofun
  | cancelQRollback hat hs => exact kpRollbackEvent hat nofun nofun hs
  | rollbackToSig hat hs => exact kpRollbackToSig hat nofun nofun hs
  | rollbackToSigDone hat _ hs =>
      subst hs
      exact at_keeps hat ⟨⟨fun _ => rfl, rfl, rfl⟩, rfl⟩ nofun nofun
  | batch hat hs => exact at_keeps hat (batchStep hs) nofun nofun
  | handlerOp hat hs =>
      obtain ⟨hk, hr⟩ := handlerOp hs
      exact at_keeps hat ⟨⟨hk.pevent, hk.fossil, hk.commits⟩, hr⟩ (by rintro _ _ _ ⟨⟩) nofun
  | handlerReturn hat hc hs =>
      refine handlerReturn (fun hcons => ?_) hat hc hs
      rw [hcons] at hat
      exact hkind _ _ _ hat.2.2
  | initOp hat hs =>
      obtain ⟨hk, hr⟩ := handlerOp hs
      exact at_keeps hat ⟨⟨hk.pevent, hk.fossil, hk.commits⟩, hr⟩ nofun nofun
  | initReturn hat _ hs =>
      subst hs
      exact at_keeps hat ⟨⟨fun _ => rfl, rfl, rfl⟩, rfl⟩ nofun nofun
  | whiteLoop hat hs =>
      subst hs
      exact at_keeps hat ⟨⟨fun _ => rfl, rfl, rfl⟩, rfl⟩ nofun nofun
  | reduce hat hs =>
      subst hs
      exact at_keeps hat (reduceDone s _ _) nofun nofun
  | reduced hat hs => exact at_keeps hat (afterReduction hs) nofun nofun
  | gvtStore hat hs =>
      obtain ⟨-, n, rfl⟩ := gvtStore_ok hs
      exact at_keeps hat ⟨⟨fun _ => rfl, rfl, rfl⟩, rfl⟩ nofun nofun
  | fossil hat hs => exact fossilStep hat hs
  | hook hat hs => exact at_keeps hat (hookStep hs) nofun nofun

end Flow

theorem cutPevent_fossil (s : Pe T S M R) (kp : Nat) :
    (s.cutPevent kp).queue .fossil = (fossilCut s.gvtSig (s.queue (.peventQ kp))).2 := by
  simp [cutPevent]

/-! ## The balance -/

/-- How many events of the list are for LPs of the KP. -/
def ofKp (m : SimModel T S M R) (kp : Nat) (l : List (TwEvent T)) : Nat :=
  l.countP fun e => decide (m.kpOf e.destLp = kp)

section OfKp

variable {kp : Nat} {e : TwEvent T} {l : List (TwEvent T)}

section

omit [TwStime T]

@[simp] theorem ofKp_nil : ofKp m kp [] = 0 := rfl

theorem ofKp_cons : ofKp m kp (e :: l) = ofKp m kp l + if m.kpOf e.destLp = kp then 1 else 0 := by
  unfold ofKp
  rw [List.countP_cons]
  simp only [decide_eq_true_eq]

theorem ofKp_append (l₁ l₂ : List (TwEvent T)) :
    ofKp m kp (l₁ ++ l₂) = ofKp m kp l₁ + ofKp m kp l₂ := List.countP_append

/-- A list of events of one KP. -/
theorem ofKp_eq_length {k : Nat} (h : ∀ p ∈ l, m.kpOf p.destLp = k) :
    ofKp m kp l = if k = kp then l.length else 0 := by
  unfold ofKp
  split
  next hk =>
    refine List.countP_eq_length.mpr fun p hp => ?_
    exact decide_eq_true ((h p hp).trans hk)
  next hk =>
    refine List.countP_eq_zero.mpr fun p hp heq => ?_
    exact hk ((h p hp).symm.trans (of_decide_eq_true heq))

end

theorem ofKp_erase (he : e ∈ l) :
    ofKp m kp l = ofKp m kp (l.erase e) + if m.kpOf e.destLp = kp then 1 else 0 := by
  rw [← ofKp_cons]
  exact (List.perm_cons_erase he).countP_eq _

end OfKp

/-- The events counted by each KP are those it counted as rolled back, its processed events,
those cut off and those committed of them, and the one whose rollback is in progress. -/
structure Balanced (m : SimModel T S M R) (s : Pe T S M R) (c : EventCounts) : Prop where
  kp : ∀ k, ∀ p ∈ s.queue (.peventQ k), m.kpOf p.destLp = k
  fossil : s.Collecting ∨ s.queue .fossil = []
  count : ∀ k, c.sNeventProcessed k = c.sERbs k + (s.queue (.peventQ k)).length +
    ofKp m k (s.queue .fossil) + ofKp m k s.commits + ofKp m k s.undoing.toList

theorem process_at (c : EventCounts) (kp n k : Nat) :
    (c.process kp n).sNeventProcessed k = c.sNeventProcessed k + if kp = k then n else 0 := by
  unfold EventCounts.process
  by_cases hk : kp = k
  · rw [hk, if_pos rfl]
    exact Function.update_self _ _ _
  · rw [if_neg hk]
    exact Function.update_of_ne (Ne.symm hk) _ _

theorem rollBack_at (c : EventCounts) (kp k : Nat) :
    (c.rollBack kp).sERbs k = c.sERbs k + if kp = k then 1 else 0 := by
  unfold EventCounts.rollBack
  by_cases hk : kp = k
  · rw [hk, if_pos rfl]
    exact Function.update_self _ _ _
  · rw [if_neg hk]
    exact Function.update_of_ne (Ne.symm hk) _ _

namespace Balanced

variable {s s' : Pe T S M R} {c : EventCounts}

theorem start (m : SimModel T S M R) (id : Nat) (program : List (Call T)) :
    Balanced m (Pe.start m id program) .zero :=
  ⟨fun _ _ hp => absurd hp List.not_mem_nil, .inr rfl, fun _ => rfl⟩

section

omit [TwStime T]

/-- Only fossil collection has events that it has cut off. -/
theorem fossil_nil (h : Balanced m s c) (hc : ¬ s.Collecting) : s.queue .fossil = [] :=
  h.fossil.resolve_left hc

theorem not_collecting_of_undoing {e : TwEvent T} (hu : s.undoing = some e) : ¬ s.Collecting := by
  intro hcol
  unfold undoing at hu
  rw [hcol.1] at hu
  cases hu

theorem not_collecting_of_handler {kind : BatchKind} {left lp : Nat} {ops : List (HandlerOp T M)}
    (hp : s.phase = .handler kind left lp ops) : ¬ s.Collecting := by
  rintro ⟨-, kp, children, hphase⟩
  cases hp.symm.trans hphase

/-- The processed events of a KP after one more joined them. -/
theorem length_cons {kp k : Nat} {e : TwEvent T} (q : QueueId → List (TwEvent T)) :
    (Pool.cons q (.peventQ kp) e (.peventQ k)).length =
      (q (.peventQ k)).length + if kp = k then 1 else 0 := by
  by_cases hk : kp = k
  · rw [hk, Pool.cons_self, if_pos rfl, List.length_cons]
  · have hne : QueueId.peventQ k ≠ .peventQ kp := fun heq => hk (QueueId.peventQ.inj heq).symm
    rw [Pool.cons_of_ne hne, if_neg hk]
    rfl

theorem keep (h : Balanced m s c) (hk : KeepsProcessed s s') (hu : s'.undoing = s.undoing)
    (hcol : s.Collecting → s'.Collecting ∨ s.queue .fossil = []) : Balanced m s' c := by
  refine ⟨?_, ?_, ?_⟩
  · intro k p hp
    rw [hk.pevent] at hp
    exact h.kp k p hp
  · rw [hk.fossil]
    rcases h.fossil with hf | hf
    · exact hcol hf
    · exact .inr hf
  · intro k
    rw [hk.pevent, hk.fossil, hk.commits, hu]
    exact h.count k

end

theorem step (h : Balanced m s c) (hs : Flow m s s') : Balanced m s' (s.countEvents m c) := by
  cases hs with
  | keep hc hk hu hcol =>
      rw [hc]
      exact h.keep hk hu hcol
  | @processed kind left lp cev hc hp hu hu' hq hf hcom =>
      have hnil := h.fossil_nil (not_collecting_of_handler hp)
      rw [hc]
      refine ⟨?_, .inr (hf.trans hnil), ?_⟩
      · intro k p hpk
        rw [hq] at hpk
        rcases Pool.mem_cons.mp hpk with ⟨hk, rfl⟩ | hold
        · exact (QueueId.peventQ.inj hk).symm
        · exact h.kp k p hold
      · intro k
        have hcount := h.count k
        rw [hu] at hcount
        rw [process_at, hq, length_cons, hf, hcom, hu']
        show _ = c.sERbs k + _ + _ + _ + _
        omega
  | @aborted kind left lp cev hc hp hu hu' hk =>
      have hnil := h.fossil_nil (not_collecting_of_handler hp)
      rw [hc]
      refine ⟨?_, .inr (hk.fossil.trans hnil), ?_⟩
      · intro k p hpk
        rw [hk.pevent] at hpk
        exact h.kp k p hpk
      · intro k
        have hcount := h.count k
        rw [hu, Option.toList_none, ofKp_nil] at hcount
        rw [process_at, hk.pevent, hk.fossil, hk.commits, hu', Option.toList_some, ofKp_cons,
          ofKp_nil]
        show _ = c.sERbs k + _ + _ + _ + _
        omega
  | @undo kp e rest hc hcol hu hu' hcons hq hf hcom =>
      have hnil := h.fossil_nil hcol
      have he : m.kpOf e.destLp = kp := h.kp kp e (hcons ▸ List.mem_cons_self)
      rw [hc]
      refine ⟨?_, .inr (hf.trans hnil), ?_⟩
      · intro k p hpk
        rw [hq] at hpk
        rcases Pool.mem_update.mp hpk with ⟨hk, hmem⟩ | ⟨-, hold⟩
        · have hk : k = kp := QueueId.peventQ.inj hk
          rw [hk]
          exact h.kp kp p (hcons ▸ List.mem_cons_of_mem e hmem)
        · exact h.kp k p hold
      · intro k
        have hcount := h.count k
        rw [hu, Option.toList_none, ofKp_nil] at hcount
        rw [hq, hf, hcom, hu', Option.toList_some, ofKp_cons, ofKp_nil, he]
        by_cases hk : kp = k
        · rw [← hk, hcons, List.length_cons] at hcount
          rw [← hk, Function.update_self, if_pos rfl]
          omega
        · have hne : QueueId.peventQ k ≠ .peventQ kp := fun heq =>
            hk (QueueId.peventQ.inj heq).symm
          rw [Function.update_of_ne hne, if_neg hk]
          omega
  | @undone e hc hu hu' hk =>
      have hnil := h.fossil_nil (not_collecting_of_undoing hu)
      rw [hc]
      refine ⟨?_, .inr (hk.fossil.trans hnil), ?_⟩
      · intro k p hpk
        rw [hk.pevent] at hpk
        exact h.kp k p hpk
      · intro k
        have hcount := h.count k
        rw [hu, Option.toList_some, ofKp_cons, ofKp_nil] at hcount
        rw [rollBack_at, hk.pevent, hk.fossil, hk.commits, hu', Option.toList_none, ofKp_nil]
        show c.sNeventProcessed k = _
        omega
  | @cut kp children hc hp hu hnil hs =>
      rw [hc]
      subst hs
      have hcol : ({ s.cutPevent kp with phase := .fossilCollect (kp + 1) [] } :
          Pe T S M R).Collecting := by
        refine ⟨?_, kp + 1, [], rfl⟩
        exact Option.map_eq_none_iff.mp hu
      have hmem : ∀ p ∈ s.queue (.peventQ kp), m.kpOf p.destLp = kp := h.kp kp
      rw [← fossilCut_append s.gvtSig (s.queue (.peventQ kp))] at hmem
      refine ⟨?_, .inl hcol, ?_⟩
      · intro k p hpk
        by_cases hk : k = kp
        · rw [hk]
          rw [hk] at hpk
          refine hmem p (List.mem_append_left _ ?_)
          rw [← cutPevent_self]
          exact hpk
        · refine h.kp k p ?_
          rw [← cutPevent_of_ne s hk]
          exact hpk
      · intro k
        have hcount := h.count k
        have hlen : ofKp m k (fossilCut s.gvtSig (s.queue (.peventQ kp))).2 =
            if kp = k then (fossilCut s.gvtSig (s.queue (.peventQ kp))).2.length else 0 :=
          ofKp_eq_length fun p hp => hmem p (List.mem_append_right _ hp)
        rw [hnil, ofKp_nil] at hcount
        show _ = c.sERbs k + ((s.cutPevent kp).queue (.peventQ k)).length +
          ofKp m k ((s.cutPevent kp).queue .fossil) + ofKp m k s.commits + ofKp m k s.undoing.toList
        rw [cutPevent_fossil, hlen]
        by_cases hk : kp = k
        · rw [← hk, ← fossilCut_append s.gvtSig (s.queue (.peventQ kp)), List.length_append]
            at hcount
          rw [← hk, cutPevent_self, if_pos rfl]
          omega
        · rw [cutPevent_of_ne s (Ne.symm hk), if_neg hk]
          omega
  | @commit e hc hu hcol hmem hq hf hcom =>
      rw [hc]
      refine ⟨?_, .inl hcol, ?_⟩
      · intro k p hpk
        rw [hq] at hpk
        exact h.kp k p hpk
      · intro k
        have hcount := h.count k
        have hu' : s'.undoing = none := by
          unfold undoing
          rw [hcol.1]
          rfl
        rw [hu, ofKp_erase hmem] at hcount
        rw [hq, hf, hcom, hu', ofKp_append, ofKp_cons, ofKp_nil]
        omega

end Balanced

end Ross.Pe

import Ross.Lib.StagedProgram
import Ross.Proofs.GvtFloor
import Ross.Proofs.HookTrigger
import Ross.Proofs.KpOrder

/-!
# A PE between two values of GVT

`tw_gvt_step2` runs after `tw_sched_event_q` and `tw_sched_cancel_q` in each turn of an optimistic
scheduler and of `tw_scheduler_rollback_and_cancel_events_pe`, so that a PE that computes GVT has
nothing in `event_q` and `cancel_q` that `trans_msg_sig` does not bound.
-/

namespace Ross

open StagedProgram

variable {T S M R : Type} [TwStime T]

/-! ## The stages of a turn -/

/-- How far the queues of a PE are emptied in a turn: not while the LPs are initialised and not in
a batch; `event_q`; `event_q` and `cancel_q`; and the rollbacks that
`tw_scheduler_rollback_and_cancel_events_pe` starts with. -/
inductive Drain
  | start
  | batch
  | events
  | cancels
  | rolling

/-- The stage after a call of the optimistic schedulers, where the call may be made. -/
def Drain.next : Drain → Call T → Option Drain
  | st, .netRead => some st
  | .start, .initLp _ => some .start
  | .start, .preRunLp _ => some .start
  | .start, .schedulerOptimistic => some .batch
  | .start, .schedulerOptimisticRealtime => some .batch
  | .batch, .schedulerOptimistic => some .batch
  | .batch, .schedulerOptimisticRealtime => some .batch
  | .batch, .gvtStep1 => some .batch
  | .batch, .gvtStep1Realtime => some .batch
  | .batch, .gvtStatusOn => some .batch
  | .batch, .gvtHookStep => some .batch
  | .batch, .rollbackAndCancelEventsPe => some .batch
  | .batch, .cleanupLoop => some .batch
  | .batch, .cleanupTest => some .batch
  | .batch, .hookReturn => some .batch
  | .batch, .optimisticTail => some .batch
  | .batch, .optimisticRealtimeTail => some .batch
  | .batch, .schedBatch => some .batch
  | .batch, .schedBatchRealtime => some .batch
  | .batch, .schedEventQ => some .events
  | .events, .schedCancelQ => some .cancels
  | .cancels, .gvtStep2 => some .batch
  | .cancels, .gvtStep2AndHook => some .batch
  | .rolling, .kpRollbackToSig _ _ => some .rolling
  | .rolling, .cleanupLoop => some .batch
  | _, _ => none

/-- The rest of the program fits the stage. -/
abbrev Drain.Admits (st : Drain) (todo : List (Call T)) : Prop :=
  StagedProgram.Admits Drain.next st todo

omit [TwStime T] in
theorem Drain.admits_readCall (m : SimModel T S M R) {st : Drain} {cs : List (Call T)}
    (h : st.Admits cs) : st.Admits (Pe.readCall m ++ cs) := by
  apply Admits.append_of_keep _ h
  intro c hc
  rw [Pe.eq_netRead_of_mem hc]
  cases st <;> rfl

/-! ## What holds at a stage -/

/-- A signature to which a KP is rolled back. -/
def TwEventSig.Reaches (m : SimModel T S M R) (low sig : TwEventSig T) : Prop :=
  low ≤ sig ∨ m.tsEnd ≤ sig.recvTs

/-- GVT is the floor, or both are past the end of time. -/
def TwEventSig.Stands (m : SimModel T S M R) (low gvt : TwEventSig T) : Prop :=
  gvt = low ∨ m.tsEnd ≤ gvt.recvTs ∧ m.tsEnd ≤ low.recvTs ∧ gvt ≤ maxSig

/-- What is known of a PE at a stage. -/
def Drain.Holds (m : SimModel T S M R) (low : TwEventSig T) (s : Pe T S M R) : Drain → Prop
  | .start => s.gvtSig = zeroSig ∧ ∀ kp, s.lastSig kp = zeroSig
  | .batch => True
  | .events => s.gvtCompute = true → s.stock.EventsFlushed
  | .cancels => s.gvtCompute = true → s.stock.EventsFlushed ∧ s.stock.CancelsFlushed
  | .rolling => ∀ kp sig, .kpRollbackToSig kp sig ∈ s.todo → TwEventSig.Reaches m low sig

namespace Pe

/-- The events that a handler has created and not sent are over the floor, and not below the
current event. -/
def HandlesAbove (low : TwEventSig T) (s : Pe T S M R) : Prop :=
  ∀ e msg, .buffer e msg ∈ s.handles → low ≤ e.sig ∧ ∀ cev, s.curEvent = some cev → cev.sig ≤ e.sig

/-- The event that `tw_sched_cancel_q` rolls back is over the floor and processed, or about to be
freed. -/
def Targets (m : SimModel T S M R) (low : TwEventSig T) (s : Pe T S M R) (t : TwEvent T) : Prop :=
  low ≤ t.sig ∧ ((∃ r, s.rollback = some r ∧ r.after = .freeReset) ∨
    t ∈ s.queue (.peventQ (m.kpOf t.destLp)))

/-- A PE that computes GVT has emptied its queues. -/
def Flushed (s : Pe T S M R) : Prop :=
  s.gvtCompute = true ∧ s.stock.EventsFlushed ∧ s.stock.CancelsFlushed

end Pe

/-- What is known of a PE in a phase. -/
def Phase.Fits (m : SimModel T S M R) (low : TwEventSig T) (s : Pe T S M R) : Phase T M → Prop
  | .idle => ∃ st : Drain, st.Holds m low s ∧ st.Admits s.todo
  | .eventQ => Drain.events.Admits s.todo
  | .eventQRollback => Drain.events.Admits s.todo
  | .cancelQ => Drain.events.Holds m low s ∧ Drain.cancels.Admits s.todo
  | .cancelQRollback t =>
      s.Targets m low t ∧ Drain.events.Holds m low s ∧ Drain.cancels.Admits s.todo
  | .rollbackToSig _ sig =>
      TwEventSig.Reaches m low sig ∧ Drain.rolling.Holds m low s ∧ Drain.rolling.Admits s.todo
  | .handler _ _ lp _ =>
      (low ≤ s.lastSig (m.kpOf lp) ∧ (s.lastSig (m.kpOf lp)).recvTs < m.tsEnd) ∧
        s.HandlesAbove low ∧ Drain.batch.Admits s.todo
  | .lpInit _ _ =>
      s.curEvent = none ∧ s.HandlesAbove low ∧ Drain.start.Holds m low s ∧
        Drain.start.Admits s.todo
  | .whiteLoop => s.Flushed ∧ Drain.batch.Admits s.todo
  | .reduce .white => s.Flushed ∧ Drain.batch.Admits s.todo
  | .reduce .lvt => s.Flushed ∧ Drain.batch.Admits s.todo
  | .gvtStore gvt => (low = min gvt maxSig ∧ s.gvtSig ≤ low) ∧ Drain.batch.Admits s.todo
  | .reduce .hookAll =>
      (m.gvtHook = true ∧ s.trigger.status = .timestamp) ∧ Drain.batch.Admits s.todo
  | .reduced .hookAll _ =>
      (m.gvtHook = true ∧ s.trigger.status = .timestamp) ∧ Drain.batch.Admits s.todo
  | _ => Drain.batch.Admits s.todo

/-- The rollbacks that a phase starts. -/
def Phase.Undoes : Phase T M → RollbackAfter → Prop
  | .eventQRollback, after => after = .requeueReset
  | .cancelQRollback _, after => after = .requeue ∨ after = .freeReset
  | .rollbackToSig _ _, after => after = .requeueReset
  | .handler _ _ _ _, after => ∃ kind, after = .abort kind
  | _, _ => False

omit [TwStime T] in
theorem Phase.Undoes.cases {p : Phase T M} {after : RollbackAfter} (h : p.Undoes after) :
    (after = .requeueReset ∧ (p = .eventQRollback ∨ ∃ kp sig, p = .rollbackToSig kp sig)) ∨
      ((after = .requeue ∨ after = .freeReset) ∧ ∃ t, p = .cancelQRollback t) ∨
      ∃ kind, after = .abort kind ∧ ∃ k left lp ops, p = .handler k left lp ops := by
  cases p with
  | eventQRollback => exact .inl ⟨h, .inl rfl⟩
  | rollbackToSig kp sig => exact .inl ⟨h, .inr ⟨kp, sig, rfl⟩⟩
  | cancelQRollback t => exact .inr (.inl ⟨h, t, rfl⟩)
  | handler k left lp ops =>
      obtain ⟨kind, hkind⟩ := h
      exact .inr (.inr ⟨kind, hkind, k, left, lp, ops, rfl⟩)
  | _ => exact h.elim

/-- Where a PE is while GVT is `low`. -/
structure Course (m : SimModel T S M R) (low : TwEventSig T) (s : Pe T S M R) : Prop where
  fits : s.phase.Fits m low s
  rolls : ∀ r, s.rollback = some r → s.phase.Undoes r.after
  gvt : (∀ gvt, s.phase ≠ .gvtStore gvt) → TwEventSig.Stands m low s.gvtSig
  trigger : m.gvtHook = true → s.trigger.status ≠ .disabled →
    TwEventSig.Bounds m low s.trigger.sigAt

/-! ## Steps inside of a phase -/

/-- What joins the queues while GVT is computed lowers `trans_msg_sig`. -/
def Pe.KeepsFlushed (s s' : Pe T S M R) : Prop :=
  s.gvtCompute = true → (s.stock.EventsFlushed → s'.stock.EventsFlushed) ∧
    (s.stock.CancelsFlushed → s'.stock.CancelsFlushed)

/-- What a step of the network, or the cancellation of a child, leaves alone. -/
structure Pe.Keeps (s s' : Pe T S M R) : Prop where
  phase : s'.phase = s.phase
  todo : s'.todo = s.todo
  trigger : s'.trigger = s.trigger
  gvtSig : s'.gvtSig = s.gvtSig
  lastSig : s'.lastSig = s.lastSig
  curEvent : s'.curEvent = s.curEvent
  handles : s'.handles = s.handles
  gvtCompute : s'.gvtCompute = s.gvtCompute
  rollback : s'.rollback.map Rollback.after = s.rollback.map Rollback.after
  pevent : ∀ k, s'.queue (.peventQ k) = s.queue (.peventQ k)

section Keeping

variable {m : SimModel T S M R} {s s' : Pe T S M R} {low : TwEventSig T}

theorem Drain.Holds.keep {st : Drain} (h : st.Holds m low s) (hgvt : s'.gvtSig = s.gvtSig)
    (hlast : s'.lastSig = s.lastSig) (htodo : s'.todo = s.todo)
    (hg : s'.gvtCompute = s.gvtCompute) (hf : s.KeepsFlushed s') : st.Holds m low s' := by
  cases st with
  | start =>
      obtain ⟨hzero, hlast'⟩ := h
      exact ⟨hgvt.trans hzero, fun kp => by rw [hlast, hlast' kp]⟩
  | batch => trivial
  | events =>
      intro hc
      rw [hg] at hc
      exact (hf hc).1 (h hc)
  | cancels =>
      intro hc
      rw [hg] at hc
      obtain ⟨he, hcancel⟩ := h hc
      exact ⟨(hf hc).1 he, (hf hc).2 hcancel⟩
  | rolling =>
      intro kp sig hmem
      rw [htodo] at hmem
      exact h kp sig hmem

theorem Pe.Flushed.keep (h : s.Flushed) (hg : s'.gvtCompute = s.gvtCompute)
    (hf : s.KeepsFlushed s') : s'.Flushed := by
  obtain ⟨hc, he, hcancel⟩ := h
  exact ⟨hg.trans hc, (hf hc).1 he, (hf hc).2 hcancel⟩

theorem Phase.Fits.keep {p : Phase T M} (h : p.Fits m low s) (hk : s.Keeps s')
    (hf : s.KeepsFlushed s') : p.Fits m low s' := by
  have htodo := hk.todo
  have drain : ∀ {st : Drain}, st.Holds m low s → st.Holds m low s' := fun hst =>
    hst.keep hk.gvtSig hk.lastSig htodo hk.gvtCompute hf
  have admits : ∀ {st : Drain}, st.Admits s.todo → st.Admits s'.todo := fun hst => by
    rw [htodo]
    exact hst
  have handles : s.HandlesAbove low → s'.HandlesAbove low := by
    unfold Pe.HandlesAbove
    rw [hk.handles, hk.curEvent]
    exact id
  cases p with
  | idle =>
      obtain ⟨st, hst, had⟩ := h
      exact ⟨st, drain hst, admits had⟩
  | eventQ => exact admits h
  | eventQRollback => exact admits h
  | cancelQ => exact ⟨drain h.1, admits h.2⟩
  | cancelQRollback t =>
      obtain ⟨⟨hlow, htarget⟩, hst, had⟩ := h
      refine ⟨⟨hlow, ?_⟩, drain hst, admits had⟩
      rcases htarget with ⟨r, hr, hafter⟩ | hmem
      · have hmap := hk.rollback
        rw [hr, Option.map_some, Option.map_eq_some_iff] at hmap
        obtain ⟨r', hr', heq⟩ := hmap
        exact .inl ⟨r', hr', heq.trans hafter⟩
      · right
        rw [hk.pevent]
        exact hmem
  | rollbackToSig kp sig => exact ⟨h.1, drain h.2.1, admits h.2.2⟩
  | batch kind left => exact admits h
  | handler kind left lp ops =>
      obtain ⟨hlast, hh, had⟩ := h
      refine ⟨?_, handles hh, admits had⟩
      rw [hk.lastSig]
      exact hlast
  | lpInit lp ops =>
      obtain ⟨hcur, hh, hst, had⟩ := h
      exact ⟨hk.curEvent.trans hcur, handles hh, drain hst, admits had⟩
  | whiteLoop => exact ⟨h.1.keep hk.gvtCompute hf, admits h.2⟩
  | gvtStore gvt =>
      obtain ⟨⟨hlow, hle⟩, had⟩ := h
      exact ⟨⟨hlow, hk.gvtSig ▸ hle⟩, admits had⟩
  | fossilCollect kp children => exact admits h
  | inHook => exact admits h
  | reduce r =>
      cases r with
      | white => exact ⟨h.1.keep hk.gvtCompute hf, admits h.2⟩
      | lvt => exact ⟨h.1.keep hk.gvtCompute hf, admits h.2⟩
      | hookAll =>
          refine ⟨?_, admits h.2⟩
          rw [hk.trigger]
          exact h.1
      | hookAny => exact admits h
      | cleanupCancel => exact admits h
      | cleanupEvent => exact admits h
  | reduced r flag =>
      cases r with
      | hookAll =>
          refine ⟨?_, admits h.2⟩
          rw [hk.trigger]
          exact h.1
      | white => exact admits h
      | lvt => exact admits h
      | hookAny => exact admits h
      | cleanupCancel => exact admits h
      | cleanupEvent => exact admits h

namespace Course

theorem keep (h : Course m low s) (hk : s.Keeps s') (hf : s.KeepsFlushed s') :
    Course m low s' where
  fits := by
    rw [hk.phase]
    exact h.fits.keep hk hf
  rolls r hr := by
    have hmap := hk.rollback
    rw [hr, Option.map_some, eq_comm, Option.map_eq_some_iff] at hmap
    obtain ⟨r', hr', heq⟩ := hmap
    rw [hk.phase, ← heq]
    exact h.rolls r' hr'
  gvt hp := by
    rw [hk.gvtSig]
    apply h.gvt
    rwa [← hk.phase]
  trigger := by
    rw [hk.trigger]
    exact h.trigger

theorem fits_at {p : Phase T M} (h : Course m low s) (hat : s.At p) : p.Fits m low s :=
  hat.2.2 ▸ h.fits

theorem gvt_at {p : Phase T M} (h : Course m low s) (hat : s.At p)
    (hp : ∀ gvt, p ≠ .gvtStore gvt) : TwEventSig.Stands m low s.gvtSig :=
  h.gvt fun gvt hg => hp gvt (hat.2.2.symm.trans hg)

/-- A step to another phase that leaves GVT and the trigger alone. -/
theorem goto {p : Phase T M} (h : Course m low s) (hat : s.At p) (hp : ∀ gvt, p ≠ .gvtStore gvt)
    (hfits : s'.phase.Fits m low s') (hr : s'.rollback = none) (hgvt : s'.gvtSig = s.gvtSig)
    (htrigger : s'.trigger = s.trigger) : Course m low s' where
  fits := hfits
  rolls r hr' := absurd (hr.symm.trans hr') (by simp)
  gvt _ := by
    rw [hgvt]
    exact h.gvt_at hat hp
  trigger := by
    rw [htrigger]
    exact h.trigger

end Course

end Keeping

/-! ## Signatures -/

section Signatures

variable {m : SimModel T S M R} {low sig : TwEventSig T}

theorem TwEventSig.Bounds.max (hmax : low ≤ maxSig) : TwEventSig.Bounds m low maxSig :=
  ⟨hmax, .inl rfl⟩

/-- Past the end of time nothing bounds the messages in transit. -/
theorem TwEventSig.Bounds.eq_max (h : TwEventSig.Bounds m low sig)
    (hend : m.tsEnd ≤ low.recvTs) : sig = maxSig := by
  refine h.2.resolve_right fun hlt => ?_
  exact (hend.trans (TwEventSig.recvTs_le_of_le h.1)).not_gt hlt

theorem TwEventSig.Stands.end_le (h : TwEventSig.Stands m low sig)
    (hend : m.tsEnd ≤ sig.recvTs) : m.tsEnd ≤ low.recvTs := by
  rcases h with rfl | ⟨-, hlow, -⟩
  · exact hend
  · exact hlow

theorem TwEventSig.Stands.reaches (h : TwEventSig.Stands m low sig) :
    TwEventSig.Reaches m low sig :=
  h.imp ge_of_eq fun hend => hend.1

/-- An event to which a rollback goes is over the floor. -/
theorem TwEventSig.Reaches.le {e : TwEvent T} (h : TwEventSig.Reaches m low sig)
    (hle : sig ≤ e.sig) (he : e.InTime m) : low ≤ e.sig := by
  rcases h with hlow | hend
  · exact hlow.trans hle
  · exact absurd (hend.trans (TwEventSig.recvTs_le_of_le hle)) (not_le.mpr he)

theorem TwEventSig.Stands.le_of_end (h : TwEventSig.Stands m low sig)
    {other : TwEventSig T} (hle : sig ≤ other) (hend : other.recvTs < m.tsEnd) : low ≤ other := by
  rcases h with rfl | ⟨hgvt, -, -⟩
  · exact hle
  · exact absurd (hgvt.trans (TwEventSig.recvTs_le_of_le hle)) (not_le.mpr hend)

end Signatures

/-! ## Rollbacks -/

section Rollbacks

variable {m : SimModel T S M R} {s s' : Pe T S M R} {low : TwEventSig T}

theorem Pe.runRevent_trigger_cases (s : Pe T S M R) (event : TwEvent T) :
    (s.runRevent m event).trigger = s.trigger ∨
      (s.runRevent m event).trigger = { s.trigger with sigAt := maxSig } := by
  rw [runRevent_trigger]
  split
  · exact .inl rfl
  · exact .inr rfl

/-- The reverse handler may take a request for the hook back. -/
theorem Pe.twEventRollback_trigger (s : Pe T S M R) (event : TwEvent T) (after : RollbackAfter) :
    (s.twEventRollback m event after).trigger = s.trigger ∨
      (s.twEventRollback m event after).trigger = { s.trigger with sigAt := maxSig } := by
  have hun : ∀ t : Pe T S M R, (t.unprocess m event).trigger = t.trigger ∨
      (t.unprocess m event).trigger = { t.trigger with sigAt := maxSig } := by
    intro t
    unfold unprocess
    dsimp only
    split
    · split
      · exact runRevent_trigger_cases _ event
      · exact .inl rfl
    · split
      · exact .inl rfl
      · exact runRevent_trigger_cases t event
  exact hun _

namespace Course

/-- The rollback of an event starts. -/
theorem undo {p : Phase T M} {t : Pe T S M R} {e : TwEvent T} {after : RollbackAfter}
    (h : Course m low s) (hat : s.At p) (hp : ∀ gvt, p ≠ .gvtStore gvt) (hmax : low ≤ maxSig)
    (hphase : t.phase = s.phase) (htrigger : t.trigger = s.trigger)
    (hgvt : t.gvtSig = s.gvtSig) (hu : p.Undoes after)
    (hfits : p.Fits m low (t.twEventRollback m e after)) :
    Course m low (t.twEventRollback m e after) := by
  obtain ⟨l, cv, msg, g, heq⟩ := Pe.twEventRollback_frame m t e after
  have hcontrol : (t.twEventRollback m e after).phase = p ∧
      (t.twEventRollback m e after).gvtSig = s.gvtSig ∧
      (t.twEventRollback m e after).rollback = some ⟨e, (t.ev e).causedByMe, after⟩ := by
    rw [heq]
    exact ⟨hphase.trans hat.2.2, hgvt, rfl⟩
  obtain ⟨hphase', hgvt', hr'⟩ := hcontrol
  refine ⟨by rwa [hphase'], fun r hr => ?_, fun _ => ?_, fun hg hst => ?_⟩
  · rw [hr'] at hr
    cases hr
    rw [hphase']
    exact hu
  · rw [hgvt']
    exact h.gvt_at hat hp
  · rcases t.twEventRollback_trigger (m := m) e after with ht | ht
    · rw [ht, htrigger] at hst ⊢
      exact h.trigger hg hst
    · rw [ht]
      exact .max hmax

/-- The rollback of an event ends. -/
theorem rollbackEnd {r : Rollback T} (h : Course m low s) (hr : s.rollback = some r)
    (hp : ∀ gvt, s.phase ≠ .gvtStore gvt)
    (hf : s.KeepsFlushed ((s.rollbackEnd m r.event).afterRollback m r.event r.after)) :
    Course m low ((s.rollbackEnd m r.event).afterRollback m r.event r.after) := by
  have hu := h.rolls r hr
  have hfits := h.fits
  have back : ∀ t : Pe T S M R, t.rollback = none → t.gvtSig = s.gvtSig →
      t.trigger = s.trigger → t.phase.Fits m low t → Course m low t := fun t hr' hgvt ht hfits =>
    ⟨hfits, fun _ hr'' => absurd (hr'.symm.trans hr'') (by simp), fun _ => hgvt ▸ h.gvt hp,
      ht ▸ h.trigger⟩
  rw [Pe.afterRollback_eq] at hf ⊢
  rcases hu.cases with ⟨hafter, hphase⟩ | ⟨hafter, t, hphase⟩ |
    ⟨kind, hafter, k, left, lp, ops, hphase⟩
  · rw [hafter] at hf ⊢
    refine back _ rfl rfl rfl ?_
    show s.phase.Fits m low _
    rcases hphase with hphase | ⟨kp, sig, hphase⟩
    · rw [hphase] at hfits ⊢
      exact hfits
    · rw [hphase] at hfits ⊢
      exact hfits
  · rw [hphase] at hfits
    obtain ⟨⟨hlow, htarget⟩, hst, had⟩ := hfits
    rcases hafter with hafter | hafter
    · rw [hafter] at hf ⊢
      refine back _ rfl rfl rfl ?_
      show s.phase.Fits m low _
      rw [hphase]
      refine ⟨⟨hlow, .inr ?_⟩, hst.keep rfl rfl rfl rfl hf, had⟩
      refine htarget.resolve_left ?_
      rintro ⟨r', hr', hfree⟩
      rw [hr] at hr'
      cases hr'
      rw [hafter] at hfree
      cases hfree
    · rw [hafter] at hf ⊢
      exact back _ rfl rfl rfl ⟨fun hc => (hf hc).1 (hst hc), had⟩
  · rw [hafter] at hf ⊢
    rw [hphase] at hfits
    exact back _ rfl rfl rfl ⟨.batch, trivial, hfits.2.2⟩

end Course

end Rollbacks

end Ross

import Ross.Proofs.EventsInTime
import Ross.Proofs.NetBalance
import Ross.Proofs.OptimismWindow

/-!
# The end of an optimistic run

An optimistic scheduler stops when GVT is past the end of time.  Fossil collection has then
committed every processed event, and no batch has run since.
-/

namespace Ross

open Transition

variable {T S M R : Type} [TwStime T] {m : SimModel T S M R}

/-- A step that does not end a handler leaves a KP without processed events as it is. -/
theorem Pe.Flow.nil {s s' : Pe T S M R} (h : Flow m s s')
    (hp : s.rollback = none → ∀ kind left lp, s.phase ≠ .handler kind left lp []) {k : Nat}
    (hk : s.queue (.peventQ k) = []) : s'.queue (.peventQ k) = [] := by
  cases h with
  | keep hc hkeep hu hcol => exact (hkeep.pevent k).trans hk
  | processed hc hphase hu =>
      exact absurd hphase (hp (Option.map_eq_none_iff.mp hu) _ _ _)
  | aborted hc hphase hu hu' hkeep => exact (hkeep.pevent k).trans hk
  | @undo kp e rest hc hcol hu hu' hcons hq =>
      rw [hq]
      by_cases heq : k = kp
      · rw [heq, hcons] at hk
        cases hk
      · rw [Function.update_of_ne fun hne => heq (QueueId.peventQ.inj hne)]
        exact hk
  | undone hc hu hu' hkeep => exact (hkeep.pevent k).trans hk
  | @cut kp children hc hphase hu hnil hs =>
      subst hs
      by_cases heq : k = kp
      · have happend := fossilCut_append s.gvtSig (s.queue (.peventQ kp))
        rw [← heq, hk] at happend
        rw [heq, Pe.cutPevent_self, ← heq, hk]
        exact (List.append_eq_nil_iff.mp happend).1
      · exact (Pe.cutPevent_of_ne s heq).trans hk
  | commit hc hu hcol hmem hq => exact (hq k).trans hk

/-! ## Phases and calls -/

/-- The phases in which a rollback may be in progress. -/
def Phase.undoes : Phase T M → Bool
  | .eventQRollback => true
  | .cancelQRollback _ => true
  | .rollbackToSig _ _ => true
  | .handler _ _ _ [] => true
  | _ => false

/-- The phases of fossil collection. -/
def Phase.collects : Phase T M → Bool
  | .fossilCollect _ _ => true
  | _ => false

/-- The phases outside of a batch and of fossil collection. -/
def Phase.plain : Phase T M → Bool
  | .batch _ _ => false
  | .handler _ _ _ _ => false
  | .fossilCollect _ _ => false
  | _ => true

/-- The calls of an optimistic program other than the batches. -/
def Call.plain : Call T → Bool
  | .schedBatch => false
  | .schedBatchRealtime => false
  | .conservativeBatch => false
  | .schedulerConservative => false
  | .conservativeTail => false
  | _ => true

/-- The calls that an optimistic program may end with. -/
def Call.loops : Call T → Bool
  | .schedulerOptimistic => true
  | .optimisticTail => true
  | .schedulerOptimisticRealtime => true
  | .optimisticRealtimeTail => true
  | _ => false

/-- GVT has been computed since the last test of the window, and no event started. -/
def Pe.Fresh (s : Pe T S M R) (g : Option (WindowTest T S M R)) : Prop :=
  ∃ t, g = some t ∧ t.events = 0 ∧ t.pe.gvtDone < s.gvtDone

/-- GVT is past the end of time, or at it and just computed. -/
def Pe.Due (m : SimModel T S M R) (s : Pe T S M R) (g : Option (WindowTest T S M R)) : Prop :=
  m.tsEnd < s.gvtSig.recvTs ∨ s.Fresh g ∧ m.tsEnd ≤ s.gvtSig.recvTs

/-- What leads to the end of the run: a batch runs only while GVT is not past the end of time,
and fossil collection leaves no processed event once it is. -/
structure Finishing (m : SimModel T S M R) (g : Option (WindowTest T S M R))
    (s : Pe T S M R) : Prop where
  rollback : s.rollback ≠ none → s.phase.undoes = true
  batch : ∀ kind left, s.phase = .batch kind left →
    kind ≠ .conservative ∧ s.gvtSig.recvTs ≤ m.tsEnd
  handler : ∀ kind left lp ops, s.phase = .handler kind left lp ops →
    kind ≠ .conservative ∧ s.gvtSig.recvTs ≤ m.tsEnd ∧ ∀ t, g = some t → t.events ≠ 0
  todo : (∀ c ∈ s.todo, c.plain = true) ∨
    s.phase = .idle ∧ s.gvtSig.recvTs ≤ m.tsEnd ∧
      ∃ c rest, s.todo = c :: rest ∧ (c = .schedBatch ∨ c = .schedBatchRealtime) ∧
        ∀ c ∈ rest, c.plain = true
  last : ∀ c, s.todo.getLast? = some c → c.loops = true
  ended : s.todo = [] → s.At .idle ∧ m.tsEnd < s.gvtSig.recvTs
  empty : s.phase.collects = false → s.Due m g → ∀ k < m.nkp, s.queue (.peventQ k) = []
  collecting : ∀ kp children, s.phase = .fossilCollect kp children →
    m.tsEnd ≤ s.gvtSig.recvTs → ∀ k < kp, s.queue (.peventQ k) = []

namespace Finishing

variable {g : Option (WindowTest T S M R)} {s s' : Pe T S M R}

/-- Away from the calls of the program no batch is about to start. -/
theorem plain (h : Finishing m g s) (hp : s.phase ≠ .idle) : ∀ c ∈ s.todo, c.plain = true :=
  h.todo.resolve_right fun hidle => hp hidle.1

/-- A step within a phase. -/
theorem stay (h : Finishing m g s) (hne : s.todo ≠ [])
    (hq : ∀ k, s.queue (.peventQ k) = [] → s'.queue (.peventQ k) = [])
    (hp : s'.phase = s.phase) (ht : s'.todo = s.todo) (hsig : s'.gvtSig = s.gvtSig)
    (hdone : s'.gvtDone = s.gvtDone) (hr : s'.rollback ≠ none → s.phase.undoes = true) :
    Finishing m g s' where
  rollback := by
    rw [hp]
    exact hr
  batch := by
    rw [hp, hsig]
    exact h.batch
  handler := by
    rw [hp, hsig]
    exact h.handler
  todo := by
    rw [hp, hsig, ht]
    exact h.todo
  last := by
    rw [ht]
    exact h.last
  ended hnil := absurd (ht.symm.trans hnil) hne
  empty := by
    unfold Pe.Due Pe.Fresh
    rw [hp, hsig, hdone]
    exact fun hcol hdue k hk => hq k (h.empty hcol hdue k hk)
  collecting := by
    rw [hp, hsig]
    exact fun kp children hphase hend k hk => hq k (h.collecting kp children hphase hend k hk)

/-- A step to a phase outside of batches and of fossil collection. -/
theorem goto (h : Finishing m g s) (hcol : s.phase.collects = false)
    (hq : ∀ k, s.queue (.peventQ k) = [] → s'.queue (.peventQ k) = [])
    (hp : s'.phase.plain = true) (htodo : ∀ c ∈ s'.todo, c.plain = true)
    (hlast : ∀ c, s'.todo.getLast? = some c → c.loops = true) (hne : s'.todo ≠ [])
    (hsig : s'.gvtSig = s.gvtSig) (hdone : s'.gvtDone = s.gvtDone)
    (hr : s'.rollback ≠ none → s'.phase.undoes = true) : Finishing m g s' where
  rollback := hr
  batch kind left hb := by
    rw [hb] at hp
    cases hp
  handler kind left lp ops hh := by
    rw [hh] at hp
    cases hp
  todo := .inl htodo
  last := hlast
  ended hnil := absurd hnil hne
  empty := by
    unfold Pe.Due Pe.Fresh
    rw [hsig, hdone]
    exact fun _ hdue k hk => hq k (h.empty hcol hdue k hk)
  collecting kp children hf := by
    rw [hf] at hp
    cases hp

/-- A step from a phase in which the program waits to one outside of batches. -/
theorem leave (h : Finishing m g s) (hidle : s.phase ≠ .idle) (hcol : s.phase.collects = false)
    (hne : s.todo ≠ []) (hq : ∀ k, s.queue (.peventQ k) = [] → s'.queue (.peventQ k) = [])
    (hp : s'.phase.plain = true) (ht : s'.todo = s.todo) (hsig : s'.gvtSig = s.gvtSig)
    (hdone : s'.gvtDone = s.gvtDone) (hr : s'.rollback ≠ none → s'.phase.undoes = true) :
    Finishing m g s' :=
  h.goto hcol hq hp (ht ▸ h.plain hidle) (ht ▸ h.last) (ht ▸ hne) hsig hdone hr

/-! ## Rollbacks -/

theorem rollbackStep {r : Rollback T} (h : Finishing m g s) (hne : s.todo ≠ [])
    (hq : ∀ k, s.queue (.peventQ k) = [] → s'.queue (.peventQ k) = [])
    (hr : s.rollback = some r) (hs : s.rollbackStep m r = .ok s') : Finishing m g s' := by
  have hundo : s.phase.undoes = true := h.rollback (by rw [hr]; exact Option.some_ne_none r)
  have hidle : s.phase ≠ .idle := by
    intro hp
    rw [hp] at hundo
    cases hundo
  have hcol : s.phase.collects = false := by
    cases hp : s.phase <;> first
      | rfl
      | rw [hp] at hundo; cases hundo
  unfold Pe.rollbackStep at hs
  split at hs
  next e rest hc =>
    obtain ⟨_, _, _, _, _, _, _, _, -, -, -, rfl⟩ := Pe.rollbackChild_frame hs
    exact h.stay hne hq rfl rfl rfl rfl fun _ => hundo
  · cases hs
    have hend : ∀ {s₁ : Pe T S M R}, s₁.rollback = none → s₁.rollback ≠ none →
        s₁.phase.undoes = true := fun hnone hsome => absurd hnone hsome
    rw [Pe.afterRollback_eq] at hq ⊢
    cases hafter : r.after with
    | requeueReset =>
        rw [hafter] at hq
        exact h.stay hne hq rfl rfl rfl rfl fun _ => hundo
    | requeue =>
        rw [hafter] at hq
        exact h.stay hne hq rfl rfl rfl rfl fun _ => hundo
    | freeReset =>
        rw [hafter] at hq
        exact h.leave hidle hcol hne hq rfl rfl rfl rfl (hend rfl)
    | abort kind =>
        rw [hafter] at hq
        exact h.leave hidle hcol hne hq rfl rfl rfl rfl (hend rfl)

theorem twEventRollback (h : Finishing m g s) (hne : s.todo ≠ []) (hundo : s.phase.undoes = true)
    (e : TwEvent T) (after : RollbackAfter) : Finishing m g (s.twEventRollback m e after) := by
  obtain ⟨l, cv, msg, t, hs⟩ := Pe.twEventRollback_frame m s e after
  rw [hs]
  exact h.stay hne (fun _ hk => hk) rfl rfl rfl rfl fun _ => hundo

theorem shiftPevent (h : Finishing m g s) (hne : s.todo ≠ []) (hr : s.rollback = none) {kp : Nat}
    {e : TwEvent T} {rest : List (TwEvent T)} (hcons : s.queue (.peventQ kp) = e :: rest) :
    Finishing m g (s.shiftPevent kp e rest) := by
  refine h.stay hne (fun k hk => ?_) rfl rfl rfl rfl fun hsome => absurd hr hsome
  by_cases heq : k = kp
  · rw [heq, hcons] at hk
    cases hk
  · rw [Pe.shiftPevent_of_ne s heq]
    exact hk

theorem kpRollbackToSig {kp : Nat} {toSig : TwEventSig T} (h : Finishing m g s)
    (hne : s.todo ≠ []) (hr : s.rollback = none) (hundo : s.phase.undoes = true)
    (hs : s.kpRollbackToSig m kp toSig = some s') : Finishing m g s' := by
  obtain ⟨e, rest, hcons, -, rfl⟩ := Pe.kpRollbackToSig_some hs
  have hshift := h.shiftPevent hne hr hcons
  exact hshift.twEventRollback hne hundo e _

theorem kpRollbackEvent {event : TwEvent T} (h : Finishing m g s) (hne : s.todo ≠ [])
    (hr : s.rollback = none) (hundo : s.phase.undoes = true)
    (hs : s.kpRollbackEvent m event = .ok s') : Finishing m g s' := by
  obtain ⟨e, rest, hcons, ⟨-, rfl⟩ | ⟨-, hd, tl, -, rfl⟩⟩ := Pe.kpRollbackEvent_ok hs
  · have hshift := h.shiftPevent hne hr hcons
    exact hshift.twEventRollback hne hundo e _
  · have hshift := h.shiftPevent hne hr hcons
    have hlast : Finishing m g ((s.shiftPevent (m.kpOf event.destLp) e rest).setLastSig
        (m.kpOf event.destLp) hd.sig) :=
      hshift.stay hne (fun _ hk => hk) rfl rfl rfl rfl hshift.rollback
    exact hlast.twEventRollback hne hundo e _

/-! ## The schedulers -/

theorem schedEventQ (h : Finishing m g s) (hne : s.todo ≠ []) (hat : s.At .eventQ)
    (hs : s.schedEventQ m = .ok s') : Finishing m g s' := by
  obtain ⟨-, hr, hp⟩ := hat
  have hidle : s.phase ≠ .idle := by rw [hp]; exact nofun
  have hcol : s.phase.collects = false := by rw [hp]; rfl
  have hnone : ∀ {P : Prop}, s.rollback ≠ none → P := fun hsome => absurd hr hsome
  rcases Pe.schedEventQ_ok hs with
    ⟨cev, rest, -, ⟨-, rfl⟩ | ⟨-, -, ⟨-, rfl⟩ | ⟨-, rfl⟩⟩⟩ | ⟨-, -, rfl⟩ | ⟨-, -, rfl⟩
  · exact h.stay hne (fun _ hk => hk) rfl rfl rfl rfl hnone
  · exact h.leave hidle hcol hne (fun _ hk => hk) rfl rfl rfl rfl hnone
  · exact h.stay hne (fun _ hk => hk) rfl rfl rfl rfl hnone
  · exact h.leave hidle hcol hne (fun _ hk => hk) rfl rfl rfl rfl hnone
  · exact h.stay hne (fun _ hk => hk) rfl rfl rfl rfl hnone

theorem schedStraggler (h : Finishing m g s) (hne : s.todo ≠ []) (hat : s.At .eventQRollback)
    (hs : s.schedStraggler m = .ok s') : Finishing m g s' := by
  obtain ⟨-, hr, hp⟩ := hat
  have hidle : s.phase ≠ .idle := by rw [hp]; exact nofun
  have hcol : s.phase.collects = false := by rw [hp]; rfl
  obtain ⟨cev, rest, -, hs | ⟨-, rfl⟩⟩ := Pe.schedStraggler_ok hs
  · exact h.kpRollbackToSig hne hr (by rw [hp]; rfl) hs
  · exact h.leave hidle hcol hne (fun _ hk => hk) rfl rfl rfl rfl fun hsome => absurd hr hsome

theorem schedCancelQ (h : Finishing m g s) (hne : s.todo ≠ []) (hat : s.At .cancelQ)
    (hq : ∀ k, s.queue (.peventQ k) = [] → s'.queue (.peventQ k) = [])
    (hs : s.schedCancelQ = .ok s') : Finishing m g s' := by
  obtain ⟨-, hr, hp⟩ := hat
  have hidle : s.phase ≠ .idle := by rw [hp]; exact nofun
  have hcol : s.phase.collects = false := by rw [hp]; rfl
  have hnone : ∀ {P : Prop}, s.rollback ≠ none → P := fun hsome => absurd hr hsome
  rcases Pe.schedCancelQ_ok hs with
    ⟨cev, rest, -, -, ⟨q, -, rfl⟩ | ⟨-, rfl⟩⟩ | ⟨-, -, rfl⟩ | ⟨-, -, rfl⟩
  · exact h.stay hne hq rfl rfl rfl rfl hnone
  · exact h.leave hidle hcol hne hq rfl rfl rfl rfl hnone
  · exact h.leave hidle hcol hne hq rfl rfl rfl rfl hnone
  · exact h.stay hne hq rfl rfl rfl rfl hnone

/-! ## Batches -/

/-- A phase of a batch that may run. -/
theorem inBatch (hp : ∃ kind left, kind ≠ .conservative ∧ (s'.phase = .batch kind left ∨
      ∃ lp ops, s'.phase = .handler kind left lp ops ∧ ∀ t, g = some t → t.events ≠ 0))
    (hend : s'.gvtSig.recvTs ≤ m.tsEnd) (htodo : ∀ c ∈ s'.todo, c.plain = true)
    (hlast : ∀ c, s'.todo.getLast? = some c → c.loops = true) (hne : s'.todo ≠ [])
    (hr : s'.rollback ≠ none → s'.phase.undoes = true)
    (hempty : s'.Fresh g → m.tsEnd ≤ s'.gvtSig.recvTs →
      ∀ k < m.nkp, s'.queue (.peventQ k) = []) :
    Finishing m g s' := by
  obtain ⟨kind, left, hkind, hp⟩ := hp
  refine ⟨hr, ?_, ?_, .inl htodo, hlast, fun hnil => absurd hnil hne, ?_, ?_⟩
  · intro kind' left' hb
    rcases hp with hp | ⟨lp, ops, hp, -⟩
    · cases hp.symm.trans hb
      exact ⟨hkind, hend⟩
    · cases hp.symm.trans hb
  · intro kind' left' lp' ops' hh
    rcases hp with hp | ⟨lp, ops, hp, hev⟩
    · cases hp.symm.trans hh
    · cases hp.symm.trans hh
      exact ⟨hkind, hend, hev⟩
  · intro _ hdue
    rcases hdue with hpast | ⟨hfresh, hle⟩
    · exact absurd hpast (not_lt.mpr hend)
    · exact hempty hfresh hle
  · intro kp children hf
    rcases hp with hp | ⟨lp, ops, hp, -⟩
    · cases hp.symm.trans hf
    · cases hp.symm.trans hf

/-- A batch that runs has started an event. -/
theorem not_fresh {kind : BatchKind} {left lp : Nat} {ops : List (HandlerOp T M)}
    (h : Finishing m g s) (hp : s.phase = .handler kind left lp ops) (s' : Pe T S M R) :
    ¬ s'.Fresh g := by
  rintro ⟨t, hg, hev, -⟩
  exact (h.handler _ _ _ _ hp).2.2 t hg hev

theorem batchStep {kind : BatchKind} {left : Nat} (h : Finishing m g s) (hne : s.todo ≠ [])
    (hat : s.At (.batch kind left)) (hs : s.batchStep m kind left = .ok s') :
    Finishing m (s.noteTest s' g) s' := by
  obtain ⟨-, hr, hp⟩ := hat
  have hidle : s.phase ≠ .idle := by rw [hp]; exact nofun
  have hcol : s.phase.collects = false := by rw [hp]; rfl
  have htest : s.testsWindow = false := by
    unfold Pe.testsWindow
    rw [hp]
    exact Bool.and_false _
  rcases Pe.batchStep_ok hs with ⟨c, n, rfl⟩ | ⟨cev, -, -, -, -, rfl⟩
  · have hnote : s.noteTest { s with gvtCnt := c, noFreeEventBuffers := n, phase := .idle } g =
        g := TestedPe.noteTest_eq htest (.inr (.inr rfl))
    rw [hnote]
    exact h.leave hidle hcol hne (fun _ hk => hk) rfl rfl rfl rfl fun hsome => absurd hr hsome
  · obtain ⟨hkind, hend⟩ := h.batch kind left hp
    obtain ⟨l, cv, msg, ops, hrun⟩ :=
      Pe.runEvent_frame (m := m) (s.dequeued m cev) kind (left - 1) cev
    have hnote : s.noteTest ((s.dequeued m cev).runEvent m kind (left - 1) cev) g =
        g.map fun t => { t with events := t.events + 1 } := by
      unfold Pe.noteTest Pe.processes
      rw [htest, hp, hrun]
      rfl
    have hev : ∀ t, g.map (fun t => { t with events := t.events + 1 }) = some t → t.events ≠ 0 := by
      intro t ht
      obtain ⟨t', -, rfl⟩ := Option.map_eq_some_iff.mp ht
      exact Nat.succ_ne_zero t'.events
    rw [hnote, hrun]
    refine inBatch ⟨kind, left - 1, hkind, .inr ⟨cev.destLp, ops, rfl, hev⟩⟩ hend
      (h.plain hidle) h.last hne (fun hsome => absurd hr hsome) ?_
    rintro ⟨t, hg, hzero, -⟩
    exact absurd hzero (hev t hg)

theorem handlerReturn {kind : BatchKind} {left lp : Nat} {cev : TwEvent T} {expired : Bool}
    (h : Finishing m g s) (hne : s.todo ≠ []) (hat : s.At (.handler kind left lp []))
    (hs : s.handlerReturn m kind left cev expired = .ok s') : Finishing m g s' := by
  obtain ⟨-, hr, hp⟩ := hat
  have hidle : s.phase ≠ .idle := by rw [hp]; exact nofun
  have hundo : s.phase.undoes = true := by rw [hp]; rfl
  obtain ⟨hkind, hend, hev⟩ := h.handler _ _ _ _ hp
  have hnone : ∀ {P : Prop}, s.rollback ≠ none → P := fun hsome => absurd hr hsome
  rcases Pe.handlerReturn_ok hs with ⟨hcons, -, -⟩ | ⟨-, -, rfl⟩ | ⟨-, -, c, p, hphase, rfl⟩
  · exact absurd hcons hkind
  · have habort : Finishing m g { s with cevAbort := false } :=
      h.stay hne (fun _ hk => hk) rfl rfl rfl rfl hnone
    exact habort.twEventRollback hne hundo cev _
  · rcases hphase with rfl | rfl
    · refine ⟨hnone, nofun, nofun, .inl (h.plain hidle), h.last, fun hnil => absurd hnil hne, ?_,
        nofun⟩
      rintro - (hpast | ⟨hfresh, -⟩)
      · exact absurd hpast (not_lt.mpr hend)
      · exact absurd hfresh (h.not_fresh hp _)
    · refine inBatch ⟨kind, left, hkind, .inl rfl⟩ hend (h.plain hidle) h.last hne hnone ?_
      exact fun hfresh => absurd hfresh (h.not_fresh hp _)

/-! ## The network and the calls of handlers -/

/-- A program that has ended makes no step of its own. -/
theorem todo_ne_nil (h : Finishing m g s) (hidle : ¬ s.At .idle) : s.todo ≠ [] := fun hnil =>
  hidle (h.ended hnil).1

/-- A step that touches neither the processed events nor GVT. -/
theorem frame (h : Finishing m g s) (hne : s.todo ≠ [])
    (hq : ∀ k, s'.queue (.peventQ k) = s.queue (.peventQ k)) (hp : s'.phase = s.phase)
    (ht : s'.todo = s.todo) (hsig : s'.gvtSig = s.gvtSig) (hdone : s'.gvtDone = s.gvtDone)
    (hr : s'.rollback = s.rollback) : Finishing m g s' :=
  h.stay hne (fun k hk => (hq k).trans hk) hp ht hsig hdone fun hsome => h.rollback (hr ▸ hsome)

theorem recvFinish {src : Nat} {w : WireMsg T M} (h : Finishing m g s) (hne : s.todo ≠ [])
    (hs : s.recvFinish m src w = .ok s') : Finishing m g s' := by
  obtain ⟨-, ⟨-, c, -, rfl⟩ | ⟨-, -, ⟨-, -, rfl⟩ | ⟨-, rfl⟩⟩⟩ := Pe.recvFinish_ok hs
  · exact h.frame hne (fun _ => rfl) rfl rfl rfl rfl rfl
  · exact h.frame hne (fun _ => rfl) rfl rfl rfl rfl rfl
  · exact h.frame hne (fun _ => rfl) rfl rfl rfl rfl rfl

theorem sendFinish {e : TwEvent T} (h : Finishing m g s) (hne : s.todo ≠ [])
    (hs : s.sendFinish m e = .ok s') : Finishing m g s' := by
  rcases Pe.sendFinish_ok hs with ⟨-, -, rfl⟩ | ⟨-, -, -, rfl⟩ | ⟨-, -, -, rfl⟩ | ⟨-, rfl⟩
  · exact h.frame hne (fun _ => rfl) rfl rfl rfl rfl rfl
  · exact h.frame hne (fun _ => rfl) rfl rfl rfl rfl rfl
  · exact h.frame hne (fun _ => rfl) rfl rfl rfl rfl rfl
  · exact h.frame hne (fun _ => rfl) rfl rfl rfl rfl rfl

theorem sendBegin (h : Finishing m g s) (hne : s.todo ≠ []) (read changed : Bool) :
    Finishing m g (s.sendBegin m read changed) := by
  rcases Pe.sendBegin_ok (m := m) s read changed with ⟨e, -, -, hs⟩ | ⟨-, hs⟩
  · rw [hs]
    exact h.frame hne (fun _ => rfl) rfl rfl rfl rfl rfl
  · rw [hs]
    exact h.frame hne (fun _ => rfl) rfl rfl rfl rfl rfl

theorem handlerOp {lp : Nat} {op : HandlerOp T M} (h : Finishing m g s) (hne : s.todo ≠ [])
    (hs : s.handlerOp m lp op = .ok s') : Finishing m g s' := by
  cases op with
  | eventNew destGid offsetTs prio msg =>
      obtain ⟨-, ⟨-, rfl⟩ | ⟨-, -, rfl⟩⟩ := Pe.twEventNewUserPrio_ok hs
      · exact h.frame hne (fun _ => rfl) rfl rfl rfl rfl rfl
      · exact h.frame hne (fun _ => rfl) rfl rfl rfl rfl rfl
  | eventSend i =>
      rcases Pe.twEventSend_ok hs with ⟨-, rfl⟩ | ⟨e, msg, -, -, rfl⟩
      · exact h.frame hne (fun _ => rfl) rfl rfl rfl rfl rfl
      · rcases Pe.deliver_cases m (s.prepare i e msg) (s.stamp e) with
          ⟨-, -, hd⟩ | ⟨-, -, hd⟩ | ⟨-, hd⟩
        · rw [hd]
          exact h.frame hne (fun _ => rfl) rfl rfl rfl rfl rfl
        · rw [hd]
          exact h.frame hne (fun _ => rfl) rfl rfl rfl rfl rfl
        · rw [hd]
          exact h.frame hne (fun _ => rfl) rfl rfl rfl rfl rfl
  | lpSuspend doOrigEventRc =>
      cases hs
      exact h.frame hne (fun _ => rfl) rfl rfl rfl rfl rfl
  | triggerGvtHookNow =>
      rcases Pe.twTriggerGvtHookNow_ok hs with rfl | ⟨-, rfl⟩
      · exact h
      · exact h.frame hne (fun _ => rfl) rfl rfl rfl rfl rfl

/-- The next call of a forward handler into the kernel. -/
theorem nextOp {kind : BatchKind} {left lp : Nat} {op : HandlerOp T M}
    {ops : List (HandlerOp T M)} (h : Finishing m g s)
    (hat : s.At (.handler kind left lp (op :: ops))) (hne : s.todo ≠ []) :
    Finishing m g { s with phase := .handler kind left lp ops } := by
  obtain ⟨-, hr, hp⟩ := hat
  have hidle : s.phase ≠ .idle := by rw [hp]; exact nofun
  obtain ⟨hkind, hend, hev⟩ := h.handler _ _ _ _ hp
  refine inBatch ⟨kind, left, hkind, .inr ⟨lp, ops, rfl, hev⟩⟩ hend (h.plain hidle) h.last hne
    (fun hsome => absurd hr hsome) fun hfresh => absurd hfresh (h.not_fresh hp _)

/-! ## Calls -/

section Calls

variable {c : Call T} {rest : List (Call T)}

/-- The rest of the program ends as the program does. -/
theorem rest_last (h : Finishing m g s) (ht : s.todo = c :: rest) :
    ∀ d, rest.getLast? = some d → d.loops = true := by
  intro d hd
  refine h.last d ?_
  rw [ht, List.getLast?_cons, hd]
  rfl

theorem rest_ne_nil (h : Finishing m g s) (ht : s.todo = c :: rest) (hc : c.loops = false) :
    rest ≠ [] := by
  rintro rfl
  have hlast := h.last c (by rw [ht]; rfl)
  rw [hc] at hlast
  cases hlast

theorem rest_plain (h : Finishing m g s) (ht : s.todo = c :: rest) :
    ∀ d ∈ rest, d.plain = true := by
  rcases h.todo with hall | ⟨-, -, c', rest', ht', -, hrest⟩
  · exact fun d hd => hall d (ht ▸ List.mem_cons_of_mem c hd)
  · cases ht.symm.trans ht'
    exact hrest

/-- The next call is of no batch, or it is a batch of the optimistic schedulers. -/
theorem first_plain (h : Finishing m g s) (ht : s.todo = c :: rest) :
    c.plain = true ∨ c = .schedBatch ∨ c = .schedBatchRealtime := by
  rcases h.todo with hall | ⟨-, -, c', rest', ht', hc, -⟩
  · exact .inl (hall c (ht ▸ List.mem_cons_self))
  · cases ht.symm.trans ht'
    exact .inr hc

/-- The calls `more` stand before the rest of the program. -/
theorem goOn (h : Finishing m g s) (hat : s.At .idle) (ht : s.todo = c :: rest)
    (more : List (Call T)) (hmore : ∀ d ∈ more, d.plain = true)
    (hlast : c.loops = true → ∃ d, more.getLast? = some d ∧ d.loops = true)
    (htodo : s'.todo = more ++ rest) (hp : s'.phase.plain = true)
    (hq : ∀ k, s'.queue (.peventQ k) = s.queue (.peventQ k)) (hsig : s'.gvtSig = s.gvtSig)
    (hdone : s'.gvtDone = s.gvtDone) (hr : s'.rollback = s.rollback) : Finishing m g s' := by
  obtain ⟨-, hnone, hphase⟩ := hat
  have hcol : s.phase.collects = false := by rw [hphase]; rfl
  have hends : ∀ d, s'.todo.getLast? = some d → d.loops = true := by
    intro d hd
    rw [htodo, List.getLast?_append, Option.or_eq_some_iff] at hd
    rcases hd with hd | ⟨hnil, hd⟩
    · exact h.rest_last ht d hd
    · have hrest : rest = [] := List.getLast?_eq_none_iff.mp hnil
      have hloops : c.loops = true := by
        by_contra hc
        exact h.rest_ne_nil ht (Bool.eq_false_iff.mpr hc) hrest
      obtain ⟨d', hd', hl⟩ := hlast hloops
      cases hd.symm.trans hd'
      exact hl
  have hne : s'.todo ≠ [] := by
    intro hnil
    obtain ⟨hmore, hrest⟩ := List.append_eq_nil_iff.mp (htodo.symm.trans hnil)
    by_cases hc : c.loops = true
    · obtain ⟨d, hd, -⟩ := hlast hc
      rw [hmore] at hd
      cases hd
    · exact h.rest_ne_nil ht (Bool.eq_false_iff.mpr hc) hrest
  refine h.goto hcol (fun k hk => (hq k).trans hk) hp (fun d hd => ?_) hends hne hsig hdone
    fun hsome => absurd (hr.trans hnone) hsome
  rw [htodo] at hd
  rcases List.mem_append.mp hd with hd | hd
  · exact hmore d hd
  · exact h.rest_plain ht d hd

/-- A call that leaves the program as it is. -/
theorem goOn_nil (h : Finishing m g s) (hat : s.At .idle) (ht : s.todo = c :: rest)
    (hc : c.loops = false) (htodo : s'.todo = rest) (hp : s'.phase.plain = true)
    (hq : ∀ k, s'.queue (.peventQ k) = s.queue (.peventQ k)) (hsig : s'.gvtSig = s.gvtSig)
    (hdone : s'.gvtDone = s.gvtDone) (hr : s'.rollback = s.rollback) : Finishing m g s' :=
  h.goOn hat ht [] (fun _ hd => absurd hd List.not_mem_nil)
    (fun hloops => by rw [hc] at hloops; cases hloops) htodo hp hq hsig hdone hr

/-- `tw_gvt_step2` starts a GVT computation or does nothing. -/
theorem gvtStep2 (h : Finishing m g s) (hat : s.At .idle) (ht : s.todo = .gvtStep2 :: rest) :
    Finishing m g (if s.gvtCompute then { s with todo := rest, phase := .whiteLoop }
      else { s with todo := rest }) := by
  have hp : s.phase.plain = true := by rw [hat.2.2]; rfl
  split
  · exact h.goOn_nil hat ht rfl rfl rfl (fun _ => rfl) rfl rfl rfl
  · exact h.goOn_nil hat ht rfl rfl hp (fun _ => rfl) rfl rfl rfl

/-- The record of a test has seen no GVT computation yet. -/
theorem retest (h : Finishing m g s) (hp : s.phase.plain = true) {t : Pe T S M R}
    (ht : t.gvtDone = s.gvtDone) : Finishing m (some ⟨t, 0⟩) s where
  rollback := h.rollback
  batch := h.batch
  handler kind left lp ops hh := by
    rw [hh] at hp
    cases hp
  todo := h.todo
  last := h.last
  ended := h.ended
  empty hcol hdue := by
    rcases hdue with hpast | ⟨⟨t', heq, -, hlt⟩, -⟩
    · exact h.empty hcol (.inl hpast)
    · cases heq
      exact absurd (ht ▸ hlt) (lt_irrefl s.gvtDone)
  collecting := h.collecting

/-- A batch starts where GVT is not past the end of time. -/
theorem startBatch {kind : BatchKind} {n : Nat} (h : Finishing m g s) (hat : s.At .idle)
    (ht : s.todo = c :: rest) (hc : c.plain = false) (hloops : c.loops = false)
    (hkind : kind ≠ .conservative) :
    Finishing m g { s with todo := rest, phase := .batch kind n } := by
  obtain ⟨-, hr, hp⟩ := hat
  have hend : s.gvtSig.recvTs ≤ m.tsEnd := by
    rcases h.todo with hall | ⟨-, hend, -⟩
    · have hplain := hall c (ht ▸ List.mem_cons_self)
      rw [hc] at hplain
      cases hplain
    · exact hend
  have hcol : s.phase.collects = false := by rw [hp]; rfl
  exact inBatch ⟨kind, n, hkind, .inl rfl⟩ hend (h.rest_plain ht) (h.rest_last ht)
    (h.rest_ne_nil ht hloops) (fun hsome => absurd hr hsome) fun hfresh hle =>
      h.empty hcol (.inr ⟨hfresh, hle⟩)

/-- The scheduler returns when GVT is past the end of time. -/
theorem schedulerTail {batch scheduler : Call T} (h : Finishing m g s) (hat : s.At .idle)
    (ht : s.todo = c :: rest) (hbatch : batch = .schedBatch ∨ batch = .schedBatchRealtime)
    (hplain : scheduler.plain = true) (hloops : scheduler.loops = true) :
    Finishing m g (if m.tsEnd < s.gvtSig.recvTs then { s with todo := rest }
      else { s with todo := [batch, scheduler] ++ rest }) := by
  have hp : s.phase = .idle := hat.2.2
  have hcol : s.phase.collects = false := by rw [hp]; rfl
  have hr : s.rollback ≠ none → s.phase.undoes = true := fun hsome => absurd hat.2.1 hsome
  have hidle : ∀ {p : Phase T M} {P : Prop}, p ≠ .idle → s.phase = p → P := fun hne heq =>
    absurd (heq.symm.trans hp) hne
  split
  next hpast =>
    exact ⟨hr, fun _ _ => hidle nofun, fun _ _ _ _ => hidle nofun, .inl (h.rest_plain ht),
      h.rest_last ht, fun _ => ⟨hat, hpast⟩, h.empty, fun _ _ => hidle nofun⟩
  next hnot =>
    refine ⟨hr, fun _ _ => hidle nofun, fun _ _ _ _ => hidle nofun,
      .inr ⟨hp, not_lt.mp hnot, batch, scheduler :: rest, rfl, hbatch, ?_⟩, ?_,
      fun hnil => absurd hnil nofun, h.empty, fun _ _ => hidle nofun⟩
    · intro d hd
      rcases List.mem_cons.mp hd with rfl | hd
      · exact hplain
      · exact h.rest_plain ht d hd
    · intro d hd
      rw [List.getLast?_append, Option.or_eq_some_iff] at hd
      rcases hd with hd | ⟨-, hd⟩
      · exact h.rest_last ht d hd
      · cases hd
        exact hloops

omit [TwStime T] in
/-- The calls of `readCall` are of no batch. -/
theorem readCall_plain (m : SimModel T S M R) : ∀ d ∈ Pe.readCall m, d.plain = true := by
  intro d hd
  rw [Pe.eq_netRead_of_mem hd]
  rfl

/-- The turn of a scheduler: its calls stand before the rest of the program. -/
theorem schedulerTurn (h : Finishing m g s) (hat : s.At .idle) (ht : s.todo = c :: rest)
    {calls : List (Call T)} (hcalls : ∀ d ∈ calls, d.plain = true)
    (hlast : ∃ d, calls.getLast? = some d ∧ d.loops = true) :
    Finishing m g { s with todo := Pe.readCall m ++ calls ++ rest } := by
  have hp : s.phase.plain = true := by rw [hat.2.2]; rfl
  refine h.goOn hat ht (Pe.readCall m ++ calls) (fun d hd => ?_) (fun _ => ?_) rfl hp
    (fun _ => rfl) rfl rfl rfl
  · rcases List.mem_append.mp hd with hd | hd
    · exact readCall_plain m d hd
    · exact hcalls d hd
  · obtain ⟨d, hd, hl⟩ := hlast
    refine ⟨d, ?_, hl⟩
    rw [List.getLast?_append, hd]
    rfl

end Calls

/-! ## The hook -/

/-- A state outside of batches whose KPs have no processed event. -/
theorem emptied (hr : s'.rollback = none) (hp : s'.phase.plain = true)
    (htodo : ∀ c ∈ s'.todo, c.plain = true)
    (hlast : ∀ c, s'.todo.getLast? = some c → c.loops = true) (hne : s'.todo ≠ [])
    (hq : ∀ k < m.nkp, s'.queue (.peventQ k) = []) : Finishing m g s' where
  rollback hsome := absurd hr hsome
  batch kind left hb := by
    rw [hb] at hp
    cases hp
  handler kind left lp ops hh := by
    rw [hh] at hp
    cases hp
  todo := .inl htodo
  last := hlast
  ended hnil := absurd hnil hne
  empty _ _ := hq
  collecting kp children hf := by
    rw [hf] at hp
    cases hp

/-- The hook may put GVT back, and then no KP has a processed event. -/
theorem callHook (h : Finishing m g s) (hr : s.rollback = none)
    (hcol : s.phase.collects = false) (htodo : ∀ c ∈ s.todo, c.plain = true) (hne : s.todo ≠ [])
    (hfresh : s.Fresh g) (hs : s.callHook m = .ok s') : Finishing m g s' := by
  have hnone : s.rollback ≠ none → Phase.undoes (.inHook : Phase T M) = true := fun hsome =>
    absurd hr hsome
  rcases Pe.callHook_ok hs with rfl | ⟨hend, -, rfl⟩
  · exact h.goto hcol (fun _ hk => hk) rfl htodo h.last hne rfl rfl hnone
  · exact emptied hr rfl htodo h.last hne (h.empty hcol (.inr ⟨hfresh, hend⟩))

/-- At the last stage of a turn GVT has been computed and no event started since the test. -/
theorem fresh_of_advanced (h : Stage.Holds m g s .advanced) : s.Fresh g := by
  obtain ⟨t, hg, hev, -, hadv⟩ := h.resolve_left Stage.noConfusion
  exact ⟨t, hg, hev, hadv⟩

theorem gvtHookStep (h : Finishing m g s) (hat : s.At .idle) (hne : s.todo ≠ [])
    (htodo : ∀ c ∈ s.todo, c.plain = true) (hfresh : s.Fresh g)
    (hs : s.gvtHookStep m = .ok s') : Finishing m g s' := by
  obtain ⟨-, hr, hp⟩ := hat
  have hcol : s.phase.collects = false := by rw [hp]; rfl
  have hnone : ∀ {P : Prop}, s.rollback ≠ none → P := fun hsome => absurd hr hsome
  rcases Pe.gvtHookStep_ok hs with rfl | rfl | rfl | ⟨-, hs⟩
  · exact h
  · exact h.goto hcol (fun _ hk => hk) rfl htodo h.last hne rfl rfl hnone
  · exact h.goto hcol (fun _ hk => hk) rfl htodo h.last hne rfl rfl hnone
  · exact h.callHook hr hcol htodo hne hfresh hs

theorem call {c : Call T} {rest : List (Call T)} {expired : Bool} (h : Finishing m g s)
    (htested : TestedPe m g s) (hat : s.At .idle) (ht : s.todo = c :: rest)
    (hs : { s with todo := rest }.call m expired c = .ok s') :
    Finishing m (s.noteTest s' g) s' := by
  have hp : s.phase = .idle := hat.2.2
  have hplain : s.phase.plain = true := by rw [hp]; rfl
  have hat' : ({ s with todo := rest } : Pe T S M R).At .idle := hat
  have hnote : s.noteTest s' g = if c.testsWindow then some ⟨s, 0⟩ else g :=
    TestedPe.noteTest_call hat ht
  rw [hnote]
  cases c with
  | initLp lp =>
      cases hs
      exact h.goOn_nil hat ht rfl rfl rfl (fun _ => rfl) rfl rfl rfl
  | preRunLp lp =>
      cases hs
      exact h.goOn_nil hat ht rfl rfl rfl (fun _ => rfl) rfl rfl rfl
  | netRead =>
      cases hs
      exact h.goOn_nil hat ht rfl rfl hplain (fun _ => rfl) rfl rfl rfl
  | schedEventQ =>
      cases hs
      exact h.goOn_nil hat ht rfl rfl rfl (fun _ => rfl) rfl rfl rfl
  | schedCancelQ =>
      cases hs
      exact h.goOn_nil hat ht rfl rfl rfl (fun _ => rfl) rfl rfl rfl
  | kpRollbackToSig kp toSig =>
      cases hs
      exact h.goOn_nil hat ht rfl rfl rfl (fun _ => rfl) rfl rfl rfl
  | gvtStatusOn =>
      cases hs
      exact h.goOn_nil hat ht rfl rfl hplain (fun _ => rfl) rfl rfl rfl
  | gvtStep1 =>
      cases hs
      obtain ⟨n, b, heq, -⟩ := Pe.gvtStep1_frame (m := m) { s with todo := rest }
      rw [heq]
      have h₁ : Finishing m g { s with todo := rest, gvtCnt := n, gvtCompute := b } :=
        h.goOn_nil hat ht rfl rfl hplain (fun _ => rfl) rfl rfl rfl
      exact h₁.retest hplain rfl
  | gvtStep1Realtime =>
      cases hs
      obtain ⟨n, b, heq, -⟩ := Pe.gvtStep1Realtime_frame (m := m) { s with todo := rest } expired
      rw [heq]
      have h₁ : Finishing m g { s with todo := rest, gvtCnt := n, gvtCompute := b } :=
        h.goOn_nil hat ht rfl rfl hplain (fun _ => rfl) rfl rfl rfl
      exact h₁.retest hplain rfl
  | gvtStep2 =>
      cases hs
      exact h.gvtStep2 hat ht
  | gvtStep2AndHook =>
      cases hs
      refine h.goOn hat ht (.gvtStep2 :: if s.gvtCompute then [.gvtHookStep] else []) ?_ nofun rfl
        hplain (fun _ => rfl) rfl rfl rfl
      intro d hd
      rcases List.mem_cons.mp hd with rfl | hd
      · rfl
      · split at hd
        · rw [List.mem_singleton.mp hd]
          rfl
        · cases hd
  | gvtHookStep =>
      have h₁ : Finishing m g { s with todo := rest } :=
        h.goOn_nil hat ht rfl rfl hplain (fun _ => rfl) rfl rfl rfl
      have hadv : Stage.Holds m g s .advanced := by
        have hfits := htested.fits
        rw [hp] at hfits
        obtain ⟨st, hst, hprog⟩ := hfits
        rw [ht] at hprog
        obtain ⟨st', hnext, -⟩ := hprog
        cases st <;> cases hnext
        exact hst
      have hfresh : s.Fresh g := fresh_of_advanced hadv
      exact h₁.gvtHookStep hat' (h.rest_ne_nil ht rfl) (h.rest_plain ht) hfresh hs
  | schedBatch =>
      cases hs
      exact h.startBatch hat ht rfl rfl nofun
  | schedBatchRealtime =>
      cases hs
      exact h.startBatch hat ht rfl rfl nofun
  | conservativeBatch =>
      rcases h.first_plain ht with hc | hc | hc <;> cases hc
  | rollbackAndCancelEventsPe =>
      cases hs
      refine h.goOn hat ht
        ((List.range m.nkp).map (.kpRollbackToSig · s.gvtSig) ++ [.cleanupLoop]) ?_ nofun
        (List.append_cons _ _ _) hplain (fun _ => rfl) rfl rfl rfl
      intro d hd
      rcases List.mem_append.mp hd with hd | hd
      · obtain ⟨kp, -, rfl⟩ := List.mem_map.mp hd
        rfl
      · rw [List.mem_singleton.mp hd]
        rfl
  | cleanupLoop =>
      cases hs
      refine h.goOn hat ht (Pe.readCall m ++
        [.gvtStatusOn, .schedEventQ, .schedCancelQ, .gvtStep2, .cleanupTest]) ?_ nofun rfl hplain
        (fun _ => rfl) rfl rfl rfl
      intro d hd
      rcases List.mem_append.mp hd with hd | hd
      · exact readCall_plain m d hd
      · simp only [List.mem_cons, List.not_mem_nil, or_false] at hd
        rcases hd with rfl | rfl | rfl | rfl | rfl <;> rfl
  | cleanupTest =>
      cases hs
      exact h.goOn_nil hat ht rfl rfl rfl (fun _ => rfl) rfl rfl rfl
  | hookReturn =>
      cases hs
      exact h.goOn_nil hat ht rfl rfl rfl (fun _ => rfl) rfl rfl rfl
  | schedulerOptimistic =>
      cases hs
      refine h.schedulerTurn hat ht ?_ ⟨.optimisticTail, rfl, rfl⟩
      intro d hd
      simp only [List.mem_cons, List.not_mem_nil, or_false] at hd
      rcases hd with rfl | rfl | rfl | rfl | rfl <;> rfl
  | schedulerOptimisticRealtime =>
      cases hs
      refine h.schedulerTurn hat ht ?_ ⟨.optimisticRealtimeTail, rfl, rfl⟩
      intro d hd
      simp only [List.mem_cons, List.not_mem_nil, or_false] at hd
      rcases hd with rfl | rfl | rfl | rfl | rfl <;> rfl
  | optimisticTail =>
      cases hs
      exact h.schedulerTail hat ht (.inl rfl) rfl rfl
  | optimisticRealtimeTail =>
      cases hs
      exact h.schedulerTail hat ht (.inr rfl) rfl rfl
  | schedulerConservative =>
      rcases h.first_plain ht with hc | hc | hc <;> cases hc
  | conservativeTail =>
      rcases h.first_plain ht with hc | hc | hc <;> cases hc

/-! ## GVT and fossil collection -/

theorem reduceDone {r : Reduction} (h : Finishing m g s) (hat : s.At (.reduce r))
    (o : Outcome T) : Finishing m g (s.reduceDone r o) := by
  have hne : s.todo ≠ [] := h.todo_ne_nil fun hidle => by
    cases hidle.2.2.symm.trans hat.2.2
  obtain ⟨-, hr, hp⟩ := hat
  have hidle : s.phase ≠ .idle := by rw [hp]; exact nofun
  have hcol : s.phase.collects = false := by rw [hp]; rfl
  have hnone : ∀ {P : Prop}, s.rollback ≠ none → P := fun hsome => absurd hr hsome
  cases o with
  | total white =>
      refine h.leave hidle hcol hne (fun _ hk => hk) ?_ rfl rfl rfl hnone
      unfold Pe.reduceDone
      dsimp only
      split <;> rfl
  | gvt sig => exact h.leave hidle hcol hne (fun _ hk => hk) rfl rfl rfl rfl hnone
  | flag b => exact h.leave hidle hcol hne (fun _ hk => hk) rfl rfl rfl rfl hnone

/-- The program goes on with more calls in front of it. -/
theorem prepend (h : Finishing m g s) (hidle : s.phase ≠ .idle) (hcol : s.phase.collects = false)
    (hne : s.todo ≠ []) (hr : s.rollback = none) (calls : List (Call T))
    (hcalls : ∀ c ∈ calls, c.plain = true) :
    Finishing m g { s with phase := .idle, todo := calls ++ s.todo } := by
  have hplain : ∀ c ∈ calls ++ s.todo, c.plain = true := by
    intro c hc
    rcases List.mem_append.mp hc with hnew | hold
    · exact hcalls c hnew
    · exact h.plain hidle c hold
  have hlast : (calls ++ s.todo).getLast? = s.todo.getLast? := by
    rw [List.getLast?_append, List.getLast?_eq_some_getLast hne, Option.some_or]
  refine h.goto hcol (fun _ hk => hk) rfl hplain ?_ (List.append_ne_nil_of_right_ne_nil calls hne)
    rfl rfl fun hsome => absurd hr hsome
  dsimp only
  rw [hlast]
  exact h.last

theorem afterReduction {r : Reduction} {flag : Bool} (h : Finishing m g s)
    (htested : TestedPe m g s) (hat : s.At (.reduced r flag)) (hne : s.todo ≠ [])
    (hs : s.afterReduction m r flag = .ok s') : Finishing m g s' := by
  obtain ⟨-, hr, hp⟩ := hat
  have hidle : s.phase ≠ .idle := by rw [hp]; exact nofun
  have hcol : s.phase.collects = false := by rw [hp]; rfl
  have hnone : ∀ {P : Prop}, s.rollback ≠ none → P := fun hsome => absurd hr hsome
  have hfits := htested.fits
  rw [hp] at hfits
  rcases Pe.afterReduction_ok hs with ⟨hkind, -, t, hcall⟩ | ⟨-, -, rfl⟩ | ⟨-, -, rfl⟩ |
    ⟨-, -, rfl⟩
  · have hfresh : s.Fresh g := by
      rcases hkind with rfl | rfl
      · exact fresh_of_advanced hfits.1
      · exact fresh_of_advanced hfits.1
    have ht : Finishing m g { s with trigger := t } :=
      h.frame hne (fun _ => rfl) rfl rfl rfl rfl rfl
    exact ht.callHook hr hcol (h.plain hidle) hne hfresh hcall
  · exact h.leave hidle hcol hne (fun _ hk => hk) rfl rfl rfl rfl hnone
  · exact h.prepend hidle hcol hne hr [.cleanupLoop] (by simp [Call.plain])
  · exact h.leave hidle hcol hne (fun _ hk => hk) rfl rfl rfl rfl hnone

theorem hookStep {i : Input T M} (h : Finishing m g s) (hat : s.At .inHook) (hne : s.todo ≠ [])
    (hs : s.hookStep i = .ok s') : Finishing m g s' := by
  obtain ⟨-, hr, hp⟩ := hat
  have hidle : s.phase ≠ .idle := by rw [hp]; exact nofun
  have hcol : s.phase.collects = false := by rw [hp]; rfl
  have hnone : ∀ {P : Prop}, s.rollback ≠ none → P := fun hsome => absurd hr hsome
  rcases Pe.hookStep_ok hs with ⟨-, -, t, rfl⟩ | ⟨-, rfl⟩ | ⟨-, rfl⟩
  · exact h.frame hne (fun _ => rfl) rfl rfl rfl rfl rfl
  · exact h.prepend hidle hcol hne hr [.rollbackAndCancelEventsPe, .hookReturn]
      (by simp [Call.plain])
  · exact h.leave hidle hcol hne (fun _ hk => hk) rfl rfl rfl rfl hnone

/-- A step to fossil collection, or inside of it. -/
theorem collect (hr : s'.rollback = none) {kp : Nat} {children : List (TwEvent T)}
    (hp : s'.phase = .fossilCollect kp children) (htodo : ∀ c ∈ s'.todo, c.plain = true)
    (hlast : ∀ c, s'.todo.getLast? = some c → c.loops = true) (hne : s'.todo ≠ [])
    (hq : m.tsEnd ≤ s'.gvtSig.recvTs → ∀ k < kp, s'.queue (.peventQ k) = []) :
    Finishing m g s' where
  rollback hsome := absurd hr hsome
  batch kind left hb := by cases hp.symm.trans hb
  handler kind left lp ops hh := by cases hp.symm.trans hh
  todo := .inl htodo
  last := hlast
  ended hnil := absurd hnil hne
  empty hcol := by
    rw [hp] at hcol
    cases hcol
  collecting kp' children' hf := by
    cases hp.symm.trans hf
    exact hq

theorem gvtStore {gvt : TwEventSig T}
    (hm : m.synch = .optimistic ∨ m.synch = .optimisticRealtime) (h : Finishing m g s)
    (hat : s.At (.gvtStore gvt)) (hne : s.todo ≠ []) (hs : s.gvtStore m gvt = .ok s') :
    Finishing m g s' := by
  obtain ⟨-, hr, hp⟩ := hat
  have hidle : s.phase ≠ .idle := by rw [hp]; exact nofun
  obtain ⟨-, n, rfl⟩ := Pe.gvtStore_ok hs
  exact collect hr (if_pos hm) (h.plain hidle) h.last hne fun _ k hk =>
    absurd hk (Nat.not_lt_zero k)

/-- A KP whose events are all before GVT keeps none of them. -/
theorem fossilCut_of_all_lt {gvt : TwEventSig T} {q : List (TwEvent T)}
    (h : ∀ e ∈ q, e.sig < gvt) : (fossilCut gvt q).1 = [] := by
  cases q with
  | nil => rfl
  | cons e q =>
      have hne : e :: q ≠ [] := List.cons_ne_nil e q
      have hlast : ¬ 0 ≤ twEventSigComparePtr ((e :: q).getLast hne).sig gvt := by
        rw [twEventSigComparePtr_nonneg, not_le]
        exact h _ (List.getLast_mem hne)
      have hhead : twEventSigComparePtr e.sig gvt < 0 :=
        twEventSigComparePtr_neg.mpr (h e List.mem_cons_self)
      unfold fossilCut
      rw [List.getLast?_eq_getLast_of_ne_nil hne, List.head?_cons]
      dsimp only
      rw [if_neg hlast, if_pos hhead]

/-- Once GVT is at the end of time all processed events of a KP are cut off. -/
theorem cut_nil (hin : s.InTime m) (kp : Nat) (hend : m.tsEnd ≤ s.gvtSig.recvTs) :
    (s.cutPevent kp).queue (.peventQ kp) = [] := by
  have hbelow : ∀ e ∈ s.queue (.peventQ kp), e.sig < s.gvtSig := fun e he =>
    TwEventSig.lt_of_recvTs_lt (lt_of_lt_of_le (hin.queue _ e he) hend)
  rw [Pe.cutPevent_self]
  exact fossilCut_of_all_lt hbelow

theorem fossilStep {kp : Nat} {children : List (TwEvent T)} (h : Finishing m g s)
    (hin : s.InTime m) (hat : s.At (.fossilCollect kp children)) (hne : s.todo ≠ [])
    (hs : s.fossilStep m kp children = .ok s') : Finishing m g s' := by
  obtain ⟨-, hr, hp⟩ := hat
  have hidle : s.phase ≠ .idle := by rw [hp]; exact nofun
  have htodo := h.plain hidle
  have hcut := h.collecting kp children hp
  rcases Pe.fossilStep_ok hs with ⟨c, cs, -, ⟨-, rfl⟩ | ⟨-, rfl⟩⟩ | ⟨-, e, -, hs⟩ |
    ⟨-, -, -, rfl⟩ | ⟨-, -, hdone, rfl⟩
  · exact collect hr rfl htodo h.last hne hcut
  · exact collect hr rfl htodo h.last hne hcut
  · rcases Pe.commitEvent_ok hs with ⟨-, rfl⟩ | ⟨-, -, c, -, rfl⟩
    · exact collect hr rfl htodo h.last hne hcut
    · exact collect hr rfl htodo h.last hne hcut
  · refine collect hr rfl htodo h.last hne fun hend k hk => ?_
    by_cases heq : k = kp
    · rw [heq]
      exact cut_nil hin kp hend
    · refine (Pe.cutPevent_of_ne s heq).trans (hcut hend k ?_)
      exact lt_of_le_of_ne (Nat.le_of_lt_succ hk) heq
  · refine ⟨fun hsome => absurd hr hsome, nofun, nofun, .inl htodo, h.last,
      fun hnil => absurd hnil hne, fun _ hdue k hk => ?_, nofun⟩
    have hend : m.tsEnd ≤ s.gvtSig.recvTs := by
      rcases hdue with hpast | ⟨-, hle⟩
      · exact hpast.le
      · exact hle
    exact hcut hend k (hk.trans_le hdone)

/-! ## Steps and runs -/

/-- A step of a PE's own program. -/
theorem step (hm : m.synch = .optimistic ∨ m.synch = .optimisticRealtime) {i : Input T M}
    (h : Finishing m g s) (htested : TestedPe m g s) (hin : s.InTime m)
    (hi : ∀ c, i ≠ .call c)
    (hs : s.step m i = .ok s') : Finishing m (s.noteTest s' g) s' := by
  have hturn := Pe.step_turn hs
  clear hs
  have net : ∀ {n : NetLoop}, s.net = n → n ≠ .off → s'.phase = s.phase →
      (s.todo ≠ [] → Finishing m g s') → Finishing m (s.noteTest s' g) s' := by
    intro n hn hne hphase h'
    have hoff : s.net ≠ .off := hn.symm ▸ hne
    rw [TestedPe.noteTest_eq (TestedPe.testsWindow_of_net hoff) (.inl hphase)]
    exact h' (h.todo_ne_nil fun hidle => hoff hidle.1)
  have inside : ∀ {p : Phase T M}, s.At p → p.notesTest = false →
      (s.todo ≠ [] → Finishing m g s') → Finishing m (s.noteTest s' g) s' := by
    intro p hat hp h'
    rw [TestedPe.noteTest_of_at hat hp]
    refine h' (h.todo_ne_nil fun hidle => ?_)
    rw [← hat.2.2, hidle.2.2] at hp
    cases hp
  cases hturn with
  | recv hn hp hs =>
      refine net hn nofun (Pe.Flow.recvFinish hs).2.2 fun hne => ?_
      have h₁ : Finishing m g { s with net := .testRecvs true } :=
        h.frame hne (fun _ => rfl) rfl rfl rfl rfl rfl
      exact h₁.recvFinish hne hs
  | testRecvs hn hs =>
      subst hs
      exact net hn nofun rfl fun hne => h.frame hne (fun _ => rfl) rfl rfl rfl rfl rfl
  | @sent read changed e hn he hs =>
      refine net hn nofun (Pe.Flow.sendFinish hs).2.2 fun hne => ?_
      have h₁ : Finishing m g { s with net := .testSends read true } :=
        h.frame hne (fun _ => rfl) rfl rfl rfl rfl rfl
      exact h₁.sendFinish hne hs
  | testSends hn hs =>
      subst hs
      exact net hn nofun rfl fun hne => h.frame hne (fun _ => rfl) rfl rfl rfl rfl rfl
  | recvBegin hn hs =>
      rcases Pe.recvBegin_ok hs with rfl | ⟨-, -, rfl⟩
      · exact net hn nofun rfl fun hne => h.frame hne (fun _ => rfl) rfl rfl rfl rfl rfl
      · exact net hn nofun rfl fun hne => h.frame hne (fun _ => rfl) rfl rfl rfl rfl rfl
  | sendBegin hn hs =>
      subst hs
      exact net hn nofun (Pe.Flow.sendBegin m s _ _).2.2 fun hne => h.sendBegin hne _ _
  | rollback hn hr hs =>
      have hne : s.todo ≠ [] := h.todo_ne_nil fun hidle =>
        Option.some_ne_none _ (hr.symm.trans hidle.2.1)
      have htest : s.testsWindow = false := by
        unfold Pe.testsWindow
        rw [hr]
        exact Bool.and_eq_false_imp.mpr fun hb => by simp at hb
      have hnote : s.noteTest s' g = g :=
        TestedPe.noteTest_eq htest ((htested.rollbackStep hr hs).2.imp id .inr)
      rw [hnote]
      refine h.rollbackStep hne (fun k hk => ?_) hr hs
      exact (Pe.Flow.rollbackStep hn hr hs).nil (fun hnone => absurd hr (hnone ▸ nofun)) hk
  | call hat ht hs => exact h.call htested hat ht hs
  | outerCall hat ht hs => exact absurd rfl (hi _)
  | eventQ hat hs => exact inside hat rfl fun hne => h.schedEventQ hne hat hs
  | eventQRollback hat hs => exact inside hat rfl fun hne => h.schedStraggler hne hat hs
  | cancelQ hat hs =>
      refine inside hat rfl fun hne => h.schedCancelQ hne hat (fun k hk => ?_) hs
      rw [(Pe.Flow.schedCancelQ hs).1.pevent]
      exact hk
  | cancelQRollback hat hs =>
      refine inside hat rfl fun hne => h.kpRollbackEvent hne hat.2.1 ?_ hs
      rw [hat.2.2]
      rfl
  | rollbackToSig hat hs =>
      refine inside hat rfl fun hne => h.kpRollbackToSig hne hat.2.1 ?_ hs
      rw [hat.2.2]
      rfl
  | rollbackToSigDone hat _ hs =>
      subst hs
      refine inside hat rfl fun hne => ?_
      have hidle : s.phase ≠ .idle := by rw [hat.2.2]; exact nofun
      have hcol : s.phase.collects = false := by rw [hat.2.2]; rfl
      exact h.leave hidle hcol hne (fun _ hk => hk) rfl rfl rfl rfl fun hsome =>
        absurd hat.2.1 hsome
  | batch hat hs =>
      refine h.batchStep (h.todo_ne_nil fun hidle => ?_) hat hs
      cases hidle.2.2.symm.trans hat.2.2
  | @handlerOp kind left lp op ops expired hat hs =>
      exact inside hat rfl fun hne => (h.nextOp hat hne).handlerOp hne hs
  | handlerReturn hat hc hs => exact inside hat rfl fun hne => h.handlerReturn hne hat hs
  | @initOp lp op ops expired hat hs =>
      refine inside hat rfl fun hne => ?_
      have hidle : s.phase ≠ .idle := by rw [hat.2.2]; exact nofun
      have hcol : s.phase.collects = false := by rw [hat.2.2]; rfl
      have h₁ : Finishing m g { s with phase := .lpInit lp ops } :=
        h.leave hidle hcol hne (fun _ hk => hk) rfl rfl rfl rfl fun hsome =>
          absurd hat.2.1 hsome
      exact h₁.handlerOp hne hs
  | initReturn hat _ hs =>
      subst hs
      refine inside hat rfl fun hne => ?_
      have hidle : s.phase ≠ .idle := by rw [hat.2.2]; exact nofun
      have hcol : s.phase.collects = false := by rw [hat.2.2]; rfl
      exact h.leave hidle hcol hne (fun _ hk => hk) rfl rfl rfl rfl fun hsome =>
        absurd hat.2.1 hsome
  | whiteLoop hat hs =>
      subst hs
      refine inside hat rfl fun hne => ?_
      have hidle : s.phase ≠ .idle := by rw [hat.2.2]; exact nofun
      have hcol : s.phase.collects = false := by rw [hat.2.2]; rfl
      exact h.leave hidle hcol hne (fun _ hk => hk) rfl rfl rfl rfl fun hsome =>
        absurd hat.2.1 hsome
  | reduce hat hs =>
      subst hs
      exact inside hat rfl fun _ => h.reduceDone hat _
  | reduced hat hs => exact inside hat rfl fun hne => h.afterReduction htested hat hne hs
  | gvtStore hat hs => exact inside hat rfl fun hne => gvtStore hm h hat hne hs
  | fossil hat hs => exact inside hat rfl fun hne => h.fossilStep hin hat hne hs
  | hook hat hs => exact inside hat rfl fun hne => h.hookStep hat hne hs

/-- What a PE starts with. -/
theorem start (hm : m.synch = .optimistic ∨ m.synch = .optimisticRealtime) (i : Nat) :
    Finishing m none (Pe.start m i (Pe.program m i)) := by
  have hscheduler : (Pe.schedulerCall m).plain = true ∧ (Pe.schedulerCall m).loops = true := by
    unfold Pe.schedulerCall
    rcases hm with hm | hm
    · rw [hm]
      exact ⟨rfl, rfl⟩
    · rw [hm]
      exact ⟨rfl, rfl⟩
  have hlast : (Pe.program m i).getLast? = some (Pe.schedulerCall m) :=
    List.getLast?_append_of_ne_nil _ (List.cons_ne_nil _ _)
  refine ⟨nofun, nofun, nofun, .inl fun c hc => ?_, fun c hc => ?_, fun hnil => ?_,
    fun _ _ _ _ => rfl, nofun⟩
  · change c ∈ Pe.program m i at hc
    unfold Pe.program at hc
    rcases List.mem_append.mp hc with hc | hc
    · rcases List.mem_append.mp hc with hc | hc
      · rcases List.mem_append.mp hc with hc | hc
        · obtain ⟨lp, -, rfl⟩ := List.mem_map.mp hc
          rfl
        · obtain ⟨lp, -, rfl⟩ := List.mem_map.mp hc
          rfl
      · exact readCall_plain m c hc
    · rw [List.mem_singleton.mp hc]
      exact hscheduler.1
  · change (Pe.program m i).getLast? = some c at hc
    cases hlast.symm.trans hc
    exact hscheduler.2
  · change Pe.program m i = [] at hnil
    rw [hnil] at hlast
    cases hlast

end Finishing

end Ross

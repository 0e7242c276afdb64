import Ross.Core.System
import Ross.Lib.StagedProgram

/-!
# The optimism window

`NOT_PAST_LOOKAHEAD` compares the least timestamp of the priority queue with GVT once in each
turn of an optimistic scheduler, in `tw_gvt_step1` or `tw_gvt_step1_realtime`.  A PE past the
window computes GVT in this turn.  The batch that follows has no such test.
-/

namespace Ross

open Transition StagedProgram

variable {T S M R : Type} [TwStime T]

/-! ## The last test -/

/-- A PE at its last call of `tw_gvt_step1` or `tw_gvt_step1_realtime`, and the number of
events its batches have started since. -/
structure WindowTest (T S M R : Type) where
  pe : Pe T S M R
  events : Nat

/-- The calls that test the window. -/
def Call.testsWindow : Call T → Bool
  | .gvtStep1 => true
  | .gvtStep1Realtime => true
  | _ => false

namespace Pe

/-- The PE is about to call `tw_gvt_step1` or `tw_gvt_step1_realtime`. -/
def testsWindow (s : Pe T S M R) : Bool :=
  decide (s.net = .off) && s.rollback.isNone &&
    match s.phase, s.todo with
    | .idle, c :: _ => c.testsWindow
    | _, _ => false

/-- A batch takes an event off the priority queue and calls its forward handler. -/
def processes (s s' : Pe T S M R) : Bool :=
  match s.phase, s'.phase with
  | .batch _ _, .handler _ _ _ _ => true
  | _, _ => false

/-- The record of the last test after a step of the PE. -/
def noteTest (s s' : Pe T S M R) (g : Option (WindowTest T S M R)) :
    Option (WindowTest T S M R) :=
  if s.testsWindow then some ⟨s, 0⟩
  else if s.processes s' then g.map fun t => { t with events := t.events + 1 }
  else g

end Pe

namespace System

/-- The records of all PEs after a step of the system. -/
def noteTests (s : System T S M R) (l : SystemInput T M) (s' : System T S M R)
    (g : Nat → Option (WindowTest T S M R)) : Nat → Option (WindowTest T S M R) := fun i =>
  if l.actor = some i then (s i).noteTest (s' i) (g i) else g i

/-- The states of all runs, with the last test of each PE. -/
def TestedRun (m : SimModel T S M R) :
    System T S M R × (Nat → Option (WindowTest T S M R)) → Prop :=
  Recorded noteTests (· = start m) (fun a l b => a.step m l = .ok b) fun _ => none

end System

/-! ## The stages of a turn -/

/-- What is known in a turn of an optimistic scheduler: nothing since the last batch, that
the window has been tested, that GVT is going to be computed, that the PE was inside the
window or has computed GVT, that it has computed GVT. -/
inductive Stage
  | untested
  | tested
  | computing
  | checked
  | advanced

namespace Stage

/-- The stage after a call of the optimistic schedulers, where the call may be made. -/
def next : Stage → Call T → Option Stage
  | _, .gvtStep1 => some .tested
  | _, .gvtStep1Realtime => some .tested
  | .tested, .gvtStep2AndHook => some .checked
  | .advanced, .gvtStep2AndHook => some .checked
  | .computing, .gvtStep2 => some .advanced
  | .checked, .gvtStep2 => some .checked
  | .advanced, .gvtStep2 => some .advanced
  | .checked, .optimisticTail => some .checked
  | .advanced, .optimisticTail => some .checked
  | .checked, .optimisticRealtimeTail => some .checked
  | .advanced, .optimisticRealtimeTail => some .checked
  | .checked, .schedBatch => some .untested
  | .advanced, .schedBatch => some .untested
  | .checked, .schedBatchRealtime => some .untested
  | .advanced, .schedBatchRealtime => some .untested
  | _, .schedulerOptimistic => some .checked
  | _, .schedulerOptimisticRealtime => some .checked
  | .advanced, .gvtHookStep => some .advanced
  | .advanced, .rollbackAndCancelEventsPe => some .advanced
  | .advanced, .cleanupLoop => some .advanced
  | .advanced, .cleanupTest => some .advanced
  | .advanced, .hookReturn => some .advanced
  | st, .initLp _ => some st
  | st, .preRunLp _ => some st
  | st, .netRead => some st
  | st, .schedEventQ => some st
  | st, .schedCancelQ => some st
  | st, .kpRollbackToSig _ _ => some st
  | st, .gvtStatusOn => some st
  | _, _ => none

section

omit [TwStime T]

/-- The last stage allows all calls that another stage allows. -/
theorem next_advanced {a b : Stage} {c : Call T} {a' : Stage} (hab : a = b ∨ b = .advanced)
    (h : a.next c = some a') : ∃ b', b.next c = some b' ∧ (a' = b' ∨ b' = .advanced) := by
  rcases hab with rfl | rfl
  · exact ⟨a', h, .inl rfl⟩
  · cases c <;> cases a <;> cases h <;> first
      | exact ⟨_, rfl, .inl rfl⟩
      | exact ⟨_, rfl, .inr rfl⟩

/-- The last stage admits the program of every stage. -/
theorem admits_advanced {st : Stage} {cs : List (Call T)} (h : Admits next st cs) :
    Admits next .advanced cs :=
  h.mono next_advanced (.inr rfl)

theorem admits_readCall (m : SimModel T S M R) {st : Stage} {cs : List (Call T)}
    (h : Admits next st cs) : Admits next st (Pe.readCall m ++ cs) := by
  refine h.append_of_keep fun c hc => ?_
  rw [Pe.eq_netRead_of_mem hc]
  cases st <;> rfl

end

end Stage

/-! ## What holds at a stage -/

variable (m : SimModel T S M R)

namespace WindowTest

variable (t : WindowTest T S M R) (s : Pe T S M R)

/-- The PE has completed a GVT computation since the test. -/
def Advanced : Prop := t.pe.gvtDone < s.gvtDone

/-- The PE has completed a GVT computation since the test, or the least timestamp of its
priority queue then was inside the window of its current GVT. -/
def Checked : Prop :=
  t.Advanced s ∨ t.pe.twPqMinimumSig.recvTs - s.gvtSig.recvTs < m.maxOptLookahead

/-- What is known of the last test at a stage. -/
def Since : Stage → Prop
  | .untested => True
  | .tested => t.Checked m s ∨ s.gvtCompute = true
  | .computing => s.gvtCompute = true
  | .checked => t.Checked m s
  | .advanced => t.Advanced s

end WindowTest

/-- The record at a stage: before a test nothing is known of it, after it no event has been
started. -/
def Stage.Holds (g : Option (WindowTest T S M R)) (s : Pe T S M R) (st : Stage) : Prop :=
  st = .untested ∨ ∃ t, g = some t ∧ t.events = 0 ∧ t.pe.gvtDone ≤ s.gvtDone ∧
    t.Since m s st

/-- Where a PE is in a turn of its scheduler. -/
inductive Place
  | outside
  | gvt
  | hook
  | batch (left : Nat)

/-- The place a phase belongs to. -/
def Phase.place : Phase T M → Place
  | .batch _ left => .batch left
  | .handler _ left _ _ => .batch left
  | .whiteLoop => .gvt
  | .gvtStore _ => .gvt
  | .reduce .white => .gvt
  | .reduce .lvt => .gvt
  | .reduced .white _ => .gvt
  | .reduced .lvt _ => .gvt
  | .reduce _ => .hook
  | .reduced _ _ => .hook
  | .inHook => .hook
  | _ => .outside

/-- The phases whose steps may change the record of the last test. -/
def Phase.notesTest : Phase T M → Bool
  | .idle => true
  | .batch _ _ => true
  | _ => false

/-- A rollback may be in progress at the place. -/
def Place.RollsBack : Place → Prop
  | .outside => True
  | .gvt => False
  | .hook => False
  | .batch _ => True

/-- The record of the last test fits the place and the rest of the program. -/
def Place.Fits (g : Option (WindowTest T S M R)) (s : Pe T S M R) : Place → Prop
  | .outside => ∃ st : Stage, st.Holds m g s ∧ Admits Stage.next st s.todo
  | .gvt => (∃ t, g = some t ∧ t.events = 0 ∧ t.pe.gvtDone ≤ s.gvtDone) ∧
      Admits Stage.next .advanced s.todo
  | .hook => Stage.Holds m g s .advanced ∧ Admits Stage.next .advanced s.todo
  | .batch left => (∃ t, g = some t ∧ t.events + left ≤ m.mblock ∧ t.Checked m s) ∧
      Admits Stage.next .untested s.todo

/-- A PE whose last test allows what it is about to do. -/
structure TestedPe (g : Option (WindowTest T S M R)) (s : Pe T S M R) : Prop where
  rollback : s.rollback ≠ none → s.phase.place.RollsBack
  fits : s.phase.place.Fits m g s

/-! ## Steps that leave GVT alone -/

/-- What such a step keeps; it may ask for a GVT computation. -/
structure KeepsGvt (s s' : Pe T S M R) : Prop where
  gvtSig : s'.gvtSig = s.gvtSig
  gvtDone : s'.gvtDone = s.gvtDone
  gvtCompute : s.gvtCompute = true → s'.gvtCompute = true

section Keeps

variable {m} {g : Option (WindowTest T S M R)} {s s' : Pe T S M R}

omit [TwStime T] in
theorem KeepsGvt.advanced (hk : KeepsGvt s s') {t : WindowTest T S M R} (h : t.Advanced s) :
    t.Advanced s' := by
  unfold WindowTest.Advanced at *
  rwa [hk.gvtDone]

theorem KeepsGvt.checked (hk : KeepsGvt s s') {t : WindowTest T S M R} (h : t.Checked m s) :
    t.Checked m s' := by
  rcases h with h | h
  · exact .inl (hk.advanced h)
  · exact .inr (by rwa [hk.gvtSig])

theorem KeepsGvt.holds (hk : KeepsGvt s s') {st : Stage} (h : st.Holds m g s) :
    st.Holds m g s' := by
  rcases h with h | ⟨t, ht, hev, hdone, hsince⟩
  · exact .inl h
  refine .inr ⟨t, ht, hev, hk.gvtDone ▸ hdone, ?_⟩
  cases st with
  | untested => trivial
  | tested => exact hsince.imp hk.checked hk.gvtCompute
  | computing => exact hk.gvtCompute hsince
  | checked => exact hk.checked hsince
  | advanced => exact hk.advanced hsince

/-- The PE is outside of a batch, at a stage that admits its program. -/
theorem TestedPe.outside (st : Stage) (hp : s'.phase.place = .outside)
    (hst : st.Holds m g s') (hprog : Admits Stage.next st s'.todo) : TestedPe m g s' :=
  ⟨fun _ => by rw [hp]; trivial, by rw [hp]; exact ⟨st, hst, hprog⟩⟩

/-- Outside of a batch, the program may go on in any way that the stage admits. -/
theorem TestedPe.keep {st : Stage} (hst : st.Holds m g s) (hk : KeepsGvt s s')
    (hp : s'.phase.place = .outside) (hprog : Admits Stage.next st s'.todo) : TestedPe m g s' :=
  .outside st hp (hk.holds hst) hprog

/-- A step inside of a place. -/
theorem TestedPe.stay (h : TestedPe m g s) (hk : KeepsGvt s s') (ht : s'.todo = s.todo)
    (hp : s'.phase.place = s.phase.place)
    (hr : s'.rollback ≠ none → s.phase.place.RollsBack) : TestedPe m g s' := by
  have hfits := h.fits
  refine ⟨fun hne => hp ▸ hr hne, ?_⟩
  rw [hp]
  cases hplace : s.phase.place with
  | outside =>
      rw [hplace] at hfits
      obtain ⟨st, hst, hprog⟩ := hfits
      exact ⟨st, hk.holds hst, ht ▸ hprog⟩
  | gvt =>
      rw [hplace] at hfits
      obtain ⟨⟨t, hg, hev, hdone⟩, hprog⟩ := hfits
      exact ⟨⟨t, hg, hev, hk.gvtDone ▸ hdone⟩, ht ▸ hprog⟩
  | hook =>
      rw [hplace] at hfits
      exact ⟨hk.holds hfits.1, ht ▸ hfits.2⟩
  | batch left =>
      rw [hplace] at hfits
      obtain ⟨⟨t, hg, hev, hchecked⟩, hprog⟩ := hfits
      exact ⟨⟨t, hg, hev, hk.checked hchecked⟩, ht ▸ hprog⟩

/-- A step that ends a batch, or stays outside of one. -/
theorem TestedPe.leave (h : TestedPe m g s) (hb : s.phase.place.RollsBack) (hk : KeepsGvt s s')
    (ht : s'.todo = s.todo) (hp : s'.phase.place = .outside) : TestedPe m g s' := by
  have hfits := h.fits
  cases hplace : s.phase.place with
  | outside => exact h.stay hk ht (hp.trans hplace.symm) fun _ => hb
  | gvt =>
      rw [hplace] at hb
      exact absurd hb id
  | hook =>
      rw [hplace] at hb
      exact absurd hb id
  | batch left =>
      rw [hplace] at hfits
      exact .outside .untested hp (.inl rfl) (ht ▸ hfits.2)

/-- A step of the network loop, or a call of a handler into the kernel. -/
theorem TestedPe.same (h : TestedPe m g s) (hk : KeepsGvt s s') (ht : s'.todo = s.todo)
    (hp : s'.phase = s.phase) (hr : s'.rollback = s.rollback) : TestedPe m g s' :=
  h.stay hk ht (by rw [hp]) fun hne => h.rollback (hr ▸ hne)

end Keeps

/-! ## The network, handlers and rollbacks -/

namespace TestedPe

open Pe

variable {m} {g : Option (WindowTest T S M R)} {s s' : Pe T S M R}

theorem recvFinish {src : Nat} {w : WireMsg T M} (h : TestedPe m g s)
    (hs : s.recvFinish m src w = .ok s') : TestedPe m g s' ∧ s'.phase = s.phase := by
  obtain ⟨-, ⟨-, c, -, rfl⟩ | ⟨-, -, ⟨-, -, rfl⟩ | ⟨-, rfl⟩⟩⟩ := recvFinish_ok hs
  · exact ⟨h.same ⟨rfl, rfl, id⟩ rfl rfl rfl, rfl⟩
  · exact ⟨h.same ⟨rfl, rfl, id⟩ rfl rfl rfl, rfl⟩
  · exact ⟨h.same ⟨rfl, rfl, id⟩ rfl rfl rfl, rfl⟩

theorem sendFinish {e : TwEvent T} (h : TestedPe m g s) (hs : s.sendFinish m e = .ok s') :
    TestedPe m g s' ∧ s'.phase = s.phase := by
  rcases sendFinish_ok hs with ⟨-, -, rfl⟩ | ⟨-, -, -, rfl⟩ | ⟨-, -, -, rfl⟩ | ⟨-, rfl⟩
  · exact ⟨h.same ⟨rfl, rfl, id⟩ rfl rfl rfl, rfl⟩
  · exact ⟨h.same ⟨rfl, rfl, id⟩ rfl rfl rfl, rfl⟩
  · exact ⟨h.same ⟨rfl, rfl, id⟩ rfl rfl rfl, rfl⟩
  · exact ⟨h.same ⟨rfl, rfl, id⟩ rfl rfl rfl, rfl⟩

theorem recvBegin {changed : Bool} (h : TestedPe m g s) (hs : s.recvBegin m changed = .ok s') :
    TestedPe m g s' ∧ s'.phase = s.phase := by
  rcases recvBegin_ok hs with rfl | ⟨-, -, rfl⟩
  · exact ⟨h.same ⟨rfl, rfl, id⟩ rfl rfl rfl, rfl⟩
  · exact ⟨h.same ⟨rfl, rfl, id⟩ rfl rfl rfl, rfl⟩

theorem sendBegin (h : TestedPe m g s) (read changed : Bool) :
    TestedPe m g (s.sendBegin m read changed) ∧ (s.sendBegin m read changed).phase = s.phase := by
  rcases sendBegin_ok (m := m) s read changed with ⟨e, -, -, hs⟩ | ⟨-, hs⟩
  · rw [hs]
    exact ⟨h.same ⟨rfl, rfl, id⟩ rfl rfl rfl, rfl⟩
  · rw [hs]
    exact ⟨h.same ⟨rfl, rfl, id⟩ rfl rfl rfl, rfl⟩

theorem handlerOp {lp : Nat} {op : HandlerOp T M} (h : TestedPe m g s)
    (hs : s.handlerOp m lp op = .ok s') : TestedPe m g s' := by
  cases op with
  | eventNew destGid offsetTs prio msg =>
      obtain ⟨-, ⟨-, rfl⟩ | ⟨-, -, rfl⟩⟩ := twEventNewUserPrio_ok hs
      · exact h.same ⟨rfl, rfl, id⟩ rfl rfl rfl
      · exact h.same ⟨rfl, rfl, id⟩ rfl rfl rfl
  | eventSend i =>
      rcases twEventSend_ok hs with ⟨-, rfl⟩ | ⟨e, msg, -, -, rfl⟩
      · exact h.same ⟨rfl, rfl, id⟩ rfl rfl rfl
      · have hprep : TestedPe m g (s.prepare i e msg) := h.same ⟨rfl, rfl, id⟩ rfl rfl rfl
        rcases deliver_cases m (s.prepare i e msg) (s.stamp e) with
          ⟨-, -, hd⟩ | ⟨-, -, hd⟩ | ⟨-, hd⟩
        · rw [hd]
          exact hprep.same ⟨rfl, rfl, id⟩ rfl rfl rfl
        · rw [hd]
          exact hprep.same ⟨rfl, rfl, id⟩ rfl rfl rfl
        · rw [hd]
          exact hprep.same ⟨rfl, rfl, id⟩ rfl rfl rfl
  | lpSuspend doOrigEventRc =>
      cases hs
      exact h.same ⟨rfl, rfl, id⟩ rfl rfl rfl
  | triggerGvtHookNow =>
      rcases twTriggerGvtHookNow_ok hs with rfl | ⟨-, rfl⟩
      · exact h
      · exact h.same ⟨rfl, rfl, fun _ => rfl⟩ rfl rfl rfl

theorem rollbackStep {r : Rollback T} (h : TestedPe m g s) (hr : s.rollback = some r)
    (hs : s.rollbackStep m r = .ok s') :
    TestedPe m g s' ∧ (s'.phase = s.phase ∨ s'.phase.place = .outside) := by
  have hb : s.phase.place.RollsBack := h.rollback (by rw [hr]; exact Option.some_ne_none r)
  unfold Pe.rollbackStep at hs
  split at hs
  next e rest hc =>
    obtain ⟨_, _, _, _, _, _, _, _, -, -, -, rfl⟩ := rollbackChild_frame hs
    exact ⟨h.stay ⟨rfl, rfl, id⟩ rfl rfl fun _ => hb, .inl rfl⟩
  · cases hs
    rw [afterRollback_eq]
    cases r.after with
    | requeueReset => exact ⟨h.stay ⟨rfl, rfl, id⟩ rfl rfl fun _ => hb, .inl rfl⟩
    | requeue => exact ⟨h.stay ⟨rfl, rfl, id⟩ rfl rfl fun _ => hb, .inl rfl⟩
    | freeReset => exact ⟨h.leave hb ⟨rfl, rfl, id⟩ rfl rfl, .inr rfl⟩
    | abort kind => exact ⟨h.leave hb ⟨rfl, rfl, id⟩ rfl rfl, .inr rfl⟩

/-! ## Calls -/

/-- The test of the window: a PE past it is going to compute GVT. -/
theorem gvtStep1_tests (s : Pe T S M R) :
    (s.gvtStep1 m).gvtCompute = true ∨ s.notPastLookahead m = true := by
  unfold gvtStep1
  dsimp only
  split
  next hg => exact .inl hg
  next hg =>
    split
    next hin => exact .inr hin.2.1
    · exact .inl rfl

theorem gvtStep1Realtime_tests (s : Pe T S M R) (expired : Bool) :
    (s.gvtStep1Realtime m expired).gvtCompute = true ∨ s.notPastLookahead m = true := by
  unfold gvtStep1Realtime
  split
  next hg => exact .inl hg
  next hg =>
    split
    next hin => exact .inr hin.2.1
    · exact .inl rfl

/-- The stage after the test. -/
theorem tested {rest : List (Call T)}
    (hs : ∃ n b, s' = { s with todo := rest, gvtCnt := n, gvtCompute := b })
    (hp : s.phase = .idle)
    (htest : s'.gvtCompute = true ∨ s.notPastLookahead m = true)
    (hprog : Admits Stage.next .tested rest) : TestedPe m (some ⟨s, 0⟩) s' := by
  obtain ⟨n, b, rfl⟩ := hs
  have hplace : s.phase.place = .outside := by rw [hp]; rfl
  refine outside .tested hplace (.inr ⟨⟨s, 0⟩, rfl, rfl, le_rfl, ?_⟩) hprog
  rcases htest with hc | hin
  · exact .inr hc
  · exact .inl (.inr (of_decide_eq_true hin))

/-- The stages at which `tw_gvt_step2` may be called, and what it does there. -/
theorem gvtStep2 {st st' : Stage} (hp : s.phase = .idle) (hr : s.rollback = none)
    (hst : st.Holds m g s) (hnext : st.next (.gvtStep2 : Call T) = some st')
    (hprog : Admits Stage.next st' s.todo) :
    TestedPe m g (if s.gvtCompute then { s with phase := .whiteLoop } else s) := by
  have hplace : s.phase.place = .outside := by rw [hp]; rfl
  have hne : st ≠ .untested := by
    rintro rfl
    cases hnext
  obtain ⟨t, hg, hev, hdone, hsince⟩ := hst.resolve_left hne
  split
  next hc =>
    exact ⟨fun h => absurd hr h, ⟨t, hg, hev, hdone⟩, Stage.admits_advanced hprog⟩
  next hc =>
    cases st with
    | untested => exact absurd rfl hne
    | tested => cases hnext
    | computing => exact absurd hsince hc
    | checked =>
        cases hnext
        exact outside _ hplace (.inr ⟨t, hg, hev, hdone, hsince⟩) hprog
    | advanced =>
        cases hnext
        exact outside _ hplace (.inr ⟨t, hg, hev, hdone, hsince⟩) hprog

/-- `tw_gvt_step2` and, when GVT is going to be computed, `tw_gvt_hook_step`. -/
theorem gvtStep2AndHook {st st' : Stage} (hp : s.phase = .idle) (hst : st.Holds m g s)
    (hnext : st.next (.gvtStep2AndHook : Call T) = some st')
    (hprog : Admits Stage.next st' s.todo) :
    TestedPe m g { s with
      todo := .gvtStep2 :: (if s.gvtCompute then [.gvtHookStep] else []) ++ s.todo } := by
  have hplace : s.phase.place = .outside := by rw [hp]; rfl
  have hadv : Admits Stage.next .advanced s.todo := Stage.admits_advanced hprog
  have hk : ∀ todo, KeepsGvt s { s with todo } := fun _ => ⟨rfl, rfl, id⟩
  cases st with
  | untested => cases hnext
  | computing => cases hnext
  | checked => cases hnext
  | tested =>
      cases hnext
      obtain ⟨t, hg, hev, hdone, hsince⟩ := hst.resolve_left Stage.noConfusion
      by_cases hc : s.gvtCompute = true
      · rw [if_pos hc]
        refine outside .computing hplace (.inr ⟨t, hg, hev, hdone, hc⟩) ?_
        exact .cons rfl (.cons rfl hadv)
      · rw [if_neg hc]
        have hchecked : t.Checked m s := hsince.resolve_right hc
        refine outside .checked hplace (.inr ⟨t, hg, hev, hdone, ?_⟩) (.cons rfl hprog)
        exact (hk _).checked hchecked
  | advanced =>
      cases hnext
      refine outside .advanced hplace ((hk _).holds hst) (.cons rfl ?_)
      split
      · exact .cons rfl hadv
      · exact hadv

/-- At the last stage the hook may be called, whatever it does to GVT. -/
theorem inHook (hr : s'.rollback = none) (hp : s'.phase.place = .hook)
    (hdone : s'.gvtDone = s.gvtDone) (hst : Stage.Holds m g s .advanced)
    (hprog : Admits Stage.next .advanced s'.todo) : TestedPe m g s' := by
  obtain ⟨t, hg, hev, hle, hadv⟩ := hst.resolve_left Stage.noConfusion
  have hadv : t.pe.gvtDone < s.gvtDone := hadv
  have hadv' : t.pe.gvtDone < s'.gvtDone := hdone ▸ hadv
  refine ⟨fun h => absurd hr h, ?_⟩
  rw [hp]
  exact ⟨.inr ⟨t, hg, hev, hadv'.le, hadv'⟩, hprog⟩

theorem callHook (trigger : GvtHookTrigger T) (hr : s.rollback = none)
    (hst : Stage.Holds m g s .advanced) (hprog : Admits Stage.next .advanced s.todo)
    (hs : ({ s with trigger } : Pe T S M R).callHook m = .ok s') : TestedPe m g s' := by
  rcases callHook_ok hs with rfl | ⟨-, -, rfl⟩
  · exact inHook hr rfl rfl hst hprog
  · exact inHook hr rfl rfl hst hprog

theorem gvtHookStep (hp : s.phase = .idle) (hr : s.rollback = none)
    (hst : Stage.Holds m g s .advanced) (hprog : Admits Stage.next .advanced s.todo)
    (hs : s.gvtHookStep m = .ok s') : TestedPe m g s' := by
  have hplace : s.phase.place = .outside := by rw [hp]; rfl
  rcases gvtHookStep_ok hs with rfl | rfl | rfl | ⟨-, hs⟩
  · exact outside _ hplace hst hprog
  · exact inHook hr rfl rfl hst hprog
  · exact inHook hr rfl rfl hst hprog
  · exact callHook s.trigger hr hst hprog hs

/-- A batch may start at a stage after the test. -/
theorem startBatch {st : Stage} (kind : BatchKind) (hr : s.rollback = none)
    (hst : st.Holds m g s) (hcheck : st = .checked ∨ st = .advanced)
    (hprog : Admits Stage.next .untested s.todo) :
    TestedPe m g { s with phase := .batch kind m.mblock } := by
  have hne : st ≠ .untested := by rcases hcheck with rfl | rfl <;> exact Stage.noConfusion
  obtain ⟨t, hg, hev, -, hsince⟩ := hst.resolve_left hne
  have hchecked : t.Checked m s := by
    rcases hcheck with rfl | rfl
    · exact hsince
    · exact .inl hsince
  have hbound : t.events + m.mblock ≤ m.mblock := by omega
  exact ⟨fun h => absurd hr h, ⟨t, hg, hbound, hchecked⟩, hprog⟩

/-- The turn of a scheduler goes on with its batch, or the scheduler returns. -/
theorem schedulerTail {st : Stage} {batch scheduler : Call T} (hp : s.phase = .idle)
    (hst : st.Holds m g s) (hcheck : st = .checked ∨ st = .advanced)
    (hprog : Admits Stage.next .checked s.todo)
    (hbatch : Stage.next .checked batch = some .untested)
    (hscheduler : Stage.next .untested scheduler = some .checked) :
    TestedPe m g (if m.tsEnd < s.gvtSig.recvTs then s
      else { s with todo := [batch, scheduler] ++ s.todo }) := by
  have hplace : s.phase.place = .outside := by rw [hp]; rfl
  have hchecked : Stage.Holds m g s .checked := by
    rcases hcheck with rfl | rfl
    · exact hst
    · obtain ⟨t, hg, hev, hdone, hadv⟩ := hst.resolve_left Stage.noConfusion
      exact .inr ⟨t, hg, hev, hdone, .inl hadv⟩
  split
  · exact outside _ hplace hchecked hprog
  · refine outside .checked hplace ?_ (.cons hbatch (.cons hscheduler hprog))
    exact (KeepsGvt.mk rfl rfl id).holds hchecked

omit [TwStime T] in
/-- Of the calls those of the test are recorded. -/
theorem noteTest_call {c : Call T} {rest : List (Call T)} (hat : s.At .idle)
    (ht : s.todo = c :: rest) :
    s.noteTest s' g = if c.testsWindow then some ⟨s, 0⟩ else g := by
  obtain ⟨hn, hr, hp⟩ := hat
  have htest : s.testsWindow = c.testsWindow := by
    unfold testsWindow
    rw [hn, hr, hp, ht]
    rfl
  have hproc : s.processes s' = false := by
    unfold processes
    rw [hp]
  unfold noteTest
  rw [htest, hproc]
  rfl

/-- A call of the test starts a new record. -/
theorem callTest {c : Call T} {rest : List (Call T)} {expired : Bool} (h : TestedPe m g s)
    (hp : s.phase = .idle) (ht : s.todo = c :: rest) (hc : c.testsWindow = true)
    (hs : { s with todo := rest }.call m expired c = .ok s') : TestedPe m (some ⟨s, 0⟩) s' := by
  have hfits := h.fits
  rw [hp] at hfits
  obtain ⟨st, -, hprog⟩ := hfits
  rw [ht] at hprog
  obtain ⟨st', hnext, hprog⟩ := hprog
  have hcases : c = .gvtStep1 ∨ c = .gvtStep1Realtime := by
    cases c <;> first
      | exact .inl rfl
      | exact .inr rfl
      | cases hc
  rcases hcases with rfl | rfl
  · cases hs
    cases hnext
    obtain ⟨n, b, heq, -⟩ := gvtStep1_frame (m := m) { s with todo := rest }
    exact tested ⟨n, b, heq⟩ hp (gvtStep1_tests _) hprog
  · cases hs
    cases hnext
    obtain ⟨n, b, heq, -⟩ :=
      gvtStep1Realtime_frame (m := m) { s with todo := rest } expired
    exact tested ⟨n, b, heq⟩ hp (gvtStep1Realtime_tests _ expired) hprog

/-- Any other call keeps what is known of the last test. -/
theorem callOther {c : Call T} {rest : List (Call T)} {expired : Bool} (h : TestedPe m g s)
    (hat : s.At .idle) (ht : s.todo = c :: rest) (hc : c.testsWindow = false)
    (hs : { s with todo := rest }.call m expired c = .ok s') : TestedPe m g s' := by
  obtain ⟨-, hr, hp⟩ := hat
  have hplace : s.phase.place = .outside := by rw [hp]; rfl
  have hfits := h.fits
  rw [hplace] at hfits
  obtain ⟨st, hst, hprog⟩ := hfits
  rw [ht] at hprog
  obtain ⟨st', hnext, hprog⟩ := hprog
  have hst₁ : st.Holds m g ({ s with todo := rest } : Pe T S M R) :=
    (KeepsGvt.mk rfl rfl id).holds hst
  cases c with
  | initLp lp =>
      cases hs
      cases hnext
      exact keep hst ⟨rfl, rfl, id⟩ rfl hprog
  | preRunLp lp =>
      cases hs
      cases hnext
      exact keep hst ⟨rfl, rfl, id⟩ rfl hprog
  | netRead =>
      cases hs
      cases hnext
      exact keep hst ⟨rfl, rfl, id⟩ hplace hprog
  | schedEventQ =>
      cases hs
      cases hnext
      exact keep hst ⟨rfl, rfl, id⟩ rfl hprog
  | schedCancelQ =>
      cases hs
      cases hnext
      exact keep hst ⟨rfl, rfl, id⟩ rfl hprog
  | kpRollbackToSig kp toSig =>
      cases hs
      cases hnext
      exact keep hst ⟨rfl, rfl, id⟩ rfl hprog
  | gvtStatusOn =>
      cases hs
      cases hnext
      exact keep hst ⟨rfl, rfl, fun _ => rfl⟩ hplace hprog
  | gvtStep1 => cases hc
  | gvtStep1Realtime => cases hc
  | gvtStep2 =>
      cases hs
      exact gvtStep2 hp hr hst₁ hnext hprog
  | gvtStep2AndHook =>
      cases hs
      exact gvtStep2AndHook hp hst₁ hnext hprog
  | gvtHookStep =>
      cases st <;> cases hnext
      exact gvtHookStep (s := { s with todo := rest }) hp hr hst₁ hprog hs
  | schedBatch =>
      cases hs
      cases st <;> cases hnext
      · exact startBatch .plain hr hst₁ (.inl rfl) hprog
      · exact startBatch .plain hr hst₁ (.inr rfl) hprog
  | schedBatchRealtime =>
      cases hs
      cases st <;> cases hnext
      · exact startBatch .realtime hr hst₁ (.inl rfl) hprog
      · exact startBatch .realtime hr hst₁ (.inr rfl) hprog
  | conservativeBatch => cases st <;> cases hnext
  | rollbackAndCancelEventsPe =>
      cases hs
      cases st <;> cases hnext
      refine keep hst ⟨rfl, rfl, id⟩ hplace ?_
      refine Admits.append_of_keep (fun c hc => ?_) (.cons rfl hprog)
      obtain ⟨kp, -, rfl⟩ := List.mem_map.mp hc
      rfl
  | cleanupLoop =>
      cases hs
      cases st <;> cases hnext
      refine keep hst ⟨rfl, rfl, id⟩ hplace ?_
      rw [List.append_assoc]
      apply Stage.admits_readCall
      exact .cons rfl (.cons rfl (.cons rfl (.cons rfl (.cons rfl hprog))))
  | cleanupTest =>
      cases hs
      cases st <;> cases hnext
      exact inHook hr rfl rfl hst₁ hprog
  | hookReturn =>
      cases hs
      cases st <;> cases hnext
      exact inHook hr rfl rfl hst₁ hprog
  | schedulerOptimistic =>
      cases hs
      cases hnext
      refine keep hst ⟨rfl, rfl, id⟩ hplace ?_
      rw [List.append_assoc]
      apply Stage.admits_readCall
      exact .cons rfl (.cons rfl (.cons rfl (.cons rfl (.cons rfl hprog))))
  | schedulerOptimisticRealtime =>
      cases hs
      cases hnext
      refine keep hst ⟨rfl, rfl, id⟩ hplace ?_
      rw [List.append_assoc]
      apply Stage.admits_readCall
      exact .cons rfl (.cons rfl (.cons rfl (.cons rfl (.cons rfl hprog))))
  | optimisticTail =>
      cases hs
      cases st <;> cases hnext
      · exact schedulerTail hp hst₁ (.inl rfl) hprog rfl rfl
      · exact schedulerTail hp hst₁ (.inr rfl) hprog rfl rfl
  | optimisticRealtimeTail =>
      cases hs
      cases st <;> cases hnext
      · exact schedulerTail hp hst₁ (.inl rfl) hprog rfl rfl
      · exact schedulerTail hp hst₁ (.inr rfl) hprog rfl rfl
  | schedulerConservative => cases st <;> cases hnext
  | conservativeTail => cases st <;> cases hnext

/-! ## GVT and the hook -/

/-- The next phase of a GVT computation. -/
theorem gvtPhase (h : TestedPe m g s) (hr : s'.rollback = none)
    (hplace : s.phase.place = .gvt ∨ s.phase.place = .hook) (hdone : s'.gvtDone = s.gvtDone)
    (ht : s'.todo = s.todo) (hp : s'.phase.place = .gvt) : TestedPe m g s' := by
  have hfits := h.fits
  refine ⟨fun hne => absurd hr hne, ?_⟩
  rw [hp]
  rcases hplace with hplace | hplace
  · rw [hplace] at hfits
    obtain ⟨⟨t, hg, hev, hle⟩, hprog⟩ := hfits
    exact ⟨⟨t, hg, hev, hdone ▸ hle⟩, ht ▸ hprog⟩
  · rw [hplace] at hfits
    obtain ⟨t, hg, hev, hle, -⟩ := hfits.1.resolve_left Stage.noConfusion
    exact ⟨⟨t, hg, hev, hdone ▸ hle⟩, ht ▸ hfits.2⟩

theorem reduceDone {r : Reduction} (h : TestedPe m g s) (hat : s.At (.reduce r))
    (o : Outcome T) : TestedPe m g (s.reduceDone r o) := by
  obtain ⟨-, hr, hp⟩ := hat
  have hplace : s.phase.place = .gvt ∨ s.phase.place = .hook := by
    rw [hp]
    cases r <;> first
      | exact .inl rfl
      | exact .inr rfl
  cases o with
  | total white =>
      refine h.gvtPhase hr hplace rfl rfl ?_
      unfold Pe.reduceDone
      dsimp only
      split <;> rfl
  | gvt sig => exact h.gvtPhase hr hplace rfl rfl rfl
  | flag b =>
      refine h.stay ⟨rfl, rfl, id⟩ rfl ?_ fun hne => absurd hr hne
      rw [hp]
      cases r <;> rfl

/-- The program after a reduction of the hook or of its cleanup. -/
theorem afterReduction {r : Reduction} {flag : Bool} (h : TestedPe m g s)
    (hat : s.At (.reduced r flag)) (hs : s.afterReduction m r flag = .ok s') :
    TestedPe m g s' := by
  obtain ⟨-, hr, hp⟩ := hat
  have hfits := h.fits
  rw [hp] at hfits
  rcases afterReduction_ok hs with ⟨rfl | rfl, -, t, hcall⟩ | ⟨rfl | rfl | rfl, -, rfl⟩ |
    ⟨rfl | rfl, -, rfl⟩ | ⟨rfl, -, rfl⟩
  · exact callHook _ hr hfits.1 hfits.2 hcall
  · exact callHook _ hr hfits.1 hfits.2 hcall
  · exact keep hfits.1 ⟨rfl, rfl, id⟩ rfl hfits.2
  · exact keep hfits.1 ⟨rfl, rfl, id⟩ rfl hfits.2
  · exact keep hfits.1 ⟨rfl, rfl, id⟩ rfl hfits.2
  · exact keep hfits.1 ⟨rfl, rfl, id⟩ rfl (.cons rfl hfits.2)
  · exact keep hfits.1 ⟨rfl, rfl, id⟩ rfl (.cons rfl hfits.2)
  · exact inHook hr rfl rfl hfits.1 hfits.2

/-- A completed computation of GVT. -/
theorem gvtStore {gvt : TwEventSig T} (h : TestedPe m g s) (hp : s.phase = .gvtStore gvt)
    (hs : s.gvtStore m gvt = .ok s') : TestedPe m g s' := by
  have hfits := h.fits
  rw [hp] at hfits
  obtain ⟨⟨t, hg, hev, hdone⟩, hprog⟩ := hfits
  obtain ⟨-, n, rfl⟩ := gvtStore_ok hs
  have hadv : t.pe.gvtDone < s.gvtDone + 1 := Nat.lt_succ_of_le hdone
  refine outside .advanced ?_ (.inr ⟨t, hg, hev, hadv.le, hadv⟩) hprog
  dsimp only
  split <;> rfl

theorem hookStep {i : Input T M} (h : TestedPe m g s) (hat : s.At .inHook)
    (hs : s.hookStep i = .ok s') : TestedPe m g s' := by
  obtain ⟨-, hr, hp⟩ := hat
  have hnone : s.rollback ≠ none → s.phase.place.RollsBack := fun hne => absurd hr hne
  have hfits := h.fits
  rw [hp] at hfits
  obtain ⟨hst, hprog⟩ := hfits
  rcases hookStep_ok hs with ⟨-, -, t, rfl⟩ | ⟨-, rfl⟩ | ⟨-, rfl⟩
  · exact h.stay ⟨rfl, rfl, id⟩ rfl rfl hnone
  · exact keep hst ⟨rfl, rfl, id⟩ rfl (.cons rfl (.cons rfl hprog))
  · exact keep hst ⟨rfl, rfl, id⟩ rfl hprog

theorem fossilStep {kp : Nat} {children : List (TwEvent T)} (h : TestedPe m g s)
    (hp : s.phase = .fossilCollect kp children) (hs : s.fossilStep m kp children = .ok s') :
    TestedPe m g s' := by
  have hb : s.phase.place.RollsBack := by rw [hp]; trivial
  rcases fossilStep_ok hs with ⟨c, cs, -, ⟨-, rfl⟩ | ⟨-, rfl⟩⟩ | ⟨-, e, -, hs⟩ |
    ⟨-, -, -, rfl⟩ | ⟨-, -, -, rfl⟩
  · exact h.leave hb ⟨rfl, rfl, id⟩ rfl rfl
  · exact h.leave hb ⟨rfl, rfl, id⟩ rfl rfl
  · rcases commitEvent_ok hs with ⟨-, rfl⟩ | ⟨-, -, c, -, rfl⟩
    · exact h.leave hb ⟨rfl, rfl, id⟩ rfl rfl
    · exact h.leave hb ⟨rfl, rfl, id⟩ rfl rfl
  · exact h.leave hb ⟨rfl, rfl, id⟩ rfl rfl
  · exact h.leave hb ⟨rfl, rfl, id⟩ rfl rfl

/-! ## `event_q` and `cancel_q` -/

/-- The start of a rollback, wherever one may be. -/
theorem twEventRollback (h : TestedPe m g s) (hb : s.phase.place.RollsBack) (event : TwEvent T)
    (after : RollbackAfter) : TestedPe m g (s.twEventRollback m event after) := by
  obtain ⟨l, cv, msg, t, hs⟩ := twEventRollback_frame m s event after
  rw [hs]
  exact h.stay ⟨rfl, rfl, id⟩ rfl rfl fun _ => hb

theorem kpRollbackToSig {kp : Nat} {toSig : TwEventSig T} (h : TestedPe m g s)
    (hb : s.phase.place.RollsBack) (hs : s.kpRollbackToSig m kp toSig = some s') :
    TestedPe m g s' := by
  obtain ⟨e, rest, -, -, rfl⟩ := kpRollbackToSig_some hs
  have hshift : TestedPe m g (s.shiftPevent kp e rest) :=
    h.stay ⟨rfl, rfl, id⟩ rfl rfl fun _ => hb
  exact hshift.twEventRollback hb e _

theorem kpRollbackEvent {event : TwEvent T} (h : TestedPe m g s)
    (hb : s.phase.place.RollsBack) (hs : s.kpRollbackEvent m event = .ok s') :
    TestedPe m g s' := by
  obtain ⟨e, rest, -, ⟨-, rfl⟩ | ⟨-, hd, tl, -, rfl⟩⟩ := kpRollbackEvent_ok hs
  · have hshift : TestedPe m g (s.shiftPevent (m.kpOf event.destLp) e rest) :=
      h.stay ⟨rfl, rfl, id⟩ rfl rfl fun _ => hb
    exact hshift.twEventRollback hb e _
  · have hshift : TestedPe m g ((s.shiftPevent (m.kpOf event.destLp) e rest).setLastSig
        (m.kpOf event.destLp) hd.sig) :=
      h.stay ⟨rfl, rfl, id⟩ rfl rfl fun _ => hb
    exact hshift.twEventRollback hb e _

theorem schedEventQ (h : TestedPe m g s) (hp : s.phase = .eventQ)
    (hs : s.schedEventQ m = .ok s') : TestedPe m g s' := by
  have hb : s.phase.place.RollsBack := by rw [hp]; trivial
  have hplace : s.phase.place = .outside := by rw [hp]; rfl
  rcases schedEventQ_ok hs with
    ⟨cev, rest, -, ⟨-, rfl⟩ | ⟨-, -, ⟨-, rfl⟩ | ⟨-, rfl⟩⟩⟩ | ⟨-, -, rfl⟩ | ⟨-, -, rfl⟩
  · exact h.leave hb ⟨rfl, rfl, id⟩ rfl hplace
  · exact h.leave hb ⟨rfl, rfl, id⟩ rfl rfl
  · exact h.leave hb ⟨rfl, rfl, id⟩ rfl hplace
  · exact h.leave hb ⟨rfl, rfl, id⟩ rfl rfl
  · exact h.leave hb ⟨rfl, rfl, id⟩ rfl hplace

theorem schedStraggler (h : TestedPe m g s) (hp : s.phase = .eventQRollback)
    (hs : s.schedStraggler m = .ok s') : TestedPe m g s' := by
  have hb : s.phase.place.RollsBack := by rw [hp]; trivial
  obtain ⟨cev, rest, -, hs | ⟨-, rfl⟩⟩ := schedStraggler_ok hs
  · exact h.kpRollbackToSig hb hs
  · exact h.leave hb ⟨rfl, rfl, id⟩ rfl rfl

theorem schedCancelQ (h : TestedPe m g s) (hp : s.phase = .cancelQ)
    (hs : s.schedCancelQ = .ok s') : TestedPe m g s' := by
  have hb : s.phase.place.RollsBack := by rw [hp]; trivial
  have hplace : s.phase.place = .outside := by rw [hp]; rfl
  rcases schedCancelQ_ok hs with
    ⟨cev, rest, -, -, ⟨q, -, rfl⟩ | ⟨-, rfl⟩⟩ | ⟨-, -, rfl⟩ | ⟨-, -, rfl⟩
  · exact h.leave hb ⟨rfl, rfl, id⟩ rfl hplace
  · exact h.leave hb ⟨rfl, rfl, id⟩ rfl rfl
  · exact h.leave hb ⟨rfl, rfl, id⟩ rfl rfl
  · exact h.leave hb ⟨rfl, rfl, id⟩ rfl hplace

/-! ## Batches -/

/-- A turn of a batch ends it, or starts one more event of it. -/
theorem batchStep {kind : BatchKind} {left : Nat} (h : TestedPe m g s)
    (hat : s.At (.batch kind left)) (hs : s.batchStep m kind left = .ok s') :
    TestedPe m (s.noteTest s' g) s' := by
  obtain ⟨-, hr, hp⟩ := hat
  have hb : s.phase.place.RollsBack := by rw [hp]; trivial
  have htest : s.testsWindow = false := by
    unfold testsWindow
    rw [hp]
    exact Bool.and_false _
  rcases batchStep_ok hs with ⟨c, n, rfl⟩ | ⟨cev, -, -, hleft, -, rfl⟩
  · have hnote : s.noteTest { s with gvtCnt := c, noFreeEventBuffers := n, phase := .idle } g =
        g := by
      unfold noteTest processes
      rw [htest, hp]
      rfl
    rw [hnote]
    exact h.leave hb ⟨rfl, rfl, id⟩ rfl rfl
  · have hfits := h.fits
    rw [hp] at hfits
    obtain ⟨⟨t, hg, hev, hchecked⟩, hprog⟩ := hfits
    obtain ⟨l, cv, msg, ops, hrun⟩ :=
      runEvent_frame (m := m) (s.dequeued m cev) kind (left - 1) cev
    have hnote : s.noteTest ((s.dequeued m cev).runEvent m kind (left - 1) cev) g =
        some { t with events := t.events + 1 } := by
      unfold noteTest processes
      rw [htest, hp, hrun, hg]
      rfl
    rw [hnote, hrun]
    have hk : KeepsGvt s { s.dequeued m cev with
        ev := Function.update (s.dequeued m cev).ev cev
          { (s.dequeued m cev).ev cev with cv, msg }
        lp := l
        handles := []
        phase := .handler kind (left - 1) cev.destLp ops } := ⟨rfl, rfl, id⟩
    have hbound : t.events + 1 + (left - 1) ≤ m.mblock := by omega
    exact ⟨fun hne => absurd hr hne, ⟨_, rfl, hbound, hk.checked hchecked⟩, hprog⟩

theorem handlerReturn {kind : BatchKind} {left lp : Nat} {cev : TwEvent T} {expired : Bool}
    (h : TestedPe m g s) (hp : s.phase = .handler kind left lp [])
    (hs : s.handlerReturn m kind left cev expired = .ok s') : TestedPe m g s' := by
  have hb : s.phase.place.RollsBack := by rw [hp]; trivial
  have hplace : s.phase.place = .batch left := by rw [hp]; rfl
  rcases handlerReturn_ok hs with ⟨-, -, rfl⟩ | ⟨-, -, rfl⟩ | ⟨-, -, c, p, rfl | rfl, rfl⟩
  · exact h.stay ⟨rfl, rfl, id⟩ rfl hplace.symm fun _ => hb
  · have habort : TestedPe m g { s with cevAbort := false } :=
      h.stay ⟨rfl, rfl, id⟩ rfl rfl fun _ => hb
    exact habort.twEventRollback hb cev _
  · exact h.leave hb ⟨rfl, rfl, id⟩ rfl rfl
  · exact h.stay ⟨rfl, rfl, id⟩ rfl hplace.symm fun _ => hb

/-! ## Steps and runs -/

section

omit [TwStime T]

/-- Only the call of the test and the turns of a batch change the record. -/
theorem noteTest_eq (htest : s.testsWindow = false)
    (hproc : s'.phase = s.phase ∨ (∀ kind left, s.phase ≠ .batch kind left) ∨
      s'.phase.place = .outside) : s.noteTest s' g = g := by
  have hproc : s.processes s' = false := by
    unfold processes
    rcases hproc with hp | hp | hp
    · rw [hp]
      cases s.phase <;> rfl
    · split
      next kind left _ _ _ _ hb _ => exact absurd hb (hp kind left)
      · rfl
    · split
      next hh => rw [hh] at hp; cases hp
      · rfl
  unfold noteTest
  rw [htest, hproc]
  rfl

theorem testsWindow_of_net (hn : s.net ≠ .off) : s.testsWindow = false := by
  unfold testsWindow
  rw [decide_eq_false hn]
  rfl

theorem noteTest_of_at {p : Phase T M} (hat : s.At p) (hp : p.notesTest = false) :
    s.noteTest s' g = g := by
  obtain ⟨-, -, hphase⟩ := hat
  have hbatch : ∀ kind left, s.phase ≠ .batch kind left := by
    intro kind left hb
    rw [← hphase, hb] at hp
    cases hp
  have htest : s.testsWindow = false := by
    unfold testsWindow
    rw [hphase]
    cases p <;> first
      | exact Bool.and_false _
      | cases hp
  exact noteTest_eq htest (.inr (.inl hbatch))

end

/-- A step of the network loop is not recorded. -/
theorem net (hn : s.net ≠ .off) (h : TestedPe m g s' ∧ s'.phase = s.phase) :
    TestedPe m (s.noteTest s' g) s' := by
  rw [noteTest_eq (testsWindow_of_net hn) (.inl h.2)]
  exact h.1

/-- A step of a PE's own program. -/
theorem step {i : Input T M} (h : TestedPe m g s) (hi : ∀ c, i ≠ .call c)
    (hs : s.step m i = .ok s') : TestedPe m (s.noteTest s' g) s' := by
  have hturn := step_turn hs
  clear hs
  have hnet : ∀ {n : NetLoop}, s.net = n → n ≠ .off → s.net ≠ .off := fun hn hne h =>
    hne (hn.symm.trans h)
  cases hturn with
  | recv hn hp hs =>
      have h₁ : TestedPe m g { s with net := .testRecvs true } :=
        h.same ⟨rfl, rfl, id⟩ rfl rfl rfl
      exact net (hnet hn NetLoop.noConfusion) (h₁.recvFinish hs)
  | testRecvs hn hs =>
      subst hs
      exact net (hnet hn NetLoop.noConfusion) ⟨h.same ⟨rfl, rfl, id⟩ rfl rfl rfl, rfl⟩
  | @sent read changed e hn he hs =>
      have h₁ : TestedPe m g { s with net := .testSends read true } :=
        h.same ⟨rfl, rfl, id⟩ rfl rfl rfl
      exact net (hnet hn NetLoop.noConfusion) (h₁.sendFinish hs)
  | testSends hn hs =>
      subst hs
      exact net (hnet hn NetLoop.noConfusion) ⟨h.same ⟨rfl, rfl, id⟩ rfl rfl rfl, rfl⟩
  | recvBegin hn hs => exact net (hnet hn NetLoop.noConfusion) (h.recvBegin hs)
  | sendBegin hn hs =>
      subst hs
      exact net (hnet hn NetLoop.noConfusion) (h.sendBegin _ _)
  | rollback hn hr hs =>
      obtain ⟨h', hphase⟩ := h.rollbackStep hr hs
      have htest : s.testsWindow = false := by
        unfold testsWindow
        rw [hr]
        exact Bool.and_eq_false_imp.mpr fun hb => by simp at hb
      rw [noteTest_eq htest (hphase.imp id .inr)]
      exact h'
  | call hat ht hs =>
      rw [noteTest_call hat ht]
      split
      next hc => exact h.callTest hat.2.2 ht hc hs
      next hc => exact h.callOther hat ht (Bool.eq_false_iff.mpr hc) hs
  | outerCall hat ht hs => exact absurd rfl (hi _)
  | eventQ hat hs =>
      rw [noteTest_of_at hat rfl]
      exact h.schedEventQ hat.2.2 hs
  | eventQRollback hat hs =>
      rw [noteTest_of_at hat rfl]
      exact h.schedStraggler hat.2.2 hs
  | cancelQ hat hs =>
      rw [noteTest_of_at hat rfl]
      exact h.schedCancelQ hat.2.2 hs
  | cancelQRollback hat hs =>
      rw [noteTest_of_at hat rfl]
      exact h.kpRollbackEvent (by rw [hat.2.2]; trivial) hs
  | rollbackToSig hat hs =>
      rw [noteTest_of_at hat rfl]
      exact h.kpRollbackToSig (by rw [hat.2.2]; trivial) hs
  | rollbackToSigDone hat _ hs =>
      rw [noteTest_of_at hat rfl]
      subst hs
      exact h.leave (by rw [hat.2.2]; trivial) ⟨rfl, rfl, id⟩ rfl rfl
  | batch hat hs => exact h.batchStep hat hs
  | @handlerOp kind left lp op ops expired hat hs =>
      rw [noteTest_of_at hat rfl]
      have hb : s.phase.place.RollsBack := by rw [hat.2.2]; trivial
      have h₁ : TestedPe m g { s with phase := .handler kind left lp ops } :=
        h.stay ⟨rfl, rfl, id⟩ rfl (by rw [hat.2.2]; rfl) fun _ => hb
      exact h₁.handlerOp hs
  | handlerReturn hat hc hs =>
      rw [noteTest_of_at hat rfl]
      exact h.handlerReturn hat.2.2 hs
  | @initOp lp op ops expired hat hs =>
      rw [noteTest_of_at hat rfl]
      have hb : s.phase.place.RollsBack := by rw [hat.2.2]; trivial
      have h₁ : TestedPe m g { s with phase := .lpInit lp ops } :=
        h.stay ⟨rfl, rfl, id⟩ rfl (by rw [hat.2.2]; rfl) fun _ => hb
      exact h₁.handlerOp hs
  | initReturn hat _ hs =>
      rw [noteTest_of_at hat rfl]
      subst hs
      exact h.leave (by rw [hat.2.2]; trivial) ⟨rfl, rfl, id⟩ rfl rfl
  | whiteLoop hat hs =>
      rw [noteTest_of_at hat rfl]
      subst hs
      exact h.gvtPhase hat.2.1 (.inl (by rw [hat.2.2]; rfl)) rfl rfl rfl
  | reduce hat hs =>
      rw [noteTest_of_at hat rfl]
      subst hs
      exact h.reduceDone hat _
  | reduced hat hs =>
      rw [noteTest_of_at hat rfl]
      exact h.afterReduction hat hs
  | gvtStore hat hs =>
      rw [noteTest_of_at hat rfl]
      exact h.gvtStore hat.2.2 hs
  | fossil hat hs =>
      rw [noteTest_of_at hat rfl]
      exact h.fossilStep hat.2.2 hs
  | hook hat hs =>
      rw [noteTest_of_at hat rfl]
      exact h.hookStep hat hs

/-- What a PE starts with; its scheduler is one of the optimistic ones. -/
theorem start (hm : m.synch = .optimistic ∨ m.synch = .optimisticRealtime) (i : Nat) :
    TestedPe m none (Pe.start m i (program m i)) := by
  refine outside .untested rfl (.inl rfl) ?_
  have hscheduler : Stage.next .untested (schedulerCall m) = some .checked := by
    unfold schedulerCall
    rcases hm with hm | hm
    · rw [hm]
      rfl
    · rw [hm]
      rfl
  have hlast : Admits Stage.next .untested (readCall m ++ [schedulerCall m]) :=
    Stage.admits_readCall m (.cons hscheduler trivial)
  show Admits Stage.next .untested (program m i)
  unfold program
  rw [List.append_assoc, List.append_assoc]
  refine Admits.append_of_keep (fun c hc => ?_) (Admits.append_of_keep (fun c hc => ?_) hlast)
  · obtain ⟨lp, -, rfl⟩ := List.mem_map.mp hc
    rfl
  · obtain ⟨lp, -, rfl⟩ := List.mem_map.mp hc
    rfl

end TestedPe

namespace System

open Pe

variable {m}

section

omit [TwStime T]

theorem noteTests_self {s s' : System T S M R} {l : SystemInput T M} {i : Nat}
    (hl : l.actor = some i) (g : Nat → Option (WindowTest T S M R)) :
    s.noteTests l s' g i = (s i).noteTest (s' i) (g i) := if_pos hl

theorem noteTests_of_ne {s s' : System T S M R} {l : SystemInput T M} {i : Nat}
    (hl : l.actor ≠ some i) (g : Nat → Option (WindowTest T S M R)) :
    s.noteTests l s' g i = g i := if_neg hl

theorem processes_self (p : Pe T S M R) : p.processes p = false := by
  unfold processes
  cases p.phase <;> rfl

theorem processes_ok {p q : Pe T S M R} (h : p.processes q = true) :
    (∃ kind left, p.phase = .batch kind left) ∧
      ∃ kind left lp ops, q.phase = .handler kind left lp ops := by
  unfold processes at h
  split at h
  next hp hq => exact ⟨⟨_, _, hp⟩, _, _, _, _, hq⟩
  · cases h

end

/-- A step of the system keeps the records of all PEs true. -/
theorem testedPe_step {a b : System T S M R × (Nat → Option (WindowTest T S M R))}
    {l : SystemInput T M} (h : ∀ i, TestedPe m (a.2 i) (a.1 i))
    (hs : recorded noteTests (fun s l s' => s.step m l = .ok s') a l b) (i : Nat) :
    TestedPe m (b.2 i) (b.1 i) := by
  obtain ⟨s, g⟩ := a
  obtain ⟨s', g'⟩ := b
  obtain ⟨hs, hg⟩ := hs
  dsimp only at h hs hg ⊢
  rw [hg]
  cases step_of hs i with
  | own hl hc _ hp =>
      rw [noteTests_self hl]
      exact (h i).step hc hp
  | reduced hne hat hi =>
      rw [noteTests_of_ne hne, hi]
      exact (h i).reduceDone hat _
  | other hne hi =>
      rw [noteTests_of_ne hne, hi]
      exact h i

/-- In every run the record of each PE fits its state. -/
theorem TestedRun.testedPe (hm : m.synch = .optimistic ∨ m.synch = .optimisticRealtime)
    {a : System T S M R × (Nat → Option (WindowTest T S M R))} (h : TestedRun m a) (i : Nat) :
    TestedPe m (a.2 i) (a.1 i) := by
  refine ReachableVia.invariant (P := fun a => ∀ i, TestedPe m (a.2 i) (a.1 i))
    (fun a ha i => ?_) (fun a l b ha _ hs => testedPe_step ha hs) h i
  obtain ⟨hstart, hnone⟩ := ha
  rw [hstart, hnone]
  exact TestedPe.start hm i

/-- A PE starts an event in a step of its own. -/
theorem actor_of_processes {s s' : System T S M R} {l : SystemInput T M}
    (hs : s.step m l = .ok s') {i : Nat} (hi : (s i).processes (s' i) = true) :
    l.actor = some i := by
  cases step_of hs i with
  | own hl _ _ _ => exact hl
  | reduced _ hat _ =>
      unfold processes at hi
      rw [hat.2.2] at hi
      cases hi
  | other _ hsame =>
      rw [hsame, processes_self] at hi
      cases hi

/-- In every run of an optimistic scheduler, on any number of PEs, a PE that starts an event
has called the test of the window, with fewer than `g_tw_mblock` events since; and since that
call it has completed a GVT computation, or the least timestamp of its priority queue was then
inside the window of the GVT it still has. -/
theorem window_tested (m : SimModel T S M R)
    (hm : m.synch = .optimistic ∨ m.synch = .optimisticRealtime) {s s' : System T S M R}
    {g : Nat → Option (WindowTest T S M R)} {l : SystemInput T M} (hrun : TestedRun m (s, g))
    (hs : s.step m l = .ok s') {i : Nat} (hi : (s i).processes (s' i) = true) :
    ∃ t, g i = some t ∧ t.events < m.mblock ∧
      (t.pe.gvtDone < (s i).gvtDone ∨
        t.pe.twPqMinimumSig.recvTs - (s i).gvtSig.recvTs < m.maxOptLookahead) := by
  have hbefore := (hrun.testedPe hm i).fits
  have hnext : TestedRun m (s', s.noteTests l s' g) := .next hrun trivial ⟨hs, rfl⟩
  have hafter := (hnext.testedPe hm i).fits
  have hnote : s.noteTests l s' g i = (s i).noteTest (s' i) (g i) :=
    if_pos (actor_of_processes hs hi)
  obtain ⟨⟨kind, left, hp⟩, kind', left', lp, ops, hp'⟩ := processes_ok hi
  have htest : (s i).testsWindow = false := by
    unfold testsWindow
    rw [hp]
    exact Bool.and_false _
  dsimp only at hbefore hafter
  rw [hp] at hbefore
  rw [hp'] at hafter
  obtain ⟨⟨t, hg, -, hchecked⟩, -⟩ := hbefore
  obtain ⟨⟨t', hg', hev, -⟩, -⟩ := hafter
  have hcount : t'.events = t.events + 1 := by
    rw [hnote, noteTest, htest, hi, hg] at hg'
    cases hg'
    rfl
  refine ⟨t, hg, ?_, hchecked⟩
  omega

/-! ## A batch that leaves the window -/

/-- One PE whose window is 5, with events at the times 1 and 50. -/
def windowModel : SimModel Int Nat Nat Nat :=
  { quietModel with
    npe := 1
    maxOptLookahead := 5
    init := fun _ st =>
      (st, [.eventNew 0 1 1 0, .eventSend 0, .eventNew 0 50 1 0, .eventSend 1]) }

/-- The PE starts the event at time 50 while GVT is 0. -/
theorem window_left :
    ∃ s s' : System Int Nat Nat Nat, Reached windowModel s ∧
      s.step windowModel (.pe 0 (.tau false)) = .ok s' ∧
      (s 0).processes (s' 0) = true ∧
      ∃ e, (s' 0).curEvent = some e ∧
        ¬ e.sig.recvTs < (s 0).gvtSig.recvTs + windowModel.maxOptLookahead := by
  have hrun : ∃ s, Reached windowModel s ∧
      ((s.step windowModel (.pe 0 (.tau false))).toOption.any fun s' =>
        (s 0).processes (s' 0) && (s' 0).curEvent.any fun e =>
          decide (¬ e.sig.recvTs < (s 0).gvtSig.recvTs + windowModel.maxOptLookahead)) = true :=
    Reachable.exists_of_runList _ (List.replicate 20 (.pe 0 (.tau false))) (.start rfl)
      (by decide +kernel)
  obtain ⟨s, hs, ht⟩ := hrun
  obtain ⟨s', hstep, ht⟩ := exists_ok_of_any ht
  rw [Bool.and_eq_true, Option.any_eq_true] at ht
  obtain ⟨hproc, e, he, hlt⟩ := ht
  exact ⟨s, s', hs, hstep, hproc, e, he, of_decide_eq_true hlt⟩

/-- In the run above the test came one event ago. -/
theorem window_tested_run :
    ∃ (s s' : System Int Nat Nat Nat) (g : Nat → Option (WindowTest Int Nat Nat Nat))
      (t : WindowTest Int Nat Nat Nat), TestedRun windowModel (s, g) ∧
      s.step windowModel (.pe 0 (.tau false)) = .ok s' ∧ g 0 = some t ∧
      t.events < windowModel.mblock ∧
      (t.pe.gvtDone < (s 0).gvtDone ∨
        t.pe.twPqMinimumSig.recvTs - (s 0).gvtSig.recvTs < windowModel.maxOptLookahead) := by
  obtain ⟨s, hs, ht⟩ : ∃ s, Reached windowModel s ∧
      ((s.step windowModel (.pe 0 (.tau false))).toOption.any fun s' =>
        (s 0).processes (s' 0)) = true :=
    Reachable.exists_of_runList _ (List.replicate 20 (.pe 0 (.tau false))) (.start rfl)
      (by decide +kernel)
  obtain ⟨s', hstep, hproc⟩ := exists_ok_of_any ht
  obtain ⟨g, hg⟩ := hs.recorded
  obtain ⟨t, hgt, hev, hchecked⟩ := window_tested windowModel (.inl rfl) hg hstep hproc
  exact ⟨s, s', g, t, hg, hstep, hgt, hev, hchecked⟩

end System

end Ross

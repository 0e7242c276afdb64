import Ross.Proofs.GvtSafety
import Ross.Proofs.HookRequests

/-!
# When the hook is called

A request of the hook is made at the next signature after that of the current event.  The
sequential loops call the hook before the first event above the request.  The optimistic schedulers
start no event at or above it, stop GVT there and call the hook when GVT has reached it: by then
nothing below the request is left anywhere, and nothing at or above it is committed before.
-/

namespace Ross

open Transition

variable {T S M R : Type} [TwStime T] {m : SimModel T S M R}

namespace Pe

/-- The hook is requested at `x`, which is not the signature that stands for no request and is
before the end of time. -/
structure Requests (m : SimModel T S M R) (s : Pe T S M R) (x : TwEventSig T) : Prop where
  status : s.trigger.status = .modelCall
  sigAt : s.trigger.sigAt = x
  lt_max : x < maxSig
  inTime : x.recvTs < m.tsEnd

/-! ## The sequential loops -/

variable {s t u : Pe T S M R} {x : TwEventSig T}

/-- Turns of a sequential loop with the given body, and the events processed in them, that leave the
request at `x` pending.  What the hook would set makes no difference to them: it is not called. -/
inductive Turns (m : SimModel T S M R)
    (body : Pe T S M R → TwEvent T → Except TwError (Pe T S M R)) (x : TwEventSig T) :
    Pe T S M R → List (TwEvent T) → Pe T S M R → Prop
  | done {s : Pe T S M R} : Turns m body x s [] s
  | turn {s t s' u : Pe T S M R} {cev : TwEvent T} {evs : List (TwEvent T)} :
      (∀ arm, s.nextEvent m arm = .ok (some cev, t)) → body t cev = .ok s' → s'.Requests m x →
      Turns m body x s' evs u → Turns m body x s (cev :: evs) u

/-- A turn that starts with no event up to `x` calls the hook there before it dequeues one. -/
def HookTurn (m : SimModel T S M R) (x : TwEventSig T) (s : Pe T S M R) : Prop :=
  x < s.twPqMinimumSig → ∀ arm : Option (GvtHookTrigger T), ∃ o t,
    s.nextEvent m arm = .ok (o, t) ∧ t.gvtSig = x ∧
      t.trigger = arm.getD { s.trigger with sigAt := maxSig } ∧
      ∀ cev, o = some cev → x < cev.sig

/-- Any other turn dequeues such an event and does not call the hook. -/
def EventTurn (m : SimModel T S M R) (x : TwEventSig T) (s : Pe T S M R) : Prop :=
  s.twPqMinimumSig ≤ x → ∃ cev t, cev.sig ≤ x ∧ ∀ arm, s.nextEvent m arm = .ok (some cev, t)

namespace Requests

/-- `tw_gvt_hook_step_seq` calls the hook when every event is above the request. -/
theorem gvtHookStepSeq_lt (h : s.Requests m x) (hg : m.gvtHook = true)
    (hlt : x < s.twPqMinimumSig) (arm : Option (GvtHookTrigger T)) :
    s.gvtHookStepSeq m arm = .ok { s with
      gvtSig := x, trigger := arm.getD { s.trigger with sigAt := maxSig } } := by
  have hfired : s.firedTrigger = { s.trigger with sigAt := maxSig } := by
    unfold firedTrigger
    rw [h.status]
  have htest : s.hookTriggeredSeq = true :=
    (hookTriggeredSeq_iff h.status).mpr (h.sigAt.trans_lt hlt)
  have hassert : ¬ 0 < twEventSigComparePtr s.trigger.sigAt s.twPqMinimumSig := by
    rw [twEventSigComparePtr_pos, h.sigAt]
    exact hlt.not_gt
  unfold gvtHookStepSeq
  rw [if_pos ⟨hg, by simp [h.status]⟩, if_neg (by simp [h.status]), if_neg (by simp [htest]),
    if_neg hassert, hfired, h.sigAt]

/-- It leaves everything as it is while there is an event up to the request. -/
theorem gvtHookStepSeq_le (h : s.Requests m x) (hg : m.gvtHook = true)
    (hle : s.twPqMinimumSig ≤ x) (arm : Option (GvtHookTrigger T)) :
    s.gvtHookStepSeq m arm = .ok s := by
  have htest : s.hookTriggeredSeq ≠ true := by
    rw [Ne, hookTriggeredSeq_iff h.status, h.sigAt]
    exact hle.not_gt
  unfold gvtHookStepSeq
  rw [if_pos ⟨hg, by simp [h.status]⟩, if_neg (by simp [h.status]), if_pos htest]

theorem hookTurn (h : s.Requests m x) (hg : m.gvtHook = true) : s.HookTurn m x := by
  intro hlt arm
  unfold nextEvent
  rw [h.gvtHookStepSeq_lt hg hlt arm]
  dsimp only
  split
  · exact ⟨none, _, rfl, rfl, rfl, nofun⟩
  · split
    · exact ⟨none, _, rfl, rfl, rfl, nofun⟩
    next cev t hd =>
      obtain ⟨hcev, rfl⟩ := twPqDequeue_some hd
      refine ⟨some cev, _, rfl, rfl, rfl, fun e he => ?_⟩
      cases he
      have hmin : s.twPqMinimumSig = cev.sig := by
        unfold twPqMinimumSig
        rw [show pqLeast (s.queue .pq) = some cev from hcev]
      exact hmin ▸ hlt

theorem eventTurn (h : s.Requests m x) (hg : m.gvtHook = true) : s.EventTurn m x := by
  intro hle
  obtain ⟨cev, hcev⟩ : ∃ cev, pqLeast (s.queue .pq) = some cev := by
    cases hq : pqLeast (s.queue .pq) with
    | some cev => exact ⟨cev, rfl⟩
    | none =>
        have hmax : s.twPqMinimumSig = maxSig := by
          unfold twPqMinimumSig
          rw [hq]
        exact absurd (hmax ▸ hle) h.lt_max.not_ge
  have hmin : s.twPqMinimumSig = cev.sig := by
    unfold twPqMinimumSig
    rw [hcev]
  refine ⟨cev, (s.twPqDeleteAny cev).unshift .hand cev, hmin ▸ hle, fun arm => ?_⟩
  have hend : ¬ m.tsEnd < s.twPqMinimumSig.recvTs :=
    not_lt.mpr ((TwEventSig.recvTs_le_of_le hle).trans h.inTime.le)
  have hd : s.twPqDequeue = some (cev, (s.twPqDeleteAny cev).unshift .hand cev) := by
    unfold twPqDequeue
    rw [hcev]
  unfold nextEvent
  rw [h.gvtHookStepSeq_le hg hle arm]
  dsimp only
  rw [if_neg hend, hd]

/-- A turn that does not depend on what the hook would set has an event up to the request. -/
theorem sig_le_of_uncalled (h : s.Requests m x) (hg : m.gvtHook = true) {cev : TwEvent T}
    (hn : ∀ arm, s.nextEvent m arm = .ok (some cev, t)) : cev.sig ≤ x := by
  rcases lt_or_ge x s.twPqMinimumSig with hlt | hle
  · obtain ⟨o, t₁, hn₁, -, htrigger₁, -⟩ := h.hookTurn hg hlt none
    obtain ⟨o, t₂, hn₂, -, htrigger₂, -⟩ := h.hookTurn hg hlt (some s.trigger)
    cases hn₁.symm.trans (hn none)
    cases hn₂.symm.trans (hn (some s.trigger))
    have hsig : s.trigger.sigAt = maxSig :=
      congrArg GvtHookTrigger.sigAt (htrigger₂.symm.trans htrigger₁)
    exact absurd (h.sigAt.symm.trans hsig) h.lt_max.ne
  · obtain ⟨cev', t', hcev, hn'⟩ := h.eventTurn hg hle
    cases (hn' none).symm.trans (hn none)
    exact hcev

/-- While the request is pending no event above it is processed, and the request stays. -/
theorem turns {body : Pe T S M R → TwEvent T → Except TwError (Pe T S M R)}
    (hg : m.gvtHook = true) {evs : List (TwEvent T)} (h : s.Requests m x)
    (ht : Turns m body x s evs t) : (∀ e ∈ evs, e.sig ≤ x) ∧ t.Requests m x := by
  induction ht with
  | done => exact ⟨nofun, h⟩
  | turn hn _ hreq _ ih =>
      obtain ⟨hevs, ht⟩ := ih hreq
      refine ⟨fun e he => ?_, ht⟩
      rcases List.mem_cons.mp he with rfl | he
      · exact h.sig_le_of_uncalled hg hn
      · exact hevs e he

end Requests

/-! ## The optimistic schedulers -/

/-- Past the end of time no request is pending. -/
def PastTrigger (m : SimModel T S M R) (s : Pe T S M R) : Prop :=
  m.tsEnd < s.gvtSig.recvTs → s.trigger.sigAt = maxSig ∨ m.tsEnd ≤ s.trigger.sigAt.recvTs

theorem PastTrigger.step (h : s.PastTrigger m) {act : HookAct T} (he : HookEffect m s t act) :
    t.PastTrigger m := by
  intro hpast
  cases he with
  | none hsig hgvt =>
      rw [hsig]
      rcases hgvt with hgvt | hle
      · exact h (hgvt ▸ hpast)
      · exact .inr (hpast.le.trans (TwEventSig.recvTs_le_of_le hle))
  | request hsig hgvt hend =>
      right
      rw [hsig]
      exact not_lt.mp fun hlt => (hend hlt).not_gt (hgvt ▸ hpast)
  | revoke hsig hgvt =>
      rw [hsig]
      split
      · exact h (hgvt ▸ hpast)
      · exact .inl rfl
  | serve hsig _ _ => exact .inl hsig
  | reset hsig _ => exact .inl hsig

end Pe

namespace System

/-- The runs in the mode of `tw_trigger_gvt_hook_when_model_calls` whose steps meet a condition. -/
def TriggerRun (m : SimModel T S M R) (ok : System T S M R → SystemInput T M → Prop) :
    System T S M R → Prop :=
  ReachableVia (· = start m) (fun a l b => a.step m l = .ok b) fun a l =>
    l.keepsMode = true ∧ ok a l

variable {s : System T S M R} {i : Nat} {x : TwEventSig T}

theorem TriggerRun.invariant (hm : m.synch = .optimistic ∨ m.synch = .optimisticRealtime)
    (hg : m.gvtHook = true) (hmode : m.trigger0.status = .modelCall)
    (hsig : m.trigger0.sigAt = maxSig)
    {ok : System T S M R → SystemInput T M → Prop} (h : TriggerRun m ok s) :
    Reached m s ∧ ∀ i, HookCourse (s i) ∧ (s i).PastTrigger m := by
  refine ReachableVia.invariant
    (P := fun s => Reached m s ∧ ∀ i, HookCourse (s i) ∧ (s i).PastTrigger m) ?_ ?_ h
  · rintro _ rfl
    exact ⟨.start rfl, fun i => ⟨.start hm hmode i, fun _ => .inl hsig⟩⟩
  · rintro s l s' ⟨hr, hall⟩ ⟨hl, -⟩ hs
    refine ⟨.next hr trivial hs, fun i => ?_⟩
    obtain ⟨hcourse, heffect⟩ := hookEffect_step hm hg (fun i => (hall i).1) hr hl hs i
    exact ⟨hcourse, (hall i).2.step heffect⟩

end System

/-! ## Both -/

/-- A step of a careful run in the mode of `tw_trigger_gvt_hook_when_model_calls`, checked. -/
def System.checksTrigger (m : SimModel T S M R) (s : System T S M R) (l : SystemInput T M) : Bool :=
  l.keepsMode && System.checksCare m s l

theorem System.TriggerRun.of_check {s : System T S M R} {l : SystemInput T M}
    (h : s.checksTrigger m l = true) : l.keepsMode = true ∧ Careful m s l := by
  unfold checksTrigger at h
  rw [Bool.and_eq_true] at h
  exact ⟨h.1, .of_check h.2⟩

end Ross

import Ross.Proofs.Sequential

/-!
# The trigger of a model call

`tw_trigger_gvt_hook_now` stores the signature of the current event with a 0 put at the end
of its tie lineage.  Among the signatures whose tiebreakers are not negative this is the
next one, so the tests of the schedulers against it tell the events up to the current one
from the later ones.
-/

namespace Ross

open Transition

variable {T : Type}

/-! ## The next signature -/

namespace TwEventSig

/-- The signature with `x` put at the end of its tie lineage. -/
def extend (sig : TwEventSig T) (x : T) : TwEventSig T :=
  { sig with eventTiebreaker := sig.eventTiebreaker ++ [x] }

variable [LinearOrder T]

theorem lt_extend (sig : TwEventSig T) (x : T) : sig < sig.extend x :=
  lt_iff.mpr (.inr ⟨rfl, .inr ⟨rfl, lt_append_singleton x⟩⟩)

end TwEventSig

variable {S M R : Type} [TwStime T]

/-! ## The tests against the trigger -/

namespace Pe

variable {m : SimModel T S M R} {q : Pe T S M R}

/-- A PE contributes nothing above its trigger to GVT. -/
theorem lvtSig_le_sigAt (hg : m.gvtHook = true) {s : Pe T S M R}
    (hs : s.trigger.status = .modelCall) : s.lvtSig m ≤ s.trigger.sigAt := by
  obtain ⟨lvt, hl⟩ : ∃ lvt, s.lvtSig m =
      if m.gvtHook ∧ s.trigger.status ≠ .disabled ∧
        0 < twEventSigComparePtr lvt s.trigger.sigAt then s.trigger.sigAt
      else lvt := ⟨_, rfl⟩
  rw [hl]
  split
  · exact le_rfl
  next hn =>
    rw [twEventSigComparePtr_pos] at hn
    exact not_lt.mp fun hlt => hn ⟨hg, by rw [hs]; decide, hlt⟩

/-- A reverse handler that takes requests back resets the trigger. -/
theorem runRevent_trigger (s : Pe T S M R) (event : TwEvent T) :
    (s.runRevent m event).trigger =
      if (m.revent event.destLp (s.twNow m event.destLp) (s.lp event.destLp).curState
          (s.ev event).cv (s.ev event).msg).hookRev = 0
      then s.trigger else { s.trigger with sigAt := maxSig } := by
  rw [runRevent_eq]

/-- The sequential loop waits for an event above the trigger. -/
theorem hookTriggeredSeq_iff (hstatus : q.trigger.status = .modelCall) :
    q.hookTriggeredSeq = true ↔ q.trigger.sigAt < q.twPqMinimumSig := by
  unfold hookTriggeredSeq
  simp only [hstatus]
  rw [decide_eq_true_eq, twEventSigComparePtr_neg]

theorem twTriggerGvtHookNow_stored {s s' : Pe T S M R} {lp : Nat}
    (hc : m.synch ≠ .conservative) (hd : m.synch ≠ .optimisticDebug)
    (h : s.twTriggerGvtHookNow m lp = .ok s') :
    s'.trigger.status = .modelCall ∧ s'.trigger.sigAt = (s.lastSig (m.kpOf lp)).extend 0 := by
  unfold twTriggerGvtHookNow at h
  rw [if_neg (not_or.mpr ⟨hc, hd⟩)] at h
  split at h
  · cases h
  next hstatus =>
    split at h
    · cases h
    · cases h
      exact ⟨not_not.mp hstatus, rfl⟩

end Pe

end Ross

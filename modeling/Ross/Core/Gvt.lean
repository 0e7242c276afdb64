import Ross.Core.Kp

/-!
# Global virtual time

`mpi_allreduce.c` and the hook of `tw-sched.c`.  `tw_gvt_step2` stops at each of
its two `MPI_Allreduce` calls; what follows a call runs with the result as an
input.
-/

namespace Ross.Pe

variable {T S M R : Type} [TwStime T] (m : SimModel T S M R)

/-! ## The start of a round -/

/-- `NOT_PAST_LOOKAHEAD`. -/
def notPastLookahead (s : Pe T S M R) : Bool :=
  s.twPqMinimumSig.recvTs - s.gvtSig.recvTs < m.maxOptLookahead

/-- `PAST_GVT_HOOK_ACTIVATION`. -/
def pastGvtHookActivation (s : Pe T S M R) : Bool :=
  s.trigger.status = .timestamp ∧
    0 ≤ twEventSigComparePtr s.twPqMinimumSig s.trigger.sigAt

/-- `tw_gvt_step1`. -/
def gvtStep1 (s : Pe T S M R) : Pe T S M R :=
  if s.gvtCompute then s
  else
    let s := { s with gvtCnt := s.gvtCnt + 1 }
    if s.gvtCnt < m.gvtInterval ∧ s.notPastLookahead m ∧ ¬ s.pastGvtHookActivation then s
    else { s with gvtCompute := true }

/-- `tw_gvt_step1_realtime`; `expired` says that the interval is over. -/
def gvtStep1Realtime (s : Pe T S M R) (expired : Bool) : Pe T S M R :=
  if s.gvtCompute then s
  else if ¬ expired ∧ s.notPastLookahead m ∧ ¬ s.pastGvtHookActivation then s
  else { s with gvtCompute := true }

/-! ## The cut -/

/-- `local_white`. -/
def localWhite (s : Pe T S M R) : Int := s.sNwhiteSent - s.sNwhiteRecv

/-- `lvt_sig` as `tw_gvt_step2` contributes it. -/
def lvtSig (s : Pe T S M R) : TwEventSig T :=
  let lvt := s.transMsgSig
  let lvt := if 0 < twEventSigComparePtr lvt s.twPqMinimumSig then s.twPqMinimumSig else lvt
  let lvt := if 0 < twEventSigComparePtr lvt s.twNetMinimumSig then s.twNetMinimumSig else lvt
  if m.gvtHook ∧ s.trigger.status ≠ .disabled ∧ 0 < twEventSigComparePtr lvt s.trigger.sigAt then
    s.trigger.sigAt
  else lvt

/-- `g_tw_gvt_max_no_change`. -/
def gvtMaxNoChange : Nat := 10000

/-- `gvt_sig` after its comparison with `GVT_prev_sig`, which keeps the largest
signature it was initialised with. -/
def gvtClip (s : Pe T S M R) (gvt : TwEventSig T) : TwEventSig T × Pe T S M R :=
  if twEventSigComparePtr gvt maxSig < 0 then (gvt, { s with gvtNoChange := 0 })
  else (maxSig, { s with gvtNoChange := s.gvtNoChange + 1 })

/-- The rest of `tw_gvt_step2`, once the reduction gave `gvt`. -/
def gvtStore (s : Pe T S M R) (gvt : TwEventSig T) : Except TwError (Pe T S M R) :=
  let r := s.gvtClip gvt
  let gvt := r.1
  let s := r.2
  if gvtMaxNoChange ≤ s.gvtNoChange then .error .gvtNoChange
  else if 0 < twEventSigComparePtr s.gvtSig gvt then .error .gvtDecreased
  else
    let fossil : Bool := m.synch = .optimistic ∨ m.synch = .optimisticRealtime
    .ok { s with
      sNwhiteSent := 0
      sNwhiteRecv := 0
      transMsgSig := maxSig
      gvtSig := gvt
      gvtCompute := false
      gvtCnt := 0
      gvtDone := s.gvtDone + 1
      phase := if fossil then .fossilCollect 0 [] else .idle }

/-! ## The hook -/

/-- What `tw_gvt_hook_step` does once the hook has been triggered: past the end
of time GVT goes back to the trigger, then the hook is called. -/
def callHook (s : Pe T S M R) : Except TwError (Pe T S M R) :=
  let pastEndTime := m.tsEnd ≤ s.gvtSig.recvTs
  if pastEndTime ∧ s.trigger.status ≠ .timestamp then
    if twEventSigComparePtr s.trigger.sigAt s.twPqMinimumSig ≤ 0 then
      .ok { s with gvtSig := s.trigger.sigAt, phase := .inHook }
    else .error .assertFailed
  else .ok { s with phase := .inHook }

/-- `tw_gvt_hook_step`, up to its reduction. -/
def gvtHookStep (s : Pe T S M R) : Except TwError (Pe T S M R) :=
  if m.gvtHook then
    match s.trigger.status with
    | .disabled => .ok s
    | .timestamp => .ok { s with phase := .reduce .hookAll }
    | .modelCall => .ok { s with phase := .reduce .hookAny }
    | .everyNGvt =>
        if (s.gvtDone - s.trigger.startingAt) % s.trigger.nums = 0 then s.callHook m
        else .ok s
  else .ok s

/-- What the PE contributes to the reduction of `tw_gvt_hook_step`. -/
def pastHookThreshold (s : Pe T S M R) : Bool :=
  0 ≤ twEventSigComparePtr s.gvtSig s.trigger.sigAt

/-- `tw_gvt_hook_step` after the reduction of `is_gvt_past_hook_threshold`. -/
def hookAllDone (s : Pe T S M R) (triggered : Bool) : Except TwError (Pe T S M R) :=
  if triggered then
    { s with trigger := { s.trigger with status := .disabled } }.callHook m
  else .ok { s with phase := .idle }

/-- `tw_gvt_hook_step` after the reduction over the PEs whose LPs called
`tw_trigger_gvt_hook_now`. -/
def hookAnyDone (s : Pe T S M R) (triggered : Bool) : Except TwError (Pe T S M R) :=
  if triggered then
    { s with trigger := { s.trigger with sigAt := maxSig } }.callHook m
  else .ok { s with phase := .idle }

/-- `tw_trigger_gvt_hook_now`. -/
def twTriggerGvtHookNow (s : Pe T S M R) (lp : Nat) : Except TwError (Pe T S M R) :=
  if m.synch = .conservative ∨ m.synch = .optimisticDebug then .ok s
  else if s.trigger.status ≠ .modelCall then .error .triggerStatus
  else if maxTieChain ≤ s.trigger.sigAt.tieLineageLength then .error .maximumTieChain
  else
    let now := s.lastSig (m.kpOf lp)
    let sigAt := { now with eventTiebreaker := now.eventTiebreaker ++ [0] }
    let s := { s with trigger := { s.trigger with sigAt }, gvtCompute := true }
    .ok (s.setLp lp { s.lp lp with triggeredGvtHook := (s.lp lp).triggeredGvtHook + 1 })

/-- `tw_trigger_gvt_hook_at_event_sig`. -/
def twTriggerGvtHookAtEventSig (s : Pe T S M R) (sig : TwEventSig T) : Pe T S M R :=
  { s with trigger := { s.trigger with status := .timestamp, sigAt := sig } }

/-- `tw_trigger_gvt_hook_every`. -/
def twTriggerGvtHookEvery (s : Pe T S M R) (n : Nat) : Except TwError (Pe T S M R) :=
  if n = 0 then .error .triggerStatus
  else .ok { s with trigger := ⟨.everyNGvt, maxSig, s.gvtDone, n⟩ }

/-- `tw_trigger_gvt_hook_when_model_calls`. -/
def twTriggerGvtHookWhenModelCalls (s : Pe T S M R) : Pe T S M R :=
  { s with trigger := { s.trigger with status := .modelCall, sigAt := maxSig } }

/-! ## What these steps can do -/

variable {m} {s s' : Pe T S M R}

theorem gvtStep1_frame (s : Pe T S M R) :
    ∃ n b, s.gvtStep1 m = { s with gvtCnt := n, gvtCompute := b } ∧
      (s.gvtCompute = true → b = true) := by
  unfold gvtStep1
  dsimp only
  split
  next hg => exact ⟨s.gvtCnt, s.gvtCompute, rfl, fun h => h⟩
  next hg =>
    split
    · exact ⟨s.gvtCnt + 1, s.gvtCompute, rfl, fun h => h⟩
    · exact ⟨s.gvtCnt + 1, true, rfl, fun _ => rfl⟩

theorem gvtStep1Realtime_frame (s : Pe T S M R) (expired : Bool) :
    ∃ n b, s.gvtStep1Realtime m expired = { s with gvtCnt := n, gvtCompute := b } ∧
      (s.gvtCompute = true → b = true) := by
  unfold gvtStep1Realtime
  split
  next hg => exact ⟨s.gvtCnt, s.gvtCompute, rfl, fun h => h⟩
  next hg =>
    split
    · exact ⟨s.gvtCnt, s.gvtCompute, rfl, fun h => h⟩
    · exact ⟨s.gvtCnt, true, rfl, fun _ => rfl⟩

theorem gvtStore_ok {gvt : TwEventSig T} (h : s.gvtStore m gvt = .ok s') :
    s.gvtSig ≤ min gvt maxSig ∧ ∃ n, s' = { s with
      gvtNoChange := n
      sNwhiteSent := 0
      sNwhiteRecv := 0
      transMsgSig := maxSig
      gvtSig := min gvt maxSig
      gvtCompute := false
      gvtCnt := 0
      gvtDone := s.gvtDone + 1
      phase := if m.synch = .optimistic ∨ m.synch = .optimisticRealtime
        then .fossilCollect 0 [] else .idle } := by
  have hclip : ∃ n, s.gvtClip gvt = (min gvt maxSig, { s with gvtNoChange := n }) := by
    unfold gvtClip
    split
    next hlt => exact ⟨0, by rw [min_eq_left (twEventSigComparePtr_neg.mp hlt).le]⟩
    next hlt =>
      refine ⟨s.gvtNoChange + 1, ?_⟩
      rw [min_eq_right (not_lt.mp fun hlt' => hlt (twEventSigComparePtr_neg.mpr hlt'))]
  obtain ⟨n, hn⟩ := hclip
  unfold gvtStore at h
  simp only [hn, twEventSigComparePtr_pos, decide_eq_true_eq] at h
  split at h
  · cases h
  split at h
  · cases h
  next hdec =>
    cases h
    exact ⟨not_lt.mp hdec, n, rfl⟩

/-- The hook is called with GVT unchanged or, past the end of time, put back to
the trigger, which is then not above any event of the priority queue. -/
theorem callHook_ok (h : s.callHook m = .ok s') :
    s' = { s with phase := .inHook } ∨
      m.tsEnd ≤ s.gvtSig.recvTs ∧ s.trigger.sigAt ≤ s.twPqMinimumSig ∧
        s' = { s with gvtSig := s.trigger.sigAt, phase := .inHook } := by
  unfold callHook at h
  dsimp only at h
  split at h
  next hend =>
    split at h
    next hle =>
      cases h
      exact .inr ⟨hend.1, twEventSigComparePtr_nonpos.mp hle, rfl⟩
    · cases h
  · cases h
    exact .inl rfl

theorem gvtHookStep_ok (h : s.gvtHookStep m = .ok s') :
    s' = s ∨ s' = { s with phase := .reduce .hookAll } ∨
      s' = { s with phase := .reduce .hookAny } ∨
      s.trigger.status = .everyNGvt ∧ s.callHook m = .ok s' := by
  unfold gvtHookStep at h
  split at h
  · split at h
    · cases h
      exact .inl rfl
    · cases h
      exact .inr (.inl rfl)
    · cases h
      exact .inr (.inr (.inl rfl))
    next ht =>
      split at h
      · exact .inr (.inr (.inr ⟨ht, h⟩))
      · cases h
        exact .inl rfl
  · cases h
    exact .inl rfl

theorem twTriggerGvtHookNow_ok {lp : Nat} (h : s.twTriggerGvtHookNow m lp = .ok s') :
    s' = s ∨ s.trigger.status = .modelCall ∧ s' = { s with
      lp := Function.update s.lp lp { s.lp lp with
        triggeredGvtHook := (s.lp lp).triggeredGvtHook + 1 }
      trigger := { s.trigger with sigAt := { s.lastSig (m.kpOf lp) with
        eventTiebreaker := (s.lastSig (m.kpOf lp)).eventTiebreaker ++ [0] } }
      gvtCompute := true } := by
  unfold twTriggerGvtHookNow at h
  split at h
  · cases h
    exact .inl rfl
  split at h
  · cases h
  next hm =>
    split at h
    · cases h
    · cases h
      exact .inr ⟨not_not.mp hm, rfl⟩

end Ross.Pe

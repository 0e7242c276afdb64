import Ross.Proofs.Forward

/-!
# Rolling one event back

On one PE a rollback takes every child of the event out of the queue it was sent
to and reverses one draw of the core random number generator for each child and
for each send of the abort event.
-/

namespace Ross

variable {T S M R : Type} [TwStime T]

/-- `tw_rand_reverse_unif` takes back one draw of `tw_rand_unif`. -/
def SimModel.ReversesUnif (m : SimModel T S M R) : Prop :=
  ∀ r, m.randReverseUnif (m.randUnif r).2 = r

namespace Pe

variable {m : SimModel T S M R} {s s' : Pe T S M R} {cev e : TwEvent T}

/-! ## The children -/

/-- The children in the priority queue. -/
def queued (s : Pe T S M R) (children : List (TwEvent T)) : List (TwEvent T) :=
  children.filter fun c => decide ((s.ev c).owner = .pePq)

/-- What `tw_event_rollback` expects of the chain of children of an event of
`lp`. -/
structure Cancellable (m : SimModel T S M R) (s : Pe T S M R) (lp : Nat)
    (children : List (TwEvent T)) : Prop where
  nodup : children.Nodup
  source : ∀ c ∈ children, c.srcLp = lp
  here : ∀ c ∈ children, m.map c.destLp = s.id
  owner : ∀ c ∈ children, (s.ev c).owner = .pePq ∨ (s.ev c).owner = .peEventQ

section

omit [TwStime T]

theorem queued_congr {children : List (TwEvent T)}
    (h : ∀ c ∈ children, (s'.ev c).owner = (s.ev c).owner) :
    s'.queued children = s.queued children := by
  unfold queued
  exact List.filter_congr fun c hc => by rw [h c hc]

theorem Cancellable.tail {lp : Nat} {rest : List (TwEvent T)}
    (h : Cancellable m s lp (e :: rest)) (hid : s'.id = s.id)
    (hev : ∀ x, x ∉ [e] → s'.ev x = s.ev x) : Cancellable m s' lp rest where
  nodup := (List.nodup_cons.mp h.nodup).2
  source c hc := h.source c (List.mem_cons_of_mem e hc)
  here c hc := hid ▸ h.here c (List.mem_cons_of_mem e hc)
  owner c hc := by
    rw [hev c fun he => (List.nodup_cons.mp h.nodup).1 (List.mem_singleton.mp he ▸ hc)]
    exact h.owner c (List.mem_cons_of_mem e hc)

end

theorem eventCancel_pq (ho : (s.ev e).owner = .pePq) (hm : m.map e.destLp = s.id) :
    s.eventCancel m e = .ok ((s.twPqDeleteAny e).twEventFree e) := by
  unfold eventCancel
  rw [ho]
  exact if_pos hm

theorem eventCancel_eventQ (ho : (s.ev e).owner = .peEventQ) (hm : m.map e.destLp = s.id) :
    s.eventCancel m e = .ok ((s.localCancel e).lowerTrans e.sig) := by
  unfold eventCancel
  rw [ho]
  exact if_pos hm

/-- What the cancellation of the children of an event of `lp` leaves. -/
structure Cancelled (m : SimModel T S M R) (s : Pe T S M R) (lp : Nat)
    (children : List (TwEvent T)) (s' : Pe T S M R) : Prop where
  eq : ∃ f cq t g r, s' = { s with
    lp := Function.update s.lp lp { s.lp lp with
      coreRng := m.randReverseUnif^[children.length] (s.lp lp).coreRng }
    queue := Function.update s.queue .pq ((s.queue .pq).diff (s.queued children))
    freeQ := s.freeQ + (s.queued children).length
    freed := f
    cancelQ := cq
    transMsgSig := t
    ev := g
    rollback := r }
  ev : ∀ x, x ∉ children → s'.ev x = s.ev x

/-- One child leaves the priority queue, or is cancelled in `event_q`. -/
theorem rollbackChild_ok {r : Rollback T} {rest : List (TwEvent T)}
    (h : Cancellable m s e.srcLp (e :: rest)) :
    ∃ s', s.rollbackChild m r e rest = .ok s' ∧ Cancelled m s e.srcLp [e] s' := by
  have hhere := h.here e List.mem_cons_self
  let s₁ : Pe T S M R := { s with rollback := some { r with children := rest } }
  have hown : ((s₁.reverseUnif m e.srcLp 1).ev e).owner = (s.ev e).owner := rfl
  unfold rollbackChild
  rcases h.owner e List.mem_cons_self with ho | ho
  · have hq : s.queued [e] = [e] := by simp [queued, ho]
    refine ⟨_, eventCancel_pq (hown.trans ho) hhere, ⟨?_, fun x hx => ?_⟩⟩
    · rw [hq, List.diff_cons, List.diff_nil]
      simp only [reverseUnif, setLp, twPqDeleteAny, twEventFree, setOwner, setEv, unlink]
      exact ⟨_, _, _, _, _, rfl⟩
    · have hxe := List.ne_of_not_mem_cons hx
      exact (Function.update_of_ne hxe ..).trans (Function.update_of_ne hxe ..)
  · have hq : s.queued [e] = [] := by simp [queued, ho]
    refine ⟨_, eventCancel_eventQ (hown.trans ho) hhere, ⟨?_, fun x hx => ?_⟩⟩
    · rw [hq, List.diff_nil, Function.update_eq_self]
      simp only [reverseUnif, setLp, localCancel, lowerTrans, setEv]
      exact ⟨_, _, _, _, _, rfl⟩
    · exact Function.update_of_ne (List.ne_of_not_mem_cons hx) ..

theorem Cancelled.cons {lp : Nat} {rest : List (TwEvent T)} {s₁ : Pe T S M R}
    (h : Cancelled m s lp [e] s₁) (he : e ∉ rest) (h' : Cancelled m s₁ lp rest s') :
    Cancelled m s lp (e :: rest) s' := by
  have hq : s₁.queued rest = s.queued rest :=
    queued_congr fun c hc => by rw [h.ev c fun hce => he (List.mem_singleton.mp hce ▸ hc)]
  have hsplit : s.queued (e :: rest) = s.queued [e] ++ s.queued rest :=
    List.filter_append [e] rest
  obtain ⟨⟨f, cq, t, g, r, rfl⟩, hev⟩ := h
  obtain ⟨⟨f', cq', t', g', r', rfl⟩, hev'⟩ := h'
  refine ⟨⟨f', cq', t', g', r', ?_⟩, fun x hx => ?_⟩
  · rw [hq, hsplit, List.length_append, List.diff_append]
    simp only [Function.update_self, Function.update_idem, ← Function.iterate_add_apply,
      List.length_cons,
      List.length_nil, Nat.add_assoc, Nat.zero_add]
  · obtain ⟨hxe, hx⟩ := not_or.mp (mt List.mem_cons.mpr hx)
    exact (hev' x hx).trans (hev x fun hxe' => hxe (List.mem_singleton.mp hxe'))

/-- The loop of `tw_event_rollback` over the children. -/
theorem rollbackChildren_ok {r : Rollback T} {lp : Nat} {children : List (TwEvent T)}
    (h : Cancellable m s lp children) :
    ∃ s', s.rollbackChildren m r children = .ok s' ∧ Cancelled m s lp children s' := by
  induction children generalizing s with
  | nil =>
      refine ⟨s, rfl, ⟨⟨s.freed, s.cancelQ, s.transMsgSig, s.ev, s.rollback, ?_⟩, fun _ _ => rfl⟩⟩
      have hq : s.queued [] = [] := rfl
      rw [hq, List.diff_nil, Function.update_eq_self]
      exact congrArg (fun l => { s with lp := l }) (Function.update_eq_self lp s.lp).symm
  | cons e children ih =>
      have hsrc := h.source e List.mem_cons_self
      obtain ⟨s₁, hchild, hc⟩ := rollbackChild_ok (r := r) (hsrc.symm ▸ h)
      rw [hsrc] at hc
      have hid : s₁.id = s.id := by
        obtain ⟨_, _, _, _, _, rfl⟩ := hc.eq
        rfl
      obtain ⟨s', hrest, hc'⟩ := ih (h.tail hid hc.ev)
      refine ⟨s', ?_, hc.cons (List.nodup_cons.mp h.nodup).1 hc'⟩
      unfold rollbackChildren
      rw [hchild]
      exact hrest

/-! ## The event -/

/-- What the reverse handler of `cev`'s LP does with the event. -/
def reversed (m : SimModel T S M R) (s : Pe T S M R) (cev : TwEvent T) : Reversed S M :=
  m.revent cev.destLp cev.sig.recvTs (s.lp cev.destLp).curState (s.ev cev).cv (s.ev cev).msg

/-- An event of an LP that is not suspended can be rolled back. -/
structure Undoable (m : SimModel T S M R) (s : Pe T S M R) (cev : TwEvent T) : Prop where
  awake : (s.lp cev.destLp).suspendFlag = false
  children : Cancellable m s cev.destLp (s.ev cev).causedByMe
  notMem : cev ∉ (s.ev cev).causedByMe

/-- What the rollback of `cev` leaves. -/
structure Undone (m : SimModel T S M R) (s : Pe T S M R) (cev : TwEvent T) (s' : Pe T S M R) :
    Prop where
  eq : ∃ f cq t g r, s' = { s with
    curEvent := some cev
    lastSig := Function.update s.lastSig (m.kpOf cev.destLp) cev.sig
    lp := Function.update s.lp cev.destLp { s.lp cev.destLp with
      curState := (s.reversed m cev).state
      coreRng := m.randReverseUnif^[(s.ev cev).abortedTotal + (s.ev cev).causedByMe.length]
        (s.lp cev.destLp).coreRng
      triggeredGvtHook := (s.lp cev.destLp).triggeredGvtHook -
        BitVec.ofNat 32 (s.reversed m cev).hookRev }
    trigger := if (s.reversed m cev).hookRev = 0 then s.trigger
      else { s.trigger with sigAt := maxSig }
    queue := Function.update s.queue .pq
      ((s.queue .pq).diff (s.queued (s.ev cev).causedByMe))
    freeQ := s.freeQ + (s.queued (s.ev cev).causedByMe).length
    freed := f
    cancelQ := cq
    transMsgSig := t
    ev := g
    rollback := r }
  self : s'.ev cev = { s.ev cev with
    cv := (s.reversed m cev).cv
    msg := (s.reversed m cev).msg
    abortedTotal := 0
    causedByMe := [] }
  ev : ∀ x, x ≠ cev → x ∉ (s.ev cev).causedByMe → s'.ev x = s.ev x

/-- `tw_event_rollback` up to its loop. -/
theorem twEventRollback_eq (h : (s.lp cev.destLp).suspendFlag = false) (after : RollbackAfter) :
    s.twEventRollback m cev after = { s with
      curEvent := some cev
      lastSig := Function.update s.lastSig (m.kpOf cev.destLp) cev.sig
      lp := Function.update s.lp cev.destLp { s.lp cev.destLp with
        curState := (s.reversed m cev).state
        triggeredGvtHook := (s.lp cev.destLp).triggeredGvtHook -
          BitVec.ofNat 32 (s.reversed m cev).hookRev }
      trigger := if (s.reversed m cev).hookRev = 0 then s.trigger
        else { s.trigger with sigAt := maxSig }
      ev := Function.update s.ev cev { s.ev cev with
        cv := (s.reversed m cev).cv, msg := (s.reversed m cev).msg, causedByMe := [] }
      rollback := some ⟨cev, (s.ev cev).causedByMe, after⟩ } := by
  let s₁ : Pe T S M R := { s with curEvent := some cev }.setLastSig (m.kpOf cev.destLp) cev.sig
  have hnow : s₁.twNow m cev.destLp = cev.sig.recvTs := by
    show (Function.update s.lastSig (m.kpOf cev.destLp) cev.sig (m.kpOf cev.destLp)).recvTs = _
    rw [Function.update_self]
  have hrev : m.revent cev.destLp (s₁.twNow m cev.destLp) (s₁.lp cev.destLp).curState
      (s₁.ev cev).cv (s₁.ev cev).msg = s.reversed m cev := by
    rw [hnow]
    rfl
  have hun : s₁.unprocess m cev = s₁.runRevent m cev := by
    unfold unprocess
    have hfl : (s₁.lp cev.destLp).suspendFlag = false := h
    simp only [hfl, Bool.false_eq_true, false_and, if_false]
  unfold twEventRollback
  dsimp only
  rw [hun]
  have hrun : s₁.runRevent m cev = { s₁ with
      lp := Function.update s.lp cev.destLp { s.lp cev.destLp with
        curState := (s.reversed m cev).state
        triggeredGvtHook := (s.lp cev.destLp).triggeredGvtHook -
          BitVec.ofNat 32 (s.reversed m cev).hookRev }
      trigger := if (s.reversed m cev).hookRev = 0 then s.trigger
        else { s.trigger with sigAt := maxSig }
      ev := Function.update s.ev cev { s.ev cev with
        cv := (s.reversed m cev).cv, msg := (s.reversed m cev).msg } } := by
    rw [runRevent_eq, hrev]
    rfl
  rw [hrun]
  simp only [setEv, Function.update_self, Function.update_idem]
  rfl

/-- `tw_event_rollback` on one PE. -/
theorem eventRollback_ok (h : Undoable m s cev) (after : RollbackAfter) :
    ∃ s', s.eventRollback m cev after = .ok s' ∧ Undone m s cev s' := by
  have hstart := twEventRollback_eq (m := m) h.awake after
  obtain ⟨-, hc, hn⟩ := h
  have hev : ∀ c ∈ (s.ev cev).causedByMe, (s.twEventRollback m cev after).ev c = s.ev c := by
    intro c hm
    rw [hstart]
    refine Function.update_of_ne (fun he => ?_) ..
    subst he
    exact hn hm
  have hcan : Cancellable m (s.twEventRollback m cev after) cev.destLp (s.ev cev).causedByMe := by
    refine ⟨hc.nodup, hc.source, fun c hm => ?_, fun c hm => ?_⟩
    · rw [hstart]
      exact hc.here c hm
    · rw [hev c hm]
      exact hc.owner c hm
  have hqueued : (s.twEventRollback m cev after).queued (s.ev cev).causedByMe =
      s.queued (s.ev cev).causedByMe := queued_congr fun c hm => by rw [hev c hm]
  obtain ⟨s₁, hloop, ⟨f, cq, t, g, r, hs₁⟩, hoff⟩ :=
    rollbackChildren_ok (r := ⟨cev, (s.ev cev).causedByMe, after⟩) hcan
  have hself := hoff cev hn
  rw [hqueued, hstart] at hs₁
  rw [hstart] at hself
  simp only [Function.update_self] at hself
  have hab : (s₁.ev cev).abortedTotal = (s.ev cev).abortedTotal := by rw [hself]
  refine ⟨s₁.rollbackEnd m cev, ?_, ⟨⟨f, cq, t,
    Function.update s₁.ev cev { s₁.ev cev with abortedTotal := 0 }, none, ?_⟩, ?_,
    fun x hx hxc => ?_⟩⟩
  · unfold eventRollback
    dsimp only
    rw [hloop]
  · unfold rollbackEnd reverseUnif
    rw [hab]
    generalize Function.update s₁.ev cev { s₁.ev cev with abortedTotal := 0 } = g'
    rw [hs₁]
    simp only [setLp, Function.update_self, Function.update_idem, Function.iterate_add_apply]
  · show Function.update s₁.ev cev { s₁.ev cev with abortedTotal := 0 } cev = _
    rw [Function.update_self, hself]
  · show Function.update s₁.ev cev _ x = _
    rw [Function.update_of_ne hx, hoff x hxc, hstart]
    exact Function.update_of_ne hx ..

/-! ## The event and its handler -/

omit [TwStime T] in
theorem reverse_draws (h : m.ReversesUnif) (n : Nat) (r : R) :
    m.randReverseUnif^[n] ((drawUnif m)^[n] r) = r := by
  have hinv : Function.LeftInverse m.randReverseUnif (drawUnif m) := h
  exact hinv.iterate n r

namespace Sending

variable {s₀ s₁ : Pe T S M R}

theorem queued_eq (h : Sending m s₀ cev s₁) :
    s₁.queued (s₁.chain cev) = (s₁.chain cev).filter (s₀.inOrder m) := by
  unfold queued
  refine List.filter_congr fun c hc => ?_
  rw [(h.child c hc).2]
  split
  next hin => simp [hin]
  next hin => simp [hin]

/-- After its handler an event can be rolled back. -/
theorem undoable (h : Sending m s₀ cev s₁) (hmap : ∀ i, m.map i = s₀.id)
    (hcev : cev.uid < s₀.nextUid) (hawake : (s₀.lp cev.destLp).suspendFlag = false) :
    Undoable m s₁ cev where
  awake := by
    obtain ⟨c, hlp⟩ := h.lp
    rw [hlp, Function.update_self]
    exact hawake
  children := by
    refine ⟨?_, fun c hc => (h.child c hc).1, fun c _ => (hmap _).trans h.id.symm, fun c hc => ?_⟩
    · exact (h.nodup.of_append_left).of_map
    · rw [(h.child c hc).2]
      split
      · exact .inl rfl
      · exact .inr rfl
  notMem hc := by
    have := h.ge cev.uid (List.mem_append_left _ (List.mem_map_of_mem hc))
    omega

omit [TwStime T] in
theorem append_diff_self (l₁ l₂ : List (TwEvent T)) [DecidableEq T] :
    (l₁ ++ l₂).diff l₁ = l₂ := by
  induction l₁ with
  | nil => exact List.diff_nil l₂
  | cons a l₁ ih => rw [List.cons_append, List.diff_cons, List.erase_cons_head, ih]

/-- The rollback takes back what the handler did to the random number generators,
the priority queue and the buffers in use before it; the buffers of children sent
to `event_q` are not free again. -/
structure Restored (m : SimModel T S M R) (s₀ : Pe T S M R) (cev : TwEvent T)
    (s₁ s₂ : Pe T S M R) : Prop where
  lp : s₂.lp = Function.update s₀.lp cev.destLp { s₀.lp cev.destLp with
    curState := (s₁.reversed m cev).state
    triggeredGvtHook := (s₁.lp cev.destLp).triggeredGvtHook -
      BitVec.ofNat 32 (s₁.reversed m cev).hookRev }
  pq : s₂.queue .pq = s₀.queue .pq
  eventQ : s₂.queue .eventQ = s₁.queue .eventQ
  queue : ∀ q, q ≠ .pq → q ≠ .eventQ → s₂.queue q = s₀.queue q
  free : s₂.freeQ + (s₁.queue .eventQ).length = s₀.freeQ + (s₀.queue .eventQ).length
  old : ∀ x, x.uid < s₀.nextUid → x ≠ cev → s₂.ev x = s₀.ev x
  self : s₂.ev cev = { s₀.ev cev with
    cv := (s₁.reversed m cev).cv
    msg := (s₁.reversed m cev).msg
    abortedTotal := 0
    causedByMe := [] }

theorem restored {s₂ : Pe T S M R} (h : Sending m s₀ cev s₁) (hrng : m.ReversesUnif)
    (hall : s₁.handles.countP Handle.isSent = s₁.handles.length)
    (hun : s₁.handles.filterMap Handle.unsent = []) (hu : Undone m s₁ cev s₂) :
    Restored m s₀ cev s₁ s₂ := by
  have hchain : ∀ s : Pe T S M R, (s.ev cev).causedByMe = s.chain cev := fun _ => rfl
  obtain ⟨⟨f, cq, t, g, r, heq⟩, hself, hoff⟩ := hu
  have hlp : s₂.lp = Function.update s₁.lp cev.destLp { s₁.lp cev.destLp with
      curState := (s₁.reversed m cev).state
      coreRng := m.randReverseUnif^[(s₁.ev cev).abortedTotal + (s₁.chain cev).length]
        (s₁.lp cev.destLp).coreRng
      triggeredGvtHook := (s₁.lp cev.destLp).triggeredGvtHook -
        BitVec.ofNat 32 (s₁.reversed m cev).hookRev } := by rw [heq]; rfl
  have hq : s₂.queue = Function.update s₁.queue .pq
      ((s₁.queue .pq).diff (s₁.queued (s₁.chain cev))) := by rw [heq]; rfl
  have hf : s₂.freeQ = s₁.freeQ + (s₁.queued (s₁.chain cev)).length := by rw [heq]; rfl
  have hqueued := h.queued_eq
  constructor
  case lp =>
    have hn : (s₁.ev cev).abortedTotal + (s₁.chain cev).length = s₁.handles.length := by
      rw [← hall, h.count, Nat.add_comm]
    obtain ⟨c, hlp₁⟩ := h.lp
    rw [hlp, hn, hlp₁, Function.update_self, Function.update_idem, reverse_draws hrng]
  case pq => rw [hq, Function.update_self, hqueued, h.pq, append_diff_self]
  case eventQ => rw [hq, Function.update_of_ne (by decide)]
  case queue =>
    intro q hqp hqe
    rw [hq, Function.update_of_ne hqp, h.queue q hqp hqe]
  case free =>
    have hfree := h.free
    rw [hun, List.length_nil] at hfree
    have hsplit : (s₁.chain cev).length = ((s₁.chain cev).filter (s₀.inOrder m)).length +
        ((s₁.chain cev).filter fun c => !s₀.inOrder m c).length :=
      List.length_eq_length_filter_add _
    rw [hf, hqueued, h.eventQ, List.length_append, List.length_reverse]
    omega
  case old =>
    intro x hx hxc
    rw [hoff x hxc fun hm => ?_]
    · exact h.old x hx hxc
    · have := h.ge x.uid (List.mem_append_left _ (List.mem_map_of_mem hm))
      omega
  case self =>
    rw [hself, h.self]

end Sending

end Pe

end Ross

import Ross.Proofs.Undo

/-!
# Two runs that differ in names

The calls of a handler have the same effect in two states of one PE that differ
in the names and the numbers of the events and in the buffers left in `event_q`.
-/

namespace Ross

variable {T S M R : Type} [TwStime T]

/-! ## States that differ in names -/

/-- The same event in the two runs. -/
structure TwEvent.Alike (a b : TwEvent T) : Prop where
  sig : b.sig = a.sig
  destLp : b.destLp = a.destLp
  srcLp : b.srcLp = a.srcLp
  sendPe : b.sendPe = a.sendPe

/-- The same pointer of a handler. -/
inductive Handle.Alike : Handle T M → Handle T M → Prop
  | buffer {a b : TwEvent T} {msg : M} : a.Alike b → Alike (.buffer a msg) (.buffer b msg)
  | abort : Alike .abort .abort
  | sent {o o' : Option (TwEvent T)} : Alike (.sent o) (.sent o')

namespace Pe

/-- The check `t` follows the sequential run `s`: it has sent `n` events more, of
which `k` keep their buffers in `event_q`.  The abort event counts while there is
no current event or a handler has a pointer to it. -/
structure Follows (k n : Nat) (s t : Pe T S M R) : Prop where
  id : t.id = s.id
  lp : t.lp = s.lp
  lastSig : t.lastSig = s.lastSig
  abort : s.curEvent = none ∨ Handle.abort ∈ s.handles → t.abortEvent = s.abortEvent
  abortName : t.abortEvent.uid = s.abortEvent.uid ∧ t.abortEvent.eventId = s.abortEvent.eventId
  cur : t.curEvent.map (·.sig) = s.curEvent.map (·.sig)
  handles : List.Forall₂ Handle.Alike s.handles t.handles
  cevAbort : t.cevAbort = s.cevAbort
  pq : List.Forall₂ (fun x y => x.Alike y ∧ (t.ev y).msg = (s.ev x).msg)
    (s.queue .pq) (t.queue .pq)
  trigger : t.trigger = s.trigger ∨ t.trigger = { s.trigger with sigAt := maxSig }
  free : t.freeQ + k = s.freeQ
  eventQ : (t.queue .eventQ).length = (s.queue .eventQ).length + k
  sent : t.sent.length = s.sent.length + n

namespace Follows

variable {m m' : SimModel T S M R} {k n : Nat} {s s' t : Pe T S M R} {l l' : List (TwEvent T)}

theorem curSig (h : Follows k n s t) : t.curSig = s.curSig := by
  have hc := h.cur
  unfold Pe.curSig
  cases hs : s.curEvent with
  | none =>
      cases ht : t.curEvent with
      | none => exact congrArg (·.sig) (h.abort (.inl hs))
      | some b => rw [hs, ht] at hc; cases hc
  | some a =>
      cases ht : t.curEvent with
      | none => rw [hs, ht] at hc; cases hc
      | some b =>
          rw [hs, ht] at hc
          exact Option.some.inj hc

theorem newSig (h : Follows k n s t) (hm : m' = { m with synch := m'.synch }) (offsetTs : T)
    (lp : Nat) (prio : T) : t.newSig m' offsetTs lp prio = s.newSig m offsetTs lp prio := by
  unfold Pe.newSig twNow
  rw [h.curSig, h.lp, h.lastSig, hm]

end Follows

/-! ## Creating an event -/

section New

variable {m : SimModel T S M R} {s : Pe T S M R} {destGid sender : Nat} {offsetTs prio : T}
  {msg : M}

/-- The checks of `tw_event_new_user_prio` that do not stop the program. -/
structure NewChecks (s : Pe T S M R) (offsetTs prio : T) : Prop where
  offset : 0 ≤ offsetTs
  nonneg : 0 ≤ prio
  le_one : prio ≤ 1
  chain : offsetTs = 0 → s.curSig.tieLineageLength < maxTieChain

theorem twEventNewUserPrio_late (h : NewChecks s offsetTs prio)
    (hend : m.tsEnd ≤ s.twNow m sender + offsetTs) :
    s.twEventNewUserPrio m destGid offsetTs sender prio msg = .ok { s with
      lp := s.drawnLp m sender
      abortEvent := { s.abortEvent with
        sig := s.newSig m offsetTs sender prio
        destLp := destGid
        srcLp := sender
        sendPe := s.id }
      handles := s.handles ++ [.abort] } := by
  have hb : s.newBuffer m (s.twNow m sender + offsetTs) = .ok (false, s) := if_pos hend
  have hp : ¬ (prio < 0 ∨ 1 < prio) := not_or.mpr ⟨h.nonneg.not_gt, h.le_one.not_gt⟩
  have hc : ¬ (offsetTs = 0 ∧ maxTieChain ≤ s.curSig.tieLineageLength) := fun hc =>
    (h.chain hc.1).not_ge hc.2
  unfold twEventNewUserPrio
  dsimp only
  rw [if_neg h.offset.not_gt, if_neg hp, hb]
  exact if_neg hc

theorem twEventNewUserPrio_new (h : NewChecks s offsetTs prio)
    (hend : s.twNow m sender + offsetTs < m.tsEnd) (hfree : 0 < s.freeQ) :
    s.twEventNewUserPrio m destGid offsetTs sender prio msg = .ok { s with
      lp := s.drawnLp m sender
      freeQ := s.freeQ - 1
      nextUid := s.nextUid + 1
      handles := s.handles ++ [.buffer
        ⟨s.nextUid, s.newSig m offsetTs sender prio, 0, destGid, sender, s.id⟩ msg] } := by
  have hb : s.newBuffer m (s.twNow m sender + offsetTs) =
      .ok (true, { s with freeQ := s.freeQ - 1 }) := by
    unfold newBuffer twEventGrab
    rw [if_neg hend.not_ge, if_neg hfree.ne']
  have hp : ¬ (prio < 0 ∨ 1 < prio) := not_or.mpr ⟨h.nonneg.not_gt, h.le_one.not_gt⟩
  have hc : ¬ (offsetTs = 0 ∧ maxTieChain ≤ s.curSig.tieLineageLength) := fun hc =>
    (h.chain hc.1).not_ge hc.2
  unfold twEventNewUserPrio
  dsimp only
  rw [if_neg h.offset.not_gt, if_neg hp, hb]
  exact if_neg hc

end New

/-! ## The trigger of the GVT hook -/

/-- The signature that `tw_trigger_gvt_hook_now` sets for an LP. -/
def hookSig (m : SimModel T S M R) (s : Pe T S M R) (lp : Nat) : TwEventSig T :=
  { s.lastSig (m.kpOf lp) with eventTiebreaker := (s.lastSig (m.kpOf lp)).eventTiebreaker ++ [0] }

/-- The protocol is one of the two sequential ones. -/
def Serial (p : TwSynch) : Prop := p = .sequential ∨ p = .sequentialRollbackCheck

theorem twTriggerGvtHookNow_serial {m : SimModel T S M R} {s s' : Pe T S M R} {lp : Nat}
    (hsyn : Serial m.synch) :
    s.twTriggerGvtHookNow m lp = .ok s' ↔
      s.trigger.status = .modelCall ∧ s.trigger.sigAt.tieLineageLength < maxTieChain ∧
        s' = { s with
          lp := Function.update s.lp lp { s.lp lp with
            triggeredGvtHook := (s.lp lp).triggeredGvtHook + 1 }
          trigger := { s.trigger with sigAt := hookSig m s lp }
          gvtCompute := true } := by
  have hc : ¬ (m.synch = .conservative ∨ m.synch = .optimisticDebug) := by
    rcases hsyn with hs | hs <;> rw [hs] <;> decide
  unfold twTriggerGvtHookNow
  rw [if_neg hc]
  constructor
  · intro h
    split at h
    · cases h
    next hst =>
      split at h
      · cases h
      next hlen =>
        cases h
        exact ⟨not_not.mp hst, not_le.mp hlen, rfl⟩
  · rintro ⟨hst, hlen, rfl⟩
    rw [if_neg (not_not.mpr hst), if_neg hlen.not_ge]
    rfl

namespace Follows

variable {m m' : SimModel T S M R} {k n : Nat} {s s' t : Pe T S M R} {l l' : List (TwEvent T)}

theorem drawnLp (h : Follows k n s t) (hm : m' = { m with synch := m'.synch }) (lp : Nat) :
    t.drawnLp m' lp = s.drawnLp m lp := by
  unfold Pe.drawnLp
  rw [h.lp, hm]

theorem eventNew (hm : m' = { m with synch := m'.synch }) (hsyn : m.synch = .sequential)
    (h : Follows k n s t) {destGid lp : Nat} {offsetTs prio : T} {msg : M}
    (hs : s.twEventNewUserPrio m destGid offsetTs lp prio msg = .ok s') (hk : k ≤ s'.freeQ) :
    ∃ t', t.twEventNewUserPrio m' destGid offsetTs lp prio msg = .ok t' ∧ Follows k n s' t' := by
  have hnow : t.twNow m' lp = s.twNow m lp := by
    unfold twNow
    rw [h.lastSig, hm]
  have hend : m'.tsEnd = m.tsEnd := by rw [hm]
  have hsig := h.newSig hm offsetTs lp prio
  have hlp := h.drawnLp hm lp
  obtain ⟨⟨hoff, hp₀, hp₁, htie⟩, hcase⟩ := twEventNewUserPrio_ok hs
  have hchecks : NewChecks t offsetTs prio := ⟨hoff, hp₀, hp₁, fun h₀ => h.curSig ▸ htie h₀⟩
  rcases hcase with ⟨hlost, rfl⟩ | ⟨hlt, hpos, rfl⟩
  · have hle : m'.tsEnd ≤ t.twNow m' lp + offsetTs := by
      rw [hend, hnow]
      exact hlost.resolve_right fun hne => hne.2.2 hsyn
    refine ⟨_, twEventNewUserPrio_late hchecks hle, ?_⟩
    rw [hlp, hsig, h.id]
    refine ⟨rfl, rfl, h.lastSig, fun _ => ?_, h.abortName, h.cur,
      List.rel_append h.handles (.cons .abort .nil), h.cevAbort, h.pq, h.trigger, h.free, h.eventQ,
      h.sent⟩
    obtain ⟨hu, he⟩ := h.abortName
    dsimp only
    rw [hu, he]
  · have hfree := h.free
    have hpos' : 0 < t.freeQ := by
      dsimp only at hk
      omega
    refine ⟨_, twEventNewUserPrio_new hchecks (by rw [hend, hnow]; exact hlt) hpos', ?_⟩
    rw [hlp, hsig, h.id]
    refine ⟨rfl, rfl, h.lastSig, fun ha => h.abort (ha.imp_right fun ha => ?_), h.abortName,
      h.cur, List.rel_append h.handles (.cons (.buffer ⟨rfl, rfl, rfl, rfl⟩) .nil),
      h.cevAbort, h.pq, h.trigger, ?_, h.eventQ, h.sent⟩
    · exact (List.mem_append.mp ha).resolve_right fun hm => by cases List.mem_singleton.mp hm
    · dsimp only at hk ⊢
      omega

/-! ## Sending an event -/

/-- The pointer at a place is the same in both runs. -/
theorem handle (h : Follows k n s t) {i : Nat} {a : Handle T M} (hi : s.handles[i]? = some a) :
    ∃ b, t.handles[i]? = some b ∧ a.Alike b := by
  have hlen := h.handles.length_eq
  obtain ⟨hlt, rfl⟩ := List.getElem?_eq_some_iff.mp hi
  exact ⟨t.handles[i], List.getElem?_eq_getElem (hlen ▸ hlt), h.handles.get hlt (hlen ▸ hlt)⟩

section

omit [TwStime T]

theorem set_alike {hs ht : List (Handle T M)} (h : List.Forall₂ Handle.Alike hs ht) (i : Nat)
    (o o' : Option (TwEvent T)) :
    List.Forall₂ Handle.Alike (hs.set i (.sent o)) (ht.set i (.sent o')) := by
  induction h generalizing i with
  | nil => exact .nil
  | cons ha _ ih =>
      cases i with
      | zero => exact .cons .sent ‹_›
      | succ i => exact .cons ha (ih i)

theorem abort_mem_of_set {hs : List (Handle T M)} {i : Nat} {o : Option (TwEvent T)}
    (h : Handle.abort ∈ hs.set i (.sent o)) : Handle.abort ∈ hs :=
  (List.mem_or_eq_of_mem_set h).resolve_right fun he => by cases he

/-- The messages of events whose buffers do not change. -/
theorem pq_congr {q q' : List (TwEvent T)} {f g f' g' : TwEvent T → EventState T M}
    (h : List.Forall₂ (fun x y => x.Alike y ∧ (g y).msg = (f x).msg) q q')
    (hf : ∀ x ∈ q, f' x = f x) (hg : ∀ y ∈ q', g' y = g y) :
    List.Forall₂ (fun x y => x.Alike y ∧ (g' y).msg = (f' x).msg) q q' := by
  induction h with
  | nil => exact .nil
  | cons hxy _ ih =>
      refine .cons ⟨hxy.1, ?_⟩ (ih (fun x hx => hf x (List.mem_cons_of_mem _ hx))
        fun y hy => hg y (List.mem_cons_of_mem _ hy))
      rw [hf _ List.mem_cons_self, hg _ List.mem_cons_self]
      exact hxy.2

end

theorem sentAbort (hm : m' = { m with synch := m'.synch }) (hmap : ∀ i, m.map i = s.id)
    (h : Follows k n s t) {i : Nat} (hi : s.handles[i]? = some .abort) (hs : SentAbort m s i s')
    (hl : Tidy l s) (hl' : Tidy l' t) :
    ∃ t', t.twEventSend m' i = .ok t' ∧ Follows k n s' t' := by
  obtain ⟨b, hi', hb⟩ := h.handle hi
  cases hb
  have hmap' : ∀ i, m'.map i = t.id := by
    rw [hm]
    exact fun i => (hmap i).trans h.id.symm
  have ht : t.twEventSend m' i = .ok ((t.takeHandle i none).sendAbort m') := by
    unfold twEventSend
    rw [hi']
  refine ⟨_, ht, ?_⟩
  have hs' : SentAbort m' t i ((t.takeHandle i none).sendAbort m') := by
    rcases twEventSend_serial hmap' ht with ⟨-, hs'⟩ | ⟨e, msg, hbuf, -⟩
    · exact hs'
    · rw [hi'] at hbuf
      cases hbuf
  have hold : ∀ x ∈ s.queue .pq, s'.ev x = s.ev x := fun x hx =>
    hs.other x fun hc => hl.cur_notMem hc hx
  have hold' := fun x (hx : x ∈ t.queue .pq) => hs'.other x fun hc => hl'.cur_notMem hc hx
  obtain ⟨g, rfl⟩ := hs.eq
  obtain ⟨g', heq⟩ := hs'.eq
  rw [heq] at hold' ⊢
  have habort := h.abort (.inr (List.mem_of_getElem? hi))
  refine ⟨h.id, h.lp, h.lastSig, fun _ => habort, h.abortName, h.cur,
    set_alike h.handles i none none, ?_, pq_congr h.pq hold hold', h.trigger, h.free, h.eventQ,
    h.sent⟩
  dsimp only
  rw [habort, h.cevAbort, hm]

theorem sentEvent (hm : m' = { m with synch := m'.synch }) (hmap : ∀ i, m.map i = s.id)
    (hnc : m'.synch ≠ .conservative)
    (h : Follows k n s t) {i : Nat} {e : TwEvent T} {msg : M}
    (hi : s.handles[i]? = some (.buffer e msg)) (hs : Sent m s i e msg s')
    (hl : Tidy l s) (hl' : Tidy l' t) :
    ∃ t', t.twEventSend m' i = .ok t' ∧ Follows k n s' t' := by
  obtain ⟨b, hi', hb⟩ := h.handle hi
  cases hb with
  | @buffer _ e' _ he =>
  have hmap' : ∀ i, m'.map i = t.id := by
    rw [hm]
    exact fun i => (hmap i).trans h.id.symm
  have ht : ∃ t', t.twEventSend m' i = .ok t' := by
    unfold twEventSend sendEvent
    rw [hi']
    dsimp only
    rw [if_neg fun hc => hnc hc.1]
    exact ⟨_, rfl⟩
  obtain ⟨t', ht⟩ := ht
  refine ⟨t', ht, ?_⟩
  have hs' : Sent m' t i e' msg t' := by
    rcases twEventSend_serial hmap' ht with ⟨hbuf, -⟩ | ⟨e₁, msg₁, hbuf, hs'⟩
    · rw [hi'] at hbuf
      cases hbuf
    · rw [hi'] at hbuf
      cases hbuf
      exact hs'
  obtain ⟨hnew, hold⟩ := hl.sent_ev hi hs
  obtain ⟨hnew', hold'⟩ := hl'.sent_ev hi' hs'
  have hin : t.inOrder m' (t.stamp e') = s.inOrder m (s.stamp e) := by
    have hd : (t.stamp e').destLp = (s.stamp e).destLp := he.destLp
    have hsig : (t.stamp e').sig = (s.stamp e).sig := he.sig
    unfold inOrder
    rw [hd, hsig, h.lastSig, hm]
  have hmsg : (t'.ev (t.stamp e')).msg = (s'.ev (s.stamp e)).msg := by rw [hnew, hnew']
  have hpq := pq_congr h.pq hold hold'
  obtain ⟨g, acm, c, rfl⟩ := hs.eq
  obtain ⟨g', acm', c', rfl⟩ := hs'.eq
  refine ⟨h.id, h.lp, h.lastSig, fun ha => h.abort (ha.imp_right abort_mem_of_set), h.abortName,
    h.cur, set_alike h.handles i _ _, h.cevAbort, ?_, h.trigger, h.free, ?_, ?_⟩
  · dsimp only
    unfold sentTo
    rw [hin]
    split
    · rw [Pool.cons_self, Pool.cons_self]
      exact .cons ⟨⟨he.sig, he.destLp, he.srcLp, he.sendPe⟩, hmsg⟩ hpq
    · rw [Pool.snoc_of_ne (by decide), Pool.snoc_of_ne (by decide)]
      exact hpq
  · dsimp only
    unfold sentTo
    rw [hin]
    have hlen := h.eventQ
    split
    · rw [Pool.cons_of_ne (by decide), Pool.cons_of_ne (by decide)]
      exact hlen
    · rw [Pool.snoc_self, Pool.snoc_self, List.length_append, List.length_append,
        List.length_singleton, List.length_singleton]
      omega
  · dsimp only
    have hlen := h.sent
    rw [List.length_append, List.length_append, List.length_singleton, List.length_singleton]
    omega

/-! ## The calls of a handler -/

theorem triggerNow (hm : m' = { m with synch := m'.synch }) (hsyn : Serial m.synch)
    (hsyn' : Serial m'.synch) (h : Follows k n s t) {lp : Nat}
    (hs : s.twTriggerGvtHookNow m lp = .ok s') :
    ∃ t', t.twTriggerGvtHookNow m' lp = .ok t' ∧ Follows k n s' t' := by
  obtain ⟨hst, hlen, rfl⟩ := (twTriggerGvtHookNow_serial hsyn).mp hs
  have hsig : hookSig m' t lp = hookSig m s lp := by
    unfold hookSig
    rw [h.lastSig, hm]
  have ht : t.trigger.status = .modelCall ∧ t.trigger.sigAt.tieLineageLength < maxTieChain := by
    rcases h.trigger with ht | ht
    · rw [ht]
      exact ⟨hst, hlen⟩
    · rw [ht]
      exact ⟨hst, show 1 < 20 by decide⟩
  refine ⟨_, (twTriggerGvtHookNow_serial hsyn').mpr ⟨ht.1, ht.2, rfl⟩, h.id, by rw [h.lp],
    h.lastSig, h.abort, h.abortName, h.cur, h.handles, h.cevAbort, h.pq, .inl ?_, h.free,
    h.eventQ, h.sent⟩
  dsimp only
  rw [hsig]
  rcases h.trigger with ht | ht
  · rw [ht]
  · rw [ht]

theorem handlerOp (hm : m' = { m with synch := .sequentialRollbackCheck })
    (hsyn : m.synch = .sequential) (hmap : ∀ i, m.map i = s.id) (h : Follows k n s t) {lp : Nat}
    {op : HandlerOp T M} (hop : isAwake op) (hs : s.handlerOp m lp op = .ok s')
    (hk : k ≤ s'.freeQ) (hl : Tidy l s) (hl' : Tidy l' t) :
    ∃ t', t.handlerOp m' lp op = .ok t' ∧ Follows k n s' t' := by
  have hsyn' : m'.synch = .sequentialRollbackCheck := by rw [hm]
  have hm' : m' = { m with synch := m'.synch } := by rw [hsyn', ← hm]
  cases op with
  | eventNew destGid offsetTs prio msg => exact h.eventNew hm' hsyn hs hk
  | eventSend i =>
      rcases twEventSend_serial hmap hs with ⟨hi, hs⟩ | ⟨e, msg, hi, hs⟩
      · exact h.sentAbort hm' hmap hi hs hl hl'
      · exact h.sentEvent hm' hmap (by rw [hsyn']; decide) hi hs hl hl'
  | lpSuspend b => exact hop.elim
  | triggerGvtHookNow => exact h.triggerNow hm' (.inl hsyn) (.inr hsyn') hs

end Follows

namespace Follows

variable {m m' : SimModel T S M R} {k n : Nat} {s s' t : Pe T S M R} {l l' : List (TwEvent T)}

theorem runOps (hm : m' = { m with synch := .sequentialRollbackCheck })
    (hsyn : m.synch = .sequential) (hmap : ∀ i, m.map i = s.id) (h : Follows k n s t) {lp : Nat}
    {ops : List (HandlerOp T M)} (hops : ∀ op ∈ ops, isAwake op)
    (hs : s.runOps m lp ops = .ok s') (hk : k ≤ s'.freeQ) (hl : Tidy l s) (hl' : Tidy l' t) :
    ∃ t', t.runOps m' lp ops = .ok t' ∧ Follows k n s' t' := by
  induction ops generalizing s t with
  | nil =>
      cases hs
      exact ⟨t, rfl, h⟩
  | cons op ops ih =>
      unfold Pe.runOps at hs
      split at hs
      next s₁ hs₁ =>
        have hid := (handlerOp_free hs₁).2.1
        have hk₁ := hk.trans (runOps_free hs).1
        have hmap' : ∀ i, m'.map i = t.id := by
          rw [hm]
          exact fun i => (hmap i).trans h.id.symm
        obtain ⟨t₁, ht₁, h₁⟩ := h.handlerOp hm hsyn hmap (hops op List.mem_cons_self) hs₁ hk₁ hl hl'
        obtain ⟨t', ht', h'⟩ := ih (fun i => (hmap i).trans hid.symm) h₁
          (fun op hop => hops op (List.mem_cons_of_mem _ hop)) hs (hl.handlerOp hmap hs₁)
          (hl'.handlerOp hmap' ht₁)
        refine ⟨t', ?_, h'⟩
        unfold Pe.runOps
        rw [ht₁]
        exact ht'
      · cases hs

end Follows

/-- The call requests the GVT hook. -/
def isTrigger : HandlerOp T M → Bool
  | .triggerGvtHookNow => true
  | _ => false

theorem handlerOp_trigger {m : SimModel T S M R} {s s' : Pe T S M R} {lp : Nat}
    {op : HandlerOp T M} (hop : isTrigger op = false) (h : s.handlerOp m lp op = .ok s') :
    s'.trigger = s.trigger ∧
      (s'.lp lp).triggeredGvtHook = (s.lp lp).triggeredGvtHook := by
  cases op with
  | triggerGvtHookNow => cases hop
  | eventNew destGid offsetTs prio msg =>
      have hdraw : (s.drawnLp m lp lp).triggeredGvtHook = (s.lp lp).triggeredGvtHook :=
        TwLp.update_field (·.triggeredGvtHook) s.lp lp (by rfl) lp
      obtain ⟨-, ⟨-, rfl⟩ | ⟨-, -, rfl⟩⟩ := twEventNewUserPrio_ok h
      · exact ⟨rfl, hdraw⟩
      · exact ⟨rfl, hdraw⟩
  | eventSend i =>
      have hset : ∀ e : TwEvent T, ∀ p : Pe T S M R, (p.deliver m e).trigger = p.trigger ∧
          (p.deliver m e).lp = p.lp := by
        intro e p
        rcases deliver_cases m p e with ⟨-, -, hd⟩ | ⟨-, -, hd⟩ | ⟨-, hd⟩ <;> rw [hd] <;>
          exact ⟨rfl, rfl⟩
      rcases twEventSend_ok h with ⟨-, rfl⟩ | ⟨e, msg, -, -, rfl⟩
      · exact ⟨rfl, rfl⟩
      · obtain ⟨ht, hlp⟩ := hset (s.stamp e) (s.prepare i e msg)
        rw [ht, hlp]
        exact ⟨rfl, rfl⟩
  | lpSuspend b =>
      cases h
      exact ⟨rfl, TwLp.update_field (·.triggeredGvtHook) s.lp lp (by rfl) lp⟩

/-- A handler leaves its request in the trigger of the GVT hook, and its LP has counted
each call of `tw_trigger_gvt_hook_now`. -/
theorem runOps_trigger {m : SimModel T S M R} {s s' : Pe T S M R} {lp : Nat}
    {ops : List (HandlerOp T M)} (hsyn : Serial m.synch) (h : s.runOps m lp ops = .ok s') :
    s'.trigger = (if ops.countP isTrigger = 0 then s.trigger
        else { s.trigger with sigAt := hookSig m s lp }) ∧
      (s'.lp lp).triggeredGvtHook =
        (s.lp lp).triggeredGvtHook + BitVec.ofNat 32 (ops.countP isTrigger) := by
  induction ops generalizing s with
  | nil =>
      cases h
      exact ⟨rfl, (BitVec.add_zero _).symm⟩
  | cons op ops ih =>
      unfold runOps at h
      split at h
      next s₁ hs₁ =>
        have hsig : hookSig m s₁ lp = hookSig m s lp := by
          unfold hookSig
          rw [(handlerOp_free hs₁).2.2]
        obtain ⟨htrigger, hcount⟩ := ih h
        rw [hsig] at htrigger
        cases hop : isTrigger op with
        | false =>
            obtain ⟨ht, hc⟩ := handlerOp_trigger hop hs₁
            rw [List.countP_cons_of_neg (by rw [hop]; decide)]
            rw [ht] at htrigger
            exact ⟨htrigger, by rw [hcount, hc]⟩
        | true =>
            obtain rfl : op = .triggerGvtHookNow := by
              cases op <;> first | rfl | cases hop
            obtain ⟨-, -, rfl⟩ := (twTriggerGvtHookNow_serial hsyn).mp hs₁
            rw [List.countP_cons_of_pos (by rfl), if_neg (Nat.succ_ne_zero _)]
            constructor
            · rw [htrigger]
              split <;> rfl
            · dsimp only at hcount
              rw [hcount, Function.update_self, Nat.add_comm, BitVec.ofNat_add,
                ← BitVec.add_assoc]
              rfl
      · cases h

end Pe

end Ross

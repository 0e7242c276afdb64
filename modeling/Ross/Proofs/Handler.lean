import Ross.Core.Machine
import Ross.Lib.Transition

/-!
# What a handler execution leaves behind

The signature that a new event gets compared with the signature of the current
event, and what becomes of the events that one execution of a handler requests
when the free buffers are used up.
-/

namespace Ross

open Transition

variable {T S M R : Type} [TwStime T]

/-! ## The signature of a new event -/

theorem lt_append_singleton {α : Type*} [LinearOrder α] {l : List α} (u : α) : l < l ++ [u] := by
  induction l with
  | nil => exact List.nil_lt_cons u []
  | cons a l ih => exact List.cons_lt_cons_iff.mpr (.inr ⟨rfl, ih⟩)

/-- The tie lineage of a zero-offset event extends the creator's, any other one
starts anew. -/
theorem lt_tieLineage_iff {now : TwEventSig T} {offsetTs u : T} :
    now.eventTiebreaker < tieLineage now offsetTs u ↔
      offsetTs = 0 ∨ now.eventTiebreaker < [u] := by
  unfold tieLineage
  by_cases h : offsetTs = 0
  · simp [h, lt_append_singleton]
  · simp [h]

namespace Pe

variable {m : SimModel T S M R} {s s' : Pe T S M R}

/-- The signature of the event that `tw_event_new_user_prio` returned last. -/
def newestSig (s : Pe T S M R) : TwEventSig T :=
  match s.handles.getLast? with
  | some (.buffer e _) => e.sig
  | _ => s.abortEvent.sig

/-- The new event is above the current one exactly when its timestamp is, or the
timestamps agree and its priority is, or both agree and its lineage is. -/
theorem new_event_above_current_iff {destGid sender : Nat} {offsetTs prio : T} {msg : M}
    (h : s.twEventNewUserPrio m destGid offsetTs sender prio msg = .ok s') :
    0 < twEventSigComparePtr s'.newestSig s.curSig ↔
      s.curSig.recvTs < s.twNow m sender + offsetTs ∨
        s.curSig.recvTs = s.twNow m sender + offsetTs ∧
          (s.curSig.priority < prio ∨ s.curSig.priority = prio ∧
            (offsetTs = 0 ∨
              s.curSig.eventTiebreaker < [(m.randUnif (s.lp sender).coreRng).1])) := by
  have hsig : s'.newestSig = s.newSig m offsetTs sender prio := by
    obtain ⟨-, ⟨-, rfl⟩ | ⟨-, -, rfl⟩⟩ := twEventNewUserPrio_ok h <;>
      simp [newestSig]
  rw [hsig, twEventSigComparePtr_pos, TwEventSig.lt_iff, ← lt_tieLineage_iff]
  rfl

/-- An LP whose events send zero-offset events of their own priority, one after the other. -/
def chainedModel : SimModel Int Nat Nat Nat :=
  { quietModel with
    init := fun lp st => (st, if lp = 0 then [.eventNew 0 1 1 2, .eventSend 0] else [])
    event := fun _ _ st cv msg => ⟨st, cv, msg, if msg = 0 then [] else
      [.eventNew 0 0 1 (msg - 1), .eventSend 0]⟩ }

/-- The LP, the offset, the priority and the message of the event that a handler requests next. -/
def nextRequest (s : Pe T S M R) : Option (Nat × T × T × M) :=
  match s.phase with
  | .handler _ _ _ (.eventNew destGid offsetTs prio msg :: _) => some (destGid, offsetTs, prio, msg)
  | _ => none

/-- The handler of the second event creates the third one: all that differs is the lineage. -/
theorem new_event_above_current_tied :
    ∃ s s' now, Reachable (· = Pe.start chainedModel 0 (program chainedModel 0))
        (fun a i b => a.step chainedModel i = .ok b) s ∧
      s.nextRequest = some (0, 0, 1, 0) ∧ s.curEvent = some now ∧
      now.sig = ⟨1, 1, [0, 1]⟩ ∧ s.twEventNewUserPrio chainedModel 0 0 0 1 0 = .ok s' ∧
      s'.newestSig = ⟨1, 1, [0, 1, 2]⟩ ∧ 0 < twEventSigComparePtr s'.newestSig s.curSig := by
  have hrun : ∃ s, Reachable (· = Pe.start chainedModel 0 (program chainedModel 0))
        (fun a i b => a.step chainedModel i = .ok b) s ∧
      (decide (s.nextRequest = some (0, 0, 1, 0)) &&
        s.curEvent.any (fun now => decide (now.sig = ⟨1, 1, [0, 1]⟩)) &&
        (s.twEventNewUserPrio chainedModel 0 0 0 1 0).toOption.any fun s' =>
          decide (s'.newestSig = ⟨1, 1, [0, 1, 2]⟩ ∧ s.twNow chainedModel 0 = 1)) = true :=
    Reachable.exists_of_runList _ (List.replicate 36 (.tau false)) (.start rfl)
      (by decide +kernel)
  obtain ⟨s, hs, ht⟩ := hrun
  rw [Bool.and_eq_true, Bool.and_eq_true, Option.any_eq_true] at ht
  obtain ⟨⟨hcall, now, hcur, hsig⟩, hnew⟩ := ht
  obtain ⟨s', hok, hnewest⟩ := exists_ok_of_any hnew
  obtain ⟨hnewest, hnow⟩ := of_decide_eq_true hnewest
  have hcurSig : s.curSig = ⟨1, 1, [0, 1]⟩ := by
    unfold curSig
    rw [hcur]
    exact of_decide_eq_true hsig
  refine ⟨s, s', now, hs, of_decide_eq_true hcall, hcur, of_decide_eq_true hsig, hok, hnewest,
    (new_event_above_current_iff hok).mpr ?_⟩
  rw [hcurSig, hnow]
  exact .inr ⟨rfl, .inr ⟨rfl, .inl rfl⟩⟩

/-- An LP whose handler sends, at zero offset, an event of higher priority than
the current one. -/
def urgentModel : SimModel Int Nat Nat Nat :=
  { quietModel with
    init := fun lp st => (st, if lp = 0 then [.eventNew 0 1 1 1, .eventSend 0] else [])
    event := fun _ _ st cv msg => ⟨st, cv, msg, if msg = 1 then
      [.eventNew 0 0 0 0, .eventSend 0] else []⟩ }

/-- A zero-offset event of higher priority gets a signature below the current
event's. -/
theorem urgent_event_below_current :
    ∃ s, Reachable (· = Pe.start urgentModel 0 (program urgentModel 0))
        (fun a i b => a.step urgentModel i = .ok b) s ∧
      s.handles ≠ [] ∧ ∃ now, s.curEvent = some now ∧
        ¬ 0 < twEventSigComparePtr s.newestSig now.sig := by
  have hrun : ∃ s, Reachable (· = Pe.start urgentModel 0 (program urgentModel 0))
        (fun a i b => a.step urgentModel i = .ok b) s ∧
      (!s.handles.isEmpty && s.curEvent.any fun now =>
        decide (¬ 0 < twEventSigComparePtr s.newestSig now.sig)) = true :=
    Reachable.exists_of_runList _ (List.replicate 33 (.tau false)) (.start rfl)
      (by decide +kernel)
  obtain ⟨s, hs, ht⟩ := hrun
  rw [Bool.and_eq_true, Option.any_eq_true] at ht
  obtain ⟨hh, now, hnow, hlt⟩ := ht
  exact ⟨s, hs, by simpa using hh, now, hnow, of_decide_eq_true hlt⟩

end Pe

/-! ## Requested events -/

/-- The event in the buffer that a pointer got, if it got one. -/
def Handle.event : Handle T M → Option (TwEvent T)
  | .buffer e _ => some e
  | .abort => none
  | .sent e => e

/-- The timestamp and the destination of every event that the calls `ops` of a
handler request at the time `now`. -/
def requests (now : T) (ops : List (HandlerOp T M)) : List (T × Nat) :=
  ops.filterMap fun
    | .eventNew destGid offsetTs _ _ => some (now + offsetTs, destGid)
    | _ => none

/-- What a handler's calls do to the abort event: how many events were created,
the timestamp the abort event was last given, and whether a pointer to it was
sent while that timestamp was before the end. -/
structure AbortTrace (T : Type) where
  created : Nat
  abortTs : Option T
  raised : Bool

/-- One call; `lost i` says that the `i`-th creation got no buffer. -/
def AbortTrace.next (tsEnd now : T) (lost : Nat → Bool) (t : AbortTrace T) :
    HandlerOp T M → AbortTrace T
  | .eventNew _ offsetTs _ _ =>
      { t with
        created := t.created + 1
        abortTs := if lost t.created then some (now + offsetTs) else t.abortTs }
  | .eventSend i => { t with raised := t.raised || (lost i && t.abortTs.any (· < tsEnd)) }
  | _ => t

/-- The trace of the calls `ops` of one execution. -/
def abortTrace (tsEnd now : T) (lost : Nat → Bool) (ops : List (HandlerOp T M)) : AbortTrace T :=
  ops.foldl (AbortTrace.next tsEnd now lost) ⟨0, none, false⟩

namespace Pe

/-- For every event requested so far, its buffer or `none`. -/
def requested (s : Pe T S M R) : List (Option (TwEvent T)) := s.handles.map Handle.event

/-- An event not cancelled, nor to be cancelled once sent. -/
def Plain (st : EventState T M) : Prop := st.cancelQ = false ∧ st.cancelAsend = false

/-- The event of a handler's buffer is in the priority queue, in `event_q`, or in
the network: in `outq` or handed to `MPI_Isend` as a positive message. -/
def Delivered (m : SimModel T S M R) (s : Pe T S M R) (e : TwEvent T) : Prop :=
  ∃ x : TwEvent T, x = { e with eventId := x.eventId } ∧
    (x ∈ s.queue .pq ∨ x ∈ s.queue .eventQ ∨ x ∈ s.queue .outq ∧ Plain (s.ev x) ∨
      ∃ msg, (m.map x.destLp, ⟨x, false, msg⟩) ∈ s.wire)

section

omit [TwStime T]

theorem Delivered.mono {s s' : Pe T S M R} {e : TwEvent T} (h : Delivered m s e)
    (hpq : ∀ x ∈ s.queue .pq, x ∈ s'.queue .pq)
    (heq : ∀ x ∈ s.queue .eventQ, x ∈ s'.queue .eventQ)
    (hout : ∀ x ∈ s.queue .outq, Plain (s.ev x) → x ∈ s'.queue .outq ∧ Plain (s'.ev x) ∨
      ∃ msg, (m.map x.destLp, ⟨x, false, msg⟩) ∈ s'.wire)
    (hw : ∀ w ∈ s.wire, w ∈ s'.wire) : Delivered m s' e := by
  obtain ⟨x, hx, hmem | hmem | ⟨hmem, hp⟩ | ⟨msg, hmem⟩⟩ := h
  · exact ⟨x, hx, .inl (hpq x hmem)⟩
  · exact ⟨x, hx, .inr (.inl (heq x hmem))⟩
  · exact ⟨x, hx, .inr (.inr (hout x hmem hp))⟩
  · exact ⟨x, hx, .inr (.inr (.inr ⟨msg, hw _ hmem⟩))⟩

/-- A step that touches neither the queues nor the bits of an event. -/
theorem Delivered.same {s s' : Pe T S M R} {e : TwEvent T} (h : Delivered m s e)
    (hq : s'.queue = s.queue) (hev : ∀ x, Plain (s.ev x) → Plain (s'.ev x))
    (hw : s'.wire = s.wire) : Delivered m s' e :=
  h.mono (fun _ hx => hq ▸ hx) (fun _ hx => hq ▸ hx)
    (fun x hx hp => .inl ⟨hq ▸ hx, hev x hp⟩) fun _ hx => hw ▸ hx

end

/-- What holds in every state of a handler execution from `s₀`, once the calls
`done` have returned. -/
structure HandlerInv (m : SimModel T S M R) (s₀ : Pe T S M R) (kind : BatchKind)
    (left lp : Nat) (done rest : List (HandlerOp T M)) (s : Pe T S M R) : Prop where
  phase : s.phase = .handler kind left lp rest
  rollback : s.rollback = none
  net : s.net = .off ∨ (∃ c, s.net = .testSends false c) ∨ ∃ c, s.net = .sendBegin false c
  curEvent : s.curEvent = s₀.curEvent
  now : s.twNow m lp = s₀.twNow m lp
  length : s.requested.length = (requests (s₀.twNow m lp) done).length
  request : ∀ (i : Nat) (r : T × Nat) (e : TwEvent T),
    (requests (s₀.twNow m lp) done)[i]? = some r → s.requested[i]? = some (some e) →
    r.1 < m.tsEnd ∧ e.sig.recvTs = r.1 ∧ e.destLp = r.2
  delivered : ∀ (i : Nat) (e : TwEvent T), s.handles[i]? = some (.sent (some e)) →
    Delivered m s e
  named : ∀ (i : Nat) (e : TwEvent T), s.requested[i]? = some (some e) → e.uid < s.nextUid
  distinct : ∀ (i j : Nat) (e e' : TwEvent T), s.requested[i]? = some (some e) →
    s.requested[j]? = some (some e') → e.uid = e'.uid → i = j
  trace : ∀ lost : Nat → Bool,
    (∀ (i : Nat) (o : Option (TwEvent T)), s.requested[i]? = some o → lost i = o.isNone) →
    (abortTrace m.tsEnd (s₀.twNow m lp) lost done).created = s.requested.length ∧
      (abortTrace m.tsEnd (s₀.twNow m lp) lost done).raised = s.cevAbort ∧
      (none ∈ s.requested → (abortTrace m.tsEnd (s₀.twNow m lp) lost done).abortTs =
        some s.abortEvent.sig.recvTs)

namespace HandlerInv

variable {m : SimModel T S M R} {s₀ s s' : Pe T S M R} {kind : BatchKind} {left lp : Nat}
  {done rest : List (HandlerOp T M)}

/-- The handler starts with no pointer and nothing marked. -/
theorem start (hat : s₀.At (.handler kind left lp rest)) (hh : s₀.handles = [])
    (ha : s₀.cevAbort = false) : HandlerInv m s₀ kind left lp [] rest s₀ where
  phase := hat.2.2
  rollback := hat.2.1
  net := .inl hat.1
  curEvent := rfl
  now := rfl
  length := by simp [requested, hh, requests]
  request i r e hr := by simp [requests] at hr
  delivered i e hi := by simp [hh] at hi
  named i e hi := by simp [requested, hh] at hi
  distinct i j e e' hi := by simp [requested, hh] at hi
  trace lost _ := by simp [requested, hh, abortTrace, ha]

/-- A step of the network loop of `tw_event_send`, or a call that creates and
sends nothing: the pointers, the abort event and its mark stay. -/
theorem same (h : HandlerInv m s₀ kind left lp done rest s)
    {done' rest' : List (HandlerOp T M)} (hphase : s'.phase = .handler kind left lp rest')
    (hroll : s'.rollback = none)
    (hnet : s'.net = .off ∨ (∃ c, s'.net = .testSends false c) ∨ ∃ c, s'.net = .sendBegin false c)
    (hcur : s'.curEvent = s.curEvent) (hlast : s'.lastSig = s.lastSig)
    (hh : s'.handles = s.handles) (huid : s'.nextUid = s.nextUid)
    (hab : s'.abortEvent = s.abortEvent) (hcev : s'.cevAbort = s.cevAbort)
    (hd : ∀ e, Delivered m s e → Delivered m s' e)
    (hreq : requests (s₀.twNow m lp) done' = requests (s₀.twNow m lp) done)
    (htr : ∀ lost, abortTrace m.tsEnd (s₀.twNow m lp) lost done' =
      abortTrace m.tsEnd (s₀.twNow m lp) lost done) :
    HandlerInv m s₀ kind left lp done' rest' s' where
  phase := hphase
  rollback := hroll
  net := hnet
  curEvent := hcur.trans h.curEvent
  now := by
    have hnow : s'.twNow m lp = s.twNow m lp := by simp only [twNow, hlast]
    exact hnow.trans h.now
  length := by simpa only [requested, hh, hreq] using h.length
  request := by simpa only [requested, hh, hreq] using h.request
  delivered i e hi := hd e (h.delivered i e (hh ▸ hi))
  named := by simpa only [requested, hh, huid] using h.named
  distinct := by simpa only [requested, hh] using h.distinct
  trace := by simpa only [requested, hh, hab, hcev, htr] using h.trace

/-- A creation appends the buffer it got, or `none` and then the abort event has
the requested timestamp. -/
theorem create (h : HandlerInv m s₀ kind left lp done rest s) {destGid : Nat}
    {offsetTs prio : T} {msg : M} {rest' : List (HandlerOp T M)} {o : Option (TwEvent T)}
    (hphase : s'.phase = .handler kind left lp rest') (hroll : s'.rollback = none)
    (hnet : s'.net = s.net) (hcur : s'.curEvent = s.curEvent) (hlast : s'.lastSig = s.lastSig)
    (hreq : s'.requested = s.requested ++ [o])
    (hsent : ∀ (i : Nat) (e : TwEvent T), s'.handles[i]? = some (.sent (some e)) →
      s.handles[i]? = some (.sent (some e)))
    (huid : s.nextUid ≤ s'.nextUid) (hcev : s'.cevAbort = s.cevAbort)
    (hd : ∀ e, Delivered m s e → Delivered m s' e)
    (hsome : ∀ e, o = some e → s'.abortEvent = s.abortEvent ∧ e.uid = s.nextUid ∧
      s.nextUid < s'.nextUid ∧ s₀.twNow m lp + offsetTs < m.tsEnd ∧
      e.sig.recvTs = s₀.twNow m lp + offsetTs ∧ e.destLp = destGid)
    (hnone : o = none → s'.abortEvent.sig.recvTs = s₀.twNow m lp + offsetTs) :
    HandlerInv m s₀ kind left lp (done ++ [.eventNew destGid offsetTs prio msg]) rest' s' := by
  have hreqs : requests (s₀.twNow m lp) (done ++ [.eventNew destGid offsetTs prio msg]) =
      requests (s₀.twNow m lp) done ++ [(s₀.twNow m lp + offsetTs, destGid)] := by
    simp [requests]
  have hlast' : ∀ {i : Nat} {x : Option (TwEvent T)}, s'.requested[i]? = some x →
      s.requested[i]? = some x ∨ i = s.requested.length ∧ x = o := by
    intro i x hi
    rw [hreq, List.getElem?_append] at hi
    split at hi
    · exact .inl hi
    next hlt =>
      rw [List.getElem?_singleton] at hi
      split at hi
      next h0 => exact .inr ⟨by omega, by simpa using hi.symm⟩
      · cases hi
  have hlt : ∀ {i : Nat} {x : Option (TwEvent T)}, s.requested[i]? = some x →
      i < s.requested.length := fun hi => (List.getElem?_eq_some_iff.mp hi).1
  have hold : ∀ {i : Nat} {x : Option (TwEvent T)}, s.requested[i]? = some x →
      s'.requested[i]? = some x := by
    intro i x hi
    rw [hreq, List.getElem?_append_left (hlt hi), hi]
  refine ⟨hphase, hroll, hnet ▸ h.net, hcur.trans h.curEvent, ?_, ?_, fun i r e hi he => ?_,
    fun i e hi => hd e (h.delivered i e (hsent i e hi)), fun i e hi => ?_,
    fun i j e e' hi hj heq => ?_, fun lost hlost => ?_⟩
  · have hnow : s'.twNow m lp = s.twNow m lp := by simp only [twNow, hlast]
    exact hnow.trans h.now
  · rw [hreq, hreqs, List.length_append, List.length_append, h.length]
    rfl
  · rw [hreqs] at hi
    rcases hlast' he with he | ⟨rfl, hoe⟩
    · rw [List.getElem?_append_left (h.length ▸ hlt he)] at hi
      exact h.request i r e hi he
    · rw [h.length, List.getElem?_append_right le_rfl] at hi
      simp only [Nat.sub_self, List.getElem?_cons_zero, Option.some.injEq] at hi
      subst hi
      obtain ⟨-, -, -, hend, hts, hdest⟩ := hsome e hoe.symm
      exact ⟨hend, hts, hdest⟩
  · rcases hlast' hi with hi | ⟨-, hi⟩
    · exact (h.named i e hi).trans_le huid
    · obtain ⟨-, hu, hlt, -⟩ := hsome e hi.symm
      exact hu ▸ hlt
  · rcases hlast' hi with hi | ⟨rfl, hoi⟩ <;> rcases hlast' hj with hj | ⟨rfl, hoj⟩
    · exact h.distinct i j e e' hi hj heq
    · have := h.named i e hi
      have := (hsome e' hoj.symm).2.1
      omega
    · have := h.named j e' hj
      have := (hsome e hoi.symm).2.1
      omega
    · rfl
  · obtain ⟨hc, hr, ha⟩ := h.trace lost fun i x hi => hlost i x (hold hi)
    have hnew : lost s.requested.length = o.isNone := hlost _ o (by rw [hreq]; simp)
    simp only [abortTrace, List.foldl_append, List.foldl_cons, List.foldl_nil] at hc hr ha ⊢
    refine ⟨by rw [hreq, AbortTrace.next, hc]; simp, hr.trans hcev.symm, fun hmem => ?_⟩
    simp only [AbortTrace.next, hc, hnew]
    cases o with
    | none => simp [hnone rfl]
    | some e =>
        rw [hreq] at hmem
        have hmem : none ∈ s.requested := by simpa using hmem
        simpa [(hsome e rfl).1] using ha hmem

/-- The send of a pointer delivers its event, or marks the abort when the abort
event's timestamp is before the end. -/
theorem send (h : HandlerInv m s₀ kind left lp done rest s) {k : Nat}
    {o : Option (TwEvent T)} {rest' : List (HandlerOp T M)}
    (hphase : s'.phase = .handler kind left lp rest') (hroll : s'.rollback = none)
    (hnet : s'.net = .off ∨ (∃ c, s'.net = .testSends false c) ∨ ∃ c, s'.net = .sendBegin false c)
    (hcur : s'.curEvent = s.curEvent) (hlast : s'.lastSig = s.lastSig)
    (hk : s.requested[k]? = some o) (hh : s'.handles = s.handles.set k (.sent o))
    (huid : s'.nextUid = s.nextUid) (hab : s'.abortEvent = s.abortEvent)
    (hcev : s'.cevAbort =
      (s.cevAbort || (o.isNone && decide (s.abortEvent.sig.recvTs < m.tsEnd))))
    (hd : ∀ e, Delivered m s e → Delivered m s' e) (hnew : ∀ e, o = some e → Delivered m s' e) :
    HandlerInv m s₀ kind left lp (done ++ [.eventSend k]) rest' s' := by
  have hreqs : requests (s₀.twNow m lp) (done ++ [.eventSend k]) =
      requests (s₀.twNow m lp) done := by simp [requests]
  have hreq : s'.requested = s.requested := by
    apply List.ext_getElem?
    intro j
    unfold requested at hk ⊢
    rw [hh, List.getElem?_map, List.getElem?_map, List.getElem?_set]
    by_cases hj : k = j
    · subst hj
      rw [List.getElem?_map] at hk
      have hlt : k < s.handles.length := by
        by_contra hge
        rw [List.getElem?_eq_none (by omega)] at hk
        cases hk
      rw [hk, if_pos rfl, if_pos hlt]
      rfl
    · rw [if_neg hj]
  refine ⟨hphase, hroll, hnet, hcur.trans h.curEvent, ?_, by rw [hreqs, hreq, h.length],
    by simpa only [hreqs, hreq] using h.request, fun i e hi => ?_,
    by simpa only [hreq, huid] using h.named, by simpa only [hreq] using h.distinct,
    fun lost hlost => ?_⟩
  · have hnow : s'.twNow m lp = s.twNow m lp := by simp only [twNow, hlast]
    exact hnow.trans h.now
  · rw [hh, List.getElem?_set] at hi
    split at hi
    · split at hi
      · exact hnew e (by simpa using hi)
      · cases hi
    · exact hd e (h.delivered i e hi)
  · obtain ⟨hc, hr, ha⟩ := h.trace lost (hreq ▸ hlost)
    have hlk : lost k = o.isNone := hlost k o (hreq ▸ hk)
    simp only [abortTrace, List.foldl_append, List.foldl_cons, List.foldl_nil] at hc hr ha ⊢
    refine ⟨by simpa only [hreq, AbortTrace.next] using hc, ?_,
      by simpa only [hreq, hab, AbortTrace.next] using ha⟩
    simp only [AbortTrace.next, hr, hlk, hcev]
    cases o with
    | none =>
        rw [ha (List.mem_of_getElem? hk)]
        simp
    | some e => simp

/-! ### The steps of an execution -/

theorem plain_update {ev : TwEvent T → EventState T M} {e x : TwEvent T} {st : EventState T M}
    (hst : Plain (ev e) → Plain st) (hx : Plain (ev x)) : Plain (Function.update ev e st x) := by
  by_cases h : x = e
  · subst h
    rw [Function.update_self]
    exact hst hx
  · rw [Function.update_of_ne h]
    exact hx

theorem plain_prepare {i : Nat} {e x : TwEvent T} {msg : M} (hx : Plain (s.ev x)) :
    Plain ((s.prepare i e msg).ev x) := by
  have hreg : Plain (Function.update s.ev (s.stamp e)
      ⟨.unowned, false, false, false, 0, msg, 0, []⟩ x) := plain_update (fun _ => ⟨rfl, rfl⟩) hx
  unfold prepare linkCausality register setEv takeHandle
  cases s.curEvent with
  | some cev => exact plain_update (fun h => h) hreg
  | none => exact hreg

theorem plain_stamp {i : Nat} {e : TwEvent T} {msg : M} :
    Plain ((s.prepare i e msg).ev (s.stamp e)) := by
  have hreg : Plain (Function.update s.ev (s.stamp e)
      ⟨.unowned, false, false, false, 0, msg, 0, []⟩ (s.stamp e)) := by
    rw [Function.update_self]
    exact ⟨rfl, rfl⟩
  unfold prepare linkCausality register setEv takeHandle
  cases s.curEvent with
  | some cev => exact plain_update (fun h => h) hreg
  | none => exact hreg

/-- A finished send of the network loop. -/
theorem sendFinish_delivered {e : TwEvent T} (hs : s.sendFinish m e = .ok s') {x : TwEvent T}
    (hx : Delivered m s x) : Delivered m s' x := by
  rcases sendFinish_ok hs with ⟨-, ha, rfl⟩ | ⟨-, -, -, rfl⟩ | ⟨-, -, -, rfl⟩ | ⟨-, rfl⟩
  · refine hx.mono (fun _ h => h) (fun _ h => h) (fun y hy hp => .inl ⟨?_, ?_⟩) fun _ h => h
    · exact List.mem_append_left _ hy
    · refine plain_update (fun hpe => ?_) hp
      rw [hpe.2] at ha
      cases ha
  all_goals
    exact hx.mono (fun _ h => h) (fun _ h => h)
      (fun y hy hp => .inl ⟨hy, plain_update (fun h => h) hp⟩) fun _ h => h

/-- A turn of `send_begin`: the event taken off `outq` is on the wire. -/
theorem sendBegin_delivered (read changed : Bool) {x : TwEvent T}
    (hx : Delivered m s x) : Delivered m (s.sendBegin m read changed) x := by
  rcases sendBegin_ok (m := m) s read changed with ⟨e, -, -, hs⟩ | ⟨-, hs⟩ <;> rw [hs]
  · refine hx.mono (fun _ h => h) (fun _ h => h) (fun y hy hp => ?_)
      fun w hw => List.mem_append_left _ hw
    by_cases hye : y = e
    · subst hye
      refine .inr ⟨(s.ev y).msg, List.mem_append_right _ (List.mem_singleton.mpr ?_)⟩
      rw [hp.1]
    · exact .inl ⟨(List.mem_erase_of_ne hye).mpr hy, plain_update (fun h => h) hp⟩
  · exact hx.same rfl (fun _ h => h) rfl

/-- The delivery of a stamped event keeps the events delivered before it. -/
theorem deliver_delivered (e : TwEvent T) {x : TwEvent T} (hx : Delivered m s x) :
    Delivered m (s.deliver m e) x := by
  rcases deliver_cases m s e with ⟨-, -, hd⟩ | ⟨-, -, hd⟩ | ⟨-, hd⟩ <;> rw [hd]
  · exact hx.mono (fun _ h => List.mem_cons_of_mem _ h) (fun _ h => h)
      (fun y hy hp => .inl ⟨hy, plain_update (fun h => h) hp⟩) fun _ h => h
  · exact hx.mono (fun _ h => h) (fun _ h => List.mem_append_left _ h)
      (fun y hy hp => .inl ⟨hy, plain_update (fun h => h) hp⟩) fun _ h => h
  · exact hx.mono (fun _ h => h) (fun _ h => h)
      (fun y hy hp => .inl ⟨List.mem_cons_of_mem _ hy, plain_update (fun h => h) hp⟩) fun _ h => h

/-- The event that `tw_event_send` delivers. -/
theorem deliver_self (e : TwEvent T) (hp : Plain (s.ev e)) :
    Delivered m (s.deliver m e) e := by
  rcases deliver_cases m s e with ⟨-, -, hd⟩ | ⟨-, -, hd⟩ | ⟨-, hd⟩ <;> rw [hd] <;>
    refine ⟨e, rfl, ?_⟩
  · exact .inl List.mem_cons_self
  · exact .inr (.inl (List.mem_append_right _ (List.mem_singleton_self e)))
  · exact .inr (.inr (.inl ⟨List.mem_cons_self, plain_update (fun h => h) hp⟩))

omit [TwStime T] in
theorem of_stamp {e : TwEvent T} {t : Pe T S M R} (h : Delivered m s (t.stamp e)) :
    Delivered m s e := by
  obtain ⟨x, hx, hmem⟩ := h
  exact ⟨x, hx, hmem⟩

/-- The send of a buffer. -/
theorem sendBuffer (h : HandlerInv m s₀ kind left lp done rest s) {k : Nat}
    {e : TwEvent T} {msg : M} {rest' : List (HandlerOp T M)}
    (hphase : s.phase = .handler kind left lp rest') (hk : s.handles[k]? = some (.buffer e msg)) :
    HandlerInv m s₀ kind left lp (done ++ [.eventSend k]) rest'
      ((s.prepare k e msg).deliver m (s.stamp e)) := by
  have hreq : s.requested[k]? = some (some e) := by
    simp only [requested, List.getElem?_map, hk]
    rfl
  have hd : ∀ x, Delivered m s x → Delivered m ((s.prepare k e msg).deliver m (s.stamp e)) x := by
    intro x hx
    have hx : Delivered m (s.prepare k e msg) x := hx.same rfl (fun _ h => plain_prepare h) rfl
    exact deliver_delivered _ hx
  have hnew : Delivered m ((s.prepare k e msg).deliver m (s.stamp e)) e := by
    exact of_stamp (deliver_self _ plain_stamp)
  rcases deliver_cases m (s.prepare k e msg) (s.stamp e) with
    ⟨-, -, heq⟩ | ⟨-, -, heq⟩ | ⟨-, heq⟩ <;> rw [heq] at hd hnew ⊢
  · exact h.send hphase h.rollback h.net rfl rfl hreq rfl rfl rfl (by simp [prepare]; rfl) hd
      fun x hx => Option.some.inj hx ▸ hnew
  · exact h.send hphase h.rollback h.net rfl rfl hreq rfl rfl rfl (by simp; rfl) hd
      fun x hx => Option.some.inj hx ▸ hnew
  · exact h.send hphase h.rollback (.inr (.inl ⟨false, rfl⟩)) rfl rfl hreq rfl rfl rfl
      (by simp; rfl) hd fun x hx => Option.some.inj hx ▸ hnew

/-- One call of the handler. -/
theorem handlerOp {op : HandlerOp T M} (h : HandlerInv m s₀ kind left lp done (op :: rest) s)
    (hs : { s with phase := .handler kind left lp rest }.handlerOp m lp op = .ok s') :
    HandlerInv m s₀ kind left lp (done ++ [op]) rest s' := by
  have hplain : ∀ {e : TwEvent T}, Delivered m s e →
      Delivered m { s with phase := .handler kind left lp rest } e := fun hx =>
    hx.same rfl (fun _ h => h) rfl
  cases op with
  | eventNew destGid offsetTs prio msg =>
      have hnow : twNow m { s with phase := .handler kind left lp rest } lp = s₀.twNow m lp := h.now
      obtain ⟨-, ⟨-, rfl⟩ | ⟨hend, -, rfl⟩⟩ := twEventNewUserPrio_ok hs
      · refine h.create (o := none) rfl h.rollback rfl rfl rfl (by simp [requested, Handle.event])
          (fun i e hi => ?_) le_rfl rfl (fun e he => he.same rfl (fun _ h => h) rfl)
          (fun e he => ?_)
          fun _ => congrArg (· + offsetTs) hnow
        · rw [List.getElem?_append] at hi
          split at hi
          · exact hi
          · rw [List.getElem?_singleton] at hi
            split at hi <;> cases hi
        · cases he
      · refine h.create (o := some _) rfl h.rollback rfl rfl rfl
          (by simp [requested, Handle.event]; rfl) (fun i e hi => ?_) (Nat.le_succ _) rfl
          (fun e he => he.same rfl (fun _ h => h) rfl) (fun e he => ?_) fun he => ?_
        · rw [List.getElem?_append] at hi
          split at hi
          · exact hi
          · rw [List.getElem?_singleton] at hi
            split at hi <;> cases hi
        · cases he
          exact ⟨rfl, rfl, Nat.lt_succ_self _, hnow ▸ hend, congrArg (· + offsetTs) hnow, rfl⟩
        · cases he
  | eventSend k =>
      rcases twEventSend_ok hs with ⟨hk, rfl⟩ | ⟨e, msg, hk, -, rfl⟩
      · have hk : s.requested[k]? = some none := by
          simp only [requested, List.getElem?_map]
          rw [hk]
          rfl
        refine h.send (o := none) rfl h.rollback h.net rfl rfl hk rfl rfl rfl ?_ (fun e he => ?_)
          fun e he => by cases he
        · dsimp only
          by_cases hlt : s.abortEvent.sig.recvTs < m.tsEnd <;> simp [hlt]
        · refine he.same rfl (fun x hx => ?_) rfl
          dsimp only
          cases s.curEvent with
          | some cev => exact plain_update (fun h => h) hx
          | none => exact hx
      · have h' : HandlerInv m s₀ kind left lp done rest
            { s with phase := .handler kind left lp rest } :=
          h.same rfl h.rollback h.net rfl rfl rfl rfl rfl rfl (fun _ hx => hplain hx) rfl
            fun _ => rfl
        exact h'.sendBuffer rfl hk
  | lpSuspend doOrigEventRc =>
      cases hs
      exact h.same rfl h.rollback h.net rfl rfl rfl rfl rfl rfl
        (fun e he => he.same rfl (fun _ h => h) rfl) (by simp [requests])
        fun lost => by simp [abortTrace, AbortTrace.next]
  | triggerGvtHookNow =>
      have hsame : s'.queue = s.queue ∧ s'.ev = s.ev ∧ s'.wire = s.wire ∧
          s'.phase = .handler kind left lp rest ∧ s'.rollback = s.rollback ∧ s'.net = s.net ∧
          s'.curEvent = s.curEvent ∧ s'.lastSig = s.lastSig ∧ s'.handles = s.handles ∧
          s'.nextUid = s.nextUid ∧ s'.abortEvent = s.abortEvent ∧ s'.cevAbort = s.cevAbort := by
        rcases twTriggerGvtHookNow_ok hs with rfl | ⟨-, rfl⟩ <;>
          exact ⟨rfl, rfl, rfl, rfl, rfl, rfl, rfl, rfl, rfl, rfl, rfl, rfl⟩
      obtain ⟨hq, hev, hw, hp, hr, hn, hc, hl, hh, hu, hab, hcev⟩ := hsame
      exact h.same hp (hr.trans h.rollback) (hn ▸ h.net) hc hl hh hu hab hcev
        (fun e he => he.same hq (fun _ h => hev ▸ h) hw) (by simp [requests])
        fun lost => by simp [abortTrace, AbortTrace.next]

/-- A step before the handler returns. -/
theorem step (h : HandlerInv m s₀ kind left lp done rest s) {i : Input T M}
    (hne : ¬ s.At (.handler kind left lp [])) (hs : s.step m i = .ok s') :
    ∃ done' rest', done' ++ rest' = done ++ rest ∧
      HandlerInv m s₀ kind left lp done' rest' s' := by
  have hturn := step_turn hs
  clear hs
  have off : ∀ {p : Phase T M}, s.At p → p = .handler kind left lp rest := fun hat =>
    hat.2.2.symm.trans h.phase
  cases hturn with
  | recv hn | testRecvs hn | recvBegin hn =>
      rcases h.net with h' | ⟨c, h'⟩ | ⟨c, h'⟩ <;> cases hn.symm.trans h'
  | @sent read changed e hn he hs =>
      have hread : read = false := by
        rcases h.net with h' | ⟨c, h'⟩ | ⟨c, h'⟩ <;> cases hn.symm.trans h'
        rfl
      subst hread
      refine ⟨done, rest, rfl, ?_⟩
      have hd : ∀ x, Delivered m s x → Delivered m s' x := fun x hx =>
        sendFinish_delivered (s := { s with net := .testSends false true }) hs
          (hx.same rfl (fun _ h => h) rfl)
      rcases sendFinish_ok hs with ⟨-, -, rfl⟩ | ⟨-, -, -, rfl⟩ | ⟨-, -, -, rfl⟩ | ⟨-, rfl⟩ <;>
        exact h.same h.phase h.rollback (.inr (.inl ⟨true, rfl⟩)) rfl rfl rfl rfl rfl rfl hd rfl
          fun _ => rfl
  | @testSends read changed expired hn hs =>
      have hread : read = false := by
        rcases h.net with h' | ⟨c, h'⟩ | ⟨c, h'⟩ <;> cases hn.symm.trans h'
        rfl
      subst hread
      subst hs
      exact ⟨done, rest, rfl, h.same h.phase h.rollback (.inr (.inr ⟨changed, rfl⟩)) rfl rfl rfl
        rfl rfl rfl (fun e he => he.same rfl (fun _ h => h) rfl) rfl fun _ => rfl⟩
  | @sendBegin read changed expired hn hs =>
      have hread : read = false := by
        rcases h.net with h' | ⟨c, h'⟩ | ⟨c, h'⟩ <;> cases hn.symm.trans h'
        rfl
      subst hread
      subst hs
      refine ⟨done, rest, rfl, ?_⟩
      have hd : ∀ x, Delivered m s x → Delivered m (s.sendBegin m false changed) x :=
        fun x hx => sendBegin_delivered _ _ hx
      rcases sendBegin_ok (m := m) s false changed with ⟨e, -, -, heq⟩ | ⟨-, heq⟩ <;>
        rw [heq] at hd ⊢
      · exact h.same h.phase h.rollback (.inr (.inr ⟨true, rfl⟩)) rfl rfl rfl rfl rfl rfl hd rfl
          fun _ => rfl
      · refine h.same h.phase h.rollback ?_ rfl rfl rfl rfl rfl rfl hd rfl fun _ => rfl
        cases changed with
        | true => exact .inr (.inl ⟨false, rfl⟩)
        | false => exact .inl rfl
  | rollback _ hr => cases hr.symm.trans h.rollback
  | @handlerOp kind' left' lp' op ops expired hat hs =>
      cases off hat
      exact ⟨done ++ [op], ops, by simp, h.handlerOp hs⟩
  | handlerReturn hat =>
      cases off hat
      exact absurd hat hne
  | call hat | outerCall hat | eventQ hat | eventQRollback hat | cancelQ hat
  | cancelQRollback hat | rollbackToSig hat | rollbackToSigDone hat | batch hat | initOp hat
  | initReturn hat | whiteLoop hat | reduce hat | reduced hat | gvtStore hat | fossil hat
  | hook hat => cases off hat

end HandlerInv

/-- The states of one execution of a handler called by a batch in the state
`s₀`, up to its return. -/
def HandlerRun (m : SimModel T S M R) (s₀ : Pe T S M R) : Pe T S M R → Prop :=
  ReachableVia (· = s₀) (fun a i b => a.step m i = .ok b)
    fun a _ => ∀ kind left lp, ¬ a.At (.handler kind left lp [])

theorem handlerInv_of_run {m : SimModel T S M R} {s₀ s : Pe T S M R} {kind : BatchKind}
    {left lp : Nat} {ops : List (HandlerOp T M)} (hat : s₀.At (.handler kind left lp ops))
    (hh : s₀.handles = []) (ha : s₀.cevAbort = false) (hs : HandlerRun m s₀ s) :
    ∃ done rest, done ++ rest = ops ∧ HandlerInv m s₀ kind left lp done rest s := by
  refine hs.invariant (P := fun s => ∃ done rest, done ++ rest = ops ∧
    HandlerInv m s₀ kind left lp done rest s) (fun s h => ?_) fun s i s' h hne hst => ?_
  · subst h
    exact ⟨[], ops, rfl, HandlerInv.start hat hh ha⟩
  · obtain ⟨done, rest, heq, h⟩ := h
    obtain ⟨done', rest', heq', h'⟩ := h.step (hne kind left lp) hst
    exact ⟨done', rest', heq'.trans heq, h'⟩

/-- The `i`-th event that the calls `ops` request at the time `now` is before the
end, and got no buffer. -/
def LostInEnd (m : SimModel T S M R) (s : Pe T S M R) (now : T)
    (ops : List (HandlerOp T M)) (i : Nat) : Prop :=
  ∃ r, (requests now ops)[i]? = some r ∧ r.1 < m.tsEnd ∧ s.requested[i]? = some none

/-- Buffer exhaustion is flagged, and without it every event requested before the
end is delivered, with a buffer of its own. -/
def ExhaustionFlagged (m : SimModel T S M R) (s : Pe T S M R) (now : T)
    (ops : List (HandlerOp T M)) : Prop :=
  ((∃ i, LostInEnd m s now ops i) → s.cevAbort = true) ∧
    ((¬ ∃ i, LostInEnd m s now ops i) → ∀ (i : Nat) (r : T × Nat),
      (requests now ops)[i]? = some r → r.1 < m.tsEnd →
      ∃ e, s.requested[i]? = some (some e) ∧ e.sig.recvTs = r.1 ∧ e.destLp = r.2 ∧
        Delivered m s e ∧ ∀ (j : Nat) (e' : TwEvent T), s.requested[j]? = some (some e') →
          e'.uid = e.uid → j = i)

/-! ## The rollback of a flagged event -/

/-- While an event is rolled back a step goes on with it or ends it. -/
theorem step_of_rollback {m : SimModel T S M R} {s s' : Pe T S M R} {i : Input T M}
    {r : Rollback T} (hr : s.rollback = some r) (hs : s.step m i = .ok s') :
    (∃ r', s'.rollback = some r' ∧ r'.event = r.event ∧ r'.after = r.after) ∨
      s' = (s.rollbackEnd m r.event).afterRollback m r.event r.after := by
  have keep : s'.rollback = s.rollback →
      (∃ r', s'.rollback = some r' ∧ r'.event = r.event ∧ r'.after = r.after) ∨
        s' = (s.rollbackEnd m r.event).afterRollback m r.event r.after :=
    fun h => .inl ⟨r, h.trans hr, rfl, rfl⟩
  cases step_turn hs with
  | recv _ _ hrecv =>
      obtain ⟨-, ⟨-, c, -, rfl⟩ | ⟨-, -, ⟨-, -, rfl⟩ | ⟨-, rfl⟩⟩⟩ := recvFinish_ok hrecv <;>
        exact keep rfl
  | testRecvs _ heq =>
      subst heq
      exact keep rfl
  | sent _ _ hsent =>
      rcases sendFinish_ok hsent with ⟨-, -, rfl⟩ | ⟨-, -, -, rfl⟩ | ⟨-, -, -, rfl⟩ | ⟨-, rfl⟩ <;>
        exact keep rfl
  | testSends _ heq =>
      subst heq
      exact keep rfl
  | recvBegin _ hbegin =>
      rcases recvBegin_ok hbegin with rfl | ⟨-, -, rfl⟩ <;> exact keep rfl
  | sendBegin _ heq =>
      subst heq
      rcases sendBegin_ok (m := m) s _ _ with ⟨e, -, -, heq⟩ | ⟨-, heq⟩ <;>
        rw [heq] at keep ⊢ <;> exact keep rfl
  | @rollback r' _ _ hr' hstep =>
      cases hr.symm.trans hr'
      unfold rollbackStep at hstep
      split at hstep
      next e rest _ =>
        obtain ⟨l, sig, q, qc, ev, n, freed, t, -, -, -, rfl⟩ := rollbackChild_frame hstep
        exact .inl ⟨_, rfl, rfl, rfl⟩
      next =>
        cases hstep
        exact .inr rfl
  | call hat | outerCall hat | eventQ hat | eventQRollback hat | cancelQ hat
  | cancelQRollback hat | rollbackToSig hat | rollbackToSigDone hat | batch hat | handlerOp hat
  | handlerReturn hat | initOp hat | initReturn hat | whiteLoop hat | reduce hat | reduced hat
  | gvtStore hat | fossil hat | hook hat => cases hr.symm.trans hat.2.1

/-- The states from `s₀` until the rollback that goes on there has ended. -/
def RollbackRun (m : SimModel T S M R) (s₀ : Pe T S M R) : Pe T S M R → Prop :=
  ReachableVia (· = s₀) (fun a i b => a.step m i = .ok b) fun a _ => a.rollback ≠ none

/-- The abort branch of the batch puts the event back into the priority queue. -/
theorem requeued_of_run {m : SimModel T S M R} {s₀ s : Pe T S M R} {kind : BatchKind}
    {cev : TwEvent T}
    (hr : ∃ r, s₀.rollback = some r ∧ r.event = cev ∧ r.after = .abort kind)
    (hs : RollbackRun m s₀ s) :
    (∃ r, s.rollback = some r ∧ r.event = cev ∧ r.after = .abort kind) ∨
      (s.rollback = none ∧ cev ∈ s.queue .pq) := by
  refine hs.invariant (P := fun s =>
    (∃ r, s.rollback = some r ∧ r.event = cev ∧ r.after = .abort kind) ∨
      (s.rollback = none ∧ cev ∈ s.queue .pq)) (fun s h => ?_) fun s i s' h hgoes hst => ?_
  · subst h
    exact .inl hr
  · rcases h with ⟨r, hnow, hcev, hafter⟩ | ⟨hend, -⟩
    · rcases step_of_rollback hnow hst with ⟨r', hr', hev, haft⟩ | rfl
      · exact .inl ⟨r', hr', hev.trans hcev, haft.trans hafter⟩
      · right
        rw [hcev, hafter, afterRollback_eq]
        refine ⟨rfl, ?_⟩
        show cev ∈ Pool.cons (Pool.remove (s.rollbackEnd m cev).queue .hand cev) .pq cev .pq
        rw [Pool.cons_self]
        exact List.mem_cons_self
    · exact absurd hend hgoes

/-- An execution that sends all it creates flags the loss of an event exactly
when none is lost, or some send of the abort event came while the creation that
got it last was before the end; and a flagged event is undone, and back in the
priority queue when its rollback ends. -/
theorem exhaustion_flagged_iff {m : SimModel T S M R} {s₀ s : Pe T S M R} {kind : BatchKind}
    {left lp : Nat} {ops : List (HandlerOp T M)} {cev : TwEvent T}
    (hat : s₀.At (.handler kind left lp ops)) (hh : s₀.handles = []) (ha : s₀.cevAbort = false)
    (hcur : s₀.curEvent = some cev) (hs : HandlerRun m s₀ s)
    (hret : s.At (.handler kind left lp [])) (hsent : ∀ h ∈ s.handles, ∃ o, h = .sent o) :
    (ExhaustionFlagged m s (s₀.twNow m lp) ops ↔
      (¬ ∃ i, LostInEnd m s (s₀.twNow m lp) ops i) ∨
        (abortTrace m.tsEnd (s₀.twNow m lp) (fun i => s.requested[i]? = some none)
          ops).raised = true) ∧
      (kind ≠ .conservative → s.cevAbort = true → ∀ expired s', s.step m (.tau expired) = .ok s' →
        (∃ r, s'.rollback = some r ∧ r.event = cev ∧ r.after = .abort kind) ∧
        ∀ t, RollbackRun m s' t → t.rollback = none → cev ∈ t.queue .pq) := by
  obtain ⟨done, rest, heq, h⟩ := handlerInv_of_run hat hh ha hs
  have hrest : rest = [] := by
    have := h.phase.symm.trans hret.2.2
    injection this
  subst hrest
  rw [List.append_nil] at heq
  subst heq
  constructor
  · have htrace := (h.trace (fun i => s.requested[i]? = some none) fun i o ho => by
      cases o <;> simp [ho]).2.1
    rw [htrace]
    constructor
    · intro hf
      by_cases hl : ∃ i, LostInEnd m s (s₀.twNow m lp) done i
      · exact .inr (hf.1 hl)
      · exact .inl hl
    · intro hc
      refine ⟨fun hl => hc.resolve_left fun hn => hn hl, fun hn i r hi hend => ?_⟩
      have hlt : i < s.requested.length := by
        rw [h.length]
        exact (List.getElem?_eq_some_iff.mp hi).1
      obtain ⟨o, ho⟩ : ∃ o, s.requested[i]? = some o := ⟨_, List.getElem?_eq_getElem hlt⟩
      cases o with
      | none => exact absurd ⟨i, r, hi, hend, ho⟩ hn
      | some e =>
          obtain ⟨-, hts, hdest⟩ := h.request i r e hi ho
          refine ⟨e, ho, hts, hdest, ?_, fun j e' hj hu => h.distinct j i e' e hj ho hu⟩
          simp only [requested, List.getElem?_map, Option.map_eq_some_iff] at ho
          obtain ⟨p, hp, hpe⟩ := ho
          obtain ⟨o, rfl⟩ := hsent p (List.mem_of_getElem? hp)
          obtain rfl : o = some e := hpe
          exact h.delivered i e hp
  · intro hk habort expired s' hst
    have hcur' : s.curEvent = some cev := h.curEvent.trans hcur
    unfold Pe.step at hst
    simp only [hret.1, hret.2.1, hret.2.2, phaseStep, handlerStep, hcur', handlerReturn, if_neg hk,
      habort, if_true, Except.ok.injEq] at hst
    subst hst
    refine ⟨⟨_, rfl, rfl, rfl⟩, fun t ht hend => ?_⟩
    rcases requeued_of_run ⟨_, rfl, rfl, rfl⟩ ht with ⟨r, hr, -, -⟩ | ⟨-, hmem⟩
    · rw [hend] at hr
      cases hr
    · exact hmem

/-! ## Two executions -/

/-- The batch is about to run the handler's calls. -/
def startsHandler (s : Pe T S M R) : Bool :=
  decide (s.net = .off) && s.rollback.isNone && s.handles.isEmpty && !s.cevAbort

/-- The handler is about to return. -/
def endsHandler (s : Pe T S M R) : Bool :=
  decide (s.net = .off) && s.rollback.isNone &&
  match s.phase with
    | .handler _ _ _ [] => true
    | _ => false

/-- All pointers are sent. -/
def allSent (s : Pe T S M R) : Bool :=
  s.handles.all fun
    | .sent _ => true
    | _ => false

omit [TwStime T] in
theorem endsHandler_of_at {s : Pe T S M R} {kind : BatchKind} {left lp : Nat}
    (h : s.At (.handler kind left lp [])) : s.endsHandler = true := by
  simp [endsHandler, h.1, h.2.1, h.2.2]

/-- An execution found by running a PE for `n` steps up to a handler and for `k`
more up to its return. -/
theorem exists_execution (m : SimModel Int Nat Nat Nat) (n k : Nat)
    (test : Pe Int Nat Nat Nat → List (HandlerOp Int Nat) → Pe Int Nat Nat Nat → Bool)
    (h : (runList (checked (fun a i => a.step m i) fun _ _ => true) (Pe.start m 0 (program m 0))
      (List.replicate n (.tau false))).toOption.any (fun a =>
        match a.phase, a.curEvent with
        | .handler _ _ _ ops, some _ => a.startsHandler &&
            (runList (checked (fun a i => a.step m i) fun a _ => !a.endsHandler) a
              (List.replicate k (.tau false))).toOption.any
                fun b => b.endsHandler && b.allSent && test a ops b
        | _, _ => false) = true) :
    ∃ s₀ s kind left lp ops cev,
      Reachable (· = Pe.start m 0 (program m 0)) (fun a i b => a.step m i = .ok b) s₀ ∧
      s₀.At (.handler kind left lp ops) ∧ s₀.handles = [] ∧ s₀.cevAbort = false ∧
      s₀.curEvent = some cev ∧ HandlerRun m s₀ s ∧ s.At (.handler kind left lp []) ∧
      (∀ p ∈ s.handles, ∃ o, p = .sent o) ∧ test s₀ ops s = true := by
  have hstart : Reachable (· = Pe.start m 0 (program m 0)) (fun a i b => a.step m i = .ok b)
      (Pe.start m 0 (program m 0)) := .start rfl
  obtain ⟨s₀, hs₀, ht⟩ := Reachable.exists_of_runList _ _ hstart h
  split at ht
  next kind left lp ops cev hp hc =>
    rw [Bool.and_eq_true] at ht
    obtain ⟨hst, ht⟩ := ht
    simp only [startsHandler, Bool.and_eq_true, decide_eq_true_eq, Option.isNone_iff_eq_none,
      List.isEmpty_iff, Bool.not_eq_true'] at hst
    obtain ⟨⟨⟨hn, hr⟩, hh⟩, ha⟩ := hst
    have hrun : ∃ s, HandlerRun m s₀ s ∧
        (s.endsHandler && s.allSent && test s₀ ops s) = true := by
      refine ReachableVia.exists_of_runList _ _ _ (fun a _ hchk kind left lp hat => ?_)
        (.start rfl) ht
      rw [endsHandler_of_at hat] at hchk
      cases hchk
    obtain ⟨s, hs, ht⟩ := hrun
    rw [Bool.and_eq_true, Bool.and_eq_true] at ht
    obtain ⟨⟨he, hall⟩, ht⟩ := ht
    have hat : s₀.At (.handler kind left lp ops) := ⟨hn, hr, hp⟩
    obtain ⟨done, rest, -, hinv⟩ := handlerInv_of_run hat hh ha hs
    simp only [endsHandler, hinv.phase, Bool.and_eq_true, decide_eq_true_eq,
      Option.isNone_iff_eq_none] at he
    obtain ⟨⟨hn', hr'⟩, hrest⟩ := he
    have hnil : rest = [] := by
      cases rest with
      | nil => rfl
      | cons op ops => cases hrest
    subst hnil
    refine ⟨s₀, s, kind, left, lp, ops, cev, hs₀, hat, hh, ha, hc, hs, ⟨hn', hr', hinv.phase⟩,
      fun p hp => ?_, ht⟩
    have hpall := List.all_eq_true.mp hall p hp
    cases p with
    | sent o => exact ⟨o, rfl⟩
    | buffer e msg => cases hpall
    | abort => cases hpall
  · cases ht

/-- An LP that, on six buffers, first sends itself one event, and from its
handler the events `ops`. -/
def scarceModel (ops : List (HandlerOp Int Nat)) : SimModel Int Nat Nat Nat :=
  { quietModel with
    freeBuffers := 6
    init := fun lp st => (st, if lp = 0 then [.eventNew 0 1 1 1, .eventSend 0] else [])
    event := fun _ _ st cv msg => ⟨st, cv, msg, if msg = 1 then ops else []⟩ }

/-- Six events before the end of time, all created before the first is sent. -/
def sixEvents : List (HandlerOp Int Nat) :=
  List.replicate 6 (.eventNew 0 1 1 0) ++ (List.range 6).map .eventSend

theorem exhaustion_flagged_six :
    ∃ s₀ s kind left lp ops, (requests (s₀.twNow (scarceModel sixEvents) lp) ops).length = 6 ∧
      HandlerRun (scarceModel sixEvents) s₀ s ∧ s.At (.handler kind left lp []) ∧
      ExhaustionFlagged (scarceModel sixEvents) s (s₀.twNow (scarceModel sixEvents) lp) ops := by
  obtain ⟨s₀, s, kind, left, lp, ops, cev, -, hat, hh, ha, hc, hs, hret, hsent, ht⟩ :=
    exists_execution (scarceModel sixEvents) 32 12
      (fun a ops b => decide ((requests (a.twNow (scarceModel sixEvents) 0) ops).length = 6 ∧
        (abortTrace 100 (a.twNow (scarceModel sixEvents) 0)
          (fun i => decide (b.requested[i]? = some none)) ops).raised = true))
      (by decide +kernel)
  obtain ⟨hlen, hraised⟩ := of_decide_eq_true ht
  exact ⟨s₀, s, kind, left, lp, ops, hlen, hs, hret,
    (exhaustion_flagged_iff hat hh ha hc hs hret hsent).1.mpr (.inr hraised)⟩

/-- The six events, and then one past the end of time. -/
def sixEventsAndPastEnd : List (HandlerOp Int Nat) :=
  List.replicate 6 (.eventNew 0 1 1 0) ++ [.eventNew 0 200 1 0] ++ (List.range 7).map .eventSend

/-- The creation past the end of time overwrites the timestamp of the abort
event, and the loss of an event created before it goes unnoticed. -/
theorem exhaustion_not_flagged :
    ∃ s₀ s kind left lp ops,
      Reachable (· = Pe.start (scarceModel sixEventsAndPastEnd) 0
          (program (scarceModel sixEventsAndPastEnd) 0))
        (fun a i b => a.step (scarceModel sixEventsAndPastEnd) i = .ok b) s₀ ∧
      s₀.At (.handler kind left lp ops) ∧ s₀.handles = [] ∧ s₀.cevAbort = false ∧
      HandlerRun (scarceModel sixEventsAndPastEnd) s₀ s ∧ s.At (.handler kind left lp []) ∧
      (∀ p ∈ s.handles, ∃ o, p = .sent o) ∧
      ¬ ExhaustionFlagged (scarceModel sixEventsAndPastEnd) s
        (s₀.twNow (scarceModel sixEventsAndPastEnd) lp) ops := by
  obtain ⟨s₀, s, kind, left, lp, ops, cev, hr, hat, hh, ha, -, hs, hret, hsent, ht⟩ :=
    exists_execution (scarceModel sixEventsAndPastEnd) 32 14
      (fun a ops b => decide ((requests (a.twNow (scarceModel sixEventsAndPastEnd) 0) ops)[5]? =
        some (2, 0) ∧ b.requested[5]? = some none ∧ b.cevAbort = false))
      (by decide +kernel)
  obtain ⟨hreq, hlost, hflag⟩ := of_decide_eq_true ht
  refine ⟨s₀, s, kind, left, lp, ops, hr, hat, hh, ha, hs, hret, hsent, fun hf => ?_⟩
  have hlost' : LostInEnd (scarceModel sixEventsAndPastEnd) s
      (s₀.twNow (scarceModel sixEventsAndPastEnd) lp) ops 5 := ⟨(2, 0), hreq, by decide, hlost⟩
  rw [hf.1 ⟨5, hlost'⟩] at hflag
  cases hflag

end Pe

end Ross

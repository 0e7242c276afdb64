import Ross.Core.Event
import Mathlib.Data.List.DropRight

/-!
# Rollback of a KP and fossil collection

The loops of `tw_kp_rollback_to_sig` and `tw_kp_rollback_event`, one turn a
step, and `tw_pe_fossil_collect`.
-/

namespace Ross

variable {T S M R : Type} [TwStime T]

/-- The cut of `tw_eventq_fossil_collect`: what stays in the queue and what is
collected, both head first. -/
def fossilCut (gvt : TwEventSig T) (q : List (TwEvent T)) : List (TwEvent T) × List (TwEvent T) :=
  match q.getLast?, q.head? with
  | some t, some h =>
      if 0 ≤ twEventSigComparePtr t.sig gvt then (q, [])
      else if twEventSigComparePtr h.sig gvt < 0 then ([], q)
      else (q.rdropWhile fun e => decide (twEventSigComparePtr e.sig gvt < 0),
        q.rtakeWhile fun e => decide (twEventSigComparePtr e.sig gvt < 0))
  | _, _ => (q, [])

theorem fossilCut_append (gvt : TwEventSig T) (q : List (TwEvent T)) :
    (fossilCut gvt q).1 ++ (fossilCut gvt q).2 = q := by
  unfold fossilCut
  split
  · split
    · exact List.append_nil q
    · split
      · rfl
      · exact List.rdropWhile_append_rtakeWhile
  · exact List.append_nil q

/-- The events collected are under GVT. -/
theorem fossilCut_lt {gvt : TwEventSig T} {q : List (TwEvent T)}
    (hq : q.Pairwise fun x y => y.sig ≤ x.sig) : ∀ e ∈ (fossilCut gvt q).2, e.sig < gvt := by
  intro e he
  unfold fossilCut at he
  split at he
  next t hd _ hhead =>
    split at he
    · cases he
    · split at he
      next hlt =>
        obtain ⟨rest, rfl⟩ := List.head?_eq_some_iff.mp hhead
        have hlt : hd.sig < gvt := twEventSigComparePtr_neg.mp hlt
        rcases List.mem_cons.mp he with rfl | he
        · exact hlt
        · exact ((List.pairwise_cons.mp hq).1 e he).trans_lt hlt
      · have hlt := List.mem_rtakeWhile_imp he
        exact twEventSigComparePtr_neg.mp (of_decide_eq_true hlt)
  · cases he

/-- The events that stay are not under GVT. -/
theorem fossilCut_le {gvt : TwEventSig T} {q : List (TwEvent T)}
    (hq : q.Pairwise fun x y => y.sig ≤ x.sig) : ∀ e ∈ (fossilCut gvt q).1, gvt ≤ e.sig := by
  -- The event that stays last is not under GVT, and none before it is under that one.
  have below : ∀ {l : List (TwEvent T)} {t : TwEvent T},
      l.Pairwise (fun x y => y.sig ≤ x.sig) → l.getLast? = some t → gvt ≤ t.sig →
        ∀ e ∈ l, gvt ≤ e.sig := by
    intro l t hl ht hle e he
    obtain ⟨front, rfl⟩ := List.getLast?_eq_some_iff.mp ht
    rcases List.mem_append.mp he with he | he
    · exact hle.trans ((List.pairwise_append.mp hl).2.2 e he t (List.mem_singleton_self t))
    · exact List.mem_singleton.mp he ▸ hle
  intro e he
  unfold fossilCut at he
  split at he
  next t hd hlast _ =>
    split at he
    next hle => exact below hq hlast (twEventSigComparePtr_nonneg.mp hle) e he
    · split at he
      · cases he
      · have hne : q.rdropWhile (fun e => decide (twEventSigComparePtr e.sig gvt < 0)) ≠ [] :=
          List.ne_nil_of_mem he
        have hstop := List.rdropWhile_last_not _ _ hne
        rw [decide_eq_true_eq, twEventSigComparePtr_neg, not_lt] at hstop
        exact below (hq.sublist (List.rdropWhile_prefix _ _).sublist)
          (List.getLast?_eq_getLast_of_ne_nil hne) hstop e he
  next hnone =>
    cases q with
    | nil => cases he
    | cons x q =>
        have hlast := List.getLast?_eq_getLast_of_ne_nil (List.cons_ne_nil x q)
        exact (hnone _ _ hlast rfl).elim

/-- In a sorted queue the cut parts the events at GVT. -/
theorem fossilCut_eq_filter {gvt : TwEventSig T} {q : List (TwEvent T)}
    (hq : q.Pairwise fun x y => y.sig ≤ x.sig) :
    fossilCut gvt q =
      (q.filter fun e => decide (gvt ≤ e.sig), q.filter fun e => decide (e.sig < gvt)) := by
  have happend := fossilCut_append gvt q
  have hstay : ∀ e ∈ (fossilCut gvt q).1, gvt ≤ e.sig := fossilCut_le hq
  have hgo : ∀ e ∈ (fossilCut gvt q).2, e.sig < gvt := fossilCut_lt hq
  generalize fossilCut gvt q = cut at happend hstay hgo ⊢
  obtain ⟨stay, go⟩ := cut
  subst happend
  rw [List.filter_append, List.filter_append,
    List.filter_eq_self.mpr fun e he => decide_eq_true (hstay e he),
    List.filter_eq_self.mpr fun e he => decide_eq_true (hgo e he),
    List.filter_eq_nil_iff.mpr fun e he => by simpa using hgo e he,
    List.filter_eq_nil_iff.mpr fun e he => by simpa using hstay e he, List.append_nil,
    List.nil_append]

namespace Pe

variable (m : SimModel T S M R)

/-! ## Rollback -/

/-- `e` is shifted off the `pevent_q` of its KP. -/
def shiftPevent (s : Pe T S M R) (kp : Nat) (e : TwEvent T) (rest : List (TwEvent T)) :
    Pe T S M R :=
  { s with queue := Pool.cons (Function.update s.queue (.peventQ kp) rest) .hand e }

section

omit [TwStime T]

theorem shiftPevent_self (s : Pe T S M R) (kp : Nat) (e : TwEvent T) (rest : List (TwEvent T)) :
    (s.shiftPevent kp e rest).queue (.peventQ kp) = rest := by
  simp [shiftPevent, Pool.cons]

theorem shiftPevent_of_ne (s : Pe T S M R) {kp k : Nat} (h : k ≠ kp) (e : TwEvent T)
    (rest : List (TwEvent T)) :
    (s.shiftPevent kp e rest).queue (.peventQ k) = s.queue (.peventQ k) := by
  simp [shiftPevent, Pool.cons, h]

end

/-- One turn of the loop of `tw_kp_rollback_to_sig`; `none` when it ends. -/
def kpRollbackToSig (s : Pe T S M R) (kp : Nat) (toSig : TwEventSig T) : Option (Pe T S M R) :=
  match s.queue (.peventQ kp) with
  | e :: rest =>
      if 0 ≤ twEventSigComparePtr e.sig toSig then
        some ((s.shiftPevent kp e rest).twEventRollback m e .requeueReset)
      else none
  | [] => none

/-- One turn of the loop of `tw_kp_rollback_event`, or what follows the loop
once the event itself comes off the queue. -/
def kpRollbackEvent (s : Pe T S M R) (event : TwEvent T) : Except TwError (Pe T S M R) :=
  let kp := m.kpOf event.destLp
  match s.queue (.peventQ kp) with
  | [] => .error .nullPointer
  | e :: rest =>
      let s := s.shiftPevent kp e rest
      if e = event then .ok (s.twEventRollback m e .freeReset)
      else
        match rest with
        | [] => .error .nullPointer
        | h :: _ => .ok ((s.setLastSig kp h.sig).twEventRollback m e .requeue)

/-- `tw_gvt_force_update` in the loop `kind`; its realtime form resets a clock
reading, which is an input here. -/
def forceUpdate (s : Pe T S M R) (kind : BatchKind) : Pe T S M R :=
  { s with gvtCnt := if kind = .realtime then s.gvtCnt else m.gvtInterval }

/-- Put the event in `hand` back into the priority queue. -/
def requeue (s : Pe T S M R) (e : TwEvent T) : Pe T S M R :=
  (s.unlink .hand e).twPqEnqueue e

/-- What the caller of `tw_event_rollback` does with the event. -/
def afterRollback (s : Pe T S M R) (e : TwEvent T) (after : RollbackAfter) : Pe T S M R :=
  let kp := m.kpOf e.destLp
  match after with
  | .requeueReset => (s.setLastSig kp (s.headSig kp)).requeue e
  | .requeue => s.requeue e
  | .freeReset =>
      { ((s.setLastSig kp (s.headSig kp)).unlink .hand e).twEventFree e with phase := .cancelQ }
  | .abort kind =>
      let s := s.requeue e
      { (s.setLastSig kp (s.tailSig kp)).forceUpdate m kind with phase := .idle }

/-- One step of a rollback in progress. -/
def rollbackStep (s : Pe T S M R) (r : Rollback T) : Except TwError (Pe T S M R) :=
  match r.children with
  | e :: rest => s.rollbackChild m r e rest
  | [] => .ok ((s.rollbackEnd m r.event).afterRollback m r.event r.after)

/-! ## Fossil collection -/

/-- The event `e` goes to the free list and its chain of children is taken off
it. -/
def retire (s : Pe T S M R) (kp : Nat) (e : TwEvent T) : Pe T S M R :=
  let children := (s.ev e).causedByMe
  { s with
    queue := Pool.remove s.queue .fossil e
    ev := Function.update s.ev e { s.ev e with
      owner := if children = [] then (s.ev e).owner else .peFreeQ
      causedByMe := [] }
    freeQ := s.freeQ + 1
    freed := s.freed ++ [e]
    commits := s.commits ++ [e]
    phase := .fossilCollect kp children }

/-- `tw_eventq_push_list` for the event `e`: its entry leaves the index, and the
buffers of its finished sends are freed through the chain of children. -/
def commitEvent (s : Pe T S M R) (kp : Nat) (e : TwEvent T) : Except TwError (Pe T S M R) :=
  if e.eventId ≠ 0 ∧ (s.ev e).remote then
    match (s.retire kp e).twHashRemove m e with
    | none => .error .nonExistentEvent
    | some (_, s) => .ok s
  else .ok (s.retire kp e)

/-- `tw_eventq_fossil_collect` cuts the events to commit off a `pevent_q`. -/
def cutPevent (s : Pe T S M R) (kp : Nat) : Pe T S M R :=
  let cut := fossilCut s.gvtSig (s.queue (.peventQ kp))
  { s with queue := Function.update (Function.update s.queue (.peventQ kp) cut.1) .fossil cut.2 }

theorem cutPevent_self (s : Pe T S M R) (kp : Nat) :
    (s.cutPevent kp).queue (.peventQ kp) = (fossilCut s.gvtSig (s.queue (.peventQ kp))).1 := by
  simp [cutPevent]

theorem cutPevent_of_ne (s : Pe T S M R) {kp k : Nat} (h : k ≠ kp) :
    (s.cutPevent kp).queue (.peventQ k) = s.queue (.peventQ k) := by
  simp [cutPevent, h]

/-- One step of `tw_pe_fossil_collect`: the next child of the event just
committed, the next event to commit (the tail first), or the next KP. -/
def fossilStep (s : Pe T S M R) (kp : Nat) (children : List (TwEvent T)) :
    Except TwError (Pe T S M R) :=
  match children with
  | c :: cs =>
      let s := { s with phase := .fossilCollect kp cs }
      if (s.ev c).owner = .peSeventQ then .ok ((s.unlink .seventQ c).twEventFree c) else .ok s
  | [] =>
      match (s.queue .fossil).getLast? with
      | some e => s.commitEvent m kp e
      | none =>
          if kp < m.nkp then .ok { s.cutPevent kp with phase := .fossilCollect (kp + 1) [] }
          else .ok { s with phase := .idle }

/-! ## What these steps can do -/

variable {m} {s s' : Pe T S M R}

/-- What the caller of `tw_event_rollback` leaves behind. -/
theorem afterRollback_eq (m : SimModel T S M R) (s : Pe T S M R) (e : TwEvent T)
    (after : RollbackAfter) :
    s.afterRollback m e after =
      match after with
      | .requeueReset => { s with
          queue := Pool.cons (Pool.remove s.queue .hand e) .pq e
          ev := Function.update s.ev e { s.ev e with owner := .pePq }
          lastSig := Function.update s.lastSig (m.kpOf e.destLp) (s.headSig (m.kpOf e.destLp)) }
      | .requeue => { s with
          queue := Pool.cons (Pool.remove s.queue .hand e) .pq e
          ev := Function.update s.ev e { s.ev e with owner := .pePq } }
      | .freeReset => { s with
          queue := Pool.remove s.queue .hand e
          ev := Function.update s.ev e { s.ev e with owner := .peFreeQ }
          lastSig := Function.update s.lastSig (m.kpOf e.destLp) (s.headSig (m.kpOf e.destLp))
          freeQ := s.freeQ + 1
          freed := s.freed ++ [e]
          phase := .cancelQ }
      | .abort kind => { s with
          queue := Pool.cons (Pool.remove s.queue .hand e) .pq e
          ev := Function.update s.ev e { s.ev e with owner := .pePq }
          lastSig := Function.update s.lastSig (m.kpOf e.destLp) (s.tailSig (m.kpOf e.destLp))
          gvtCnt := if kind = .realtime then s.gvtCnt else m.gvtInterval
          phase := .idle } := by
  cases after with
  | requeueReset => rfl
  | requeue => rfl
  | freeReset =>
      simp only [afterRollback, twEventFree, setLastSig, setOwner, setEv, unlink]
  | abort kind =>
      simp only [afterRollback, forceUpdate, setLastSig, requeue, twPqEnqueue, setOwner, setEv,
        unshift, unlink]
      rfl

theorem kpRollbackToSig_some {kp : Nat} {toSig : TwEventSig T}
    (h : s.kpRollbackToSig m kp toSig = some s') :
    ∃ e rest, s.queue (.peventQ kp) = e :: rest ∧ toSig ≤ e.sig ∧
      s' = (s.shiftPevent kp e rest).twEventRollback m e .requeueReset := by
  unfold kpRollbackToSig at h
  split at h
  next e rest hq =>
    split at h
    next hle =>
      cases h
      exact ⟨e, rest, hq, twEventSigComparePtr_nonneg.mp hle, rfl⟩
    · cases h
  · cases h

theorem kpRollbackToSig_none {kp : Nat} {toSig : TwEventSig T}
    (h : s.kpRollbackToSig m kp toSig = none) {e : TwEvent T} {rest : List (TwEvent T)}
    (hq : s.queue (.peventQ kp) = e :: rest) : e.sig < toSig := by
  unfold kpRollbackToSig at h
  rw [hq] at h
  dsimp only at h
  split at h
  · cases h
  next hle => exact not_le.mp fun hle' => hle (twEventSigComparePtr_nonneg.mpr hle')

theorem kpRollbackEvent_ok {event : TwEvent T} (h : s.kpRollbackEvent m event = .ok s') :
    ∃ e rest, s.queue (.peventQ (m.kpOf event.destLp)) = e :: rest ∧
      (e = event ∧
          s' = (s.shiftPevent (m.kpOf event.destLp) e rest).twEventRollback m e .freeReset ∨
        e ≠ event ∧ ∃ h t, rest = h :: t ∧
          s' = ((s.shiftPevent (m.kpOf event.destLp) e rest).setLastSig
            (m.kpOf event.destLp) h.sig).twEventRollback m e .requeue) := by
  unfold kpRollbackEvent at h
  dsimp only at h
  split at h
  · cases h
  next e rest hq =>
    refine ⟨e, rest, hq, ?_⟩
    split at h
    next he =>
      cases h
      exact .inl ⟨he, rfl⟩
    next he =>
      split at h
      · cases h
      next hd tl =>
        cases h
        exact .inr ⟨he, hd, tl, rfl, rfl⟩

theorem commitEvent_ok {kp : Nat} {e : TwEvent T} (h : s.commitEvent m kp e = .ok s') :
    ((e.eventId = 0 ∨ (s.ev e).remote = false) ∧ s' = s.retire kp e) ∨
      (e.eventId ≠ 0 ∧ (s.ev e).remote = true ∧
        ∃ c, s.hashT.find? (sameKey m e) = some c ∧
          s' = { s.retire kp e with hashT := s.hashT.erase c }) := by
  unfold commitEvent at h
  split at h
  next hr =>
    have hh : (s.retire kp e).hashT = s.hashT := rfl
    unfold twHashRemove at h
    rw [hh] at h
    cases hc : s.hashT.find? (sameKey m e) with
    | none => rw [hc] at h; cases h
    | some c =>
        rw [hc] at h
        cases h
        exact .inr ⟨hr.1, hr.2, c, rfl, rfl⟩
  next hr =>
    cases h
    refine .inl ⟨?_, rfl⟩
    rcases not_and_or.mp hr with h0 | h0
    · exact .inl (not_not.mp h0)
    · exact .inr (Bool.eq_false_iff.mpr h0)

theorem fossilStep_ok {kp : Nat} {children : List (TwEvent T)}
    (h : s.fossilStep m kp children = .ok s') :
    (∃ c cs, children = c :: cs ∧
        ((s.ev c).owner = .peSeventQ ∧
            s' = { s with
              phase := .fossilCollect kp cs
              queue := Pool.remove s.queue .seventQ c
              ev := Function.update s.ev c { s.ev c with owner := .peFreeQ }
              freeQ := s.freeQ + 1
              freed := s.freed ++ [c] } ∨
          (s.ev c).owner ≠ .peSeventQ ∧ s' = { s with phase := .fossilCollect kp cs })) ∨
      (children = [] ∧ ∃ e, (s.queue .fossil).getLast? = some e ∧
        s.commitEvent m kp e = .ok s') ∨
      (children = [] ∧ s.queue .fossil = [] ∧ kp < m.nkp ∧
        s' = { s.cutPevent kp with phase := .fossilCollect (kp + 1) [] }) ∨
      (children = [] ∧ s.queue .fossil = [] ∧ m.nkp ≤ kp ∧ s' = { s with phase := .idle }) := by
  unfold fossilStep at h
  split at h
  next c cs =>
    refine .inl ⟨c, cs, rfl, ?_⟩
    dsimp only at h
    split at h
    next ho =>
      cases h
      exact .inl ⟨ho, rfl⟩
    next ho =>
      cases h
      exact .inr ⟨ho, rfl⟩
  · split at h
    next e he => exact .inr (.inl ⟨rfl, e, he, h⟩)
    next he =>
      have hf : s.queue .fossil = [] := List.getLast?_eq_none_iff.mp he
      split at h
      next hk =>
        cases h
        exact .inr (.inr (.inl ⟨rfl, hf, hk, rfl⟩))
      next hk =>
        cases h
        exact .inr (.inr (.inr ⟨rfl, hf, not_lt.mp hk, rfl⟩))

end Pe

end Ross

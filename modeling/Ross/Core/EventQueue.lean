import Ross.Core.State

/-!
# Event queues

The operations of `tw-eventq.h`, of the priority queue, of the free list and of
the remote-event index on the state of a PE.  A queue is a list, head first, so
`tw_eventq_unshift` conses and `tw_eventq_push` appends.  The priority queue is
the bag of its events: `tw_pq_dequeue` takes the least one of the order of
`tw_pq_compare_less_than_rand`.
-/

namespace Ross

variable {T S M R : Type} [TwStime T]

/-- `tw_pq_compare_less_than_rand`. -/
def twPqCompareLessThanRand (n e : TwEvent T) : Bool :=
  let c := twEventSigComparePtr n.sig e.sig
  if c < 0 then true
  else if 0 < c then false
  else if n.eventId < e.eventId then true
  else if e.eventId < n.eventId then false
  else n.sendPe < e.sendPe

/-- The event the tree keeps leftmost. -/
def pqLeast : List (TwEvent T) → Option (TwEvent T)
  | [] => none
  | e :: es =>
      match pqLeast es with
      | none => some e
      | some l => if twPqCompareLessThanRand e l then some e else some l

theorem sig_le_of_compare {n e : TwEvent T} (h : twPqCompareLessThanRand n e = true) :
    n.sig ≤ e.sig := by
  unfold twPqCompareLessThanRand at h
  simp only [twEventSigComparePtr_neg, twEventSigComparePtr_pos] at h
  by_contra hlt
  rw [not_le] at hlt
  rw [if_neg (not_lt.mpr hlt.le), if_pos hlt] at h
  cases h

theorem sig_le_of_not_compare {n e : TwEvent T} (h : twPqCompareLessThanRand n e = false) :
    e.sig ≤ n.sig := by
  unfold twPqCompareLessThanRand at h
  simp only [twEventSigComparePtr_neg, twEventSigComparePtr_pos] at h
  by_contra hlt
  rw [not_le] at hlt
  rw [if_pos hlt] at h
  cases h

@[simp] theorem pqLeast_eq_none {l : List (TwEvent T)} : pqLeast l = none ↔ l = [] := by
  cases l with
  | nil => exact iff_of_true rfl rfl
  | cons e l =>
      refine iff_of_false (fun h => ?_) (List.cons_ne_nil e l)
      unfold pqLeast at h
      split at h
      · cases h
      · split at h <;> cases h

/-- The leftmost event is in the queue and no other one is below it. -/
theorem pqLeast_some {l : List (TwEvent T)} {e : TwEvent T} (h : pqLeast l = some e) :
    e ∈ l ∧ ∀ x ∈ l, e.sig ≤ x.sig := by
  induction l generalizing e with
  | nil => cases h
  | cons a l ih =>
      unfold pqLeast at h
      split at h
      next hl =>
        cases h
        rw [pqLeast_eq_none.mp hl]
        exact ⟨List.mem_singleton_self a, fun x hx => (List.mem_singleton.mp hx) ▸ le_rfl⟩
      next b hl =>
        obtain ⟨hb, hmin⟩ := ih hl
        split at h
        next hc =>
          cases h
          refine ⟨List.mem_cons_self, fun x hx => ?_⟩
          rcases List.mem_cons.mp hx with rfl | hx
          · exact le_rfl
          · exact (sig_le_of_compare hc).trans (hmin x hx)
        next hc =>
          cases h
          refine ⟨List.mem_cons_of_mem a hb, fun x hx => ?_⟩
          rcases List.mem_cons.mp hx with rfl | hx
          · exact sig_le_of_not_compare (by simpa using hc)
          · exact hmin x hx

/-- The events `tw_hash_remove` takes for the same one: the key of `avlDelete`
in the tree of the destination KP, or of `find_entry` in the table of the
sender. -/
def sameKey (m : SimModel T S M R) (a b : TwEvent T) : Bool :=
  if m.avlTree then
    decide (m.kpOf a.destLp = m.kpOf b.destLp ∧ a.sig.recvTs = b.sig.recvTs ∧
      a.sig.eventTiebreaker.head? = b.sig.eventTiebreaker.head? ∧
      a.eventId = b.eventId ∧ a.sendPe = b.sendPe)
  else decide (a.sendPe = b.sendPe ∧ a.eventId = b.eventId)

namespace Pe

variable (m : SimModel T S M R)

/-! ## Lists -/

/-- `tw_eventq_unshift`. -/
def unshift (s : Pe T S M R) (q : QueueId) (e : TwEvent T) : Pe T S M R :=
  { s with queue := Pool.cons s.queue q e }

/-- `tw_eventq_push`. -/
def push (s : Pe T S M R) (q : QueueId) (e : TwEvent T) : Pe T S M R :=
  { s with queue := Pool.snoc s.queue q e }

section

omit [TwStime T]

@[simp] theorem setQueue_self (s : Pe T S M R) (q : QueueId) (l : List (TwEvent T)) :
    (s.setQueue q l).queue q = l := by
  simp only [setQueue, Function.update_self]

@[simp] theorem setQueue_of_ne (s : Pe T S M R) {q q' : QueueId} (h : q' ≠ q)
    (l : List (TwEvent T)) : (s.setQueue q l).queue q' = s.queue q' := by
  simp only [setQueue, Function.update_of_ne h]

end

/-! ## The free list -/

/-- `tw_event_grab`: the buffer is named when it is first written. -/
def twEventGrab (s : Pe T S M R) : Option (Pe T S M R) :=
  if s.freeQ = 0 then none else some { s with freeQ := s.freeQ - 1 }

/-- `tw_event_free`. -/
def twEventFree (s : Pe T S M R) (e : TwEvent T) : Pe T S M R :=
  { s.setOwner e .peFreeQ with freeQ := s.freeQ + 1, freed := s.freed ++ [e] }

/-! ## The priority queue -/

/-- `tw_pq_minimum_sig_ptr`. -/
def twPqMinimumSig (s : Pe T S M R) : TwEventSig T :=
  match pqLeast (s.queue .pq) with
  | some e => e.sig
  | none => maxSig

/-- `tw_pq_enqueue`. -/
def twPqEnqueue (s : Pe T S M R) (e : TwEvent T) : Pe T S M R :=
  (s.unshift .pq e).setOwner e .pePq

/-- `tw_pq_delete_any`. -/
def twPqDeleteAny (s : Pe T S M R) (e : TwEvent T) : Pe T S M R :=
  (s.unlink .pq e).setOwner e .unowned

/-- `tw_pq_dequeue`; the event dequeued is in `hand`. -/
def twPqDequeue (s : Pe T S M R) : Option (TwEvent T × Pe T S M R) :=
  match pqLeast (s.queue .pq) with
  | none => none
  | some e => some (e, (s.twPqDeleteAny e).unshift .hand e)

/-! ## The remote-event index -/

/-- `tw_hash_insert`. -/
def twHashInsert (s : Pe T S M R) (e : TwEvent T) : Pe T S M R :=
  { s with hashT := s.hashT ++ [e] }

/-- `tw_hash_remove`: an entry with the key of `e`, if there is one. -/
def twHashRemove (s : Pe T S M R) (e : TwEvent T) : Option (TwEvent T × Pe T S M R) :=
  match s.hashT.find? (sameKey m e) with
  | none => none
  | some c => some (c, { s with hashT := s.hashT.erase c })

/-! ## Signatures of a KP -/

/-- `last_sig` of a KP. -/
def setLastSig (s : Pe T S M R) (kp : Nat) (sig : TwEventSig T) : Pe T S M R :=
  { s with lastSig := Function.update s.lastSig kp sig }

/-- The signature that the rollback loops leave in `last_sig`: that of the head
of `pevent_q`, or GVT when it is empty. -/
def headSig (s : Pe T S M R) (kp : Nat) : TwEventSig T :=
  match (s.queue (.peventQ kp)).head? with
  | some e => e.sig
  | none => s.gvtSig

/-- The signature that the abort branch of the batch leaves in `last_sig`:
`tw_eventq_peek` gives the tail. -/
def tailSig (s : Pe T S M R) (kp : Nat) : TwEventSig T :=
  match (s.queue (.peventQ kp)).getLast? with
  | some e => e.sig
  | none => s.gvtSig

/-- `trans_msg_sig` once an event of signature `sig` is in transit: it is lowered
while a GVT computation is in progress. -/
def transSig (s : Pe T S M R) (sig : TwEventSig T) : TwEventSig T :=
  if s.gvtCompute then lowerSig s.transMsgSig sig else s.transMsgSig

def lowerTrans (s : Pe T S M R) (sig : TwEventSig T) : Pe T S M R :=
  { s with transMsgSig := s.transSig sig }

/-- Overwrite the record of an LP. -/
def setLp (s : Pe T S M R) (i : Nat) (l : TwLp T S R) : Pe T S M R :=
  { s with lp := Function.update s.lp i l }

end Pe

end Ross

import Ross.Core.Machine
import Ross.Lib.Transition

/-!
# The order of processed events

`pevent_q` of every KP is sorted, latest event first, and `last_sig` is above
it, as long as no handler that ran out of buffers is undone in a KP with two or
more processed events.
-/

namespace Ross.Pe

open Transition

variable {T S M R : Type} [TwStime T] {m : SimModel T S M R}

/-- The processed events of a KP. -/
def pevent (s : Pe T S M R) (kp : Nat) : List (TwEvent T) := s.queue (.peventQ kp)

/-- No handler called by a batch is running. -/
def OutsideHandler (p : Phase T M) : Prop :=
  ∀ kind left lp ops, p ≠ .handler kind left lp ops

/-- The order of the processed events of each KP: latest first, all below
`last_sig` and below the KP's events in the priority queue and in hand. -/
structure KpSorted (m : SimModel T S M R) (s : Pe T S M R) : Prop where
  kp : ∀ k, ∀ p ∈ s.pevent k, m.kpOf p.destLp = k
  sorted : ∀ k, (s.pevent k).Pairwise fun p q => q.sig ≤ p.sig
  last : ∀ k, ∀ p ∈ s.pevent k, p.sig ≤ s.lastSig k
  pq : ∀ e ∈ s.queue .pq, ∀ p ∈ s.pevent (m.kpOf e.destLp), p.sig ≤ e.sig
  hand : ∀ e ∈ s.queue .hand, ∀ p ∈ s.pevent (m.kpOf e.destLp), p.sig ≤ e.sig

/-- What keeps the order between steps: which event is in hand, that the event
whose handler runs is the latest of its KP and not above the KP's events in the
priority queue, and that a batch undoes an event only over at most one processed
event. -/
structure KpOrder (m : SimModel T S M R) (s : Pe T S M R) : Prop extends KpSorted m s where
  handler : ∀ kind left lp ops, s.phase = .handler kind left lp ops →
    ∃ cev, s.queue .hand = [cev] ∧ s.curEvent = some cev ∧
      s.lastSig (m.kpOf cev.destLp) = cev.sig ∧
      ∀ e ∈ s.queue .pq, m.kpOf e.destLp = m.kpOf cev.destLp → cev.sig ≤ e.sig
  rollback : ∀ r, s.rollback = some r → s.queue .hand = [r.event]
  empty : s.rollback = none → OutsideHandler s.phase → s.queue .hand = []
  abort : ∀ r kind, s.rollback = some r → r.after = .abort kind →
    (s.pevent (m.kpOf r.event.destLp)).length ≤ 1
  outside : ∀ r, s.rollback = some r → (∃ kind, r.after = .abort kind) ∨
    OutsideHandler s.phase

namespace KpSorted

variable {s s' : Pe T S M R}

/-- A step that leaves the processed events, the event in hand and `last_sig`
alone, and puts into the priority queue only events not below the `last_sig` of
their KP. -/
theorem frame (h : KpSorted m s) (hpe : ∀ k, s'.pevent k = s.pevent k)
    (hhand : ∀ e ∈ s'.queue .hand, e ∈ s.queue .hand) (hlast : s'.lastSig = s.lastSig)
    (hpq : ∀ e ∈ s'.queue .pq, e ∈ s.queue .pq ∨
      s.lastSig (m.kpOf e.destLp) ≤ e.sig) : KpSorted m s' where
  kp k p hp := h.kp k p (hpe k ▸ hp)
  sorted k := by rw [hpe]; exact h.sorted k
  last k p hp := by rw [hlast]; exact h.last k p (hpe k ▸ hp)
  pq e he p hp := by
    rw [hpe] at hp
    rcases hpq e he with he | he
    · exact h.pq e he p hp
    · exact (h.last _ p hp).trans he
  hand e he p hp := by
    rw [hpe] at hp
    exact h.hand e (hhand e he) p hp

/-- Fewer processed events are still in order. -/
theorem sublist (h : KpSorted m s) (hpe : ∀ k, (s'.pevent k).Sublist (s.pevent k))
    (hhand : s'.queue .hand = s.queue .hand) (hlast : s'.lastSig = s.lastSig)
    (hpq : s'.queue .pq = s.queue .pq) : KpSorted m s' where
  kp k p hp := h.kp k p ((hpe k).mem hp)
  sorted k := (h.sorted k).sublist (hpe k)
  last k p hp := by rw [hlast]; exact h.last k p ((hpe k).mem hp)
  pq e he p hp := h.pq e (hpq ▸ he) p ((hpe _).mem hp)
  hand e he p hp := h.hand e (hhand ▸ he) p ((hpe _).mem hp)

/-- Shifting the head of a `pevent_q` into the hand. -/
theorem shiftPevent (h : KpSorted m s) {k : Nat} {e : TwEvent T} {rest : List (TwEvent T)}
    (hq : s.queue (.peventQ k) = e :: rest) : KpSorted m (s.shiftPevent k e rest) := by
  have hcons : s.pevent k = e :: rest := hq
  have hself : (s.shiftPevent k e rest).pevent k = rest := shiftPevent_self s k e rest
  have hne : ∀ j, j ≠ k → (s.shiftPevent k e rest).pevent j = s.pevent j :=
    fun j hj => shiftPevent_of_ne s hj e rest
  have hsub : ∀ j, ((s.shiftPevent k e rest).pevent j).Sublist (s.pevent j) := by
    intro j
    by_cases hj : j = k
    · subst hj
      rw [hself, hcons]
      exact List.sublist_cons_self e rest
    · rw [hne j hj]
  have hek : m.kpOf e.destLp = k := h.kp k e (hcons ▸ List.mem_cons_self)
  have hsorted := h.sorted k
  rw [hcons, List.pairwise_cons] at hsorted
  refine ⟨fun j p hp => h.kp j p ((hsub j).mem hp), fun j => (h.sorted j).sublist (hsub j),
    fun j p hp => h.last j p ((hsub j).mem hp),
    fun x hx p hp => h.pq x hx p ((hsub _).mem hp), fun x hx p hp => ?_⟩
  rcases List.mem_cons.mp hx with rfl | hx
  · rw [hek, hself] at hp
    exact hsorted.1 p hp
  · exact h.hand x hx p ((hsub _).mem hp)

theorem setLastSig (h : KpSorted m s) {k : Nat} {sig : TwEventSig T}
    (hsig : ∀ p ∈ s.pevent k, p.sig ≤ sig) : KpSorted m (s.setLastSig k sig) := by
  refine ⟨h.kp, h.sorted, fun j p hj => ?_, h.pq, h.hand⟩
  show p.sig ≤ Function.update s.lastSig k sig j
  by_cases hjk : j = k
  · subst hjk
    rw [Function.update_self]
    exact hsig p hj
  · rw [Function.update_of_ne hjk]
    exact h.last j p hj

/-- The event in hand goes back to the priority queue. -/
theorem requeue (h : KpSorted m s) {e : TwEvent T} (he : e ∈ s.queue .hand) :
    KpSorted m (s.requeue e) := by
  refine ⟨h.kp, h.sorted, h.last, fun x hx p hpe => ?_,
    fun x hx => h.hand x (List.mem_of_mem_erase hx)⟩
  rcases List.mem_cons.mp hx with rfl | hx
  · exact h.hand x he p hpe
  · exact h.pq x hx p hpe

/-- The head of `pevent_q` is its latest event. -/
theorem le_head (h : KpSorted m s) {k : Nat} {e : TwEvent T} {rest : List (TwEvent T)}
    (hq : s.queue (.peventQ k) = e :: rest) : ∀ p ∈ s.pevent k, p.sig ≤ e.sig := by
  intro p hp
  have hsorted := h.sorted k
  rw [show s.pevent k = e :: rest from hq] at hp hsorted
  rcases List.mem_cons.mp hp with rfl | hp
  · exact le_rfl
  · exact (List.pairwise_cons.mp hsorted).1 p hp

theorem le_headSig (h : KpSorted m s) {k : Nat} : ∀ p ∈ s.pevent k, p.sig ≤ s.headSig k := by
  intro p hp
  unfold headSig
  cases hq : s.queue (.peventQ k) with
  | nil => exact absurd (show p ∈ [] from hq ▸ hp) List.not_mem_nil
  | cons e rest => exact h.le_head hq p hp

omit [TwStime T] in
/-- With at most one processed event the tail is the head. -/
theorem tailSig_eq_headSig {k : Nat} (hlen : (s.pevent k).length ≤ 1) :
    s.tailSig k = s.headSig k := by
  unfold pevent at hlen
  unfold tailSig headSig
  cases hq : s.queue (.peventQ k) with
  | nil => rfl
  | cons e rest =>
      rw [hq, List.length_cons] at hlen
      obtain rfl : rest = [] := List.length_eq_zero_iff.mp (by omega)
      rfl

/-- Undoing an event in hand leaves `last_sig` at its signature. -/
theorem twEventRollback (h : KpSorted m s) {e : TwEvent T} (after : RollbackAfter)
    (he : e ∈ s.queue .hand) : KpSorted m (s.twEventRollback m e after) := by
  have hl := h.setLastSig (k := m.kpOf e.destLp) (h.hand e he)
  obtain ⟨l, cv, msg, t, hu⟩ := twEventRollback_frame m s e after
  rw [hu]
  exact ⟨hl.kp, hl.sorted, hl.last, hl.pq, hl.hand⟩

/-- The event in hand, above the processed events of its KP and not above those
in the priority queue, joins the processed events. -/
theorem process (h : KpSorted m s) {cev : TwEvent T} (hhand : s.queue .hand = [cev])
    (hlast : s.lastSig (m.kpOf cev.destLp) = cev.sig)
    (hpq : ∀ e ∈ s.queue .pq, m.kpOf e.destLp = m.kpOf cev.destLp → cev.sig ≤ e.sig) :
    KpSorted m (((s.unlink .hand cev).setOwner cev .kpPeventQ).unshift
      (.peventQ (m.kpOf cev.destLp)) cev) := by
  have hcev : cev ∈ s.queue .hand := hhand ▸ List.mem_singleton_self cev
  let k := m.kpOf cev.destLp
  let s₁ := ((s.unlink .hand cev).setOwner cev .kpPeventQ).unshift (.peventQ k) cev
  have hself : s₁.pevent k = cev :: s.pevent k := setQueue_self _ _ _
  have hne : ∀ j, j ≠ k → s₁.pevent j = s.pevent j := fun j hj =>
    setQueue_of_ne _ (fun h' => hj (QueueId.peventQ.inj h')) _
  have hmem : ∀ j, ∀ x ∈ s₁.pevent j, x = cev ∧ j = k ∨ x ∈ s.pevent j := by
    intro j x hx
    by_cases hj : j = k
    · subst hj
      rw [hself] at hx
      exact (List.mem_cons.mp hx).imp_left fun hx => ⟨hx, rfl⟩
    · exact .inr (hne j hj ▸ hx)
  have hnil : s₁.queue .hand = [] := by
    show (s.queue .hand).erase cev = []
    rw [hhand, List.erase_cons_head]
  refine ⟨fun j x hx => ?_, fun j => ?_, fun j x hx => ?_, fun x hx y hy => ?_,
    fun x hx => absurd (hnil ▸ hx) List.not_mem_nil⟩
  · rcases hmem j x hx with ⟨rfl, rfl⟩ | hx
    · rfl
    · exact h.kp j x hx
  · by_cases hj : j = k
    · subst hj
      rw [hself]
      exact List.pairwise_cons.mpr ⟨fun y hy => h.hand cev hcev y hy, h.sorted k⟩
    · rw [hne j hj]
      exact h.sorted j
  · rcases hmem j x hx with ⟨rfl, rfl⟩ | hx
    · exact hlast.ge
    · exact h.last j x hx
  · rcases hmem _ y hy with ⟨rfl, hk⟩ | hy
    · exact hpq x hx hk
    · exact h.pq x hx y hy

end KpSorted

namespace KpOrder

variable {s s' : Pe T S M R}

/-- A step that leaves the processed events, the event in hand and `last_sig`
alone, neither enters nor leaves a handler or a rollback, and puts into the
priority queue only events not below the `last_sig` of their KP. -/
theorem frame (h : KpOrder m s) (hpe : ∀ k, s'.pevent k = s.pevent k)
    (hhand : s'.queue .hand = s.queue .hand) (hlast : s'.lastSig = s.lastSig)
    (hpq : ∀ e ∈ s'.queue .pq, e ∈ s.queue .pq ∨
      s.lastSig (m.kpOf e.destLp) ≤ e.sig)
    (hout : OutsideHandler s'.phase ↔ OutsideHandler s.phase)
    (hcur : ¬ OutsideHandler s.phase → s'.curEvent = s.curEvent)
    (hnone : s'.rollback = none → s.rollback = none)
    (hroll : ∀ r', s'.rollback = some r' → ∃ r, s.rollback = some r ∧
      r'.event = r.event ∧ r'.after = r.after) : KpOrder m s' where
  toKpSorted := h.toKpSorted.frame hpe (fun _ he => hhand ▸ he) hlast hpq
  handler kind left lp ops hp := by
    have hin : ¬ OutsideHandler s.phase := fun ho => hout.mpr ho _ _ _ _ hp
    obtain ⟨kind, left, lp, ops, hp⟩ : ∃ kind left lp ops, s.phase =
        .handler kind left lp ops := by
      by_contra hno
      exact hin fun kind left lp ops hp => hno ⟨kind, left, lp, ops, hp⟩
    obtain ⟨cev, hcev, hc, hl, hq⟩ := h.handler _ _ _ _ hp
    refine ⟨cev, hhand.trans hcev, (hcur hin).trans hc, by rw [hlast]; exact hl,
      fun e he hk => ?_⟩
    rcases hpq e he with he | he
    · exact hq e he hk
    · rw [hk, hl] at he
      exact he
  rollback r' hr := by
    obtain ⟨r, hr, he, -⟩ := hroll r' hr
    rw [he, hhand]
    exact h.rollback r hr
  empty hr hp := hhand.trans (h.empty (hnone hr) (hout.mp hp))
  abort r' kind hr ha := by
    obtain ⟨r, hr, he, hf⟩ := hroll r' hr
    rw [he, hpe]
    exact h.abort r kind hr (hf ▸ ha)
  outside r' hr := by
    obtain ⟨r, hr, -, hf⟩ := hroll r' hr
    rw [hf]
    exact (h.outside r hr).imp_right hout.mpr

/-- A step that touches neither the queues of the order nor the control. -/
theorem same (h : KpOrder m s) (hpe : ∀ k, s'.pevent k = s.pevent k)
    (hpq : s'.queue .pq = s.queue .pq) (hhand : s'.queue .hand = s.queue .hand)
    (hlast : s'.lastSig = s.lastSig) (hcur : s'.curEvent = s.curEvent)
    (hphase : s'.phase = s.phase) (hroll : s'.rollback = s.rollback) : KpOrder m s' :=
  h.frame hpe hhand hlast (fun _ he => .inl (hpq ▸ he)) (by rw [hphase]) (fun _ => hcur)
    (fun hr => hroll ▸ hr) fun r hr => ⟨r, hroll ▸ hr, rfl, rfl⟩

/-- A step that moves from one function to another, neither of them a handler,
and touches neither the queues of the order nor a rollback. -/
theorem goto (h : KpOrder m s) (hpe : ∀ k, s'.pevent k = s.pevent k)
    (hpq : s'.queue .pq = s.queue .pq) (hhand : s'.queue .hand = s.queue .hand)
    (hlast : s'.lastSig = s.lastSig) (hroll : s'.rollback = s.rollback)
    (hp : OutsideHandler s.phase) (hp' : OutsideHandler s'.phase) : KpOrder m s' :=
  h.frame hpe hhand hlast (fun _ he => .inl (hpq ▸ he)) (iff_of_true hp' hp)
    (fun hn => absurd hp hn) (fun hr => hroll ▸ hr) fun r hr => ⟨r, hroll ▸ hr, rfl, rfl⟩

/-- The order of a state outside of handlers and rollbacks. -/
theorem of_sorted (h : KpSorted m s) (hp : OutsideHandler s.phase) (hr : s.rollback = none)
    (hhand : s.queue .hand = []) : KpOrder m s where
  toKpSorted := h
  handler kind left lp ops hph := absurd hph (hp kind left lp ops)
  rollback r hr' := absurd (hr.symm.trans hr') (Option.some_ne_none r).symm
  empty _ _ := hhand
  abort r _ hr' := absurd (hr.symm.trans hr') (Option.some_ne_none r).symm
  outside _ _ := .inr hp

/-- A step in which at most the event `e`, not below the `last_sig` of its KP,
enters the priority queue. -/
theorem enqueue (h : KpOrder m s) {e : TwEvent T}
    (he : s.lastSig (m.kpOf e.destLp) ≤ e.sig) (hpq : s'.queue .pq = e :: s.queue .pq)
    (hpe : ∀ k, s'.pevent k = s.pevent k) (hhand : s'.queue .hand = s.queue .hand)
    (hlast : s'.lastSig = s.lastSig) (hcur : s'.curEvent = s.curEvent)
    (hphase : s'.phase = s.phase) (hroll : s'.rollback = s.rollback) : KpOrder m s' := by
  refine h.frame hpe hhand hlast (fun x hx => ?_) (by rw [hphase]) (fun _ => hcur)
    (fun hr => hroll ▸ hr) fun r hr => ⟨r, hroll ▸ hr, rfl, rfl⟩
  rcases List.mem_cons.mp (hpq ▸ hx) with rfl | hx
  · exact .inr he
  · exact .inl hx

/-- A step that takes events out of the priority queue. -/
theorem dequeue (h : KpOrder m s) (hpq : ∀ x ∈ s'.queue .pq, x ∈ s.queue .pq)
    (hpe : ∀ k, s'.pevent k = s.pevent k) (hhand : s'.queue .hand = s.queue .hand)
    (hlast : s'.lastSig = s.lastSig) (hcur : s'.curEvent = s.curEvent)
    (hphase : s'.phase = s.phase) (hroll : s'.rollback = s.rollback) : KpOrder m s' :=
  h.frame hpe hhand hlast (fun x hx => .inl (hpq x hx)) (by rw [hphase]) (fun _ => hcur)
    (fun hr => hroll ▸ hr) fun r hr => ⟨r, hroll ▸ hr, rfl, rfl⟩

/-! ## The network layer -/

theorem recvFinish (h : KpOrder m s) {src : Nat} {w : WireMsg T M}
    (hs : s.recvFinish m src w = .ok s') : KpOrder m s' := by
  obtain ⟨-, ⟨-, c, -, rfl⟩ | ⟨-, -, ⟨hl, -, rfl⟩ | ⟨-, rfl⟩⟩⟩ := recvFinish_ok hs
  · exact h.same (fun _ => rfl) rfl rfl rfl rfl rfl rfl
  · exact h.enqueue (e := s.received w) hl rfl (fun _ => rfl) rfl rfl rfl rfl rfl
  · exact h.same (fun _ => rfl) rfl rfl rfl rfl rfl rfl

theorem sendFinish (h : KpOrder m s) {e : TwEvent T} (hs : s.sendFinish m e = .ok s') :
    KpOrder m s' := by
  rcases sendFinish_ok hs with ⟨-, -, rfl⟩ | ⟨-, -, -, rfl⟩ | ⟨-, -, -, rfl⟩ | ⟨-, rfl⟩ <;>
    exact h.same (fun _ => rfl) rfl rfl rfl rfl rfl rfl

theorem recvBegin (h : KpOrder m s) {changed : Bool} (hs : s.recvBegin m changed = .ok s') :
    KpOrder m s' := by
  rcases recvBegin_ok hs with rfl | ⟨-, -, rfl⟩ <;>
    exact h.same (fun _ => rfl) rfl rfl rfl rfl rfl rfl

theorem sendBegin (h : KpOrder m s) (read changed : Bool) :
    KpOrder m (s.sendBegin m read changed) := by
  rcases sendBegin_ok (m := m) s read changed with ⟨e, -, -, hs⟩ | ⟨-, hs⟩ <;> rw [hs] <;>
    exact h.same (fun _ => rfl) rfl rfl rfl rfl rfl rfl

/-! ## Events -/

theorem setLp (h : KpOrder m s) (i : Nat) (l : TwLp T S R) : KpOrder m (s.setLp i l) :=
  h.same (fun _ => rfl) rfl rfl rfl rfl rfl rfl

theorem twEventNewUserPrio (h : KpOrder m s) {destGid sender : Nat} {offsetTs prio : T}
    {msg : M} (hs : s.twEventNewUserPrio m destGid offsetTs sender prio msg = .ok s') :
    KpOrder m s' := by
  obtain ⟨-, ⟨-, rfl⟩ | ⟨-, -, rfl⟩⟩ := twEventNewUserPrio_ok hs <;>
    exact h.same (fun _ => rfl) rfl rfl rfl rfl rfl rfl

theorem deliver (h : KpOrder m s) (e : TwEvent T) : KpOrder m (s.deliver m e) := by
  rcases deliver_cases m s e with ⟨-, hl, hd⟩ | ⟨-, -, hd⟩ | ⟨-, hd⟩ <;> rw [hd]
  · exact h.enqueue hl rfl (fun _ => rfl) rfl rfl rfl rfl rfl
  · exact h.same (fun _ => rfl) rfl rfl rfl rfl rfl rfl
  · exact h.same (fun _ => rfl) rfl rfl rfl rfl rfl rfl

theorem twEventSend (h : KpOrder m s) {i : Nat} (hs : s.twEventSend m i = .ok s') :
    KpOrder m s' := by
  rcases twEventSend_ok hs with ⟨-, rfl⟩ | ⟨e, msg, -, -, rfl⟩
  · exact h.same (fun _ => rfl) rfl rfl rfl rfl rfl rfl
  · have h' : KpOrder m (s.prepare i e msg) := h.same (fun _ => rfl) rfl rfl rfl rfl rfl rfl
    exact h'.deliver _

theorem eventCancel (h : KpOrder m s) {e : TwEvent T} (hs : s.eventCancel m e = .ok s') :
    KpOrder m s' := by
  rcases eventCancel_ok hs with ⟨-, rfl⟩ | ⟨-, rfl⟩ | ⟨-, rfl⟩ | ⟨-, -, rfl⟩ | ⟨-, -, rfl⟩
  case inr.inr.inr.inl =>
    have hsub : ∀ x ∈ (s.queue .pq).erase e, x ∈ s.queue .pq := fun _ => List.mem_of_mem_erase
    exact h.dequeue hsub (fun _ => rfl) rfl rfl rfl rfl rfl
  all_goals exact h.same (fun _ => rfl) rfl rfl rfl rfl rfl rfl

theorem rollbackChild (h : KpOrder m s) {r : Rollback T} (hr : s.rollback = some r)
    {e : TwEvent T} {rest : List (TwEvent T)} (hs : s.rollbackChild m r e rest = .ok s') :
    KpOrder m s' := by
  have h' : KpOrder m { s with rollback := some { r with children := rest } } := by
    refine h.frame (fun _ => rfl) rfl rfl (fun _ he => .inl he) Iff.rfl (fun _ => rfl)
      (fun hn => ?_) fun r' hr' => ?_
    · cases hn
    · cases hr'
      exact ⟨r, hr, rfl, rfl⟩
  exact (h'.setLp _ _).eventCancel hs

/-! ## Rollbacks -/

/-- A batch ends early, with the GVT computation forced. -/
theorem of_forceUpdate (h : KpSorted m s) (hr : s.rollback = none) (hhand : s.queue .hand = [])
    (kind : BatchKind) : KpOrder m { s.forceUpdate m kind with phase := .idle } := by
  have hidle : OutsideHandler (.idle : Phase T M) := fun _ _ _ _ hp => by cases hp
  have hs : KpSorted m { s.forceUpdate m kind with phase := .idle } := by
    cases kind <;> exact h.frame (fun _ => rfl) (fun _ hx => hx) rfl fun _ hx => .inl hx
  cases kind <;> exact of_sorted hs hidle hr hhand

/-- The start of the rollback of the event in hand. -/
theorem of_rollback (h : KpSorted m s) {e : TwEvent T} {after : RollbackAfter}
    (hhand : s.queue .hand = [e])
    (hp : OutsideHandler s.phase ∨ (∃ kind, after = .abort kind) ∧
      (∀ x ∈ s.queue .pq, m.kpOf x.destLp = m.kpOf e.destLp → e.sig ≤ x.sig) ∧
      (s.pevent (m.kpOf e.destLp)).length ≤ 1)
    (hab : ∀ kind, after ≠ .abort kind ∨ (s.pevent (m.kpOf e.destLp)).length ≤ 1) :
    KpOrder m (s.twEventRollback m e after) := by
  have hs := h.twEventRollback after (hhand ▸ List.mem_singleton_self e)
  obtain ⟨l, cv, msg, t, hu⟩ := twEventRollback_frame m s e after
  rw [hu] at hs ⊢
  refine ⟨hs, fun kind left lp ops hph => ?_, fun r hr => ?_, fun hr => ?_, fun r kind hr ha => ?_,
    fun r hr => ?_⟩
  · obtain ⟨-, hq, -⟩ := hp.resolve_left fun ho => ho kind left lp ops hph
    exact ⟨e, hhand, rfl, Function.update_self _ _ _, hq⟩
  · cases hr
    exact hhand
  · cases hr
  · cases hr
    exact (hab kind).resolve_left fun hn => hn ha
  · cases hr
    exact hp.symm.imp_left fun hp => hp.1

/-- The head of a `pevent_q` is shifted off and rolled back. -/
theorem shiftRollback (h : KpOrder m s) {k : Nat} {e : TwEvent T} {rest : List (TwEvent T)}
    {after : RollbackAfter} (hq : s.queue (.peventQ k) = e :: rest)
    (hp : OutsideHandler s.phase) (hr : s.rollback = none)
    (ha : ∀ kind, after ≠ .abort kind) :
    KpOrder m ((s.shiftPevent k e rest).twEventRollback m e after) := by
  have hhand : (s.shiftPevent k e rest).queue .hand = [e] :=
    congrArg (List.cons e) (h.empty hr hp)
  exact of_rollback (h.toKpSorted.shiftPevent hq) hhand (.inl hp) fun kind => .inl (ha kind)

theorem kpRollbackToSig (h : KpOrder m s) {k : Nat} {toSig : TwEventSig T}
    (hp : OutsideHandler s.phase) (hr : s.rollback = none)
    (hs : s.kpRollbackToSig m k toSig = some s') : KpOrder m s' := by
  obtain ⟨e, rest, hq, -, rfl⟩ := kpRollbackToSig_some hs
  exact h.shiftRollback hq hp hr fun kind ha => by cases ha

theorem kpRollbackEvent (h : KpOrder m s) {event : TwEvent T} (hp : OutsideHandler s.phase)
    (hr : s.rollback = none) (hs : s.kpRollbackEvent m event = .ok s') : KpOrder m s' := by
  obtain ⟨e, rest, hq, ⟨-, rfl⟩ | ⟨-, hd, tl, rfl, rfl⟩⟩ := kpRollbackEvent_ok hs
  · exact h.shiftRollback hq hp hr fun kind ha => by cases ha
  · have h₁ := h.toKpSorted.shiftPevent hq
    have hhand : (s.shiftPevent (m.kpOf event.destLp) e (hd :: tl)).queue .hand = [e] :=
      congrArg (List.cons e) (h.empty hr hp)
    refine of_rollback (h₁.setLastSig (h₁.le_head (shiftPevent_self _ _ _ _))) hhand (.inl hp)
      fun kind => .inl fun ha => ?_
    cases ha

/-- What the caller of a rollback does with the event in hand: `last_sig` goes
back to the latest event left, which with at most one event left is also the
tail. -/
theorem afterRollback (h : KpSorted m s) {e : TwEvent T} {after : RollbackAfter}
    (hr : s.rollback = none) (hhand : s.queue .hand = [e])
    (hp : (∃ kind, after = .abort kind) ∨ OutsideHandler s.phase)
    (hlen : ∀ kind, after = .abort kind → (s.pevent (m.kpOf e.destLp)).length ≤ 1) :
    KpOrder m (s.afterRollback m e after) := by
  have he : e ∈ s.queue .hand := hhand ▸ List.mem_singleton_self e
  have hempty : (s.queue .hand).erase e = [] := by
    rw [hhand, List.erase_cons_head]
  have reset := h.setLastSig (k := m.kpOf e.destLp) h.le_headSig
  cases after with
  | requeueReset =>
      have hp := hp.resolve_left fun ⟨kind, hk⟩ => by cases hk
      exact of_sorted (reset.requeue he) hp hr hempty
  | requeue =>
      have hp := hp.resolve_left fun ⟨kind, hk⟩ => by cases hk
      exact of_sorted (h.requeue he) hp hr hempty
  | freeReset =>
      refine of_sorted (reset.frame (fun _ => rfl) (fun _ hx => List.mem_of_mem_erase hx) rfl
        fun _ hx => .inl hx) (fun _ _ _ _ hp => ?_) hr hempty
      cases hp
  | abort kind =>
      have hreq := h.requeue he
      have htail := KpSorted.tailSig_eq_headSig (s := s.requeue e) (hlen kind rfl)
      have hsig := hreq.setLastSig (k := m.kpOf e.destLp) (htail ▸ hreq.le_headSig)
      exact of_forceUpdate hsig hr hempty kind

theorem rollbackStep (h : KpOrder m s) {r : Rollback T} (hr : s.rollback = some r)
    (hs : s.rollbackStep m r = .ok s') : KpOrder m s' := by
  unfold Pe.rollbackStep at hs
  split at hs
  next e rest _ => exact h.rollbackChild hr hs
  next hc =>
    cases hs
    have hend : KpSorted m (s.rollbackEnd m r.event) :=
      h.toKpSorted.frame (fun _ => rfl) (fun _ hx => hx) rfl fun _ hx => .inl hx
    exact afterRollback hend rfl (h.rollback r hr) (h.outside r hr) fun kind => h.abort r kind hr

/-! ## The loops of the scheduler -/

theorem schedEventQ (h : KpOrder m s) (hp : OutsideHandler s.phase)
    (hs : s.schedEventQ m = .ok s') : KpOrder m s' := by
  rcases schedEventQ_ok hs with ⟨cev, rest, -, ⟨-, rfl⟩ | ⟨-, -, ⟨-, rfl⟩ | ⟨hl, rfl⟩⟩⟩ |
    ⟨-, -, rfl⟩ | ⟨-, -, rfl⟩
  · exact h.same (fun _ => rfl) rfl rfl rfl rfl rfl rfl
  · exact h.goto (fun _ => rfl) rfl rfl rfl rfl hp fun _ _ _ _ hp' => by cases hp'
  · exact h.enqueue hl rfl (fun _ => rfl) rfl rfl rfl rfl rfl
  · exact h.goto (fun _ => rfl) rfl rfl rfl rfl hp fun _ _ _ _ hp' => by cases hp'
  · exact h.same (fun _ => rfl) rfl rfl rfl rfl rfl rfl

/-- When the rollback to a straggler ends, the straggler is above what is left
of the processed events, because the head of `pevent_q` is the latest. -/
theorem schedStraggler (h : KpOrder m s) (hp : OutsideHandler s.phase) (hr : s.rollback = none)
    (hs : s.schedStraggler m = .ok s') : KpOrder m s' := by
  obtain ⟨cev, rest, -, hk | ⟨hk, rfl⟩⟩ := schedStraggler_ok hs
  · exact h.kpRollbackToSig hp hr hk
  · have hbelow : ∀ p ∈ s.pevent (m.kpOf cev.destLp), p.sig ≤ cev.sig := by
      intro p hpe
      cases hq : s.queue (.peventQ (m.kpOf cev.destLp)) with
      | nil => exact absurd (show p ∈ [] from hq ▸ hpe) List.not_mem_nil
      | cons e l => exact (h.le_head hq p hpe).trans (kpRollbackToSig_none hk hq).le
    refine of_sorted ⟨h.kp, h.sorted, h.last, fun x hx p hpe => ?_, h.hand⟩
      (fun _ _ _ _ hp' => ?_) hr (h.empty hr hp)
    · rcases List.mem_cons.mp hx with rfl | hx
      · exact hbelow p hpe
      · exact h.pq x hx p hpe
    · cases hp'

theorem schedCancelQ (h : KpOrder m s) (hp : OutsideHandler s.phase)
    (hs : s.schedCancelQ = .ok s') : KpOrder m s' := by
  rcases schedCancelQ_ok hs with
    ⟨cev, rest, -, -, ⟨q, hq, rfl⟩ | ⟨-, rfl⟩⟩ | ⟨-, -, rfl⟩ | ⟨-, -, rfl⟩
  · have hne : ∀ j, j ≠ .eventQ → j ≠ .antiMsg → j ≠ .pq →
        Pool.remove s.queue q cev j = s.queue j := by
      intro j he ha hp
      refine Pool.remove_of_ne ?_
      rcases hq with ⟨-, rfl⟩ | ⟨-, rfl⟩ | ⟨-, rfl⟩ <;> assumption
    have hpe : ∀ k, Pool.remove s.queue q cev (.peventQ k) = s.queue (.peventQ k) :=
      fun k => hne _ (fun h => by cases h) (fun h => by cases h) fun h => by cases h
    have hhand : Pool.remove s.queue q cev .hand = s.queue .hand :=
      hne _ (fun h => by cases h) (fun h => by cases h) fun h => by cases h
    have hpq : ∀ x ∈ Pool.remove s.queue q cev .pq, x ∈ s.queue .pq :=
      fun _ => Pool.of_mem_remove
    exact h.dequeue hpq hpe hhand rfl rfl rfl rfl
  · exact h.goto (fun _ => rfl) rfl rfl rfl rfl hp fun _ _ _ _ hp' => by cases hp'
  · exact h.goto (fun _ => rfl) rfl rfl rfl rfl hp fun _ _ _ _ hp' => by cases hp'
  · exact h.same (fun _ => rfl) rfl rfl rfl rfl rfl rfl

/-- The least event of the priority queue enters its handler. -/
theorem batchStep (h : KpOrder m s) (hp : OutsideHandler s.phase) (hr : s.rollback = none)
    {kind : BatchKind} {left : Nat} (hs : s.batchStep m kind left = .ok s') :
    KpOrder m s' := by
  rcases batchStep_ok hs with ⟨c, n, rfl⟩ | ⟨cev, hcev, -, -, -, rfl⟩
  · exact h.goto (fun _ => rfl) rfl rfl rfl rfl hp fun _ _ _ _ hp' => by cases hp'
  obtain ⟨hmem, hmin⟩ := pqLeast_some hcev
  have hhand : (s.dequeued m cev).queue .hand = [cev] :=
    congrArg (List.cons cev) (h.empty hr hp)
  have htaken : KpSorted m ((s.twPqDeleteAny cev).unshift .hand cev) := by
    refine ⟨h.kp, h.sorted, h.last, fun x hx => h.pq x (List.mem_of_mem_erase hx),
      fun x hx => ?_⟩
    obtain rfl : x = cev := List.mem_singleton.mp (hhand ▸ hx)
    exact h.pq x hmem
  have hsorted := htaken.setLastSig (k := m.kpOf cev.destLp) (h.pq cev hmem)
  obtain ⟨l, cv, msg, ops, hrun⟩ := runEvent_frame (m := m) (s.dequeued m cev) kind (left - 1) cev
  rw [hrun]
  exact {
    toKpSorted := ⟨hsorted.kp, hsorted.sorted, hsorted.last, hsorted.pq, hsorted.hand⟩
    handler := fun _ _ _ _ _ => ⟨cev, hhand, rfl, Function.update_self _ _ _,
      fun x hx _ => hmin x (List.mem_of_mem_erase hx)⟩
    rollback := fun r hr' => absurd (hr.symm.trans hr') (Option.some_ne_none r).symm
    empty := fun _ hout => absurd rfl (hout _ _ _ _)
    abort := fun r _ hr' => absurd (hr.symm.trans hr') (Option.some_ne_none r).symm
    outside := fun r hr' => absurd (hr.symm.trans hr') (Option.some_ne_none r).symm }

/-! ## The handler -/

theorem handlerOp (h : KpOrder m s) {lp : Nat} {op : HandlerOp T M}
    (hs : s.handlerOp m lp op = .ok s') : KpOrder m s' := by
  cases op with
  | eventNew destGid offsetTs prio msg => exact h.twEventNewUserPrio hs
  | eventSend i => exact h.twEventSend hs
  | lpSuspend doOrigEventRc =>
      cases hs
      exact h.setLp _ _
  | triggerGvtHookNow =>
      rcases twTriggerGvtHookNow_ok hs with rfl | ⟨-, rfl⟩
      · exact h
      · exact h.same (fun _ => rfl) rfl rfl rfl rfl rfl rfl

/-- The next call of the same handler. -/
theorem handlerNext (h : KpOrder m s) {kind : BatchKind} {left lp : Nat}
    {ops ops' : List (HandlerOp T M)} (hp : s.phase = .handler kind left lp ops) :
    KpOrder m { s with phase := .handler kind left lp ops' } :=
  h.frame (fun _ => rfl) rfl rfl (fun _ he => .inl he)
    (iff_of_false (fun ho => ho _ _ _ _ rfl) fun ho => ho _ _ _ _ hp) (fun _ => rfl)
    (fun hr => hr) fun r hr => ⟨r, hr, rfl, rfl⟩

/-- The handler of a batch returns: the condition rules out that its event is
undone over two or more processed events of its KP. -/
theorem handlerReturn (h : KpOrder m s) {kind : BatchKind} {left lp : Nat} {cev : TwEvent T}
    {expired : Bool} (hp : s.phase = .handler kind left lp []) (hr : s.rollback = none)
    (hc : s.curEvent = some cev)
    (hok : kind ≠ .conservative → s.cevAbort = true →
      (s.pevent (m.kpOf cev.destLp)).length ≤ 1)
    (hs : s.handlerReturn m kind left cev expired = .ok s') : KpOrder m s' := by
  obtain ⟨cev', hhand, hc', hl, hq⟩ := h.handler _ _ _ _ hp
  obtain rfl : cev = cev' := Option.some.inj (hc.symm.trans hc')
  have hempty : (s.queue .hand).erase cev = [] := by
    rw [hhand, List.erase_cons_head]
  have hproc := h.toKpSorted.process hhand hl hq
  rcases handlerReturn_ok hs with ⟨-, -, rfl⟩ | ⟨hk, ha, rfl⟩ | ⟨-, -, c, ph, hph, rfl⟩
  · refine of_sorted (h.toKpSorted.frame (fun _ => rfl) (fun _ hx => List.mem_of_mem_erase hx)
      rfl fun _ hx => .inl hx) (fun _ _ _ _ hp' => ?_) hr hempty
    cases hp'
  · refine of_rollback (s := { s with cevAbort := false }) ?_ hhand
      (.inr ⟨⟨kind, rfl⟩, hq, hok hk ha⟩) fun _ => .inr (hok hk ha)
    exact ⟨h.kp, h.sorted, h.last, h.pq, h.hand⟩
  · refine of_sorted ⟨hproc.kp, hproc.sorted, hproc.last, hproc.pq, hproc.hand⟩
      (fun _ _ _ _ hp' => ?_) hr hempty
    rcases hph with rfl | rfl <;> cases hp'

/-! ## GVT, fossil collection and the hook -/

theorem gvtStore (h : KpOrder m s) (hp : OutsideHandler s.phase) {gvt : TwEventSig T}
    (hs : s.gvtStore m gvt = .ok s') : KpOrder m s' := by
  obtain ⟨-, n, rfl⟩ := gvtStore_ok hs
  refine h.goto (fun _ => rfl) rfl rfl rfl rfl hp fun kind left lp ops hp' => ?_
  dsimp only at hp'
  split at hp' <;> cases hp'

/-- Fossil collection cuts the tail off the processed events of a KP. -/
theorem fossilStep (h : KpOrder m s) (hp : OutsideHandler s.phase) (hr : s.rollback = none)
    {kp : Nat} {children : List (TwEvent T)} (hs : s.fossilStep m kp children = .ok s') :
    KpOrder m s' := by
  rcases fossilStep_ok hs with ⟨c, cs, -, ⟨-, rfl⟩ | ⟨-, rfl⟩⟩ | ⟨-, e, -, hc⟩ |
    ⟨-, -, -, rfl⟩ | ⟨-, -, -, rfl⟩
  · exact h.goto (fun _ => rfl) rfl rfl rfl rfl hp fun _ _ _ _ hp' => by cases hp'
  · exact h.goto (fun _ => rfl) rfl rfl rfl rfl hp fun _ _ _ _ hp' => by cases hp'
  · rcases commitEvent_ok hc with ⟨-, rfl⟩ | ⟨-, -, c, -, rfl⟩ <;>
      exact h.goto (fun _ => rfl) rfl rfl rfl rfl hp fun _ _ _ _ hp' => by cases hp'
  · refine of_sorted (h.toKpSorted.sublist (fun k => ?_) rfl rfl rfl)
      (fun _ _ _ _ hp' => ?_) hr (h.empty hr hp)
    · show ((s.cutPevent kp).queue (.peventQ k)).Sublist (s.queue (.peventQ k))
      by_cases hk : k = kp
      · subst hk
        rw [cutPevent_self]
        conv_rhs => rw [← fossilCut_append s.gvtSig (s.queue (.peventQ k))]
        exact List.sublist_append_left _ _
      · rw [cutPevent_of_ne s hk]
    · cases hp'
  · exact h.goto (fun _ => rfl) rfl rfl rfl rfl hp fun _ _ _ _ hp' => by cases hp'

theorem setTrigger (h : KpOrder m s) (t : GvtHookTrigger T) :
    KpOrder m { s with trigger := t } :=
  h.same (fun _ => rfl) rfl rfl rfl rfl rfl rfl

theorem callHook (h : KpOrder m s) (hp : OutsideHandler s.phase)
    (hs : s.callHook m = .ok s') : KpOrder m s' := by
  rcases callHook_ok hs with rfl | ⟨-, -, rfl⟩ <;>
    exact h.goto (fun _ => rfl) rfl rfl rfl rfl hp fun _ _ _ _ hp' => by cases hp'

theorem afterReduction (h : KpOrder m s) (hp : OutsideHandler s.phase) {r : Reduction}
    {flag : Bool} (hs : s.afterReduction m r flag = .ok s') : KpOrder m s' := by
  rcases afterReduction_ok hs with ⟨-, -, t, hcall⟩ | ⟨-, -, rfl⟩ | ⟨-, -, rfl⟩ | ⟨-, -, rfl⟩
  · exact (h.setTrigger t).callHook hp hcall
  all_goals exact h.goto (fun _ => rfl) rfl rfl rfl rfl hp fun _ _ _ _ hp' => by cases hp'

theorem hookStep (h : KpOrder m s) (hp : OutsideHandler s.phase) {i : Input T M}
    (hs : s.hookStep i = .ok s') : KpOrder m s' := by
  rcases hookStep_ok hs with ⟨-, -, t, rfl⟩ | ⟨-, rfl⟩ | ⟨-, rfl⟩
  · exact h.setTrigger t
  · exact h.goto (fun _ => rfl) rfl rfl rfl rfl hp fun _ _ _ _ hp' => by cases hp'
  · exact h.goto (fun _ => rfl) rfl rfl rfl rfl hp fun _ _ _ _ hp' => by cases hp'

/-! ## Calls -/

theorem call (h : KpOrder m s) (hp : OutsideHandler s.phase) {expired : Bool} {c : Call T}
    (hs : s.call m expired c = .ok s') : KpOrder m s' := by
  cases c with
  | gvtStep1 =>
      obtain ⟨n, b, hg, -⟩ := gvtStep1_frame (m := m) s
      cases hs
      rw [hg]
      exact h.same (fun _ => rfl) rfl rfl rfl rfl rfl rfl
  | gvtStep1Realtime =>
      obtain ⟨n, b, hg, -⟩ := gvtStep1Realtime_frame (m := m) s expired
      cases hs
      rw [hg]
      exact h.same (fun _ => rfl) rfl rfl rfl rfl rfl rfl
  | gvtStep2 =>
      cases hs
      split
      · exact h.goto (fun _ => rfl) rfl rfl rfl rfl hp fun _ _ _ _ hp' => by cases hp'
      · exact h
  | gvtHookStep =>
      rcases gvtHookStep_ok hs with rfl | rfl | rfl | ⟨-, hc⟩
      · exact h
      · exact h.goto (fun _ => rfl) rfl rfl rfl rfl hp fun _ _ _ _ hp' => by cases hp'
      · exact h.goto (fun _ => rfl) rfl rfl rfl rfl hp fun _ _ _ _ hp' => by cases hp'
      · exact h.callHook hp hc
  | optimisticTail | optimisticRealtimeTail | conservativeTail =>
      cases hs
      split
      · exact h
      · exact h.same (fun _ => rfl) rfl rfl rfl rfl rfl rfl
  | netRead | gvtStep2AndHook | rollbackAndCancelEventsPe | cleanupLoop | gvtStatusOn
  | schedulerOptimistic | schedulerOptimisticRealtime | schedulerConservative =>
      cases hs
      exact h.same (fun _ => rfl) rfl rfl rfl rfl rfl rfl
  | initLp | preRunLp | schedEventQ | schedCancelQ | schedBatch | schedBatchRealtime
  | conservativeBatch | kpRollbackToSig | cleanupTest | hookReturn =>
      cases hs
      exact h.goto (fun _ => rfl) rfl rfl rfl rfl hp fun _ _ _ _ hp' => by cases hp'

end KpOrder

/-! ## Runs -/

/-- The next step undoes, because `cev_abort` is set, the event of a handler
whose KP has two or more processed events. -/
def UndoesOverProcessed (m : SimModel T S M R) (s : Pe T S M R) : Prop :=
  s.net = .off ∧ s.rollback = none ∧ s.cevAbort = true ∧
    ∃ kind left lp cev, kind ≠ .conservative ∧ s.phase = .handler kind left lp [] ∧
      s.curEvent = some cev ∧ 2 ≤ (s.pevent (m.kpOf cev.destLp)).length

theorem kpOrder_start (id : Nat) (program : List (Call T)) :
    KpOrder m (Pe.start m id program) :=
  KpOrder.of_sorted
    ⟨fun _ p hp => absurd hp List.not_mem_nil, fun _ => List.Pairwise.nil,
      fun _ p hp => absurd hp List.not_mem_nil, fun _ _ p hp => absurd hp List.not_mem_nil,
      fun _ _ p hp => absurd hp List.not_mem_nil⟩
    (fun _ _ _ _ hp => by cases hp) rfl rfl

/-- A step keeps the order of the processed events unless it undoes an event over
two or more processed ones. -/
theorem kpOrder_step {s s' : Pe T S M R} (h : KpOrder m s) {i : Input T M}
    (hok : ¬ s.UndoesOverProcessed m) (hs : s.step m i = .ok s') : KpOrder m s' := by
  have hturn := step_turn hs
  clear hs
  cases hturn with
  | recv hn hp hs =>
      refine KpOrder.recvFinish (s := { s with net := .testRecvs true }) ?_ hs
      exact h.same (fun _ => rfl) rfl rfl rfl rfl rfl rfl
  | testRecvs hn hs => exact hs ▸ h.same (fun _ => rfl) rfl rfl rfl rfl rfl rfl
  | sent hn he hs =>
      refine KpOrder.sendFinish (s := { s with net := _ }) ?_ hs
      exact h.same (fun _ => rfl) rfl rfl rfl rfl rfl rfl
  | testSends hn hs => exact hs ▸ h.same (fun _ => rfl) rfl rfl rfl rfl rfl rfl
  | recvBegin hn hs => exact h.recvBegin hs
  | sendBegin hn hs => exact hs ▸ h.sendBegin _ _
  | rollback hn hr hs => exact h.rollbackStep hr hs
  | call hat ht hs =>
      refine KpOrder.call (s := { s with todo := _ }) ?_ ?_ hs
      · exact h.same (fun _ => rfl) rfl rfl rfl rfl rfl rfl
      · exact fun _ _ _ _ hp => by cases hat.2.2.symm.trans hp
  | outerCall hat ht hs => exact h.call (fun _ _ _ _ hp => by cases hat.2.2.symm.trans hp) hs
  | eventQ hat hs => exact h.schedEventQ (fun _ _ _ _ hp => by cases hat.2.2.symm.trans hp) hs
  | eventQRollback hat hs =>
      exact h.schedStraggler (fun _ _ _ _ hp => by cases hat.2.2.symm.trans hp) hat.2.1 hs
  | cancelQ hat hs =>
      exact h.schedCancelQ (fun _ _ _ _ hp => by cases hat.2.2.symm.trans hp) hs
  | cancelQRollback hat hs =>
      exact h.kpRollbackEvent (fun _ _ _ _ hp => by cases hat.2.2.symm.trans hp) hat.2.1 hs
  | rollbackToSig hat hs =>
      exact h.kpRollbackToSig (fun _ _ _ _ hp => by cases hat.2.2.symm.trans hp) hat.2.1 hs
  | rollbackToSigDone hat _ hs =>
      exact hs ▸ h.goto (fun _ => rfl) rfl rfl rfl rfl
        (fun _ _ _ _ hp => by cases hat.2.2.symm.trans hp) fun _ _ _ _ hp => by cases hp
  | batch hat hs =>
      exact h.batchStep (fun _ _ _ _ hp => by cases hat.2.2.symm.trans hp) hat.2.1 hs
  | handlerOp hat hs => exact (h.handlerNext hat.2.2).handlerOp hs
  | @handlerReturn kind left lp cev expired hat hc hs =>
      refine h.handlerReturn hat.2.2 hat.2.1 hc (fun hk ha => ?_) hs
      by_contra hlen
      exact hok ⟨hat.1, hat.2.1, ha, kind, left, lp, cev, hk, hat.2.2, hc, by omega⟩
  | initOp hat hs =>
      refine KpOrder.handlerOp (s := { s with phase := _ }) ?_ hs
      exact h.goto (fun _ => rfl) rfl rfl rfl rfl
        (fun _ _ _ _ hp => by cases hat.2.2.symm.trans hp) fun _ _ _ _ hp => by cases hp
  | initReturn hat _ hs =>
      exact hs ▸ h.goto (fun _ => rfl) rfl rfl rfl rfl
        (fun _ _ _ _ hp => by cases hat.2.2.symm.trans hp) fun _ _ _ _ hp => by cases hp
  | whiteLoop hat hs =>
      exact hs ▸ h.goto (fun _ => rfl) rfl rfl rfl rfl
        (fun _ _ _ _ hp => by cases hat.2.2.symm.trans hp) fun _ _ _ _ hp => by cases hp
  | @reduce r o hat hs =>
      have hp : OutsideHandler s.phase := fun _ _ _ _ hp => by cases hat.2.2.symm.trans hp
      rw [hs]
      cases o with
      | total white =>
          refine h.goto (fun _ => rfl) rfl rfl rfl rfl hp fun kind left lp ops hp' => ?_
          dsimp only [reduceDone] at hp'
          split at hp' <;> cases hp'
      | gvt sig => exact h.goto (fun _ => rfl) rfl rfl rfl rfl hp fun _ _ _ _ hp => by cases hp
      | flag b => exact h.goto (fun _ => rfl) rfl rfl rfl rfl hp fun _ _ _ _ hp => by cases hp
  | reduced hat hs =>
      exact h.afterReduction (fun _ _ _ _ hp => by cases hat.2.2.symm.trans hp) hs
  | gvtStore hat hs => exact h.gvtStore (fun _ _ _ _ hp => by cases hat.2.2.symm.trans hp) hs
  | fossil hat hs =>
      exact h.fossilStep (fun _ _ _ _ hp => by cases hat.2.2.symm.trans hp) hat.2.1 hs
  | hook hat hs => exact h.hookStep (fun _ _ _ _ hp => by cases hat.2.2.symm.trans hp) hs

/-- The state reached by a run of PE `id` from `start`, in which no step undoes an
event over two or more processed ones. -/
def OrderedRun (m : SimModel T S M R) (id : Nat) (program : List (Call T)) :
    Pe T S M R → Prop :=
  ReachableVia (· = Pe.start m id program) (fun a i b => a.step m i = .ok b)
    fun a _ => ¬ a.UndoesOverProcessed m

theorem kpOrder_of_run {id : Nat} {program : List (Call T)} {s : Pe T S M R}
    (hs : OrderedRun m id program s) : KpOrder m s :=
  hs.invariant (fun _ h => h ▸ kpOrder_start id program) fun _ _ _ h hok hst =>
    kpOrder_step h hok hst

/-- The signature of `e` is below that of a processed event of its KP. -/
def Straggler (m : SimModel T S M R) (s : Pe T S M R) (e : TwEvent T) : Prop :=
  ∃ p ∈ s.pevent (m.kpOf e.destLp), twEventSigComparePtr e.sig p.sig < 0

/-- A straggler is below the `last_sig` of its KP. -/
theorem KpOrder.lt_lastSig {s : Pe T S M R} (h : KpOrder m s) {e : TwEvent T}
    (he : s.Straggler m e) : e.sig < s.lastSig (m.kpOf e.destLp) := by
  obtain ⟨p, hp, hlt⟩ := he
  have hlt : e.sig < p.sig := twEventSigComparePtr_neg.mp hlt
  exact hlt.trans_le (h.last _ p hp)

/-- In every run in which no event is undone over two or more processed ones,
the processed events of a KP are in descending order under its `last_sig`, and a
straggler that arrives or is sent goes to `event_q`, from which it triggers a
rollback. -/
theorem processed_in_order {id : Nat} {program : List (Call T)} {s : Pe T S M R}
    (hs : OrderedRun m id program s) :
    (∀ k, (s.pevent k).Pairwise fun p q => 0 ≤ twEventSigComparePtr p.sig q.sig) ∧
      (∀ k, ∀ p ∈ s.pevent k, 0 ≤ twEventSigComparePtr (s.lastSig k) p.sig) ∧
      ∀ e, s.Straggler m e →
        (∀ src w s', s.received w = e → w.cancelQ = false → s.recvFinish m src w = .ok s' →
          s'.queue .pq = s.queue .pq ∧ e ∈ s'.queue .eventQ) ∧
        (∀ i msg s', s.handles[i]? = some (.buffer e msg) → m.map e.destLp = s.id →
          s.twEventSend m i = .ok s' →
          s'.queue .pq = s.queue .pq ∧ s.stamp e ∈ s'.queue .eventQ) ∧
        (∀ rest s', s.queue .evList = e :: rest → (s.ev e).cancelQ = false →
          s.schedEventQ m = .ok s' → s' = { s with phase := .eventQRollback }) := by
  have h := kpOrder_of_run hs
  refine ⟨fun k => ?_, fun k p hp => twEventSigComparePtr_nonneg.mpr (h.last k p hp),
    fun e he => ⟨fun src w s' hw hc hr => ?_, fun i msg s' hi hmap hsend => ?_,
      fun rest s' hq hc hst => ?_⟩⟩
  · exact (h.sorted k).imp fun hle => twEventSigComparePtr_nonneg.mpr hle
  · subst hw
    have hlt : w.ev.sig < s.lastSig (m.kpOf w.ev.destLp) := h.lt_lastSig he
    obtain ⟨-, ⟨hc', -⟩ | ⟨-, -, ⟨hle, -, -⟩ | ⟨-, rfl⟩⟩⟩ := recvFinish_ok hr
    · rw [hc] at hc'
      cases hc'
    · exact absurd hlt (not_lt.mpr hle)
    · have hmem : s.received w ∈ s.queue .eventQ ++ [s.received w] := by simp
      exact ⟨rfl, hmem⟩
  · have hlt := h.lt_lastSig he
    rcases twEventSend_ok hsend with ⟨hi', -⟩ | ⟨e', msg', hi', -, rfl⟩
    · rw [hi] at hi'
      cases hi'
    rw [hi] at hi'
    cases hi'
    rcases deliver_cases m (s.prepare i e msg) (s.stamp e) with
      ⟨-, hle, -⟩ | ⟨-, -, hd⟩ | ⟨hne, -⟩
    · exact absurd hlt (not_lt.mpr hle)
    · rw [hd]
      have hmem : s.stamp e ∈ s.queue .eventQ ++ [s.stamp e] := by simp
      exact ⟨rfl, hmem⟩
    · exact absurd hmap hne
  · have hlt := h.lt_lastSig he
    rcases schedEventQ_ok hst with ⟨cev, rest', hq', hcase⟩ | ⟨hnil, -⟩ | ⟨hnil, -⟩
    · obtain ⟨rfl, rfl⟩ := List.cons.inj (hq.symm.trans hq')
      rcases hcase with ⟨hc', -⟩ | ⟨-, -, ⟨-, rfl⟩ | ⟨hle, -⟩⟩
      · rw [hc] at hc'
        cases hc'
      · rfl
      · exact absurd hlt (not_lt.mpr hle)
    · rw [hq] at hnil
      cases hnil
    · rw [hq] at hnil
      cases hnil

/-- One LP that sends itself three events and, from the handler of the last one,
three more, on PE with six buffers. -/
def abortModel : SimModel Int Nat Nat Nat :=
  { quietModel with
    freeBuffers := 6
    init := fun lp st => (st, if lp = 0 then
      [.eventNew 0 1 1 0, .eventSend 0, .eventNew 0 2 1 0, .eventSend 1,
        .eventNew 0 3 1 1, .eventSend 2] else [])
    event := fun _ _ st cv msg => ⟨st, cv, msg, if msg = 1 then
      [.eventNew 0 1 1 0, .eventSend 0, .eventNew 0 1 1 0, .eventSend 1,
        .eventNew 0 1 1 0, .eventSend 2] else []⟩ }

/-- The events sent have pairwise distinct signatures, each above its parent's. -/
def DistinctCausal (s : Pe T S M R) : Prop :=
  (s.sent.map (·.sig)).Nodup ∧
    ∀ e ∈ s.sent, ∀ c ∈ (s.ev e).causedByMe, e.sig < c.sig

instance (s : Pe T S M R) : Decidable s.DistinctCausal :=
  inferInstanceAs (Decidable (_ ∧ _))

theorem processed_in_order_run :
    ∃ s, OrderedRun abortModel 0 (program abortModel 0) s ∧ 2 ≤ (s.pevent 0).length ∧
      ∀ p ∈ s.pevent 0, 0 ≤ twEventSigComparePtr (s.lastSig 0) p.sig := by
  have hrun : ∃ s, OrderedRun abortModel 0 (program abortModel 0) s ∧
      decide (2 ≤ (s.pevent 0).length) = true :=
    ReachableVia.exists_of_runList (fun a _ => !a.cevAbort) _ (List.replicate 40 (.tau false))
      (fun a _ hc hu => by simp [hu.2.2.1] at hc) (.start rfl) (by decide +kernel)
  obtain ⟨s, hs, ht⟩ := hrun
  exact ⟨s, hs, of_decide_eq_true ht, (processed_in_order hs).2.1 0⟩

/-- When the free buffers are used up over two processed events, `last_sig` is
put at the earlier of them: `tw_eventq_peek` gives the tail of `pevent_q`. -/
theorem abort_lowers_last_sig :
    ∃ s, Reachable (· = Pe.start abortModel 0 (program abortModel 0))
        (fun a i b => a.step abortModel i = .ok b) s ∧
      s.DistinctCausal ∧ ∃ p ∈ s.pevent 0, twEventSigComparePtr (s.lastSig 0) p.sig < 0 := by
  have hrun : ∃ s, Reachable (· = Pe.start abortModel 0 (program abortModel 0))
        (fun a i b => a.step abortModel i = .ok b) s ∧
      decide (s.DistinctCausal ∧
        ∃ p ∈ s.pevent 0, twEventSigComparePtr (s.lastSig 0) p.sig < 0) = true :=
    Reachable.exists_of_runList _ (List.replicate 50 (.tau false)) (.start rfl)
      (by decide +kernel)
  obtain ⟨s, hs, ht⟩ := hrun
  exact ⟨s, hs, of_decide_eq_true ht⟩

end Ross.Pe

import Ross.Proofs.Buffers
import Ross.Proofs.EventsInTime

/-!
# The floor under the events of a PE

While GVT is `low`, no PE has an event below it that is still to be processed, cancelled or sent,
and every event that it commits is below.
-/

namespace Ross

variable {T S M R : Type} [TwStime T]

/-- The queues of events that are still to be processed or sent. -/
def QueueId.isPending : QueueId → Bool
  | .pq | .eventQ | .evList | .outq | .postedSends | .hand => true
  | _ => false

/-- On which side of the floor the events of a queue are. -/
def QueueId.Respects (low : TwEventSig T) (q : QueueId) (e : TwEvent T) : Prop :=
  (q.isPending = true → low ≤ e.sig) ∧ (q = .fossil → e.sig < low)

/-- A bound of messages in transit: it is not below the floor, and there is none or it is before
the end of time. -/
def TwEventSig.Bounds (m : SimModel T S M R) (low sig : TwEventSig T) : Prop :=
  low ≤ sig ∧ (sig = maxSig ∨ sig.recvTs < m.tsEnd)

/-- The events of a PE over the floor `low`, and those under it. -/
structure Stock.Floor (m : SimModel T S M R) (low : TwEventSig T) (s : Stock T M) : Prop where
  queue : ∀ q, ∀ e ∈ s.queue q, q.Respects low e
  cancelQ : ∀ e ∈ s.cancelQ, low ≤ e.sig ∧ e.InTime m
  cancelList : ∀ e ∈ s.cancelList, low ≤ e.sig ∧ e.InTime m
  children : ∀ e, ∀ c ∈ (s.ev e).causedByMe, e.sig ≤ c.sig
  rollback : ∀ r, s.rollback = some r → ∀ c ∈ r.children, low ≤ c.sig
  trans : TwEventSig.Bounds m low s.transMsgSig
  commits : ∀ e ∈ s.commits, e.sig < low

/-- Every event of `event_q` is at or over `trans_msg_sig`. -/
def Stock.EventsFlushed (s : Stock T M) : Prop :=
  ∀ q, ∀ e ∈ s.queue q, q = .eventQ ∨ q = .evList → s.transMsgSig ≤ e.sig

/-- Every event of `cancel_q` is at or over `trans_msg_sig`. -/
def Stock.CancelsFlushed (s : Stock T M) : Prop :=
  (∀ e ∈ s.cancelQ, s.transMsgSig ≤ e.sig) ∧ ∀ e ∈ s.cancelList, s.transMsgSig ≤ e.sig

/-- The queues of processed events of the KP `kp`. -/
def QueueId.keeps (kp : Nat) : QueueId → Prop
  | .peventQ k => k = kp
  | .hand | .fossil => True
  | _ => False

/-- The event is processed, in hand or committed. -/
def Stock.Keeps (m : SimModel T S M R) (s : Stock T M) (e : TwEvent T) : Prop :=
  (∃ q, q.keeps (m.kpOf e.destLp) ∧ e ∈ s.queue q) ∨ e ∈ s.commits

/-- The events whose owner is their KP are kept. -/
def Stock.Kept (m : SimModel T S M R) (s : Stock T M) : Prop :=
  ∀ e, (s.ev e).owner = .kpPeventQ → s.Keeps m e

/-! ## Moves that keep the floor -/

namespace QueueId

variable {low : TwEventSig T} {q : QueueId} {e : TwEvent T}

/-- An event over the floor may stand in every queue but that of the events to commit. -/
theorem Respects.pending (hlow : low ≤ e.sig) (hne : q ≠ .fossil) : q.Respects low e :=
  ⟨fun _ => hlow, fun hf => absurd hf hne⟩

/-- Any event may stand in a queue that is neither. -/
theorem Respects.other (hp : q.isPending = false) (hne : q ≠ .fossil) : q.Respects low e :=
  ⟨fun hp' => absurd (hp.symm.trans hp') (by simp), fun hf => absurd hf hne⟩

end QueueId

namespace Stock.Floor

variable {m : SimModel T S M R} {s t : Stock T M} {low : TwEventSig T}

theorem above (h : s.Floor m low) {q : QueueId} {e : TwEvent T} (hp : q.isPending = true)
    (he : e ∈ s.queue q) : low ≤ e.sig := (h.queue q e he).1 hp

/-- The floor rises over nothing that is left to do. -/
theorem raise {low' : TwEventSig T} (h : s.Floor m low) (hle : low ≤ low')
    (hq : ∀ q, q.isPending = true → ∀ e ∈ s.queue q, low' ≤ e.sig)
    (hcancel : (∀ e ∈ s.cancelQ, low' ≤ e.sig) ∧ ∀ e ∈ s.cancelList, low' ≤ e.sig)
    (hr : s.rollback = none) (htrans : low' ≤ s.transMsgSig) : s.Floor m low' where
  queue q e he := ⟨fun hp => hq q hp e he, fun hf => ((h.queue q e he).2 hf).trans_le hle⟩
  cancelQ e he := ⟨hcancel.1 e he, (h.cancelQ e he).2⟩
  cancelList e he := ⟨hcancel.2 e he, (h.cancelList e he).2⟩
  children := h.children
  rollback r hr' := absurd (hr.symm.trans hr') (by simp)
  trans := ⟨htrans, h.trans.2⟩
  commits e he := (h.commits e he).trans_le hle

/-- An event is moved, and of the records of the events only one is written. -/
theorem moved (h : s.Floor m low) {x : TwEvent T} {st : EventState T M}
    (hq : ∀ q, ∀ e ∈ t.queue q, q.Respects low e) (hev : t.ev = Function.update s.ev x st)
    (hst : st.causedByMe = (s.ev x).causedByMe ∨ st.causedByMe = [])
    (hsame : (t.cancelQ, t.cancelList, t.rollback, t.transMsgSig, t.commits) =
      (s.cancelQ, s.cancelList, s.rollback, s.transMsgSig, s.commits)) : t.Floor m low := by
  simp only [Prod.mk.injEq] at hsame
  obtain ⟨hcancelQ, hlist, hroll, htrans, hcommits⟩ := hsame
  refine ⟨hq, hcancelQ ▸ h.cancelQ, hlist ▸ h.cancelList, ?_, hroll ▸ h.rollback,
    htrans ▸ h.trans, hcommits ▸ h.commits⟩
  rw [hev]
  rcases hst with hst | hst
  · exact Pe.chains_keep (P := fun x c => x.sig ≤ c.sig) h.children hst
  · exact Pe.chains_clear (P := fun x c => x.sig ≤ c.sig) h.children hst

/-- The next child of the event undone is cancelled. -/
theorem childCancelled (h : s.Floor m low) {r : Rollback T} {e : TwEvent T}
    {rest : List (TwEvent T)} {st : EventState T M} (hr : s.rollback = some r)
    (hc : r.children = e :: rest) (hq : ∀ q, ∀ e ∈ t.queue q, q.Respects low e)
    (hev : t.ev = Function.update s.ev e st) (hst : st.causedByMe = (s.ev e).causedByMe)
    (hcancel : ∀ c ∈ t.cancelQ, c ∈ s.cancelQ ∨ c = e ∧ e.InTime m)
    (htrans : TwEventSig.Bounds m low t.transMsgSig)
    (hsame : (t.cancelList, t.rollback, t.commits) =
      (s.cancelList, some { r with children := rest }, s.commits)) : t.Floor m low := by
  simp only [Prod.mk.injEq] at hsame
  obtain ⟨hlist, hroll, hcommits⟩ := hsame
  have hlow : ∀ c ∈ r.children, low ≤ c.sig := h.rollback r hr
  refine ⟨hq, fun c hcq => ?_, hlist ▸ h.cancelList, ?_, fun r' hr' c hcr => ?_, htrans,
    hcommits ▸ h.commits⟩
  · rcases hcancel c hcq with hold | ⟨rfl, hin⟩
    · exact h.cancelQ c hold
    · exact ⟨hlow c (hc ▸ List.mem_cons_self), hin⟩
  · rw [hev]
    exact Pe.chains_keep (P := fun x c => x.sig ≤ c.sig) h.children hst
  · rw [hroll] at hr'
    cases hr'
    exact hlow c (hc ▸ List.mem_cons_of_mem e hcr)

/-- The event `e` is taken up to be undone. -/
theorem undone (h : s.Floor m low) {e : TwEvent T} {st : EventState T M} {after : RollbackAfter}
    (hlow : low ≤ e.sig) (hq : ∀ q, ∀ e ∈ t.queue q, q.Respects low e)
    (hev : t.ev = Function.update s.ev e st) (hst : st.causedByMe = [])
    (hsame : (t.cancelQ, t.cancelList, t.rollback, t.transMsgSig, t.commits) =
      (s.cancelQ, s.cancelList, some ⟨e, (s.ev e).causedByMe, after⟩, s.transMsgSig, s.commits)) :
    t.Floor m low := by
  simp only [Prod.mk.injEq] at hsame
  obtain ⟨hcancelQ, hlist, hroll, htrans, hcommits⟩ := hsame
  refine ⟨hq, hcancelQ ▸ h.cancelQ, hlist ▸ h.cancelList, ?_, fun r hr c hc => ?_,
    htrans ▸ h.trans, hcommits ▸ h.commits⟩
  · rw [hev]
    exact Pe.chains_clear (P := fun x c => x.sig ≤ c.sig) h.children hst
  · rw [hroll] at hr
    cases hr
    exact hlow.trans (h.children e c hc)

end Stock.Floor

namespace Pe

variable {m : SimModel T S M R} {s s' : Pe T S M R} {low : TwEventSig T}

/-- What a step takes up is over the floor, and what it commits is under it. -/
structure TakesAbove (m : SimModel T S M R) (low : TwEventSig T) (s : Pe T S M R)
    (i : Input T M) : Prop where
  hand : ∀ r, s.rollback = some r → r.event ∈ s.queue .hand
  current : ∀ kind left lp ops cev, s.At (.handler kind left lp ops) → s.curEvent = some cev →
    cev ∈ s.queue .hand
  handles : ∀ lp op, s.Speaks lp op → ∀ e msg, .buffer e msg ∈ s.handles →
    low ≤ e.sig ∧ ∀ cev, s.curEvent = some cev → cev.sig ≤ e.sig
  recv : ∀ src w, i = .recv src w → low ≤ w.ev.sig ∧ w.ev.InTime m ∧
    ∀ c, s.hashT.find? (sameKey m w.ev) = some c → c.sig = w.ev.sig
  undo : ∀ kp e rest after, s.queue (.peventQ kp) = e :: rest → s.Undoes m kp e rest after →
    low ≤ e.sig
  cut : ∀ kp children, s.At (.fossilCollect kp children) →
    ∀ e ∈ (fossilCut s.gvtSig (s.queue (.peventQ kp))).2, e.sig < low

theorem transSig_bounds {sig : TwEventSig T} (h : TwEventSig.Bounds m low s.transMsgSig)
    (hlow : low ≤ sig) (hend : sig.recvTs < m.tsEnd) :
    TwEventSig.Bounds m low (s.transSig sig) := by
  unfold transSig
  split
  · rw [lowerSig_eq_min]
    rcases min_choice s.transMsgSig sig with heq | heq
    · rw [heq]
      exact h
    · rw [heq]
      exact ⟨hlow, .inr hend⟩
  · exact h

theorem Deed.floor {i : Input T M} (h : s.stock.Floor m low) (hmax : low ≤ maxSig)
    (ht : s.InTime m) (ha : s.TakesAbove m low i) (hd : Deed m s s' i) :
    s'.stock.Floor m low := by
  have hq : ∀ q, ∀ e ∈ s.queue q, q.Respects low e := h.queue
  have same : ∀ {t : Stock T M}, s'.stock = t → t.Floor m low → s'.stock.Floor m low := by
    rintro _ rfl hfloor
    exact hfloor
  have push : ∀ {q j : QueueId} {e x : TwEvent T}, j.Respects low x →
      ∀ k, ∀ y ∈ Pool.cons (Pool.remove s.queue q e) j x k, k.Respects low y := fun hx =>
    Pool.forall_cons (Pool.forall_remove hq) hx
  have append : ∀ {q j : QueueId} {e x : TwEvent T}, j.Respects low x →
      ∀ k, ∀ y ∈ Pool.snoc (Pool.remove s.queue q e) j x k, k.Respects low y := fun hx =>
    Pool.forall_snoc (Pool.forall_remove hq) hx
  -- A child that is cancelled is over the floor and lowers the bound of what is in transit.
  have child : ∀ {r : Rollback T} {e : TwEvent T} {rest : List (TwEvent T)},
      s.rollback = some r → r.children = e :: rest →
        low ≤ e.sig ∧ e.InTime m ∧ TwEventSig.Bounds m low (s.transSig e.sig) := by
    intro r e rest hr hc
    have hmem : e ∈ r.children := by simp [hc]
    have hlow := h.rollback r hr e hmem
    have hend := (ht.rollback r hr).2 e hmem
    exact ⟨hlow, hend, transSig_bounds h.trans hlow hend⟩
  have listed : ∀ {e : TwEvent T} {l : List (TwEvent T)}, s.cancelList = e :: l →
      ∀ x ∈ l, low ≤ x.sig ∧ x.InTime m := fun {e} {l} hl x hx =>
    h.cancelList x (show x ∈ s.cancelList by rw [hl]; exact List.mem_cons_of_mem e hx)
  have loaded : ∀ {e : TwEvent T} {l : List (TwEvent T)}, s.queue .evList = e :: l →
      ∀ x ∈ l, QueueId.Respects low .evList x := fun {e} {l} hl x hx =>
    hq _ x (by rw [hl]; exact List.mem_cons_of_mem e hx)
  cases hd with
  | none hst | raise _ _ hst | create _ _ hst | createAbort hst | init _ hst =>
      exact same hst { h with }
  | store _ _ hst => exact same hst { h with trans := ⟨hmax, .inl rfl⟩ }
  | @recvCancel src w c _ _ hc hst =>
      obtain ⟨hlow, hend, hsig⟩ := ha.recv src w rfl
      have hcancel : ∀ x, ∀ d ∈ (Function.update s.ev c
          { s.ev c with cancelQ := true, remote := false } x).causedByMe, x.sig ≤ d.sig :=
        chains_keep (P := fun x c => x.sig ≤ c.sig) h.children rfl
      refine same hst { h with
        cancelQ := ?_
        children := chains_keep (P := fun x c => x.sig ≤ c.sig) hcancel rfl
        trans := transSig_bounds h.trans hlow hend }
      intro e he
      rcases List.mem_cons.mp he with rfl | he
      · unfold TwEvent.InTime
        rw [hsig _ hc]
        exact ⟨hlow, hend⟩
      · exact h.cancelQ e he
  | @recvEvent src w o queue _ _ _ hqueue hst =>
      obtain ⟨hlow, hend, -⟩ := ha.recv src w rfl
      refine same hst { h with
        queue := ?_
        children := chains_clear (P := fun x c => x.sig ≤ c.sig) h.children rfl
        trans := transSig_bounds h.trans hlow hend }
      have hlow' : low ≤ (s.received w).sig := hlow
      rcases hqueue with ⟨-, -, -, rfl⟩ | ⟨-, rfl⟩
      · exact Pool.forall_cons hq (.pending hlow' (by simp))
      · exact Pool.forall_snoc hq (.pending hlow' (by simp))
  | recalled he _ _ hst =>
      exact same hst (h.moved (append (.pending (h.above rfl he) (by simp))) rfl (.inl rfl) rfl)
  | isend he hst =>
      have hlow := h.above rfl (List.mem_of_getLast? he)
      exact same hst (h.moved (append (.pending hlow (by simp))) rfl (.inl rfl) rfl)
  | keep _ _ _ _ hst | process _ _ _ _ hst =>
      exact same hst (h.moved (push (.other rfl (by simp))) rfl (.inl rfl) rfl)
  | sendFree _ _ hst | release _ _ hst | freeChild _ _ hst =>
      exact same hst (h.moved (Pool.forall_remove hq) rfl (.inl rfl) rfl)
  | sendAbort _ hst =>
      refine same hst { h with children := ?_ }
      intro x c hc
      obtain ⟨n, heq⟩ := increaseAbortedCount_ev s x
      dsimp only at hc
      rw [heq] at hc
      exact h.children x c hc
  | @send i lp e msg o queue sig _ hsp hi hqueue hst =>
      have hmem := List.mem_of_getElem? hi
      obtain ⟨hlow, hcur⟩ := ha.handles lp _ hsp e msg hmem
      have hlow' : low ≤ (s.stamp e).sig := hlow
      have htrans := transSig_bounds h.trans hlow (ht.handles e msg hmem)
      have hchains : ∀ x, ∀ c ∈ ((s.prepare i e msg).ev x).causedByMe, x.sig ≤ c.sig :=
        chains_prepare (P := fun x c => x.sig ≤ c.sig) h.children hcur
      have hkeep : ∀ x, ∀ c ∈ (Function.update (s.prepare i e msg).ev (s.stamp e)
          { (s.prepare i e msg).ev (s.stamp e) with owner := o } x).causedByMe, x.sig ≤ c.sig :=
        chains_keep (P := fun x c => x.sig ≤ c.sig) hchains rfl
      rcases hqueue with ⟨-, -, -, rfl, rfl⟩ | ⟨-, -, -, rfl, rfl⟩ | ⟨-, -, rfl, rfl⟩
      · exact same hst { h with
          queue := Pool.forall_cons hq (.pending hlow' (by simp))
          children := hkeep }
      · exact same hst { h with
          queue := Pool.forall_snoc hq (.pending hlow' (by simp))
          children := hkeep
          trans := htrans }
      · exact same hst { h with
          queue := Pool.forall_cons hq (.pending hlow' (by simp))
          children := hkeep
          trans := htrans }
  | dropOutq hr hc _ hst =>
      obtain ⟨-, -, htrans⟩ := child hr hc
      exact same hst (h.childCancelled hr hc (Pool.forall_remove hq) rfl rfl (fun _ => .inl)
        htrans rfl)
  | markAsend hr hc _ hst =>
      obtain ⟨-, -, htrans⟩ := child hr hc
      exact same hst (h.childCancelled hr hc hq rfl rfl (fun _ => .inl) htrans rfl)
  | antiMessage hr hc _ hst =>
      obtain ⟨hlow, -, htrans⟩ := child hr hc
      exact same hst (h.childCancelled hr hc (push (.pending hlow (by simp))) rfl rfl
        (fun _ => .inl) htrans rfl)
  | dropPq hr hc _ _ hst =>
      exact same hst (h.childCancelled hr hc (Pool.forall_remove hq) rfl rfl (fun _ => .inl)
        h.trans rfl)
  | cancelLocal hr hc _ _ hst =>
      obtain ⟨-, hend, htrans⟩ := child hr hc
      exact same hst (h.childCancelled hr hc hq rfl rfl
        (fun c hcq => (List.mem_cons.mp hcq).symm.imp_right fun heq => ⟨heq, hend⟩) htrans rfl)
  | @requeue r _ hr _ _ hst =>
      have hlow := h.above rfl (ha.hand r hr)
      exact same hst { h with
        queue := push (.pending hlow (by simp))
        children := chains_keep (P := fun x c => x.sig ≤ c.sig) h.children rfl
        rollback := nofun }
  | undoneFree _ _ _ hst =>
      exact same hst { h with
        queue := Pool.forall_remove hq
        children := chains_keep (P := fun x c => x.sig ≤ c.sig) h.children rfl
        rollback := nofun }
  | undo hkp hu hst =>
      have hlow := ha.undo _ _ _ _ hkp hu
      exact same hst (h.undone hlow
        (Pool.forall_cons (Pool.forall_update hq fun _ _ => .other rfl (by simp))
          (.pending hlow (by simp))) rfl rfl rfl)
  | abort hat hcur _ hst =>
      have hlow := h.above rfl (ha.current _ _ _ _ _ hat hcur)
      exact same hst (h.undone hlow hq rfl rfl rfl)
  | dropAnti _ hl _ hst =>
      exact same hst (h.moved (Pool.forall_cons (Pool.forall_update hq (loaded hl))
        (.other rfl (by simp))) rfl (.inl rfl) rfl)
  | @enqueue cev _ _ _ hl hst =>
      have hmem : cev ∈ s.queue .evList := by simp [hl]
      have hlow := h.above rfl hmem
      exact same hst (h.moved (Pool.forall_cons (Pool.forall_update hq (loaded hl))
        (.pending hlow (by simp))) rfl (.inl rfl) rfl)
  | loadEvents _ _ hst =>
      exact same hst { h with
        queue := Pool.forall_update (Pool.forall_update hq fun _ hx => absurd hx (by simp))
          fun x hx => .pending (h.above (q := .eventQ) rfl hx) (by simp) }
  | cancelFree _ hl _ _ hst =>
      exact same hst { h with
        queue := Pool.forall_remove hq
        cancelList := listed hl
        children := chains_keep (P := fun x c => x.sig ≤ c.sig) h.children rfl }
  | cancelProcessed _ hl _ _ hst => exact same hst { h with cancelList := listed hl }
  | loadCancel _ _ hst => exact same hst { h with cancelQ := nofun, cancelList := h.cancelQ }
  | start _ hcev hst =>
      have hlow := h.above rfl (pqLeast_some hcev).1
      exact same hst (h.moved (push (.pending hlow (by simp))) rfl (.inl rfl) rfl)
  | @commit kp e index _ _ he _ hst _ =>
      refine same hst { h with
        queue := Pool.forall_remove hq
        children := chains_clear (P := fun x c => x.sig ≤ c.sig) h.children rfl
        commits := ?_ }
      intro c hc
      rcases List.mem_append.mp hc with hc | hc
      · exact h.commits c hc
      · rw [List.mem_singleton.mp hc]
        exact (hq _ e (List.mem_of_getLast? he)).2 rfl
  | @cut kp _ hat _ hst =>
      refine same hst { h with queue := ?_ }
      exact Pool.forall_update (Pool.forall_update hq fun _ _ => .other rfl (by simp))
        fun e he => ⟨fun hp => absurd hp (by simp [QueueId.isPending]),
          fun _ => ha.cut kp [] hat e he⟩

/-! ## `event_q` and `cancel_q` while GVT is computed -/

theorem transSig_le (sig : TwEventSig T) : s.transSig sig ≤ s.transMsgSig := by
  unfold transSig
  split
  · rw [lowerSig_eq_min]
    exact min_le_left _ _
  · exact le_rfl

theorem transSig_le_self (hg : s.gvtCompute = true) (sig : TwEventSig T) :
    s.transSig sig ≤ sig := by
  unfold transSig
  rw [if_pos hg, lowerSig_eq_min]
  exact min_le_right _ _

/-- What joins `event_q` while GVT is computed lowers `trans_msg_sig`. -/
theorem Deed.eventsFlushed {i : Input T M} (h : s.stock.EventsFlushed)
    (hg : s.gvtCompute = true) (hn : ∀ gvt, ¬ s.At (.gvtStore gvt)) (hd : Deed m s s' i) :
    s'.stock.EventsFlushed := by
  have hq : ∀ q, ∀ e ∈ s.queue q, q = .eventQ ∨ q = .evList → s.transMsgSig ≤ e.sig := h
  have lower : ∀ {t : TwEventSig T}, t ≤ s.transMsgSig →
      ∀ q, ∀ e ∈ s.queue q, q = .eventQ ∨ q = .evList → t ≤ e.sig := fun ht q e he hor =>
    ht.trans (hq q e he hor)
  have other : ∀ {q : QueueId} {e : TwEvent T} {t : TwEventSig T}, q ≠ .eventQ → q ≠ .evList →
      q = .eventQ ∨ q = .evList → t ≤ e.sig := fun h₁ h₂ hor => absurd hor (by simp [h₁, h₂])
  have same : ∀ {t : Stock T M}, s'.stock = t →
      (∀ q, ∀ e ∈ t.queue q, q = .eventQ ∨ q = .evList → t.transMsgSig ≤ e.sig) →
      s'.stock.EventsFlushed := by
    rintro _ rfl ht
    exact ht
  cases hd with
  | store hat _ _ => exact absurd hat (hn _)
  | none hst | raise _ _ hst | create _ _ hst | createAbort hst | sendAbort _ hst | init _ hst
  | loadCancel _ _ hst => exact same hst hq
  | cancelProcessed _ _ _ _ hst => exact same hst hq
  | recvCancel _ _ _ hst | markAsend _ _ _ hst | cancelLocal _ _ _ _ hst =>
      exact same hst (lower (transSig_le _))
  | @recvEvent src w o queue _ _ _ hqueue hst =>
      refine same hst ?_
      have hself : s.transSig w.ev.sig ≤ (s.received w).sig := transSig_le_self hg _
      rcases hqueue with ⟨-, -, -, rfl⟩ | ⟨-, rfl⟩
      · exact Pool.forall_cons (lower (transSig_le _)) (other (by simp) (by simp))
      · exact Pool.forall_snoc (lower (transSig_le _)) fun _ => hself
  | recalled _ _ _ hst | isend _ hst =>
      exact same hst (Pool.forall_snoc (Pool.forall_remove hq) (other (by simp) (by simp)))
  | keep _ _ _ _ hst | process _ _ _ _ hst | start _ _ hst | requeue _ _ _ hst =>
      exact same hst (Pool.forall_cons (Pool.forall_remove hq) (other (by simp) (by simp)))
  | sendFree _ _ hst | dropPq _ _ _ _ hst | undoneFree _ _ _ hst | cancelFree _ _ _ _ hst
  | release _ _ hst | freeChild _ _ hst => exact same hst (Pool.forall_remove hq)
  | commit _ _ _ hst _ => exact same hst (Pool.forall_remove hq)
  | dropOutq _ _ _ hst => exact same hst (Pool.forall_remove (lower (transSig_le _)))
  | antiMessage _ _ _ hst =>
      exact same hst (Pool.forall_cons (Pool.forall_remove (lower (transSig_le _)))
        (other (by simp) (by simp)))
  | @send i lp e msg o queue sig _ _ _ hqueue hst =>
      refine same hst ?_
      have hself : s.transSig e.sig ≤ (s.stamp e).sig := transSig_le_self hg _
      rcases hqueue with ⟨-, -, -, rfl, rfl⟩ | ⟨-, -, -, rfl, rfl⟩ | ⟨-, -, rfl, rfl⟩
      · exact Pool.forall_cons hq (other (by simp) (by simp))
      · exact Pool.forall_snoc (lower (transSig_le _)) fun _ => hself
      · exact Pool.forall_cons (lower (transSig_le _)) (other (by simp) (by simp))
  | undo _ _ hst =>
      exact same hst (Pool.forall_cons
        (Pool.forall_update hq fun _ _ => other (by simp) (by simp)) (other (by simp) (by simp)))
  | abort _ _ _ hst => exact same hst hq
  | @dropAnti cev rest _ _ hl _ hst | @enqueue cev rest _ _ hl hst =>
      refine same hst (Pool.forall_cons (Pool.forall_update hq fun x hx hor => ?_)
        (other (by simp) (by simp)))
      exact hq _ x (by rw [hl]; exact List.mem_cons_of_mem cev hx) hor
  | loadEvents _ _ hst =>
      refine same hst (Pool.forall_update (Pool.forall_update hq fun x hx => ?_) fun x hx _ => ?_)
      · exact absurd hx (by simp)
      · exact hq _ x hx (.inl rfl)
  | cut _ _ hst =>
      exact same hst (Pool.forall_update
        (Pool.forall_update hq fun _ _ => other (by simp) (by simp))
        fun _ _ => other (by simp) (by simp))

/-- What joins `cancel_q` while GVT is computed lowers `trans_msg_sig`. -/
theorem Deed.cancelsFlushed {i : Input T M} (h : s.stock.CancelsFlushed)
    (hg : s.gvtCompute = true) (hn : ∀ gvt, ¬ s.At (.gvtStore gvt))
    (hrecv : ∀ src w, i = .recv src w → ∀ c, s.hashT.find? (sameKey m w.ev) = some c →
      c.sig = w.ev.sig) (hd : Deed m s s' i) : s'.stock.CancelsFlushed := by
  obtain ⟨hq, hl⟩ : (∀ e ∈ s.cancelQ, s.transMsgSig ≤ e.sig) ∧
    ∀ e ∈ s.cancelList, s.transMsgSig ≤ e.sig := h
  have lower : ∀ {t : TwEventSig T}, t ≤ s.transMsgSig →
      (∀ e ∈ s.cancelQ, t ≤ e.sig) ∧ ∀ e ∈ s.cancelList, t ≤ e.sig := fun ht =>
    ⟨fun e he => ht.trans (hq e he), fun e he => ht.trans (hl e he)⟩
  have same : ∀ {t : Stock T M}, s'.stock = t →
      ((∀ e ∈ t.cancelQ, t.transMsgSig ≤ e.sig) ∧ ∀ e ∈ t.cancelList, t.transMsgSig ≤ e.sig) →
      s'.stock.CancelsFlushed := by
    rintro _ rfl ht
    exact ht
  have rest : ∀ {e : TwEvent T} {l : List (TwEvent T)}, s.cancelList = e :: l →
      ∀ x ∈ l, s.transMsgSig ≤ x.sig := fun {e} {l} hl' x hx =>
    hl x (by rw [hl']; exact List.mem_cons_of_mem e hx)
  cases hd with
  | store hat _ _ => exact absurd hat (hn _)
  | none hst | raise _ _ hst | recalled _ _ _ hst | keep _ _ _ _ hst | sendFree _ _ hst
  | isend _ hst | create _ _ hst | createAbort hst | sendAbort _ hst | dropPq _ _ _ _ hst
  | requeue _ _ _ hst | undoneFree _ _ _ hst | undo _ _ hst | abort _ _ _ hst
  | dropAnti _ _ _ hst | enqueue _ _ hst | loadEvents _ _ hst | start _ _ hst | release _ _ hst
  | process _ _ _ _ hst | freeChild _ _ hst | cut _ _ hst | init _ hst => exact same hst ⟨hq, hl⟩
  | commit _ _ _ hst _ => exact same hst ⟨hq, hl⟩
  | recvEvent _ _ _ _ hst | dropOutq _ _ _ hst | markAsend _ _ _ hst | antiMessage _ _ _ hst =>
      exact same hst (lower (transSig_le _))
  | @recvCancel src w c _ _ hc hst =>
      obtain ⟨hq', hl'⟩ := lower (transSig_le (s := s) w.ev.sig)
      refine same hst ⟨fun e he => ?_, hl'⟩
      rcases List.mem_cons.mp he with rfl | he
      · rw [hrecv src w rfl _ hc]
        exact transSig_le_self hg _
      · exact hq' e he
  | @cancelLocal r e _ _ _ _ _ _ hst =>
      obtain ⟨hq', hl'⟩ := lower (transSig_le (s := s) e.sig)
      refine same hst ⟨fun c hc => ?_, hl'⟩
      rcases List.mem_cons.mp hc with rfl | hc
      · exact transSig_le_self hg _
      · exact hq' c hc
  | @send i lp e msg o queue sig _ _ _ hqueue hst =>
      refine same hst ?_
      rcases hqueue with ⟨-, -, -, -, rfl⟩ | ⟨-, -, -, -, rfl⟩ | ⟨-, -, -, rfl⟩
      · exact ⟨hq, hl⟩
      · exact lower (transSig_le _)
      · exact lower (transSig_le _)
  | cancelFree _ hl' _ _ hst => exact same hst ⟨hq, rest hl'⟩
  | cancelProcessed _ hl' _ _ hst => exact same hst ⟨hq, rest hl'⟩
  | loadCancel _ _ hst => exact same hst ⟨nofun, hq⟩

/-! ## The events of the KPs -/

end Pe

namespace Stock

variable {m : SimModel T S M R} {s t : Stock T M} {e x y : TwEvent T} {q j : QueueId}

section

omit [TwStime T]

/-- An event that stays in its queue is kept. -/
theorem Keeps.stay (h : s.Keeps m e) (hc : t.commits = s.commits)
    (hq : ∀ q, q.keeps (m.kpOf e.destLp) → e ∈ s.queue q → e ∈ t.queue q) : t.Keeps m e := by
  rcases h with ⟨q, hk, he⟩ | he
  · exact .inl ⟨q, hk, hq q hk he⟩
  · exact .inr (hc ▸ he)

/-- `fossilCut` moves the end of the list of a KP, while no events wait to be committed. -/
theorem Keeps.cut {kp : Nat} {keep fossil : List (TwEvent T)} (h : s.Keeps m e)
    (hf : s.queue .fossil = []) (hsplit : keep ++ fossil = s.queue (.peventQ kp))
    (hc : t.commits = s.commits) (hq : t.queue =
      Function.update (Function.update s.queue (.peventQ kp) keep) .fossil fossil) :
    t.Keeps m e := by
  rcases h with ⟨q, hk, he⟩ | he
  · by_cases hkp : q = .peventQ kp
    · rw [hkp, ← hsplit, List.mem_append] at he
      rcases he with he | he
      · exact .inl ⟨.peventQ kp, hkp ▸ hk, by simpa [hq] using he⟩
      · exact .inl ⟨.fossil, trivial, by simpa [hq] using he⟩
    · have hne : q ≠ .fossil := by
        rintro rfl
        rw [hf] at he
        cases he
      exact .inl ⟨q, hk, by simpa [hq, hkp, hne] using he⟩
  · exact .inr (hc ▸ he)

/-- An event of the loaded list, which keeps none, is moved on. -/
theorem Keeps.shift {l : List (TwEvent T)} (h : s.Keeps m e) (hc : t.commits = s.commits)
    (hq : t.queue = Pool.cons (Function.update s.queue .evList l) q x) : t.Keeps m e := by
  refine h.stay hc fun k hk he => ?_
  rw [hq]
  have hne : k ≠ .evList := by
    rintro rfl
    exact hk
  simp [hne, he]

end

/-- Another event is moved to the front of a queue. -/
theorem Keeps.cons (h : s.Keeps m e) (hc : t.commits = s.commits)
    (hq : t.queue = Pool.cons (Pool.remove s.queue q x) j y) (hne : e ≠ x) : t.Keeps m e := by
  refine h.stay hc fun k _ he => ?_
  rw [hq]
  exact Pool.mem_cons.mpr (.inr (Pool.mem_remove_of_ne hne he))

/-- Another event is moved to the end of a queue. -/
theorem Keeps.snoc (h : s.Keeps m e) (hc : t.commits = s.commits)
    (hq : t.queue = Pool.snoc (Pool.remove s.queue q x) j y) (hne : e ≠ x) : t.Keeps m e := by
  refine h.stay hc fun k _ he => ?_
  rw [hq]
  exact Pool.mem_snoc.mpr (.inr (Pool.mem_remove_of_ne hne he))

/-- Another event leaves its queue. -/
theorem Keeps.remove (h : s.Keeps m e) (hc : t.commits = s.commits)
    (hq : t.queue = Pool.remove s.queue q x) (hne : e ≠ x) : t.Keeps m e := by
  refine h.stay hc fun k _ he => ?_
  rw [hq]
  exact Pool.mem_remove_of_ne hne he

/-- The record of one event is written. -/
theorem Kept.write {st : EventState T M} (h : s.Kept m) (hev : t.ev = Function.update s.ev x st)
    (hother : ∀ e, e ≠ x → s.Keeps m e → t.Keeps m e)
    (hself : st.owner = .kpPeventQ → t.Keeps m x) : t.Kept m := by
  intro e ho
  rw [hev] at ho
  by_cases hx : e = x
  · rw [hx, Function.update_self] at ho
    exact hx ▸ hself ho
  · rw [Function.update_of_ne hx] at ho
    exact hother e hx (h e ho)

/-- The record of an event is written that no KP owns afterwards. -/
theorem Kept.disown {st : EventState T M} (h : s.Kept m) (hev : t.ev = Function.update s.ev x st)
    (ho : st.owner ≠ .kpPeventQ) (hother : ∀ e, e ≠ x → s.Keeps m e → t.Keeps m e) : t.Kept m :=
  h.write hev hother fun hown => absurd hown ho

/-- A record of an event is written, which was owned by its KP if it is now. -/
theorem Kept.rewrite {st : EventState T M} (h : s.Kept m) (hev : t.ev = Function.update s.ev x st)
    (ho : st.owner = .kpPeventQ → (s.ev x).owner = .kpPeventQ)
    (hother : ∀ e, s.Keeps m e → t.Keeps m e) : t.Kept m :=
  h.write hev (fun e _ => hother e) fun hown => hother x (h x (ho hown))

end Stock

namespace Pe

variable {m : SimModel T S M R} {s s' : Pe T S M R}

theorem Deed.kept {i : Input T M} (h : s.stock.Kept m) (hd : Deed m s s' i) :
    s'.stock.Kept m := by
  cases hd with
  | none hst | store _ _ hst | raise _ _ hst | create _ _ hst | createAbort hst | init _ hst
  | loadCancel _ _ hst =>
      rw [hst]
      exact h
  | cancelProcessed _ _ _ _ hst =>
      rw [hst]
      exact h
  | sendAbort _ hst =>
      rw [hst]
      intro e ho
      obtain ⟨n, heq⟩ := increaseAbortedCount_ev s e
      dsimp only at ho
      rw [heq] at ho
      exact h e ho
  | @recvCancel src w c _ _ _ hst =>
      rw [hst]
      have hcancel : Stock.Kept m { s.stock with
          ev := Function.update s.ev c { s.ev c with cancelQ := true, remote := false } } :=
        h.rewrite rfl (fun ho => ho) fun _ hk => hk
      exact hcancel.disown rfl (by simp) fun _ _ hk => hk
  | @recvEvent src w o queue _ _ _ hqueue hst =>
      rw [hst]
      have hqueue : o ≠ .kpPeventQ ∧ ∀ q, ∀ e ∈ s.queue q, e ∈ queue q := by
        rcases hqueue with ⟨-, -, rfl, rfl⟩ | ⟨rfl, rfl⟩
        · exact ⟨by simp, fun q e he => by simp [he]⟩
        · exact ⟨by simp, fun q e he => by simp [he]⟩
      exact h.disown rfl hqueue.1 fun e _ hk => hk.stay rfl fun q _ => hqueue.2 q e
  | recalled _ ho _ hst =>
      rw [hst]
      exact h.disown rfl (by simp [ho]) fun _ hne hk => hk.snoc rfl rfl hne
  | isend _ hst =>
      rw [hst]
      exact h.disown rfl (by split <;> simp) fun _ hne hk => hk.snoc rfl rfl hne
  | keep _ _ _ _ hst | requeue _ _ _ hst | start _ _ hst =>
      rw [hst]
      exact h.disown rfl (by simp) fun _ hne hk => hk.cons rfl rfl hne
  | sendFree _ _ hst | dropOutq _ _ _ hst | dropPq _ _ _ _ hst | undoneFree _ _ _ hst
  | cancelFree _ _ _ _ hst | release _ _ hst | freeChild _ _ hst =>
      rw [hst]
      exact h.disown rfl (by simp) fun _ hne hk => hk.remove rfl rfl hne
  | @send i lp e msg o queue sig _ _ _ hqueue hst =>
      rw [hst]
      have hqueue : o ≠ .kpPeventQ ∧ ∀ q, ∀ x ∈ s.queue q, x ∈ queue q := by
        rcases hqueue with ⟨-, -, rfl, rfl, -⟩ | ⟨-, -, rfl, rfl, -⟩ | ⟨-, rfl, rfl, -⟩
        · exact ⟨by simp, fun q x hx => by simp [hx]⟩
        · exact ⟨by simp, fun q x hx => by simp [hx]⟩
        · exact ⟨by simp, fun q x hx => by simp [hx]⟩
      intro x ho
      dsimp only at ho
      by_cases hx : x = s.stamp e
      · rw [hx, Function.update_self] at ho
        exact absurd ho hqueue.1
      · rw [Function.update_of_ne hx] at ho
        obtain ⟨st, hrec, heq⟩ := prepare_record s i e msg x
        rw [heq] at ho
        obtain ⟨-, rfl⟩ := hrec.resolve_left fun hn => hx hn.1
        exact (h x ho).stay rfl fun q _ => hqueue.2 q x
  | markAsend _ _ ho hst =>
      rw [hst]
      exact h.disown rfl (by simp [ho]) fun _ _ hk => hk
  | antiMessage _ _ ho hst =>
      rw [hst]
      exact h.disown rfl (by simp [ho]) fun _ hne hk => hk.cons rfl rfl hne
  | cancelLocal _ _ _ _ hst | abort _ _ _ hst =>
      rw [hst]
      exact h.rewrite rfl (fun ho => ho) fun _ hk => hk
  | @undo kp e rest after cv msg _ hkp hu hst =>
      rw [hst]
      refine h.write rfl (fun x hne hx => hx.stay rfl fun q _ hx => ?_) fun _ =>
        .inl ⟨.hand, trivial, by simp⟩
      refine Pool.mem_cons.mpr (.inr (Pool.mem_update.mpr ?_))
      have hx : x ∈ s.queue q := hx
      by_cases hq : q = .peventQ kp
      · rw [hq, hkp] at hx
        exact .inl ⟨hq, (List.mem_cons.mp hx).resolve_left hne⟩
      · exact .inr ⟨hq, hx⟩
  | dropAnti _ hl _ hst | enqueue _ hl hst =>
      rw [hst]
      exact h.disown rfl (by simp) fun _ _ hk => hk.shift rfl rfl
  | loadEvents _ _ hst =>
      rw [hst]
      intro e ho
      refine (h e ho).stay rfl fun q hk he => ?_
      have hne : q ≠ .evList ∧ q ≠ .eventQ := by
        constructor <;>
          · rintro rfl
            exact hk
      have he : e ∈ s.queue q := he
      simp [hne.1, hne.2, he]
  | @process kind left lp cev _ _ _ _ _ hst =>
      rw [hst]
      refine h.write rfl (fun e hne hk => hk.cons rfl rfl hne) fun _ => .inl
        ⟨.peventQ (m.kpOf cev.destLp), rfl, ?_⟩
      simp
  | @commit kp e index _ _ he _ hst _ =>
      rw [hst]
      refine h.write rfl (fun x hne hx => ?_) fun _ => .inr (by simp)
      rcases hx with ⟨q, hk, hx⟩ | hx
      · exact .inl ⟨q, hk, Pool.mem_remove_of_ne hne hx⟩
      · exact .inr (List.mem_append_left _ hx)
  | @cut kp _ _ hf hst =>
      rw [hst]
      exact fun e ho => (h e ho).cut hf (fossilCut_append s.gvtSig (s.queue (.peventQ kp))) rfl rfl

end Pe

end Ross

import Ross.Core.Serial
import Ross.Lib.Transition
import Ross.Proofs.Handler

/-!
# The sequential scheduler

`tw_scheduler_sequential` delivers every event that was sent, once, in the order
of signatures: while a handler runs at the signature `σ` nothing in the priority
queue, no `last_sig` and no new event is on the wrong side of `σ`, so that sends
take the fast path into the priority queue.
-/

namespace Ross

open Transition

variable {T S M R : Type} [TwStime T]

/-- Exact arithmetic of time. -/
structure ExactTime (T : Type) [TwStime T] : Prop where
  add_zero : ∀ a : T, a + 0 = a
  lt_add : ∀ {a b : T}, 0 < b → a < a + b
  zero_lt_one : (0 : T) < 1

/-- The event is created by `tw_event_new`, with the default priority. -/
def HandlerOp.isDefault : HandlerOp T M → Prop
  | .eventNew _ _ prio _ => prio = 1
  | _ => True

/-- All events of the model are created by `tw_event_new`. -/
structure SimModel.DefaultEvents (m : SimModel T S M R) : Prop where
  event : ∀ lp now st cv msg, ∀ op ∈ (m.event lp now st cv msg).ops, op.isDefault
  init : ∀ lp st, ∀ op ∈ (m.init lp st).2, op.isDefault
  preRun : ∀ lp st, ∀ op ∈ (m.preRun lp st).2, op.isDefault

/-! ## Signatures of new events -/

theorem zeroSig_le (hx : ExactTime T) {offsetTs u : T} (now : TwEventSig T) (h : 0 ≤ offsetTs) :
    zeroSig ≤ (⟨0 + offsetTs, 1, tieLineage now offsetTs u⟩ : TwEventSig T) := by
  apply le_of_lt
  rw [TwEventSig.lt_iff]
  rcases h.eq_or_lt with rfl | hpos
  · exact .inr ⟨(hx.add_zero 0).symm, .inl hx.zero_lt_one⟩
  · exact .inl (hx.lt_add hpos)

/-- An event of the default priority is above its creator of that priority. -/
theorem lt_child (hx : ExactTime T) {σ : TwEventSig T} {offsetTs u : T} (hσ : σ.priority = 1)
    (h : 0 ≤ offsetTs) :
    σ < (⟨σ.recvTs + offsetTs, 1, tieLineage σ offsetTs u⟩ : TwEventSig T) := by
  rw [TwEventSig.lt_iff]
  rcases h.eq_or_lt with rfl | hpos
  · refine .inr ⟨(hx.add_zero _).symm, .inr ⟨hσ, ?_⟩⟩
    exact lt_tieLineage_iff.mpr (.inl rfl)
  · exact .inl (hx.lt_add hpos)

/-! ## Handles and names -/

/-- The unsent buffer of a handler. -/
def Handle.unsent : Handle T M → Option Nat
  | .buffer e _ => some e.uid
  | _ => none

section

omit [TwStime T]

/-- Using up a pointer takes its unsent buffer off the list. -/
theorem unsent_set {l : List (Handle T M)} {i : Nat} {a : Handle T M} (h : l[i]? = some a)
    (o : Option (TwEvent T)) :
    (l.filterMap Handle.unsent).Perm
      (a.unsent.toList ++ (l.set i (.sent o)).filterMap Handle.unsent) := by
  have hsent : Handle.unsent (.sent o : Handle T M) = none := rfl
  induction l generalizing i with
  | nil => simp at h
  | cons b l ih =>
      cases i with
      | zero =>
          simp only [List.getElem?_cons_zero, Option.some.injEq] at h
          subst h
          rw [List.set_cons_zero, List.filterMap_cons_none hsent]
          cases hu : b.unsent with
          | none => rw [List.filterMap_cons_none hu]; rfl
          | some u => rw [List.filterMap_cons_some hu]; rfl
      | succ i =>
          simp only [List.getElem?_cons_succ] at h
          rw [List.set_cons_succ]
          cases hu : b.unsent with
          | none =>
              rw [List.filterMap_cons_none hu, List.filterMap_cons_none hu]
              exact ih h
          | some u =>
              rw [List.filterMap_cons_some hu, List.filterMap_cons_some hu]
              exact ((ih h).cons u).trans List.perm_middle.symm

theorem buffer_mem_of_set {l : List (Handle T M)} {i : Nat} {o : Option (TwEvent T)}
    {e : TwEvent T} {msg : M} (h : .buffer e msg ∈ l.set i (.sent o)) : .buffer e msg ∈ l := by
  rcases List.mem_or_eq_of_mem_set h with h | h
  · exact h
  · cases h

end

namespace Pe

variable {m : SimModel T S M R}

/-- The names given out: to events sent and to unsent buffers. -/
def serialNames (s : Pe T S M R) : List Nat :=
  s.sent.map (·.uid) ++ s.handles.filterMap Handle.unsent

/-- A handler of `lp` runs at the signature `σ`, for the events `l`, while the KPs
have the last signatures `last`. -/
structure Handling (m : SimModel T S M R) (σ : TwEventSig T) (lp : Nat)
    (last : Nat → TwEventSig T) (l : List (TwEvent T)) (s : Pe T S M R) : Prop where
  id : s.id = 0
  lastSig : s.lastSig = last
  now : last (m.kpOf lp) = σ
  last_le : ∀ kp, last kp ≤ σ
  cur : σ = zeroSig ∨ ∃ cev, s.curEvent = some cev ∧ cev.sig = σ ∧ σ.priority = 1
  pq : ∀ x ∈ s.queue .pq, σ ≤ x.sig ∧ x.sig.priority = 1 ∧ x.sig.recvTs < m.tsEnd
  handles : ∀ e msg, .buffer e msg ∈ s.handles →
    σ ≤ e.sig ∧ e.sig.priority = 1 ∧ e.sig.recvTs < m.tsEnd
  eventQ : s.queue .eventQ = []
  commits : s.commits.Pairwise (·.sig ≤ ·.sig) ∧ ∀ c ∈ s.commits, c.sig ≤ σ
  perm : (s.commits ++ (l ++ s.queue .pq)).Perm s.sent
  sentEnd : ∀ x ∈ s.sent, x.sig.recvTs < m.tsEnd
  nodup : s.serialNames.Nodup
  lt : ∀ u ∈ s.serialNames, u < s.nextUid

namespace Handling

variable {σ : TwEventSig T} {lp : Nat} {last : Nat → TwEventSig T} {l : List (TwEvent T)}
  {s s' : Pe T S M R}

/-- What a step that leaves the queues, `last_sig`, the current event, the
pointers and the history alone keeps. -/
theorem same (h : Handling m σ lp last l s) (hid : s'.id = s.id) (hl : s'.lastSig = s.lastSig)
    (hc : s'.curEvent = s.curEvent) (hq : s'.queue = s.queue) (hh : s'.handles = s.handles)
    (hs : s'.sent = s.sent) (hn : s'.nextUid = s.nextUid) (hk : s'.commits = s.commits) :
    Handling m σ lp last l s' := by
  have hnames : s'.serialNames = s.serialNames := by simp only [serialNames, hs, hh]
  refine ⟨?_, ?_, h.now, h.last_le, ?_, ?_, ?_, ?_, ?_, ?_, ?_, ?_, ?_⟩
  · rw [hid]; exact h.id
  · rw [hl]; exact h.lastSig
  · rw [hc]; exact h.cur
  · rw [hq]; exact h.pq
  · rw [hh]; exact h.handles
  · rw [hq]; exact h.eventQ
  · rw [hk]; exact h.commits
  · rw [hq, hs, hk]; exact h.perm
  · rw [hs]; exact h.sentEnd
  · rw [hnames]; exact h.nodup
  · rw [hnames, hn]; exact h.lt

/-- The signature of a new event is not below `σ`. -/
theorem le_newSig (hx : ExactTime T) (h : Handling m σ lp last l s) {offsetTs : T}
    (hoff : 0 ≤ offsetTs) : σ ≤ s.newSig m offsetTs lp 1 := by
  have hnow : s.twNow m lp = σ.recvTs := by
    unfold twNow
    rw [h.lastSig, h.now]
  unfold newSig
  rw [hnow]
  rcases h.cur with hz | ⟨cev, hcur, hsig, hprio⟩
  · rw [hz]
    exact zeroSig_le hx s.curSig hoff
  · have hcs : s.curSig = σ := by
      unfold curSig
      rw [hcur]
      exact hsig
    rw [hcs]
    exact (lt_child hx hprio hoff).le

theorem eventNew (hx : ExactTime T) (h : Handling m σ lp last l s) {destGid : Nat}
    {offsetTs : T} {msg : M} (hs : s.twEventNewUserPrio m destGid offsetTs lp 1 msg = .ok s') :
    Handling m σ lp last l s' := by
  obtain ⟨⟨hoff, -, -, -⟩, ⟨-, rfl⟩ | ⟨hend, -, rfl⟩⟩ := twEventNewUserPrio_ok hs
  · have hnames : List.filterMap Handle.unsent (s.handles ++ [.abort]) =
        s.handles.filterMap Handle.unsent := by
      rw [List.filterMap_append]
      exact List.append_nil _
    refine ⟨h.id, h.lastSig, h.now, h.last_le, h.cur, h.pq, fun e msg he => ?_, h.eventQ,
      h.commits, h.perm, h.sentEnd, ?_, ?_⟩
    · rcases List.mem_append.mp he with he | he
      · exact h.handles e msg he
      · cases List.mem_singleton.mp he
    · unfold serialNames
      dsimp only
      rw [hnames]
      exact h.nodup
    · unfold serialNames
      dsimp only
      rw [hnames]
      exact h.lt
  · have hsig := h.le_newSig hx hoff
    have hnames : ∀ msg, List.filterMap Handle.unsent (s.handles ++ [.buffer
          ⟨s.nextUid, s.newSig m offsetTs lp 1, 0, destGid, lp, s.id⟩ msg]) =
        s.handles.filterMap Handle.unsent ++ [s.nextUid] := by
      intro msg
      rw [List.filterMap_append]
      rfl
    refine ⟨h.id, h.lastSig, h.now, h.last_le, h.cur, h.pq, fun e msg he => ?_, h.eventQ,
      h.commits, h.perm, h.sentEnd, ?_, ?_⟩
    · rcases List.mem_append.mp he with he | he
      · exact h.handles e msg he
      · cases List.mem_singleton.mp he
        exact ⟨hsig, rfl, hend⟩
    · unfold serialNames
      dsimp only
      rw [hnames, ← List.append_assoc]
      refine h.nodup.append (List.nodup_singleton _) ?_
      intro u hu hu'
      have := h.lt u hu
      rw [List.mem_singleton.mp hu'] at this
      exact absurd this (lt_irrefl _)
    · unfold serialNames
      dsimp only
      rw [hnames, ← List.append_assoc]
      intro u hu
      rcases List.mem_append.mp hu with hu | hu
      · exact (h.lt u hu).trans (Nat.lt_succ_self _)
      · rw [List.mem_singleton.mp hu]
        exact Nat.lt_succ_self _

omit [TwStime T] in
/-- The names after a pointer is used up are those before. -/
theorem names_perm {i : Nat} {a : Handle T M} (hi : s.handles[i]? = some a)
    (o : Option (TwEvent T)) (s' : Pe T S M R) (hh : s'.handles = s.handles.set i (.sent o))
    (hs : s'.sent.map (·.uid) = s.sent.map (·.uid) ++ a.unsent.toList) :
    s'.serialNames.Perm s.serialNames := by
  unfold serialNames
  rw [hh, hs, List.append_assoc]
  exact ((unsent_set hi o).symm).append_left _

/-- A send takes the fast path into the priority queue. -/
theorem eventSend (hmap : ∀ l, m.map l = 0) (h : Handling m σ lp last l s) {i : Nat}
    (hs : s.twEventSend m i = .ok s') : Handling m σ lp last l s' := by
  rcases twEventSend_ok hs with ⟨hi, rfl⟩ | ⟨e, msg, hi, -, rfl⟩
  · have hnames : ∀ t : Pe T S M R, t.handles = s.handles.set i (.sent none) →
        t.sent = s.sent → t.serialNames.Perm s.serialNames := by
      intro t hh ht
      refine names_perm hi none t hh ?_
      rw [ht]
      exact (List.append_nil _).symm
    exact ⟨h.id, h.lastSig, h.now, h.last_le, h.cur, h.pq,
      fun e msg he => h.handles e msg (buffer_mem_of_set he), h.eventQ, h.commits, h.perm,
      h.sentEnd, (hnames _ (by rfl) (by rfl)).nodup_iff.mpr h.nodup,
      fun u hu => h.lt u ((hnames _ (by rfl) (by rfl)).mem_iff.mp hu)⟩
  · obtain ⟨hσ, hprio, hend⟩ := h.handles e msg (List.mem_of_getElem? hi)
    have hid : (s.prepare i e msg).id = 0 := h.id
    rcases deliver_cases m (s.prepare i e msg) (s.stamp e) with
      ⟨-, -, hd⟩ | ⟨-, hlt, -⟩ | ⟨hne, -⟩
    · have hnames := names_perm hi (some e) ((s.prepare i e msg).deliver m (s.stamp e))
        (by rw [hd]; rfl) (by rw [hd]; exact List.map_append)
      have hpq : ((s.prepare i e msg).deliver m (s.stamp e)).queue =
          Pool.cons s.queue .pq (s.stamp e) := by rw [hd]; rfl
      refine ⟨?_, ?_, h.now, h.last_le, ?_, ?_, ?_, ?_, ?_, ?_, ?_,
        hnames.nodup_iff.mpr h.nodup, fun u hu => ?_⟩
      · rw [hd]; exact h.id
      · rw [hd]; exact h.lastSig
      · rw [hd]; exact h.cur
      · intro x hx
        rw [hpq, Pool.cons_self] at hx
        rcases List.mem_cons.mp hx with rfl | hx
        · exact ⟨hσ, hprio, hend⟩
        · exact h.pq x hx
      · rw [hd]
        exact fun e msg he => h.handles e msg (buffer_mem_of_set he)
      · rw [hpq, Pool.cons_of_ne (by decide)]
        exact h.eventQ
      · rw [hd]; exact h.commits
      · have hsent : ((s.prepare i e msg).deliver m (s.stamp e)).sent = s.sent ++ [s.stamp e] := by
          rw [hd]
          rfl
        have hcommits : ((s.prepare i e msg).deliver m (s.stamp e)).commits = s.commits := by
          rw [hd]
          rfl
        rw [hpq, hsent, hcommits, Pool.cons_self, ← List.append_assoc]
        have hperm := h.perm
        rw [← List.append_assoc] at hperm
        exact List.perm_middle.trans ((hperm.cons _).trans (List.perm_append_singleton _ _).symm)
      · have hsent : ((s.prepare i e msg).deliver m (s.stamp e)).sent = s.sent ++ [s.stamp e] := by
          rw [hd]
          rfl
        intro x hx
        rw [hsent] at hx
        rcases List.mem_append.mp hx with hx | hx
        · exact h.sentEnd x hx
        · rw [List.mem_singleton.mp hx]
          exact hend
      · have hn : ((s.prepare i e msg).deliver m (s.stamp e)).nextUid = s.nextUid := by
          rw [hd]
          rfl
        rw [hn]
        exact h.lt u (hnames.mem_iff.mp hu)
    · have hle : (s.prepare i e msg).lastSig (m.kpOf (s.stamp e).destLp) ≤ σ := by
        rw [show (s.prepare i e msg).lastSig = last from h.lastSig]
        exact h.last_le _
      exact absurd (hle.trans hσ) (not_le.mpr hlt)
    · exact absurd ((hmap _).trans hid.symm) hne

theorem handlerOp (hx : ExactTime T) (hmap : ∀ l, m.map l = 0) (h : Handling m σ lp last l s)
    {op : HandlerOp T M} (hop : op.isDefault) (hs : s.handlerOp m lp op = .ok s') :
    Handling m σ lp last l s' := by
  cases op with
  | eventNew destGid offsetTs prio msg =>
      have hprio : prio = 1 := hop
      subst hprio
      exact h.eventNew hx hs
  | eventSend i => exact h.eventSend hmap hs
  | lpSuspend b =>
      cases hs
      exact h.same rfl rfl rfl rfl rfl rfl rfl rfl
  | triggerGvtHookNow =>
      rcases twTriggerGvtHookNow_ok hs with rfl | ⟨-, rfl⟩
      · exact h
      · exact h.same rfl rfl rfl rfl rfl rfl rfl rfl

theorem runOps (hx : ExactTime T) (hmap : ∀ l, m.map l = 0) {ops : List (HandlerOp T M)}
    (h : Handling m σ lp last l s) (hops : ∀ op ∈ ops, op.isDefault)
    (hs : s.runOps m lp ops = .ok s') : Handling m σ lp last l s' := by
  apply runOps_invariant m _ h hs
  intro s s' op hop hhand hstep
  exact hhand.handlerOp hx hmap (hops op hop) hstep

end Handling

/-! ## Turns -/

/-- What the start of a turn changes before the handler makes its calls. -/
theorem entered_frame (m : SimModel T S M R) (s : Pe T S M R) (cev : TwEvent T) :
    ∃ l f, (((s.twPqDeleteAny cev).unshift .hand cev).beginEvent m cev).enter m cev =
      { s with
        curEvent := some cev
        lastSig := Function.update s.lastSig (m.kpOf cev.destLp) cev.sig
        queue := Pool.cons (Pool.remove s.queue .pq cev) .hand cev
        lp := l
        ev := f
        handles := [] } := by
  have hd : ∃ f, (s.twPqDeleteAny cev).unshift .hand cev = { s with
      queue := Pool.cons (Pool.remove s.queue .pq cev) .hand cev, ev := f } := ⟨_, rfl⟩
  have hb : ∀ s : Pe T S M R, ∃ f, s.beginEvent m cev = { s with
      curEvent := some cev
      lastSig := Function.update s.lastSig (m.kpOf cev.destLp) cev.sig
      ev := f } := fun _ => ⟨_, rfl⟩
  have he : ∀ s : Pe T S M R, ∃ l f, s.enter m cev = { s with lp := l, ev := f, handles := [] } :=
    fun _ => ⟨_, _, rfl⟩
  obtain ⟨f, hd⟩ := hd
  rw [hd]
  obtain ⟨f, hb⟩ :=
    hb { s with queue := Pool.cons (Pool.remove s.queue .pq cev) .hand cev, ev := f }
  rw [hb]
  obtain ⟨l, f, he⟩ := he { s with
    queue := Pool.cons (Pool.remove s.queue .pq cev) .hand cev
    curEvent := some cev
    lastSig := Function.update s.lastSig (m.kpOf cev.destLp) cev.sig
    ev := f }
  exact ⟨l, f, he⟩

/-- What holds between two turns. -/
structure Between (m : SimModel T S M R) (s : Pe T S M R) : Prop where
  id : s.id = 0
  last : ∀ kp, ∀ x ∈ s.queue .pq, s.lastSig kp ≤ x.sig
  pq : ∀ x ∈ s.queue .pq, x.sig.priority = 1 ∧ x.sig.recvTs < m.tsEnd
  eventQ : s.queue .eventQ = []
  sorted : s.commits.Pairwise (·.sig ≤ ·.sig)
  below : ∀ c ∈ s.commits, ∀ x ∈ s.queue .pq, c.sig ≤ x.sig
  perm : (s.commits ++ s.queue .pq).Perm s.sent
  sentEnd : ∀ x ∈ s.sent, x.sig.recvTs < m.tsEnd
  nodup : s.serialNames.Nodup
  lt : ∀ u ∈ s.serialNames, u < s.nextUid

namespace Between

variable {s s' : Pe T S M R}

/-- The names stay unique when the pointers of the last handler are dropped. -/
theorem sent_names (h : Between m s) :
    (s.sent.map (·.uid)).Nodup ∧ ∀ u ∈ s.sent.map (·.uid), u < s.nextUid :=
  ⟨h.nodup.sublist (List.sublist_append_left _ _),
    fun u hu => h.lt u (List.mem_append_left _ hu)⟩

theorem same (h : Between m s) (hid : s'.id = s.id) (hl : s'.lastSig = s.lastSig)
    (hq : s'.queue = s.queue) (hh : s'.handles = s.handles) (hs : s'.sent = s.sent)
    (hn : s'.nextUid = s.nextUid) (hk : s'.commits = s.commits) : Between m s' := by
  have hnames : s'.serialNames = s.serialNames := by simp only [serialNames, hs, hh]
  constructor
  · rw [hid]; exact h.id
  · rw [hl, hq]; exact h.last
  · rw [hq]; exact h.pq
  · rw [hq]; exact h.eventQ
  · rw [hk]; exact h.sorted
  · rw [hk, hq]; exact h.below
  · rw [hk, hq, hs]; exact h.perm
  · rw [hs]; exact h.sentEnd
  · rw [hnames]; exact h.nodup
  · rw [hnames, hn]; exact h.lt

/-- The handler of the event dequeued starts at the signature of the event. -/
theorem begin (h : Between m s) {cev : TwEvent T} (hc : pqLeast (s.queue .pq) = some cev) :
    Handling m cev.sig cev.destLp (Function.update s.lastSig (m.kpOf cev.destLp) cev.sig) [cev]
      ((((s.twPqDeleteAny cev).unshift .hand cev).beginEvent m cev).enter m cev) := by
  obtain ⟨hmem, hmin⟩ := pqLeast_some hc
  obtain ⟨l, f, hs⟩ := entered_frame m s cev
  rw [hs]
  have hpq : Pool.cons (Pool.remove s.queue .pq cev) .hand cev .pq = (s.queue .pq).erase cev := by
    rw [Pool.cons_of_ne (by decide), Pool.remove_self]
  have hnames : s.sent.map (·.uid) ++ List.filterMap Handle.unsent ([] : List (Handle T M)) =
      s.sent.map (·.uid) := List.append_nil _
  have hprio := h.pq cev hmem
  refine ⟨h.id, rfl, Function.update_self .., fun kp => ?_, .inr ⟨cev, rfl, rfl, hprio.1⟩,
    fun x hx => ?_, fun e msg he => absurd he List.not_mem_nil, ?_,
    ⟨h.sorted, fun c hcm => h.below c hcm cev hmem⟩, ?_, h.sentEnd, ?_, ?_⟩
  · by_cases hk : kp = m.kpOf cev.destLp
    · rw [hk, Function.update_self]
    · rw [Function.update_of_ne hk]
      exact h.last kp cev hmem
  · dsimp only at hx
    rw [hpq] at hx
    have hx := List.mem_of_mem_erase hx
    exact ⟨hmin x hx, h.pq x hx⟩
  · dsimp only
    rw [Pool.cons_of_ne (by decide), Pool.remove_of_ne (by decide)]
    exact h.eventQ
  · dsimp only
    rw [hpq]
    exact ((List.perm_cons_erase hmem).symm.append_left _).trans h.perm
  · unfold serialNames
    dsimp only
    rw [hnames]
    exact h.sent_names.1
  · unfold serialNames
    dsimp only
    rw [hnames]
    exact h.sent_names.2

end Between

/-- After the handler the event is committed. -/
theorem Handling.finish {s : Pe T S M R} {cev : TwEvent T} {last : Nat → TwEventSig T}
    (h : Handling m cev.sig cev.destLp last [cev] s) : Between m (s.freeCommitted cev) := by
  have hq : ∀ q, q ≠ .hand → (s.freeCommitted cev).queue q = s.queue q :=
    fun q hne => Pool.remove_of_ne hne
  have hc : (s.freeCommitted cev).commits = s.commits ++ [cev] := rfl
  refine ⟨h.id, fun kp x hx => ?_, fun x hx => ?_, ?_, ?_, fun c hcm x hx => ?_, ?_,
    h.sentEnd, h.nodup, h.lt⟩
  · rw [hq .pq (by decide)] at hx
    rw [show (s.freeCommitted cev).lastSig = last from h.lastSig]
    exact (h.last_le kp).trans (h.pq x hx).1
  · rw [hq .pq (by decide)] at hx
    exact (h.pq x hx).2
  · rw [hq .eventQ (by decide)]
    exact h.eventQ
  · rw [hc]
    refine List.pairwise_append.mpr ⟨h.commits.1, List.pairwise_singleton _ _, fun a ha b hb => ?_⟩
    rw [List.mem_singleton.mp hb]
    exact h.commits.2 a ha
  · rw [hq .pq (by decide)] at hx
    rw [hc] at hcm
    rcases List.mem_append.mp hcm with hcm | hcm
    · exact (h.commits.2 c hcm).trans (h.pq x hx).1
    · rw [List.mem_singleton.mp hcm]
      exact (h.pq x hx).1
  · rw [hq .pq (by decide), hc, List.append_assoc]
    exact h.perm

/-! ## The start -/

theorem Handling.start (m : SimModel T S M R) (lp : Nat) :
    Handling m zeroSig lp (fun _ => zeroSig) [] (Pe.start m 0 []) where
  id := rfl
  lastSig := rfl
  now := rfl
  last_le _ := le_rfl
  cur := .inl rfl
  pq _ hx := absurd hx List.not_mem_nil
  handles _ _ h := absurd h List.not_mem_nil
  eventQ := rfl
  commits := ⟨.nil, fun _ h => absurd h List.not_mem_nil⟩
  perm := .nil
  sentEnd _ hx := absurd hx List.not_mem_nil
  nodup := .nil
  lt _ h := absurd h List.not_mem_nil

/-- The handler of one LP is called after that of another one. -/
theorem Handling.nextInit {s : Pe T S M R} {lp lp' : Nat} (l : Nat → TwLp T S R)
    (h : Handling m zeroSig lp (fun _ => zeroSig) [] s) :
    Handling m zeroSig lp' (fun _ => zeroSig) []
      { s with lp := l, curEvent := none, abortCausedByMe := [], handles := [] } := by
  have hsub : (s.sent.map (·.uid) ++ List.filterMap Handle.unsent ([] : List (Handle T M))).Sublist
      s.serialNames := List.Sublist.append_left (List.nil_sublist _) _
  exact ⟨h.id, h.lastSig, rfl, h.last_le, .inl rfl, h.pq, fun e msg he => absurd he
    List.not_mem_nil, h.eventQ, h.commits, h.perm, h.sentEnd, h.nodup.sublist hsub,
    fun u hu => h.lt u (hsub.subset hu)⟩

theorem initCall_handling (hx : ExactTime T) (hmap : ∀ l, m.map l = 0) {s s' : Pe T S M R}
    {lp lp' : Nat} {f : Nat → S → S × List (HandlerOp T M)}
    (hf : ∀ lp st, ∀ op ∈ (f lp st).2, op.isDefault)
    (h : Handling m zeroSig lp' (fun _ => zeroSig) [] s) (hs : s.initCall m lp f = .ok s') :
    Handling m zeroSig lp (fun _ => zeroSig) [] s' := by
  unfold initCall at hs
  dsimp only at hs
  split at hs
  next s₁ hr =>
    split at hs
    · cases hs
    · cases hs
      exact (h.nextInit _).runOps hx hmap (hf _ _) hr
  · cases hs

theorem initCalls_handling (hx : ExactTime T) (hmap : ∀ l, m.map l = 0) {s s' : Pe T S M R}
    {f : Nat → S → S × List (HandlerOp T M)} {lps : List Nat}
    (hf : ∀ lp st, ∀ op ∈ (f lp st).2, op.isDefault)
    (h : ∃ lp, Handling m zeroSig lp (fun _ => zeroSig) [] s)
    (hs : s.initCalls m f lps = .ok s') :
    ∃ lp, Handling m zeroSig lp (fun _ => zeroSig) [] s' := by
  induction lps generalizing s with
  | nil =>
      cases hs
      exact h
  | cons lp lps ih =>
      unfold initCalls at hs
      split at hs
      next s₁ hs₁ =>
        obtain ⟨lp', h⟩ := h
        exact ih ⟨lp, initCall_handling hx hmap hf h hs₁⟩ hs
      · cases hs

theorem Handling.between {s : Pe T S M R} {lp : Nat}
    (h : Handling m zeroSig lp (fun _ => zeroSig) [] s) : Between m s where
  id := h.id
  last kp x hx := by
    rw [h.lastSig]
    exact (h.pq x hx).1
  pq x hx := (h.pq x hx).2
  eventQ := h.eventQ
  sorted := h.commits.1
  below c hc x hx := (h.commits.2 c hc).trans (h.pq x hx).1
  perm := h.perm
  sentEnd := h.sentEnd
  nodup := h.nodup
  lt := h.lt

theorem serialStart_between (hx : ExactTime T) (hmap : ∀ l, m.map l = 0) (hd : m.DefaultEvents)
    {s : Pe T S M R} (hs : serialStart m = .ok s) : Between m s := by
  unfold serialStart at hs
  split at hs
  next s₁ hs₁ =>
    have h₁ := initCalls_handling hx hmap hd.init ⟨0, Handling.start m 0⟩ hs₁
    obtain ⟨lp, h⟩ := initCalls_handling hx hmap hd.preRun h₁ hs
    exact h.between
  · cases hs

/-! ## The loop -/

theorem gvtHookStepSeq_ok {s s' : Pe T S M R} {arm : Option (GvtHookTrigger T)}
    (h : s.gvtHookStepSeq m arm = .ok s') : ∃ t g, s' = { s with trigger := t, gvtSig := g } := by
  unfold gvtHookStepSeq at h
  split at h
  · split at h
    · cases h
      exact ⟨_, s.gvtSig, rfl⟩
    · split at h
      · cases h
        exact ⟨s.trigger, s.gvtSig, rfl⟩
      · split at h
        · cases h
        · cases h
          exact ⟨_, _, rfl⟩
  · cases h
    exact ⟨s.trigger, s.gvtSig, rfl⟩

/-- The loop ends on an empty queue or at the end of time, or it dequeues the
least event. -/
theorem nextEvent_ok {s s' : Pe T S M R} {arm : Option (GvtHookTrigger T)}
    {o : Option (TwEvent T)} (h : s.nextEvent m arm = .ok (o, s')) :
    ∃ t g, let s₁ : Pe T S M R := { s with trigger := t, gvtSig := g }
      (o = none ∧ s' = s₁ ∧ (s.queue .pq = [] ∨ m.tsEnd < s₁.twPqMinimumSig.recvTs)) ∨
        ∃ cev, o = some cev ∧ pqLeast (s.queue .pq) = some cev ∧
          s' = (s₁.twPqDeleteAny cev).unshift .hand cev := by
  unfold nextEvent at h
  split at h
  · cases h
  next s₁ hs₁ =>
    obtain ⟨t, g, rfl⟩ := gvtHookStepSeq_ok hs₁
    refine ⟨t, g, ?_⟩
    dsimp only
    split at h
    next hend =>
      cases h
      exact .inl ⟨rfl, rfl, .inr hend⟩
    · unfold twPqDequeue at h
      dsimp only at h
      cases hc : pqLeast (s.queue .pq) with
      | none =>
          rw [hc] at h
          cases h
          exact .inl ⟨rfl, rfl, .inl (pqLeast_eq_none.mp hc)⟩
      | some cev =>
          rw [hc] at h
          cases h
          exact .inr ⟨cev, rfl, rfl, rfl⟩

/-- A loop that ends leaves no event behind: those in the priority queue are
before the end of time. -/
theorem Between.pq_eq_nil {s : Pe T S M R} (h : Between m s)
    (hend : s.queue .pq = [] ∨ m.tsEnd < s.twPqMinimumSig.recvTs) : s.queue .pq = [] := by
  rcases hend with hend | hend
  · exact hend
  · cases hc : pqLeast (s.queue .pq) with
    | none => exact pqLeast_eq_none.mp hc
    | some e =>
        have hmin : s.twPqMinimumSig = e.sig := by
          unfold twPqMinimumSig
          rw [hc]
        rw [hmin] at hend
        exact absurd (h.pq e (pqLeast_some hc).1).2 hend.not_gt

end Pe

/-! ## Runs -/

namespace SerialModel

variable (m : SerialModel T S M R)

/-- A turn of `tw_scheduler_sequential`, in a state in which the loop goes on. -/
def sequentialStep (p : Bool × Pe T S M R) (arm : Option (GvtHookTrigger T)) :
    Except TwError (Bool × Pe T S M R) :=
  if p.1 then Pe.serialTurn m (Pe.sequentialBody m) p.2 arm else .error .notEnabled

/-- The states of the runs of `tw_scheduler_sequential`: the flag says whether
the loop goes on. -/
def SequentialRun : Bool × Pe T S M R → Prop :=
  Reachable (fun p => (Pe.serialStart m.toSimModel).map (Prod.mk true) = .ok p)
    fun p arm q => m.sequentialStep p arm = .ok q

variable {m}

/-- What holds in every state of a run. -/
def Delivering (m : SerialModel T S M R) (p : Bool × Pe T S M R) : Prop :=
  Pe.Between m.toSimModel p.2 ∧ (p.1 = false → p.2.queue .pq = [])

theorem sequentialBody_between (hx : ExactTime T) (hmap : ∀ l, m.map l = 0)
    (hd : m.toSimModel.DefaultEvents) {s s' : Pe T S M R} {cev : TwEvent T}
    (h : Pe.Between m.toSimModel s) (hc : pqLeast (s.queue .pq) = some cev)
    (hs : Pe.sequentialBody m ((s.twPqDeleteAny cev).unshift .hand cev) cev = .ok s') :
    Pe.Between m.toSimModel s' := by
  unfold Pe.sequentialBody at hs
  split at hs
  · cases hs
  next s₁ hf =>
    split at hs
    · cases hs
    · cases hs
      unfold Pe.forward at hf
      have h₁ := (h.begin hc).runOps hx hmap (fun op hop => hd.event _ _ _ _ _ op hop) hf
      have h₂ : Pe.Handling m.toSimModel cev.sig cev.destLp
          (Function.update s.lastSig (m.kpOf cev.destLp) cev.sig) [cev] (s₁.commitCall m cev) :=
        h₁.same rfl rfl rfl rfl rfl rfl rfl rfl
      exact h₂.finish

theorem serialTurn_delivering (hx : ExactTime T) (hmap : ∀ l, m.map l = 0)
    (hd : m.toSimModel.DefaultEvents) {s : Pe T S M R} {q : Bool × Pe T S M R}
    {arm : Option (GvtHookTrigger T)} (h : Pe.Between m.toSimModel s)
    (hs : Pe.serialTurn m (Pe.sequentialBody m) s arm = .ok q) : Delivering m q := by
  unfold Pe.serialTurn at hs
  split at hs
  · cases hs
  next s' hn =>
    cases hs
    obtain ⟨t, g, ⟨-, rfl, hend⟩ | ⟨cev, hc, -, -⟩⟩ := Pe.nextEvent_ok hn
    · have hb : Pe.Between m.toSimModel { s with trigger := t, gvtSig := g } :=
        h.same rfl rfl rfl rfl rfl rfl rfl
      exact ⟨hb, fun _ => hb.pq_eq_nil hend⟩
    · cases hc
  next cev s' hn =>
    obtain ⟨t, g, ⟨hc, -, -⟩ | ⟨cev', hc, hleast, rfl⟩⟩ := Pe.nextEvent_ok hn
    · cases hc
    · cases hc
      split at hs
      next s₂ hb =>
        cases hs
        have h₁ : Pe.Between m.toSimModel { s with trigger := t, gvtSig := g } :=
          h.same rfl rfl rfl rfl rfl rfl rfl
        exact ⟨sequentialBody_between hx hmap hd h₁ hleast hb, fun hf => by cases hf⟩
      · cases hs

theorem SequentialRun.delivering (hx : ExactTime T) (hmap : ∀ l, m.map l = 0)
    (hd : m.toSimModel.DefaultEvents) {p : Bool × Pe T S M R} (hp : m.SequentialRun p) :
    Delivering m p := by
  refine ReachableVia.invariant (fun p hp => ?_) (fun p arm q h _ hs => ?_) hp
  · cases hs : Pe.serialStart m.toSimModel with
    | error e =>
        rw [hs] at hp
        cases hp
    | ok s =>
        rw [hs] at hp
        cases hp
        exact ⟨Pe.serialStart_between hx hmap hd hs, fun hf => by cases hf⟩
  · unfold sequentialStep at hs
    split at hs
    · exact serialTurn_delivering hx hmap hd h.1 hs
    · cases hs

/-- An event before the end of time gets a buffer of its own, so that its send is
recorded. -/
theorem eventNew_sequential {m : SimModel T S M R} (hsyn : m.synch = .sequential)
    {s s' : Pe T S M R} {destGid lp : Nat} {offsetTs prio : T} {msg : M}
    (hs : s.twEventNewUserPrio m destGid offsetTs lp prio msg = .ok s')
    (hend : s.twNow m lp + offsetTs < m.tsEnd) :
    ∃ e, s'.handles = s.handles ++ [.buffer e msg] ∧
      e.sig = s.newSig m offsetTs lp prio ∧ e.destLp = destGid := by
  obtain ⟨-, ⟨hlost, -⟩ | ⟨-, -, rfl⟩⟩ := Pe.twEventNewUserPrio_ok hs
  · rcases hlost with hle | ⟨-, -, hne⟩
    · exact absurd hend hle.not_gt
    · exact absurd hsyn hne
  · exact ⟨_, rfl, rfl, rfl⟩

/-- The sequential scheduler delivers the events sent, each once and in the order
of signatures, and leaves none behind when it stops. -/
theorem sequential_delivers (hsyn : m.synch = .sequential) (hx : ExactTime T)
    (hmap : ∀ l, m.map l = 0) (hd : m.toSimModel.DefaultEvents) :
    (∀ (s s' : Pe T S M R) destGid lp offsetTs msg,
      s.twEventNewUserPrio m.toSimModel destGid offsetTs lp 1 msg = .ok s' →
      s.twNow m.toSimModel lp + offsetTs < m.tsEnd →
      ∃ e, s'.handles = s.handles ++ [.buffer e msg] ∧
        e.sig = s.newSig m.toSimModel offsetTs lp 1 ∧ e.destLp = destGid) ∧
    ∀ p, m.SequentialRun p →
      (p.2.commits.Pairwise fun a b => twEventSigComparePtr a.sig b.sig ≤ 0) ∧
      (p.2.commits.Pairwise fun a b => a.sig.recvTs ≤ b.sig.recvTs) ∧
      (p.2.commits.map (·.uid)).Nodup ∧
      (∀ e ∈ p.2.commits, e ∈ p.2.sent ∧ e.sig.recvTs < m.tsEnd) ∧
      (∀ e ∈ p.2.sent, e.sig.recvTs < m.tsEnd ∧
        (e ∈ p.2.commits ↔ e ∉ p.2.queue .pq)) ∧
      (p.1 = false → p.2.queue .pq = [] ∧ p.2.queue .eventQ = [] ∧ p.2.commits.Perm p.2.sent) := by
  refine ⟨fun s s' _ _ _ _ hs hend => eventNew_sequential hsyn hs hend, fun p hp => ?_⟩
  obtain ⟨h, hstop⟩ := hp.delivering hx hmap hd
  have hnodup : ((p.2.commits ++ p.2.queue .pq).map (·.uid)).Nodup :=
    (h.perm.map _).nodup_iff.mpr h.sent_names.1
  rw [List.map_append] at hnodup
  have hmem : ∀ e, e ∈ p.2.sent ↔ e ∈ p.2.commits ∨ e ∈ p.2.queue .pq := fun e => by
    rw [← h.perm.mem_iff, List.mem_append]
  have hends : ∀ e ∈ p.2.commits, e ∈ p.2.sent ∧ e.sig.recvTs < m.tsEnd := fun e he =>
    have hsent := (hmem e).mpr (.inl he)
    ⟨hsent, h.sentEnd e hsent⟩
  refine ⟨h.sorted.imp twEventSigComparePtr_nonpos.mpr,
    h.sorted.imp TwEventSig.recvTs_le_of_le, hnodup.of_append_left, hends, fun e he => ?_,
    fun hf => ?_⟩
  · refine ⟨h.sentEnd e he, fun hc hq => ?_, fun hq => ((hmem e).mp he).resolve_right hq⟩
    exact List.disjoint_of_nodup_append hnodup (List.mem_map_of_mem hc) (List.mem_map_of_mem hq)
  · have hq := hstop hf
    have hperm := h.perm
    rw [hq, List.append_nil] at hperm
    exact ⟨hq, h.eventQ, hperm⟩

/-- An LP whose every event sends it the next one, three time units later. -/
def tickModel : SerialModel Int Nat Nat Nat :=
  { quietModel with
    synch := .sequential
    npe := 1
    lps := fun _ => [0]
    map := fun _ => 0
    init := fun _ st => (st, [.eventNew 0 1 1 0, .eventSend 0])
    event := fun _ _ st cv msg => ⟨st + 1, cv, msg, [.eventNew 0 3 1 0, .eventSend 0]⟩
    commit := fun _ _ st _ _ => st }

theorem sequential_delivers_ticks :
    ∃ p, tickModel.SequentialRun p ∧ p.1 = false ∧ p.2.commits.length = 33 ∧
      p.2.commits.Pairwise fun a b => twEventSigComparePtr a.sig b.sig ≤ 0 := by
  have hrun : ∃ p, tickModel.SequentialRun p ∧
      decide (p.1 = false ∧ p.2.commits.length = 33) = true :=
    Reachable.exists_of_start _ (List.replicate 34 none) (by decide +kernel)
  obtain ⟨p, hp, ht⟩ := hrun
  obtain ⟨hstop, hlen⟩ := of_decide_eq_true ht
  have hx : ExactTime Int := ⟨Int.add_zero, fun h => Int.lt_add_of_pos_right _ h, Int.zero_lt_one⟩
  have hops : ∀ off, ∀ op ∈ [HandlerOp.eventNew 0 off 1 0, .eventSend 0],
      (op : HandlerOp Int Nat).isDefault := by
    intro off op hop
    rcases List.mem_cons.mp hop with rfl | hop
    · rfl
    · rw [List.mem_singleton.mp hop]
      trivial
  have hd : tickModel.toSimModel.DefaultEvents :=
    ⟨fun _ _ _ _ _ => hops 3, fun _ _ => hops 1, fun _ _ _ hop => absurd hop List.not_mem_nil⟩
  exact ⟨p, hp, hstop, hlen, ((sequential_delivers rfl hx (fun _ => rfl) hd).2 p hp).1⟩

end SerialModel

end Ross

import Ross.Proofs.Tiebreaker
import Mathlib.Data.Multiset.ZeroCons

/-!
# The events of a checkpoint made again

`io_load_events` pops the last event of `g_io_buffered_events` and creates it again.  An
event that is past the new end of time too is put back at the end of the same queue, where
the next turn finds it, so only the one popped last may be such an event.
-/

namespace Ross.IoPe

variable {T S M R : Type} [TwStime T]

variable {c : RioConfig} {m : SimModel T S M R} {s s' t : IoPe T S M R} {e : TwEvent T}

variable {A popped : List (TwEvent T)} {n : Nat}

/-! ## What the turns leave alone -/

/-- The current times stay, names are not used again and messages stay. -/
structure LoadFrame (s s' : IoPe T S M R) : Prop where
  lastSig : s'.pe.lastSig = s.pe.lastSig
  nextUid : s.pe.nextUid ≤ s'.pe.nextUid
  msg : ∀ x : TwEvent T, x.uid < s.pe.nextUid → (s'.pe.ev x).msg = (s.pe.ev x).msg

section

omit [TwStime T]

theorem LoadFrame.trans (h : LoadFrame s s') (h' : LoadFrame s' t) : LoadFrame s t where
  lastSig := h'.lastSig.trans h.lastSig
  nextUid := h.nextUid.trans h'.nextUid
  msg x hx := (h'.msg x (hx.trans_le h.nextUid)).trans (h.msg x hx)

theorem BetweenLoads.frame (h : BetweenLoads s s') : LoadFrame s s' := ⟨h.lastSig, h.nextUid, h.msg⟩

end

/-- The event `x` is `e` again, with the same offset, ends and message. -/
structure Recreates (s t : IoPe T S M R) (e x : TwEvent T) : Prop where
  recvTs : x.sig.recvTs = e.sig.recvTs
  destLp : x.destLp = e.destLp
  srcLp : x.srcLp = e.srcLp
  msg : (t.pe.ev x).msg = (s.pe.ev e).msg

theorem deliver_msg (s : Pe T S M R) (e x : TwEvent T) :
    ((s.deliver m e).ev x).msg = (s.ev x).msg := by
  by_cases hx : x = e
  · subst hx
    rcases Pe.deliver_cases m s x with ⟨-, -, hd⟩ | ⟨-, -, hd⟩ | ⟨-, hd⟩ <;>
    · rw [hd]
      dsimp only
      rw [Function.update_self]
  · rw [Counted.deliver_ev hx]

theorem deliver_frame (s : Pe T S M R) (e : TwEvent T) :
    (s.deliver m e).lastSig = s.lastSig ∧ (s.deliver m e).nextUid = s.nextUid ∧
      (s.deliver m e).sent = s.sent ∧ (s.deliver m e).abortEvent = s.abortEvent ∧
      (s.deliver m e).cevAbort = s.cevAbort := by
  rcases Pe.deliver_cases m s e with ⟨-, -, hd⟩ | ⟨-, -, hd⟩ | ⟨-, hd⟩ <;>
  · rw [hd]
    exact ⟨rfl, rfl, rfl, rfl, rfl⟩

/-- The copy of the bitfield changes nothing else. -/
theorem copyCv_frame (s : IoPe T S M R) (cv : BitVec 32) :
    LoadFrame s (s.copyCv cv) ∧ (s.copyCv cv).pe.sent = s.pe.sent ∧
      (s.copyCv cv).ioFree = s.ioFree ∧ (s.copyCv cv).ioBuffered = s.ioBuffered ∧
      ∀ x, ((s.copyCv cv).pe.ev x).msg = (s.pe.ev x).msg := by
  have hsame : LoadFrame s s := ⟨rfl, le_rfl, fun _ _ => rfl⟩
  unfold copyCv
  split
  next n _ _ =>
    split
    · have hmsg : ∀ x, ((s.pe.setEv n { s.pe.ev n with cv }).ev x).msg = (s.pe.ev x).msg := by
        intro x
        unfold Pe.setEv
        dsimp only
        by_cases hx : x = n
        · subst hx
          rw [Function.update_self]
        · rw [Function.update_of_ne hx]
      exact ⟨⟨rfl, le_rfl, fun x _ => hmsg x⟩, rfl, rfl, rfl, hmsg⟩
    · exact ⟨hsame, rfl, rfl, rfl, fun _ => rfl⟩
  · exact ⟨hsame, rfl, rfl, rfl, fun _ => rfl⟩

theorem copyCv_pe (s : IoPe T S M R) (cv : BitVec 32) :
    (s.copyCv cv).pe.nextUid = s.pe.nextUid ∧ (s.copyCv cv).pe.cevAbort = s.pe.cevAbort ∧
      (s.copyCv cv).pe.abortEvent = s.pe.abortEvent := by
  unfold copyCv
  split
  · split <;> exact ⟨rfl, rfl, rfl⟩
  · exact ⟨rfl, rfl, rfl⟩

/-! ## A turn -/

/-- At the start of a run the current time of every LP is 0. -/
def AtZero (m : SimModel T S M R) (s : IoPe T S M R) : Prop := ∀ lp, s.pe.twNow m lp = 0

theorem LoadFrame.atZero (h : LoadFrame s s') (hs : AtZero m s) : AtZero m s' := by
  intro lp
  unfold Pe.twNow
  rw [h.lastSig]
  exact hs lp

/-- The state in which a turn creates the event it has popped. -/
def poppedState (s : IoPe T S M R) (A : List (TwEvent T)) : IoPe T S M R :=
  { s with
    pe := { s.pe with curEvent := none, abortCausedByMe := [], handles := [] }
    ioBuffered := A }

theorem ioLoadEvent_parts (hA : s.ioBuffered = A ++ [e]) {x : TwEvent T}
    (h : s.ioLoadEvent c m = .ok (x, t)) : x = e ∧ ∃ s₁ s₂,
      (s.poppedState A).twEventNewUserPrio c m e.destLp e.sig.recvTs e.srcLp 1
        (s.pe.ev e).msg = .ok s₁ ∧
      twEventSend c { m with lookahead := 0 } { s₁ with ioFree := s₁.ioFree + 1 } 0 = .ok s₂ ∧
      s₂.pe.cevAbort = false ∧ t = s₂.copyCv (s.pe.ev e).cv := by
  unfold ioLoadEvent at h
  rw [hA, List.getLast?_concat, List.dropLast_concat] at h
  dsimp only at h
  split at h
  · cases h
  next s₁ h₁ =>
    split at h
    · cases h
    next s₂ h₂ =>
      split at h
      · cases h
      next hab =>
        cases h
        exact ⟨rfl, s₁, s₂, h₁, h₂, Bool.eq_false_iff.mpr hab, rfl⟩

/-- What a turn does with the event it has popped. -/
inductive Turned (m : SimModel T S M R) (s : IoPe T S M R) (A : List (TwEvent T)) (e : TwEvent T)
    (t : IoPe T S M R) : Prop
  | scheduled (n : TwEvent T) : e.sig.recvTs < m.tsEnd → Recreates s t e n →
      n.uid < t.pe.nextUid → t.pe.sent = s.pe.sent ++ [n] → t.ioBuffered = A →
      t.ioFree = s.ioFree + 1 → Turned m s A e t
  | kept (n : TwEvent T) : m.tsEnd ≤ e.sig.recvTs → 0 < s.ioFree → Recreates s t e n →
      s.pe.nextUid ≤ n.uid → n.uid < t.pe.nextUid → t.pe.sent = s.pe.sent →
      t.ioBuffered = A ++ [n] → t.ioFree = s.ioFree → Turned m s A e t
  | lost : m.tsEnd ≤ e.sig.recvTs → s.ioFree = 0 → t.pe.sent = s.pe.sent → t.ioBuffered = A →
      t.ioFree = 1 → Turned m s A e t

/-- The name of a new event is one that no event had. -/
theorem msg_of_fresh {s : Pe T S M R} {n : TwEvent T} {st : EventState T M}
    (hn : n.uid = s.nextUid) (x : TwEvent T) (hx : x.uid < s.nextUid) :
    (Function.update s.ev n st x).msg = (s.ev x).msg := by
  have hne : x ≠ n := by
    rintro rfl
    exact absurd hn hx.ne
  rw [Function.update_of_ne hne]

section Turn

variable {s₁ s₂ : IoPe T S M R} {sig : TwEventSig T} {msg : M} {d p : Nat}

/-- The event that the turn creates. -/
def made (s : IoPe T S M R) (sig : TwEventSig T) (d p : Nat) : TwEvent T :=
  ⟨s.pe.nextUid, sig, 0, d, p, s.pe.id⟩

/-- `tw_event_send` of an event within the new end of time. -/
theorem send_free (hin : sig.recvTs < m.tsEnd)
    (h₁ : s₁ = IoPe.writeNew
      { (s.poppedState A).draw m p with
        pe := { ((s.poppedState A).draw m p).pe with freeQ := s.pe.freeQ - 1 } }
      .free sig d p msg)
    (h : twEventSend c { m with lookahead := 0 } { s₁ with ioFree := s₁.ioFree + 1 } 0 = .ok s₂) :
    ∃ n : TwEvent T, n.uid = s.pe.nextUid ∧ n.sig = sig ∧ n.destLp = d ∧ n.srcLp = p ∧
      s₂.pe.sent = s.pe.sent ++ [n] ∧ (s₂.pe.ev n).msg = msg ∧ LoadFrame s s₂ ∧
      s₂.pe.nextUid = s.pe.nextUid + 1 ∧ s₂.ioBuffered = A ∧ s₂.ioFree = s.ioFree + 1 ∧
      s₂.pe.abortEvent = s.pe.abortEvent := by
  have hh : s₁.pe.handles[0]? = some (.buffer (s.made sig d p) msg) := by
    rw [h₁]
    rfl
  have hnot : ¬ (c.useRio = true ∧ m.tsEnd ≤ (s.made sig d p).sig.recvTs) := fun hc =>
    absurd hc.2 hin.not_ge
  unfold twEventSend at h
  dsimp only at h
  rw [hh] at h
  dsimp only at h
  rw [if_neg hnot] at h
  obtain ⟨pe, hpe, rfl⟩ := lift_ok h
  rcases Pe.twEventSend_ok hpe with ⟨hab, -⟩ | ⟨e, msg', he, -, rfl⟩
  · rw [hh] at hab
    cases hab
  rw [hh] at he
  cases he
  have hprep : (s₁.pe.prepare 0 (s.made sig d p) msg).ev =
      Function.update s.pe.ev (s₁.pe.stamp (s.made sig d p))
        ⟨.unowned, false, false, false, 0, msg, 0, []⟩ := by
    rw [h₁]
    rfl
  obtain ⟨hlast, hnext, hsent, habort, -⟩ := deliver_frame (m := { m with lookahead := 0 })
    (s₁.pe.prepare 0 (s.made sig d p) msg) (s₁.pe.stamp (s.made sig d p))
  refine ⟨s₁.pe.stamp (s.made sig d p), rfl, rfl, rfl, rfl, hsent.trans ?_, ?_, ⟨?_, ?_, ?_⟩, ?_,
    ?_, ?_, ?_⟩
  · rw [h₁]
    rfl
  · dsimp only
    rw [deliver_msg, hprep, Function.update_self]
  · rw [h₁] at hlast ⊢
    exact hlast
  · rw [h₁] at hnext ⊢
    exact hnext.ge.trans' (Nat.le_succ _)
  · intro x hx
    dsimp only
    rw [deliver_msg, hprep]
    exact msg_of_fresh rfl x hx
  · rw [h₁] at hnext ⊢
    exact hnext
  · rw [h₁]
    rfl
  · rw [h₁]
    rfl
  · rw [h₁] at habort ⊢
    exact habort

/-- `tw_event_send` of an event that has a buffer of RIO. -/
theorem send_rio (hc : c.Buffering) (hin : m.tsEnd ≤ sig.recvTs) (hf : 0 < s.ioFree)
    (h₁ : s₁ = IoPe.writeNew
      { (s.poppedState A).draw m p with ioFree := s.ioFree - 1 } .rio sig d p msg)
    (h : twEventSend c { m with lookahead := 0 } { s₁ with ioFree := s₁.ioFree + 1 } 0 = .ok s₂) :
    ∃ n : TwEvent T, n.uid = s.pe.nextUid ∧ n.sig = sig ∧ n.destLp = d ∧ n.srcLp = p ∧
      s₂.pe.sent = s.pe.sent ∧ (s₂.pe.ev n).msg = msg ∧ LoadFrame s s₂ ∧
      s₂.pe.nextUid = s.pe.nextUid + 1 ∧ s₂.ioBuffered = A ++ [n] ∧ s₂.ioFree = s.ioFree ∧
      s₂.pe.abortEvent = s.pe.abortEvent := by
  have hh : s₁.pe.handles[0]? = some (.buffer (s.made sig d p) msg) := by
    rw [h₁]
    rfl
  unfold twEventSend at h
  dsimp only at h
  rw [hh] at h
  dsimp only at h
  rw [if_pos ⟨hc.1, hin⟩] at h
  cases h
  refine ⟨s.made sig d p, rfl, rfl, rfl, rfl, ?_, ?_, ⟨?_, ?_, ?_⟩, ?_, ?_, ?_, ?_⟩
  · rw [h₁]
    rfl
  · rw [h₁]
    show (Function.update s.pe.ev (s.made sig d p) _ (s.made sig d p)).msg = msg
    rw [Function.update_self]
  · rw [h₁]
    rfl
  · rw [h₁]
    exact Nat.le_succ _
  · intro x hx
    rw [h₁]
    show (Function.update s.pe.ev (s.made sig d p) _ x).msg = _
    exact msg_of_fresh rfl x hx
  · rw [h₁]
    rfl
  · rw [h₁]
    rfl
  · rw [h₁]
    exact Nat.sub_add_cancel hf
  · rw [h₁]
    rfl

/-- `tw_event_send` of the abort event, which is past the end of time. -/
theorem send_abort
    (h₁ : s₁ = IoPe.writeNew ((s.poppedState A).draw m p) .abort sig d p msg)
    (h : twEventSend c { m with lookahead := 0 } { s₁ with ioFree := s₁.ioFree + 1 } 0 = .ok s₂)
    (hab : s₂.pe.cevAbort = false) :
    m.tsEnd ≤ sig.recvTs ∧ s₂.pe.sent = s.pe.sent ∧ LoadFrame s s₂ ∧
      s₂.ioBuffered = A ∧ s₂.ioFree = s.ioFree + 1 ∧ s₂.pe.abortEvent.sig = sig := by
  have hh : s₁.pe.handles[0]? = some .abort := by
    rw [h₁]
    rfl
  unfold twEventSend at h
  dsimp only at h
  rw [hh] at h
  dsimp only at h
  obtain ⟨pe, hpe, rfl⟩ := lift_ok h
  rcases Pe.twEventSend_ok hpe with ⟨-, rfl⟩ | ⟨e, msg', he, -⟩
  · subst h₁
    have hend : m.tsEnd ≤ sig.recvTs := by
      by_contra hlt
      exact absurd hab (ne_of_eq_of_ne (if_pos (not_le.mp hlt)) Bool.noConfusion)
    exact ⟨hend, rfl, ⟨rfl, le_rfl, fun _ _ => rfl⟩, rfl, rfl, rfl⟩
  · rw [hh] at he
    cases he

end Turn

theorem ioLoadEvent_turned (hc : c.Buffering) (hz : AtZero m s) (h0 : ∀ x : T, 0 + x = x)
    (hA : s.ioBuffered = A ++ [e]) {x : TwEvent T} (h : s.ioLoadEvent c m = .ok (x, t)) :
    x = e ∧ LoadFrame s t ∧ Turned m s A e t ∧ t.pe.cevAbort = false ∧
      (t.pe.abortEvent = s.pe.abortEvent ∨ m.tsEnd ≤ e.sig.recvTs ∧
        (e.sig.recvTs ≠ 0 → t.pe.abortEvent.sig.tieLineageLength = 1)) := by
  obtain ⟨rfl, s₁, s₂, hnew, hsend, hab, rfl⟩ := ioLoadEvent_parts hA h
  obtain ⟨hcopy, hcsent, hcfree, hcbuf, hcmsg⟩ := copyCv_frame s₂ (s.pe.ev x).cv
  obtain ⟨hcnext, hcab, hcev⟩ := copyCv_pe s₂ (s.pe.ev x).cv
  obtain ⟨kind, s₀, sig, hbuf, hsig, htie, hs₁⟩ := twEventNewUserPrio_ok hnew
  have hoff : (s.poppedState A).pe.twNow m x.srcLp + x.sig.recvTs = x.sig.recvTs := by
    rw [show (s.poppedState A).pe.twNow m x.srcLp = 0 from hz x.srcLp, h0]
  rw [hoff] at hbuf hsig
  refine ⟨rfl, ?_⟩
  rcases newBuffer_ok hbuf with ⟨rfl, -, hend, hfree, rfl⟩ | ⟨rfl, hno, rfl⟩ | ⟨rfl, hend, rfl⟩
  · rw [← hsig] at hend
    obtain ⟨n, huid, hns, hd, hp, hsent, hmsg, hfr, hnext, hb, hf, hev⟩ :=
      send_rio (s := s) hc hend hfree hs₁ hsend
    refine ⟨hfr.trans hcopy, .kept n (hsig ▸ hend) hfree ⟨?_, hd, hp, ?_⟩ huid.ge ?_ ?_ ?_ ?_,
      hcab.trans hab, .inl (hcev.trans hev)⟩
    · rw [hns, hsig]
    · rw [hcmsg, hmsg]
    · rw [hcnext, hnext, huid]
      exact Nat.lt_succ_self _
    · rw [hcsent, hsent]
    · rw [hcbuf, hb]
    · rw [hcfree, hf]
  · obtain ⟨hend, hsent, hfr, hb, hf, hev⟩ := send_abort (s := s) hs₁ hsend hab
    rw [hsig] at hend
    have hz : s.ioFree = 0 := hno hc hend
    refine ⟨hfr.trans hcopy, .lost hend hz ?_ ?_ ?_, hcab.trans hab, .inr ⟨hend, fun hoff => ?_⟩⟩
    · rw [hcsent, hsent]
    · rw [hcbuf, hb]
    · rw [hcfree, hf, hz]
    · rw [hcev, hev]
      exact htie hoff
  · rw [← hsig] at hend
    obtain ⟨n, huid, hns, hd, hp, hsent, hmsg, hfr, hnext, hb, hf, hev⟩ :=
      send_free (s := s) hend hs₁ hsend
    refine ⟨hfr.trans hcopy, .scheduled n (hsig ▸ hend) ⟨?_, hd, hp, ?_⟩ ?_ ?_ ?_ ?_,
      hcab.trans hab, .inl (hcev.trans hev)⟩
    · rw [hns, hsig]
    · rw [hcmsg, hmsg]
    · rw [hcnext, hnext, huid]
      exact Nat.lt_succ_self _
    · rw [hcsent, hsent]
    · rw [hcbuf, hb]
    · rw [hcfree, hf]

/-! ## The turns of a run -/

section

omit [TwStime T]

theorem Recreates.mono {x : TwEvent T} (h : Recreates s s' e x) (hf : LoadFrame s' t)
    (hx : x.uid < s'.pe.nextUid) : Recreates s t e x :=
  ⟨h.recvTs, h.destLp, h.srcLp, (hf.msg x hx).trans h.msg⟩

theorem Recreates.earlier {x : TwEvent T} (h : Recreates s' t e x) (hf : LoadFrame s s')
    (he : e.uid < s.pe.nextUid) : Recreates s t e x :=
  ⟨h.recvTs, h.destLp, h.srcLp, h.msg.trans (hf.msg e he)⟩

end

/-- A turn that goes on has popped an event. -/
theorem ioLoadEvent_concat (h : s.ioLoadEvent c m = .ok (e, s')) :
    ∃ A, s.ioBuffered = A ++ [e] := by
  rcases List.eq_nil_or_concat s.ioBuffered with hnil | ⟨A, x, hA⟩
  · unfold ioLoadEvent at h
    rw [hnil] at h
    cases h
  · rw [List.concat_eq_append] at hA
    obtain ⟨rfl, -⟩ := ioLoadEvent_parts hA h
    exact ⟨A, hA⟩

theorem loading_zero (h : Loading c m 0 s popped t) : popped = [] ∧ LoadFrame s t ∧
    t.pe.sent = s.pe.sent ∧ t.ioBuffered = s.ioBuffered := by
  generalize hn : 0 = n at h
  induction h with
  | done s => exact ⟨rfl, ⟨rfl, le_rfl, fun _ _ => rfl⟩, rfl, rfl⟩
  | turn => cases hn
  | net h₁ _ ih =>
      obtain ⟨hp, hf, hs, hb⟩ := ih hn
      exact ⟨hp, h₁.frame.trans hf, hs.trans h₁.sent, hb.trans h₁.ioBuffered⟩

/-- The event at the end of the queue is the next one popped. -/
theorem loading_pops_last (h : Loading c m n s popped t) (hn : n ≠ 0)
    (hA : s.ioBuffered = A ++ [e]) : e ∈ popped := by
  induction h with
  | done s => exact absurd rfl hn
  | turn h₁ _ _ =>
      obtain ⟨rfl, -⟩ := ioLoadEvent_parts hA h₁
      exact List.mem_cons_self
  | net h₁ _ ih => exact ih hn (h₁.ioBuffered.trans hA)

/-! ## Each event once -/

/-- The events of a queue that are to be scheduled. -/
def inTime (m : SimModel T S M R) (l : List (TwEvent T)) : List (TwEvent T) :=
  l.filter fun e => decide (e.sig.recvTs < m.tsEnd)

/-- The events of a queue that are to wait for the next checkpoint. -/
def waiting (m : SimModel T S M R) (l : List (TwEvent T)) : List (TwEvent T) :=
  l.filter fun e => decide (m.tsEnd ≤ e.sig.recvTs)

theorem inTime_concat (A : List (TwEvent T)) (e : TwEvent T) :
    (inTime m (A ++ [e]) : Multiset (TwEvent T)) =
      if e.sig.recvTs < m.tsEnd then e ::ₘ (inTime m A : Multiset (TwEvent T)) else inTime m A := by
  unfold inTime
  rw [List.filter_append]
  split
  next h =>
    rw [List.filter_cons_of_pos (by simpa using h), List.filter_nil]
    exact Multiset.coe_eq_coe.mpr List.perm_append_comm
  next h =>
    rw [List.filter_cons_of_neg (by simpa using h), List.filter_nil, List.append_nil]

theorem waiting_concat (A : List (TwEvent T)) (e : TwEvent T) :
    (waiting m (A ++ [e]) : Multiset (TwEvent T)) =
      if m.tsEnd ≤ e.sig.recvTs then e ::ₘ (waiting m A : Multiset (TwEvent T))
       else waiting m A := by
  unfold waiting
  rw [List.filter_append]
  split
  next h =>
    rw [List.filter_cons_of_pos (by simpa using h), List.filter_nil]
    exact Multiset.coe_eq_coe.mpr List.perm_append_comm
  next h =>
    rw [List.filter_cons_of_neg (by simpa using h), List.filter_nil, List.append_nil]

/-- Every event of the queue of `s` is popped once and made again: an event within the new end
of time is sent with its offset as the time, another one waits for the next checkpoint. -/
structure Reloaded (m : SimModel T S M R) (s : IoPe T S M R) (popped : List (TwEvent T))
    (t : IoPe T S M R) : Prop where
  once : popped.Perm s.ioBuffered
  scheduled : ∃ news : List (TwEvent T), t.pe.sent = s.pe.sent ++ news ∧
    Multiset.Rel (Recreates s t) (inTime m s.ioBuffered) news
  kept : Multiset.Rel (Recreates s t) (waiting m s.ioBuffered) t.ioBuffered

/-- Only the event popped last may be past the new end of time, and then a buffer is free when
it is popped. -/
def OnlyLastWaits (m : SimModel T S M R) (s : IoPe T S M R) : Prop :=
  (∀ e ∈ s.ioBuffered.tail, e.sig.recvTs < m.tsEnd) ∧
    ∀ e, s.ioBuffered = [e] → m.tsEnd ≤ e.sig.recvTs → 0 < s.ioFree

/-- The names of the events of the queue are taken. -/
def Named (s : IoPe T S M R) : Prop := ∀ x ∈ s.ioBuffered, x.uid < s.pe.nextUid

omit [TwStime T] in
theorem Named.mono (hs : Named s) (hf : LoadFrame s s')
    (hsub : ∀ x ∈ s'.ioBuffered, x ∈ s.ioBuffered) : Named s' :=
  fun x hx => (hs x (hsub x hx)).trans_le hf.nextUid

/-- What a turn on an event within the end of time adds. -/
theorem Reloaded.schedule {x : TwEvent T} (hA : s.ioBuffered = A ++ [e]) (hs : Named s)
    (hin : e.sig.recvTs < m.tsEnd) (hf : LoadFrame s s') (hf' : LoadFrame s' t)
    (hx : Recreates s s' e x) (hxu : x.uid < s'.pe.nextUid)
    (hsent : s'.pe.sent = s.pe.sent ++ [x]) (hb : s'.ioBuffered = A)
    (h : Reloaded m s' popped t) : Reloaded m s (e :: popped) t := by
  have hold : ∀ y ∈ A, ∀ z, Recreates s' t y z → Recreates s t y z := fun y hy z hr =>
    hr.earlier hf (hs y (by rw [hA]; exact List.mem_append_left _ hy))
  obtain ⟨hperm, ⟨news, hnews, hsched⟩, hkept⟩ := h
  rw [hb] at hperm hsched hkept
  refine ⟨?_, ⟨x :: news, ?_, ?_⟩, ?_⟩
  · rw [hA]
    exact (hperm.cons e).trans (List.perm_append_singleton e A).symm
  · rw [hnews, hsent, List.append_assoc, List.singleton_append]
  · rw [hA, inTime_concat, if_pos hin]
    refine .cons (hx.mono hf' hxu) (hsched.mono fun y hy z _ hr => hold y ?_ z hr)
    exact List.mem_of_mem_filter hy
  · rw [hA, waiting_concat, if_neg (not_le.mpr hin)]
    refine hkept.mono fun y hy z _ hr => hold y ?_ z hr
    exact List.mem_of_mem_filter hy

section Runs

variable (hc : c.Buffering) (h0 : ∀ x : T, 0 + x = x)

include hc h0

theorem loading_frame (h : Loading c m n s popped t) (hz : AtZero m s) : LoadFrame s t := by
  induction h with
  | done s => exact ⟨rfl, le_rfl, fun _ _ => rfl⟩
  | turn h₁ _ ih =>
      obtain ⟨A, hA⟩ := ioLoadEvent_concat h₁
      obtain ⟨-, hf, -⟩ := ioLoadEvent_turned hc hz h0 hA h₁
      exact hf.trans (ih (hf.atZero hz))
  | net h₁ _ ih => exact h₁.frame.trans (ih (h₁.frame.atZero hz))

/-- A turn shortens the queue unless it pops an event past the end of time. -/
theorem loading_length (h : Loading c m n s popped t) (hz : AtZero m s) :
    t.ioBuffered.length + n ≤
      s.ioBuffered.length + popped.countP (fun e => decide (m.tsEnd ≤ e.sig.recvTs)) := by
  induction h with
  | done s => exact Nat.le_add_right _ _
  | turn h₁ _ ih =>
      obtain ⟨A, hA⟩ := ioLoadEvent_concat h₁
      obtain ⟨-, hf, ht, -⟩ := ioLoadEvent_turned hc hz h0 hA h₁
      have ih := ih (hf.atZero hz)
      rw [hA, List.length_append, List.length_singleton]
      rcases ht with ⟨x, hend, -, -, -, hb, -⟩ | ⟨x, hend, -, -, -, -, -, hb, -⟩ |
        ⟨hend, -, -, hb, -⟩
      · rw [hb] at ih
        rw [List.countP_cons_of_neg (by simpa using hend)]
        omega
      · rw [hb, List.length_append, List.length_singleton] at ih
        rw [List.countP_cons_of_pos (by simpa using hend)]
        omega
      · rw [hb] at ih
        rw [List.countP_cons_of_pos (by simpa using hend)]
        omega
  | net h₁ _ ih =>
      have ih := ih (h₁.frame.atZero hz)
      rw [h₁.ioBuffered] at ih
      exact ih

/-- When only the last event may wait, every event is made again once. -/
theorem loading_reloaded (h : Loading c m n s popped t) (hz : AtZero m s) (hs : Named s)
    (hn : n = s.ioBuffered.length) (hw : OnlyLastWaits m s) : Reloaded m s popped t := by
  induction h with
  | done s =>
      have hnil : s.ioBuffered = [] := List.length_eq_zero_iff.mp hn.symm
      refine ⟨?_, ⟨[], (List.append_nil _).symm, ?_⟩, ?_⟩
      · rw [hnil]
      · rw [hnil]
        exact .zero
      · rw [hnil]
        exact .zero
  | @turn k s s' t e popped h₁ hr ih =>
      obtain ⟨A, hA⟩ := ioLoadEvent_concat h₁
      obtain ⟨-, hf, ht, -⟩ := ioLoadEvent_turned hc hz h0 hA h₁
      have hf' := loading_frame hc h0 hr (hf.atZero hz)
      have hk : k = A.length := by
        rw [hA, List.length_append, List.length_singleton] at hn
        omega
      have hpast : m.tsEnd ≤ e.sig.recvTs → A = [] := by
        intro hend
        cases A with
        | nil => rfl
        | cons a A =>
            refine absurd (hw.1 e ?_) hend.not_gt
            rw [hA]
            exact List.mem_append_right _ List.mem_cons_self
      rcases ht with ⟨x, hin, hx, hxu, hsent, hb, hfree⟩ |
        ⟨x, hend, -, hx, -, hxu, hsent, hb, -⟩ | ⟨hend, hno, -⟩
      · have hw' : OnlyLastWaits m s' := by
          rw [OnlyLastWaits, hb]
          refine ⟨fun y hy => hw.1 y ?_, fun y _ _ => ?_⟩
          · rw [hA]
            cases A with
            | nil => cases hy
            | cons a A => exact List.mem_append_left _ hy
          · rw [hfree]
            exact Nat.succ_pos _
        have hs' : Named s' := hs.mono hf fun y hy => by
          rw [hb] at hy
          rw [hA]
          exact List.mem_append_left _ hy
        exact (ih (hf.atZero hz) hs' (by rw [hb, hk]) hw').schedule hA hs hin hf hf' hx hxu hsent hb
      · cases hpast hend
        rw [hk] at hr
        obtain ⟨rfl, hf', hsent', hb'⟩ := loading_zero hr
        refine ⟨?_, ⟨[], ?_, ?_⟩, ?_⟩
        · rw [hA]
          rfl
        · rw [hsent', hsent, List.append_nil]
        · rw [hA, inTime_concat, if_neg hend.not_gt]
          exact .zero
        · rw [hA, waiting_concat, if_pos hend, hb', hb]
          exact .cons (hx.mono hf' hxu) .zero
      · have hA' : s.ioBuffered = [e] := by rw [hA, hpast hend, List.nil_append]
        exact absurd hno (hw.2 e hA' hend).ne'
  | @net k s s' t popped h₁ hr ih =>
      have hs' : Named s' := hs.mono h₁.frame fun y hy => h₁.ioBuffered ▸ hy
      have hw' : OnlyLastWaits m s' := by
        rw [OnlyLastWaits, h₁.ioBuffered, h₁.ioFree]
        exact hw
      obtain ⟨hperm, ⟨news, hnews, hsched⟩, hkept⟩ :=
        ih (h₁.frame.atZero hz) hs' (by rw [h₁.ioBuffered, hn]) hw'
      rw [h₁.ioBuffered] at hperm hsched hkept
      rw [h₁.sent] at hnews
      refine ⟨hperm, ⟨news, hnews, hsched.mono fun y hy z _ hr => ?_⟩,
        hkept.mono fun y hy z _ hr => ?_⟩
      · exact hr.earlier h₁.frame (hs y (List.mem_of_mem_filter hy))
      · exact hr.earlier h₁.frame (hs y (List.mem_of_mem_filter hy))

/-- An event made again is not one of those that were there. -/
theorem loading_onlyLastWaits (h : Loading c m n s popped t) (hz : AtZero m s) (hs : Named s)
    (hn : n = s.ioBuffered.length) (hperm : popped.Perm s.ioBuffered)
    (hkept : t.ioBuffered.length = (waiting m s.ioBuffered).length) : OnlyLastWaits m s := by
  induction h with
  | done s =>
      have hnil : s.ioBuffered = [] := List.length_eq_zero_iff.mp hn.symm
      rw [OnlyLastWaits, hnil]
      exact ⟨fun _ hy => absurd hy List.not_mem_nil, fun _ hy => by cases hy⟩
  | @turn k s s' t e popped h₁ hr ih =>
      obtain ⟨A, hA⟩ := ioLoadEvent_concat h₁
      obtain ⟨-, hf, ht, -⟩ := ioLoadEvent_turned hc hz h0 hA h₁
      have hk : k = A.length := by
        rw [hA, List.length_append, List.length_singleton] at hn
        omega
      have hperm' : popped.Perm A := by
        rw [hA] at hperm
        exact (hperm.trans (List.perm_append_singleton e A)).cons_inv
      rw [OnlyLastWaits, hA]
      rcases ht with ⟨x, hin, hx, hxu, hsent, hb, hfree⟩ |
        ⟨x, hend, hpos, hx, hfresh, hxu, hsent, hb, -⟩ | ⟨hend, hno, -, hb, hone⟩
      · have hs' : Named s' := hs.mono hf fun y hy => by
          rw [hb] at hy
          rw [hA]
          exact List.mem_append_left _ hy
        have hkept' : t.ioBuffered.length = (waiting m s'.ioBuffered).length := by
          rw [hA, waiting, List.filter_append, List.filter_cons_of_neg (by simpa using hin),
            List.filter_nil, List.append_nil] at hkept
          rw [hkept, hb, waiting]
        obtain ⟨htail, -⟩ :=
          ih (hf.atZero hz) hs' (by rw [hb, hk]) (by rw [hb]; exact hperm') hkept'
        rw [hb] at htail
        cases A with
        | nil =>
            refine ⟨fun _ hy => absurd hy List.not_mem_nil, fun y hy hend => ?_⟩
            cases hy
            exact absurd hin hend.not_gt
        | cons a A =>
            refine ⟨fun y hy => ?_, fun y hy => absurd (congrArg List.length hy) (by simp)⟩
            rcases List.mem_append.mp hy with hy | hy
            · exact htail y hy
            · rw [List.mem_singleton.mp hy]
              exact hin
      · cases A with
        | nil =>
            exact ⟨fun _ hy => absurd hy List.not_mem_nil, fun _ _ _ => hpos⟩
        | cons a A =>
            -- the event put back is popped next, though it was not there at the start
            have hpop : x ∈ popped := loading_pops_last hr (by rw [hk]; exact Nat.succ_ne_zero _) hb
            have hmem : x ∈ s.ioBuffered := by
              rw [hA]
              exact List.mem_append_left _ (hperm'.mem_iff.mp hpop)
            exact absurd (hs x hmem) hfresh.not_gt
      · have hlen := loading_length hc h0 hr (hf.atZero hz)
        have hcount : popped.countP (fun e => decide (m.tsEnd ≤ e.sig.recvTs)) =
            (waiting m A).length := by
          rw [hperm'.countP_eq, List.countP_eq_length_filter, waiting]
        have hwait : (waiting m s.ioBuffered).length = (waiting m A).length + 1 := by
          rw [hA, waiting, List.filter_append, List.filter_cons_of_pos (by simpa using hend),
            List.filter_nil, List.length_append, List.length_singleton, waiting]
        rw [hb, hk] at hlen
        omega
  | @net k s s' t popped h₁ hr ih =>
      have hs' : Named s' := hs.mono h₁.frame fun y hy => h₁.ioBuffered ▸ hy
      have hw := ih (h₁.frame.atZero hz) hs' (by rw [h₁.ioBuffered, hn])
        (by rw [h₁.ioBuffered]; exact hperm) (by rw [h₁.ioBuffered]; exact hkept)
      rw [OnlyLastWaits, h₁.ioBuffered, h₁.ioFree] at hw
      exact hw

end Runs

/-! ## A turn that goes through -/

/-- What the start of `io_load_events` promises its turns: the abort event has caused no error, its
chain of ties is short, and the offsets are not negative. -/
structure Ready (s : IoPe T S M R) : Prop where
  cevAbort : s.pe.cevAbort = false
  lineage : s.pe.abortEvent.sig.tieLineageLength < maxTieChain
  offset : ∀ x ∈ s.ioBuffered, 0 ≤ x.sig.recvTs

theorem BetweenLoads.ready (h : BetweenLoads s s') (hs : Ready s) : Ready s' := by
  refine ⟨h.cevAbort.trans hs.cevAbort, ?_, fun x hx => hs.offset x (h.ioBuffered ▸ hx)⟩
  rw [h.abortEvent]
  exact hs.lineage

theorem newBuffer_free {recvTs : T} {s₀ : IoPe T S M R}
    (h : s.newBuffer c m recvTs = .ok (.free, s₀)) : 0 < s.pe.freeQ := by
  unfold newBuffer at h
  split at h
  · unfold ioEventGrab at h
    split at h
    · cases h
    · split at h <;> cases h
  · split at h
    next buffer pe hb =>
      rcases Pe.newBuffer_ok hb with ⟨rfl, -, -⟩ | ⟨rfl, -, hf, -⟩
      · cases h
      · exact hf
    · cases h

theorem newBuffer_abort {recvTs : T} {s₀ : IoPe T S M R}
    (h : s.newBuffer c m recvTs = .ok (.abort, s₀)) (hin : recvTs < m.tsEnd) :
    s.pe.freeQ = 0 := by
  unfold newBuffer at h
  rw [if_neg fun hp => absurd hin hp.2.not_gt] at h
  split at h
  next buffer pe hb =>
    rcases Pe.newBuffer_ok hb with ⟨rfl, -, hend | ⟨hf, -⟩⟩ | ⟨rfl, -, -, -⟩
    · exact absurd hin hend.not_gt
    · exact hf
    · cases h
  · cases h

/-- A buffer is chosen for every event past the end of time and, while one is free, for any
other one. -/
theorem exists_newBuffer (c : RioConfig) (m : SimModel T S M R) (s : IoPe T S M R)
    (hc : c.Buffering)
    {recvTs : T} (hf : recvTs < m.tsEnd → 0 < s.pe.freeQ) :
    ∃ b, s.newBuffer c m recvTs = .ok b := by
  unfold newBuffer
  split
  · exact ⟨_, rfl⟩
  next hno =>
    have hin : recvTs < m.tsEnd := not_le.mp fun hend => hno ⟨hc.1, hend⟩
    have hfree := (hf hin).ne'
    unfold Pe.newBuffer Pe.twEventGrab
    rw [if_neg hin.not_ge, if_neg hfree]
    exact ⟨_, rfl⟩

section Progress

variable (hc : c.Buffering) (h0 : ∀ x : T, 0 + x = x) (hz : AtZero m s)

include hc h0 hz

theorem ioLoadEvent_ready (hpos : 0 < m.tsEnd) (hs : Ready s)
    (h : s.ioLoadEvent c m = .ok (e, s')) : Ready s' := by
  obtain ⟨A, hA⟩ := ioLoadEvent_concat h
  obtain ⟨-, -, ht, hab, hev⟩ := ioLoadEvent_turned hc hz h0 hA h
  have hold : ∀ x ∈ A, 0 ≤ x.sig.recvTs := fun x hx =>
    hs.offset x (by rw [hA]; exact List.mem_append_left _ hx)
  have he : 0 ≤ e.sig.recvTs := hs.offset e (by rw [hA]; exact List.mem_append_right _ (.head _))
  refine ⟨hab, ?_, fun x hx => ?_⟩
  · rcases hev with hev | ⟨hend, hone⟩
    · rw [hev]
      exact hs.lineage
    · rw [hone (hpos.trans_le hend).ne']
      decide
  · rcases ht with ⟨n, -, -, -, -, hb, -⟩ | ⟨n, -, -, hn, -, -, -, hb, -⟩ | ⟨-, -, -, hb, -⟩
    · exact hold x (hb ▸ hx)
    · rw [hb] at hx
      rcases List.mem_append.mp hx with hx | hx
      · exact hold x hx
      · rw [List.mem_singleton.mp hx, hn.recvTs]
        exact he
    · exact hold x (hb ▸ hx)

theorem exists_twEventNewUserPrio (h01 : (0 : T) ≤ 1) (hs : Ready s) {offsetTs : T} (d p : Nat)
    (msg : M) (hoff : 0 ≤ offsetTs) (hf : offsetTs < m.tsEnd → 0 < s.pe.freeQ) :
    ∃ s₁, (s.poppedState A).twEventNewUserPrio c m d offsetTs p 1 msg = .ok s₁ := by
  have hnow : (s.poppedState A).pe.twNow m p + offsetTs = offsetTs := by
    rw [show (s.poppedState A).pe.twNow m p = 0 from hz p, h0]
  obtain ⟨⟨kind, s₀⟩, hbuf⟩ := exists_newBuffer c m (s.poppedState A) hc hf
  unfold twEventNewUserPrio
  rw [if_neg hoff.not_gt, if_neg (not_or.mpr ⟨h01.not_gt, lt_irrefl _⟩), hnow]
  dsimp only
  rw [hbuf]
  dsimp only
  have htie : ¬ (offsetTs = 0 ∧
      maxTieChain ≤ (s₀.draw m p).pe.curSig.tieLineageLength) := by
    rintro ⟨-, hmax⟩
    have hcur : (s₀.draw m p).pe.curSig = s.pe.abortEvent.sig := by
      rcases newBuffer_ok hbuf with ⟨-, -, -, -, rfl⟩ | ⟨-, -, rfl⟩ | ⟨-, -, rfl⟩ <;> rfl
    rw [hcur] at hmax
    exact absurd hs.lineage hmax.not_gt
  rw [if_neg htie]
  exact ⟨_, rfl⟩

/-- The new event is sent, and the abort event only past the end of time. -/
theorem exists_twEventSend (hsub : ∀ x : T, x - 0 = x) (hab : s.pe.cevAbort = false)
    {s₁ : IoPe T S M R} {offsetTs : T} {d p : Nat} {msg : M} (hoff : 0 ≤ offsetTs)
    (hf : offsetTs < m.tsEnd → 0 < s.pe.freeQ)
    (h : (s.poppedState A).twEventNewUserPrio c m d offsetTs p 1 msg = .ok s₁) :
    ∃ s₂, twEventSend c { m with lookahead := 0 } { s₁ with ioFree := s₁.ioFree + 1 } 0 = .ok s₂ ∧
      s₂.pe.cevAbort = false := by
  have hnow : (s.poppedState A).pe.twNow m p + offsetTs = offsetTs := by
    rw [show (s.poppedState A).pe.twNow m p = 0 from hz p, h0]
  obtain ⟨kind, s₀, sig, hbuf, hsig, -, hs₁⟩ := twEventNewUserPrio_ok h
  rw [hnow] at hbuf hsig
  unfold twEventSend
  dsimp only
  rcases newBuffer_ok hbuf with ⟨rfl, -, hend, -, rfl⟩ | ⟨rfl, -, rfl⟩ | ⟨rfl, hin, rfl⟩
  · have hh : s₁.pe.handles[0]? = some (.buffer (s.made sig d p) msg) := by
      rw [hs₁]
      rfl
    rw [hh]
    dsimp only
    rw [if_pos ⟨hc.1, hsig.symm ▸ hend⟩]
    refine ⟨_, rfl, ?_⟩
    rw [hs₁]
    exact hab
  · have hh : s₁.pe.handles[0]? = some .abort := by
      rw [hs₁]
      rfl
    have hend : ¬ sig.recvTs < m.tsEnd := by
      rw [hsig]
      intro hin
      exact absurd (newBuffer_abort hbuf hin) (hf hin).ne'
    rw [hh]
    unfold Pe.twEventSend
    rw [hh]
    refine ⟨_, rfl, ?_⟩
    rw [hs₁]
    exact (if_neg hend).trans hab
  · have hh : s₁.pe.handles[0]? = some (.buffer (s.made sig d p) msg) := by
      rw [hs₁]
      rfl
    have hin' : ¬ m.tsEnd ≤ (s.made sig d p).sig.recvTs := by
      rw [show (s.made sig d p).sig.recvTs = offsetTs from hsig]
      exact hin.not_ge
    rw [hh]
    dsimp only
    rw [if_neg fun hp => hin' hp.2]
    unfold Pe.twEventSend
    rw [hh]
    dsimp only
    unfold Pe.sendEvent
    have hla : ¬ ((s.made sig d p).sig.recvTs -
        (s₁.pe.takeHandle 0 (some (s.made sig d p))).twNow m (s.made sig d p).srcLp < 0) := by
      have hzero : (s₁.pe.takeHandle 0 (some (s.made sig d p))).twNow m (s.made sig d p).srcLp =
          0 := by
        rw [hs₁]
        exact hz p
      rw [hzero, hsub, show (s.made sig d p).sig.recvTs = offsetTs from hsig]
      exact hoff.not_gt
    rw [if_neg fun hp => hla hp.2]
    refine ⟨_, rfl, ?_⟩
    dsimp only
    obtain ⟨-, -, -, -, hcev⟩ := deliver_frame (m := { m with lookahead := 0 })
      (s₁.pe.prepare 0 (s.made sig d p) msg) (s₁.pe.stamp (s.made sig d p))
    refine hcev.trans ?_
    rw [hs₁]
    exact hab

/-- A turn goes through unless it pops an event within the end of time and no event buffer is
free. -/
theorem ioLoadEvent_iff (hsub : ∀ x : T, x - 0 = x) (h01 : (0 : T) ≤ 1) (hs : Ready s)
    (hA : s.ioBuffered = A ++ [e]) :
    (∃ t, s.ioLoadEvent c m = .ok (e, t)) ↔ (e.sig.recvTs < m.tsEnd → 0 < s.pe.freeQ) := by
  have hoff : 0 ≤ e.sig.recvTs := hs.offset e (by rw [hA]; exact List.mem_append_right _ (.head _))
  have hnow : (s.poppedState A).pe.twNow m e.srcLp + e.sig.recvTs = e.sig.recvTs := by
    rw [show (s.poppedState A).pe.twNow m e.srcLp = 0 from hz e.srcLp, h0]
  constructor
  · rintro ⟨t, h⟩ hin
    obtain ⟨-, s₁, s₂, hnew, hsend, hab, -⟩ := ioLoadEvent_parts hA h
    obtain ⟨kind, s₀, sig, hbuf, hsig, -, hs₁⟩ := twEventNewUserPrio_ok hnew
    rw [hnow] at hbuf hsig
    rcases newBuffer_ok hbuf with ⟨rfl, -, hend, -⟩ | ⟨rfl, -, rfl⟩ | ⟨rfl, -⟩
    · exact absurd hin hend.not_gt
    · obtain ⟨hend, -⟩ := send_abort (s := s) hs₁ hsend hab
      rw [hsig] at hend
      exact absurd hin hend.not_gt
    · exact newBuffer_free (s := s.poppedState A) hbuf
  · intro hf
    obtain ⟨s₁, hnew⟩ := exists_twEventNewUserPrio (A := A) hc h0 hz h01 hs e.destLp
      e.srcLp (s.pe.ev e).msg hoff hf
    obtain ⟨s₂, hsend, hab⟩ := exists_twEventSend hc h0 hz hsub hs.cevAbort hoff hf hnew
    refine ⟨s₂.copyCv (s.pe.ev e).cv, ?_⟩
    unfold ioLoadEvent
    rw [hA, List.getLast?_concat, List.dropLast_concat]
    dsimp only
    unfold poppedState at hnew
    rw [hnew]
    dsimp only
    rw [hsend]
    dsimp only
    rw [hab]
    rfl

end Progress

theorem loading_ready (hc : c.Buffering) (h0 : ∀ x : T, 0 + x = x) (hpos : 0 < m.tsEnd)
    (h : Loading c m n s popped t) (hz : AtZero m s) (hs : Ready s) : Ready t := by
  induction h with
  | done s => exact hs
  | turn h₁ _ ih =>
      obtain ⟨A, hA⟩ := ioLoadEvent_concat h₁
      obtain ⟨-, hf, -⟩ := ioLoadEvent_turned hc hz h0 hA h₁
      exact ih (hf.atZero hz) (ioLoadEvent_ready hc h0 hz hpos hs h₁)
  | net h₁ _ ih => exact ih (h₁.frame.atZero hz) (h₁.ready hs)

/-- `io_load_events` makes every loaded event again once if and only if no event but the one
popped last waits for the next checkpoint, with a buffer for it; a turn ends in an error only if
it finds no free event buffer for an event within the end of time. -/
theorem ioLoadEvents_reloaded_iff (hc : c.Buffering) (h0 : ∀ x : T, 0 + x = x)
    (hsub : ∀ x : T, x - 0 = x) (h01 : (0 : T) ≤ 1) (hpos : 0 < m.tsEnd) (hz : AtZero m s)
    (hs : Named s) (hr : Ready s) :
    (∀ popped t, IoLoadEvents c m s popped t → (Reloaded m s popped t ↔ OnlyLastWaits m s)) ∧
      ∀ n popped s' A e, Loading c m n s popped s' → s'.ioBuffered = A ++ [e] →
        ((∃ t, s'.ioLoadEvent c m = .ok (e, t)) ↔
          (e.sig.recvTs < m.tsEnd → 0 < s'.pe.freeQ)) := by
  refine ⟨fun popped t h => ⟨fun hre => ?_, loading_reloaded hc h0 h hz hs rfl⟩,
    fun n popped s' A e h hA => ?_⟩
  · refine loading_onlyLastWaits hc h0 h hz hs rfl hre.once ?_
    have hcard := Multiset.card_eq_card_of_rel hre.kept
    rw [Multiset.coe_card, Multiset.coe_card] at hcard
    exact hcard.symm
  · have hz' := (loading_frame hc h0 h hz).atZero hz
    exact ioLoadEvent_iff hc h0 hz' hsub h01 (loading_ready hc h0 hpos h hz hr) hA

/-! ## Queues of two events -/

/-- A number of turns without the network loops. -/
def loadEvents (c : RioConfig) (m : SimModel T S M R) :
    Nat → IoPe T S M R → Except TwError (List (TwEvent T) × IoPe T S M R)
  | 0, s => .ok ([], s)
  | n + 1, s =>
      match s.ioLoadEvent c m with
      | .error err => .error err
      | .ok (e, s') =>
          match loadEvents c m n s' with
          | .error err => .error err
          | .ok (popped, t) => .ok (e :: popped, t)

theorem loading_of_loadEvents (h : loadEvents c m n s = .ok (popped, t)) :
    Loading c m n s popped t := by
  induction n generalizing s popped with
  | zero =>
      cases h
      exact .done _
  | succ n ih =>
      unfold loadEvents at h
      split at h
      · cases h
      next e s' h₁ =>
        split at h
        · cases h
        next popped' t' h₂ =>
          cases h
          exact .turn h₁ (ih h₂)

/-- An event of a checkpoint at the given offset past its end. -/
def loadedEvent (uid : Nat) (offset : Int) : TwEvent Int := ⟨uid, ⟨offset, 1, [0]⟩, 0, 0, 0, 0⟩

/-- A PE that has loaded two events, with one more buffer of RIO. -/
def loadedTwo (first last : Int) : IoPe Int Nat Nat Nat where
  pe := { Pe.start quietModel 0 [] with nextUid := 3 }
  ioFree := 1
  ioBuffered := [loadedEvent 1 first, loadedEvent 2 last]
  drawn := fun _ => 0
  reversed := fun _ => 0

theorem loadedTwo_atZero (first last : Int) : AtZero quietModel (loadedTwo first last) :=
  fun _ => rfl

theorem loadedTwo_named (first last : Int) : Named (loadedTwo first last) := by
  intro x hx
  rcases List.mem_cons.mp hx with rfl | hx
  · exact (by decide : 1 < 3)
  · rw [List.mem_singleton.mp hx]
    exact (by decide : 2 < 3)

theorem loadedTwo_ready {first last : Int} (hf : 0 ≤ first) (hl : 0 ≤ last) :
    Ready (loadedTwo first last) := by
  refine ⟨rfl, (by decide : 0 < 20), fun x hx => ?_⟩
  rcases List.mem_cons.mp hx with rfl | hx
  · exact hf
  · rw [List.mem_singleton.mp hx]
    exact hl

/-- The event past the end of time is popped first and made again, pops up once more, and the
other one stays in the queue. -/
theorem popped_twice : ∃ popped t,
    (⟨true, true, 3⟩ : RioConfig).Buffering ∧ AtZero quietModel (loadedTwo 5 150) ∧
      Named (loadedTwo 5 150) ∧ Ready (loadedTwo 5 150) ∧
      IoLoadEvents ⟨true, true, 3⟩ quietModel (loadedTwo 5 150) popped t ∧
      loadedEvent 1 5 ∈ t.ioBuffered ∧ loadedEvent 1 5 ∉ popped ∧ t.pe.sent = [] ∧
      ¬ Reloaded quietModel (loadedTwo 5 150) popped t := by
  have hex : ∃ r, loadEvents ⟨true, true, 3⟩ quietModel 2 (loadedTwo 5 150) = .ok r ∧
      decide (loadedEvent 1 5 ∈ r.2.ioBuffered ∧ loadedEvent 1 5 ∉ r.1 ∧ r.2.pe.sent = []) =
        true := Transition.exists_ok_of_any (by decide +kernel)
  obtain ⟨⟨popped, t⟩, hrun, htest⟩ := hex
  obtain ⟨hstay, hnot, hsent⟩ := of_decide_eq_true htest
  refine ⟨popped, t, by decide, loadedTwo_atZero 5 150, loadedTwo_named 5 150,
    loadedTwo_ready (by decide) (by decide), loading_of_loadEvents hrun, hstay, hnot, hsent, ?_⟩
  intro h
  exact hnot (h.once.mem_iff.mpr List.mem_cons_self)

/-- The event past the end of time is popped last: one is sent, the other one waits. -/
theorem ioLoadEvents_reloaded : ∃ popped t,
    IoLoadEvents ⟨true, true, 3⟩ quietModel (loadedTwo 150 5) popped t ∧
      Reloaded quietModel (loadedTwo 150 5) popped t ∧
      ∃ t, (loadedTwo 150 5).ioLoadEvent ⟨true, true, 3⟩ quietModel = .ok (loadedEvent 2 5, t) := by
  have hex : ∃ r, loadEvents ⟨true, true, 3⟩ quietModel 2 (loadedTwo 150 5) = .ok r ∧
      (fun _ => true) r = true := Transition.exists_ok_of_any (by decide +kernel)
  obtain ⟨⟨popped, t⟩, hrun, -⟩ := hex
  obtain ⟨hiff, hturn⟩ := ioLoadEvents_reloaded_iff (c := ⟨true, true, 3⟩) (m := quietModel)
    (s := loadedTwo 150 5) (by decide) Int.zero_add Int.sub_zero (by decide) (by decide)
    (loadedTwo_atZero 150 5) (loadedTwo_named 150 5) (loadedTwo_ready (by decide) (by decide))
  refine ⟨popped, t, loading_of_loadEvents hrun,
    (hiff popped t (loading_of_loadEvents hrun)).mpr ?_,
    (hturn 0 [] _ [loadedEvent 1 150] _ (.done _) rfl).mpr fun _ => by decide⟩
  exact ⟨by decide, fun e he => by cases he⟩

end Ross.IoPe

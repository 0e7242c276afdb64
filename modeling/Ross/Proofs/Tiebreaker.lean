import Ross.Core.Rio
import Ross.Proofs.Handler

/-!
# The tie-breaker generator under rollback

An execution draws one random number for each event it creates, and leaves a
link in `caused_by_me` or a count in `aborted_total` for each event it sends; a
rollback reverses the generator once for each link and each count.  An event
that RIO buffers leaves both.
-/

namespace Ross

variable {T S M R : Type} [TwStime T]

/-! ## What a pointer adds up to -/

omit [TwStime T] in
/-- Replacing one element of a list changes a sum over it by that element. -/
theorem sum_set {α : Type} (f : α → Nat) {l : List α} {i : Nat} {a : α} (h : l[i]? = some a)
    (b : α) : ((l.set i b).map f).sum + f a = (l.map f).sum + f b := by
  induction l generalizing i with
  | nil => simp at h
  | cons x l ih =>
      cases i with
      | zero =>
          simp only [List.getElem?_cons_zero, Option.some.injEq] at h
          subst h
          simp only [List.set_cons_zero, List.map_cons, List.sum_cons]
          omega
      | succ i =>
          simp only [List.getElem?_cons_succ] at h
          have := ih h
          simp only [List.set_cons_succ, List.map_cons, List.sum_cons]
          omega

/-- The events past the end of time get buffers of RIO. -/
def RioConfig.Buffering (c : RioConfig) : Prop :=
  c.useRio = true ∧ c.ioInit = true ∧ c.ioEventsBuffered ≠ 0

instance (c : RioConfig) : Decidable c.Buffering := inferInstanceAs (Decidable (_ ∧ _))

/-- `tw_event_send` takes the event for one that RIO buffered. -/
def RioConfig.Buffered (c : RioConfig) (m : SimModel T S M R) (e : TwEvent T) : Prop :=
  c.useRio = true ∧ m.tsEnd ≤ e.sig.recvTs

instance (c : RioConfig) (m : SimModel T S M R) (e : TwEvent T) : Decidable (c.Buffered m e) :=
  inferInstanceAs (Decidable (_ ∧ _))

/-- The reversals that a pointer will cause. -/
def Handle.reversals (c : RioConfig) (m : SimModel T S M R) : Handle T M → Nat
  | .sent (some e) => if c.Buffered m e then 2 else 1
  | .sent none => 1
  | _ => 0

/-- `1` for a pointer to a buffer of RIO. -/
def Handle.rio (c : RioConfig) (m : SimModel T S M R) : Handle T M → Nat
  | .sent (some e) => if c.Buffered m e then 1 else 0
  | .buffer e _ => if c.Buffered m e then 1 else 0
  | _ => 0

/-- Once every event is sent, the reversals exceed the events created by those
that RIO buffered. -/
theorem sum_reversals (c : RioConfig) (m : SimModel T S M R) {l : List (Handle T M)}
    (h : ∀ p ∈ l, ∃ o, p = .sent o) :
    (l.map (Handle.reversals c m)).sum = l.length + (l.map (Handle.rio c m)).sum := by
  induction l with
  | nil => rfl
  | cons p l ih =>
      have hl := ih fun q hq => h q (List.mem_cons_of_mem p hq)
      have hp : p.reversals c m = 1 + p.rio c m := by
        obtain ⟨o, rfl⟩ := h p List.mem_cons_self
        cases o with
        | none => rfl
        | some e =>
            simp only [Handle.reversals, Handle.rio]
            split <;> rfl
      simp only [List.map_cons, List.sum_cons, List.length_cons]
      omega

/-- The requests of a handler that are past the end of time. -/
def pastEnd (m : SimModel T S M R) (now : T) (ops : List (HandlerOp T M)) : Nat :=
  (requests now ops).countP fun r => decide (m.tsEnd ≤ r.1)

namespace IoPe

variable {c : RioConfig} {m : SimModel T S M R} {s s' : IoPe T S M R}

/-! ## What the steps can do -/

omit [TwStime T] in
theorem lift_ok {r : Except TwError (Pe T S M R)} (h : s.lift r = .ok s') :
    ∃ pe, r = .ok pe ∧ s' = { s with pe } := by
  unfold lift at h
  split at h
  next pe =>
    cases h
    exact ⟨pe, rfl, rfl⟩
  · cases h

theorem newBuffer_ok {recvTs : T} {kind : BufferKind}
    (h : s.newBuffer c m recvTs = .ok (kind, s')) :
    (kind = .rio ∧ c.Buffering ∧ m.tsEnd ≤ recvTs ∧ 0 < s.ioFree ∧
        s' = { s with ioFree := s.ioFree - 1 }) ∨
      (kind = .abort ∧ (c.Buffering → m.tsEnd ≤ recvTs → s.ioFree = 0) ∧ s' = s) ∨
      (kind = .free ∧ recvTs < m.tsEnd ∧
        s' = { s with pe := { s.pe with freeQ := s.pe.freeQ - 1 } }) := by
  unfold newBuffer at h
  split at h
  next hpast =>
    unfold ioEventGrab at h
    split at h
    next hoff =>
      cases h
      refine .inr (.inl ⟨rfl, fun hb _ => ?_, rfl⟩)
      rcases hoff with hoff | hoff
      · rw [hb.2.1] at hoff
        cases hoff
      · exact absurd hoff hb.2.2
    next hon =>
      obtain ⟨hinit, hper⟩ := not_or.mp hon
      split at h
      next hfree =>
        cases h
        exact .inr (.inl ⟨rfl, fun _ _ => hfree, rfl⟩)
      next hfree =>
        cases h
        exact .inl ⟨rfl, ⟨hpast.1, (Bool.not_eq_false _).mp hinit, hper⟩, hpast.2,
          Nat.pos_of_ne_zero hfree, rfl⟩
  next hnot =>
    split at h
    next buffer pe hb =>
      rcases Pe.newBuffer_ok hb with ⟨rfl, rfl, -⟩ | ⟨rfl, hend, -, rfl⟩
      · cases h
        exact .inr (.inl ⟨rfl, fun hbuf hle => absurd ⟨hbuf.1, hle⟩ hnot, rfl⟩)
      · cases h
        exact .inr (.inr ⟨rfl, hend, rfl⟩)
    · cases h

theorem twEventNewUserPrio_ok {destGid sender : Nat} {offsetTs prio : T} {msg : M}
    (h : s.twEventNewUserPrio c m destGid offsetTs sender prio msg = .ok s') :
    ∃ kind s₁ sig, s.newBuffer c m (s.pe.twNow m sender + offsetTs) = .ok (kind, s₁) ∧
      sig.recvTs = s.pe.twNow m sender + offsetTs ∧
      (offsetTs ≠ 0 → sig.tieLineageLength = 1) ∧
      s' = (s₁.draw m sender).writeNew kind sig destGid sender msg := by
  unfold twEventNewUserPrio at h
  dsimp only at h
  split at h
  · cases h
  · split at h
    · cases h
    · split at h
      · cases h
      next kind s₁ hb =>
        split at h
        · cases h
        · cases h
          refine ⟨kind, s₁, _, hb, rfl, fun hoff => ?_, rfl⟩
          unfold TwEventSig.tieLineageLength tieLineage
          rw [if_neg hoff]
          rfl

/-! ## The execution -/

/-- What holds once the calls `done` of the execution of `cev` from `s₀` have
returned. -/
structure Counted (c : RioConfig) (m : SimModel T S M R) (cev : TwEvent T) (s₀ : IoPe T S M R)
    (done : List (HandlerOp T M)) (s : IoPe T S M R) : Prop where
  cur : s.pe.curEvent = some cev
  now : s.pe.twNow m cev.destLp = s₀.pe.twNow m cev.destLp
  named : cev.uid < s.pe.nextUid
  fresh : ∀ e msg, .buffer e msg ∈ s.pe.handles → cev.uid < e.uid ∧ e.srcLp = cev.destLp
  length : s.pe.handles.length = (requests (s₀.pe.twNow m cev.destLp) done).length
  drawn : s.drawn cev.destLp = s₀.drawn cev.destLp + s.pe.handles.length
  coreRng : (s.pe.lp cev.destLp).coreRng =
    (fun r => (m.randUnif r).2)^[s.pe.handles.length] (s₀.pe.lp cev.destLp).coreRng
  src : ∀ e ∈ (s.pe.ev cev).causedByMe, e.srcLp = cev.destLp
  count : (s.pe.ev cev).causedByMe.length + (s.pe.ev cev).abortedTotal =
    (s.pe.handles.map (Handle.reversals c m)).sum
  rio : (s.pe.handles.map (Handle.rio c m)).sum + s.ioFree = s₀.ioFree
  ioFree : s.ioFree =
    s₀.ioFree - if c.Buffering then pastEnd m (s₀.pe.twNow m cev.destLp) done else 0

namespace Counted

variable {cev : TwEvent T} {s₀ : IoPe T S M R} {done : List (HandlerOp T M)}

theorem disturb (h : Counted c m cev s₀ done s) (hu : Undisturbed cev s s') :
    Counted c m cev s₀ done s' := by
  refine ⟨hu.curEvent.trans h.cur, ?_, h.named.trans_le hu.nextUid, ?_, ?_, ?_, ?_, ?_, ?_, ?_, ?_⟩
  · unfold Pe.twNow
    rw [hu.lastSig]
    exact h.now
  · rw [hu.handles]
    exact h.fresh
  · rw [hu.handles]
    exact h.length
  · rw [hu.handles, hu.drawn]
    exact h.drawn
  · rw [hu.handles, hu.coreRng]
    exact h.coreRng
  · rw [hu.causedByMe]
    exact h.src
  · rw [hu.handles, hu.causedByMe, hu.abortedTotal]
    exact h.count
  · rw [hu.handles, hu.ioFree]
    exact h.rio
  · rw [hu.ioFree]
    exact h.ioFree

theorem requests_append (now : T) (ops : List (HandlerOp T M)) (op : HandlerOp T M) :
    requests now (ops ++ [op]) = requests now ops ++ requests now [op] :=
  List.filterMap_append

/-- A call that creates and sends nothing. -/
theorem idle (h : Counted c m cev s₀ done s) {op : HandlerOp T M}
    (hop : ∀ now : T, requests now [op] = []) (hu : Undisturbed cev s s') :
    Counted c m cev s₀ (done ++ [op]) s' := by
  have hreq : ∀ now, requests now (done ++ [op]) = requests now done := fun now => by
    rw [requests_append, hop, List.append_nil]
  obtain ⟨hcur, hnow, hname, hfresh, hlen, hdrawn, hrng, hsrc, hcount, hrio, hfree⟩ := h.disturb hu
  refine ⟨hcur, hnow, hname, hfresh, ?_, hdrawn, hrng, hsrc, hcount, hrio, ?_⟩
  · rw [hreq]
    exact hlen
  · unfold pastEnd
    rw [hreq]
    exact hfree

/-- A creation adds the pointer `p` and draws one random number. -/
theorem create (h : Counted c m cev s₀ done s) {p : Handle T M} {destGid : Nat} {offsetTs prio : T}
    {msg : M} (hcur : s'.pe.curEvent = s.pe.curEvent) (hlast : s'.pe.lastSig = s.pe.lastSig)
    (hname : s.pe.nextUid ≤ s'.pe.nextUid) (hhandles : s'.pe.handles = s.pe.handles ++ [p])
    (hfresh : ∀ e msg, p = .buffer e msg → cev.uid < e.uid ∧ e.srcLp = cev.destLp)
    (hrev : p.reversals c m = 0) (hev : s'.pe.ev = s.pe.ev)
    (hdrawn : s'.drawn cev.destLp = s.drawn cev.destLp + 1)
    (hrng : (s'.pe.lp cev.destLp).coreRng = (m.randUnif (s.pe.lp cev.destLp).coreRng).2)
    (hrio : p.rio c m + s'.ioFree = s.ioFree)
    (hfree : s'.ioFree = s.ioFree -
      if c.Buffering ∧ m.tsEnd ≤ s.pe.twNow m cev.destLp + offsetTs then 1 else 0) :
    Counted c m cev s₀ (done ++ [.eventNew destGid offsetTs prio msg]) s' := by
  have hreq : requests (s₀.pe.twNow m cev.destLp) (done ++ [.eventNew destGid offsetTs prio msg]) =
      requests (s₀.pe.twNow m cev.destLp) done ++
        [(s₀.pe.twNow m cev.destLp + offsetTs, destGid)] := requests_append _ _ _
  have hlen : s'.pe.handles.length = s.pe.handles.length + 1 := by
    rw [hhandles, List.length_append, List.length_singleton]
  refine ⟨hcur.trans h.cur, ?_, h.named.trans_le hname, fun e msg he => ?_, ?_, ?_, ?_, ?_, ?_, ?_,
    ?_⟩
  · unfold Pe.twNow
    rw [hlast]
    exact h.now
  · rw [hhandles] at he
    rcases List.mem_append.mp he with he | he
    · exact h.fresh e msg he
    · exact hfresh e msg (List.mem_singleton.mp he).symm
  · rw [hreq, hlen, List.length_append, h.length, List.length_singleton]
  · rw [hdrawn, h.drawn, hlen, Nat.add_assoc]
  · rw [hrng, h.coreRng, hlen, Function.iterate_succ_apply']
  · rw [hev]
    exact h.src
  · rw [hev, h.count, hhandles, List.map_append, List.sum_append, List.map_singleton,
      List.sum_singleton, hrev, Nat.add_zero]
  · have := h.rio
    rw [hhandles, List.map_append, List.sum_append, List.map_singleton, List.sum_singleton]
    omega
  · have hold := h.ioFree
    have hpast : pastEnd m (s₀.pe.twNow m cev.destLp)
        (done ++ [.eventNew destGid offsetTs prio msg]) =
          pastEnd m (s₀.pe.twNow m cev.destLp) done +
            if m.tsEnd ≤ s₀.pe.twNow m cev.destLp + offsetTs then 1 else 0 := by
      unfold pastEnd
      rw [hreq, List.countP_append, List.countP_singleton]
      simp only [decide_eq_true_eq]
    rw [h.now] at hfree
    rw [hfree, hold, hpast]
    by_cases hb : c.Buffering
    · by_cases he : m.tsEnd ≤ s₀.pe.twNow m cev.destLp + offsetTs
      · rw [if_pos hb, if_pos ⟨hb, he⟩, if_pos hb, if_pos he]
        omega
      · rw [if_pos hb, if_neg fun h => he h.2, if_pos hb, if_neg he]
        omega
    · rw [if_neg hb, if_neg fun h => hb h.1, if_neg hb]
      omega

/-- A send uses up a pointer, whose reversals are added to the event. -/
theorem send (h : Counted c m cev s₀ done s) {i : Nat} {p : Handle T M} {o : Option (TwEvent T)}
    (hi : s.pe.handles[i]? = some p) (hcur : s'.pe.curEvent = s.pe.curEvent)
    (hlast : s'.pe.lastSig = s.pe.lastSig) (hname : s'.pe.nextUid = s.pe.nextUid)
    (hhandles : s'.pe.handles = s.pe.handles.set i (.sent o))
    (hrev : p.reversals c m = 0) (hrio : p.rio c m = (.sent o : Handle T M).rio c m)
    (hsrc : ∀ e ∈ (s'.pe.ev cev).causedByMe, e.srcLp = cev.destLp)
    (hcount : (s'.pe.ev cev).causedByMe.length + (s'.pe.ev cev).abortedTotal =
      (s.pe.ev cev).causedByMe.length + (s.pe.ev cev).abortedTotal +
        (.sent o : Handle T M).reversals c m)
    (hdrawn : s'.drawn = s.drawn) (hlp : s'.pe.lp = s.pe.lp) (hfree : s'.ioFree = s.ioFree) :
    Counted c m cev s₀ (done ++ [.eventSend i]) s' := by
  have hreq : requests (s₀.pe.twNow m cev.destLp) (done ++ [.eventSend i]) =
      requests (s₀.pe.twNow m cev.destLp) done := by
    rw [requests_append]
    exact List.append_nil _
  have hlen : s'.pe.handles.length = s.pe.handles.length := by
    rw [hhandles, List.length_set]
  refine ⟨hcur.trans h.cur, ?_, ?_, fun e msg he => ?_, ?_, ?_, ?_, hsrc, ?_, ?_, ?_⟩
  · unfold Pe.twNow
    rw [hlast]
    exact h.now
  · rw [hname]
    exact h.named
  · rw [hhandles] at he
    rcases List.mem_or_eq_of_mem_set he with he | he
    · exact h.fresh e msg he
    · cases he
  · rw [hreq, hlen]
    exact h.length
  · rw [hdrawn, hlen]
    exact h.drawn
  · rw [hlp, hlen]
    exact h.coreRng
  · have hsum := sum_set (Handle.reversals c m) hi (.sent o)
    have hold := h.count
    rw [hcount, hhandles]
    omega
  · have hsum := sum_set (Handle.rio c m) hi (.sent o)
    have hold := h.rio
    rw [hfree, hhandles]
    omega
  · unfold pastEnd
    rw [hfree, hreq]
    exact h.ioFree

theorem eventNew (h : Counted c m cev s₀ done s) {destGid : Nat} {offsetTs prio : T} {msg : M}
    (hs : s.twEventNewUserPrio c m destGid offsetTs cev.destLp prio msg = .ok s') :
    Counted c m cev s₀ (done ++ [.eventNew destGid offsetTs prio msg]) s' := by
  obtain ⟨kind, s₁, sig, hb, hsig, -, rfl⟩ := twEventNewUserPrio_ok hs
  have hdrawn : ((s₁.draw m cev.destLp).writeNew kind sig destGid cev.destLp msg).drawn cev.destLp =
      s₁.drawn cev.destLp + 1 := Function.update_self ..
  rcases newBuffer_ok hb with ⟨rfl, hbuf, hpast, hpos, rfl⟩ | ⟨rfl, hnone, rfl⟩ | ⟨rfl, hend, rfl⟩
  · refine h.create (p := .buffer ⟨s.pe.nextUid, sig, 0, destGid, cev.destLp, s.pe.id⟩ msg) rfl rfl
      (Nat.le_succ _) rfl (fun e msg' he => ?_) rfl rfl hdrawn ?_ ?_ ?_
    · cases he
      exact ⟨h.named, rfl⟩
    · show (Function.update s.pe.lp cev.destLp _ cev.destLp).coreRng = _
      rw [Function.update_self]
    · have hb : c.Buffered m ⟨s.pe.nextUid, sig, 0, destGid, cev.destLp, s.pe.id⟩ :=
        ⟨hbuf.1, hpast.trans_eq hsig.symm⟩
      show (if c.Buffered m _ then 1 else 0) + (s.ioFree - 1) = s.ioFree
      rw [if_pos hb]
      omega
    · rw [if_pos ⟨hbuf, hpast⟩]
      rfl
  · refine h.create (p := .abort) rfl rfl (Nat.le_refl _) rfl (fun e msg' he => by cases he) rfl rfl
      hdrawn ?_ (Nat.zero_add _) ?_
    · show (Function.update s₁.pe.lp cev.destLp _ cev.destLp).coreRng = _
      rw [Function.update_self]
    · show s₁.ioFree = _
      split
      next hb =>
        have := hnone hb.1 hb.2
        omega
      · rfl
  · refine h.create (p := .buffer ⟨s.pe.nextUid, sig, 0, destGid, cev.destLp, s.pe.id⟩ msg) rfl rfl
      (Nat.le_succ _) rfl (fun e msg' he => ?_) rfl rfl hdrawn ?_ ?_ ?_
    · cases he
      exact ⟨h.named, rfl⟩
    · show (Function.update s.pe.lp cev.destLp _ cev.destLp).coreRng = _
      rw [Function.update_self]
    · have hb : ¬ c.Buffered m ⟨s.pe.nextUid, sig, 0, destGid, cev.destLp, s.pe.id⟩ :=
        fun hb => hend.not_ge (hb.2.trans_eq hsig)
      show (if c.Buffered m _ then 1 else 0) + s.ioFree = s.ioFree
      rw [if_neg hb, Nat.zero_add]
    · rw [if_neg fun hb => hend.not_ge hb.2]
      rfl

/-- The delivery of an event leaves the chain and the count of another one. -/
theorem deliver_ev {s : Pe T S M R} {e x : TwEvent T} (hne : x ≠ e) :
    ((s.deliver m e).ev x) = s.ev x := by
  rcases Pe.deliver_cases m s e with ⟨-, -, hd⟩ | ⟨-, -, hd⟩ | ⟨-, hd⟩ <;>
  · rw [hd]
    exact Function.update_of_ne hne ..

/-- A child is linked to the current event. -/
theorem linkCausality_ev {s : Pe T S M R} {cev : TwEvent T} (hc : s.curEvent = some cev)
    (nev : TwEvent T) : (s.linkCausality nev).ev cev =
      { s.ev cev with causedByMe := nev :: (s.ev cev).causedByMe } := by
  unfold Pe.linkCausality
  dsimp only
  rw [hc]
  exact Function.update_self ..

theorem prepare_ev {s : Pe T S M R} {cev e : TwEvent T} {i : Nat} {msg : M}
    (hc : s.curEvent = some cev) (hne : cev ≠ s.stamp e) : (s.prepare i e msg).ev cev =
      { s.ev cev with causedByMe := s.stamp e :: (s.ev cev).causedByMe } := by
  have hreg : ((s.takeHandle i (some e)).register (s.stamp e) msg).ev cev = s.ev cev :=
    Function.update_of_ne hne ..
  have hlink := linkCausality_ev
    (s := (s.takeHandle i (some e)).register (s.stamp e) msg) hc (s.stamp e)
  rw [hreg] at hlink
  exact hlink

theorem eventSend (h : Counted c m cev s₀ done s) {i : Nat}
    (hs : s.twEventSend c m i = .ok s') : Counted c m cev s₀ (done ++ [.eventSend i]) s' := by
  unfold twEventSend at hs
  split at hs
  next e msg hi =>
    obtain ⟨huid, hsrc⟩ := h.fresh e msg (List.mem_of_getElem? hi)
    split at hs
    next hb =>
      cases hs
      have hne : cev ≠ e := fun he => absurd huid (by rw [he]; exact lt_irrefl _)
      have hev : ((s.sendRio i e msg).pe.ev cev).causedByMe = e :: (s.pe.ev cev).causedByMe ∧
          ((s.sendRio i e msg).pe.ev cev).abortedTotal = (s.pe.ev cev).abortedTotal + 1 := by
        unfold sendRio
        dsimp only [Pe.takeHandle, Pe.setEv, Pe.linkCausality, Pe.increaseAbortedCount]
        simp only [h.cur, Function.update_self, Function.update_of_ne hne, and_self]
      have hb' : c.Buffered m e := hb
      refine h.send (o := some e) hi rfl rfl rfl rfl rfl rfl ?_ ?_ rfl rfl rfl
      · rw [hev.1]
        exact fun x hx => (List.mem_cons.mp hx).elim (fun hx => hx ▸ hsrc) (h.src x)
      · have h2 : (Handle.sent (some e) : Handle T M).reversals c m = 2 := if_pos hb'
        rw [hev.1, hev.2, h2, List.length_cons]
        omega
    next hb =>
      obtain ⟨pe, hpe, rfl⟩ := lift_ok hs
      rcases Pe.twEventSend_ok hpe with ⟨hi', -⟩ | ⟨e', msg', hi', -, rfl⟩
      · rw [hi] at hi'
        cases hi'
      · rw [hi] at hi'
        cases hi'
        have hne : cev ≠ s.pe.stamp e := fun he => absurd huid (by rw [he]; exact lt_irrefl _)
        have hev : (((s.pe.prepare i e msg).deliver m (s.pe.stamp e)).ev cev) =
            { s.pe.ev cev with causedByMe := s.pe.stamp e :: (s.pe.ev cev).causedByMe } := by
          rw [deliver_ev hne]
          exact prepare_ev h.cur hne
        have hrest : ((s.pe.prepare i e msg).deliver m (s.pe.stamp e)).curEvent = s.pe.curEvent ∧
            ((s.pe.prepare i e msg).deliver m (s.pe.stamp e)).lastSig = s.pe.lastSig ∧
            ((s.pe.prepare i e msg).deliver m (s.pe.stamp e)).nextUid = s.pe.nextUid ∧
            ((s.pe.prepare i e msg).deliver m (s.pe.stamp e)).handles =
              s.pe.handles.set i (.sent (some e)) ∧
            ((s.pe.prepare i e msg).deliver m (s.pe.stamp e)).lp = s.pe.lp := by
          rcases Pe.deliver_cases m (s.pe.prepare i e msg) (s.pe.stamp e) with
            ⟨-, -, hd⟩ | ⟨-, -, hd⟩ | ⟨-, hd⟩ <;>
          · rw [hd]
            exact ⟨rfl, rfl, rfl, rfl, rfl⟩
        obtain ⟨hcur, hlast, hname, hhandles, hlp⟩ := hrest
        have hb' : ¬ c.Buffered m e := hb
        refine h.send (o := some e) hi hcur hlast hname hhandles rfl rfl ?_ ?_ rfl hlp rfl
        · dsimp only
          rw [hev]
          exact fun x hx => (List.mem_cons.mp hx).elim (fun hx => hx ▸ hsrc) (h.src x)
        · have h1 : (Handle.sent (some e) : Handle T M).reversals c m = 1 := if_neg hb'
          dsimp only
          rw [hev, h1]
          dsimp only
          rw [List.length_cons]
          omega
  next hnot =>
    obtain ⟨pe, hpe, rfl⟩ := lift_ok hs
    rcases Pe.twEventSend_ok hpe with ⟨hi, rfl⟩ | ⟨e, msg, hi, -, -⟩
    · refine h.send (o := none) hi rfl rfl rfl rfl rfl rfl ?_ ?_ rfl rfl rfl
      · dsimp only
        rw [h.cur]
        simp only [Function.update_self]
        exact h.src
      · have h1 : (Handle.sent none : Handle T M).reversals c m = 1 := rfl
        dsimp only
        rw [h.cur, h1]
        simp only [Function.update_self]
        omega
    · exact absurd hi (hnot e msg)

theorem handlerOp (h : Counted c m cev s₀ done s) {op : HandlerOp T M}
    (hs : s.handlerOp c m cev.destLp op = .ok s') : Counted c m cev s₀ (done ++ [op]) s' := by
  cases op with
  | eventNew destGid offsetTs prio msg => exact h.eventNew hs
  | eventSend i => exact h.eventSend hs
  | lpSuspend b =>
      cases hs
      refine h.idle (fun _ => rfl) ⟨rfl, rfl, ?_, rfl, rfl, rfl, le_rfl, rfl, rfl, rfl⟩
      show (Function.update s.pe.lp cev.destLp _ cev.destLp).coreRng = _
      rw [Function.update_self]
  | triggerGvtHookNow =>
      obtain ⟨pe, hpe, rfl⟩ := lift_ok hs
      refine h.idle (fun _ => rfl) ?_
      rcases Pe.twTriggerGvtHookNow_ok hpe with rfl | ⟨-, rfl⟩
      · exact ⟨rfl, rfl, rfl, rfl, rfl, rfl, le_rfl, rfl, rfl, rfl⟩
      · exact ⟨rfl, rfl, TwLp.update_field (·.coreRng) s.pe.lp cev.destLp (by rfl) _, rfl, rfl,
          rfl, le_rfl, rfl, rfl, rfl⟩

theorem execution (h : Counted c m cev s₀ done s) {ops : List (HandlerOp T M)}
    {t : IoPe T S M R} (hx : Execution c m cev s ops t) : Counted c m cev s₀ (done ++ ops) t := by
  induction hx generalizing done with
  | returns s =>
      rw [List.append_nil]
      exact h
  | call hop _ ih =>
      have := ih (h.handlerOp hop)
      rwa [List.append_assoc, List.singleton_append] at this
  | net hu _ ih => exact ih (h.disturb hu)

end Counted

/-! ## The rollback -/

variable {cev : TwEvent T}

/-- The cancellation of a child leaves the chains, the counts and the LPs. -/
theorem pe_eventCancel_frame {s s' : Pe T S M R} {e : TwEvent T} (h : s.eventCancel m e = .ok s')
    (x : TwEvent T) : (s'.ev x).causedByMe = (s.ev x).causedByMe ∧
      (s'.ev x).abortedTotal = (s.ev x).abortedTotal ∧ s'.lp = s.lp := by
  have hup : ∀ (t : Pe T S M R) (st : EventState T M), t.ev = Function.update s.ev e st →
      st.causedByMe = (s.ev e).causedByMe → st.abortedTotal = (s.ev e).abortedTotal →
      t.lp = s.lp → (t.ev x).causedByMe = (s.ev x).causedByMe ∧
        (t.ev x).abortedTotal = (s.ev x).abortedTotal ∧ t.lp = s.lp := by
    intro t st ht hc ha hlp
    rw [ht]
    by_cases hx : x = e
    · subst hx
      rw [Function.update_self]
      exact ⟨hc, ha, hlp⟩
    · rw [Function.update_of_ne hx]
      exact ⟨rfl, rfl, hlp⟩
  rcases Pe.eventCancel_ok h with ⟨-, rfl⟩ | ⟨-, rfl⟩ | ⟨-, rfl⟩ | ⟨-, -, rfl⟩ | ⟨-, -, rfl⟩ <;>
    exact hup _ _ rfl rfl rfl rfl

theorem eventCancel_frame {e : TwEvent T} (h : s.eventCancel c m e = .ok s') (x : TwEvent T) :
    (s'.pe.ev x).causedByMe = (s.pe.ev x).causedByMe ∧
      (s'.pe.ev x).abortedTotal = (s.pe.ev x).abortedTotal ∧ s'.pe.lp = s.pe.lp ∧
      s'.reversed = s.reversed := by
  have hlift : s.lift (s.pe.eventCancel m e) = .ok s' →
      (s'.pe.ev x).causedByMe = (s.pe.ev x).causedByMe ∧
        (s'.pe.ev x).abortedTotal = (s.pe.ev x).abortedTotal ∧ s'.pe.lp = s.pe.lp ∧
        s'.reversed = s.reversed := by
    intro h
    obtain ⟨pe, hpe, rfl⟩ := lift_ok h
    obtain ⟨hc, ha, hlp⟩ := pe_eventCancel_frame hpe x
    exact ⟨hc, ha, hlp, rfl⟩
  unfold eventCancel at h
  split at h
  · exact hlift h
  · exact hlift h
  · exact hlift h
  · split at h
    · cases h
      exact ⟨rfl, rfl, rfl, rfl⟩
    · exact hlift h

/-- What `n` reversals of the generator of `cev`'s LP by a rollback of `cev`
leave. -/
structure Reversed (m : SimModel T S M R) (cev : TwEvent T) (n : Nat) (s s' : IoPe T S M R) :
    Prop where
  coreRng : (s'.pe.lp cev.destLp).coreRng =
    m.randReverseUnif^[n] (s.pe.lp cev.destLp).coreRng
  reversed : s'.reversed cev.destLp = s.reversed cev.destLp + n
  causedByMe : (s'.pe.ev cev).causedByMe = (s.pe.ev cev).causedByMe
  abortedTotal : (s'.pe.ev cev).abortedTotal = (s.pe.ev cev).abortedTotal

omit [TwStime T] in
theorem Reversed.trans {s t : IoPe T S M R} {n k : Nat} (h : Reversed m cev n s s')
    (h' : Reversed m cev k s' t) : Reversed m cev (n + k) s t where
  coreRng := by
    rw [h'.coreRng, h.coreRng, ← Function.iterate_add_apply, Nat.add_comm]
  reversed := by
    rw [h'.reversed, h.reversed, Nat.add_assoc]
  causedByMe := h'.causedByMe.trans h.causedByMe
  abortedTotal := h'.abortedTotal.trans h.abortedTotal

theorem rollbackChild_reversed {e : TwEvent T} (he : e.srcLp = cev.destLp)
    (h : s.rollbackChild c m e = .ok s') : Reversed m cev 1 s s' := by
  obtain ⟨hc, ha, hlp, hrev⟩ := eventCancel_frame h cev
  refine ⟨?_, ?_, hc, ha⟩
  · rw [hlp, he]
    show (Function.update s.pe.lp cev.destLp _ cev.destLp).coreRng = _
    rw [Function.update_self]
  · rw [hrev, he]
    exact Function.update_self ..

theorem cancellation_reversed {children : List (TwEvent T)} {t : IoPe T S M R}
    (hsrc : ∀ e ∈ children, e.srcLp = cev.destLp) (h : Cancellation c m cev s children t) :
    Reversed m cev children.length s t := by
  induction h with
  | ends s => exact ⟨rfl, rfl, rfl, rfl⟩
  | @child s s' t e rest hstep _ ih =>
      have h₁ := rollbackChild_reversed (hsrc e List.mem_cons_self) hstep
      have h₂ := h₁.trans (ih fun x hx => hsrc x (List.mem_cons_of_mem e hx))
      rwa [Nat.add_comm] at h₂
  | net hu _ ih =>
      have h₁ : Reversed m cev 0 _ _ :=
        ⟨hu.coreRng, congrFun hu.reversed _, hu.causedByMe, hu.abortedTotal⟩
      have h₂ := h₁.trans (ih hsrc)
      rwa [Nat.zero_add] at h₂

/-- Undoing an event leaves the generators of the LPs alone. -/
theorem twEventRollback_coreRng (s : Pe T S M R) (event : TwEvent T) (after : RollbackAfter)
    (l : Nat) : ((s.twEventRollback m event after).lp l).coreRng = (s.lp l).coreRng := by
  have hset : ∀ (s : Pe T S M R) (x : TwLp T S R), x.coreRng = (s.lp event.destLp).coreRng →
      ((s.setLp event.destLp x).lp l).coreRng = (s.lp l).coreRng := by
    intro s x hx
    exact TwLp.update_field (·.coreRng) s.lp event.destLp hx l
  have hrev : ∀ s : Pe T S M R, ((s.runRevent m event).lp l).coreRng = (s.lp l).coreRng := by
    intro s
    rw [Pe.runRevent_eq]
    exact hset s _ rfl
  have hun : ∀ s : Pe T S M R, ((s.unprocess m event).lp l).coreRng = (s.lp l).coreRng := by
    intro s
    unfold Pe.unprocess
    dsimp only
    split
    · split
      · rw [hrev]
        exact hset s _ rfl
      · exact hset s _ rfl
    · split
      · rfl
      · exact hrev s
  exact hun _

theorem rolledBack_reversed {after : RollbackAfter} {t : IoPe T S M R}
    (hsrc : ∀ e ∈ (s.pe.ev cev).causedByMe, e.srcLp = cev.destLp)
    (h : RolledBack c m cev after s t) :
    t.reversed cev.destLp = s.reversed cev.destLp +
        ((s.pe.ev cev).causedByMe.length + (s.pe.ev cev).abortedTotal) ∧
      (t.pe.lp cev.destLp).coreRng = m.randReverseUnif^[(s.pe.ev cev).causedByMe.length +
        (s.pe.ev cev).abortedTotal] (s.pe.lp cev.destLp).coreRng ∧
      (t.pe.ev cev).abortedTotal = 0 ∧ (t.pe.ev cev).causedByMe = [] := by
  obtain ⟨s', hc, rfl⟩ := h
  have h₁ := cancellation_reversed hsrc hc
  obtain ⟨l, cv, msg, tr, hf⟩ := Pe.twEventRollback_frame m s.pe cev after
  have hab : ((s.pe.twEventRollback m cev after).ev cev).abortedTotal =
      (s.pe.ev cev).abortedTotal := by
    rw [hf]
    dsimp only
    rw [Function.update_self]
  have hchain : ((s.pe.twEventRollback m cev after).ev cev).causedByMe = [] := by
    rw [hf]
    dsimp only
    rw [Function.update_self]
  have hab' : (s'.pe.ev cev).abortedTotal = (s.pe.ev cev).abortedTotal :=
    h₁.abortedTotal.trans hab
  have hev : (s'.rollbackEnd m cev).pe.ev cev = { s'.pe.ev cev with abortedTotal := 0 } :=
    Function.update_self ..
  refine ⟨?_, ?_, ?_, ?_⟩
  · show Function.update s'.reversed cev.destLp _ cev.destLp = _
    rw [Function.update_self, h₁.reversed, hab', Nat.add_assoc]
  · show (Function.update s'.pe.lp cev.destLp _ cev.destLp).coreRng = _
    rw [Function.update_self, hab']
    dsimp only
    rw [h₁.coreRng, twEventRollback_coreRng, ← Function.iterate_add_apply, Nat.add_comm]
  · rw [hev]
  · rw [hev]
    exact h₁.causedByMe.trans hchain

/-! ## The law -/

/-- Between the execution of an event and its rollback nothing touches its chain
of children and its count. -/
structure Kept (cev : TwEvent T) (s s' : IoPe T S M R) : Prop where
  causedByMe : (s'.pe.ev cev).causedByMe = (s.pe.ev cev).causedByMe
  abortedTotal : (s'.pe.ev cev).abortedTotal = (s.pe.ev cev).abortedTotal

/-- The handler of `cev` starts: no pointer, no child, no count. -/
structure Starts (cev : TwEvent T) (s : IoPe T S M R) : Prop where
  curEvent : s.pe.curEvent = some cev
  handles : s.pe.handles = []
  causedByMe : (s.pe.ev cev).causedByMe = []
  abortedTotal : (s.pe.ev cev).abortedTotal = 0
  named : cev.uid < s.pe.nextUid

theorem Counted.start (h : Starts cev s) : Counted c m cev s [] s where
  cur := h.curEvent
  now := rfl
  named := h.named
  fresh e msg he := by
    rw [h.handles] at he
    cases he
  length := by
    rw [h.handles]
    rfl
  drawn := by
    rw [h.handles]
    rfl
  coreRng := by
    rw [h.handles]
    rfl
  src e he := by
    rw [h.causedByMe] at he
    cases he
  count := by
    rw [h.handles, h.causedByMe, h.abortedTotal]
    rfl
  rio := by
    rw [h.handles]
    exact Nat.zero_add _
  ioFree := by
    have hp : pastEnd m (s.pe.twNow m cev.destLp) [] = 0 := rfl
    rw [hp, ite_self, Nat.sub_zero]

/-- No event that the calls `ops` create at the start `s` gets a buffer of RIO. -/
def NoneBuffered (c : RioConfig) (m : SimModel T S M R) (cev : TwEvent T) (s : IoPe T S M R)
    (ops : List (HandlerOp T M)) : Prop :=
  ¬ c.Buffering ∨ s.ioFree = 0 ∨
    ∀ r ∈ requests (s.pe.twNow m cev.destLp) ops, r.1 < m.tsEnd

/-- The rollback of an event reverses the generator as often as its execution
advanced it if and only if no event that it sent is buffered by RIO. -/
theorem reversals_eq_draws_iff {s₀ s₁ s₂ s₃ : IoPe T S M R} {ops : List (HandlerOp T M)}
    {after : RollbackAfter} (hstart : Starts cev s₀) (hx : Execution c m cev s₀ ops s₁)
    (hsent : ∀ p ∈ s₁.pe.handles, ∃ o, p = .sent o) (hkept : Kept cev s₁ s₂)
    (hroll : RolledBack c m cev after s₂ s₃) :
    (∃ draws reversals, s₁.drawn cev.destLp = s₀.drawn cev.destLp + draws ∧
      (s₁.pe.lp cev.destLp).coreRng =
        (fun r => (m.randUnif r).2)^[draws] (s₀.pe.lp cev.destLp).coreRng ∧
      s₃.reversed cev.destLp = s₂.reversed cev.destLp + reversals ∧
      (s₃.pe.lp cev.destLp).coreRng =
        m.randReverseUnif^[reversals] (s₂.pe.lp cev.destLp).coreRng ∧
      (reversals = draws ↔ NoneBuffered c m cev s₀ ops)) ∧
    (s₃.pe.ev cev).abortedTotal = 0 ∧ (s₃.pe.ev cev).causedByMe = [] ∧
    (NoneBuffered c m cev s₀ ops → (∀ r, m.randReverseUnif (m.randUnif r).2 = r) →
      (s₂.pe.lp cev.destLp).coreRng = (s₁.pe.lp cev.destLp).coreRng →
      (s₃.pe.lp cev.destLp).coreRng = (s₀.pe.lp cev.destLp).coreRng) := by
  have h₁ := (Counted.start (c := c) (m := m) hstart).execution hx
  rw [List.nil_append] at h₁
  have hsrc : ∀ e ∈ (s₂.pe.ev cev).causedByMe, e.srcLp = cev.destLp := by
    rw [hkept.causedByMe]
    exact h₁.src
  obtain ⟨hrev, hrng, hab, hchain⟩ := rolledBack_reversed hsrc hroll
  rw [hkept.causedByMe, hkept.abortedTotal, h₁.count, sum_reversals c m hsent] at hrev hrng
  have hiff : (s₁.pe.handles.map (Handle.rio c m)).sum = 0 ↔ NoneBuffered c m cev s₀ ops := by
    have hpast : pastEnd m (s₀.pe.twNow m cev.destLp) ops = 0 ↔
        ∀ r ∈ requests (s₀.pe.twNow m cev.destLp) ops, r.1 < m.tsEnd := by
      unfold pastEnd
      rw [List.countP_eq_zero]
      simp only [decide_eq_true_eq, not_le]
    have hrio := h₁.rio
    have hfree := h₁.ioFree
    unfold NoneBuffered
    rw [← hpast]
    by_cases hb : c.Buffering
    · rw [if_pos hb] at hfree
      rw [or_iff_right (not_not.mpr hb)]
      omega
    · rw [if_neg hb] at hfree
      exact iff_of_true (by omega) (.inl hb)
  refine ⟨⟨s₁.pe.handles.length, _, h₁.drawn, h₁.coreRng, hrev, hrng, ?_⟩, hab, hchain,
    fun hnone hinv heq => ?_⟩
  · rw [← hiff]
    omega
  · rw [hrng, hiff.mpr hnone, Nat.add_zero, heq, h₁.coreRng]
    exact Function.LeftInverse.iterate hinv _ _

/-! ## Computed runs -/

/-- The calls of a handler one after the other. -/
def runOps (c : RioConfig) (m : SimModel T S M R) (lp : Nat) (s : IoPe T S M R) :
    List (HandlerOp T M) → Except TwError (IoPe T S M R)
  | [] => .ok s
  | op :: ops =>
      match s.handlerOp c m lp op with
      | .ok s => runOps c m lp s ops
      | .error e => .error e

/-- The cancellations of a list of children one after the other. -/
def cancelAll (c : RioConfig) (m : SimModel T S M R) (s : IoPe T S M R) :
    List (TwEvent T) → Except TwError (IoPe T S M R)
  | [] => .ok s
  | e :: rest =>
      match s.rollbackChild c m e with
      | .ok s => cancelAll c m s rest
      | .error e => .error e

theorem execution_of_runOps {t : IoPe T S M R} {ops : List (HandlerOp T M)}
    (h : runOps c m cev.destLp s ops = .ok t) : Execution c m cev s ops t := by
  induction ops generalizing s with
  | nil =>
      cases h
      exact .returns _
  | cons op ops ih =>
      unfold runOps at h
      split at h
      next s' hop => exact .call hop (ih h)
      · cases h

theorem cancellation_of_cancelAll {t : IoPe T S M R} {children : List (TwEvent T)}
    (h : cancelAll c m s children = .ok t) : Cancellation c m cev s children t := by
  induction children generalizing s with
  | nil =>
      cases h
      exact .ends _
  | cons e rest ih =>
      unfold cancelAll at h
      split at h
      next s' hc => exact .child hc (ih h)
      · cases h

/-! ## The build without RIO -/

/-- Without `USE_RIO` the calls of a handler are those on the PE. -/
theorem runOps_off (hc : c.useRio = false) (s : IoPe T S M R) (lp : Nat)
    (ops : List (HandlerOp T M)) : (runOps c m lp s ops).map (·.pe) = s.pe.runOps m lp ops := by
  induction ops generalizing s with
  | nil => rfl
  | cons op ops ih =>
      have hop := handlerOp_off (m := m) hc s lp op
      unfold runOps Pe.runOps
      cases h : s.handlerOp c m lp op with
      | error e =>
          rw [h] at hop
          rw [← hop]
          rfl
      | ok s' =>
          rw [h] at hop
          rw [← hop]
          exact ih s'

/-- Which rollback is going on makes no difference to `tw_net_cancel`. -/
theorem twNetCancel_rollback (p : Pe T S M R) (r : Option (Rollback T)) (e : TwEvent T) :
    ({ p with rollback := r } : Pe T S M R).twNetCancel e =
      (p.twNetCancel e).map fun p' => { p' with rollback := r } := by
  have hev : ({ p with rollback := r } : Pe T S M R).ev = p.ev := rfl
  unfold Pe.twNetCancel
  rw [hev]
  cases (p.ev e).owner <;> rfl

/-- Which rollback is going on makes no difference to `event_cancel`. -/
theorem eventCancel_rollback (p : Pe T S M R) (r : Option (Rollback T)) (e : TwEvent T) :
    ({ p with rollback := r } : Pe T S M R).eventCancel m e =
      (p.eventCancel m e).map fun p' => { p' with rollback := r } := by
  have hev : ({ p with rollback := r } : Pe T S M R).ev = p.ev := rfl
  have hnet := twNetCancel_rollback (p.lowerTrans e.sig) r e
  unfold Pe.eventCancel
  rw [hev]
  cases (p.ev e).owner <;>
    first
    | exact hnet
    | show (if m.map e.destLp = p.id then _ else _) =
        Except.map _ (if m.map e.destLp = p.id then _ else _)
      split <;> rfl

/-- The PE without the rollback that goes on. -/
def noRollback (p : Pe T S M R) : Pe T S M R := { p with rollback := none }

theorem eventCancel_noRollback (p : Pe T S M R) (e : TwEvent T) :
    (p.eventCancel m e).map noRollback = (noRollback p).eventCancel m e :=
  (eventCancel_rollback p none e).symm

theorem rollbackChild_noRollback (p : Pe T S M R) (r : Rollback T) (e : TwEvent T)
    (rest : List (TwEvent T)) :
    (p.rollbackChild m r e rest).map noRollback =
      ((noRollback p).reverseUnif m e.srcLp 1).eventCancel m e :=
  eventCancel_noRollback _ e

/-- Without `USE_RIO` the children are cancelled as on the PE. -/
theorem cancelAll_off (hc : c.useRio = false) (s : IoPe T S M R) (p : Pe T S M R)
    (r : Rollback T) (children : List (TwEvent T)) (hp : noRollback s.pe = noRollback p) :
    (cancelAll c m s children).map (fun t => noRollback t.pe) =
      (p.rollbackChildren m r children).map noRollback := by
  induction children generalizing s p with
  | nil => exact congrArg Except.ok hp
  | cons e rest ih =>
      have hcancel : (s.rollbackChild c m e).map (·.pe) =
          (s.pe.reverseUnif m e.srcLp 1).eventCancel m e :=
        eventCancel_off hc (s.reverseUnif m e.srcLp 1) e
      have hchild : (s.rollbackChild c m e).map (fun t => noRollback t.pe) =
          (p.rollbackChild m r e rest).map noRollback := by
        calc (s.rollbackChild c m e).map (fun t => noRollback t.pe)
            = ((s.rollbackChild c m e).map (·.pe)).map noRollback := by
              cases s.rollbackChild c m e <;> rfl
          _ = ((noRollback s.pe).reverseUnif m e.srcLp 1).eventCancel m e := by
              rw [hcancel]
              exact eventCancel_noRollback _ e
          _ = (p.rollbackChild m r e rest).map noRollback := by
              rw [hp, rollbackChild_noRollback]
      unfold cancelAll Pe.rollbackChildren
      cases hs : s.rollbackChild c m e with
      | error err =>
          cases hq : p.rollbackChild m r e rest with
          | error err' =>
              rw [hs, hq] at hchild
              exact congrArg Except.error (Except.error.inj hchild)
          | ok q =>
              rw [hs, hq] at hchild
              cases hchild
      | ok s' =>
          cases hq : p.rollbackChild m r e rest with
          | error err =>
              rw [hs, hq] at hchild
              cases hchild
          | ok q =>
              rw [hs, hq] at hchild
              exact ih s' q (Except.ok.inj hchild)

theorem rollbackEnd_noRollback (p : Pe T S M R) :
    (noRollback p).rollbackEnd m cev = p.rollbackEnd m cev := rfl

/-- The execution of `cev` and its rollback right after it. -/
def thereAndBack (c : RioConfig) (m : SimModel T S M R) (cev : TwEvent T) (s : IoPe T S M R)
    (ops : List (HandlerOp T M)) : Except TwError (IoPe T S M R × IoPe T S M R) :=
  match runOps c m cev.destLp s ops with
  | .error e => .error e
  | .ok s₁ =>
      match cancelAll c m { s₁ with pe := s₁.pe.twEventRollback m cev .requeue }
          (s₁.pe.ev cev).causedByMe with
      | .error e => .error e
      | .ok s' => .ok (s₁, s'.rollbackEnd m cev)

/-- Without `USE_RIO` an execution and its rollback are those of the PE. -/
theorem thereAndBack_off (hc : c.useRio = false) (s : IoPe T S M R) (ops : List (HandlerOp T M)) :
    (thereAndBack c m cev s ops).map (fun t => (t.1.pe, t.2.pe)) =
      (s.pe.runOps m cev.destLp ops).bind fun p =>
        (p.eventRollback m cev .requeue).map fun q => (p, q) := by
  have hrun := runOps_off (m := m) hc s cev.destLp ops
  unfold thereAndBack
  cases hops : runOps c m cev.destLp s ops with
  | error e =>
      rw [hops] at hrun
      rw [← hrun]
      rfl
  | ok s₁ =>
      rw [hops] at hrun
      rw [← hrun]
      have hcancel := cancelAll_off (m := m) hc
        ({ s₁ with pe := s₁.pe.twEventRollback m cev .requeue } : IoPe T S M R)
        (s₁.pe.twEventRollback m cev .requeue)
        ⟨cev, (s₁.pe.ev cev).causedByMe, .requeue⟩ (s₁.pe.ev cev).causedByMe rfl
      show _ = (s₁.pe.eventRollback m cev .requeue).map fun q => (s₁.pe, q)
      unfold Pe.eventRollback
      dsimp only
      generalize cancelAll c m _ _ = x at hcancel ⊢
      generalize Pe.rollbackChildren m _ _ _ = y at hcancel ⊢
      cases x with
      | error e =>
          cases y with
          | error e' => exact congrArg Except.error (Except.error.inj hcancel)
          | ok q => cases hcancel
      | ok t =>
          cases y with
          | error e => cases hcancel
          | ok q =>
              have hsame : noRollback t.pe = noRollback q := Except.ok.inj hcancel
              have hend : t.pe.rollbackEnd m cev = q.rollbackEnd m cev := by
                rw [← rollbackEnd_noRollback t.pe, hsame, rollbackEnd_noRollback]
              show Except.ok (s₁.pe, t.pe.rollbackEnd m cev) = _
              rw [hend]
              rfl

theorem exists_thereAndBack (test : IoPe T S M R × IoPe T S M R → Bool)
    {ops : List (HandlerOp T M)}
    (h : (thereAndBack c m cev s ops).toOption.any test = true) :
    ∃ s₁ s₃, Execution c m cev s ops s₁ ∧ Kept cev s₁ s₁ ∧
      RolledBack c m cev .requeue s₁ s₃ ∧ test (s₁, s₃) = true := by
  unfold thereAndBack at h
  split at h
  · cases h
  next s₁ h₁ =>
    split at h
    · cases h
    next s' hc =>
      exact ⟨s₁, _, execution_of_runOps h₁, ⟨rfl, rfl⟩,
        ⟨s', cancellation_of_cancelAll hc, rfl⟩, h⟩

/-- An event of LP 0 at time 1. -/
def firstEvent : TwEvent Int := ⟨1, ⟨1, 1, [0]⟩, 1, 0, 0, 0⟩

/-- The handler of `firstEvent` starts, with one buffer of RIO left. -/
def firstHandler : IoPe Int Nat Nat Nat where
  pe := { Pe.start quietModel 0 [] with
    nextUid := 2
    curEvent := some firstEvent
    lastSig := fun _ => firstEvent.sig }
  ioFree := 1
  ioBuffered := []
  drawn := fun _ => 0
  reversed := fun _ => 0

theorem firstHandler_starts : Starts firstEvent firstHandler :=
  ⟨rfl, rfl, rfl, rfl, by decide⟩

/-- An event before the end of time and one past it. -/
def nearAndFar : List (HandlerOp Int Nat) :=
  [.eventNew 0 1 1 0, .eventNew 0 200 1 0, .eventSend 0, .eventSend 1]

/-- `exists_thereAndBack` for an execution that sends all it creates. -/
theorem exists_sent (c : RioConfig) (ops : List (HandlerOp Int Nat))
    (test : IoPe Int Nat Nat Nat × IoPe Int Nat Nat Nat → Bool)
    (h : (thereAndBack c quietModel firstEvent firstHandler ops).toOption.any
      (fun p => test p && p.1.pe.handles.all fun p => match p with | .sent _ => true | _ => false) =
        true) :
    ∃ s₁ s₃, Execution c quietModel firstEvent firstHandler ops s₁ ∧ Kept firstEvent s₁ s₁ ∧
      RolledBack c quietModel firstEvent .requeue s₁ s₃ ∧
      (∀ p ∈ s₁.pe.handles, ∃ o, p = .sent o) ∧ test (s₁, s₃) = true := by
  obtain ⟨s₁, s₃, hx, hk, hr, ht⟩ := exists_thereAndBack _ h
  obtain ⟨ht, hs⟩ := Bool.and_eq_true_iff.mp ht
  refine ⟨s₁, s₃, hx, hk, hr, fun p hp => ?_, ht⟩
  have := List.all_eq_true.mp hs p hp
  cases p with
  | sent o => exact ⟨o, rfl⟩
  | buffer e msg => cases this
  | abort => cases this

theorem reversals_eq_draws_no_rio :
    ∃ s₁ s₃, Execution ⟨false, false, 0⟩ quietModel firstEvent firstHandler nearAndFar s₁ ∧
      RolledBack ⟨false, false, 0⟩ quietModel firstEvent .requeue s₁ s₃ ∧
      s₁.drawn 0 = 2 ∧ (s₃.pe.ev firstEvent).abortedTotal = 0 ∧ (s₃.pe.lp 0).coreRng = 0 := by
  obtain ⟨s₁, s₃, hx, hk, hr, hsent, ht⟩ := exists_sent ⟨false, false, 0⟩ nearAndFar
    (fun p => decide (p.1.drawn 0 = 2)) (by decide +kernel)
  obtain ⟨-, hab, -, hback⟩ := reversals_eq_draws_iff firstHandler_starts hx hsent hk hr
  exact ⟨s₁, s₃, hx, hr, of_decide_eq_true ht, hab,
    hback (.inl (by decide)) (fun r => Nat.add_sub_cancel r 1) rfl⟩

/-- The one event past the end of time, in a build with RIO, is linked and counted:
its one random number is reversed twice. -/
theorem rio_event_reversed_twice :
    ∃ s₁ s₃, Starts firstEvent firstHandler ∧
      Execution ⟨true, true, 1⟩ quietModel firstEvent firstHandler
        [.eventNew 0 200 1 0, .eventSend 0] s₁ ∧
      (∀ p ∈ s₁.pe.handles, ∃ o, p = .sent o) ∧
      RolledBack ⟨true, true, 1⟩ quietModel firstEvent .requeue s₁ s₃ ∧
      s₁.drawn 0 = firstHandler.drawn 0 + 1 ∧ s₃.reversed 0 = s₁.reversed 0 + 2 := by
  obtain ⟨s₁, s₃, hx, -, hr, hsent, ht⟩ := exists_sent ⟨true, true, 1⟩
    [.eventNew 0 200 1 0, .eventSend 0]
    (fun p => decide (p.1.drawn 0 = firstHandler.drawn 0 + 1 ∧
      p.2.reversed 0 = p.1.reversed 0 + 2)) (by decide +kernel)
  obtain ⟨hd, hv⟩ := of_decide_eq_true ht
  exact ⟨s₁, s₃, firstHandler_starts, hx, hsent, hr, hd, hv⟩

end IoPe

end Ross

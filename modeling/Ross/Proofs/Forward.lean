import Ross.Proofs.Sequential

/-!
# What a handler leaves behind on one PE

The calls of a handler draw one random number for each event they create, put
the events they send at the head of the priority queue or at the tail of
`event_q`, and change no other buffer than those and the current event's.
-/

namespace Ross

variable {T S M R : Type} [TwStime T]

/-- The pointer was sent. -/
def Handle.isSent : Handle T M → Bool
  | .sent _ => true
  | _ => false

namespace Pe

variable {m : SimModel T S M R} {s s' : Pe T S M R} {cev : TwEvent T}

/-! ## One call -/

/-- The event takes the fast path into the priority queue. -/
def inOrder (m : SimModel T S M R) (s : Pe T S M R) (e : TwEvent T) : Bool :=
  decide (s.lastSig (m.kpOf e.destLp) ≤ e.sig)

/-- The queues after the send of `e`. -/
def sentTo (m : SimModel T S M R) (s : Pe T S M R) (e : TwEvent T) : QueueId → List (TwEvent T) :=
  if s.inOrder m e then Pool.cons s.queue .pq e else Pool.snoc s.queue .eventQ e

/-- What `tw_event_send` of the event `e` leaves on one PE. -/
structure Sent (m : SimModel T S M R) (s : Pe T S M R) (i : Nat) (e : TwEvent T) (msg : M)
    (s' : Pe T S M R) : Prop where
  eq : ∃ g acm t, s' = { s with
    handles := s.handles.set i (.sent (some e))
    seqNum := s.nextEventId
    sent := s.sent ++ [s.stamp e]
    abortCausedByMe := acm
    transMsgSig := t
    queue := s.sentTo m (s.stamp e)
    ev := g }
  new : s.curEvent ≠ some (s.stamp e) → s'.ev (s.stamp e) =
    ⟨if s.inOrder m (s.stamp e) then .pePq else .peEventQ, false, false, false, 0, msg, 0, []⟩
  cur : ∀ cev, s.curEvent = some cev → cev ≠ s.stamp e →
    s'.ev cev = { s.ev cev with causedByMe := s.stamp e :: (s.ev cev).causedByMe }
  other : ∀ x, x ≠ s.stamp e → s.curEvent ≠ some x → s'.ev x = s.ev x

/-- What `tw_event_send` of the abort event leaves. -/
structure SentAbort (m : SimModel T S M R) (s : Pe T S M R) (i : Nat) (s' : Pe T S M R) :
    Prop where
  eq : ∃ g, s' = { s with
    handles := s.handles.set i (.sent none)
    cevAbort := if s.abortEvent.sig.recvTs < m.tsEnd then true else s.cevAbort
    ev := g }
  cur : ∀ cev, s.curEvent = some cev →
    s'.ev cev = { s.ev cev with abortedTotal := (s.ev cev).abortedTotal + 1 }
  other : ∀ x, s.curEvent ≠ some x → s'.ev x = s.ev x

/-- Before an event is delivered only its buffer, its creator's chain, the send counter and the
handler's pointer have changed. -/
theorem prepare_frame (s : Pe T S M R) (i : Nat) (e : TwEvent T) (msg : M) :
    ∃ g acm, s.prepare i e msg = { s with
      handles := s.handles.set i (.sent (some e))
      seqNum := s.nextEventId
      sent := s.sent ++ [s.stamp e]
      abortCausedByMe := acm
      ev := g } := by
  simp only [prepare, takeHandle, register, linkCausality, setEv, nextEventId]
  exact ⟨_, _, rfl⟩

/-- The buffers after `tw_event_send` linked the event, before it delivers it. -/
theorem prepare_ev {i : Nat} {e : TwEvent T} {msg : M} :
    (s.curEvent ≠ some (s.stamp e) →
      (s.prepare i e msg).ev (s.stamp e) = ⟨.unowned, false, false, false, 0, msg, 0, []⟩) ∧
    (∀ cev, s.curEvent = some cev → cev ≠ s.stamp e → (s.prepare i e msg).ev cev =
      { s.ev cev with causedByMe := s.stamp e :: (s.ev cev).causedByMe }) ∧
    ∀ x, x ≠ s.stamp e → s.curEvent ≠ some x → (s.prepare i e msg).ev x = s.ev x := by
  have hprep : (s.prepare i e msg).ev =
      (((s.takeHandle i (some e)).register (s.stamp e) msg).linkCausality (s.stamp e)).ev := rfl
  have hcur : ((s.takeHandle i (some e)).register (s.stamp e) msg).curEvent = s.curEvent := rfl
  have hreg : ((s.takeHandle i (some e)).register (s.stamp e) msg).ev =
      Function.update s.ev (s.stamp e) ⟨.unowned, false, false, false, 0, msg, 0, []⟩ := rfl
  rw [hprep]
  unfold linkCausality
  dsimp only
  rw [hcur]
  cases hc : s.curEvent with
  | none =>
      dsimp only
      rw [hreg]
      refine ⟨fun _ => Function.update_self .., fun cev hcev => (by cases hcev), fun x hx _ => ?_⟩
      exact Function.update_of_ne hx ..
  | some cev =>
      dsimp only
      rw [hreg]
      refine ⟨fun hne => ?_, fun c hcev hce => ?_, fun x hx hxc => ?_⟩
      · have hne' : s.stamp e ≠ cev := fun he => hne (by rw [he])
        rw [Function.update_of_ne hne', Function.update_self]
      · cases hcev
        rw [Function.update_self, Function.update_of_ne hce]
      · have hxcev : x ≠ cev := fun he => hxc (by rw [he])
        rw [Function.update_of_ne hxcev, Function.update_of_ne hx]

theorem twEventSend_serial (hmap : ∀ l, m.map l = s.id) {i : Nat}
    (h : s.twEventSend m i = .ok s') :
    s.handles[i]? = some .abort ∧ SentAbort m s i s' ∨
      ∃ e msg, s.handles[i]? = some (.buffer e msg) ∧ Sent m s i e msg s' := by
  rcases twEventSend_ok h with ⟨hi, rfl⟩ | ⟨e, msg, hi, -, rfl⟩
  · refine .inl ⟨hi, ⟨⟨_, rfl⟩, fun cev hc => ?_, fun x hx => ?_⟩⟩
    · simp only [hc, Function.update_self]
    · cases hc : s.curEvent with
      | none => rfl
      | some cev => exact Function.update_of_ne (fun he => hx (by rw [hc, he])) ..
  · refine .inr ⟨e, msg, hi, ?_⟩
    obtain ⟨hnew, hcur, hother⟩ := @prepare_ev T S M R _ s i e msg
    obtain ⟨g, acm, hprep⟩ := s.prepare_frame i e msg
    have howner : ∀ o g, g = Function.update (s.prepare i e msg).ev (s.stamp e)
          { (s.prepare i e msg).ev (s.stamp e) with owner := o } →
        (s.curEvent ≠ some (s.stamp e) →
          g (s.stamp e) = ⟨o, false, false, false, 0, msg, 0, []⟩) ∧
        (∀ cev, s.curEvent = some cev → cev ≠ s.stamp e →
          g cev = { s.ev cev with causedByMe := s.stamp e :: (s.ev cev).causedByMe }) ∧
        ∀ x, x ≠ s.stamp e → s.curEvent ≠ some x → g x = s.ev x := by
      rintro o g rfl
      refine ⟨fun hne => ?_, fun cev hc hce => ?_, fun x hx hxc => ?_⟩
      · rw [Function.update_self, hnew hne]
      · rw [Function.update_of_ne hce, hcur cev hc hce]
      · rw [Function.update_of_ne hx, hother x hx hxc]
    rcases deliver_cases m (s.prepare i e msg) (s.stamp e) with
      ⟨-, hle, hd⟩ | ⟨-, hlt, hd⟩ | ⟨hne, -⟩
    · have hin : s.inOrder m (s.stamp e) = true := decide_eq_true hle
      rw [hd]
      obtain ⟨h₁, h₂, h₃⟩ := howner .pePq _ rfl
      refine ⟨?_, ?_, h₂, h₃⟩
      · rw [sentTo, hin, hprep]
        exact ⟨_, acm, s.transMsgSig, rfl⟩
      · rw [hin]
        exact h₁
    · have hin : s.inOrder m (s.stamp e) = false := decide_eq_false (not_le.mpr hlt)
      rw [hd]
      obtain ⟨h₁, h₂, h₃⟩ := howner .peEventQ _ rfl
      refine ⟨?_, ?_, h₂, h₃⟩
      · rw [sentTo, hin, hprep]
        exact ⟨_, acm, s.transSig e.sig, rfl⟩
      · rw [hin]
        exact h₁
    · exact absurd (hmap _) hne

/-! ## Buffers in use -/

/-- The names of the events `l`, of those in the priority queue and of the
handler's unsent buffers. -/
def usedNames (l : List (TwEvent T)) (s : Pe T S M R) : List Nat :=
  (l ++ s.queue .pq).map (·.uid) ++ s.handles.filterMap Handle.unsent

/-- The buffers in use have different names, of which `l` has that of the current
event; those in the priority queue have no children; and `event_id` counts the
sends until `seq_num` wraps around. -/
structure Tidy (l : List (TwEvent T)) (s : Pe T S M R) : Prop where
  nodup : (usedNames l s).Nodup
  lt : ∀ u ∈ usedNames l s, u < s.nextUid
  cur : ∀ cev, s.curEvent = some cev → cev ∈ l
  clean : ∀ x ∈ s.queue .pq, (s.ev x).causedByMe = [] ∧ (s.ev x).abortedTotal = 0
  ids : s.sent.length < 2 ^ 32 → s.seqNum = s.sent.length ∧
    (∀ x ∈ s.queue .pq, x.eventId ≤ s.seqNum) ∧
    (s.queue .pq).Pairwise fun a b => b.eventId < a.eventId

namespace Tidy

variable {l : List (TwEvent T)}

section

omit [TwStime T]

/-- The buffers held and those queued are different ones. -/
theorem uid_ne (h : Tidy l s) {x y : TwEvent T} (hx : x ∈ l) (hy : y ∈ s.queue .pq) :
    x.uid ≠ y.uid := by
  have hn := h.nodup.of_append_left
  rw [List.map_append] at hn
  exact fun he => (List.disjoint_of_nodup_append hn) (List.mem_map_of_mem hx)
    (he ▸ List.mem_map_of_mem hy)

theorem cur_notMem (h : Tidy l s) {cev : TwEvent T} (hc : s.curEvent = some cev) :
    cev ∉ s.queue .pq := fun hm => h.uid_ne (h.cur cev hc) hm rfl

/-- An unsent buffer is not in use otherwise. -/
theorem uid_unsent (h : Tidy l s) {i : Nat} {e x : TwEvent T} {msg : M}
    (hi : s.handles[i]? = some (.buffer e msg)) (hx : x ∈ l ++ s.queue .pq) : x.uid ≠ e.uid := by
  have he : e.uid ∈ s.handles.filterMap Handle.unsent :=
    List.mem_filterMap.mpr ⟨.buffer e msg, List.mem_of_getElem? hi, rfl⟩
  exact fun hu => (List.disjoint_of_nodup_append h.nodup) (List.mem_map_of_mem hx) (hu ▸ he)

/-- The pointers of the last handler are dropped, and the queue gets shorter. -/
theorem shrink (h : Tidy l s) {l' n : List (TwEvent T)} (hp : (l' ++ s'.queue .pq).Perm n)
    (hn : n.Sublist (l ++ s.queue .pq)) (hq : (s'.queue .pq).Sublist (s.queue .pq))
    (hh : s'.handles = []) (hu : s'.nextUid = s.nextUid)
    (hc : ∀ cev, s'.curEvent = some cev → cev ∈ l')
    (he : ∀ x ∈ s'.queue .pq, (s'.ev x).causedByMe = [] ∧ (s'.ev x).abortedTotal = 0)
    (hs : s'.sent = s.sent) (hid : s'.seqNum = s.seqNum) : Tidy l' s' := by
  have hnames : (usedNames l' s').Perm (n.map (·.uid)) := by
    unfold usedNames
    rw [hh]
    exact (List.append_nil _).symm ▸ hp.map _
  have hsub : (n.map (·.uid)).Sublist (usedNames l s) :=
    (hn.map _).trans (List.sublist_append_left _ _)
  refine ⟨hnames.nodup_iff.mpr (h.nodup.sublist hsub), fun u hm => ?_, hc, he, fun hlen => ?_⟩
  · rw [hu]
    exact h.lt u (hsub.subset (hnames.mem_iff.mp hm))
  · rw [hs] at hlen
    obtain ⟨hseq, hle, hpw⟩ := h.ids hlen
    rw [hid, hs]
    exact ⟨hseq, fun x hx => hle x (hq.subset hx), hpw.sublist hq⟩

end

/-- A send writes its own buffer, and none of those in the priority queue. -/
theorem sent_ev (h : Tidy l s) {i : Nat} {e : TwEvent T} {msg : M}
    (hi : s.handles[i]? = some (.buffer e msg)) (hs : Sent m s i e msg s') :
    s'.ev (s.stamp e) = ⟨if s.inOrder m (s.stamp e) then .pePq else .peEventQ,
        false, false, false, 0, msg, 0, []⟩ ∧
      ∀ x ∈ s.queue .pq, s'.ev x = s.ev x := by
  refine ⟨hs.new fun hc => ?_, fun x hx => hs.other x (fun he => ?_) fun hc => ?_⟩
  · exact h.uid_unsent hi (List.mem_append_left _ (h.cur _ hc)) rfl
  · exact h.uid_unsent hi (List.mem_append_right _ hx) (congrArg (·.uid) he)
  · exact h.cur_notMem hc hx

theorem sent (h : Tidy l s) {i : Nat} {e : TwEvent T} {msg : M}
    (hi : s.handles[i]? = some (.buffer e msg)) (hs : Sent m s i e msg s') : Tidy l s' := by
  obtain ⟨hnew, hold⟩ := h.sent_ev hi hs
  obtain ⟨g, acm, t, rfl⟩ := hs.eq
  have hpq : s.sentTo m (s.stamp e) .pq = s.stamp e :: s.queue .pq ∨
      s.sentTo m (s.stamp e) .pq = s.queue .pq := by
    unfold sentTo
    split
    · exact .inl Pool.cons_self
    · exact .inr (Pool.snoc_of_ne (by decide))
  -- the name leaves the pointers, for the queue if the event is in order
  have hrest : (usedNames l s).Perm (e.uid :: ((l ++ s.queue .pq).map (·.uid) ++
      (s.handles.set i (.sent (some e))).filterMap Handle.unsent)) :=
    ((unsent_set hi (some e)).append_left _).trans List.perm_middle
  have hsub : ∃ n, n.Sublist (e.uid :: ((l ++ s.queue .pq).map (·.uid) ++
        (s.handles.set i (.sent (some e))).filterMap Handle.unsent)) ∧
      (usedNames l { s with
        handles := s.handles.set i (.sent (some e))
        queue := s.sentTo m (s.stamp e) }).Perm n := by
    unfold usedNames
    dsimp only
    rcases hpq with hpq | hpq
    · refine ⟨_, List.Sublist.refl _, ?_⟩
      rw [hpq, List.map_append, List.map_append, List.map_cons, List.append_assoc,
         List.append_assoc]
      exact List.perm_middle
    · refine ⟨_, List.sublist_cons_self _ _, ?_⟩
      rw [hpq]
  obtain ⟨n, hsub, hperm⟩ := hsub
  refine ⟨?_, fun u hu => ?_, h.cur, fun x hx => ?_, fun hlen => ?_⟩
  · exact hperm.nodup_iff.mpr ((hrest.nodup_iff.mp h.nodup).sublist hsub)
  · exact h.lt u (hrest.mem_iff.mpr (hsub.subset (hperm.mem_iff.mp hu)))
  · have hx : x = s.stamp e ∨ x ∈ s.queue .pq := by
      rcases hpq with hpq | hpq
      · exact List.mem_cons.mp (hpq ▸ hx)
      · exact .inr (hpq ▸ hx)
    rcases hx with rfl | hx
    · rw [hnew]
      exact ⟨rfl, rfl⟩
    · rw [hold x hx]
      exact h.clean x hx
  · dsimp only at hlen ⊢
    rw [List.length_append, List.length_singleton] at hlen ⊢
    obtain ⟨hseq, hle, hpw⟩ := h.ids (by omega)
    have hid : s.nextEventId = s.sent.length + 1 := by
      unfold nextEventId
      rw [hseq, Nat.mod_eq_of_lt hlen]
    have hle' : ∀ x ∈ s.queue .pq, x.eventId < s.nextEventId := fun x hx => by
      have := hle x hx
      omega
    refine ⟨hid, fun x hx => ?_, ?_⟩
    · rcases hpq with hpq | hpq
      · rw [hpq] at hx
        rcases List.mem_cons.mp hx with rfl | hx
        · exact le_rfl
        · exact (hle' x hx).le
      · rw [hpq] at hx
        exact (hle' x hx).le
    · rcases hpq with hpq | hpq
      · rw [hpq]
        exact List.pairwise_cons.mpr ⟨hle', hpw⟩
      · rw [hpq]
        exact hpw

theorem sentAbort (h : Tidy l s) {i : Nat} (hi : s.handles[i]? = some .abort)
    (hs : SentAbort m s i s') : Tidy l s' := by
  have hold : ∀ x ∈ s.queue .pq, s'.ev x = s.ev x := fun x hx =>
    hs.other x fun hc => h.cur_notMem hc hx
  obtain ⟨g, rfl⟩ := hs.eq
  have hperm : ((s.handles.set i (.sent none)).filterMap Handle.unsent).Perm
      (s.handles.filterMap Handle.unsent) := (unsent_set hi none).symm
  have hnames := hperm.append_left ((l ++ s.queue .pq).map (·.uid))
  refine ⟨hnames.nodup_iff.mpr h.nodup, fun u hu => h.lt u (hnames.mem_iff.mp hu), h.cur,
    fun x hx => ?_, h.ids⟩
  rw [hold x hx]
  exact h.clean x hx

theorem eventNew (h : Tidy l s) {destGid lp : Nat} {offsetTs prio : T} {msg : M}
    (hs : s.twEventNewUserPrio m destGid offsetTs lp prio msg = .ok s') : Tidy l s' := by
  obtain ⟨-, ⟨-, rfl⟩ | ⟨-, -, rfl⟩⟩ := twEventNewUserPrio_ok hs
  · have hnames : List.filterMap Handle.unsent (s.handles ++ [.abort]) =
        s.handles.filterMap Handle.unsent := by
      rw [List.filterMap_append]
      exact List.append_nil _
    refine ⟨?_, ?_, h.cur, h.clean, h.ids⟩
    · unfold usedNames
      dsimp only
      rw [hnames]
      exact h.nodup
    · unfold usedNames
      dsimp only
      rw [hnames]
      exact h.lt
  · have hnames : ∀ e : TwEvent T, List.filterMap Handle.unsent (s.handles ++ [.buffer e msg]) =
        s.handles.filterMap Handle.unsent ++ [e.uid] := by
      intro e
      rw [List.filterMap_append]
      rfl
    refine ⟨?_, ?_, h.cur, h.clean, h.ids⟩
    · unfold usedNames
      dsimp only
      rw [hnames, ← List.append_assoc]
      refine h.nodup.append (List.nodup_singleton _) fun u hu hu' => ?_
      have := h.lt u hu
      rw [List.mem_singleton.mp hu'] at this
      exact absurd this (lt_irrefl _)
    · unfold usedNames
      dsimp only
      rw [hnames, ← List.append_assoc]
      intro u hu
      rcases List.mem_append.mp hu with hu | hu
      · exact (h.lt u hu).trans (Nat.lt_succ_self _)
      · rw [List.mem_singleton.mp hu]
        exact Nat.lt_succ_self _

theorem handlerOp (hmap : ∀ i, m.map i = s.id) (h : Tidy l s) {lp : Nat} {op : HandlerOp T M}
    (hs : s.handlerOp m lp op = .ok s') : Tidy l s' := by
  cases op with
  | eventNew destGid offsetTs prio msg => exact h.eventNew hs
  | eventSend i =>
      rcases twEventSend_serial hmap hs with ⟨hi, hs⟩ | ⟨e, msg, hi, hs⟩
      · exact h.sentAbort hi hs
      · exact h.sent hi hs
  | lpSuspend b =>
      cases hs
      exact ⟨h.nodup, h.lt, h.cur, h.clean, h.ids⟩
  | triggerGvtHookNow =>
      rcases twTriggerGvtHookNow_ok hs with rfl | ⟨-, rfl⟩
      · exact h
      · exact ⟨h.nodup, h.lt, h.cur, h.clean, h.ids⟩

end Tidy

/-! ## The handler of one event -/

/-- The core random number generator after one draw. -/
def drawUnif (m : SimModel T S M R) (r : R) : R := (m.randUnif r).2

/-- The children of the event `cev`. -/
def chain (s : Pe T S M R) (cev : TwEvent T) : List (TwEvent T) := (s.ev cev).causedByMe

/-- What the handler of `cev`, called in `s₀`, has done up to `s`. -/
structure Sending (m : SimModel T S M R) (s₀ : Pe T S M R) (cev : TwEvent T) (s : Pe T S M R) :
    Prop where
  id : s.id = s₀.id
  cur : s.curEvent = some cev
  lastSig : s.lastSig = s₀.lastSig
  commits : s.commits = s₀.commits
  lp : ∃ c, s.lp = Function.update s₀.lp cev.destLp { s₀.lp cev.destLp with
    coreRng := (drawUnif m)^[s.handles.length] (s₀.lp cev.destLp).coreRng
    triggeredGvtHook := c }
  count : s.handles.countP Handle.isSent = (s.chain cev).length + (s.ev cev).abortedTotal
  self : s.ev cev = { s₀.ev cev with
    causedByMe := s.chain cev, abortedTotal := (s.ev cev).abortedTotal }
  old : ∀ x, x.uid < s₀.nextUid → x ≠ cev → s.ev x = s₀.ev x
  pq : s.queue .pq = (s.chain cev).filter (s₀.inOrder m) ++ s₀.queue .pq
  eventQ : s.queue .eventQ =
    s₀.queue .eventQ ++ ((s.chain cev).filter fun c => !s₀.inOrder m c).reverse
  queue : ∀ q, q ≠ .pq → q ≠ .eventQ → s.queue q = s₀.queue q
  free : s.freeQ + (s.chain cev).length + (s.handles.filterMap Handle.unsent).length = s₀.freeQ
  sent : s.sent.length = s₀.sent.length + (s.chain cev).length
  child : ∀ c ∈ s.chain cev, c.srcLp = cev.destLp ∧
    (s.ev c).owner = if s₀.inOrder m c then .pePq else .peEventQ
  handles : ∀ e msg, .buffer e msg ∈ s.handles → e.srcLp = cev.destLp
  nodup : ((s.chain cev).map (·.uid) ++ s.handles.filterMap Handle.unsent).Nodup
  ge : ∀ u ∈ (s.chain cev).map (·.uid) ++ s.handles.filterMap Handle.unsent, s₀.nextUid ≤ u
  lt : ∀ u ∈ (s.chain cev).map (·.uid) ++ s.handles.filterMap Handle.unsent, u < s.nextUid
  le : s₀.nextUid ≤ s.nextUid

namespace Sending

variable {s₀ : Pe T S M R}

section

omit [TwStime T]

theorem countP_set {hs : List (Handle T M)} {i : Nat} {a : Handle T M} (h : hs[i]? = some a)
    (ha : a.isSent = false) (o : Option (TwEvent T)) :
    (hs.set i (.sent o)).countP Handle.isSent = hs.countP Handle.isSent + 1 := by
  induction hs generalizing i with
  | nil => simp at h
  | cons b hs ih =>
      cases i with
      | zero =>
          simp only [List.getElem?_cons_zero, Option.some.injEq] at h
          subst h
          rw [List.set_cons_zero, List.countP_cons_of_pos (by rfl),
            List.countP_cons_of_neg (by simp [ha])]
      | succ i =>
          simp only [List.getElem?_cons_succ] at h
          rw [List.set_cons_succ, List.countP_cons, List.countP_cons, ih h]
          omega

theorem drawn_lp {l : Nat → TwLp T S R} {lp n : Nat}
    (h : ∃ c, s.lp = Function.update l lp { l lp with
      coreRng := (drawUnif m)^[n] (l lp).coreRng, triggeredGvtHook := c }) :
    ∃ c, Function.update s.lp lp { s.lp lp with coreRng := (m.randUnif (s.lp lp).coreRng).2 } =
      Function.update l lp { l lp with
        coreRng := (drawUnif m)^[n + 1] (l lp).coreRng, triggeredGvtHook := c } := by
  obtain ⟨c, h⟩ := h
  refine ⟨c, ?_⟩
  rw [h, Function.update_self, Function.update_idem, Function.iterate_succ_apply']
  rfl

end

/-- The event about to be handled has no children yet. -/
theorem enter (hc : s₀.curEvent = some cev) (hh : s₀.handles = []) (hch : s₀.chain cev = [])
    (hab : (s₀.ev cev).abortedTotal = 0) : Sending m s₀ cev s₀ := by
  constructor
  case lp =>
    rw [hh]
    exact ⟨(s₀.lp cev.destLp).triggeredGvtHook, (Function.update_eq_self ..).symm⟩
  case self => rfl
  all_goals simp [hc, hh, hch, hab]

/-- The names of the children and of the unsent buffers. -/
theorem unsent_ge (h : Sending m s₀ cev s) {i : Nat} {e : TwEvent T} {msg : M}
    (hi : s.handles[i]? = some (.buffer e msg)) :
    s₀.nextUid ≤ e.uid ∧ e.uid < s.nextUid ∧ ∀ c ∈ s.chain cev, c.uid ≠ e.uid := by
  have he : e.uid ∈ s.handles.filterMap Handle.unsent :=
    List.mem_filterMap.mpr ⟨.buffer e msg, List.mem_of_getElem? hi, rfl⟩
  refine ⟨h.ge _ (List.mem_append_right _ he), h.lt _ (List.mem_append_right _ he),
    fun c hc hu => ?_⟩
  exact (List.disjoint_of_nodup_append h.nodup) (List.mem_map_of_mem hc) (hu ▸ he)

theorem sentEvent (hcev : cev.uid < s₀.nextUid) (h : Sending m s₀ cev s) {i : Nat} {e : TwEvent T}
    {msg : M} (hi : s.handles[i]? = some (.buffer e msg)) (hs : Sent m s i e msg s') :
    Sending m s₀ cev s' := by
  obtain ⟨hge, hlt, hne⟩ := h.unsent_ge hi
  have hcs : cev ≠ s.stamp e := fun he => by
    have : cev.uid = e.uid := congrArg (·.uid) he
    omega
  have hnew := hs.new fun hc => hcs (Option.some.inj (h.cur.symm.trans hc))
  have hself := hs.cur cev h.cur hcs
  have hchain : s'.chain cev = s.stamp e :: s.chain cev := by rw [chain, hself]; rfl
  have hab : (s'.ev cev).abortedTotal = (s.ev cev).abortedTotal := by rw [hself]
  have hold : ∀ x, x ≠ s.stamp e → x ≠ cev → s'.ev x = s.ev x := fun x hx hxc =>
    hs.other x hx fun hc => hxc (Option.some.inj (h.cur.symm.trans hc)).symm
  have hord : s.inOrder m = s₀.inOrder m := by
    unfold inOrder
    rw [h.lastSig]
  have hchild : ∀ c ∈ s.chain cev, s'.ev c = s.ev c := fun c hc => by
    refine hold c (fun he => hne c hc (congrArg (·.uid) he)) fun he => ?_
    have hcu : s₀.nextUid ≤ c.uid := h.ge _ (List.mem_append_left _ (List.mem_map_of_mem hc))
    have : c.uid = cev.uid := congrArg (·.uid) he
    omega
  have hunsent := unsent_set hi (some e)
  have hnames : ((s.chain cev).map (·.uid) ++ s.handles.filterMap Handle.unsent).Perm
      ((s'.chain cev).map (·.uid) ++
        (s.handles.set i (.sent (some e))).filterMap Handle.unsent) := by
    rw [hchain]
    exact (hunsent.append_left _).trans List.perm_middle
  have hsrc := h.handles e msg (List.mem_of_getElem? hi)
  have hcount := countP_set hi rfl (some e)
  obtain ⟨g, acm, t, hs'⟩ := hs.eq
  have hh : s'.handles = s.handles.set i (.sent (some e)) := by rw [hs']
  have hq : s'.queue = s.sentTo m (s.stamp e) := by rw [hs']
  rw [← hh] at hnames hcount hunsent
  constructor
  case id => rw [hs']; exact h.id
  case cur => rw [hs']; exact h.cur
  case lastSig => rw [hs']; exact h.lastSig
  case commits => rw [hs']; exact h.commits
  case lp =>
    have : s'.handles.length = s.handles.length := by rw [hh, List.length_set]
    rw [this, hs']
    exact h.lp
  case count =>
    rw [hcount, hchain, hab, h.count, List.length_cons]
    omega
  case self =>
    rw [hchain, hab, hself]
    exact congrArg (fun st : EventState T M =>
      { st with causedByMe := s.stamp e :: s.chain cev }) h.self
  case old =>
    intro x hx hxc
    rw [hold x (fun he => ?_) hxc]
    · exact h.old x hx hxc
    · have : x.uid = e.uid := congrArg (·.uid) he
      omega
  case pq =>
    rw [hchain, hq, sentTo, hord, List.filter_cons]
    split
    · rw [Pool.cons_self, h.pq]
      rfl
    · rw [Pool.snoc_of_ne (by decide), h.pq]
  case eventQ =>
    rw [hchain, hq, sentTo, hord, List.filter_cons]
    split
    next hin =>
      rw [Pool.cons_of_ne (by decide), h.eventQ, hin]
      rfl
    next hin =>
      rw [Pool.snoc_self, h.eventQ, Bool.eq_false_iff.mpr hin]
      simp
  case queue =>
    intro q hqp hqe
    rw [hq, sentTo]
    split
    · rw [Pool.cons_of_ne hqp, h.queue q hqp hqe]
    · rw [Pool.snoc_of_ne hqe, h.queue q hqp hqe]
  case free =>
    have hlen := hunsent.length_eq
    rw [List.length_append] at hlen
    have hone : (Handle.unsent (.buffer e msg : Handle T M)).toList.length = 1 := rfl
    have hfree := h.free
    have : s'.freeQ = s.freeQ := by rw [hs']
    rw [hchain, List.length_cons, this]
    omega
  case sent =>
    have : s'.sent = s.sent ++ [s.stamp e] := by rw [hs']
    rw [this, hchain, List.length_append, List.length_cons, h.sent]
    rfl
  case child =>
    intro c hc
    rw [hchain] at hc
    rcases List.mem_cons.mp hc with rfl | hc
    · rw [hnew, hord]
      exact ⟨hsrc, rfl⟩
    · rw [hchild c hc]
      exact h.child c hc
  case handles =>
    intro e' msg' he'
    rw [hh] at he'
    exact h.handles e' msg' (buffer_mem_of_set he')
  case nodup => exact hnames.nodup_iff.mp h.nodup
  case ge => exact fun u hu => h.ge u (hnames.mem_iff.mpr hu)
  case lt => 
    intro u hu
    rw [hs']
    exact h.lt u (hnames.mem_iff.mpr hu)
  case le => rw [hs']; exact h.le

theorem sentAbort (h : Sending m s₀ cev s) (hcev : cev.uid < s₀.nextUid) {i : Nat}
    (hi : s.handles[i]? = some .abort) (hs : SentAbort m s i s') : Sending m s₀ cev s' := by
  have hself := hs.cur cev h.cur
  have hchain : s'.chain cev = s.chain cev := by rw [chain, hself]; rfl
  have hold : ∀ x, x ≠ cev → s'.ev x = s.ev x := fun x hx =>
    hs.other x fun hc => hx (Option.some.inj (h.cur.symm.trans hc)).symm
  have hunsent : ((s.handles.set i (.sent none)).filterMap Handle.unsent).Perm
      (s.handles.filterMap Handle.unsent) := (unsent_set hi none).symm
  have hcount := countP_set hi rfl none
  obtain ⟨g, hs'⟩ := hs.eq
  have hh : s'.handles = s.handles.set i (.sent none) := by rw [hs']
  have hq : s'.queue = s.queue := by rw [hs']
  rw [← hh] at hunsent hcount
  have hnames := hunsent.append_left ((s.chain cev).map (·.uid))
  constructor
  case id => rw [hs']; exact h.id
  case cur => rw [hs']; exact h.cur
  case lastSig => rw [hs']; exact h.lastSig
  case commits => rw [hs']; exact h.commits
  case lp =>
    have : s'.handles.length = s.handles.length := by rw [hh, List.length_set]
    rw [this, hs']
    exact h.lp
  case count =>
    rw [hcount, hchain, h.count, hself]
    rfl
  case self =>
    rw [hchain, hself]
    exact congrArg (fun st : EventState T M =>
      { st with abortedTotal := (s.ev cev).abortedTotal + 1 }) h.self
  case old =>
    intro x hx hxc
    rw [hold x hxc]
    exact h.old x hx hxc
  case pq => rw [hchain, hq]; exact h.pq
  case eventQ => rw [hchain, hq]; exact h.eventQ
  case queue => rw [hq]; exact h.queue
  case free =>
    have : s'.freeQ = s.freeQ := by rw [hs']
    rw [hchain, hunsent.length_eq, this]
    exact h.free
  case sent =>
    have : s'.sent = s.sent := by rw [hs']
    rw [hchain, this]
    exact h.sent
  case child =>
    intro c hc
    rw [hchain] at hc
    have hcu : s₀.nextUid ≤ c.uid := h.ge _ (List.mem_append_left _ (List.mem_map_of_mem hc))
    rw [hold c fun he => ?_]
    · exact h.child c hc
    · have : c.uid = cev.uid := congrArg (·.uid) he
      omega
  case handles =>
    intro e msg he
    rw [hh] at he
    exact h.handles e msg (buffer_mem_of_set he)
  case nodup => rw [hchain]; exact hnames.nodup_iff.mpr h.nodup
  case ge => rw [hchain]; exact fun u hu => h.ge u (hnames.mem_iff.mp hu)
  case lt =>
    have : s'.nextUid = s.nextUid := by rw [hs']
    rw [hchain, this]
    exact fun u hu => h.lt u (hnames.mem_iff.mp hu)
  case le => rw [hs']; exact h.le

theorem eventNew (h : Sending m s₀ cev s) {destGid : Nat} {offsetTs prio : T} {msg : M}
    (hs : s.twEventNewUserPrio m destGid offsetTs cev.destLp prio msg = .ok s') :
    Sending m s₀ cev s' := by
  have hlp := drawn_lp h.lp
  obtain ⟨-, ⟨-, rfl⟩ | ⟨-, hpos, rfl⟩⟩ := twEventNewUserPrio_ok hs
  · have hnames : List.filterMap Handle.unsent (s.handles ++ [.abort]) =
        s.handles.filterMap Handle.unsent := by
      rw [List.filterMap_append]
      exact List.append_nil _
    have hcount : List.countP Handle.isSent (s.handles ++ [.abort]) =
        s.handles.countP Handle.isSent := by
      rw [List.countP_append]
      rfl
    refine ⟨h.id, h.cur, h.lastSig, h.commits, ?_, hcount.trans h.count, h.self, h.old, h.pq,
      h.eventQ, h.queue, ?_, h.sent, h.child, fun e msg he => ?_, ?_, ?_, ?_, h.le⟩
    · dsimp only
      rw [List.length_append]
      exact hlp
    · dsimp only
      rw [hnames]
      exact h.free
    · rcases List.mem_append.mp he with he | he
      · exact h.handles e msg he
      · cases List.mem_singleton.mp he
    all_goals
      dsimp only
      rw [hnames]
    · exact h.nodup
    · exact h.ge
    · exact h.lt
  · have hnames : ∀ e : TwEvent T, List.filterMap Handle.unsent (s.handles ++ [.buffer e msg]) =
        s.handles.filterMap Handle.unsent ++ [e.uid] := by
      intro e
      rw [List.filterMap_append]
      rfl
    have hcount : ∀ e : TwEvent T, List.countP Handle.isSent (s.handles ++ [.buffer e msg]) =
        s.handles.countP Handle.isSent := by
      intro e
      rw [List.countP_append]
      rfl
    refine ⟨h.id, h.cur, h.lastSig, h.commits, ?_, (hcount _).trans h.count, h.self, h.old, h.pq,
      h.eventQ, h.queue, ?_, h.sent, h.child, fun e msg' he => ?_, ?_, ?_, ?_, h.le.trans
      (Nat.le_succ _)⟩
    · dsimp only
      rw [List.length_append]
      exact hlp
    · dsimp only
      rw [hnames, List.length_append, List.length_singleton]
      have hfree := h.free
      have hchain : ∀ s : Pe T S M R, s.chain cev = (s.ev cev).causedByMe := fun _ => rfl
      rw [hchain] at hfree ⊢
      dsimp only
      omega
    · rcases List.mem_append.mp he with he | he
      · exact h.handles e msg' he
      · cases List.mem_singleton.mp he
        rfl
    · dsimp only
      rw [hnames, ← List.append_assoc]
      refine h.nodup.append (List.nodup_singleton _) fun u hu hu' => ?_
      have := h.lt u hu
      rw [List.mem_singleton.mp hu'] at this
      exact absurd this (lt_irrefl _)
    all_goals
      dsimp only
      rw [hnames, ← List.append_assoc]
      intro u hu
    · rcases List.mem_append.mp hu with hu | hu
      · exact h.ge u hu
      · rw [List.mem_singleton.mp hu]
        exact h.le
    · rcases List.mem_append.mp hu with hu | hu
      · exact (h.lt u hu).trans (Nat.lt_succ_self _)
      · rw [List.mem_singleton.mp hu]
        exact Nat.lt_succ_self _

end Sending

/-- The call is not one of `tw_lp_suspend`. -/
def isAwake : HandlerOp T M → Prop
  | .lpSuspend _ => False
  | _ => True

namespace Sending

variable {s₀ : Pe T S M R}

theorem handlerOp (hmap : ∀ i, m.map i = s₀.id) (hcev : cev.uid < s₀.nextUid)
    (h : Sending m s₀ cev s) {op : HandlerOp T M} (hop : isAwake op)
    (hs : s.handlerOp m cev.destLp op = .ok s') : Sending m s₀ cev s' := by
  cases op with
  | eventNew destGid offsetTs prio msg => exact h.eventNew hs
  | eventSend i =>
      rcases twEventSend_serial (fun i => (hmap i).trans h.id.symm) hs with
        ⟨hi, hs⟩ | ⟨e, msg, hi, hs⟩
      · exact h.sentAbort hcev hi hs
      · exact h.sentEvent hcev hi hs
  | lpSuspend b => exact hop.elim
  | triggerGvtHookNow =>
      rcases twTriggerGvtHookNow_ok hs with rfl | ⟨-, rfl⟩
      · exact h
      · refine ⟨h.id, h.cur, h.lastSig, h.commits, ?_, h.count, h.self, h.old, h.pq, h.eventQ,
          h.queue, h.free, h.sent, h.child, h.handles, h.nodup, h.ge, h.lt, h.le⟩
        obtain ⟨c, hlp⟩ := h.lp
        refine ⟨c + 1, ?_⟩
        dsimp only
        rw [hlp, Function.update_self, Function.update_idem]

theorem runOps (hmap : ∀ i, m.map i = s₀.id) (hcev : cev.uid < s₀.nextUid)
    {ops : List (HandlerOp T M)} (h : Sending m s₀ cev s) (hops : ∀ op ∈ ops, isAwake op)
    (hs : s.runOps m cev.destLp ops = .ok s') : Sending m s₀ cev s' := by
  apply runOps_invariant m _ h hs
  intro s s' op hop hsend hstep
  exact hsend.handlerOp hmap hcev (hops op hop) hstep

end Sending

/-! ## Every event created is sent -/

/-- The call creates an event. -/
def isNew : HandlerOp T M → Bool
  | .eventNew .. => true
  | _ => false

/-- The handler sends every event that it creates. -/
def SendsAll (ops : List (HandlerOp T M)) : Prop :=
  ∀ i < ops.countP isNew, HandlerOp.eventSend i ∈ ops

/-- What a call does to the handler's pointers. -/
theorem handlerOp_handles {lp : Nat} {op : HandlerOp T M} (h : s.handlerOp m lp op = .ok s') :
    s'.handles.length = s.handles.length + (if isNew op then 1 else 0) ∧
      (∀ (i : Nat) o, s.handles[i]? = some (.sent o) → s'.handles[i]? = some (.sent o)) ∧
      ∀ i : Nat, op = .eventSend i → ∃ o, s'.handles[i]? = some (.sent o) := by
  cases op with
  | eventNew destGid offsetTs prio msg =>
      have key : ∃ a, s'.handles = s.handles ++ [a] := by
        obtain ⟨-, ⟨-, rfl⟩ | ⟨-, -, rfl⟩⟩ := twEventNewUserPrio_ok h
        · exact ⟨_, rfl⟩
        · exact ⟨_, rfl⟩
      obtain ⟨a, ha⟩ := key
      rw [ha]
      refine ⟨List.length_append, fun i o hi => ?_, fun i hi => by cases hi⟩
      rw [List.getElem?_append_left (List.getElem?_eq_some_iff.mp hi).1]
      exact hi
  | eventSend i =>
      have key : ∃ a o, s.handles[i]? = some a ∧ (∀ o, a ≠ .sent o) ∧
          s'.handles = s.handles.set i (.sent o) := by
        have hset : ∀ e : TwEvent T, ∀ p : Pe T S M R, (p.deliver m e).handles = p.handles := by
          intro e p
          rcases deliver_cases m p e with ⟨-, -, hd⟩ | ⟨-, -, hd⟩ | ⟨-, hd⟩ <;> rw [hd]
        rcases twEventSend_ok h with ⟨hi, rfl⟩ | ⟨e, msg, hi, -, rfl⟩
        · exact ⟨_, none, hi, fun o ho => (by cases ho), rfl⟩
        · exact ⟨_, some e, hi, fun o ho => (by cases ho), hset _ _⟩
      obtain ⟨a, o, hi, ha, hh⟩ := key
      have hlt := (List.getElem?_eq_some_iff.mp hi).1
      rw [hh]
      refine ⟨List.length_set, fun j o' hj => ?_, fun j hj => ?_⟩
      · have hne : i ≠ j := fun he => ha o' (Option.some.inj (hi.symm.trans (he ▸ hj)))
        rw [List.getElem?_set_ne hne]
        exact hj
      · cases hj
        exact ⟨o, List.getElem?_set_self hlt⟩
  | lpSuspend b =>
      cases h
      exact ⟨rfl, fun _ _ hi => hi, fun i hi => by cases hi⟩
  | triggerGvtHookNow =>
      rcases twTriggerGvtHookNow_ok h with rfl | ⟨-, rfl⟩
      · exact ⟨rfl, fun _ _ hi => hi, fun i hi => by cases hi⟩
      · exact ⟨rfl, fun _ _ hi => hi, fun i hi => by cases hi⟩

theorem runOps_handles {lp : Nat} {ops : List (HandlerOp T M)} (h : s.runOps m lp ops = .ok s') :
    s'.handles.length = s.handles.length + ops.countP isNew ∧
      (∀ (i : Nat) o, s.handles[i]? = some (.sent o) → s'.handles[i]? = some (.sent o)) ∧
      ∀ i : Nat, HandlerOp.eventSend i ∈ ops → ∃ o, s'.handles[i]? = some (.sent o) := by
  induction ops generalizing s with
  | nil =>
      cases h
      exact ⟨rfl, fun _ _ hi => hi, fun i hi => absurd hi List.not_mem_nil⟩
  | cons op ops ih =>
      unfold runOps at h
      split at h
      next s₁ hs₁ =>
        obtain ⟨hlen₁, hkeep₁, hsend₁⟩ := handlerOp_handles hs₁
        obtain ⟨hlen, hkeep, hsend⟩ := ih h
        refine ⟨?_, fun i o hi => hkeep i o (hkeep₁ i o hi), fun i hi => ?_⟩
        · rw [hlen, hlen₁, List.countP_cons]
          omega
        · rcases List.mem_cons.mp hi with hi | hi
          · obtain ⟨o, ho⟩ := hsend₁ i hi.symm
            exact ⟨o, hkeep i o ho⟩
          · exact hsend i hi
      · cases h

/-- No buffer is left unsent when the handler returns. -/
theorem runOps_allSent {lp : Nat} {ops : List (HandlerOp T M)} (hh : s.handles = [])
    (h : s.runOps m lp ops = .ok s') (ha : SendsAll ops) :
    s'.handles.countP Handle.isSent = s'.handles.length ∧
      s'.handles.filterMap Handle.unsent = [] := by
  obtain ⟨hlen, -, hsend⟩ := runOps_handles h
  rw [hh, List.length_nil, Nat.zero_add] at hlen
  have hall : ∀ a ∈ s'.handles, a.isSent = true := by
    intro a hm
    obtain ⟨i, hi, rfl⟩ := List.mem_iff_getElem.mp hm
    obtain ⟨o, ho⟩ := hsend i (ha i (hlen ▸ hi))
    rw [(List.getElem?_eq_some_iff.mp ho).2]
    rfl
  refine ⟨List.countP_eq_length.mpr hall, List.filterMap_eq_nil_iff.mpr fun a hm => ?_⟩
  have := hall a hm
  cases a with
  | sent o => rfl
  | buffer e msg => cases this
  | abort => cases this

/-! ## What no call changes -/

/-- What no call changes is the same after the handler. -/
theorem runOps_keeps {α : Type} (f : Pe T S M R → α) {m : SimModel T S M R} {lp : Nat}
    {s s' : Pe T S M R} {ops : List (HandlerOp T M)}
    (hstep : ∀ (s s' : Pe T S M R), ∀ op ∈ ops, s.handlerOp m lp op = .ok s' → f s' = f s)
    (h : s.runOps m lp ops = .ok s') : f s' = f s := by
  apply runOps_invariant (P := fun s' => f s' = f s) m _ rfl h
  intro s₁ s₂ op hop hkeep hs₂
  rw [hstep s₁ s₂ op hop hs₂, hkeep]

/-- A handler that does not call `tw_lp_suspend` leaves every LP awake. -/
theorem handlerOp_suspendFlag {m : SimModel T S M R} {s s' : Pe T S M R} {lp : Nat}
    {op : HandlerOp T M} (hop : isAwake op) (h : s.handlerOp m lp op = .ok s') (i : Nat) :
    (s'.lp i).suspendFlag = (s.lp i).suspendFlag ∧ s'.curEvent = s.curEvent ∧
      s'.commits = s.commits := by
  cases op with
  | eventNew destGid offsetTs prio msg =>
      have hdraw : ((s.drawnLp m lp) i).suspendFlag = (s.lp i).suspendFlag := by
        exact TwLp.update_field (·.suspendFlag) s.lp lp (by rfl) i
      obtain ⟨-, ⟨-, rfl⟩ | ⟨-, -, rfl⟩⟩ := twEventNewUserPrio_ok h
      · exact ⟨hdraw, rfl, rfl⟩
      · exact ⟨hdraw, rfl, rfl⟩
  | eventSend i =>
      have hset : ∀ e : TwEvent T, ∀ p : Pe T S M R, (p.deliver m e).lp = p.lp ∧
          (p.deliver m e).curEvent = p.curEvent ∧ (p.deliver m e).commits = p.commits := by
        intro e p
        rcases deliver_cases m p e with ⟨-, -, hd⟩ | ⟨-, -, hd⟩ | ⟨-, hd⟩ <;> rw [hd] <;>
          exact ⟨rfl, rfl, rfl⟩
      rcases twEventSend_ok h with ⟨-, rfl⟩ | ⟨e, msg, -, -, rfl⟩
      · exact ⟨rfl, rfl, rfl⟩
      · obtain ⟨hl, hc, hcom⟩ := hset (s.stamp e) (s.prepare _ e msg)
        refine ⟨?_, hc, hcom⟩
        rw [hl]
        rfl
  | lpSuspend b => exact hop.elim
  | triggerGvtHookNow =>
      rcases twTriggerGvtHookNow_ok h with rfl | ⟨-, rfl⟩
      · exact ⟨rfl, rfl, rfl⟩
      · exact ⟨TwLp.update_field (·.suspendFlag) s.lp lp (by rfl) i, rfl, rfl⟩

/-- The name of the abort event. -/
def abortName (s : Pe T S M R) : Nat × Nat := (s.abortEvent.uid, s.abortEvent.eventId)

theorem handlerOp_abortName {m : SimModel T S M R} {s s' : Pe T S M R} {lp : Nat}
    {op : HandlerOp T M} (h : s.handlerOp m lp op = .ok s') : s'.abortName = s.abortName := by
  cases op with
  | eventNew destGid offsetTs prio msg =>
      obtain ⟨-, ⟨-, rfl⟩ | ⟨-, -, rfl⟩⟩ := twEventNewUserPrio_ok h <;> rfl
  | eventSend i =>
      have hset : ∀ e : TwEvent T, ∀ p : Pe T S M R, (p.deliver m e).abortName = p.abortName := by
        intro e p
        rcases deliver_cases m p e with ⟨-, -, hd⟩ | ⟨-, -, hd⟩ | ⟨-, hd⟩ <;> rw [hd] <;> rfl
      rcases twEventSend_ok h with ⟨-, rfl⟩ | ⟨e, msg, -, -, rfl⟩
      · rfl
      · exact hset _ _
  | lpSuspend b =>
      cases h
      rfl
  | triggerGvtHookNow =>
      rcases twTriggerGvtHookNow_ok h with rfl | ⟨-, rfl⟩ <;> rfl

/-- A handler only takes free buffers. -/
theorem handlerOp_free {m : SimModel T S M R} {s s' : Pe T S M R} {lp : Nat} {op : HandlerOp T M}
    (h : s.handlerOp m lp op = .ok s') : s'.freeQ ≤ s.freeQ ∧ s'.id = s.id ∧
      s'.lastSig = s.lastSig := by
  cases op with
  | eventNew destGid offsetTs prio msg =>
      obtain ⟨-, ⟨-, rfl⟩ | ⟨-, -, rfl⟩⟩ := twEventNewUserPrio_ok h
      · exact ⟨le_rfl, rfl, rfl⟩
      · exact ⟨Nat.sub_le _ _, rfl, rfl⟩
  | eventSend i =>
      have hset : ∀ e : TwEvent T, ∀ p : Pe T S M R, (p.deliver m e).freeQ = p.freeQ ∧
          (p.deliver m e).id = p.id ∧ (p.deliver m e).lastSig = p.lastSig := by
        intro e p
        rcases deliver_cases m p e with ⟨-, -, hd⟩ | ⟨-, -, hd⟩ | ⟨-, hd⟩ <;> rw [hd] <;>
          exact ⟨rfl, rfl, rfl⟩
      rcases twEventSend_ok h with ⟨-, rfl⟩ | ⟨e, msg, -, -, rfl⟩
      · exact ⟨le_rfl, rfl, rfl⟩
      · obtain ⟨hf, hi, hl⟩ := hset (s.stamp e) (s.prepare i e msg)
        exact ⟨hf.le, hi, hl⟩
  | lpSuspend b =>
      cases h
      exact ⟨le_rfl, rfl, rfl⟩
  | triggerGvtHookNow =>
      rcases twTriggerGvtHookNow_ok h with rfl | ⟨-, rfl⟩ <;> exact ⟨le_rfl, rfl, rfl⟩

theorem runOps_free {m : SimModel T S M R} {s s' : Pe T S M R} {lp : Nat}
    {ops : List (HandlerOp T M)} (h : s.runOps m lp ops = .ok s') : s'.freeQ ≤ s.freeQ ∧
      s'.id = s.id ∧ s'.lastSig = s.lastSig := by
  apply runOps_invariant (P := fun s' => s'.freeQ ≤ s.freeQ ∧ s'.id = s.id ∧
    s'.lastSig = s.lastSig) m _ ⟨le_rfl, rfl, rfl⟩ h
  intro s₁ s₂ op _ hkeep hs₂
  obtain ⟨hf₁, hi₁, hl₁⟩ := hkeep
  obtain ⟨hf, hi, hl⟩ := handlerOp_free hs₂
  exact ⟨hf.trans hf₁, hi.trans hi₁, hl.trans hl₁⟩

theorem Tidy.runOps {m : SimModel T S M R} {s s' : Pe T S M R} {l : List (TwEvent T)} {lp : Nat}
    {ops : List (HandlerOp T M)} (hmap : ∀ i, m.map i = s.id) (hl : Tidy l s)
    (h : s.runOps m lp ops = .ok s') : Tidy l s' := by
  have hrun : (∀ i, m.map i = s'.id) ∧ Tidy l s' := by
    apply runOps_invariant (P := fun s => (∀ i, m.map i = s.id) ∧ Tidy l s) m _ ⟨hmap, hl⟩ h
    intro s₁ s₂ op _ htidy hs₂
    obtain ⟨hmap₁, hl₁⟩ := htidy
    have hid := (handlerOp_free hs₂).2.1
    exact ⟨fun i => (hmap₁ i).trans hid.symm, hl₁.handlerOp hmap₁ hs₂⟩
  exact hrun.2

/-! ## Entering a handler -/

/-- What the handler does with the event on an all-zero bitfield. -/
def firstPass (m : SimModel T S M R) (s : Pe T S M R) (cev : TwEvent T) : Handled T S M :=
  m.event cev.destLp cev.sig.recvTs (s.lp cev.destLp).curState 0 (s.ev cev).msg

/-- The state in which the handler of `cev` makes its calls after it left `h`. -/
def entered (m : SimModel T S M R) (s : Pe T S M R) (cev : TwEvent T) (h : Handled T S M) :
    Pe T S M R :=
  { s with
    curEvent := some cev
    lastSig := Function.update s.lastSig (m.kpOf cev.destLp) cev.sig
    lp := Function.update s.lp cev.destLp { s.lp cev.destLp with curState := h.state }
    ev := Function.update s.ev cev { s.ev cev with cv := h.cv, msg := h.msg }
    handles := [] }

theorem beginEvent_handled (m : SimModel T S M R) (s : Pe T S M R) (cev : TwEvent T) :
    (s.beginEvent m cev).handled m cev = s.firstPass m cev := by
  have hnow : (s.beginEvent m cev).twNow m cev.destLp = cev.sig.recvTs := by
    show (Function.update s.lastSig (m.kpOf cev.destLp) cev.sig (m.kpOf cev.destLp)).recvTs = _
    rw [Function.update_self]
  have hev : (s.beginEvent m cev).ev cev = { s.ev cev with cv := 0 } :=
    Function.update_self ..
  unfold handled
  rw [hnow, hev]
  rfl

theorem beginEvent_enter (m : SimModel T S M R) (s : Pe T S M R) (cev : TwEvent T) :
    (s.beginEvent m cev).enter m cev = s.entered m cev (s.firstPass m cev) := by
  unfold enter
  rw [beginEvent_handled]
  let f := Function.update s.ev cev { s.ev cev with cv := 0 }
  have hf : Function.update f cev { f cev with
        cv := (s.firstPass m cev).cv, msg := (s.firstPass m cev).msg } =
      Function.update s.ev cev { s.ev cev with
        cv := (s.firstPass m cev).cv, msg := (s.firstPass m cev).msg } := by
    have hfc : f cev = { s.ev cev with cv := 0 } := Function.update_self ..
    rw [hfc, Function.update_idem]
  exact congrArg (fun g => { s.entered m cev (s.firstPass m cev) with ev := g }) hf

section Entered

variable {m : SimModel T S M R} {s s₁ : Pe T S M R} {cev : TwEvent T} {hd : Handled T S M}

theorem entered_sending (hc : (s.ev cev).causedByMe = [] ∧ (s.ev cev).abortedTotal = 0) :
    Sending m (s.entered m cev hd) cev
      (s.entered m cev hd) := by
  have hev : (s.entered m cev hd).ev cev =
      { s.ev cev with cv := hd.cv, msg := hd.msg } := Function.update_self ..
  refine Sending.enter rfl rfl ?_ ?_
  · rw [chain, hev]
    exact hc.1
  · rw [hev]
    exact hc.2

theorem entered_lp (h : Handled T S M) : (s.entered m cev h).lp cev.destLp =
    { s.lp cev.destLp with curState := h.state } := Function.update_self ..

theorem entered_lastSig (h : Handled T S M) :
    (s.entered m cev h).lastSig (m.kpOf cev.destLp) = cev.sig := Function.update_self ..

/-- What the handler of `cev` left is there until the event is committed. -/
theorem sending_final (h : Sending m (s.entered m cev hd) cev s₁) :
    s₁.twNow m cev.destLp = cev.sig.recvTs ∧
      (s₁.lp cev.destLp).curState = hd.state ∧ (s₁.ev cev).cv = hd.cv ∧
      (s₁.ev cev).msg = hd.msg := by
  have hev : (s.entered m cev hd).ev cev =
      { s.ev cev with cv := hd.cv, msg := hd.msg } := Function.update_self ..
  refine ⟨?_, ?_, ?_, ?_⟩
  · unfold twNow
    rw [h.lastSig, entered_lastSig]
  · obtain ⟨c, hlp⟩ := h.lp
    rw [hlp, Function.update_self, entered_lp]
  · rw [h.self, hev]
  · rw [h.self, hev]

end Entered

/-! ## Dequeueing an event -/

section Dequeue

variable {s s' : Pe T S M R} {x : TwEvent T}

/-- The state `s'` after the dequeue of `x`, which stood between `l₁` and `l₂` while
the buffers `l` were held. -/
structure Dequeued (l : List (TwEvent T)) (s : Pe T S M R) (x : TwEvent T)
    (l₁ l₂ : List (TwEvent T)) (s' : Pe T S M R) : Prop where
  eq : ∃ q g, s' = { s with queue := q, ev := g }
  split : s.queue .pq = l₁ ++ x :: l₂
  pq : s'.queue .pq = l₁ ++ l₂
  queue : ∀ q, q ≠ .pq → q ≠ .hand → s'.queue q = s.queue q
  notMem : x ∉ l₁ ++ l₂
  self : s'.ev x = { s.ev x with owner := .unowned }
  ev : ∀ a, a ≠ x → s'.ev a = s.ev a
  tidy : ∀ (m : SimModel T S M R) h (l' : List (TwEvent T)), l'.Sublist l →
    Tidy (x :: l') (s'.entered m x h)
  clean : (s'.ev x).causedByMe = [] ∧ (s'.ev x).abortedTotal = 0

theorem twPqDequeue_tidy {l l₁ l₂ : List (TwEvent T)} (hl : Tidy l s)
    (hx : pqLeast (s.queue .pq) = some x) (hq : s.queue .pq = l₁ ++ x :: l₂) :
    ∃ s', s.twPqDequeue = some (x, s') ∧ Dequeued l s x l₁ l₂ s' := by
  have hxm : x ∈ s.queue .pq := by
    rw [hq]
    exact List.mem_append_right _ List.mem_cons_self
  have hnd : (l₁ ++ x :: l₂).Nodup := by
    have hn := hl.nodup.of_append_left
    rw [List.map_append, hq] at hn
    exact hn.of_append_right.of_map
  have hnot : x ∉ l₁ ++ l₂ := (List.nodup_middle.mp hnd).notMem
  have hn₁ : x ∉ l₁ := fun hm => hnot (List.mem_append_left _ hm)
  have hev : ∀ a, a ≠ x → ((s.twPqDeleteAny x).unshift .hand x).ev a = s.ev a := fun a ha =>
    Function.update_of_ne ha ..
  have hself : ((s.twPqDeleteAny x).unshift .hand x).ev x = { s.ev x with owner := .unowned } :=
    Function.update_self ..
  have hpq : ((s.twPqDeleteAny x).unshift .hand x).queue .pq = l₁ ++ l₂ := by
    show Pool.cons (Pool.remove s.queue .pq x) .hand x .pq = _
    rw [Pool.cons_of_ne (by decide), Pool.remove_self, hq, List.erase_append_right _ hn₁,
      List.erase_cons_head]
  have hqueue : ∀ q, q ≠ .pq → q ≠ .hand →
      ((s.twPqDeleteAny x).unshift .hand x).queue q = s.queue q := fun q hqp hqh => by
    show Pool.cons (Pool.remove s.queue .pq x) .hand x q = _
    rw [Pool.cons_of_ne hqh, Pool.remove_of_ne hqp]
  have hsub : (l₁ ++ l₂).Sublist (s.queue .pq) := by
    rw [hq]
    exact (List.sublist_cons_self x l₂).append_left l₁
  refine ⟨(s.twPqDeleteAny x).unshift .hand x, ?_,
    ⟨⟨_, _, rfl⟩, hq, hpq, hqueue, hnot, hself, hev, fun m h l' hl' => ?_, ?_⟩⟩
  · unfold twPqDequeue
    rw [hx]
  · refine hl.shrink (n := l' ++ (l₁ ++ x :: l₂)) ?_ ?_ ?_ rfl rfl ?_ ?_ rfl rfl
    · show (x :: l' ++ ((s.twPqDeleteAny x).unshift .hand x).queue .pq).Perm _
      rw [hpq, List.cons_append]
      exact (List.perm_middle.symm).trans (List.perm_middle.symm.append_left l')
    · rw [hq]
      exact hl'.append_right _
    · show (((s.twPqDeleteAny x).unshift .hand x).queue .pq).Sublist _
      rw [hpq]
      exact hsub
    · intro c hc
      have hxc : x = c := Option.some.inj hc
      rw [← hxc]
      exact List.mem_cons_self
    · intro a ha
      have ha' : a ∈ l₁ ++ l₂ := hpq ▸ ha
      have hne := ne_of_mem_of_not_mem ha' hnot
      have hent : ∀ p : Pe T S M R, (p.entered m x h).ev a = p.ev a := fun p =>
        Function.update_of_ne hne ..
      rw [hent, hev a hne]
      exact hl.clean a (hsub.subset ha')
  · rw [hself]
    exact hl.clean x hxm

end Dequeue

/-! ## Before the loop -/

section Init

variable {s : Pe T S M R}

/-- The state in which an `init` handler of `lp` makes its calls. -/
def initEntered (s : Pe T S M R) (lp : Nat) (st : S) : Pe T S M R :=
  { s.setLp lp { s.lp lp with curState := st } with
    curEvent := none, abortCausedByMe := [], handles := [] }

omit [TwStime T] in
theorem Tidy.initEntered (h : Tidy [] s) (lp : Nat) (st : S) : Tidy [] (s.initEntered lp st) :=
  h.shrink (List.Perm.refl _) (List.Sublist.refl _) (List.Sublist.refl _) rfl rfl
    (fun _ hc => by cases hc) h.clean rfl rfl

theorem start_tidy (m : SimModel T S M R) : Tidy [] (Pe.start m 0 []) := by
  refine ⟨List.nodup_nil, fun _ hu => absurd hu List.not_mem_nil, fun _ hc => (by cases hc),
    fun _ hx => absurd hx List.not_mem_nil, fun _ => ⟨rfl, ?_, .nil⟩⟩
  exact fun _ hx => absurd hx List.not_mem_nil

end Init

end Pe

/-- No handler calls `tw_lp_suspend`. -/
structure SimModel.NeverSuspends (m : SimModel T S M R) : Prop where
  event : ∀ lp now st cv msg, ∀ op ∈ (m.event lp now st cv msg).ops, Pe.isAwake op
  init : ∀ lp st, ∀ op ∈ (m.init lp st).2, Pe.isAwake op
  preRun : ∀ lp st, ∀ op ∈ (m.preRun lp st).2, Pe.isAwake op

end Ross

import Ross.Proofs.WhiteMessages

/-!
# What a PE has sent

The events that a PE sends carry its number and are numbered by `seq_num`.  What is on its way to
another PE, what may still be cancelled and what has been handed to `MPI_Isend` are events sent, so
that the key of the index names one event as long as `seq_num` has not wrapped.
-/

namespace Ross

variable {T S M R : Type} [TwStime T]

/-- The queues of events on their way to another PE. -/
def QueueId.isNet : QueueId → Bool
  | .outq | .postedSends | .seventQ => true
  | _ => false

namespace Stock

/-- The events sent, their numbers, and where they may be. -/
structure Sent (m : SimModel T S M R) (s : Stock T M) : Prop where
  seqNum : s.seqNum = s.sent.length % 2 ^ 32
  numbered : s.sent.map TwEvent.eventId = (List.range s.sent.length).map fun k => (k + 1) % 2 ^ 32
  sendPe : ∀ e ∈ s.sent, e.sendPe = s.id
  handles : ∀ e msg, .buffer e msg ∈ s.handles → e.sendPe = s.id
  queue : ∀ q, ∀ e ∈ s.queue q, q.isNet = true → e ∈ s.sent
  children : ∀ x, ∀ c ∈ (s.ev x).causedByMe, c ∈ s.sent
  rollback : ∀ r, s.rollback = some r → ∀ c ∈ r.children, c ∈ s.sent
  wire : ∀ x ∈ s.wire, x.2.ev ∈ s.sent ∧ x.1 = m.map x.2.ev.destLp
  arrived : ∀ x ∈ s.arrived, ∃ u, x.2.2 = { x.2.1.ev with uid := u }
  index : ∀ c ∈ s.hashT, ∃ x ∈ s.arrived, x.2.1.cancelQ = false ∧ x.2.2 = c

variable {m : SimModel T S M R} {s t : Stock T M}

namespace Sent

section

omit [TwStime T]

/-- The numbers of the events sent, after one more. -/
theorem numbered_append {l : List (TwEvent T)} {e : TwEvent T}
    (h : l.map TwEvent.eventId = (List.range l.length).map fun k => (k + 1) % 2 ^ 32)
    (he : e.eventId = (l.length + 1) % 2 ^ 32) :
    (l ++ [e]).map TwEvent.eventId =
      (List.range (l ++ [e]).length).map fun k => (k + 1) % 2 ^ 32 := by
  rw [List.map_append, h, List.length_append, List.length_singleton, List.range_succ,
    List.map_append, List.map_singleton, List.map_singleton, he]

/-- The children that are left of the event undone. -/
theorem rest (h : s.Sent m) {r : Rollback T} {e : TwEvent T} {rest : List (TwEvent T)}
    (hr : s.rollback = some r) (hc : r.children = e :: rest) :
    ∀ r', some { r with children := rest } = some r' → ∀ c ∈ r'.children, c ∈ s.sent := by
  intro r' hr' c hmem
  cases hr'
  exact h.rollback r hr c (hc ▸ List.mem_cons_of_mem e hmem)

/-- The children of an event taken up to be undone. -/
theorem taken (h : s.Sent m) {e : TwEvent T} {after : RollbackAfter} :
    ∀ r, some (⟨e, (s.ev e).causedByMe, after⟩ : Rollback T) = some r →
      ∀ c ∈ r.children, c ∈ s.sent := by
  intro r hr
  cases hr
  exact h.children e

/-- One more event is sent. -/
theorem send (h : s.Sent m) {e : TwEvent T} (hpe : e.sendPe = s.id)
    (hid : e.eventId = (s.sent.length + 1) % 2 ^ 32) (hseq : t.seqNum = e.eventId)
    (hsent : t.sent = s.sent ++ [e])
    (hhandles : ∀ c msg, .buffer c msg ∈ t.handles → .buffer c msg ∈ s.handles)
    (hq : ∀ q, ∀ c ∈ t.queue q, q.isNet = true → c ∈ s.sent ++ [e])
    (hchildren : ∀ x, ∀ c ∈ (t.ev x).causedByMe, c ∈ s.sent ++ [e])
    (hsame : (t.id, t.rollback, t.wire, t.arrived, t.hashT) =
      (s.id, s.rollback, s.wire, s.arrived, s.hashT)) : t.Sent m := by
  simp only [Prod.mk.injEq] at hsame
  obtain ⟨hpid, hroll, hwire, harrived, hhash⟩ := hsame
  have hmem : ∀ {c}, c ∈ s.sent → c ∈ s.sent ++ [e] := List.mem_append_left _
  refine
    { seqNum := ?_, numbered := ?_, sendPe := ?_
      handles := fun c msg hc => hpid ▸ h.handles c msg (hhandles c msg hc)
      queue := hsent ▸ hq, children := hsent ▸ hchildren
      rollback := fun r hr c hc => hsent ▸ hmem (h.rollback r (hroll ▸ hr) c hc)
      wire := fun x hx => ?_, arrived := harrived ▸ h.arrived
      index := by rw [hhash, harrived]; exact h.index }
  · rw [hseq, hid, hsent, List.length_append, List.length_singleton]
  · rw [hsent]
    exact numbered_append h.numbered hid
  · intro c hc
    rw [hsent] at hc
    rw [hpid]
    rcases List.mem_append.mp hc with hc | hc
    · exact h.sendPe c hc
    · rw [List.mem_singleton.mp hc]
      exact hpe
  · rw [hwire] at hx
    rw [hsent]
    exact ⟨hmem (h.wire x hx).1, (h.wire x hx).2⟩

/-- A message is received, and the index holds of the events received no more than those that
are not cancelled. -/
theorem receive (h : s.Sent m) {src u : Nat} {w : WireMsg T M}
    (harrived : t.arrived = s.arrived ++ [(src, w, { w.ev with uid := u })])
    (hhash : ∀ c ∈ t.hashT, c ∈ s.hashT ∨ w.cancelQ = false ∧ c = { w.ev with uid := u })
    (hq : ∀ q, ∀ e ∈ t.queue q, q.isNet = true → e ∈ s.sent)
    (hchildren : ∀ x, ∀ c ∈ (t.ev x).causedByMe, c ∈ s.sent)
    (hsame : (t.id, t.seqNum, t.sent, t.handles, t.rollback, t.wire) =
      (s.id, s.seqNum, s.sent, s.handles, s.rollback, s.wire)) : t.Sent m := by
  simp only [Prod.mk.injEq] at hsame
  obtain ⟨hid, hseq, hsent, hhandles, hroll, hwire⟩ := hsame
  refine
    { seqNum := by rw [hseq, hsent]; exact h.seqNum
      numbered := by rw [hsent]; exact h.numbered
      sendPe := by rw [hsent, hid]; exact h.sendPe
      handles := by rw [hhandles, hid]; exact h.handles
      queue := by rw [hsent]; exact hq
      children := by rw [hsent]; exact hchildren
      rollback := by rw [hroll, hsent]; exact h.rollback
      wire := by rw [hwire, hsent]; exact h.wire
      arrived := fun x hx => ?_, index := fun c hc => ?_ }
  · rw [harrived] at hx
    rcases List.mem_append.mp hx with hx | hx
    · exact h.arrived x hx
    · rw [List.mem_singleton.mp hx]
      exact ⟨u, rfl⟩
  · rw [harrived]
    rcases hhash c hc with hc | ⟨hpos, rfl⟩
    · obtain ⟨x, hx, hpos, heq⟩ := h.index c hc
      exact ⟨x, List.mem_append_left _ hx, hpos, heq⟩
    · exact ⟨_, List.mem_append_right _ (List.mem_singleton_self _), hpos, rfl⟩

end

/-- An event is moved, and of the records of the events only one is written. -/
theorem moved (h : s.Sent m) {x : TwEvent T} {st : EventState T M}
    (hq : ∀ q, ∀ e ∈ t.queue q, q.isNet = true → e ∈ s.sent)
    (hev : t.ev = Function.update s.ev x st)
    (hst : st.causedByMe = (s.ev x).causedByMe ∨ st.causedByMe = [])
    (hroll : ∀ r, t.rollback = some r → ∀ c ∈ r.children, c ∈ s.sent)
    (hsame : (t.id, t.seqNum, t.sent, t.handles, t.wire, t.arrived, t.hashT) =
      (s.id, s.seqNum, s.sent, s.handles, s.wire, s.arrived, s.hashT)) : t.Sent m := by
  simp only [Prod.mk.injEq] at hsame
  obtain ⟨hid, hseq, hsent, hhandles, hwire, harrived, hhash⟩ := hsame
  have hchildren : ∀ y, ∀ c ∈ (t.ev y).causedByMe, c ∈ s.sent := by
    rw [hev]
    rcases hst with hst | hst
    · exact Pe.chains_keep (P := fun _ c => c ∈ s.sent) h.children hst
    · exact Pe.chains_clear (P := fun _ c => c ∈ s.sent) h.children hst
  exact
    { seqNum := by rw [hseq, hsent]; exact h.seqNum
      numbered := by rw [hsent]; exact h.numbered
      sendPe := by rw [hsent, hid]; exact h.sendPe
      handles := by rw [hhandles, hid]; exact h.handles
      queue := by rw [hsent]; exact hq
      children := by rw [hsent]; exact hchildren
      rollback := by rw [hsent]; exact hroll
      wire := by rw [hwire, hsent]; exact h.wire
      arrived := by rw [harrived]; exact h.arrived
      index := by rw [hhash, harrived]; exact h.index }

end Sent

end Stock

namespace Pe

variable {m : SimModel T S M R} {s s' : Pe T S M R}

/-- The records of events sent stay as they are when other fields of them are written. -/
theorem Sent.start (m : SimModel T S M R) (id : Nat) (program : List (Call T)) :
    (Pe.start m id program).stock.Sent m where
  seqNum := rfl
  numbered := rfl
  sendPe := nofun
  handles := nofun
  queue := nofun
  children := nofun
  rollback := nofun
  wire := nofun
  arrived := nofun
  index := nofun

theorem Deed.sent {i : Input T M} (h : s.stock.Sent m) (hd : Deed m s s' i) : s'.stock.Sent m := by
  have hq : ∀ q, ∀ e ∈ s.queue q, q.isNet = true → e ∈ s.sent := h.queue
  -- The queues outside of the network may hold any event.
  have free : ∀ {q : QueueId} {e : TwEvent T}, q.isNet = false → q.isNet = true → e ∈ s.sent :=
    fun hq hq' => absurd (hq.symm.trans hq') Bool.false_ne_true
  cases hd with
  | none hst =>
      rw [hst]
      exact h
  | store _ _ hst | raise _ _ hst | cancelProcessed _ _ _ _ hst =>
      rw [hst]
      exact { h with }
  | loadCancel _ _ hst =>
      rw [hst]
      exact { h with }
  | init _ hst =>
      rw [hst]
      exact { h with handles := nofun }
  | @recvCancel src w c _ _ _ hst =>
      rw [hst]
      have hcancel : ∀ x, ∀ d ∈ (Function.update s.ev c
          { s.ev c with cancelQ := true, remote := false } x).causedByMe, d ∈ s.sent :=
        chains_keep (P := fun _ d => d ∈ s.sent) h.children rfl
      exact h.receive rfl (fun _ hc => .inl (List.mem_of_mem_erase hc)) hq
        (chains_keep (P := fun _ d => d ∈ s.sent) hcancel rfl) rfl
  | @recvEvent src w o queue _ hw _ hqueue hst =>
      rw [hst]
      refine h.receive rfl (fun c hc => ?_) ?_
        (chains_clear (P := fun _ d => d ∈ s.sent) h.children rfl) rfl
      · dsimp only at hc
        split at hc
        · exact (List.mem_append.mp hc).imp_right fun hc => ⟨hw, List.mem_singleton.mp hc⟩
        · exact .inl hc
      · rcases hqueue with ⟨-, -, -, rfl⟩ | ⟨-, rfl⟩
        · exact Pool.forall_cons hq (free rfl)
        · exact Pool.forall_snoc hq (free rfl)
  | recalled he _ _ hst =>
      rw [hst]
      exact h.moved (Pool.forall_snoc (Pool.forall_remove hq) fun _ => hq _ _ he rfl) rfl
        (.inl rfl) h.rollback rfl
  | keep he _ _ _ hst =>
      rw [hst]
      exact h.moved (Pool.forall_cons (Pool.forall_remove hq) fun _ => hq _ _ he rfl) rfl
        (.inl rfl) h.rollback rfl
  | sendFree _ _ hst | cancelFree _ _ _ _ hst | release _ _ hst | freeChild _ _ hst =>
      rw [hst]
      exact h.moved (Pool.forall_remove hq) rfl (.inl rfl) h.rollback rfl
  | @isend e _ he hst =>
      rw [hst]
      have hsent := hq _ e (List.mem_of_getLast? he) rfl
      refine { h with
        queue := Pool.forall_snoc (Pool.forall_remove hq) fun _ => hsent
        children := chains_keep (P := fun _ c => c ∈ s.sent) h.children rfl
        wire := fun x hx => ?_ }
      rcases List.mem_append.mp hx with hx | hx
      · exact h.wire x hx
      · rw [List.mem_singleton.mp hx]
        exact ⟨hsent, rfl⟩
  | create _ _ hst =>
      rw [hst]
      refine { h with handles := ?_ }
      intro e msg he
      rcases List.mem_append.mp he with he | he
      · exact h.handles e msg he
      · cases List.mem_singleton.mp he
        rfl
  | createAbort hst =>
      rw [hst]
      refine { h with handles := ?_ }
      intro e msg he
      rcases List.mem_append.mp he with he | he
      · exact h.handles e msg he
      · cases List.mem_singleton.mp he
  | sendAbort _ hst =>
      rw [hst]
      refine { h with handles := ?_, children := ?_ }
      · intro e msg he
        rcases List.mem_or_eq_of_mem_set he with he | he
        · exact h.handles e msg he
        · cases he
      · intro x c hc
        obtain ⟨n, heq⟩ := increaseAbortedCount_ev s x
        dsimp only at hc
        rw [heq] at hc
        exact h.children x c hc
  | @send i lp e msg o queue sig _ _ hi hqueue hst =>
      rw [hst]
      have hself : s.stamp e ∈ s.sent ++ [s.stamp e] :=
        List.mem_append_right _ (List.mem_singleton_self _)
      have hid : s.nextEventId = (s.sent.length + 1) % 2 ^ 32 := by
        unfold nextEventId
        rw [show s.seqNum = s.sent.length % 2 ^ 32 from h.seqNum, Nat.mod_add_mod]
      have hold : ∀ q, ∀ c ∈ s.queue q, q.isNet = true → c ∈ s.sent ++ [s.stamp e] :=
        fun q c hc hnet => List.mem_append_left _ (hq q c hc hnet)
      have hchains : ∀ x, ∀ c ∈ (s.ev x).causedByMe, c ∈ s.sent ++ [s.stamp e] :=
        fun x c hc => List.mem_append_left _ (h.children x c hc)
      have hprepared : ∀ x, ∀ c ∈ ((s.prepare i e msg).ev x).causedByMe,
          c ∈ s.sent ++ [s.stamp e] :=
        chains_prepare (P := fun _ c => c ∈ s.sent ++ [s.stamp e]) hchains fun _ _ => hself
      have howned : ∀ x, ∀ c ∈ (Function.update (s.prepare i e msg).ev (s.stamp e)
          { (s.prepare i e msg).ev (s.stamp e) with owner := o } x).causedByMe,
            c ∈ s.sent ++ [s.stamp e] :=
        chains_keep (P := fun _ c => c ∈ s.sent ++ [s.stamp e]) hprepared rfl
      refine h.send (e := s.stamp e) (h.handles e msg (List.mem_of_getElem? hi)) hid rfl rfl
        (fun c msg' hc => ?_) ?_ howned rfl
      · rcases List.mem_or_eq_of_mem_set hc with hc | hc
        · exact hc
        · cases hc
      · rcases hqueue with ⟨-, -, -, rfl, -⟩ | ⟨-, -, -, rfl, -⟩ | ⟨-, -, rfl, -⟩
        · exact Pool.forall_cons hold fun _ => hself
        · exact Pool.forall_snoc hold fun _ => hself
        · exact Pool.forall_cons hold fun _ => hself
  | dropOutq hr hc _ hst | dropPq hr hc _ _ hst =>
      rw [hst]
      exact h.moved (Pool.forall_remove hq) rfl (.inl rfl) (h.rest hr hc) rfl
  | markAsend hr hc _ hst | cancelLocal hr hc _ _ hst =>
      rw [hst]
      exact h.moved hq rfl (.inl rfl) (h.rest hr hc) rfl
  | antiMessage hr hc _ hst =>
      rw [hst]
      have hsent := h.rollback _ hr _ (hc ▸ List.mem_cons_self)
      exact h.moved (Pool.forall_cons (Pool.forall_remove hq) fun _ => hsent) rfl (.inl rfl)
        (h.rest hr hc) rfl
  | requeue _ _ _ hst =>
      rw [hst]
      exact h.moved (Pool.forall_cons (Pool.forall_remove hq) (free rfl)) rfl (.inl rfl) nofun rfl
  | undoneFree _ _ _ hst =>
      rw [hst]
      exact h.moved (Pool.forall_remove hq) rfl (.inl rfl) nofun rfl
  | undo _ _ hst =>
      rw [hst]
      exact h.moved (Pool.forall_cons (Pool.forall_update hq fun _ _ => free rfl) (free rfl)) rfl
        (.inr rfl) h.taken rfl
  | abort _ _ _ hst =>
      rw [hst]
      exact h.moved hq rfl (.inr rfl) h.taken rfl
  | dropAnti _ _ _ hst | enqueue _ _ hst =>
      rw [hst]
      exact h.moved (Pool.forall_cons (Pool.forall_update hq fun _ _ => free rfl) (free rfl)) rfl
        (.inl rfl) h.rollback rfl
  | loadEvents _ _ hst | cut _ _ hst =>
      rw [hst]
      exact { h with
        queue := Pool.forall_update (Pool.forall_update hq fun _ _ => free rfl)
          fun _ _ => free rfl }
  | @start kind left cev _ _ _ _ _ hst =>
      rw [hst]
      exact { h with
        queue := Pool.forall_cons (Pool.forall_remove hq) (free rfl)
        children := chains_keep (P := fun _ c => c ∈ s.sent) h.children rfl
        handles := nofun }
  | process _ _ _ _ hst =>
      rw [hst]
      exact h.moved (Pool.forall_cons (Pool.forall_remove hq) (free rfl)) rfl (.inl rfl)
        h.rollback rfl
  | @commit kp e index _ _ _ hindex hst _ =>
      rw [hst]
      refine { h with
        queue := Pool.forall_remove hq
        children := chains_clear (P := fun _ c => c ∈ s.sent) h.children rfl
        index := ?_ }
      rcases hindex with ⟨-, rfl⟩ | ⟨-, -, c, -, rfl⟩
      · exact h.index
      · exact fun c' hc' => h.index c' (List.mem_of_mem_erase hc')

theorem Deed.id_eq {i : Input T M} (hd : Deed m s s' i) : s'.id = s.id := by
  have same : ∀ {t : Stock T M}, s'.stock = t → t.id = s.id → s'.id = s.id := by
    rintro _ rfl hid
    exact hid
  cases hd with
  | commit _ _ _ hst _ => exact same hst rfl
  | cancelProcessed _ _ _ _ hst => exact same hst rfl
  | none hst | store _ _ hst | raise _ _ hst | recvCancel _ _ _ hst | recvEvent _ _ _ _ hst
  | recalled _ _ _ hst | keep _ _ _ _ hst | sendFree _ _ hst | isend _ hst | create _ _ hst
  | createAbort hst | sendAbort _ hst | send _ _ _ hst | dropOutq _ _ _ hst | markAsend _ _ _ hst
  | antiMessage _ _ _ hst | dropPq _ _ _ _ hst | cancelLocal _ _ _ _ hst | requeue _ _ _ hst
  | undoneFree _ _ _ hst | undo _ _ hst | abort _ _ _ hst | dropAnti _ _ _ hst | enqueue _ _ hst
  | loadEvents _ _ hst | cancelFree _ _ _ _ hst | loadCancel _ _ hst | start _ _ hst
  | release _ _ hst | process _ _ _ _ hst | freeChild _ _ hst | cut _ _ hst | init _ hst =>
      exact same hst rfl

end Pe

/-! ## Names of events -/

namespace Stock

variable {m : SimModel T S M R} {s : Stock T M}

omit [TwStime T] in
/-- As long as `seq_num` has not wrapped, its values name the events sent. -/
theorem Sent.eventId_injective (h : s.Sent m) (hlen : s.sent.length < 2 ^ 32) {a b : TwEvent T}
    (ha : a ∈ s.sent) (hb : b ∈ s.sent) (hid : a.eventId = b.eventId) : a = b := by
  have hnodup : (s.sent.map TwEvent.eventId).Nodup := by
    rw [h.numbered]
    refine List.Nodup.map_on (fun x hx y hy hxy => ?_) List.nodup_range
    have hx := List.mem_range.mp hx
    have hy := List.mem_range.mp hy
    rw [Nat.mod_eq_of_lt (by omega), Nat.mod_eq_of_lt (by omega)] at hxy
    exact Nat.succ_injective hxy
  exact List.inj_on_of_nodup_map hnodup ha hb hid

end Stock

namespace System

variable {m : SimModel T S M R} {s s' : System T S M R}

theorem Reached.sent (h : Reached m s) (i : Nat) : (s i).stock.Sent m ∧ (s i).id = i := by
  refine Transition.ReachableVia.invariant
    (P := fun s => ∀ i, (s i).stock.Sent m ∧ (s i).id = i) ?_ ?_ h i
  · rintro s rfl i
    exact ⟨Pe.Sent.start m i _, rfl⟩
  · intro s l s' ih _ hs i
    rcases deed_of hs i with ⟨x, -, -, -, -, hd⟩ | ⟨-, hst⟩
    · exact ⟨hd.sent (ih i).1, (hd.id_eq).trans (ih i).2⟩
    · exact ⟨hst ▸ (ih i).1, (congrArg Stock.id hst).trans (ih i).2⟩

omit [TwStime T] in
/-- What has arrived was sent to the PE. -/
theorem Fifo.arrived_wire (h : Fifo m s) {i : Nat} (hi : i < m.npe)
    {x : Nat × WireMsg T M × TwEvent T} (hx : x ∈ (s i).arrived) :
    x.1 < m.npe ∧ (i, x.2.1) ∈ (s x.1).wire := by
  have hsrc := h.source i hi x hx
  have harr : x.2.1 ∈ s.arrivedFrom x.1 i :=
    List.mem_map.mpr ⟨x, List.mem_filter.mpr ⟨hx, decide_eq_true rfl⟩, rfl⟩
  obtain ⟨y, hy, heq⟩ := List.mem_map.mp ((h.pair i hi x.1 hsrc).mem harr)
  obtain ⟨hy, hto⟩ := List.mem_filter.mp hy
  refine ⟨hsrc, ?_⟩
  rw [← heq, ← of_decide_eq_true hto]
  exact hy

/-- No PE has sent as many events as `seq_num` has values. -/
def Unwrapped (m : SimModel T S M R) (s : System T S M R) : Prop :=
  ∀ i < m.npe, (s i).sent.length < 2 ^ 32

/-- Two events with the key of the index that PEs have sent are the same. -/
theorem Reached.same_of_key (h : Reached m s) (hwrap : Unwrapped m s) {i j : Nat}
    (hi : i < m.npe) (hj : j < m.npe) {a b : TwEvent T} (ha : a ∈ (s i).sent)
    (hb : b ∈ (s j).sent) (hpe : a.sendPe = b.sendPe) (hid : a.eventId = b.eventId) : a = b := by
  obtain ⟨hsi, hidi⟩ := h.sent i
  obtain ⟨hsj, hidj⟩ := h.sent j
  have hij : i = j := by
    rw [← hidi, ← hidj]
    exact (hsi.sendPe a ha).symm.trans (hpe.trans (hsj.sendPe b hb))
  subst hij
  exact hsi.eventId_injective (hwrap i hi) ha hb hid

theorem key_of_sameKey {a b : TwEvent T} (h : sameKey m a b = true) :
    a.sendPe = b.sendPe ∧ a.eventId = b.eventId := by
  unfold sameKey at h
  split at h
  · obtain ⟨-, -, -, hid, hpe⟩ := of_decide_eq_true h
    exact ⟨hpe, hid⟩
  · obtain ⟨hpe, hid⟩ := of_decide_eq_true h
    exact ⟨hpe, hid⟩

/-- An entry of the index of a PE that has the key of an event sent is the copy of it. -/
theorem Reached.index_entry (h : Reached m s) (hwrap : Unwrapped m s) {i src : Nat}
    (hi : i < m.npe) (hsrc : src < m.npe) {a c : TwEvent T} (ha : a ∈ (s src).sent)
    (hc : c ∈ (s i).hashT) (hkey : sameKey m a c = true) : ∃ u, c = { a with uid := u } := by
  obtain ⟨x, hx, -, rfl⟩ := (h.sent i).1.index c hc
  obtain ⟨u, hu⟩ := (h.sent i).1.arrived x hx
  obtain ⟨hfrom, hwire⟩ := h.fifo.arrived_wire hi hx
  have hsent : x.2.1.ev ∈ (s x.1).sent := ((h.sent x.1).1.wire _ hwire).1
  obtain ⟨hpe, hid⟩ := key_of_sameKey hkey
  rw [hu] at hpe hid
  rw [hu, h.same_of_key hwrap hsrc hfrom ha hsent hpe hid]
  exact ⟨u, rfl⟩

end System

end Ross

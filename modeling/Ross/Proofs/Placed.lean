import Ross.Proofs.Holding
import Ross.Proofs.Located
import Ross.Core.Printing

/-!
# The queues of a PE

Every step of a PE keeps its events where they belong.
-/

namespace Ross

variable {T S M R : Type} [TwStime T]

namespace Pe

/-- The event is for an LP of the PE. -/
def here (m : SimModel T S M R) (s : Pe T S M R) (e : TwEvent T) : Bool :=
  decide (m.map e.destLp = s.id)

/-- The events that the handler has created and not sent. -/
def unsent (s : Pe T S M R) : List (TwEvent T) := s.handles.filterMap Handle.unsentEvent

/-- The event has a name that was given out, not one of an unsent event. -/
def Known (s : Pe T S M R) (e : TwEvent T) : Prop :=
  e.uid < s.nextUid ∧ ∀ x ∈ s.unsent, x.uid ≠ e.uid

/-- The events of a PE are linked where they belong, and those of the handler have names of their
own. -/
structure Placed (m : SimModel T S M R) (s : Pe T S M R) : Prop where
  located : Located (s.here m) s.queue s.ev s.Known
  named : ∀ x ∈ s.unsent, x.uid < s.nextUid
  distinct : (s.unsent.map TwEvent.uid).Nodup

namespace Placed

variable {m : SimModel T S M R} {s s' : Pe T S M R}

section

omit [TwStime T]

/-- A step that leaves the names and the addresses as they are. -/
theorem frame (h : Placed m s) (hid : s'.id = s.id) (hnext : s'.nextUid = s.nextUid)
    (hunsent : s'.unsent = s.unsent) (hloc : Located (s.here m) s'.queue s'.ev s.Known) :
    Placed m s' := by
  have hhere : s'.here m = s.here m := by
    unfold here
    rw [hid]
  have hknown : s'.Known = s.Known := by
    unfold Known
    rw [hnext, hunsent]
  refine ⟨?_, ?_, ?_⟩
  · rw [hhere, hknown]
    exact hloc
  · rw [hnext, hunsent]
    exact h.named
  · rw [hunsent]
    exact h.distinct

/-- A step that leaves the queues as they are. -/
theorem same (h : Placed m s) (hid : s'.id = s.id) (hnext : s'.nextUid = s.nextUid)
    (hunsent : s'.unsent = s.unsent) (hq : s'.queue = s.queue) (hev : s'.ev = s.ev) :
    Placed m s' := by
  refine h.frame hid hnext hunsent ?_
  rw [hq, hev]
  exact h.located

/-- The pointers of a handler are forgotten. -/
theorem forget (hid : s'.id = s.id) (hnext : s'.nextUid = s.nextUid)
    (hh : s'.handles = []) (hloc : Located (s.here m) s'.queue s'.ev s.Known) :
    Placed m s' := by
  have hunsent : s'.unsent = [] := by
    unfold unsent
    rw [hh]
    rfl
  have hhere : s'.here m = s.here m := by
    unfold here
    rw [hid]
  refine ⟨?_, ?_, ?_⟩
  · rw [hhere]
    refine hloc.mono fun x hx => ⟨hnext ▸ hx.1, ?_⟩
    rw [hunsent]
    exact nofun
  · rw [hunsent]
    exact nofun
  · rw [hunsent]
    exact List.nodup_nil

end

theorem start (m : SimModel T S M R) (id : Nat) (program : List (Call T)) :
    Placed m (Pe.start m id program) where
  located := by
    refine ⟨⟨fun q => ?_, ?_⟩, nofun, fun e he => absurd rfl he, nofun, nofun⟩
    · unfold Pool.restrict
      split <;> exact List.nodup_nil
    · intro q j x hq _
      exact absurd (Pool.mem_restrict.mp hq).2 List.not_mem_nil
  named := nofun
  distinct := List.nodup_nil

/-! ## The network -/

omit [TwStime T] in
theorem received_new (s : Pe T S M R) (w : WireMsg T M) : ¬ s.Known (s.received w) :=
  fun hknown => Nat.lt_irrefl _ hknown.1

/-- The buffer of a message that arrives gets a name. -/
theorem receive_known (h : Placed m s) (src : Nat) (w : WireMsg T M) :
    (∀ x, s.Known x → (s.receive src w).Known x) ∧ (s.receive src w).Known (s.received w) := by
  refine ⟨fun x hx => ⟨Nat.lt_succ_of_lt hx.1, hx.2⟩, Nat.lt_succ_self _, fun x hx => ?_⟩
  exact Nat.ne_of_lt (h.named x hx)

theorem receive (h : Placed m s) (src : Nat) (w : WireMsg T M) (hid : s'.id = s.id)
    (hnext : s'.nextUid = s.nextUid + 1) (hh : s'.handles = s.handles)
    (hloc : Located (s.here m) s'.queue s'.ev (s.receive src w).Known) : Placed m s' := by
  have hunsent : s'.unsent = (s.receive src w).unsent := by
    unfold unsent
    rw [hh]
    rfl
  have hhere : s'.here m = s.here m := by
    unfold here
    rw [hid]
  have hknown : s'.Known = (s.receive src w).Known := by
    unfold Known
    rw [hnext, hunsent]
    rfl
  refine ⟨?_, fun x hx => ?_, ?_⟩
  · rw [hhere, hknown]
    exact hloc
  · rw [hunsent] at hx
    rw [hnext]
    exact Nat.lt_succ_of_lt (h.named x hx)
  · rw [hunsent]
    exact h.distinct

theorem recvFinish {src : Nat} {w : WireMsg T M} (h : Placed m s)
    (hs : s.recvFinish m src w = .ok s') : Placed m s' := by
  have hnew := received_new s w
  obtain ⟨hmono, hknown⟩ := h.receive_known src w
  have hloose := h.located.not_mem_restrict hnew
  obtain ⟨-, ⟨-, c, -, rfl⟩ | ⟨-, hmap, ⟨-, -, rfl⟩ | ⟨-, rfl⟩⟩⟩ := recvFinish_ok hs
  · refine h.receive src w rfl rfl rfl ?_
    have hc : Located (s.here m) s.queue
        (Function.update s.ev c { s.ev c with cancelQ := true, remote := false }) s.Known :=
      h.located.touch c rfl
    refine hc.add (j := .antiMsg) hnew hmono hknown hc.home (fun i x hx => .inl hx) rfl ?_
    exact nofun
  · refine h.receive src w rfl rfl rfl ?_
    refine h.located.add (j := .pq) hnew hmono hknown ?_ (fun i x hx => ?_) rfl nofun
    · rw [Pool.restrict_cons rfl]
      exact h.located.home.cons hloose _
    · exact (Pool.mem_cons.mp hx).symm
  · refine h.receive src w rfl rfl rfl ?_
    refine h.located.add (j := .eventQ) hnew hmono hknown ?_ (fun i x hx => ?_) ?_ nofun
    · rw [Pool.restrict_snoc rfl]
      exact h.located.home.snoc hloose _
    · exact (Pool.mem_snoc.mp hx).symm
    · exact decide_eq_true hmap

theorem sendFinish {e : TwEvent T} (h : Placed m s) (hs : s.sendFinish m e = .ok s') :
    Placed m s' := by
  have hnet : ∀ {o}, (s.ev e).owner = o → o.isNet = true → (s.ev e).owner.isNet = true :=
    fun ho hnet => ho ▸ hnet
  rcases sendFinish_ok hs with ⟨ho, -, rfl⟩ | ⟨ho, -, -, rfl⟩ | ⟨ho, -, -, rfl⟩ | ⟨ho, rfl⟩
  · have hown := hnet ho rfl
    refine h.frame rfl rfl rfl (h.located.relay (j := .outq) ?_ (fun i x hx => ?_) (.inl rfl)
      (h.located.away e hown) (.inl hown) hown)
    · rw [Pool.restrict_snoc_of_not rfl, Pool.restrict_remove_of_not rfl]
    · exact (Pool.mem_snoc.mp hx).symm.imp_left Pool.of_mem_remove
  · exact h.frame rfl rfl rfl (h.located.dropNet _ (hnet ho rfl) rfl)
  · have hown := hnet ho rfl
    refine h.frame rfl rfl rfl (h.located.relay (j := .seventQ) ?_ (fun i x hx => ?_)
      (.inr (.inr rfl)) (h.located.away e hown) (.inl hown) rfl)
    · rw [Pool.restrict_cons_of_not rfl, Pool.restrict_remove_of_not rfl]
    · exact (Pool.mem_cons.mp hx).symm.imp_left Pool.of_mem_remove
  · exact h.frame rfl rfl rfl (h.located.dropNet _ (hnet ho rfl) rfl)

theorem sendBegin (h : Placed m s) (read changed : Bool) :
    Placed m (s.sendBegin m read changed) := by
  rcases sendBegin_ok (m := m) s read changed with ⟨e, he, -, hs⟩ | ⟨-, hs⟩
  · rw [hs]
    have hall := h.located.allows _ e (List.mem_of_getLast? he)
    have hsplit :
        s.here m e = false ∧ ((s.ev e).owner.isNet = true ∨ (s.ev e).owner = .peFreeQ) := by
      simpa [QueueId.allows] using hall
    refine h.frame rfl rfl rfl (h.located.relay (j := .postedSends) ?_ (fun i x hx => ?_)
      (.inr (.inl rfl)) hsplit.1 hsplit.2 ?_)
    · rw [Pool.restrict_snoc_of_not rfl, Pool.restrict_remove_of_not rfl]
    · exact (Pool.mem_snoc.mp hx).symm.imp_left Pool.of_mem_remove
    · dsimp only
      split <;> rfl
  · rw [hs]
    exact h.same rfl rfl rfl rfl rfl

/-! ## Handlers -/

section

omit [TwStime T]

theorem setLp (h : Placed m s) (i : Nat) (l : TwLp T S R) : Placed m (s.setLp i l) :=
  h.same rfl rfl rfl rfl rfl

/-- A new buffer in the hands of the handler. -/
theorem newEvent (h : Placed m s) {e : TwEvent T} (he : e.uid = s.nextUid) (hid : s'.id = s.id)
    (hnext : s'.nextUid = s.nextUid + 1) (hunsent : s'.unsent = s.unsent ++ [e])
    (hq : s'.queue = s.queue) (hev : s'.ev = s.ev) : Placed m s' := by
  have hhere : s'.here m = s.here m := by
    unfold here
    rw [hid]
  have hlt : ∀ x ∈ s.unsent, x.uid < e.uid := by
    rw [he]
    exact h.named
  refine ⟨?_, fun x hx => ?_, ?_⟩
  · rw [hhere, hq, hev]
    refine h.located.mono fun x hx => ⟨by rw [hnext]; exact Nat.lt_succ_of_lt hx.1, fun y hy => ?_⟩
    rw [hunsent] at hy
    rcases List.mem_append.mp hy with hy | hy
    · exact hx.2 y hy
    · rw [List.mem_singleton.mp hy, he]
      exact (Nat.ne_of_lt hx.1).symm
  · rw [hunsent] at hx
    rw [hnext]
    rcases List.mem_append.mp hx with hx | hx
    · exact Nat.lt_succ_of_lt (h.named x hx)
    · rw [List.mem_singleton.mp hx, he]
      exact Nat.lt_succ_self _
  · rw [hunsent, List.map_append]
    refine h.distinct.append (List.nodup_singleton _) (List.disjoint_singleton.mpr fun hu => ?_)
    obtain ⟨x, hx, hxu⟩ := List.mem_map.mp hu
    exact (hlt x hx).ne hxu

/-- The unsent events once one of them is sent. -/
theorem unsent_set {i : Nat} {e : TwEvent T} {msg : M}
    (hi : s.handles[i]? = some (.buffer e msg)) (o : Option (TwEvent T)) :
    ∃ u₁ u₂, s.unsent = u₁ ++ e :: u₂ ∧ (s.takeHandle i o).unsent = u₁ ++ u₂ := by
  obtain ⟨hlt, hget⟩ := List.getElem?_eq_some_iff.mp hi
  refine ⟨(s.handles.take i).filterMap Handle.unsentEvent,
    (s.handles.drop (i + 1)).filterMap Handle.unsentEvent, ?_, ?_⟩
  · have hsplit : s.handles = s.handles.take i ++ s.handles[i] :: s.handles.drop (i + 1) := by
      rw [List.getElem_cons_drop, List.take_append_drop]
    unfold unsent
    conv_lhs => rw [hsplit, hget, List.filterMap_append]
    rfl
  · show (s.handles.set i (.sent o)).filterMap Handle.unsentEvent = _
    rw [List.set_eq_take_append_cons_drop, if_pos hlt, List.filterMap_append]
    rfl

/-- The abort event is not one of them. -/
theorem unsent_abort {i : Nat} (hi : s.handles[i]? = some .abort) :
    (s.handles.set i (.sent none)).filterMap Handle.unsentEvent = s.unsent := by
  obtain ⟨hlt, hget⟩ := List.getElem?_eq_some_iff.mp hi
  have hsplit : s.handles = s.handles.take i ++ s.handles[i] :: s.handles.drop (i + 1) := by
    rw [List.getElem_cons_drop, List.take_append_drop]
  unfold unsent
  conv_rhs => rw [hsplit, hget, List.filterMap_append]
  rw [List.set_eq_take_append_cons_drop, if_pos hlt, List.filterMap_append]
  rfl

end

theorem eventNew {destGid sender : Nat} {offsetTs prio : T} {msg : M} (h : Placed m s)
    (hs : s.twEventNewUserPrio m destGid offsetTs sender prio msg = .ok s') : Placed m s' := by
  obtain ⟨-, ⟨-, rfl⟩ | ⟨-, -, rfl⟩⟩ := twEventNewUserPrio_ok hs
  · refine h.frame rfl rfl ?_ h.located
    unfold unsent
    rw [List.filterMap_append]
    exact List.append_nil _
  · refine h.newEvent (e := ⟨s.nextUid, s.newSig m offsetTs sender prio, 0, destGid, sender, s.id⟩)
      rfl rfl rfl ?_ rfl rfl
    unfold unsent
    rw [List.filterMap_append]
    rfl

/-- The event about to be sent, its message and its place in the chain of the current event. -/
theorem prepare {i : Nat} {e : TwEvent T} {msg : M} (h : Placed m s)
    (hi : s.handles[i]? = some (.buffer e msg)) :
    Placed m (s.prepare i e msg) ∧ (s.prepare i e msg).Known (s.stamp e) ∧
      ((s.prepare i e msg).ev (s.stamp e)).owner = .unowned ∧
      Pool.Loose (Pool.restrict QueueId.isHome (s.prepare i e msg).queue) (s.stamp e) ∧
      ∀ q ≠ .antiMsg, s.stamp e ∉ (s.prepare i e msg).queue q := by
  obtain ⟨u₁, u₂, hu, hu'⟩ := unsent_set hi (some e)
  have hdistinct := h.distinct
  rw [hu, List.map_append, List.map_cons] at hdistinct
  have hperm : ((u₁ ++ u₂).map TwEvent.uid).Nodup ∧ ∀ x ∈ u₁ ++ u₂, x.uid ≠ e.uid := by
    rw [List.nodup_middle, List.nodup_cons, ← List.map_append] at hdistinct
    exact ⟨hdistinct.2, fun x hx heq => hdistinct.1 (heq ▸ List.mem_map_of_mem hx)⟩
  have hmem : e ∈ s.unsent := by
    rw [hu]
    exact List.mem_append_right _ List.mem_cons_self
  have hold : ∀ x ∈ u₁ ++ u₂, x ∈ s.unsent := by
    intro x hx
    rw [hu]
    rcases List.mem_append.mp hx with hx | hx
    · exact List.mem_append_left _ hx
    · exact List.mem_append_right _ (List.mem_cons_of_mem _ hx)
  have hnew : ¬ s.Known (s.stamp e) := fun hknown => hknown.2 e hmem rfl
  have hmono : ∀ x, s.Known x → (s.prepare i e msg).Known x := by
    refine fun x hx => ⟨hx.1, fun y hy => hx.2 y (hold y ?_)⟩
    exact hu' ▸ hy
  have hknown : (s.prepare i e msg).Known (s.stamp e) := by
    refine ⟨h.named e hmem, fun y hy => hperm.2 y ?_⟩
    exact hu' ▸ hy
  have hreg : Located (s.here m) s.queue (Function.update s.ev (s.stamp e)
      ⟨.unowned, false, false, false, 0, msg, 0, []⟩) (s.prepare i e msg).Known :=
    h.located.add (j := .antiMsg) hnew hmono hknown h.located.home (fun i x hx => .inl hx) rfl nofun
  have hlink : Located (s.here m) s.queue (s.prepare i e msg).ev (s.prepare i e msg).Known ∧
      ((s.prepare i e msg).ev (s.stamp e)).owner = .unowned := by
    have hown : (Function.update s.ev (s.stamp e)
        ⟨.unowned, false, false, false, 0, msg, 0, []⟩ (s.stamp e)).owner = .unowned := by
      rw [Function.update_self]
    show Located _ _ (((s.takeHandle i (some e)).register (s.stamp e) msg).linkCausality
      (s.stamp e)).ev _ ∧ ((((s.takeHandle i (some e)).register (s.stamp e) msg).linkCausality
      (s.stamp e)).ev (s.stamp e)).owner = _
    unfold linkCausality
    cases hcur : ((s.takeHandle i (some e)).register (s.stamp e) msg).curEvent with
    | none => exact ⟨hreg, hown⟩
    | some cev =>
        refine ⟨hreg.touch cev rfl, ?_⟩
        by_cases hc : s.stamp e = cev
        · rw [← hc]
          dsimp only
          rw [Function.update_self]
          exact hown
        · dsimp only
          rw [Function.update_of_ne hc]
          exact hown
  refine ⟨⟨hlink.1, ?_, ?_⟩, hknown, hlink.2, h.located.not_mem_restrict hnew, fun q hq he => ?_⟩
  · intro x hx
    exact h.named x (hold x (hu' ▸ hx))
  · exact hu'.symm ▸ hperm.1
  · exact hnew (h.located.known_of_mem hq he)

theorem eventSend {i : Nat} (h : Placed m s) (hs : s.twEventSend m i = .ok s') : Placed m s' := by
  rcases twEventSend_ok hs with ⟨hi, rfl⟩ | ⟨e, msg, hi, -, rfl⟩
  · refine h.frame rfl rfl (unsent_abort hi) ?_
    cases hcur : s.curEvent with
    | none => exact h.located
    | some cev => exact h.located.touch cev rfl
  · obtain ⟨hprep, hknown, hown, hloose, hnot⟩ := h.prepare hi
    have hhere : (s.prepare i e msg).here m = s.here m := rfl
    rcases deliver_cases m (s.prepare i e msg) (s.stamp e) with
      ⟨hmap, -, hd⟩ | ⟨hmap, -, hd⟩ | ⟨hmap, hd⟩
    · rw [hd]
      refine hprep.frame rfl rfl rfl (hprep.located.link (j := .pq) hknown hnot ?_ ?_ rfl nofun)
      · rw [Pool.restrict_cons rfl]
        exact hprep.located.home.cons hloose _
      · exact fun i x hx => (Pool.mem_cons.mp hx).symm
    · rw [hd]
      refine hprep.frame rfl rfl rfl
        (hprep.located.link (j := .eventQ) hknown hnot ?_ ?_ (decide_eq_true hmap) nofun)
      · rw [Pool.restrict_snoc rfl]
        exact hprep.located.home.snoc hloose _
      · exact fun i x hx => (Pool.mem_snoc.mp hx).symm
    · rw [hd]
      have haway : (s.prepare i e msg).here m (s.stamp e) = false := decide_eq_false hmap
      refine hprep.frame rfl rfl rfl
        (hprep.located.link (j := .outq) hknown hnot ?_ ?_ ?_ fun _ => haway)
      · rw [Pool.restrict_cons_of_not rfl]
        exact hprep.located.home
      · exact fun i x hx => (Pool.mem_cons.mp hx).symm
      · rw [haway]
        rfl

theorem handlerOp (h : Placed m s) {lp : Nat} {op : HandlerOp T M}
    (hs : s.handlerOp m lp op = .ok s') : Placed m s' := by
  cases op with
  | eventNew destGid offsetTs prio msg => exact h.eventNew hs
  | eventSend i => exact h.eventSend hs
  | lpSuspend b =>
      cases hs
      exact h.setLp _ _
  | triggerGvtHookNow =>
      rcases twTriggerGvtHookNow_ok hs with rfl | ⟨-, rfl⟩
      · exact h
      · exact h.same rfl rfl rfl rfl rfl

/-! ## Rollbacks -/

theorem eventCancel (h : Placed m s) {e : TwEvent T} (hs : s.eventCancel m e = .ok s') :
    Placed m s' := by
  rcases eventCancel_ok hs with ⟨ho, rfl⟩ | ⟨ho, rfl⟩ | ⟨ho, rfl⟩ | ⟨ho, -, rfl⟩ | ⟨ho, -, rfl⟩
  · refine h.frame rfl rfl rfl (h.located.dropNet _ ?_ rfl)
    rw [ho]
    rfl
  · exact h.frame rfl rfl rfl (h.located.touch e rfl)
  · have hnet : (s.ev e).owner.isNet = true := by
      rw [ho]
      rfl
    refine h.frame rfl rfl rfl (h.located.relay (j := .outq) ?_ (fun i x hx => ?_) (.inl rfl)
      (h.located.away e hnet) (.inl hnet) hnet)
    · rw [Pool.restrict_cons_of_not rfl, Pool.restrict_remove_of_not rfl]
    · exact (Pool.mem_cons.mp hx).symm.imp_left Pool.of_mem_remove
  · refine h.frame rfl rfl rfl (h.located.drop _ (h.located.owned e ?_) rfl fun i hi hq => ?_)
    · rw [ho]
      exact nofun
    · rw [ho] at hi
      cases i with
      | pq => cases hq rfl
      | antiMsg => rfl
      | outq | postedSends | seventQ => simp [QueueId.allows, TwEventOwner.isNet] at hi
      | eventQ | evList | peventQ | fossil | hand => cases hi
  · exact h.frame rfl rfl rfl (h.located.touch e rfl)

theorem twEventRollback (h : Placed m s) (e : TwEvent T) (after : RollbackAfter) :
    Placed m (s.twEventRollback m e after) := by
  obtain ⟨l, cv, msg, t, hs⟩ := twEventRollback_frame m s e after
  rw [hs]
  exact h.frame rfl rfl rfl (h.located.touch e rfl)

theorem shiftPevent (h : Placed m s) {kp : Nat} {e : TwEvent T} {rest : List (TwEvent T)}
    (hq : s.queue (.peventQ kp) = e :: rest) : Placed m (s.shiftPevent kp e rest) := by
  have hown := h.located.allows _ e (hq ▸ List.mem_cons_self)
  have hhand : QueueId.allows (s.here m e) .hand (s.ev e).owner = true := by
    cases ho : (s.ev e).owner with
    | kpPeventQ => rfl
    | unowned => rfl
    | peEventQ | pePq | peAntiMsg | netOutq | netAsend | netAcancel | peSeventQ | peFreeQ =>
        rw [ho] at hown
        cases hown
  have hloc := h.located.moveHead (v := s.ev e) rfl hq rfl hhand
  rw [Function.update_eq_self] at hloc
  exact h.frame rfl rfl rfl hloc

theorem kpRollbackToSig (h : Placed m s) {kp : Nat} {toSig : TwEventSig T}
    (hs : s.kpRollbackToSig m kp toSig = some s') : Placed m s' := by
  obtain ⟨e, rest, hq, -, rfl⟩ := kpRollbackToSig_some hs
  exact (h.shiftPevent hq).twEventRollback e _

theorem kpRollbackEvent (h : Placed m s) {event : TwEvent T}
    (hs : s.kpRollbackEvent m event = .ok s') : Placed m s' := by
  obtain ⟨e, rest, hq, ⟨-, rfl⟩ | ⟨-, hd, tl, -, rfl⟩⟩ := kpRollbackEvent_ok hs
  · exact (h.shiftPevent hq).twEventRollback e _
  · have hsig : Placed m ((s.shiftPevent (m.kpOf event.destLp) e rest).setLastSig
        (m.kpOf event.destLp) hd.sig) := (h.shiftPevent hq).same rfl rfl rfl rfl rfl
    exact hsig.twEventRollback e _

theorem afterRollback (h : Placed m s) {e : TwEvent T} (he : e ∈ s.queue .hand)
    (after : RollbackAfter) : Placed m (s.afterRollback m e after) := by
  rw [afterRollback_eq]
  cases after with
  | requeueReset => exact h.frame rfl rfl rfl (h.located.move rfl he rfl rfl)
  | requeue => exact h.frame rfl rfl rfl (h.located.move rfl he rfl rfl)
  | freeReset => exact h.frame rfl rfl rfl (h.located.take rfl he rfl)
  | abort kind => exact h.frame rfl rfl rfl (h.located.move rfl he rfl rfl)

theorem rollbackStep (h : Placed m s) (hhand : Holding s) {r : Rollback T}
    (hr : s.rollback = some r) (hs : s.rollbackStep m r = .ok s') : Placed m s' := by
  unfold Pe.rollbackStep at hs
  split at hs
  next e rest hc =>
    have h' : Placed m (({ s with rollback := some { r with children := rest } } :
        Pe T S M R).reverseUnif m e.srcLp 1) := h.same rfl rfl rfl rfl rfl
    exact h'.eventCancel hs
  next hc =>
    cases hs
    have hend : Placed m (s.rollbackEnd m r.event) :=
      h.frame rfl rfl rfl (h.located.touch r.event rfl)
    refine hend.afterRollback ?_ r.after
    show r.event ∈ s.queue .hand
    rw [hhand.rollback r hr]
    exact List.mem_singleton_self _

/-! ## The schedulers -/

theorem schedEventQ (h : Placed m s) (hs : s.schedEventQ m = .ok s') : Placed m s' := by
  rcases schedEventQ_ok hs with ⟨cev, rest, hq, ⟨-, rfl⟩ | ⟨-, -, ⟨-, rfl⟩ | ⟨-, rfl⟩⟩⟩ |
    ⟨-, -, rfl⟩ | ⟨-, -, rfl⟩
  · have hloc := h.located.take (v := { s.ev cev with owner := .peAntiMsg }) (q := .evList) rfl
      (hq ▸ List.mem_cons_self) rfl
    rw [← Pool.update_tail hq] at hloc
    exact h.frame rfl rfl rfl (hloc.park cev)
  · exact h.same rfl rfl rfl rfl rfl
  · exact h.frame rfl rfl rfl (h.located.moveHead rfl hq rfl rfl)
  · exact h.same rfl rfl rfl rfl rfl
  · exact h.frame rfl rfl rfl
      (h.located.split rfl rfl (List.nil_append _).symm nofun fun _ _ => QueueId.allows_evList)

theorem schedStraggler (h : Placed m s) (hs : s.schedStraggler m = .ok s') : Placed m s' := by
  obtain ⟨cev, rest, hq, hback | ⟨-, rfl⟩⟩ := schedStraggler_ok hs
  · exact h.kpRollbackToSig hback
  · exact h.frame rfl rfl rfl (h.located.moveHead rfl hq rfl rfl)

/-- An event of `cancel_q` leaves the queue that its owner names. -/
theorem cancelled (h : Placed m s) {e : TwEvent T} {q : QueueId}
    (hq : (s.ev e).owner = .peEventQ ∧ q = .eventQ ∨ (s.ev e).owner = .peAntiMsg ∧ q = .antiMsg ∨
      (s.ev e).owner = .pePq ∧ q = .pq) {st : EventState T M} (hst : st.owner = .peFreeQ) :
    Located (s.here m) (Pool.remove s.queue q e) (Function.update s.ev e st) s.Known := by
  refine h.located.drop q (h.located.owned e ?_) (by rw [hst]; rfl) fun i hi hiq => ?_
  · rcases hq with ⟨ho, -⟩ | ⟨ho, -⟩ | ⟨ho, -⟩
    all_goals
      rw [ho]
      exact nofun
  · rw [hst]
    rcases hq with ⟨ho, rfl⟩ | ⟨ho, rfl⟩ | ⟨ho, rfl⟩
    all_goals
      rw [ho] at hi
      cases i with
      | antiMsg => rfl
      | eventQ | evList => first | exact hi | cases hi
      | outq | postedSends | seventQ => simp [QueueId.allows, TwEventOwner.isNet] at hi
      | pq => first | cases hiq rfl | cases hi
      | peventQ | fossil | hand => cases hi

theorem schedCancelQ (h : Placed m s) (hs : s.schedCancelQ = .ok s') : Placed m s' := by
  rcases schedCancelQ_ok hs with ⟨cev, rest, -, -, ⟨q, hq, rfl⟩ | ⟨-, rfl⟩⟩ | ⟨-, -, rfl⟩ |
    ⟨-, -, rfl⟩
  · exact h.frame rfl rfl rfl (h.cancelled hq rfl)
  · exact h.same rfl rfl rfl rfl rfl
  · exact h.same rfl rfl rfl rfl rfl
  · exact h.same rfl rfl rfl rfl rfl

theorem batchStep (h : Placed m s) {kind : BatchKind} {left : Nat}
    (hs : s.batchStep m kind left = .ok s') : Placed m s' := by
  rcases batchStep_ok hs with ⟨c, n, rfl⟩ | ⟨cev, hcev, -, -, -, rfl⟩
  · exact h.same rfl rfl rfl rfl rfl
  · have hdeq : Placed m (s.dequeued m cev) :=
      h.frame rfl rfl rfl (h.located.move rfl (pqLeast_some hcev).1 rfl rfl)
    obtain ⟨l, cv, msg, ops, hrun⟩ := runEvent_frame (m := m) (s.dequeued m cev) kind (left - 1) cev
    rw [hrun]
    have hloc := hdeq.located.touch (v := { (s.dequeued m cev).ev cev with cv, msg }) cev rfl
    exact forget (s := s.dequeued m cev) rfl rfl rfl hloc

theorem handlerReturn (h : Placed m s) {kind : BatchKind} {left : Nat} {cev : TwEvent T}
    (hcev : cev ∈ s.queue .hand) {expired : Bool}
    (hs : s.handlerReturn m kind left cev expired = .ok s') : Placed m s' := by
  rcases handlerReturn_ok hs with ⟨-, -, rfl⟩ | ⟨-, -, rfl⟩ | ⟨-, -, c, p, -, rfl⟩
  · exact h.frame rfl rfl rfl (h.located.take rfl hcev rfl)
  · have h' : Placed m { s with cevAbort := false } := h.same rfl rfl rfl rfl rfl
    exact h'.twEventRollback cev _
  · exact h.frame rfl rfl rfl (h.located.move rfl hcev rfl rfl)

theorem fossilStep (h : Placed m s) {kp : Nat} {children : List (TwEvent T)}
    (hs : s.fossilStep m kp children = .ok s') : Placed m s' := by
  rcases fossilStep_ok hs with ⟨c, cs, -, ⟨ho, rfl⟩ | ⟨-, rfl⟩⟩ | ⟨-, e, he, hce⟩ | ⟨-, -, -, rfl⟩ |
    ⟨-, -, -, rfl⟩
  · refine h.frame rfl rfl rfl (h.located.dropNet _ ?_ rfl)
    rw [ho]
    rfl
  · exact h.same rfl rfl rfl rfl rfl
  · have hmem := List.mem_of_getLast? he
    have hret : Placed m (s.retire kp e) := by
      refine h.frame rfl rfl rfl (h.located.take rfl hmem ?_)
      dsimp only
      split
      · exact QueueId.isNet_eq_false rfl (h.located.allows _ e hmem)
      · rfl
    rcases commitEvent_ok hce with ⟨-, rfl⟩ | ⟨-, -, c, -, rfl⟩
    · exact hret
    · exact hret.same rfl rfl rfl rfl rfl
  · refine h.frame rfl rfl rfl
      (h.located.split rfl rfl (fossilCut_append _ _).symm nofun fun _ _ => QueueId.allows_fossil)
  · exact h.same rfl rfl rfl rfl rfl

theorem call (h : Placed m s) {expired : Bool} {c : Call T} (hs : s.call m expired c = .ok s') :
    Placed m s' := by
  cases c with
  | gvtStep1 =>
      obtain ⟨n, b, hg, -⟩ := gvtStep1_frame (m := m) s
      cases hs
      rw [hg]
      exact h.same rfl rfl rfl rfl rfl
  | gvtStep1Realtime =>
      obtain ⟨n, b, hg, -⟩ := gvtStep1Realtime_frame (m := m) s expired
      cases hs
      rw [hg]
      exact h.same rfl rfl rfl rfl rfl
  | gvtStep2 | optimisticTail | optimisticRealtimeTail | conservativeTail =>
      cases hs
      split
      · exact h.same rfl rfl rfl rfl rfl
      · exact h.same rfl rfl rfl rfl rfl
  | gvtHookStep =>
      rcases gvtHookStep_ok hs with rfl | rfl | rfl | ⟨-, hc⟩
      · exact h
      · exact h.same rfl rfl rfl rfl rfl
      · exact h.same rfl rfl rfl rfl rfl
      · rcases callHook_ok hc with rfl | ⟨-, -, rfl⟩
        · exact h.same rfl rfl rfl rfl rfl
        · exact h.same rfl rfl rfl rfl rfl
  | initLp | preRunLp =>
      cases hs
      exact forget (s := s) rfl rfl rfl h.located
  | netRead | gvtStep2AndHook | rollbackAndCancelEventsPe | cleanupLoop | gvtStatusOn
  | schedulerOptimistic | schedulerOptimisticRealtime | schedulerConservative
  | schedEventQ | schedCancelQ | schedBatch | schedBatchRealtime
  | conservativeBatch | kpRollbackToSig | cleanupTest | hookReturn =>
      cases hs
      exact h.same rfl rfl rfl rfl rfl

/-! ## Steps -/

theorem step (h : Placed m s) (hhand : Holding s) {i : Input T M} (hs : s.step m i = .ok s') :
    Placed m s' := by
  have hturn := step_turn hs
  clear hs
  cases hturn with
  | recv hn hp hs =>
      have h' : Placed m { s with net := .testRecvs true } := h.same rfl rfl rfl rfl rfl
      exact h'.recvFinish hs
  | testRecvs hn hs => exact hs ▸ h.same rfl rfl rfl rfl rfl
  | @sent read changed e hn he hs =>
      have h' : Placed m { s with net := .testSends read true } := h.same rfl rfl rfl rfl rfl
      exact h'.sendFinish hs
  | testSends hn hs => exact hs ▸ h.same rfl rfl rfl rfl rfl
  | recvBegin hn hs =>
      rcases recvBegin_ok hs with rfl | ⟨-, -, rfl⟩
      · exact h.same rfl rfl rfl rfl rfl
      · exact h.same rfl rfl rfl rfl rfl
  | sendBegin hn hs => exact hs ▸ h.sendBegin _ _
  | rollback hn hr hs => exact h.rollbackStep hhand hr hs
  | @call c rest expired hat ht hs =>
      have h' : Placed m { s with todo := rest } := h.same rfl rfl rfl rfl rfl
      exact h'.call hs
  | outerCall hat ht hs => exact h.call hs
  | eventQ hat hs => exact h.schedEventQ hs
  | eventQRollback hat hs => exact h.schedStraggler hs
  | cancelQ hat hs => exact h.schedCancelQ hs
  | cancelQRollback hat hs => exact h.kpRollbackEvent hs
  | rollbackToSig hat hs => exact h.kpRollbackToSig hs
  | rollbackToSigDone hat _ hs => exact hs ▸ h.same rfl rfl rfl rfl rfl
  | batch hat hs => exact h.batchStep hs
  | @handlerOp kind left lp op ops expired hat hs =>
      have h' : Placed m { s with phase := .handler kind left lp ops } := h.same rfl rfl rfl rfl rfl
      exact h'.handlerOp hs
  | @handlerReturn kind left lp cev expired hat hc hs =>
      obtain ⟨cev', hcev, hc'⟩ := hhand.handler _ _ _ _ hat.2.2 hat.2.1
      cases hc.symm.trans hc'
      exact h.handlerReturn (hcev ▸ List.mem_singleton_self cev) hs
  | @initOp lp op ops expired hat hs =>
      have h' : Placed m { s with phase := .lpInit lp ops } := h.same rfl rfl rfl rfl rfl
      exact h'.handlerOp hs
  | initReturn hat _ hs => exact hs ▸ h.same rfl rfl rfl rfl rfl
  | whiteLoop hat hs => exact hs ▸ h.same rfl rfl rfl rfl rfl
  | @reduce r o hat hs =>
      rw [hs]
      cases o with
      | total white => exact h.same rfl rfl rfl rfl rfl
      | gvt sig => exact h.same rfl rfl rfl rfl rfl
      | flag b => exact h.same rfl rfl rfl rfl rfl
  | reduced hat hs =>
      rcases afterReduction_ok hs with ⟨-, -, t, hcall⟩ | ⟨-, -, rfl⟩ | ⟨-, -, rfl⟩ | ⟨-, -, rfl⟩
      · rcases callHook_ok hcall with rfl | ⟨-, -, rfl⟩
        · exact h.same rfl rfl rfl rfl rfl
        · exact h.same rfl rfl rfl rfl rfl
      · exact h.same rfl rfl rfl rfl rfl
      · exact h.same rfl rfl rfl rfl rfl
      · exact h.same rfl rfl rfl rfl rfl
  | gvtStore hat hs =>
      obtain ⟨-, n, rfl⟩ := gvtStore_ok hs
      exact h.same rfl rfl rfl rfl rfl
  | fossil hat hs => exact h.fossilStep hs
  | hook hat hs =>
      rcases hookStep_ok hs with ⟨-, -, t, rfl⟩ | ⟨-, rfl⟩ | ⟨-, rfl⟩
      · exact h.same rfl rfl rfl rfl rfl
      · exact h.same rfl rfl rfl rfl rfl
      · exact h.same rfl rfl rfl rfl rfl

end Placed

end Pe

end Ross

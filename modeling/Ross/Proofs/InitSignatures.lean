import Ross.Proofs.Handler

/-!
# The signatures of the events made during initialization

`tw_init_lps` and `tw_pre_run_lps` run the handlers of the LPs of a PE with the abort
event as the current event, and requests past the end of time are served with this very
event.  So what one LP asks for can reach the lineage of another LP's zero-offset
events.
-/

namespace Ross

open Transition

variable {T S M R : Type} [TwStime T]

/-! ## Requests -/

/-- The LP whose handler a call runs. -/
def Call.lp : Call T → Nat
  | .initLp lp | .preRunLp lp => lp
  | _ => 0

/-- What the handler of a call of the initialization does. -/
def initOps (m : SimModel T S M R) : Call T → List (HandlerOp T M)
  | .initLp lp => (m.init lp (m.lpState0 lp)).2
  | .preRunLp lp => (m.preRun lp (m.init lp (m.lpState0 lp)).1).2
  | _ => []

/-- The requests for an event among the calls of a handler of `lp`, with their offsets. -/
def initRequests (lp : Nat) (ops : List (HandlerOp T M)) : List (Nat × T) :=
  ops.filterMap fun
    | .eventNew _ offsetTs _ _ => some (lp, offsetTs)
    | _ => none

/-- The requests of a handler. -/
def callRequests (m : SimModel T S M R) (c : Call T) : List (Nat × T) :=
  initRequests c.lp (initOps m c)

/-- What requests leave behind: the generators, how many buffers were taken, and the
numbers drawn for the requests that were served with the abort event, from the last one
with a nonzero offset on. -/
structure Drawn (T R : Type) where
  rng : Nat → R
  taken : Nat
  abort : List T

/-- A request during the initialization is served with the abort event: it is past the
end of time, or the buffers are used up. -/
def ServedWithAbort (m : SimModel T S M R) (d : Drawn T R) (offsetTs : T) : Prop :=
  m.tsEnd ≤ 0 + offsetTs ∨
    (m.synch ≠ .conservative ∧ m.synch ≠ .sequential) ∧ m.freeBuffers ≤ d.taken

instance (m : SimModel T S M R) (d : Drawn T R) (offsetTs : T) :
    Decidable (ServedWithAbort m d offsetTs) := by
  unfold ServedWithAbort
  infer_instance

def Drawn.next (m : SimModel T S M R) (d : Drawn T R) (r : Nat × T) : Drawn T R :=
  let u := m.randUnif (d.rng r.1)
  { rng := Function.update d.rng r.1 u.2
    taken := if ServedWithAbort m d r.2 then d.taken else d.taken + 1
    abort :=
      if ServedWithAbort m d r.2 then if r.2 = 0 then d.abort ++ [u.1] else [u.1]
      else d.abort }

/-- What the requests made on a PE leave behind. -/
def drawn (m : SimModel T S M R) (reqs : List (Nat × T)) : Drawn T R :=
  reqs.foldl (Drawn.next m) ⟨m.coreRng0, 0, []⟩

theorem drawn_append (m : SimModel T S M R) (reqs : List (Nat × T)) (r : Nat × T) :
    drawn m (reqs ++ [r]) = (drawn m reqs).next m r := by
  unfold drawn
  rw [List.foldl_append]
  rfl

section

omit [TwStime T]

theorem initRequests_append (lp : Nat) (ops : List (HandlerOp T M)) (op : HandlerOp T M) :
    initRequests lp (ops ++ [op]) = initRequests lp ops ++ initRequests lp [op] := by
  unfold initRequests
  exact List.filterMap_append

theorem fst_of_mem_initRequests {lp : Nat} {ops : List (HandlerOp T M)} {r : Nat × T}
    (h : r ∈ initRequests lp ops) : r.1 = lp := by
  obtain ⟨op, -, hop⟩ := List.mem_filterMap.mp h
  cases op with
  | eventNew _ offsetTs _ _ =>
      cases hop
      rfl
  | eventSend _ | lpSuspend _ | triggerGvtHookNow => cases hop

end

/-- The generator of an LP moves with its own requests. -/
theorem drawn_rng (m : SimModel T S M R) (reqs : List (Nat × T)) (lp : Nat) :
    (drawn m reqs).rng lp =
      (fun r => (m.randUnif r).2)^[(reqs.filter fun r => decide (r.1 = lp)).length]
        (m.coreRng0 lp) := by
  induction reqs using List.reverseRecOn with
  | nil => rfl
  | append_singleton reqs r ih =>
      rw [drawn_append, List.filter_append]
      unfold Drawn.next
      dsimp only
      by_cases hr : r.1 = lp
      · subst hr
        rw [Function.update_self, ih, List.filter_cons_of_pos (by simp), List.filter_nil,
          List.length_append, List.length_singleton, Function.iterate_succ_apply']
      · rw [Function.update_of_ne (Ne.symm hr), ih, List.filter_cons_of_neg (by simpa using hr),
          List.filter_nil, List.append_nil]

namespace Pe

/-! ## The initialization of a PE -/

/-- The calls of `tw_init_lps` and `tw_pre_run_lps`. -/
def initProgram (m : SimModel T S M R) (id : Nat) : List (Call T) :=
  (m.lps id).map .initLp ++ (m.lps id).map .preRunLp

/-- The rest of the program. -/
def runProgram (m : SimModel T S M R) : List (Call T) := readCall m ++ [schedulerCall m]

/-- The handlers have all returned. -/
def InitOver (m : SimModel T S M R) (s : Pe T S M R) : Prop :=
  s.At .idle ∧ s.todo = runProgram m

/-- The states of a PE up to the end of its initialization. -/
def InitRun (m : SimModel T S M R) (id : Nat) : Pe T S M R → Prop :=
  ReachableVia (· = Pe.start m id (program m id)) (fun s i s' => s.step m i = .ok s')
    fun s _ => ¬ s.InitOver m

/-- The PE `id` has made the calls `done` of its initialization and the calls `ops` of
the handler of `c`. -/
structure InitPoint (m : SimModel T S M R) (id : Nat) (done : List (Call T)) (c : Call T)
    (ops : List (HandlerOp T M)) (s : Pe T S M R) : Prop where
  program : ∃ rest, initProgram m id = done ++ c :: rest ∧ s.todo = rest ++ runProgram m
  handler : ∃ rest, initOps m c = ops ++ rest ∧ s.phase = .lpInit c.lp rest

/-- The requests made on the PE before such a point. -/
def requestsBefore (m : SimModel T S M R) (done : List (Call T)) (c : Call T)
    (ops : List (HandlerOp T M)) : List (Nat × T) :=
  done.flatMap (callRequests m) ++ initRequests c.lp ops

/-- A PE has neither anti-messages nor sends to take back. -/
def Forward (st : EventState T M) : Prop :=
  st.cancelQ = false ∧ st.cancelAsend = false ∧ st.owner ≠ .netAcancel

/-- What holds once the requests `reqs` are made. -/
structure InitFrame (m : SimModel T S M R) (reqs : List (Nat × T)) (s : Pe T S M R) : Prop where
  rollback : s.rollback = none
  net : s.net = .off ∨ (∃ c, s.net = .testSends false c) ∨ ∃ c, s.net = .sendBegin false c
  curEvent : s.curEvent = none
  lastSig : ∀ kp, s.lastSig kp = zeroSig
  lineage : s.abortEvent.sig.eventTiebreaker = (drawn m reqs).abort
  rng : ∀ lp, (s.lp lp).coreRng = (drawn m reqs).rng lp
  taken : m.synch ≠ .conservative → s.freeQ + (drawn m reqs).taken = m.freeBuffers
  events : ∀ e, Forward (s.ev e)

namespace InitFrame

variable {m : SimModel T S M R} {reqs : List (Nat × T)} {s s' : Pe T S M R}

/-- A step that makes no request. -/
theorem same (h : InitFrame m reqs s) (hroll : s'.rollback = none)
    (hnet : s'.net = .off ∨ (∃ c, s'.net = .testSends false c) ∨ ∃ c, s'.net = .sendBegin false c)
    (hcur : s'.curEvent = none) (hlast : s'.lastSig = s.lastSig)
    (hab : s'.abortEvent = s.abortEvent) (hrng : ∀ lp, (s'.lp lp).coreRng = (s.lp lp).coreRng)
    (hfree : m.synch ≠ .conservative → s'.freeQ = s.freeQ) (hev : ∀ e, Forward (s'.ev e)) :
    InitFrame m reqs s' where
  rollback := hroll
  net := hnet
  curEvent := hcur
  lastSig kp := hlast ▸ h.lastSig kp
  lineage := hab ▸ h.lineage
  rng lp := (hrng lp).trans (h.rng lp)
  taken hc := hfree hc ▸ h.taken hc
  events := hev

theorem forward_update {ev : TwEvent T → EventState T M} {e x : TwEvent T} {st : EventState T M}
    (hst : Forward st) (hx : Forward (ev x)) : Forward (Function.update ev e st x) := by
  by_cases h : x = e
  · subst h
    rwa [Function.update_self]
  · rwa [Function.update_of_ne h]

theorem twNow (h : InitFrame m reqs s) (lp : Nat) : s.twNow m lp = 0 := by
  unfold Pe.twNow
  rw [h.lastSig]
  rfl

/-- The request of an event. -/
theorem eventNew {destGid lp : Nat} {offsetTs prio : T} {msg : M} (h : InitFrame m reqs s)
    (hs : s.twEventNewUserPrio m destGid offsetTs lp prio msg = .ok s') :
    InitFrame m (reqs ++ [(lp, offsetTs)]) s' ∧
      s'.newestSig = ⟨0 + offsetTs, prio, tieLineage ⟨0, 0, (drawn m reqs).abort⟩ offsetTs
        (m.randUnif ((drawn m reqs).rng lp)).1⟩ := by
  have hnow := h.twNow lp
  have hcur : s.curSig = s.abortEvent.sig := by
    unfold curSig
    rw [h.curEvent]
  have hsig : s.newSig m offsetTs lp prio = ⟨0 + offsetTs, prio,
      tieLineage ⟨0, 0, (drawn m reqs).abort⟩ offsetTs
        (m.randUnif ((drawn m reqs).rng lp)).1⟩ := by
    unfold newSig tieLineage
    rw [hnow, hcur, h.lineage, h.rng]
  have hrng : ∀ l, (s.drawnLp m lp l).coreRng = (drawn m (reqs ++ [(lp, offsetTs)])).rng l := by
    intro l
    rw [drawn_append]
    unfold drawnLp Drawn.next
    dsimp only
    by_cases hl : l = lp
    · subst hl
      rw [Function.update_self, Function.update_self, h.rng]
    · rw [Function.update_of_ne hl, Function.update_of_ne hl, h.rng]
  obtain ⟨-, ⟨hend, rfl⟩ | ⟨hend, hfree, rfl⟩⟩ := twEventNewUserPrio_ok hs
  · have hserved : ServedWithAbort m (drawn m reqs) offsetTs := by
      rcases hend with hend | ⟨hzero, hsynch⟩
      · exact .inl (hnow ▸ hend)
      · have htaken := h.taken hsynch.1
        exact .inr ⟨hsynch, by omega⟩
    refine ⟨⟨h.rollback, h.net, h.curEvent, h.lastSig, ?_, hrng, fun hc => ?_, h.events⟩, ?_⟩
    · rw [drawn_append, hsig]
      unfold Drawn.next tieLineage
      simp only [if_pos hserved]
    · rw [drawn_append]
      unfold Drawn.next
      simp only [if_pos hserved]
      exact h.taken hc
    · rw [← hsig]
      unfold newestSig
      rw [List.getLast?_append_of_ne_nil _ (List.cons_ne_nil _ _)]
      rfl
  · have hserved : ¬ ServedWithAbort m (drawn m reqs) offsetTs := by
      rintro (hle | ⟨hsynch, hle⟩)
      · rw [hnow] at hend
        exact absurd hle (not_le.mpr hend)
      · have htaken := h.taken hsynch.1
        omega
    refine ⟨⟨h.rollback, h.net, h.curEvent, h.lastSig, ?_, hrng, fun hc => ?_, h.events⟩, ?_⟩
    · rw [drawn_append]
      unfold Drawn.next
      simp only [if_neg hserved]
      exact h.lineage
    · rw [drawn_append]
      unfold Drawn.next
      simp only [if_neg hserved]
      have htaken := h.taken hc
      omega
    · rw [← hsig]
      unfold newestSig
      rw [List.getLast?_append_of_ne_nil _ (List.cons_ne_nil _ _)]
      rfl

/-- An event on its way to a queue has the marks of a forward event. -/
theorem deliver (h : InitFrame m reqs s) (e : TwEvent T) :
    InitFrame m reqs (s.deliver m e) ∧ (s.deliver m e).phase = s.phase ∧
      (s.deliver m e).todo = s.todo ∧ (s.deliver m e).lp = s.lp := by
  have hold := h.events e
  rcases deliver_cases m s e with ⟨-, -, heq⟩ | ⟨-, -, heq⟩ | ⟨-, heq⟩
  · rw [heq]
    refine ⟨h.same h.rollback h.net h.curEvent rfl rfl (fun _ => rfl) (fun _ => rfl) ?_, rfl, rfl,
      rfl⟩
    exact fun x => forward_update ⟨hold.1, hold.2.1, nofun⟩ (h.events x)
  · rw [heq]
    refine ⟨h.same h.rollback h.net h.curEvent rfl rfl (fun _ => rfl) (fun _ => rfl) ?_, rfl, rfl,
      rfl⟩
    exact fun x => forward_update ⟨hold.1, hold.2.1, nofun⟩ (h.events x)
  · rw [heq]
    refine ⟨h.same h.rollback (.inr (.inl ⟨false, rfl⟩)) h.curEvent rfl rfl (fun _ => rfl)
      (fun _ => rfl) ?_, rfl, rfl, rfl⟩
    exact fun x => forward_update ⟨hold.1, hold.2.1, nofun⟩ (h.events x)

/-- Before the `init` handlers there is no current event to link an event to. -/
theorem prepare (h : InitFrame m reqs s) (k : Nat) (e : TwEvent T) (msg : M) :
    InitFrame m reqs (s.prepare k e msg) ∧ (s.prepare k e msg).phase = s.phase ∧
      (s.prepare k e msg).todo = s.todo ∧ (s.prepare k e msg).lp = s.lp := by
  refine ⟨h.same h.rollback h.net h.curEvent rfl rfl (fun _ => rfl) (fun _ => rfl) ?_, rfl, rfl,
    rfl⟩
  intro x
  unfold Pe.prepare linkCausality register setEv takeHandle
  dsimp only
  rw [h.curEvent]
  exact forward_update ⟨rfl, rfl, nofun⟩ (h.events x)

theorem eventSend {k : Nat} (h : InitFrame m reqs s) (hs : s.twEventSend m k = .ok s') :
    InitFrame m reqs s' ∧ s'.phase = s.phase ∧ s'.todo = s.todo ∧ s'.lp = s.lp := by
  rcases twEventSend_ok hs with ⟨-, rfl⟩ | ⟨e, msg, -, -, rfl⟩
  · refine ⟨h.same h.rollback h.net h.curEvent rfl rfl (fun _ => rfl) (fun _ => rfl) ?_, rfl, rfl,
      rfl⟩
    intro x
    dsimp only
    rw [h.curEvent]
    exact h.events x
  · obtain ⟨hprep, hphase, htodo, hlp⟩ := h.prepare k e msg
    obtain ⟨hdel, hphase', htodo', hlp'⟩ := hprep.deliver (s.stamp e)
    exact ⟨hdel, hphase'.trans hphase, htodo'.trans htodo, hlp'.trans hlp⟩

/-- A suspended LP keeps its state and its generator. -/
theorem lpSuspend (h : InitFrame m reqs s) (lp : Nat) (b : Bool) :
    InitFrame m reqs (s.twLpSuspend m lp b) ∧
      ∀ l, ((s.twLpSuspend m lp b).lp l).curState = (s.lp l).curState := by
  have hlp : ∀ l, ((s.twLpSuspend m lp b).lp l).coreRng = (s.lp l).coreRng ∧
      ((s.twLpSuspend m lp b).lp l).curState = (s.lp l).curState := by
    intro l
    unfold twLpSuspend setLp
    dsimp only
    by_cases hl : l = lp
    · subst hl
      rw [Function.update_self]
      exact ⟨rfl, rfl⟩
    · rw [Function.update_of_ne hl]
      exact ⟨rfl, rfl⟩
  exact ⟨h.same h.rollback h.net h.curEvent rfl rfl (fun l => (hlp l).1) (fun _ => rfl) h.events,
    fun l => (hlp l).2⟩

omit [TwStime T] in
/-- Only `tw_event_new` is a request. -/
theorem append_initRequests {lp : Nat} {op : HandlerOp T M}
    (hop : ∀ destGid offsetTs prio msg, op ≠ .eventNew destGid offsetTs prio msg) :
    reqs ++ initRequests lp [op] = reqs := by
  cases op with
  | eventNew destGid offsetTs prio msg => exact absurd rfl (hop destGid offsetTs prio msg)
  | eventSend k => exact List.append_nil reqs
  | lpSuspend b => exact List.append_nil reqs
  | triggerGvtHookNow => exact List.append_nil reqs

/-- A call of a handler. -/
theorem handlerOp {lp : Nat} {op : HandlerOp T M} (h : InitFrame m reqs s)
    (hs : s.handlerOp m lp op = .ok s') :
    InitFrame m (reqs ++ initRequests lp [op]) s' ∧ s'.phase = s.phase ∧ s'.todo = s.todo ∧
      ∀ l, (s'.lp l).curState = (s.lp l).curState := by
  cases op with
  | eventNew destGid offsetTs prio msg =>
      refine ⟨(h.eventNew hs).1, ?_⟩
      have hstate : ∀ l, (s.drawnLp m lp l).curState = (s.lp l).curState := by
        intro l
        exact TwLp.update_field (·.curState) s.lp lp (by rfl) l
      obtain ⟨-, ⟨-, rfl⟩ | ⟨-, -, rfl⟩⟩ := twEventNewUserPrio_ok hs
      · exact ⟨rfl, rfl, hstate⟩
      · exact ⟨rfl, rfl, hstate⟩
  | eventSend k =>
      rw [append_initRequests nofun]
      obtain ⟨hframe, hphase, htodo, hlp⟩ := h.eventSend hs
      exact ⟨hframe, hphase, htodo, fun l => by rw [hlp]⟩
  | lpSuspend b =>
      rw [append_initRequests nofun]
      cases hs
      obtain ⟨hframe, hstate⟩ := h.lpSuspend lp b
      exact ⟨hframe, rfl, rfl, hstate⟩
  | triggerGvtHookNow =>
      rw [append_initRequests nofun]
      rcases twTriggerGvtHookNow_ok hs with rfl | ⟨-, rfl⟩
      · exact ⟨h, rfl, rfl, fun _ => rfl⟩
      · exact ⟨h.same h.rollback h.net h.curEvent rfl rfl
            (TwLp.update_field (·.coreRng) s.lp lp (by rfl)) (fun _ => rfl) h.events,
          rfl, rfl, TwLp.update_field (·.curState) s.lp lp (by rfl)⟩

/-- A step of the loop of `tw_net_send`. -/
theorem netStep {i : Input T M} (h : InitFrame m reqs s) (hon : s.net ≠ .off)
    (hs : s.netStep m s.net i = .ok s') :
    InitFrame m reqs s' ∧ s'.phase = s.phase ∧ s'.todo = s.todo ∧ s'.lp = s.lp := by
  rcases h.net with hoff | ⟨c, hnet⟩ | ⟨c, hnet⟩
  · exact absurd hoff hon
  · rw [hnet] at hs
    unfold Pe.netStep at hs
    split at hs
    next heq => cases heq
    next heq => cases heq
    next heq =>
      cases heq
      cases hs
      exact ⟨h.same h.rollback (.inr (.inr ⟨c, rfl⟩)) h.curEvent rfl rfl (fun _ => rfl)
        (fun _ => rfl) h.events, rfl, rfl, rfl⟩
    next e heq =>
      cases heq
      split at hs
      · have hold := h.events e
        rcases sendFinish_ok hs with ⟨-, hca, -⟩ | ⟨-, -, hcons, rfl⟩ | ⟨-, -, -, rfl⟩ | ⟨ho, -⟩
        · rw [show
              (({ s with net := NetLoop.testSends false true } : Pe T S M R).ev e).cancelAsend =
            (s.ev e).cancelAsend from rfl, hold.2.1] at hca
          cases hca
        · exact ⟨h.same h.rollback (.inr (.inl ⟨true, rfl⟩)) h.curEvent rfl rfl (fun _ => rfl)
            (fun hne => absurd hcons hne)
            fun x => forward_update ⟨hold.1, hold.2.1, fun hbad => by cases hbad⟩ (h.events x),
            rfl, rfl, rfl⟩
        · exact ⟨h.same h.rollback (.inr (.inl ⟨true, rfl⟩)) h.curEvent rfl rfl (fun _ => rfl)
            (fun _ => rfl)
            fun x => forward_update ⟨hold.1, hold.2.1, fun hbad => by cases hbad⟩ (h.events x),
            rfl, rfl, rfl⟩
        · exact absurd ho hold.2.2
      · cases hs
    next heq => cases heq
    next heq => cases heq
    · cases hs
  · rw [hnet] at hs
    unfold Pe.netStep at hs
    split at hs
    next heq => cases heq
    next heq => cases heq
    next heq => cases heq
    next heq => cases heq
    next heq => cases heq
    next heq =>
      cases heq
      cases hs
      rcases sendBegin_ok (m := m) s false c with ⟨e, -, -, heq⟩ | ⟨-, heq⟩ <;> rw [heq]
      · have hold := h.events e
        refine ⟨h.same h.rollback (.inr (.inr ⟨true, rfl⟩)) h.curEvent rfl rfl (fun _ => rfl)
          (fun _ => rfl) fun x => forward_update ⟨hold.1, hold.2.1, ?_⟩ (h.events x), rfl, rfl, rfl⟩
        dsimp only
        rw [hold.1]
        exact fun hbad => by cases hbad
      · refine ⟨h.same h.rollback ?_ h.curEvent rfl rfl (fun _ => rfl) (fun _ => rfl) h.events,
          rfl, rfl, rfl⟩
        cases c with
        | true => exact .inr (.inl ⟨false, rfl⟩)
        | false => exact .inl rfl
    · cases hs

end InitFrame

/-! ## Runs -/

variable {m : SimModel T S M R} {id : Nat} {s s' : Pe T S M R} {done rest : List (Call T)}
  {c : Call T}

/-- The LP states once the calls `done` are made or under way. -/
structure InitStates (m : SimModel T S M R) (done : List (Call T)) (s : Pe T S M R) : Prop where
  fresh : ∀ lp, .initLp lp ∉ done → .preRunLp lp ∉ done → (s.lp lp).curState = m.lpState0 lp
  inited : ∀ lp, .initLp lp ∈ done → .preRunLp lp ∉ done →
    (s.lp lp).curState = (m.init lp (m.lpState0 lp)).1

section

omit [TwStime T]

theorem InitStates.same (h : InitStates m done s)
    (hlp : ∀ l, (s'.lp l).curState = (s.lp l).curState) : InitStates m done s' where
  fresh l hi hp := (hlp l).trans (h.fresh l hi hp)
  inited l hi hp := (hlp l).trans (h.inited l hi hp)

/-- A call of the initialization: all of the calls before it of a `pre_run` handler
include the `init` handlers of all LPs. -/
theorem initProgram_split (h : initProgram m id = done ++ c :: rest) :
    ∃ pre l post, m.lps id = pre ++ l :: post ∧
      (c = .initLp l ∧ done = pre.map .initLp ∨
        c = .preRunLp l ∧ done = (m.lps id).map .initLp ++ pre.map .preRunLp) := by
  unfold initProgram at h
  rcases List.append_eq_append_iff.mp h with ⟨done', hdone, hrest⟩ | ⟨rest', hinit, hrest⟩
  · obtain ⟨pre, suf, hlps, hpre, hsuf⟩ := List.map_eq_append_iff.mp hrest
    obtain ⟨l, post, rfl, hl, -⟩ := List.map_eq_cons_iff.mp hsuf
    exact ⟨pre, l, post, hlps, .inr ⟨hl.symm, by rw [hdone, hpre]⟩⟩
  · obtain ⟨pre, suf, hlps, hpre, hsuf⟩ := List.map_eq_append_iff.mp hinit
    cases rest' with
    | nil =>
        rw [List.nil_append] at hrest
        obtain ⟨l, post, hlps', hl, -⟩ := List.map_eq_cons_iff.mp hrest.symm
        rw [List.append_nil] at hinit
        exact ⟨[], l, post, hlps', .inr ⟨hl.symm, by rw [hinit, List.map_nil, List.append_nil]⟩⟩
    | cons c' rest' =>
        rw [List.cons_append, List.cons.injEq] at hrest
        obtain ⟨l, post, rfl, hl, -⟩ := List.map_eq_cons_iff.mp hsuf
        exact ⟨pre, l, post, hlps, .inl ⟨hrest.1.trans hl.symm, hpre.symm⟩⟩

theorem requestsBefore_snoc (m : SimModel T S M R) (done : List (Call T)) (c : Call T)
    (ops : List (HandlerOp T M)) (op : HandlerOp T M) :
    requestsBefore m done c (ops ++ [op]) =
      requestsBefore m done c ops ++ initRequests c.lp [op] := by
  unfold requestsBefore
  rw [initRequests_append, List.append_assoc]

end

/-- Where a PE is in its initialization. -/
inductive InitInv (m : SimModel T S M R) (id : Nat) (s : Pe T S M R) : Prop
  | idle {done rest : List (Call T)} : initProgram m id = done ++ rest →
      s.phase = .idle → s.todo = rest ++ runProgram m →
      InitFrame m (done.flatMap (callRequests m)) s → InitStates m done s → InitInv m id s
  | handler {done : List (Call T)} {c : Call T} {ops : List (HandlerOp T M)} :
      InitPoint m id done c ops s → InitFrame m (requestsBefore m done c ops) s →
      InitStates m (done ++ [c]) s → InitInv m id s

theorem step_net {i : Input T M} (h : s.net ≠ .off) : s.step m i = s.netStep m s.net i := by
  unfold step
  split
  next hn _ => exact absurd hn h
  next hn _ => exact absurd hn h
  · rfl

theorem step_off {i : Input T M} (h : s.net = .off) (hr : s.rollback = none) :
    s.step m i = s.phaseStep m s.phase i := by
  unfold step
  rw [h, hr]

/-- The call of a handler. -/
theorem InitStates.callInit (h : InitStates m done s) (hnodup : (m.lps id).Nodup)
    (hsplit : initProgram m id = done ++ c :: rest) {expired : Bool}
    (hs : s.call m expired c = .ok s') :
    ∃ st, s' = { s with
        lp := Function.update s.lp c.lp { s.lp c.lp with curState := st }
        curEvent := none
        abortCausedByMe := []
        handles := []
        phase := .lpInit c.lp (initOps m c) } ∧
      InitStates m (done ++ [c]) s' := by
  obtain ⟨pre, l, post, hlps, hc⟩ := initProgram_split hsplit
  have hl : l ∉ pre := by
    rw [hlps] at hnodup
    exact fun hmem => (List.nodup_append.mp hnodup).2.2 l hmem l List.mem_cons_self rfl
  rcases hc with ⟨rfl, hdone⟩ | ⟨rfl, hdone⟩
  · have hstate : (s.lp l).curState = m.lpState0 l :=
      h.fresh l (by simp [hdone, hl]) (by simp [hdone])
    cases hs
    refine ⟨(m.init l (m.lpState0 l)).1, ?_, fun l' hi hp => ?_, fun l' hi hp => ?_⟩
    · unfold Pe.callInit setLp Call.lp initOps
      rw [hstate]
    · rw [List.mem_append, not_or] at hi hp
      have hne : l' ≠ l := by
        rintro rfl
        exact hi.2 List.mem_cons_self
      unfold Pe.callInit setLp
      dsimp only
      rw [Function.update_of_ne hne]
      exact h.fresh l' hi.1 hp.1
    · rw [List.mem_append, not_or] at hp
      unfold Pe.callInit setLp
      dsimp only
      by_cases hne : l' = l
      · subst hne
        rw [Function.update_self, hstate]
      · rw [Function.update_of_ne hne]
        refine h.inited l' ?_ hp.1
        rcases List.mem_append.mp hi with hi | hi
        · exact hi
        · rw [List.mem_singleton] at hi
          cases hi
          exact absurd rfl hne
  · have hmem : l ∈ m.lps id := by
      rw [hlps]
      exact List.mem_append_right _ List.mem_cons_self
    have hstate : (s.lp l).curState = (m.init l (m.lpState0 l)).1 :=
      h.inited l (by simp [hdone, hmem]) (by simp [hdone, hl])
    cases hs
    have hother : ∀ l', l' ≠ l → ((s.callInit l m.preRun).lp l').curState = (s.lp l').curState := by
      intro l' hne
      unfold Pe.callInit setLp
      dsimp only
      rw [Function.update_of_ne hne]
    refine ⟨(m.preRun l (m.init l (m.lpState0 l)).1).1, ?_, fun l' hi hp => ?_, fun l' hi hp => ?_⟩
    · unfold Pe.callInit setLp Call.lp initOps
      rw [hstate]
    · rw [List.mem_append, not_or] at hi hp
      rw [hother l' fun heq => hp.2 (heq ▸ List.mem_cons_self)]
      exact h.fresh l' hi.1 hp.1
    · rw [List.mem_append, not_or] at hp
      rw [hother l' fun heq => hp.2 (heq ▸ List.mem_cons_self)]
      refine h.inited l' ?_ hp.1
      rcases List.mem_append.mp hi with hi | hi
      · exact hi
      · rw [List.mem_singleton] at hi
        cases hi

/-- A step of the initialization. -/
theorem InitInv.step {i : Input T M} (h : InitInv m id s) (hnodup : (m.lps id).Nodup)
    (hover : ¬ s.InitOver m) (hs : s.step m i = .ok s') : InitInv m id s' := by
  by_cases hnet : s.net = .off
  · cases h with
    | @idle done rest hprog hphase htodo hframe hstates =>
        rw [step_off hnet hframe.rollback, hphase] at hs
        cases rest with
        | nil => exact absurd ⟨⟨hnet, hframe.rollback, hphase⟩, htodo⟩ hover
        | cons c rest =>
            cases i with
            | tau expired =>
                unfold phaseStep at hs
                rw [htodo] at hs
                dsimp only at hs
                rw [List.cons_append] at hs
                dsimp only at hs
                have hstates' : InitStates m done { s with todo := rest ++ runProgram m } :=
                  hstates.same fun _ => rfl
                obtain ⟨st, rfl, hst⟩ := hstates'.callInit hnodup hprog hs
                have hpoint : InitPoint m id done c [] { s with
                    todo := rest ++ runProgram m
                    lp := Function.update s.lp c.lp { s.lp c.lp with curState := st }
                    curEvent := none
                    abortCausedByMe := []
                    handles := []
                    phase := .lpInit c.lp (initOps m c) } := ⟨⟨rest, hprog, rfl⟩, _, rfl, rfl⟩
                refine .handler hpoint ?_ hst
                have hreqs : requestsBefore m done c ([] : List (HandlerOp T M)) =
                    done.flatMap (callRequests m) := List.append_nil _
                rw [hreqs]
                refine hframe.same hframe.rollback hframe.net rfl rfl rfl (fun l => ?_)
                  (fun _ => rfl) hframe.events
                dsimp only
                by_cases hl : l = c.lp
                · subst hl
                  rw [Function.update_self]
                · rw [Function.update_of_ne hl]
            | call c' =>
                unfold phaseStep at hs
                rw [htodo] at hs
                simp at hs
            | _ => cases hs
    | @handler done c ops hpoint hframe hstates =>
        obtain ⟨⟨rest, hprog, htodo⟩, left, hops, hphase⟩ := hpoint
        rw [step_off hnet hframe.rollback, hphase] at hs
        cases i with
        | tau expired =>
            unfold phaseStep initStep at hs
            cases left with
            | nil =>
                dsimp only at hs
                split at hs
                · cases hs
                · cases hs
                  have hreqs : requestsBefore m done c ops =
                      (done ++ [c]).flatMap (callRequests m) := by
                    rw [List.append_nil] at hops
                    unfold requestsBefore callRequests
                    rw [List.flatMap_append, List.flatMap_singleton, hops]
                  have hprog' : initProgram m id = (done ++ [c]) ++ rest := by
                    rw [hprog, List.append_assoc]
                    rfl
                  refine .idle hprog' rfl htodo ?_ (hstates.same fun _ => rfl)
                  · rw [← hreqs]
                    exact hframe.same hframe.rollback hframe.net hframe.curEvent rfl rfl
                      (fun _ => rfl) (fun _ => rfl) hframe.events
            | cons op left =>
                have hframe' : InitFrame m (requestsBefore m done c ops)
                    { s with phase := .lpInit c.lp left } :=
                  hframe.same hframe.rollback hframe.net hframe.curEvent rfl rfl
                    (fun _ => rfl) (fun _ => rfl) hframe.events
                obtain ⟨hnew, hphase', htodo', hlp⟩ := hframe'.handlerOp hs
                rw [← requestsBefore_snoc] at hnew
                refine .handler ⟨⟨rest, hprog, htodo'.trans htodo⟩, left, ?_, hphase'⟩ hnew
                  (hstates.same hlp)
                rw [hops, List.append_assoc]
                rfl
        | _ => cases hs
  · rw [step_net hnet] at hs
    cases h with
    | idle hprog hphase htodo hframe hstates =>
        obtain ⟨hframe', hphase', htodo', hlp⟩ := hframe.netStep hnet hs
        exact .idle hprog (hphase'.trans hphase) (htodo'.trans htodo) hframe'
          (hstates.same fun l => by rw [hlp])
    | handler hpoint hframe hstates =>
        obtain ⟨hframe', hphase', htodo', hlp⟩ := hframe.netStep hnet hs
        obtain ⟨⟨rest, hprog, htodo⟩, left, hops, hphase⟩ := hpoint
        exact .handler ⟨⟨rest, hprog, htodo'.trans htodo⟩, left, hops, hphase'.trans hphase⟩
          hframe' (hstates.same fun l => by rw [hlp])

theorem initInv_of_run (hnodup : (m.lps id).Nodup) (hs : InitRun m id s) : InitInv m id s := by
  refine ReachableVia.invariant (P := InitInv m id) (fun s hinit => ?_)
    (fun s i s' h hover hstep => h.step hnodup hover hstep) hs
  subst hinit
  refine .idle (List.nil_append (initProgram m id)).symm rfl ?_
    ⟨rfl, .inl rfl, rfl, fun _ => rfl, rfl, fun _ => rfl, fun _ => rfl, fun _ => ⟨rfl, rfl, ?_⟩⟩
    ⟨fun _ _ _ => rfl, fun l hi => absurd hi List.not_mem_nil⟩
  · unfold Pe.start program initProgram runProgram
    dsimp only
    rw [List.append_assoc]
  · exact fun hbad => by cases hbad

/-! ## Two runs -/

/-- Two configurations of the same model: they may differ in the protocol, in the PEs and
KPs and in what these serve. -/
structure SameModel (m m' : SimModel T S M R) : Prop where
  init : m'.init = m.init
  preRun : m'.preRun = m.preRun
  lpState0 : m'.lpState0 = m.lpState0
  coreRng0 : m'.coreRng0 = m.coreRng0
  randUnif : m'.randUnif = m.randUnif
  tsEnd : m'.tsEnd = m.tsEnd

omit [TwStime T] in
theorem SameModel.initOps {m' : SimModel T S M R} (h : SameModel m m') (c : Call T) :
    Ross.initOps m' c = Ross.initOps m c := by
  unfold Ross.initOps
  rw [h.init, h.preRun, h.lpState0]

/-- The requests that the LP of a call made in its earlier handlers. -/
def ownBefore (m : SimModel T S M R) : Call T → List (Nat × T)
  | .preRunLp lp => callRequests m (.initLp lp)
  | _ => []

section

omit [TwStime T]

theorem filter_other {lp : Nat} {calls : List (Call T)} (h : ∀ c ∈ calls, c.lp ≠ lp) :
    (calls.flatMap (callRequests m)).filter (fun r => decide (r.1 = lp)) = [] := by
  refine List.filter_eq_nil_iff.mpr fun r hr => ?_
  obtain ⟨c, hc, hr⟩ := List.mem_flatMap.mp hr
  have hfst := fst_of_mem_initRequests hr
  rw [decide_eq_true_eq, hfst]
  exact h c hc

theorem filter_own (lp : Nat) (ops : List (HandlerOp T M)) :
    (initRequests lp ops).filter (fun r => decide (r.1 = lp)) = initRequests lp ops := by
  refine List.filter_eq_self.mpr fun r hr => ?_
  rw [decide_eq_true_eq]
  exact fst_of_mem_initRequests hr

/-- What an LP requested before a point does not depend on the other LPs. -/
theorem requestsBefore_own (hnodup : (m.lps id).Nodup)
    (hsplit : initProgram m id = done ++ c :: rest) (ops : List (HandlerOp T M)) :
    (requestsBefore m done c ops).filter (fun r => decide (r.1 = c.lp)) =
      ownBefore m c ++ initRequests c.lp ops := by
  obtain ⟨pre, l, post, hlps, hc⟩ := initProgram_split hsplit
  rw [hlps] at hnodup
  obtain ⟨-, hpost, hdisj⟩ := List.nodup_append.mp hnodup
  have hpre : ∀ x ∈ pre, x ≠ l := fun x hx => hdisj x hx l List.mem_cons_self
  have hpost : ∀ x ∈ post, x ≠ l := fun x hx heq => (List.nodup_cons.mp hpost).1 (heq ▸ hx)
  have hcalls : ∀ (f : Nat → Call T) (l' : List Nat), (∀ x, (f x).lp = x) → (∀ x ∈ l', x ≠ l) →
      ∀ c ∈ l'.map f, c.lp ≠ l := by
    intro f l' hf hl' c hc
    obtain ⟨x, hx, rfl⟩ := List.mem_map.mp hc
    rw [hf]
    exact hl' x hx
  unfold requestsBefore
  rw [List.filter_append, filter_own]
  rcases hc with ⟨rfl, rfl⟩ | ⟨rfl, rfl⟩
  · rw [show (Call.initLp l : Call T).lp = l from rfl,
      filter_other (hcalls _ pre (fun _ => rfl) hpre)]
    rfl
  · rw [show (Call.preRunLp l : Call T).lp = l from rfl, List.flatMap_append, List.filter_append,
      filter_other (hcalls .preRunLp pre (fun _ => rfl) hpre), List.append_nil, hlps,
      List.map_append, List.map_cons, List.flatMap_append, List.flatMap_cons, List.filter_append,
      List.filter_append, filter_other (hcalls .initLp pre (fun _ => rfl) hpre),
      filter_other (hcalls .initLp post (fun _ => rfl) hpost), List.append_nil, List.nil_append]
    congr 1
    exact filter_own l _

/-- A state shows the point it is at. -/
theorem InitPoint.unique {ops ops' : List (HandlerOp T M)} {done' : List (Call T)} {c' : Call T}
    (h : InitPoint m id done c ops s) (h' : InitPoint m id done' c' ops' s) :
    done' = done ∧ c' = c ∧ ops' = ops := by
  obtain ⟨⟨rest, hprog, htodo⟩, left, hops, hphase⟩ := h
  obtain ⟨⟨rest', hprog', htodo'⟩, left', hops', hphase'⟩ := h'
  have hrest : rest' = rest := List.append_cancel_right (htodo'.symm.trans htodo)
  subst hrest
  have hsplit : done' ++ [c'] = done ++ [c] := by
    have heq : (done' ++ [c']) ++ rest' = (done ++ [c]) ++ rest' := by
      rw [List.append_assoc, List.append_assoc]
      exact hprog'.symm.trans hprog
    exact List.append_cancel_right heq
  obtain ⟨hdone, hc⟩ := List.append_inj' hsplit rfl
  rw [List.cons.injEq] at hc
  obtain ⟨rfl, -⟩ := hc
  have hleft : left' = left := by
    have heq := hphase'.symm.trans hphase
    injection heq
  subst hleft
  exact ⟨hdone, rfl, List.append_cancel_right (hops'.symm.trans hops)⟩

end

/-- The step that makes a request. -/
theorem request_step {ops left : List (HandlerOp T M)} {destGid : Nat} {offsetTs prio : T}
    {msg : M} {i : Input T M} (hnodup : (m.lps id).Nodup) (hs : InitRun m id s)
    (hpoint : InitPoint m id done c ops s)
    (hop : initOps m c = ops ++ .eventNew destGid offsetTs prio msg :: left)
    (hoff : s.net = .off) (hstep : s.step m i = .ok s') :
    s'.newestSig = ⟨0 + offsetTs, prio,
      tieLineage ⟨0, 0, (drawn m (requestsBefore m done c ops)).abort⟩ offsetTs
        (m.randUnif ((drawn m (requestsBefore m done c ops)).rng c.lp)).1⟩ := by
  obtain ⟨left', hops, hphase⟩ := hpoint.handler
  have hleft : left' = .eventNew destGid offsetTs prio msg :: left :=
    List.append_cancel_left (hops.symm.trans hop)
  subst hleft
  cases initInv_of_run hnodup hs with
  | idle _ hidle => cases hidle.symm.trans hphase
  | handler hpoint' hframe _ =>
      obtain ⟨hdone, hc, hops'⟩ := hpoint.unique hpoint'
      rw [hdone, hc, hops'] at hframe
      rw [step_off hoff hframe.rollback, hphase] at hstep
      unfold phaseStep at hstep
      cases i with
      | tau expired =>
          have hframe' : InitFrame m (requestsBefore m done c ops)
              { s with phase := .lpInit c.lp left } :=
            hframe.same hframe.rollback hframe.net hframe.curEvent rfl rfl (fun _ => rfl)
              (fun _ => rfl) hframe.events
          exact (hframe'.eventNew hstep).2
      | _ => cases hstep

/-- During the initialization an event gets the signature that it would get if its LP was
alone on its PE exactly when its offset is not zero, or the requests that the abort event
served before it drew the same numbers (from the last one with a nonzero offset on) as
when the LP is alone, whatever runs the two are. -/
theorem init_signature_same_iff {m' : SimModel T S M R} {id' lp : Nat} (hsame : SameModel m m')
    (hnodup : (m.lps id).Nodup) (halone : m'.lps id' = [lp]) :
    (∀ s left, InitRun m id s → s.phase = .lpInit lp left → ∃ done c ops,
      InitPoint m id done c ops s ∧ c.lp = lp ∧ initOps m c = ops ++ left) ∧
    ∀ (done done' : List (Call T)) (c : Call T) (ops left : List (HandlerOp T M))
      (destGid : Nat) (offsetTs prio : T) (msg : M) (s t s' t' : Pe T S M R) (i i' : Input T M),
      initOps m c = ops ++ .eventNew destGid offsetTs prio msg :: left →
      InitRun m id s → InitPoint m id done c ops s → s.net = .off → s.step m i = .ok t →
      InitRun m' id' s' → InitPoint m' id' done' c ops s' → s'.net = .off →
      s'.step m' i' = .ok t' →
      (t.newestSig = t'.newestSig ↔ (offsetTs = 0 →
        (drawn m (requestsBefore m done c ops)).abort =
          (drawn m' (requestsBefore m' done' c ops)).abort)) := by
  refine ⟨fun s left hs hphase => ?_, ?_⟩
  · cases initInv_of_run hnodup hs with
    | idle _ hidle => cases hidle.symm.trans hphase
    | @handler done c ops hpoint hframe _ =>
        obtain ⟨left', hops, hphase'⟩ := hpoint.handler
        have heq := hphase'.symm.trans hphase
        injection heq with hlp hleft
        exact ⟨done, c, ops, hpoint, hlp, hleft ▸ hops⟩
  · intro done done' c ops left destGid offsetTs prio msg s t s' t' i i' hop hs hpoint hoff hstep
      hs' hpoint' hoff' hstep'
    have hnodup' : (m'.lps id').Nodup := by
      rw [halone]
      exact List.nodup_singleton lp
    have hop' : initOps m' c = ops ++ .eventNew destGid offsetTs prio msg :: left := by
      rw [hsame.initOps, hop]
    rw [request_step hnodup hs hpoint hop hoff hstep,
      request_step hnodup' hs' hpoint' hop' hoff' hstep']
    -- the random number is the LP's own in both
    obtain ⟨rest, hsplit, -⟩ := hpoint.program
    obtain ⟨rest', hsplit', -⟩ := hpoint'.program
    have hown : ownBefore m' c = ownBefore m c := by
      cases c with
      | preRunLp l =>
          show initRequests l (Ross.initOps m' (.initLp l)) =
            initRequests l (Ross.initOps m (.initLp l))
          rw [hsame.initOps]
      | _ => rfl
    have hrng : (drawn m' (requestsBefore m' done' c ops)).rng c.lp =
        (drawn m (requestsBefore m done c ops)).rng c.lp := by
      rw [drawn_rng, drawn_rng, requestsBefore_own hnodup hsplit,
        requestsBefore_own hnodup' hsplit',
        hown, hsame.randUnif, hsame.coreRng0]
    rw [hrng, hsame.randUnif]
    rw [TwEventSig.mk.injEq]
    unfold tieLineage
    by_cases hzero : offsetTs = 0
    · rw [if_pos hzero, if_pos hzero]
      constructor
      · rintro ⟨-, -, heq⟩ -
        exact List.append_cancel_right heq
      · intro heq
        exact ⟨rfl, rfl, by rw [heq hzero]⟩
    · rw [if_neg hzero, if_neg hzero]
      exact iff_of_true ⟨rfl, rfl, rfl⟩ fun h => absurd h hzero

/-! ## A PE of two LPs -/

/-- The LP 0 asks for an event at the offset `offsetTs` in its `init` handler, the LP 1
for one at the offset zero. -/
def initModel (offsetTs : Int) (lps : List Nat) : SimModel Int Nat Nat Nat :=
  { quietModel with
    lps := fun _ => lps
    init := fun lp st => (st, [.eventNew lp (if lp = 0 then offsetTs else 0) 1 0]) }

/-- The PE is about to make the request of the LP 1, which gets the signature `sig`. -/
def asksFor (offsetTs : Int) (lps : List Nat) (sig : TwEventSig Int) (s : Pe Int Nat Nat Nat) :
    Bool :=
  match s.net, s.phase with
  | .off, .lpInit 1 [.eventNew 1 0 1 0] =>
      (s.step (initModel offsetTs lps) (.tau false)).toOption.any fun t =>
        decide (t.newestSig = sig)
  | _, _ => false

theorem asksFor_spec {offsetTs : Int} {lps : List Nat} {sig : TwEventSig Int}
    {s : Pe Int Nat Nat Nat} (h : s.asksFor offsetTs lps sig = true) :
    s.net = .off ∧ s.phase = .lpInit 1 [.eventNew 1 0 1 0] ∧
      ∃ t, s.step (initModel offsetTs lps) (.tau false) = .ok t ∧ t.newestSig = sig := by
  unfold asksFor at h
  split at h
  next hnet hphase =>
    obtain ⟨t, ht, hsig⟩ := exists_ok_of_any h
    exact ⟨hnet, hphase, t, ht, of_decide_eq_true hsig⟩
  · cases h

theorem initModel_run (offsetTs : Int) (lps : List Nat) (n : Nat) (sig : TwEventSig Int)
    (h : (runList (checked (fun a i => a.step (initModel offsetTs lps) i)
        fun (a : Pe Int Nat Nat Nat) _ => decide (2 < a.todo.length))
      (Pe.start (initModel offsetTs lps) 0 (program (initModel offsetTs lps) 0))
      (List.replicate n (.tau false))).toOption.any (asksFor offsetTs lps sig) = true) :
    ∃ s t, InitRun (initModel offsetTs lps) 0 s ∧ s.net = .off ∧
      s.phase = .lpInit 1 [.eventNew 1 0 1 0] ∧
      s.step (initModel offsetTs lps) (.tau false) = .ok t ∧ t.newestSig = sig := by
  have hstart : InitRun (initModel offsetTs lps) 0
      (Pe.start (initModel offsetTs lps) 0 (program (initModel offsetTs lps) 0)) := .start rfl
  have hbefore : ∀ (a : Pe Int Nat Nat Nat) (_ : Input Int Nat),
      decide (2 < a.todo.length) = true → ¬ a.InitOver (initModel offsetTs lps) := by
    intro a _ hlen hover
    have hlt := of_decide_eq_true hlen
    have hrest : (runProgram (initModel offsetTs lps)).length = 2 := rfl
    rw [hover.2] at hlt
    omega
  obtain ⟨s, hs, hreq⟩ := ReachableVia.exists_of_runList
    (fun (a : Pe Int Nat Nat Nat) _ => decide (2 < a.todo.length)) (asksFor offsetTs lps sig)
    (List.replicate n (Input.tau false)) hbefore hstart h
  obtain ⟨hnet, hphase, t, ht, hsig⟩ := asksFor_spec hreq
  exact ⟨s, t, hs, hnet, hphase, ht, hsig⟩

theorem initModel_point {offsetTs : Int} {lps : List Nat} {s : Pe Int Nat Nat Nat}
    (hnodup : lps.Nodup) (hs : InitRun (initModel offsetTs lps) 0 s)
    (hphase : s.phase = .lpInit 1 [.eventNew 1 0 1 0]) :
    ∃ pre post, lps = pre ++ 1 :: post ∧
      InitPoint (initModel offsetTs lps) 0 (pre.map .initLp) (.initLp 1) [] s := by
  cases initInv_of_run hnodup hs with
  | idle _ hidle => cases hidle.symm.trans hphase
  | @handler done c ops hpoint =>
      obtain ⟨rest, hprog, -⟩ := hpoint.program
      obtain ⟨left, hops, hphase'⟩ := hpoint.handler
      have heq := hphase'.symm.trans hphase
      injection heq with hlp hleft
      subst hleft
      obtain ⟨pre, l, post, hlps, ⟨rfl, rfl⟩ | ⟨rfl, -⟩⟩ := initProgram_split hprog
      · obtain rfl : l = 1 := hlp
        have hlen := congrArg List.length hops
        rw [List.length_append] at hlen
        have hzero : ops.length = 0 := Nat.succ.inj hlen.symm
        obtain rfl := List.length_eq_zero_iff.mp hzero
        exact ⟨pre, post, hlps, hpoint⟩
      · have hlen := congrArg List.length hops
        rw [List.length_append] at hlen
        cases hlen

/-- A request in time by one LP leaves the event of the other one as it is. -/
theorem init_signature_same_in_time :
    ∃ s t s' t', InitRun (initModel 5 [0, 1]) 0 s ∧ InitRun (initModel 5 [1]) 0 s' ∧
      s.step (initModel 5 [0, 1]) (.tau false) = .ok t ∧
      s'.step (initModel 5 [1]) (.tau false) = .ok t' ∧ t.newestSig = t'.newestSig := by
  obtain ⟨s, t, hs, hnet, hphase, ht, -⟩ := initModel_run 5 [0, 1] 4 ⟨0, 1, [0]⟩
    (by decide +kernel)
  obtain ⟨s', t', hs', hnet', hphase', ht', -⟩ := initModel_run 5 [1] 1 ⟨0, 1, [0]⟩
    (by decide +kernel)
  obtain ⟨pre, post, hlps, hpoint⟩ := initModel_point (by decide) hs hphase
  obtain ⟨pre', post', hlps', hpoint'⟩ := initModel_point (by decide) hs' hphase'
  have hpre : pre = [0] := by
    match pre, hlps with
    | [_], rfl => rfl
    | _ :: _ :: pre, hlps =>
        have hlen := congrArg List.length hlps
        simp at hlen
  have hpre' : pre' = [] := by
    match pre', hlps' with
    | [], _ => rfl
    | _ :: pre', hlps' =>
        have hlen := congrArg List.length hlps'
        simp at hlen
  subst hpre hpre'
  refine ⟨s, t, s', t', hs, hs', ht, ht', ?_⟩
  have hsame : SameModel (initModel 5 [0, 1]) (initModel 5 [1]) := ⟨rfl, rfl, rfl, rfl, rfl, rfl⟩
  have hnodup : ((initModel 5 [0, 1]).lps 0).Nodup := by decide
  have halone : (initModel 5 [1]).lps 0 = [1] := rfl
  refine ((init_signature_same_iff hsame hnodup halone).2 _ _ _ _ [] 1 0 1 0
    s t s' t' _ _ rfl hs hpoint hnet ht hs' hpoint' hnet' ht').mpr fun _ => ?_
  decide +kernel

/-- A request past the end of time by one LP shows in the lineage of the event of
another one. -/
theorem init_signature_of_other :
    ∃ s t s' t', InitRun (initModel 100 [0, 1]) 0 s ∧ InitRun (initModel 100 [1]) 0 s' ∧
      s.net = .off ∧ s'.net = .off ∧ s.phase = .lpInit 1 [.eventNew 1 0 1 0] ∧
      s'.phase = .lpInit 1 [.eventNew 1 0 1 0] ∧
      s.step (initModel 100 [0, 1]) (.tau false) = .ok t ∧
      s'.step (initModel 100 [1]) (.tau false) = .ok t' ∧ t.newestSig ≠ t'.newestSig := by
  obtain ⟨s, t, hs, hnet, hphase, ht, hsig⟩ := initModel_run 100 [0, 1] 4 ⟨0, 1, [0, 0]⟩
    (by decide +kernel)
  obtain ⟨s', t', hs', hnet', hphase', ht', hsig'⟩ := initModel_run 100 [1] 1 ⟨0, 1, [0]⟩
    (by decide +kernel)
  refine ⟨s, t, s', t', hs, hs', hnet, hnet', hphase, hphase', ht, ht', ?_⟩
  rw [hsig, hsig']
  decide

end Pe

end Ross

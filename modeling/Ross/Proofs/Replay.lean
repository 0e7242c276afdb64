import Ross.Lib.UndoLog
import Ross.Proofs.Executed
import Ross.Proofs.Undo

/-!
# Replaying the executions of an LP

The state of an LP is the one that its handler leads to from the state after the `init` and
`pre_run` handlers, over the events that have been executed and not undone, in the order of their
signatures and with the messages that they were sent with.
-/

namespace Ross

open Transition

variable {T S M R : Type} [TwStime T]

/-- The reverse handler brings back the state and the message that the handler started with. -/
def SimModel.Restores (m : SimModel T S M R) : Prop :=
  ∀ lp now st msg, let h := m.event lp now st 0 msg
    let r := m.revent lp now h.state h.cv h.msg
    r.state = st ∧ r.msg = msg

/-- The handler of the LP `lp` on the event `e` with the message that `letter` says. -/
def SimModel.handle (m : SimModel T S M R) (letter : TwEvent T → M) (lp : Nat) (st : S)
    (e : TwEvent T) : S × BitVec 32 × M :=
  let h := m.event lp e.sig.recvTs st 0 (letter e)
  (h.state, h.cv, h.msg)

/-- What is noted of a run at a PE: the states of its LPs when the last `init` or `pre_run` handler
was called, and the messages with which its events were sent or received. -/
structure Journal (T S M : Type) where
  base : Nat → S
  letter : TwEvent T → M

def Journal.start (m : SimModel T S M R) : Journal T S M := ⟨m.lpState0, fun _ => m.zeroMsg⟩

namespace Pe

/-- The executions of the LP `l`. -/
def lpExecuted (m : SimModel T S M R) (s : Pe T S M R) (l : Nat) : List (TwEvent T) :=
  (s.executed m (m.kpOf l)).filter fun e => e.destLp = l

instance (s : Pe T S M R) (e : TwEvent T) : Decidable (s.Known e) :=
  inferInstanceAs (Decidable (_ ∧ _))

/-- What a step adds to the journal. -/
def note (s s' : Pe T S M R) (j : Journal T S M) : Journal T S M where
  base := if s.todo.any Call.runsInit then fun l => (s'.lp l).curState else j.base
  letter e := if s.Known e then j.letter e else (s'.ev e).msg

/-- The mark that the handler left on an event. -/
def mark (s : Pe T S M R) (e : TwEvent T) : BitVec 32 × M := ((s.ev e).cv, (s.ev e).msg)

/-- The LPs are where their executions lead to, and an event that is not executed has the message
that it was sent with. -/
structure Replayed (m : SimModel T S M R) (j : Journal T S M) (s : Pe T S M R) : Prop where
  awake : s.Awake
  fresh : s.todo.any Call.runsInit = true → ∀ l, s.lpExecuted m l = []
  log : ∀ l, UndoLog (m.handle j.letter l) s.mark (j.base l) (s.lpExecuted m l) (s.lp l).curState
  unread : ∀ e, s.Known e → e ∉ s.lpExecuted m e.destLp → (s.ev e).msg = j.letter e

section Records

variable {m : SimModel T S M R} {s s' : Pe T S M R}

/-- An update of the record of an event that leaves its mark. -/
theorem mark_update {f : TwEvent T → EventState T M} {e x : TwEvent T} {st v : EventState T M}
    (hf : (f x).cv = v.cv ∧ (f x).msg = v.msg) (hcv : st.cv = (f e).cv)
    (hmsg : st.msg = (f e).msg) :
    (Function.update f e st x).cv = v.cv ∧ (Function.update f e st x).msg = v.msg := by
  by_cases hx : x = e
  · subst hx
    rw [Function.update_self, hcv, hmsg]
    exact hf
  · rw [Function.update_of_ne hx]
    exact hf

/-- Only a handler of the model leaves a mark. -/
theorem Deed.mark (hp : Placed m s) {i : Input T M} (hd : Deed m s s' i)
    (hundo : s.rollback = Option.none → s'.rollback = Option.none)
    (hstart : ∀ kind left, s.At (.batch kind left) → s'.queue = s.queue) {x : TwEvent T}
    (hx : s.Known x) : s'.mark x = s.mark x := by
  have into : ∀ {t : Stock T M}, s'.stock = t →
      (t.ev x).cv = (s.ev x).cv ∧ (t.ev x).msg = (s.ev x).msg → s'.mark x = s.mark x := by
    rintro _ rfl ⟨hcv, hmsg⟩
    exact Prod.ext hcv hmsg
  have one : ∀ {t : Stock T M} {e : TwEvent T} {st : EventState T M}, s'.stock = t →
      t.ev = Function.update s.ev e st → st.cv = (s.ev e).cv → st.msg = (s.ev e).msg →
      s'.mark x = s.mark x := by
    intro t e st hst hev hcv hmsg
    exact into hst (hev ▸ mark_update ⟨rfl, rfl⟩ hcv hmsg)
  cases hd with
  | none hst | store _ _ hst | raise _ _ hst | create _ _ hst | createAbort hst
  | loadEvents _ _ hst | loadCancel _ _ hst | cut _ _ hst | init _ hst =>
      exact into hst ⟨rfl, rfl⟩
  | cancelProcessed _ _ _ _ hst => exact into hst ⟨rfl, rfl⟩
  | recvCancel _ _ _ hst =>
      exact into hst (mark_update (mark_update ⟨rfl, rfl⟩ rfl rfl) rfl rfl)
  | @recvEvent _ w _ _ _ _ _ _ hst =>
      have hne : x ≠ s.received w := by
        rintro rfl
        exact Placed.received_new s w hx
      refine into hst ?_
      dsimp only
      rw [Function.update_of_ne hne]
      exact ⟨rfl, rfl⟩
  | recalled _ _ _ hst | keep _ _ _ _ hst | sendFree _ _ hst | isend _ hst | dropOutq _ _ _ hst
  | markAsend _ _ _ hst | antiMessage _ _ _ hst | dropPq _ _ _ _ hst | cancelLocal _ _ _ _ hst
  | requeue _ _ _ hst | undoneFree _ _ _ hst | dropAnti _ _ _ hst | enqueue _ _ hst
  | cancelFree _ _ _ _ hst | release _ _ hst | process _ _ _ _ hst | freeChild _ _ hst =>
      exact one hst rfl rfl rfl
  | commit _ _ _ hst _ => exact one hst rfl rfl rfl
  | sendAbort _ hst =>
      refine into hst ?_
      show (s.increaseAbortedCount.ev x).cv = _ ∧ (s.increaseAbortedCount.ev x).msg = _
      unfold increaseAbortedCount
      cases s.curEvent with
      | none => exact ⟨rfl, rfl⟩
      | some cev => exact mark_update ⟨rfl, rfl⟩ rfl rfl
  | @send j lp e msg _ _ _ _ _ hh _ hst =>
      have hne : x ≠ s.stamp e := by
        rintro rfl
        exact hx.2 e (mem_unsent.mpr ⟨_, List.mem_of_getElem? hh, rfl⟩) rfl
      obtain ⟨st, ⟨hxe, -⟩ | ⟨-, rfl⟩, hrec⟩ := prepare_record s j e msg x
      · exact absurd hxe hne
      · refine into hst ?_
        dsimp only
        rw [Function.update_of_ne hne, hrec]
        exact ⟨rfl, rfl⟩
  | undo _ hu hst =>
      have hr : s'.rollback = _ := congrArg Stock.rollback hst
      rw [hundo hu.outside.1] at hr
      cases hr
  | abort hat _ _ hst =>
      have hr : s'.rollback = _ := congrArg Stock.rollback hst
      rw [hundo hat.2.1] at hr
      cases hr
  | @start kind left cev _ _ _ hat hc hst =>
      have hmem := (pqLeast_some hc).1
      have hpq : s'.queue .pq = (s.queue .pq).erase cev :=
        congrFun ((congrArg Stock.queue hst).trans rfl) .pq
      rw [hstart _ _ hat] at hpq
      exact absurd (hpq ▸ hmem) (hp.located.nodup rfl).not_mem_erase

end Records

/-! ## Moves -/

/-- What a step does to the LPs and to their executions. -/
inductive Moves (m : SimModel T S M R) (s s' : Pe T S M R) : Prop
  /-- No handler of the model starts. -/
  | rest : Quiet s s' → (∀ k, s'.executed m k = s.executed m k) →
      (∀ x, s.Known x → s'.mark x = s.mark x) → Moves m s s'
  /-- An `init` or a `pre_run` handler. -/
  | init {c : Call T} {lp : Nat} {f : Nat → S → S × List (HandlerOp T M)} {rest : List (Call T)} :
      s.todo = c :: rest → (c = .initLp lp ∧ f = m.init ∨ c = .preRunLp lp ∧ f = m.preRun) →
      s' = ({ s with todo := rest } : Pe T S M R).callInit lp f →
      (∀ k, s'.executed m k = s.executed m k) → Moves m s s'
  /-- The event handler of the least event. -/
  | start {kind : BatchKind} {left : Nat} {cev : TwEvent T} :
      s.At (.batch kind left) → pqLeast (s.queue .pq) = some cev →
      s' = (s.dequeued m cev).runEvent m kind (left - 1) cev →
      (∀ k, s'.executed m k = s.executed m k ++ kpEvents m k [cev]) → Moves m s s'
  /-- The reverse handler of the last execution of a KP. -/
  | undo {t : Pe T S M R} {e : TwEvent T} {after : RollbackAfter} :
      s' = t.twEventRollback m e after → t.lp = s.lp → t.ev = s.ev → t.todo = s.todo →
      t.opsLeft = s.opsLeft → (∀ k, s.executed m k = s'.executed m k ++ kpEvents m k [e]) →
      Moves m s s'

section Moves

variable {m : SimModel T S M R} {s s' : Pe T S M R}

section

omit [TwStime T]

theorem lpExecuted_congr (h : ∀ k, s'.executed m k = s.executed m k) (l : Nat) :
    s'.lpExecuted m l = s.lpExecuted m l := by
  unfold lpExecuted
  rw [h]

/-- One execution more of the KP of `e` is one more of its LP. -/
theorem lpExecuted_snoc {e : TwEvent T}
    (h : ∀ k, s'.executed m k = s.executed m k ++ kpEvents m k [e]) (l : Nat) :
    s'.lpExecuted m l = s.lpExecuted m l ++ if e.destLp = l then [e] else [] := by
  have hlast : ((kpEvents m (m.kpOf l) [e]).filter fun x => x.destLp = l) =
      if e.destLp = l then [e] else [] := by
    by_cases hl : e.destLp = l
    · rw [if_pos hl, kpEvents_self (congrArg m.kpOf hl)]
      simp [hl]
    · rw [if_neg hl]
      refine List.filter_eq_nil_iff.mpr fun x hx => ?_
      rw [List.mem_singleton.mp (mem_kpEvents.mp hx).1]
      simp [hl]
  unfold lpExecuted
  rw [h, List.filter_append, hlast]

theorem mem_lpExecuted_snoc {e : TwEvent T}
    (h : ∀ k, s'.executed m k = s.executed m k ++ kpEvents m k [e]) {x : TwEvent T} :
    x ∈ s'.lpExecuted m x.destLp ↔ x ∈ s.lpExecuted m x.destLp ∨ x = e := by
  rw [lpExecuted_snoc h, List.mem_append]
  refine or_congr_right ?_
  split
  next => exact List.mem_singleton
  next hne =>
    refine ⟨fun hx => absurd hx List.not_mem_nil, ?_⟩
    rintro rfl
    exact absurd rfl hne

end

end Moves

/-! ## Steps -/

section Steps

variable {m : SimModel T S M R} {s s' : Pe T S M R} {j : Journal T S M}

section

omit [TwStime T]

theorem note_letter {x : TwEvent T} (h : s.Known x) : (s.note s' j).letter x = j.letter x :=
  if_pos h

theorem note_base (h : s.todo.any Call.runsInit = false) : (s.note s' j).base = j.base := by
  unfold note
  rw [h]
  rfl

theorem note_base_init (h : s.todo.any Call.runsInit = true) :
    (s.note s' j).base = fun l => (s'.lp l).curState := by
  unfold note
  rw [h]
  rfl

/-- A step that executes nothing and undoes nothing. -/
theorem Replayed.rest (h : Replayed m j s) (hspent : Spent m s) (hp : Placed m s)
    (hq : Quiet s s') (hk : ∀ k, s'.executed m k = s.executed m k)
    (hmark : ∀ x, s.Known x → s'.mark x = s.mark x) : Replayed m (s.note s' j) s' := by
  have hex := lpExecuted_congr hk
  have hany : s'.todo.any Call.runsInit = true → s.todo.any Call.runsInit = true := by
    intro ht
    obtain ⟨c, hc, hi⟩ := List.any_eq_true.mp ht
    exact List.any_eq_true.mpr ⟨c, hq.todo c hc hi, hi⟩
  refine ⟨hq.awake h.awake, fun ht l => (hex l).trans (h.fresh (hany ht) l), fun l => ?_,
    fun x hx hout => ?_⟩
  · rw [hex]
    by_cases hinit : s.todo.any Call.runsInit = true
    · rw [h.fresh hinit, note_base_init hinit]
      exact .nil
    · rw [note_base (Bool.eq_false_iff.mpr hinit), hq.states]
      have hknown : ∀ e ∈ s.lpExecuted m l, s.Known e := fun e he =>
        (hspent.of_executed hp (List.mem_filter.mp he).1).1
      refine (h.log l).congr (fun e he st => ?_) fun e he => hmark e (hknown e he)
      unfold SimModel.handle
      rw [note_letter (hknown e he)]
  · rw [hex] at hout
    by_cases hold : s.Known x
    · have hm : (s'.ev x).msg = (s.ev x).msg := congrArg Prod.snd (hmark x hold)
      rw [note_letter hold, hm]
      exact h.unread x hold hout
    · exact (if_neg hold).symm

/-- An `init` or a `pre_run` handler is called while nothing has been executed. -/
theorem Replayed.initCall (h : Replayed m j s) (hm : m.NeverSuspends) {c : Call T} {lp : Nat}
    {f : Nat → S → S × List (HandlerOp T M)} {rest : List (Call T)} (ht : s.todo = c :: rest)
    (hf : c = .initLp lp ∧ f = m.init ∨ c = .preRunLp lp ∧ f = m.preRun)
    (hs : s' = ({ s with todo := rest } : Pe T S M R).callInit lp f)
    (hk : ∀ k, s'.executed m k = s.executed m k) : Replayed m (s.note s' j) s' := by
  have hinit : s.todo.any Call.runsInit = true := by
    rw [ht, List.any_cons]
    rcases hf with ⟨rfl, -⟩ | ⟨rfl, -⟩
    · rfl
    · rfl
  have hnil : ∀ l, s'.lpExecuted m l = [] := fun l =>
    (lpExecuted_congr hk l).trans (h.fresh hinit l)
  have hops : ∀ st, ∀ op ∈ (f lp st).2, isAwake op := by
    rcases hf with ⟨-, rfl⟩ | ⟨-, rfl⟩
    · exact hm.init lp
    · exact hm.preRun lp
  refine ⟨⟨fun l => ?_, ?_⟩, fun _ => hnil, fun l => ?_, fun x hx _ => ?_⟩
  · rw [hs]
    exact (TwLp.update_field (·.suspendFlag) s.lp lp (by rfl) l).trans (h.awake.lp l)
  · rw [hs]
    exact hops _
  · rw [hnil, note_base_init hinit]
    exact .nil
  · have hmsg : (s'.ev x).msg = (s.ev x).msg := by
      rw [hs]
      rfl
    by_cases hold : s.Known x
    · rw [note_letter hold, hmsg]
      exact h.unread x hold (by simp [h.fresh hinit])
    · exact (if_neg hold).symm

end

/-- The handler of the event dequeued, on an LP that is not suspended. -/
theorem runEvent_dequeued (s : Pe T S M R) {cev : TwEvent T}
    (h : (s.lp cev.destLp).suspendFlag = false) (kind : BatchKind) (left : Nat) :
    let hd := m.event cev.destLp cev.sig.recvTs (s.lp cev.destLp).curState 0 (s.ev cev).msg
    let s' := (s.dequeued m cev).runEvent m kind left cev
    s'.lp = Function.update s.lp cev.destLp { s.lp cev.destLp with curState := hd.state } ∧
      s'.ev = Function.update s.ev cev
        { s.ev cev with owner := .unowned, cv := hd.cv, msg := hd.msg } ∧
      s'.opsLeft = hd.ops ∧ s'.todo = s.todo := by
  have hnow : (s.dequeued m cev).twNow m cev.destLp = cev.sig.recvTs := by
    show (Function.update s.lastSig (m.kpOf cev.destLp) cev.sig (m.kpOf cev.destLp)).recvTs = _
    rw [Function.update_self]
  have hev : (s.dequeued m cev).ev cev = { s.ev cev with owner := .unowned } :=
    Function.update_self ..
  have hrun : ¬ (((s.dequeued m cev).lp cev.destLp).suspendFlag = true ∧ kind ≠ .conservative) :=
    fun hc => Bool.false_ne_true (h.symm.trans hc.1)
  dsimp only
  unfold runEvent
  dsimp only
  rw [if_neg hrun, hnow, hev]
  refine ⟨rfl, ?_, rfl, rfl⟩
  show Function.update (Function.update s.ev cev _) cev _ = _
  rw [Function.update_idem]
  rfl

/-- The handler of the least event. -/
theorem Replayed.start (h : Replayed m j s) (hm : m.NeverSuspends) (hspent : Spent m s)
    (hp : Placed m s) {kind : BatchKind} {left : Nat} {cev : TwEvent T}
    (htodo : s.todo.any Call.runsInit = false) (hc : pqLeast (s.queue .pq) = some cev)
    (hs : s' = (s.dequeued m cev).runEvent m kind left cev)
    (hk : ∀ k, s'.executed m k = s.executed m k ++ kpEvents m k [cev]) :
    Replayed m (s.note s' j) s' := by
  have hmem := (pqLeast_some hc).1
  have hknown : s.Known cev := hp.located.known_of_mem (by simp) hmem
  have hold : ∀ l, ∀ e ∈ s.lpExecuted m l, s.Known e ∧ e ≠ cev := by
    intro l e he
    obtain ⟨hk, -, hpq⟩ := hspent.of_executed hp (List.mem_filter.mp he).1
    refine ⟨hk, ?_⟩
    rintro rfl
    exact hpq hmem
  have hmsg : (s.ev cev).msg = j.letter cev :=
    h.unread cev hknown fun he => (hold _ cev he).2 rfl
  obtain ⟨hlp, hev, hops, ht⟩ := runEvent_dequeued (m := m) s (h.awake.lp cev.destLp) kind left
  rw [← hs] at hlp hev hops ht
  have hex := lpExecuted_snoc hk
  have hmark : ∀ x, x ≠ cev → s'.mark x = s.mark x := by
    intro x hx
    unfold mark
    rw [hev, Function.update_of_ne hx]
  have hlog : ∀ l, UndoLog (m.handle (s.note s' j).letter l) s'.mark (j.base l)
      (s.lpExecuted m l) (s.lp l).curState := by
    refine fun l => (h.log l).congr (fun e he st => ?_) fun e he => hmark e (hold l e he).2
    unfold SimModel.handle
    rw [note_letter (hold l e he).1]
  refine ⟨⟨fun l => ?_, ?_⟩, fun hany => ?_, fun l => ?_, fun x hx hout => ?_⟩
  · rw [hlp]
    exact (TwLp.update_field (·.suspendFlag) s.lp cev.destLp (by rfl) l).trans (h.awake.lp l)
  · rw [hops]
    exact hm.event _ _ _ _ _
  · rw [ht, htodo] at hany
    cases hany
  · rw [hex, note_base htodo, hlp]
    by_cases hl : cev.destLp = l
    · subst hl
      have hhandle : m.handle (s.note s' j).letter cev.destLp (s.lp cev.destLp).curState cev =
          (((s'.lp cev.destLp).curState, s'.mark cev)) := by
        unfold SimModel.handle mark
        rw [note_letter hknown, ← hmsg, hlp, hev, Function.update_self, Function.update_self]
      rw [if_pos rfl, ← hlp]
      have hsnoc := (hlog cev.destLp).snoc (congrArg Prod.snd hhandle).symm
      rwa [hhandle] at hsnoc
    · rw [if_neg hl, List.append_nil, Function.update_of_ne (Ne.symm hl)]
      exact hlog l
  · obtain ⟨hout, hne⟩ := not_or.mp (mt (mem_lpExecuted_snoc hk).mpr hout)
    by_cases hx' : s.Known x
    · have hm' : (s'.ev x).msg = (s.ev x).msg := congrArg Prod.snd (hmark x hne)
      rw [note_letter hx', hm']
      exact h.unread x hx' hout
    · exact (if_neg hx').symm

/-- The reverse handler of the last execution. -/
theorem Replayed.undo (h : Replayed m j s) (hrev : m.Restores) (hspent : Spent m s)
    (hp : Placed m s) {t : Pe T S M R} {e : TwEvent T} {after : RollbackAfter}
    (hs : s' = t.twEventRollback m e after) (hlp : t.lp = s.lp) (hev : t.ev = s.ev)
    (htodo : t.todo = s.todo) (hops : t.opsLeft = s.opsLeft)
    (hk : ∀ k, s.executed m k = s'.executed m k ++ kpEvents m k [e]) :
    Replayed m (s.note s' j) s' := by
  have hex := lpExecuted_snoc hk
  have hlast := hex e.destLp
  rw [if_pos rfl] at hlast
  have hknown : ∀ l, ∀ x ∈ s.lpExecuted m l, s.Known x := fun l x hx =>
    (hspent.of_executed hp (List.mem_filter.mp hx).1).1
  have hself : s.Known e := hknown e.destLp e (by simp [hlast])
  have hnodup : (s.lpExecuted m e.destLp).Nodup := (hspent.nodup_executed hp _).filter _
  have hgone : e ∉ s'.lpExecuted m e.destLp := by
    rw [hlast] at hnodup
    exact fun he => (List.nodup_append'.mp hnodup).2.2 he (List.mem_singleton_self e)
  have hinit : s.todo.any Call.runsInit = false := by
    by_contra hany
    have hnil := h.fresh (Bool.not_eq_false _ ▸ hany) e.destLp
    rw [hlast] at hnil
    simp at hnil
  -- The log of the LP loses its last entry, and the reverse handler goes back over it.
  have hlog := h.log e.destLp
  rw [hlast] at hlog
  obtain ⟨st, hlog, hstate, hmark⟩ := hlog.last
  obtain ⟨hback, hletter⟩ := hrev e.destLp e.sig.recvTs st (j.letter e)
  have hcv : (s.ev e).cv = _ := congrArg Prod.fst hmark
  have hmsg : (s.ev e).msg = _ := congrArg Prod.snd hmark
  have hreversed : t.reversed m e = m.revent e.destLp e.sig.recvTs
      (m.event e.destLp e.sig.recvTs st 0 (j.letter e)).state
      (m.event e.destLp e.sig.recvTs st 0 (j.letter e)).cv
      (m.event e.destLp e.sig.recvTs st 0 (j.letter e)).msg := by
    unfold reversed
    rw [hlp, hev, hstate, hcv, hmsg]
    rfl
  have hawake : (t.lp e.destLp).suspendFlag = false := by
    rw [hlp]
    exact h.awake.lp _
  have heq := twEventRollback_eq (m := m) hawake after
  rw [← hs, hreversed, hback, hletter, hlp, hev] at heq
  obtain ⟨count, hlp'⟩ : ∃ c, s'.lp = Function.update s.lp e.destLp { s.lp e.destLp with
      curState := st, triggeredGvtHook := c } := ⟨_, by rw [heq]⟩
  have hevSelf : (s'.ev e).msg = j.letter e := by
    rw [heq]
    dsimp only
    rw [Function.update_self]
  have hevOther : ∀ x, x ≠ e → s'.mark x = s.mark x := by
    intro x hx
    unfold mark
    rw [heq]
    dsimp only
    rw [Function.update_of_ne hx]
  have hkeeps : ∀ l st, UndoLog (m.handle j.letter l) s.mark (j.base l) (s'.lpExecuted m l) st →
      UndoLog (m.handle (s.note s' j).letter l) s'.mark (j.base l) (s'.lpExecuted m l) st := by
    intro l st hlog
    have hmem : ∀ x ∈ s'.lpExecuted m l, s.Known x ∧ x ≠ e := by
      intro x hx
      have hxl : x.destLp = l := of_decide_eq_true (List.mem_filter.mp hx).2
      refine ⟨hknown l x (hex l ▸ List.mem_append_left _ hx), ?_⟩
      rintro rfl
      exact hgone (hxl ▸ hx)
    refine hlog.congr (fun x hx st => ?_) fun x hx => hevOther x (hmem x hx).2
    unfold SimModel.handle
    rw [note_letter (hmem x hx).1]
  have ht : s'.todo = s.todo := by
    rw [heq]
    exact htodo
  have hops' : s'.opsLeft = s.opsLeft := by
    rw [heq]
    exact hops
  refine ⟨⟨fun l => ?_, ?_⟩, fun hany => ?_, fun l => ?_, fun x hx hout => ?_⟩
  · rw [hlp']
    exact (TwLp.update_field (·.suspendFlag) s.lp e.destLp (by rfl) l).trans (h.awake.lp l)
  · rw [hops']
    exact h.awake.ops
  · rw [ht, hinit] at hany
    cases hany
  · rw [note_base hinit, hlp']
    by_cases hl : e.destLp = l
    · subst hl
      rw [Function.update_self]
      exact hkeeps _ _ hlog
    · have hlog := h.log l
      rw [hex, if_neg hl, List.append_nil] at hlog
      rw [Function.update_of_ne (Ne.symm hl)]
      exact hkeeps _ _ hlog
  · by_cases hx' : s.Known x
    · rw [note_letter hx']
      by_cases hxe : x = e
      · rw [hxe]
        exact hevSelf
      · have hm' : (s'.ev x).msg = (s.ev x).msg := congrArg Prod.snd (hevOther x hxe)
        rw [hm']
        exact h.unread x hx' fun hin => (mem_lpExecuted_snoc hk).mp hin |>.elim hout hxe
    · exact (if_neg hx').symm

end Steps

/-- A step that moves an LP keeps it where its executions lead to. -/
theorem Replayed.step {m : SimModel T S M R} {s s' : Pe T S M R} {j : Journal T S M}
    (h : Replayed m j s) (hm : m.NeverSuspends) (hrev : m.Restores) (hspent : Spent m s)
    (hp : Placed m s)
    (hbatch : ∀ kind left, s.At (.batch kind left) → s.todo.any Call.runsInit = false)
    (hmoves : Moves m s s') : Replayed m (s.note s' j) s' := by
  cases hmoves with
  | rest hq hk hmark => exact h.rest hspent hp hq hk hmark
  | init ht hf hs hk => exact h.initCall hm ht hf hs hk
  | start hat hc hs hk => exact h.start hm hspent hp (hbatch _ _ hat) hc hs hk
  | undo hs hlp hev htodo hops hk => exact h.undo hrev hspent hp hs hlp hev htodo hops hk

end Pe

namespace System

variable {m : SimModel T S M R} {s s' : System T S M R}

end System

end Ross

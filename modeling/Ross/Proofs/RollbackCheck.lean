import Ross.Proofs.CheckRevent
import Ross.Proofs.Follow

/-!
# The rollback check

`tw_scheduler_sequential_rollback_check` runs every handler, takes it back and
runs it again.  Its state follows that of `tw_scheduler_sequential` with other
names and numbers for the events.
-/

namespace Ross

open Transition

variable {T S M R : Type} [TwStime T]

namespace Pe

/-! ## The least event of the queue -/

/-- Events of one signature stand in the order of their `event_id`, the latest
first. -/
def AgeOrdered (l : List (TwEvent T)) : Prop :=
  l.Pairwise fun a b => a.sig = b.sig → b.eventId < a.eventId

theorem compare_ageOrdered {e l : TwEvent T} (h : e.sig = l.sig → l.eventId < e.eventId) :
    twPqCompareLessThanRand e l = decide (e.sig < l.sig) := by
  unfold twPqCompareLessThanRand
  simp only [twEventSigComparePtr_neg, twEventSigComparePtr_pos]
  rcases lt_trichotomy e.sig l.sig with hs | hs | hs
  · rw [if_pos hs, decide_eq_true hs]
  · have hid := h hs
    rw [if_neg hs.not_lt, if_neg hs.symm.not_lt, if_neg hid.not_gt, if_pos hid,
      decide_eq_false hs.not_lt]
  · rw [if_neg hs.not_gt, if_pos hs, decide_eq_false hs.not_gt]

/-- Two queues of the same events have their least event at the same place. -/
theorem pqLeast_alike {rel : TwEvent T → TwEvent T → Prop} (hrel : ∀ x y, rel x y → x.Alike y)
    {l l' : List (TwEvent T)} (h : List.Forall₂ rel l l') (hl : AgeOrdered l)
    (hl' : AgeOrdered l') :
    l = [] ∧ l' = [] ∨ ∃ x y l₁ l₂ l₁' l₂', pqLeast l = some x ∧ pqLeast l' = some y ∧
      l = l₁ ++ x :: l₂ ∧ l' = l₁' ++ y :: l₂' ∧ rel x y ∧ List.Forall₂ rel l₁ l₁' ∧
      List.Forall₂ rel l₂ l₂' := by
  induction h with
  | nil => exact .inl ⟨rfl, rfl⟩
  | @cons a b l l' hab hrest ih =>
      right
      obtain ⟨ha, hl⟩ := List.pairwise_cons.mp hl
      obtain ⟨hb, hl'⟩ := List.pairwise_cons.mp hl'
      rcases ih hl hl' with ⟨rfl, rfl⟩ | ⟨x, y, l₁, l₂, l₁', l₂', hx, hy, rfl, rfl, hxy, h₁, h₂⟩
      · exact ⟨a, b, [], [], [], [], rfl, rfl, rfl, rfl, hab, .nil, .nil⟩
      · have hxm : x ∈ l₁ ++ x :: l₂ := List.mem_append_right _ List.mem_cons_self
        have hym : y ∈ l₁' ++ y :: l₂' := List.mem_append_right _ List.mem_cons_self
        have hca := compare_ageOrdered (ha x hxm)
        have hcb := compare_ageOrdered (hb y hym)
        rw [(hrel _ _ hab).sig, (hrel _ _ hxy).sig] at hcb
        by_cases hlt : a.sig < x.sig
        · refine ⟨a, b, [], _, [], _, ?_, ?_, rfl, rfl, hab, .nil, hrest⟩
          · unfold pqLeast
            rw [hx]
            dsimp only
            rw [hca, decide_eq_true hlt]
            rfl
          · unfold pqLeast
            rw [hy]
            dsimp only
            rw [hcb, decide_eq_true hlt]
            rfl
        · refine ⟨x, y, a :: l₁, l₂, b :: l₁', l₂', ?_, ?_, rfl, rfl, hxy, .cons hab h₁, h₂⟩
          · unfold pqLeast
            rw [hx]
            dsimp only
            rw [hca, decide_eq_false hlt]
            rfl
          · unfold pqLeast
            rw [hy]
            dsimp only
            rw [hcb, decide_eq_false hlt]
            rfl

section

omit [TwStime T]

theorem AgeOrdered.notMem {l₁ l₂ : List (TwEvent T)} {x : TwEvent T}
    (h : AgeOrdered (l₁ ++ x :: l₂)) : x ∉ l₁ := fun hx =>
  ((List.pairwise_append.mp h).2.2 x hx x List.mem_cons_self rfl).false

theorem alike_sigs {rel : TwEvent T → TwEvent T → Prop} (hrel : ∀ x y, rel x y → x.Alike y)
    {l l' : List (TwEvent T)} (h : List.Forall₂ rel l l') : l'.map (·.sig) = l.map (·.sig) := by
  induction h with
  | nil => rfl
  | cons hab _ ih => rw [List.map_cons, List.map_cons, ih, (hrel _ _ hab).sig]

theorem Tidy.ageOrdered {s : Pe T S M R} {l : List (TwEvent T)} (h : Tidy l s)
    (hlen : s.sent.length < 2 ^ 32) : AgeOrdered (s.queue .pq) := by
  refine List.Pairwise.imp ?_ (h.ids hlen).2.2
  exact fun hid _ => hid

end

/-! ## Between two turns -/

/-- After a turn of both loops. -/
structure Beside (s t : Pe T S M R) : Prop where
  follows : ∃ k n, Follows k n s t ∧ k ≤ (s.queue .eventQ).length ∧ n ≤ s.sent.length
  tidy : ∃ l, Tidy l s
  tidy' : ∃ l, Tidy l t
  trigger : t.trigger = s.trigger
  commits : List.Forall₂ TwEvent.Alike s.commits t.commits
  awake : ∀ i, (s.lp i).suspendFlag = false
  cevAbort : s.cevAbort = false
  id : s.id = 0

/-- The events of one signature that wait in the queue are there in the order of
their `event_id`: there are no two of them, or `seq_num` did not wrap around. -/
def TiesInOrder (s : Pe T S M R) : Prop :=
  (s.queue .pq).Pairwise (fun a b => a.sig ≠ b.sig) ∨ 2 * s.sent.length < 2 ^ 32

section Turn

variable {m m' : SimModel T S M R} {s s' t : Pe T S M R} {k n : Nat}

/-- Both queues have their least event at the same place. -/
theorem Beside.least (h : Beside s t) (hties : TiesInOrder s) :
    s.queue .pq = [] ∧ t.queue .pq = [] ∨ ∃ x y l₁ l₂ l₁' l₂',
      pqLeast (s.queue .pq) = some x ∧ pqLeast (t.queue .pq) = some y ∧
      s.queue .pq = l₁ ++ x :: l₂ ∧ t.queue .pq = l₁' ++ y :: l₂' ∧ x ∉ l₁ ∧ y ∉ l₁' ∧
      (x.Alike y ∧ (t.ev y).msg = (s.ev x).msg) ∧
      List.Forall₂ (fun x y => x.Alike y ∧ (t.ev y).msg = (s.ev x).msg) l₁ l₁' ∧
      List.Forall₂ (fun x y => x.Alike y ∧ (t.ev y).msg = (s.ev x).msg) l₂ l₂' := by
  obtain ⟨k, n, hf, -, hn⟩ := h.follows
  obtain ⟨l, hl⟩ := h.tidy
  obtain ⟨l', hl'⟩ := h.tidy'
  have hage : AgeOrdered (s.queue .pq) ∧ AgeOrdered (t.queue .pq) := by
    rcases hties with hd | hlen
    · have hsigs := alike_sigs (fun _ _ h => h.1) hf.pq
      have hd' : (t.queue .pq).Pairwise fun a b => a.sig ≠ b.sig := by
        rw [← List.pairwise_map (f := TwEvent.sig), hsigs]
        exact List.pairwise_map.mpr hd
      exact ⟨hd.imp fun hne he => absurd he hne, hd'.imp fun hne he => absurd he hne⟩
    · have hsent := hf.sent
      exact ⟨hl.ageOrdered (by omega), hl'.ageOrdered (by omega)⟩
  rcases pqLeast_alike (fun x y h => h.1) hf.pq hage.1 hage.2 with
    hnil | ⟨x, y, l₁, l₂, l₁', l₂', hx, hy, hs, ht, hxy, h₁, h₂⟩
  · exact .inl hnil
  · refine .inr ⟨x, y, l₁, l₂, l₁', l₂', hx, hy, hs, ht, ?_, ?_, hxy, h₁, h₂⟩
    · exact (hs ▸ hage.1).notMem
    · exact (ht ▸ hage.2).notMem

theorem Beside.minimum (h : Beside s t) (hties : TiesInOrder s) :
    t.twPqMinimumSig = s.twPqMinimumSig ∧ (t.queue .pq).isEmpty = (s.queue .pq).isEmpty := by
  unfold twPqMinimumSig
  rcases h.least hties with ⟨hs, ht⟩ | ⟨x, y, l₁, l₂, l₁', l₂', hx, hy, hs, ht, -, -, hxy, -⟩
  · rw [hs, ht]
    exact ⟨rfl, rfl⟩
  · rw [hx, hy]
    refine ⟨hxy.1.sig, ?_⟩
    rw [hs, ht]
    cases l₁ <;> cases l₁' <;> rfl

/-- The hook is called in both runs or in none. -/
theorem gvtHookStepSeq_beside (hm : m'.gvtHook = m.gvtHook) (h : Beside s t)
    (hties : TiesInOrder s) {arm : Option (GvtHookTrigger T)}
    (hs : s.gvtHookStepSeq m arm = .ok s') :
    ∃ tr g g', s' = { s with trigger := tr, gvtSig := g } ∧
      t.gvtHookStepSeq m' arm = .ok { t with trigger := tr, gvtSig := g' } := by
  obtain ⟨hmin, hempty⟩ := h.minimum hties
  have htrig : t.hookTriggeredSeq = s.hookTriggeredSeq := by
    unfold hookTriggeredSeq
    rw [h.trigger, hmin, hempty]
  have hfired : t.firedTrigger = s.firedTrigger := by
    unfold firedTrigger
    rw [h.trigger]
  unfold gvtHookStepSeq at hs ⊢
  rw [hm, htrig, hfired, h.trigger, hmin]
  split at hs
  next hc =>
    rw [if_pos hc]
    split at hs
    next hst =>
      cases hs
      rw [if_pos hst]
      exact ⟨_, s.gvtSig, t.gvtSig, rfl, rfl⟩
    next hst =>
      rw [if_neg hst]
      split at hs
      next htr =>
        cases hs
        rw [if_pos htr]
        exact ⟨s.trigger, s.gvtSig, t.gvtSig, rfl, by rw [← h.trigger]⟩
      next htr =>
        rw [if_neg htr]
        split at hs
        · cases hs
        next hle =>
          cases hs
          rw [if_neg hle]
          exact ⟨_, _, _, rfl, rfl⟩
  next hc =>
    cases hs
    rw [if_neg hc]
    exact ⟨s.trigger, s.gvtSig, t.gvtSig, rfl, by rw [← h.trigger]⟩

/-! ## The event in hand -/

/-- The two runs are about to call the handler of one event. -/
structure Ready (m : SimModel T S M R) (k n : Nat) (s t : Pe T S M R) (x y : TwEvent T) : Prop where
  alike : x.Alike y
  id : t.id = s.id
  lp : t.lp = s.lp
  lastSig : Function.update t.lastSig (m.kpOf x.destLp) x.sig =
    Function.update s.lastSig (m.kpOf x.destLp) x.sig
  abortName : t.abortEvent.uid = s.abortEvent.uid ∧ t.abortEvent.eventId = s.abortEvent.eventId
  cevAbort : t.cevAbort = s.cevAbort
  pq : List.Forall₂ (fun a b => a.Alike b ∧ (t.ev b).msg = (s.ev a).msg)
    (s.queue .pq) (t.queue .pq)
  notMem : x ∉ s.queue .pq ∧ y ∉ t.queue .pq
  trigger : t.trigger = s.trigger ∨ t.trigger = { s.trigger with sigAt := maxSig }
  free : t.freeQ + k = s.freeQ
  eventQ : (t.queue .eventQ).length = (s.queue .eventQ).length + k
  sent : t.sent.length = s.sent.length + n

theorem Ready.entered {x y : TwEvent T} (hm : m'.kpOf = m.kpOf) (h : Ready m k n s t x y)
    {a b : Handled T S M} (hst : b.state = a.state) :
    Follows k n (s.entered m x a) (t.entered m' y b) := by
  obtain ⟨hsig, hdest, -, -⟩ := h.alike
  have hlast : Function.update t.lastSig (m'.kpOf y.destLp) y.sig =
      Function.update s.lastSig (m.kpOf x.destLp) x.sig := by
    rw [hm, hsig, hdest]
    exact h.lastSig
  refine ⟨h.id, ?_, hlast, fun ha => ?_, h.abortName, congrArg some hsig, .nil, h.cevAbort, ?_,
    h.trigger, h.free, h.eventQ, h.sent⟩
  · show Function.update t.lp y.destLp _ = Function.update s.lp x.destLp _
    rw [h.lp, hdest, hst]
  · rcases ha with ha | ha
    · cases ha
    · exact absurd ha List.not_mem_nil
  · refine Follows.pq_congr h.pq (fun a ha => ?_) fun b hb => ?_
    · exact Function.update_of_ne (ne_of_mem_of_not_mem ha h.notMem.1) ..
    · exact Function.update_of_ne (ne_of_mem_of_not_mem hb h.notMem.2) ..

/-- What the handler leaves when it is called again on what its reverse handler
left. -/
def secondPass (m : SimModel T S M R) (s : Pe T S M R) (cev : TwEvent T) : Handled T S M :=
  let h := s.firstPass m cev
  let r := m.revent cev.destLp cev.sig.recvTs h.state h.cv h.msg
  m.event cev.destLp cev.sig.recvTs (s.lp cev.destLp).curState r.cv r.msg

omit [TwStime T] in
theorem firstPass_congr (hm : m'.event = m.event) {x y : TwEvent T} (ha : x.Alike y)
    (hlp : t.lp = s.lp) (hmsg : (t.ev y).msg = (s.ev x).msg) :
    t.firstPass m' y = s.firstPass m x := by
  unfold firstPass
  rw [hm, ha.destLp, ha.sig, hlp, hmsg]

end Turn

/-! ## The comparison of the LPs -/

/-- How the record of an LP lies in memory: the bytes of its state and the stream of the model
tell the states apart, and the core stream those of the kernel. -/
structure LpImage (S R G : Type) where
  type : CheckRevent.TwLptype
  bytes : S → CheckRevent.Bytes
  rng : S → G
  coreRng : R → G
  length_bytes : ∀ st, (bytes st).length = type.stateSz
  inj : ∀ st st', bytes st = bytes st' → rng st = rng st' → st = st'
  coreInj : Function.Injective coreRng

/-- The LP `id` with the record `l`, as `crv-state.c` sees it. -/
def LpImage.lp {G : Type} (v : LpImage S R G) (id : Nat) (l : TwLp T S R) :
    CheckRevent.TwLp G where
  id := id
  type := v.type
  curState := v.bytes l.curState
  rng := [v.rng l.curState]
  coreRng := [v.coreRng l.coreRng]
  triggeredGvtHook := l.triggeredGvtHook.toNat
  length_curState := v.length_bytes l.curState

omit [TwStime T] in
/-- Without checkpointers `crv-state.c` finds the LP as it was copied exactly when the
comparison of the records does. -/
theorem LpImage.copyThenCheck_iff {G : Type} [DecidableEq S] [DecidableEq R] [DecidableEq G]
    (v : LpImage S R G) (id : Nat) (before after : TwLp T S R)
    {into : CheckRevent.CrvLpstateCheckpoint G} (h : v.type.stateSz ≤ into.state.length) :
    CheckRevent.copyThenCheck none into (v.lp id before) (v.lp id after) = .ok () ↔
      crvCheckLpstates before after = true := by
  have hmatch : CheckRevent.statesMatch none into.state (v.bytes before.curState)
      (v.bytes after.curState) = false ↔ v.bytes before.curState ≠ v.bytes after.curState := by
    refine decide_eq_false_iff_not.trans ?_
    show (ByteBuffer.copyInto into.state (v.bytes before.curState)).take
      (v.bytes after.curState).length ≠ _ ↔ _
    rw [v.length_bytes, ← v.length_bytes before.curState, ByteBuffer.take_length_copyInto]
  have hroom : CheckRevent.Room none (v.lp id before).type into := ⟨h, h⟩
  have hsame : CheckRevent.SameLp (v.lp id before) (v.lp id after) := ⟨rfl, rfl, rfl, rfl⟩
  rw [CheckRevent.copyThenCheck_eq (k := none) rfl hroom hsame rfl rfl rfl rfl]
  unfold crvCheckLpstates
  rw [decide_eq_true_iff]
  constructor
  · intro hok
    split at hok
    · cases hok
    next hbytes =>
      split at hok
      · cases hok
      next hrng =>
        split at hok
        · cases hok
        next hcore =>
          split at hok
          · cases hok
          next hhook =>
            exact ⟨v.inj _ _ (not_not.mp (mt hmatch.mpr hbytes)) (not_not.mp hrng),
              v.coreInj (not_not.mp hcore), BitVec.eq_of_toNat_eq (not_not.mp hhook)⟩
  · rintro ⟨hstate, hcore, hhook⟩
    have hbytes := mt hmatch.mp (not_not.mpr (congrArg v.bytes hstate))
    exact (if_neg hbytes).trans <| (if_neg (not_not.mpr (congrArg v.rng hstate))).trans <|
      (if_neg (not_not.mpr (congrArg v.coreRng hcore))).trans <|
        if_neg (not_not.mpr (congrArg BitVec.toNat hhook))

/-! ## The body of the loops -/

end Pe

/-- The reverse handler, given what the event handler left, undoes it whenever the
event handler started on an all-zero bitfield: it restores the state and takes every
request for the hook back. -/
structure SimModel.Reversible (m : SimModel T S M R) : Prop where
  state : ∀ lp now st msg, let h := m.event lp now st 0 msg
    (m.revent lp now h.state h.cv h.msg).state = st
  hook : ∀ lp now st msg, let h := m.event lp now st 0 msg
    (m.revent lp now h.state h.cv h.msg).hookRev = h.ops.countP Pe.isTrigger

/-- The handler of `cev`, called again on the bitfield and the message that its
reverse handler leaves, does what it did on the all-zero bitfield; the commit
handler leaves the state of the LP alone; and every event created is sent. -/
structure SerialModel.Repeatable (m : SerialModel T S M R) (s : Pe T S M R) (cev : TwEvent T) :
    Prop where
  state : (s.secondPass m.toSimModel cev).state = (s.firstPass m.toSimModel cev).state
  ops : (s.secondPass m.toSimModel cev).ops = (s.firstPass m.toSimModel cev).ops
  commit : let h := s.firstPass m.toSimModel cev
    m.commit cev.destLp cev.sig.recvTs h.state h.cv h.msg = h.state
  commitAgain : let h := s.secondPass m.toSimModel cev
    m.commit cev.destLp cev.sig.recvTs h.state h.cv h.msg = h.state
  sends : Pe.SendsAll (s.firstPass m.toSimModel cev).ops

/-- The model under the protocol `p`. -/
def SerialModel.under (m : SerialModel T S M R) (p : TwSynch) : SerialModel T S M R :=
  { m with synch := p }

namespace Pe

section Body

variable {m : SerialModel T S M R} {s s₁ s₂ s' t : Pe T S M R} {cev x y : TwEvent T}
  {hd : Handled T S M} {k n : Nat}

/-- A commit handler that returns the state it is given changes nothing. -/
theorem commitCall_eq (h : Sending m.toSimModel (s.entered m.toSimModel cev hd) cev s₁)
    (hcom : m.commit cev.destLp cev.sig.recvTs hd.state hd.cv hd.msg = hd.state) :
    s₁.commitCall m cev = s₁ := by
  obtain ⟨hnow, hst, hcv, hmsg⟩ := sending_final h
  unfold commitCall
  rw [hnow, hst, hcv, hmsg, hcom, ← hst]
  exact congrArg (fun l => { s₁ with lp := l }) (Function.update_eq_self _ _)

/-- The check `t` after it handled `y`, which left `t₁`, and took the event back,
which left `t₂`. -/
structure TakenBack (m : SimModel T S M R) (t : Pe T S M R) (y : TwEvent T) (t₁ t₂ : Pe T S M R) :
    Prop where
  id : t₂.id = t.id
  cur : t₂.curEvent = some y
  lastSig : t₂.lastSig = Function.update t.lastSig (m.kpOf y.destLp) y.sig
  lp : t₂.lp = t.lp
  abortName : t₂.abortName = t.abortName
  cevAbort : t₂.cevAbort = t₁.cevAbort
  pq : t₂.queue .pq = t.queue .pq
  ev : ∀ b ∈ t.queue .pq, t₂.ev b = t.ev b
  self : (t₂.ev y).causedByMe = [] ∧ (t₂.ev y).abortedTotal = 0
  trigger : t₂.trigger = if (t.firstPass m y).ops.countP isTrigger = 0 then t.trigger
    else { t.trigger with sigAt := maxSig }
  eventQ : t₂.queue .eventQ = t₁.queue .eventQ
  grows : (t.queue .eventQ).length ≤ (t₁.queue .eventQ).length
  free : t₂.freeQ + (t₁.queue .eventQ).length = t.freeQ + (t.queue .eventQ).length
  sent : t₂.sent = t₁.sent
  more : t.sent.length ≤ t₁.sent.length
  commits : t₂.commits = t.commits
  again : t₂.handled m y = t.secondPass m y ∧ t₂.enter m y = t₂.entered m y (t.secondPass m y)
  tidy : Tidy [y] (t₂.entered m y (t.secondPass m y))

section

variable {m : SimModel T S M R} {t t₁ : Pe T S M R} {y : TwEvent T}

/-- The names that the check holds while it handles `y`. -/
theorem entered_congr {t₂ : Pe T S M R} (hc : t₂.curEvent = some y)
    (hl : t₂.lastSig (m.kpOf y.destLp) = y.sig) (h : Handled T S M) (hh : t₂.handled m y = h) :
    t₂.enter m y = t₂.entered m y h := by
  unfold enter entered
  rw [hh, ← hc, ← hl, Function.update_eq_self]
  rfl

/-- A model that keeps its contract takes back what its handler did. -/
theorem takenBack (hmap : ∀ i, m.map i = t.id) (hrng : m.ReversesUnif) (hrev : m.Reversible)
    (hsyn : Serial m.synch) (hl : Tidy [y] (t.entered m y (t.firstPass m y)))
    (hclean : (t.ev y).causedByMe = [] ∧ (t.ev y).abortedTotal = 0)
    (hawake : (t.lp y.destLp).suspendFlag = false) (hops : ∀ op ∈ (t.firstPass m y).ops, isAwake op)
    (hsends : SendsAll (t.firstPass m y).ops)
    (h : (t.entered m y (t.firstPass m y)).runOps m y.destLp (t.firstPass m y).ops = .ok t₁) :
    ∃ t₂, t₁.eventRollback m y .requeue = .ok t₂ ∧ TakenBack m t y t₁ t₂ := by
  set fp := t.firstPass m y with hfp
  set t₀ := t.entered m y fp with ht₀
  have hev₀ : t₀.ev y = { t.ev y with cv := fp.cv, msg := fp.msg } := Function.update_self ..
  have hlp₀ : t₀.lp y.destLp = { t.lp y.destLp with curState := fp.state } :=
    Function.update_self ..
  have hcev : y.uid < t₀.nextUid := by
    refine hl.lt _ (List.mem_append_left _ (List.mem_map_of_mem ?_))
    exact List.mem_append_left _ List.mem_cons_self
  have hsend₀ : Sending m t₀ y t₀ := by
    refine .enter rfl rfl ?_ ?_
    · rw [chain, hev₀]
      exact hclean.1
    · rw [hev₀]
      exact hclean.2
  have hmap₀ : ∀ i, m.map i = t₀.id := hmap
  have hsend := hsend₀.runOps hmap₀ hcev hops h
  obtain ⟨hall, hun⟩ := runOps_allSent rfl h hsends
  have hawake₀ : (t₀.lp y.destLp).suspendFlag = false := by
    rw [hlp₀]
    exact hawake
  obtain ⟨t₂, hback, hundone⟩ := eventRollback_ok (hsend.undoable hmap₀ hcev hawake₀) .requeue
  have hres := hsend.restored hrng hall hun hundone
  -- what the reverse handler is given
  have hreved : t₁.reversed m y = m.revent y.destLp y.sig.recvTs fp.state fp.cv fp.msg := by
    have hlp : (t₁.lp y.destLp).curState = fp.state := by
      obtain ⟨c, hlp₁⟩ := hsend.lp
      rw [hlp₁, Function.update_self, hlp₀]
    have hev : (t₁.ev y).cv = fp.cv ∧ (t₁.ev y).msg = fp.msg := by
      rw [hsend.self, hev₀]
      exact ⟨rfl, rfl⟩
    unfold reversed
    rw [hlp, hev.1, hev.2]
  have hstate : (t₁.reversed m y).state = (t.lp y.destLp).curState := by
    rw [hreved]
    exact hrev.state ..
  have hhook : (t₁.reversed m y).hookRev = fp.ops.countP isTrigger := by
    rw [hreved]
    exact hrev.hook ..
  obtain ⟨htrig, hcount⟩ := runOps_trigger hsyn h
  have hname := runOps_keeps abortName (fun _ _ _ _ h => handlerOp_abortName h) h
  have htidy₁ := hl.runOps hmap₀ h
  have hold : ∀ b ∈ t.queue .pq, t₂.ev b = t.ev b := by
    intro b hb
    have hne : b ≠ y := fun he => hl.uid_ne List.mem_cons_self hb (congrArg (·.uid) he.symm)
    have hlt : b.uid < t₀.nextUid := by
      refine hl.lt _ (List.mem_append_left _ (List.mem_map_of_mem ?_))
      exact List.mem_append_right _ hb
    rw [hres.old b hlt hne]
    exact Function.update_of_ne hne ..
  have hpq : t₂.queue .pq = t.queue .pq := hres.pq
  obtain ⟨⟨f, cq, tm, g, r, heq⟩, hself, -⟩ := hundone
  have hlast : t₂.lastSig = Function.update t.lastSig (m.kpOf y.destLp) y.sig := by
    rw [heq]
    show Function.update t₁.lastSig _ _ = _
    rw [hsend.lastSig]
    exact Function.update_idem ..
  have hlp : t₂.lp = t.lp := by
    rw [hres.lp, hstate, hhook, hcount, BitVec.add_sub_cancel, hlp₀]
    exact (Function.update_idem ..).trans (Function.update_eq_self ..)
  have hcur : t₂.curEvent = some y := by rw [heq]
  have hagain : t₂.handled m y = t.secondPass m y := by
    have hnow : t₂.twNow m y.destLp = y.sig.recvTs := by
      unfold twNow
      rw [hlast, Function.update_self]
    unfold handled secondPass
    rw [hnow, hlp, hself, hreved]
  refine ⟨t₂, hback, ?_⟩
  constructor
  case id =>
    rw [heq]
    exact hsend.id
  case cur => exact hcur
  case lastSig => exact hlast
  case lp => exact hlp
  case abortName =>
    rw [heq]
    exact hname
  case cevAbort => rw [heq]
  case pq => exact hpq
  case ev => exact hold
  case self =>
    rw [hself]
    exact ⟨rfl, rfl⟩
  case trigger =>
    have hset : t₂.trigger = if (t₁.reversed m y).hookRev = 0 then t₁.trigger
        else { t₁.trigger with sigAt := maxSig } := by rw [heq]
    rw [hset, hhook, htrig]
    split <;> rfl
  case eventQ => exact hres.eventQ
  case grows =>
    rw [hsend.eventQ, List.length_append]
    exact Nat.le_add_right _ _
  case free => exact hres.free
  case sent => rw [heq]
  case more =>
    rw [hsend.sent]
    exact Nat.le_add_right _ _
  case commits =>
    rw [heq]
    exact hsend.commits
  case again =>
    refine ⟨hagain, entered_congr hcur ?_ _ hagain⟩
    rw [hlast, Function.update_self]
  case tidy =>
    have hsub : (t₂.queue .pq).Sublist (t₁.queue .pq) := by
      rw [hpq, hsend.pq]
      exact List.sublist_append_right _ _
    refine htidy₁.shrink (List.Perm.refl _) (hsub.append_left [y]) hsub rfl ?_ ?_ ?_ ?_ ?_
    · show t₂.nextUid = _
      rw [heq]
    · intro c hc
      have hyc : y = c := Option.some.inj hc
      exact List.mem_singleton.mpr hyc.symm
    · intro b hb
      have hb' : b ∈ t.queue .pq := hpq ▸ hb
      have hne : b ≠ y := fun he => hl.uid_ne List.mem_cons_self hb' (congrArg (·.uid) he.symm)
      have hcl := hl.clean b hb'
      have h₀ : t₀.ev b = t.ev b := Function.update_of_ne hne ..
      have h₂ : (t₂.entered m y (t.secondPass m y)).ev b = t₂.ev b := Function.update_of_ne hne ..
      rw [h₂, hold b hb', ← h₀]
      exact hcl
    · show t₂.sent = _
      rw [heq]
    · show t₂.seqNum = _
      rw [heq]

/-- The check is as ready for the event as it was before it handled it. -/
theorem Ready.again {m' : SimModel T S M R} {s s₁ t₂ : Pe T S M R} {x : TwEvent T} {k n : Nat}
    (hkp : m'.kpOf = m.kpOf) (h : Ready m' k n s t x y) (hb : TakenBack m t y t₁ t₂)
    (hq : (t₁.queue .eventQ).length = (s₁.queue .eventQ).length + k)
    (hsent : t₁.sent.length = s₁.sent.length + n) (htr : t.trigger = s.trigger)
    (hk : k ≤ (s.queue .eventQ).length) (hn : n ≤ s.sent.length) (hcev : t₁.cevAbort = s.cevAbort) :
    ∃ k' n', Ready m' k' n' s t₂ x y ∧ k' ≤ (s₁.queue .eventQ).length ∧ n' ≤ s₁.sent.length := by
  obtain ⟨hsig, hdest, -, -⟩ := h.alike
  have hlast : Function.update t₂.lastSig (m'.kpOf x.destLp) x.sig =
      Function.update s.lastSig (m'.kpOf x.destLp) x.sig := by
    rw [hb.lastSig, hsig, hdest, ← hkp, Function.update_idem]
    exact h.lastSig
  have hq₀ := h.eventQ
  have hs₀ := h.sent
  have hgrows := hb.grows
  have hmore := hb.more
  have hfree := hb.free
  have hfree₀ := h.free
  refine ⟨k + ((t₁.queue .eventQ).length - (t.queue .eventQ).length),
    n + (t₁.sent.length - t.sent.length), ?_, by omega, by omega⟩
  constructor
  case alike => exact h.alike
  case id => exact hb.id.trans h.id
  case lp => exact hb.lp.trans h.lp
  case lastSig => exact hlast
  case abortName =>
    obtain ⟨hu, he⟩ := Prod.mk.inj hb.abortName
    exact ⟨hu.trans h.abortName.1, he.trans h.abortName.2⟩
  case cevAbort => exact hb.cevAbort.trans hcev
  case pq =>
    rw [hb.pq]
    exact Follows.pq_congr h.pq (fun _ _ => rfl) hb.ev
  case notMem =>
    rw [hb.pq]
    exact h.notMem
  case trigger =>
    rw [← htr, hb.trigger]
    split
    · exact .inl rfl
    · exact .inr rfl
  case free => omega
  case eventQ =>
    rw [hb.eventQ]
    omega
  case sent =>
    rw [hb.sent]
    omega

end

theorem sequentialBody_ok (h : s.sequentialBody m cev = .ok s') :
    ∃ s₁, (s.entered m.toSimModel cev (s.firstPass m.toSimModel cev)).runOps m.toSimModel cev.destLp
        (s.firstPass m.toSimModel cev).ops = .ok s₁ ∧
      (s₁.commitCall m cev).cevAbort = false ∧ s' = (s₁.commitCall m cev).freeCommitted cev := by
  unfold sequentialBody at h
  split at h
  · cases h
  next s₁ hf =>
    refine ⟨s₁, ?_, ?_⟩
    · unfold forward at hf
      rw [beginEvent_enter, beginEvent_handled] at hf
      exact hf
    · split at h
      · cases h
      next hab =>
        cases h
        exact ⟨Bool.eq_false_iff.mpr hab, rfl⟩

/-- Both loops have dequeued one event. -/
structure InHand (m : SerialModel T S M R) (k n : Nat) (s t : Pe T S M R) (x y : TwEvent T) :
    Prop where
  ready : Ready m.toSimModel k n s t x y
  eventQ : k ≤ (s.queue .eventQ).length
  sent : n ≤ s.sent.length
  msg : (t.ev y).msg = (s.ev x).msg
  trigger : t.trigger = s.trigger
  tidy : Tidy [x] (s.entered m.toSimModel x (s.firstPass m.toSimModel x))
  tidy' : Tidy [y] (t.entered m.toSimModel y (t.firstPass m.toSimModel y))
  clean : (s.ev x).causedByMe = [] ∧ (s.ev x).abortedTotal = 0
  clean' : (t.ev y).causedByMe = [] ∧ (t.ev y).abortedTotal = 0
  commits : List.Forall₂ TwEvent.Alike s.commits t.commits
  awake : ∀ i, (s.lp i).suspendFlag = false
  cevAbort : s.cevAbort = false
  id : s.id = 0

omit m in
theorem freeCommitted_queue {q : QueueId} (hq : q ≠ .hand) :
    (s.freeCommitted cev).queue q = s.queue q := Pool.remove_of_ne hq

theorem Tidy.freeCommitted_ev (h : Tidy [x] s) {a : TwEvent T} (ha : a ∈ s.queue .pq) :
    (s.freeCommitted x).ev a = s.ev a := by
  have hne : a ≠ x := fun he => h.uid_ne List.mem_cons_self ha (congrArg (·.uid) he.symm)
  exact Function.update_of_ne hne ..

theorem Tidy.freeCommitted (h : Tidy [x] s) : Tidy [x] (s.freeCommitted x) := by
  have hq : (s.freeCommitted x).queue .pq = s.queue .pq := freeCommitted_queue (by decide)
  have hnames : usedNames [x] (s.freeCommitted x) = usedNames [x] s := by
    unfold usedNames
    rw [hq]
    rfl
  constructor
  case nodup =>
    rw [hnames]
    exact h.nodup
  case lt =>
    rw [hnames]
    exact h.lt
  case cur => exact h.cur
  case clean =>
    rw [hq]
    intro a ha
    rw [h.freeCommitted_ev ha]
    exact h.clean a ha
  case ids =>
    rw [hq]
    exact h.ids

/-- The event is committed in both runs. -/
theorem freeCommitted_beside {k n : Nat} (h : Follows k n s t) (hxy : x.Alike y)
    (hk : k ≤ (s.queue .eventQ).length) (hn : n ≤ s.sent.length) (hl : Tidy [x] s)
    (hl' : Tidy [y] t) (htr : t.trigger = s.trigger)
    (hcom : List.Forall₂ TwEvent.Alike s.commits t.commits)
    (hawake : ∀ i, (s.lp i).suspendFlag = false) (hcev : s.cevAbort = false) (hid : s.id = 0) :
    Beside (s.freeCommitted x) (t.freeCommitted y) := by
  have hframe : ∀ q, q ≠ .hand → (s.freeCommitted x).queue q = s.queue q := fun _ hq =>
    freeCommitted_queue hq
  have hframe' : ∀ q, q ≠ .hand → (t.freeCommitted y).queue q = t.queue q := fun _ hq =>
    freeCommitted_queue hq
  refine ⟨⟨k, n, ?_, ?_, hn⟩, ⟨[x], hl.freeCommitted⟩, ⟨[y], hl'.freeCommitted⟩, htr,
    List.rel_append hcom (.cons hxy .nil), hawake, hcev, hid⟩
  · refine ⟨h.id, h.lp, h.lastSig, h.abort, h.abortName, h.cur, h.handles, h.cevAbort, ?_,
      h.trigger, ?_, ?_, h.sent⟩
    · rw [hframe .pq (by decide), hframe' .pq (by decide)]
      exact Follows.pq_congr h.pq (fun _ ha => hl.freeCommitted_ev ha)
        fun _ hb => hl'.freeCommitted_ev hb
    · have hfree := h.free
      show t.freeQ + 1 + k = s.freeQ + 1
      omega
    · rw [hframe .eventQ (by decide), hframe' .eventQ (by decide)]
      exact h.eventQ
  · rw [hframe .eventQ (by decide)]
    exact hk

/-- The body of the check does what the body of the sequential loop does. -/
theorem rollbackCheckBody_beside [DecidableEq S] [DecidableEq R] {k n : Nat}
    (hmap : ∀ i, m.map i = 0) (hrng : m.ReversesUnif) (hrev : m.Reversible)
    (hns : m.NeverSuspends) (h : InHand m k n s t x y) (hrep : m.Repeatable s x)
    (hs : s.sequentialBody (m.under .sequential) x = .ok s')
    (hroom : (s'.queue .eventQ).length < s'.freeQ) :
    ∃ t', t.rollbackCheckBody (m.under .sequentialRollbackCheck) y = .ok t' ∧ Beside s' t' := by
  obtain ⟨s₁, hrun, hcev, rfl⟩ := sequentialBody_ok hs
  let ms := (m.under .sequential).toSimModel
  let mc := (m.under .sequentialRollbackCheck).toSimModel
  have hmc : mc = { ms with synch := .sequentialRollbackCheck } := rfl
  have hfp : t.firstPass mc y = s.firstPass ms x :=
    firstPass_congr rfl h.ready.alike h.ready.lp h.msg
  have hsp : t.secondPass mc y = s.secondPass ms x := by
    unfold secondPass
    dsimp only
    rw [hfp, h.ready.alike.sig, h.ready.alike.destLp, h.ready.lp]
    rfl
  have hops : ∀ op ∈ (s.firstPass ms x).ops, isAwake op := hns.event _ _ _ _ _
  have hmap₀ : ∀ i, ms.map i = (s.entered ms x (s.firstPass ms x)).id := fun i =>
    (hmap i).trans h.id.symm
  have hmap' : ∀ i, mc.map i = t.id := fun i =>
    (hmap i).trans (h.id.symm.trans h.ready.id.symm)
  have hsend : Sending ms (s.entered ms x (s.firstPass ms x)) x s₁ := by
    refine (entered_sending h.clean).runOps hmap₀ ?_ hops hrun
    exact h.tidy.lt _ (List.mem_append_left _ (List.mem_map_of_mem
      (List.mem_append_left _ List.mem_cons_self)))
  have hcomm : s₁.commitCall (m.under .sequential) x = s₁ := commitCall_eq hsend hrep.commit
  rw [hcomm] at hcev hroom ⊢
  have hroom₁ : (s₁.queue .eventQ).length ≤ s₁.freeQ := by
    rw [freeCommitted_queue (by decide)] at hroom
    exact Nat.lt_succ_iff.mp hroom
  have hq₁ : (s.queue .eventQ).length ≤ (s₁.queue .eventQ).length := by
    rw [hsend.eventQ, List.length_append]
    exact Nat.le_add_right _ _
  -- the first pass
  have hfol : Follows k n (s.entered ms x (s.firstPass ms x)) (t.entered mc y (t.firstPass mc y)) :=
    h.ready.entered rfl (by rw [hfp])
  have hk₁ : k ≤ s₁.freeQ := h.eventQ.trans (hq₁.trans hroom₁)
  obtain ⟨t₁, hrun₁, hfol₁⟩ := hfol.runOps hmc rfl hmap₀ hops hrun hk₁ h.tidy h.tidy'
  have hdest : y.destLp = x.destLp := h.ready.alike.destLp
  have hcev₁ : t₁.cevAbort = false := hfol₁.cevAbort.trans hcev
  rw [← hdest, ← hfp] at hrun₁
  -- its rollback
  obtain ⟨t₂, hback, hb⟩ := takenBack hmap' hrng ⟨hrev.state, hrev.hook⟩ (.inr rfl) h.tidy' h.clean'
    (by rw [h.ready.lp]; exact h.awake _) (hfp ▸ hops) (hfp ▸ hrep.sends) hrun₁
  obtain ⟨k', n', hready₂, hk', hn'⟩ := h.ready.again (show m.kpOf = mc.kpOf from rfl) hb
    hfol₁.eventQ hfol₁.sent h.trigger h.eventQ h.sent (hcev₁.trans h.cevAbort.symm)
  -- the second pass
  have hfol₂ : Follows k' n' (s.entered ms x (s.firstPass ms x))
      (t₂.entered mc y (t.secondPass mc y)) :=
    hready₂.entered rfl (by rw [hsp]; exact hrep.state)
  obtain ⟨t₃, hrun₃, hfol₃⟩ :=
    hfol₂.runOps hmc rfl hmap₀ hops hrun (hk'.trans hroom₁) h.tidy hb.tidy
  have hops₃ : (t.secondPass mc y).ops = (s.firstPass ms x).ops := by
    rw [hsp]
    exact hrep.ops
  rw [← hdest] at hrun₃
  have hmap₂ : ∀ i, mc.map i = (t₂.entered mc y (t.secondPass mc y)).id := fun i =>
    (hmap' i).trans hb.id.symm
  have hsend₃ : Sending mc (t₂.entered mc y (t.secondPass mc y)) y t₃ := by
    refine (entered_sending hb.self).runOps hmap₂ ?_ hops hrun₃
    exact hb.tidy.lt _ (List.mem_append_left _ (List.mem_map_of_mem
      (List.mem_append_left _ List.mem_cons_self)))
  have hcomm₃ : t₃.commitCall (m.under .sequentialRollbackCheck) y = t₃ := by
    refine commitCall_eq hsend₃ ?_
    rw [hsp, hdest, h.ready.alike.sig]
    exact hrep.commitAgain
  have htrig : t₃.trigger = s₁.trigger := by
    obtain ⟨htr, -⟩ := runOps_trigger (.inl rfl) hrun
    obtain ⟨htr₃, -⟩ := runOps_trigger (.inr rfl) hrun₃
    have hsig : hookSig mc (t₂.entered mc y (t.secondPass mc y)) y.destLp =
        hookSig ms (s.entered ms x (s.firstPass ms x)) x.destLp := by
      unfold hookSig
      rw [hfol₂.lastSig, hdest]
      rfl
    have ht₂ : (t₂.entered mc y (t.secondPass mc y)).trigger =
        if (s.firstPass ms x).ops.countP isTrigger = 0 then s.trigger
        else { s.trigger with sigAt := maxSig } := by
      rw [← h.trigger, ← hfp]
      exact hb.trigger
    rw [htr, htr₃, hsig, ht₂]
    split <;> rfl
  refine ⟨t₃.freeCommitted y, ?_, ?_⟩
  · have hfwd : (t.beginEvent mc y).forward mc y = .ok t₁ := by
      unfold forward
      rw [beginEvent_enter, beginEvent_handled]
      exact hrun₁
    have hfwd₂ : t₂.forward mc y = .ok t₃ := by
      unfold forward
      rw [hb.again.2, hb.again.1, hops₃]
      exact hrun₃
    have hcheck : crvCheckLpstates ((t.beginEvent mc y).lp y.destLp) (t₂.lp y.destLp) = true := by
      rw [hb.lp]
      exact decide_eq_true ⟨rfl, rfl, rfl⟩
    have hcheck₂ : crvCheckLpstates (t₁.lp y.destLp) (t₃.lp y.destLp) = true := by
      rw [hfol₁.lp, hfol₃.lp]
      exact decide_eq_true ⟨rfl, rfl, rfl⟩
    have hcev₃ : t₃.cevAbort = false := hfol₃.cevAbort.trans hcev
    unfold rollbackCheckBody
    dsimp only
    rw [hfwd]
    dsimp only
    rw [if_neg (by rw [hcev₁]; decide), hback]
    dsimp only
    rw [if_neg (not_not.mpr hcheck), hfwd₂]
    dsimp only
    rw [hcomm₃, if_neg (not_not.mpr hcheck₂), if_neg (by rw [hcev₃]; decide)]
  · have hcommits : List.Forall₂ TwEvent.Alike s₁.commits t₃.commits := by
      rw [hsend.commits, hsend₃.commits]
      show List.Forall₂ _ s.commits t₂.commits
      rw [hb.commits]
      exact h.commits
    refine freeCommitted_beside hfol₃ h.ready.alike hk' hn' (h.tidy.runOps hmap₀ hrun)
      (hb.tidy.runOps hmap₂ hrun₃) htrig hcommits (fun i => ?_) hcev (hsend.id.trans h.id)
    obtain ⟨c, hlp⟩ := hsend.lp
    rw [hlp]
    refine (TwLp.update_field (·.suspendFlag) _ x.destLp (by rfl) i).trans ?_
    exact (TwLp.update_field (·.suspendFlag) s.lp x.destLp (by rfl) i).trans (h.awake i)

end Body

/-! ## A turn -/

section Turn

variable {m : SerialModel T S M R} {s s' t : Pe T S M R} {x y : TwEvent T}

theorem Beside.hooked (h : Beside s t) (tr : GvtHookTrigger T) (g g' : TwEventSig T) :
    Beside { s with trigger := tr, gvtSig := g } { t with trigger := tr, gvtSig := g' } := by
  obtain ⟨k, n, hf, hk, hn⟩ := h.follows
  obtain ⟨l, hl⟩ := h.tidy
  obtain ⟨l', hl'⟩ := h.tidy'
  refine ⟨⟨k, n, ?_, hk, hn⟩, ⟨l, ?_⟩, ⟨l', ?_⟩, rfl, h.commits, h.awake, h.cevAbort, h.id⟩
  · exact ⟨hf.id, hf.lp, hf.lastSig, hf.abort, hf.abortName, hf.cur, hf.handles, hf.cevAbort, hf.pq,
      .inl rfl, hf.free, hf.eventQ, hf.sent⟩
  · exact ⟨hl.nodup, hl.lt, hl.cur, hl.clean, hl.ids⟩
  · exact ⟨hl'.nodup, hl'.lt, hl'.cur, hl'.clean, hl'.ids⟩

/-- Both loops dequeue an event, or none. -/
theorem Beside.dequeue (h : Beside s t) (hties : TiesInOrder s) :
    s.twPqDequeue = none ∧ t.twPqDequeue = none ∨
      ∃ x y k n s' t', s.twPqDequeue = some (x, s') ∧ t.twPqDequeue = some (y, t') ∧
        InHand m k n s' t' x y := by
  obtain ⟨k, n, hf, hk, hn⟩ := h.follows
  obtain ⟨l, hl⟩ := h.tidy
  obtain ⟨l', hl'⟩ := h.tidy'
  rcases h.least hties with
    ⟨hs, ht⟩ | ⟨x, y, l₁, l₂, l₁', l₂', hx, hy, hs, ht, hx₁, hy₁, ⟨hxy, hmsg⟩, h₁, h₂⟩
  · left
    unfold twPqDequeue
    rw [hs, ht]
    exact ⟨rfl, rfl⟩
  · right
    obtain ⟨s', hsd, ds⟩ := twPqDequeue_tidy hl hx hs
    obtain ⟨t', htd, dt⟩ := twPqDequeue_tidy hl' hy ht
    refine ⟨x, y, k, n, s', t', hsd, htd, ?_⟩
    have hpq : List.Forall₂ (fun a b => a.Alike b ∧ (t'.ev b).msg = (s'.ev a).msg)
        (s'.queue .pq) (t'.queue .pq) := by
      rw [ds.pq, dt.pq]
      exact Follows.pq_congr (List.rel_append h₁ h₂)
        (fun a ha => ds.ev a (ne_of_mem_of_not_mem ha ds.notMem))
        fun b hb => dt.ev b (ne_of_mem_of_not_mem hb dt.notMem)
    have hmsg' : (t'.ev y).msg = (s'.ev x).msg := by
      rw [ds.self, dt.self]
      exact hmsg
    have hqs := ds.queue .eventQ (by decide) (by decide)
    have hqt := dt.queue .eventQ (by decide) (by decide)
    have hnm : x ∉ s'.queue .pq ∧ y ∉ t'.queue .pq := by
      rw [ds.pq, dt.pq]
      exact ⟨ds.notMem, dt.notMem⟩
    have hts := ds.tidy
    have htt := dt.tidy
    have hcs := ds.clean
    have hct := dt.clean
    obtain ⟨q, g, rfl⟩ := ds.eq
    obtain ⟨q', g', rfl⟩ := dt.eq
    refine ⟨⟨hxy, hf.id, hf.lp, ?_, hf.abortName, hf.cevAbort, hpq, hnm, .inl h.trigger, hf.free,
      ?_, hf.sent⟩, ?_, hn, hmsg', h.trigger, hts _ _ [] (List.nil_sublist _),
      htt _ _ [] (List.nil_sublist _), hcs, hct, h.commits, h.awake, h.cevAbort,
      h.id⟩
    · exact congrArg (fun f => Function.update f _ _) hf.lastSig
    · rw [hqs, hqt]
      exact hf.eventQ
    · rw [hqs]
      exact hk

/-- The two loops start their turns alike. -/
theorem nextEvent_beside (h : Beside s t) (hties : TiesInOrder s) {arm : Option (GvtHookTrigger T)}
    {o : Option (TwEvent T)}
    (hs : s.nextEvent (m.under .sequential).toSimModel arm = .ok (o, s')) :
    (o = none ∧ ∃ t', t.nextEvent (m.under .sequentialRollbackCheck).toSimModel arm =
        .ok (none, t') ∧ Beside s' t') ∨
      ∃ x y k n t', o = some x ∧ t.nextEvent (m.under .sequentialRollbackCheck).toSimModel arm =
        .ok (some y, t') ∧ InHand m k n s' t' x y := by
  unfold nextEvent at hs ⊢
  cases hh : s.gvtHookStepSeq (m.under .sequential).toSimModel arm with
  | error e => rw [hh] at hs; cases hs
  | ok s₁ =>
      obtain ⟨tr, g, g', rfl, ht⟩ :=
        gvtHookStepSeq_beside (show (m.under .sequentialRollbackCheck).gvtHook = m.gvtHook from rfl)
          h hties hh
      rw [hh] at hs
      rw [ht]
      have h₁ := h.hooked tr g g'
      have hties₁ : TiesInOrder { s with trigger := tr, gvtSig := g } := hties
      have hmin := (h₁.minimum hties₁).1
      have hend : (m.under .sequentialRollbackCheck).tsEnd = (m.under .sequential).tsEnd := rfl
      dsimp only at hs ⊢
      rw [hmin, hend]
      split at hs
      next hlate =>
        cases hs
        rw [if_pos hlate]
        exact .inl ⟨rfl, _, rfl, h₁⟩
      next hlate =>
        rw [if_neg hlate]
        rcases h₁.dequeue (m := m) hties₁ with ⟨hsd, htd⟩ | ⟨x, y, k, n, s₂, t₂, hsd, htd, hin⟩
        · rw [hsd] at hs
          rw [htd]
          cases hs
          exact .inl ⟨rfl, _, rfl, h₁⟩
        · rw [hsd] at hs
          rw [htd]
          cases hs
          exact .inr ⟨x, y, k, n, t₂, rfl, rfl, hin⟩

/-- The next turn of the sequential loop can be repeated: `event_id` orders the
events of one signature, the handler does the same twice, and there are buffers for
the events left in `event_q`. -/
structure CheckableTurn (m : SerialModel T S M R) (s : Pe T S M R)
    (arm : Option (GvtHookTrigger T)) : Prop where
  ties : TiesInOrder s
  repeatable : ∀ x s₁, s.nextEvent (m.under .sequential).toSimModel arm = .ok (some x, s₁) →
    m.Repeatable s₁ x
  room : ∀ x s₁ s', s.nextEvent (m.under .sequential).toSimModel arm = .ok (some x, s₁) →
    s₁.sequentialBody (m.under .sequential) x = .ok s' → (s'.queue .eventQ).length < s'.freeQ

/-- A turn of the check does what a turn of the sequential loop does. -/
theorem serialTurn_beside [DecidableEq S] [DecidableEq R] (hmap : ∀ i, m.map i = 0)
    (hrng : m.ReversesUnif) (hrev : m.Reversible) (hns : m.NeverSuspends) (h : Beside s t)
    {arm : Option (GvtHookTrigger T)} (hok : CheckableTurn m s arm) {flag : Bool}
    (hs : serialTurn (m.under .sequential) (sequentialBody (m.under .sequential)) s arm =
      .ok (flag, s')) :
    ∃ t', serialTurn (m.under .sequentialRollbackCheck)
        (rollbackCheckBody (m.under .sequentialRollbackCheck)) t arm = .ok (flag, t') ∧
      Beside s' t' := by
  unfold serialTurn at hs ⊢
  cases hn : s.nextEvent (m.under .sequential).toSimModel arm with
  | error e => rw [hn] at hs; cases hs
  | ok p =>
      obtain ⟨o, s₁⟩ := p
      rw [hn] at hs
      rcases nextEvent_beside h hok.ties hn with
        ⟨rfl, t', ht, hb⟩ | ⟨x, y, k, n, t₁, rfl, ht, hin⟩
      · rw [ht]
        cases hs
        exact ⟨t', rfl, hb⟩
      · rw [ht]
        dsimp only at hs ⊢
        cases hbody : s₁.sequentialBody (m.under .sequential) x with
        | error e => rw [hbody] at hs; cases hs
        | ok s₂ =>
            rw [hbody] at hs
            cases hs
            obtain ⟨t', hbody', hb⟩ := rollbackCheckBody_beside hmap hrng hrev hns hin
              (hok.repeatable x s₁ hn) hbody (hok.room x s₁ s' hn hbody)
            rw [hbody']
            exact ⟨t', rfl, hb⟩

end Turn

/-! ## The handlers before the loop -/

section Init

variable {m : SerialModel T S M R} {s s' t : Pe T S M R}

/-- Both programs are about to call the next `init` or `pre_run` handler. -/
structure Starting (s t : Pe T S M R) : Prop where
  follows : Follows 0 0 s t
  tidy : Tidy [] s
  tidy' : Tidy [] t
  trigger : t.trigger = s.trigger
  commits : s.commits = [] ∧ t.commits = []
  cur : s.curEvent = none ∧ t.curEvent = none
  awake : ∀ i, (s.lp i).suspendFlag = false
  cevAbort : s.cevAbort = false
  id : s.id = 0

theorem Starting.beside (h : Starting s t) : Beside s t := by
  refine ⟨⟨0, 0, h.follows, Nat.zero_le _, Nat.zero_le _⟩, ⟨[], h.tidy⟩, ⟨[], h.tidy'⟩, h.trigger,
    ?_,
    h.awake, h.cevAbort, h.id⟩
  rw [h.commits.1, h.commits.2]
  exact .nil

theorem Starting.initEntered (h : Starting s t) (lp : Nat) (st : S) :
    Starting (s.initEntered lp st) (t.initEntered lp st) := by
  obtain ⟨hf, hl, hl', htr, hcom, hcur, hawake, hcev, hid⟩ := h
  have hlp : Function.update t.lp lp { t.lp lp with curState := st } =
      Function.update s.lp lp { s.lp lp with curState := st } := by rw [hf.lp]
  refine ⟨⟨hf.id, hlp, hf.lastSig, fun _ => hf.abort (.inl hcur.1), hf.abortName, rfl, .nil,
    hf.cevAbort, hf.pq, hf.trigger, hf.free, hf.eventQ, hf.sent⟩, hl.initEntered lp st,
    hl'.initEntered lp st, htr, hcom, ⟨rfl, rfl⟩, fun i => ?_, hcev, hid⟩
  show (Function.update s.lp lp _ i).suspendFlag = false
  by_cases hi : i = lp
  · rw [hi, Function.update_self]
    exact hawake lp
  · rw [Function.update_of_ne hi]
    exact hawake i

theorem Starting.initCall (hmap : ∀ i, m.map i = 0) {f : Nat → S → S × List (HandlerOp T M)}
    (hf : ∀ lp st, ∀ op ∈ (f lp st).2, isAwake op) (h : Starting s t) {lp : Nat}
    (hs : s.initCall (m.under .sequential).toSimModel lp f = .ok s') :
    ∃ t', t.initCall (m.under .sequentialRollbackCheck).toSimModel lp f = .ok t' ∧
      Starting s' t' := by
  let ms := (m.under .sequential).toSimModel
  let mc := (m.under .sequentialRollbackCheck).toSimModel
  have hst : (t.lp lp).curState = (s.lp lp).curState := by rw [h.follows.lp]
  have h₀ := h.initEntered lp (f lp (s.lp lp).curState).1
  have hops := hf lp (s.lp lp).curState
  unfold Pe.initCall at hs ⊢
  rw [hst]
  dsimp only at hs ⊢
  split at hs
  next s₁ hrun =>
    split at hs
    · cases hs
    next hcev =>
      cases hs
      have hmap₀ : ∀ i, ms.map i = (s.initEntered lp (f lp (s.lp lp).curState).1).id := fun i =>
        (hmap i).trans h.id.symm
      have hmap₁ : ∀ i, mc.map i = (t.initEntered lp (f lp (s.lp lp).curState).1).id := fun i =>
        (hmap₀ i).trans h₀.follows.id.symm
      obtain ⟨t₁, hrun', hf₁⟩ := h₀.follows.runOps (m := ms) (show mc = _ from rfl) rfl hmap₀ hops
        hrun (Nat.zero_le _) h₀.tidy h₀.tidy'
      have hcev₁ : s'.cevAbort = false := Bool.eq_false_iff.mpr hcev
      have hkeep := fun i => runOps_keeps (fun s => (s.lp i).suspendFlag)
        (fun _ _ op hop hs => (handlerOp_suspendFlag (hops op hop) hs i).1) hrun
      have hkeep' := runOps_keeps (fun s => (s.curEvent, s.commits))
        (fun _ _ op hop hs => Prod.ext (handlerOp_suspendFlag (hops op hop) hs 0).2.1
          (handlerOp_suspendFlag (hops op hop) hs 0).2.2) hrun
      have hkeep₁ := runOps_keeps (fun s => (s.curEvent, s.commits))
        (fun _ _ op hop hs => Prod.ext (handlerOp_suspendFlag (hops op hop) hs 0).2.1
          (handlerOp_suspendFlag (hops op hop) hs 0).2.2) hrun'
      obtain ⟨hcur, hcom⟩ := Prod.mk.inj hkeep'
      obtain ⟨hcur', hcom'⟩ := Prod.mk.inj hkeep₁
      refine ⟨t₁, ?_, hf₁, h₀.tidy.runOps hmap₀ hrun, h₀.tidy'.runOps hmap₁ hrun', ?_,
        ⟨hcom.trans h.commits.1, hcom'.trans h.commits.2⟩, ⟨hcur, hcur'⟩,
        fun i => (hkeep i).trans (h₀.awake i), hcev₁, (runOps_free hrun).2.1.trans h.id⟩
      · have hrun₁ : (Pe.initEntered t lp (f lp (s.lp lp).curState).1).runOps mc lp
            (f lp (s.lp lp).curState).2 = .ok t₁ := hrun'
        have hcev' : ¬ t₁.cevAbort = true := by
          rw [hf₁.cevAbort, hcev₁]
          decide
        have hstate : Pe.initEntered t lp (f lp (s.lp lp).curState).1 =
            { t.setLp lp { t.lp lp with curState := (f lp (s.lp lp).curState).1 } with
              curEvent := none, abortCausedByMe := [], handles := [] } := rfl
        rw [← hstate, hrun₁]
        exact if_neg hcev'
      · obtain ⟨htr, -⟩ := runOps_trigger (.inl rfl) hrun
        obtain ⟨htr', -⟩ := runOps_trigger (.inr rfl) hrun'
        have hsig : hookSig mc (t.initEntered lp (f lp (s.lp lp).curState).1) lp =
            hookSig ms (s.initEntered lp (f lp (s.lp lp).curState).1) lp := by
          unfold hookSig
          rw [h₀.follows.lastSig]
          rfl
        rw [htr, htr', hsig, h₀.trigger]
        rfl
  · cases hs

theorem Starting.initCalls (hmap : ∀ i, m.map i = 0) {f : Nat → S → S × List (HandlerOp T M)}
    (hf : ∀ lp st, ∀ op ∈ (f lp st).2, isAwake op) (h : Starting s t) {lps : List Nat}
    (hs : s.initCalls (m.under .sequential).toSimModel f lps = .ok s') :
    ∃ t', t.initCalls (m.under .sequentialRollbackCheck).toSimModel f lps = .ok t' ∧
      Starting s' t' := by
  induction lps generalizing s t with
  | nil =>
      cases hs
      exact ⟨t, rfl, h⟩
  | cons lp lps ih =>
      unfold Pe.initCalls at hs ⊢
      split at hs
      next s₁ hs₁ =>
        obtain ⟨t₁, ht₁, h₁⟩ := h.initCall hmap hf hs₁
        obtain ⟨t', ht', h'⟩ := ih h₁ hs
        rw [ht₁]
        exact ⟨t', ht', h'⟩
      · cases hs

theorem start_starting (m : SerialModel T S M R) :
    Starting (Pe.start (m.under .sequential).toSimModel 0 [])
      (Pe.start (m.under .sequentialRollbackCheck).toSimModel 0 []) :=
  ⟨⟨rfl, rfl, rfl, fun _ => rfl, ⟨rfl, rfl⟩, rfl, .nil, rfl, .nil, .inl rfl, rfl, rfl, rfl⟩,
    start_tidy _, start_tidy _, rfl, ⟨rfl, rfl⟩, ⟨rfl, rfl⟩, fun _ => rfl, rfl, rfl⟩

theorem serialStart_beside (hmap : ∀ i, m.map i = 0) (hns : m.NeverSuspends)
    (hs : serialStart (m.under .sequential).toSimModel = .ok s) :
    ∃ t, serialStart (m.under .sequentialRollbackCheck).toSimModel = .ok t ∧ Beside s t := by
  unfold serialStart at hs ⊢
  split at hs
  next s₁ hs₁ =>
    obtain ⟨t₁, ht₁, h₁⟩ := (start_starting m).initCalls hmap hns.init hs₁
    obtain ⟨t, ht, h⟩ := h₁.initCalls hmap hns.preRun hs
    refine ⟨t, ?_, h.beside⟩
    have ht₁' : (Pe.start (m.under .sequentialRollbackCheck).toSimModel 0 []).initCalls
        (m.under .sequentialRollbackCheck).toSimModel
        (m.under .sequentialRollbackCheck).init
        ((m.under .sequentialRollbackCheck).lps 0) = .ok t₁ := ht₁
    rw [ht₁']
    exact ht
  · cases hs

end Init

end Pe

/-! ## Whole runs -/

namespace SerialModel

/-- A turn of the loop of `tw_scheduler_sequential_rollback_check`. -/
def rollbackCheckStep [DecidableEq S] [DecidableEq R] (m : SerialModel T S M R)
    (p : Bool × Pe T S M R) (arm : Option (GvtHookTrigger T)) :
    Except TwError (Bool × Pe T S M R) :=
  if p.1 then Pe.serialTurn m (Pe.rollbackCheckBody m) p.2 arm else .error .notEnabled

/-- The program of `tw_scheduler_sequential` that runs for `arms.length` turns; the
flag says whether its loop goes on. -/
def sequentialRun (m : SerialModel T S M R) (arms : List (Option (GvtHookTrigger T))) :
    Except TwError (Bool × Pe T S M R) :=
  match Pe.serialStart (m.under .sequential).toSimModel with
  | .ok s => runList (m.under .sequential).sequentialStep (true, s) arms
  | .error e => .error e

/-- The program of `tw_scheduler_sequential_rollback_check` that runs for
`arms.length` turns. -/
def rollbackCheckRun [DecidableEq S] [DecidableEq R] (m : SerialModel T S M R)
    (arms : List (Option (GvtHookTrigger T))) : Except TwError (Bool × Pe T S M R) :=
  match Pe.serialStart (m.under .sequentialRollbackCheck).toSimModel with
  | .ok s => runList (m.under .sequentialRollbackCheck).rollbackCheckStep (true, s) arms
  | .error e => .error e

/-- Every turn of the sequential run can be repeated. -/
def Checkable (m : SerialModel T S M R) (arms : List (Option (GvtHookTrigger T))) : Prop :=
  ∀ s, Pe.serialStart (m.under .sequential).toSimModel = .ok s →
    AlongList (m.under .sequential).sequentialStep (fun p arm => Pe.CheckableTurn m p.2 arm)
      (true, s) arms

/-- The two loops after the same number of turns. -/
def Abreast (p q : Bool × Pe T S M R) : Prop := q.1 = p.1 ∧ Pe.Beside p.2 q.2

theorem rollbackCheckStep_abreast [DecidableEq S] [DecidableEq R] {m : SerialModel T S M R}
    (hmap : ∀ i, m.map i = 0) (hrng : m.ReversesUnif) (hrev : m.Reversible)
    (hns : m.NeverSuspends) {p q p' : Bool × Pe T S M R} {arm : Option (GvtHookTrigger T)}
    (h : Abreast p q) (hok : Pe.CheckableTurn m p.2 arm)
    (hp : (m.under .sequential).sequentialStep p arm = .ok p') :
    ∃ q', (m.under .sequentialRollbackCheck).rollbackCheckStep q arm = .ok q' ∧ Abreast p' q' := by
  obtain ⟨hflag, hb⟩ := h
  unfold sequentialStep at hp
  unfold rollbackCheckStep
  split at hp
  next hgo =>
    obtain ⟨t', ht', hb'⟩ := Pe.serialTurn_beside hmap hrng hrev hns hb hok hp
    rw [hflag, if_pos hgo]
    exact ⟨(p'.1, t'), ht', rfl, hb'⟩
  · cases hp

/-- The rollback check ends as the sequential scheduler does. -/
theorem rollback_check_agrees [DecidableEq S] [DecidableEq R] (m : SerialModel T S M R)
    (hmap : ∀ i, m.map i = 0) (hrng : m.ReversesUnif) (hrev : m.Reversible)
    (hns : m.NeverSuspends) (arms : List (Option (GvtHookTrigger T))) (hok : m.Checkable arms)
    {flag : Bool} {s : Pe T S M R} (hs : m.sequentialRun arms = .ok (flag, s)) :
    ∃ t, m.rollbackCheckRun arms = .ok (flag, t) ∧ t.lp = s.lp ∧
      List.Forall₂ TwEvent.Alike s.commits t.commits := by
  unfold sequentialRun at hs
  split at hs
  next s₀ hs₀ =>
    obtain ⟨t₀, ht₀, h₀⟩ := Pe.serialStart_beside hmap hns hs₀
    have hstart : Abreast (true, s₀) (true, t₀) := ⟨rfl, h₀⟩
    have hstep : ∀ p q arm p', Abreast p q → Pe.CheckableTurn m p.2 arm →
        (m.under .sequential).sequentialStep p arm = .ok p' →
        ∃ q', (m.under .sequentialRollbackCheck).rollbackCheckStep q arm = .ok q' ∧
          Abreast p' q' := fun _ _ _ _ => rollbackCheckStep_abreast hmap hrng hrev hns
    obtain ⟨⟨flag', t⟩, hrun, rfl, h⟩ := runList_simulates hstep hstart (hok s₀ hs₀) hs
    obtain ⟨k, n, hf, -, -⟩ := h.follows
    refine ⟨t, ?_, hf.lp, h.commits⟩
    unfold rollbackCheckRun
    rw [ht₀]
    exact hrun
  · cases hs

/-- An LP whose every event sends it the next one and can be taken back. -/
def countModel : SerialModel Int Nat Nat Nat :=
  { tickModel with
    revent := fun _ _ st cv msg => ⟨st - 1, cv, msg, 0⟩ }

theorem countModel_repeatable (s : Pe Int Nat Nat Nat) (cev : TwEvent Int) :
    countModel.Repeatable s cev where
  state := rfl
  ops := rfl
  commit := rfl
  commitAgain := rfl
  sends i hi := by
    have hone : i < 1 := hi
    rw [Nat.lt_one_iff.mp hone]
    exact List.mem_cons_of_mem _ List.mem_cons_self

/-- Few events were sent and there is room for those in `event_q` after the turn. -/
def hasRoom (m : SerialModel T S M R) (p : Bool × Pe T S M R) (arm : Option (GvtHookTrigger T)) :
    Bool :=
  decide (2 * p.2.sent.length < 2 ^ 32) &&
    match Pe.serialTurn m (Pe.sequentialBody m) p.2 arm with
    | .ok q => decide ((q.2.queue .eventQ).length < q.2.freeQ)
    | .error _ => true

theorem checkableTurn_of_hasRoom {m : SerialModel T S M R} (hm : ∀ s x, m.Repeatable s x)
    {p : Bool × Pe T S M R} {arm : Option (GvtHookTrigger T)}
    (h : (m.under .sequential).hasRoom p arm = true) : Pe.CheckableTurn m p.2 arm := by
  unfold hasRoom at h
  rw [Bool.and_eq_true] at h
  obtain ⟨hties, hroom⟩ := h
  refine ⟨.inr (of_decide_eq_true hties), fun _ _ _ => hm _ _, fun x s₁ s' hn hb => ?_⟩
  have hturn : Pe.serialTurn (m.under .sequential) (Pe.sequentialBody (m.under .sequential)) p.2
      arm = .ok (true, s') := by
    unfold Pe.serialTurn
    rw [hn]
    dsimp only
    rw [hb]
  rw [hturn] at hroom
  exact of_decide_eq_true hroom

theorem countModel_checkable : countModel.Checkable (List.replicate 3 none) := by
  intro s hs
  refine AlongList.of_checked (fun _ _ h => checkableTurn_of_hasRoom countModel_repeatable h) ?_
  have hrun : (match Pe.serialStart (countModel.under .sequential).toSimModel with
      | .ok s => (runList (checked (countModel.under .sequential).sequentialStep
          (countModel.under .sequential).hasRoom) (true, s) (List.replicate 3 none)).isOk
      | .error _ => false) = true := by decide +kernel
  rw [hs] at hrun
  exact hrun

theorem rollback_check_agrees_ticks :
    ∃ flag s t, countModel.sequentialRun (List.replicate 3 none) = .ok (flag, s) ∧
      countModel.rollbackCheckRun (List.replicate 3 none) = .ok (flag, t) ∧ s.commits.length = 3 ∧
      t.lp = s.lp ∧ List.Forall₂ TwEvent.Alike s.commits t.commits := by
  have hrun : ∃ p, countModel.sequentialRun (List.replicate 3 none) = .ok p ∧
      decide (p.2.commits.length = 3) = true := exists_ok_of_any (by decide +kernel)
  obtain ⟨⟨flag, s⟩, hrun, hlen⟩ := hrun
  have hrev : countModel.toSimModel.Reversible :=
    ⟨fun _ _ st _ => Nat.add_sub_cancel st 1, fun _ _ _ _ => rfl⟩
  have hops : ∀ off, ∀ op ∈ [HandlerOp.eventNew 0 off 1 0, .eventSend 0],
      Pe.isAwake (op : HandlerOp Int Nat) := by
    intro off op hop
    rcases List.mem_cons.mp hop with rfl | hop
    · trivial
    · rw [List.mem_singleton.mp hop]
      trivial
  have hns : countModel.toSimModel.NeverSuspends :=
    ⟨fun _ _ _ _ _ => hops 3, fun _ _ => hops 1, fun _ _ _ hop => absurd hop List.not_mem_nil⟩
  obtain ⟨t, ht, hlp, hcom⟩ := rollback_check_agrees countModel (fun _ => rfl)
    (fun r => Nat.add_sub_cancel r 1) hrev hns _ countModel_checkable hrun
  exact ⟨flag, s, t, hrun, ht, of_decide_eq_true hlen, hlp, hcom⟩

/-- An LP whose handler adds one to the state, or two if its bit is set, and sets
the bit. -/
def stickyModel : SerialModel Int Nat Nat Nat :=
  { tickModel with
    event := fun _ _ st cv msg => ⟨if cv = 0 then st + 1 else st + 2, 1, msg, []⟩
    revent := fun _ _ st cv msg => ⟨st - 1, cv, msg, 0⟩ }

/-- The second pass starts on the bitfield that the reverse handler left. -/
theorem rollback_check_keeps_bitfield :
    stickyModel.toSimModel.Reversible ∧ stickyModel.toSimModel.NeverSuspends ∧
      stickyModel.toSimModel.ReversesUnif ∧
      (∃ s, stickyModel.sequentialRun [none, none] = .ok (false, s)) ∧
      stickyModel.rollbackCheckRun [none, none] = .error .rollbackCheck := by
  refine ⟨⟨fun _ _ st _ => Nat.add_sub_cancel st 1, fun _ _ _ _ => rfl⟩,
    ⟨fun _ _ _ _ _ _ hop => absurd hop List.not_mem_nil, fun _ _ op hop => ?_,
      fun _ _ _ hop => absurd hop List.not_mem_nil⟩, fun r => Nat.add_sub_cancel r 1, ?_, ?_⟩
  · rcases List.mem_cons.mp hop with rfl | hop
    · trivial
    · rw [List.mem_singleton.mp hop]
      trivial
  · have hrun : ∃ p, stickyModel.sequentialRun [none, none] = .ok p ∧
        decide (p.1 = false) = true := exists_ok_of_any (by decide +kernel)
    obtain ⟨⟨flag, s⟩, hrun, hf⟩ := hrun
    obtain rfl : flag = false := of_decide_eq_true hf
    exact ⟨s, hrun⟩
  · have hrun : (match stickyModel.rollbackCheckRun [none, none] with
        | .error e => decide (e = .rollbackCheck)
        | .ok _ => false) = true := by decide +kernel
    split at hrun
    next e he => rw [he, of_decide_eq_true hrun]
    · cases hrun

end SerialModel

end Ross

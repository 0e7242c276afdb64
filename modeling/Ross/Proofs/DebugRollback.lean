import Mathlib.Data.List.ReduceOption
import Mathlib.Data.List.Perm.Basic
import Ross.Core.Output
import Ross.Proofs.Undo

/-!
# Rolling back a whole run

`tw_scheduler_optimistic_debug` processes events without committing any and then
rolls them all back.  Each rollback leaves what there was before the event was
processed, up to the order of the priority queue and the names never used again.
-/

namespace Ross

variable {T S M R : Type} [TwStime T]

/-- The record of an LP without the count of its hook requests. -/
def TwLp.unhooked (l : TwLp T S R) : TwLp T S R := { l with triggeredGvtHook := 0 }

/-! ## The events a handler creates -/

/-- No event that a handler creates is below the event `σ` it is called for, and it
gets no abort event on which `waiting` messages hang.  There are `free` buffers and
the core random number generator of the LP is at `r`. -/
def Orderly (m : SimModel T S M R) (σ : TwEventSig T) (waiting : Nat) :
    Nat → R → List (HandlerOp T M) → Prop
  | _, _, [] => True
  | free, r, .eventNew _ offsetTs prio _ :: ops =>
      if σ.recvTs + offsetTs < m.tsEnd ∧ 0 < free then
        σ ≤ ⟨σ.recvTs + offsetTs, prio, tieLineage σ offsetTs (m.randUnif r).1⟩ ∧
          Orderly m σ waiting (free - 1) (m.randUnif r).2 ops
      else waiting = 0 ∧ Orderly m σ waiting free (m.randUnif r).2 ops
  | free, r, _ :: ops => Orderly m σ waiting free r ops

namespace Pe

variable {m : SimModel T S M R} {s s' : Pe T S M R} {cev : TwEvent T} {waiting : Nat}

/-- The handler of `cev` before the calls `ops`. -/
structure Creating (m : SimModel T S M R) (cev : TwEvent T) (waiting : Nat)
    (ops : List (HandlerOp T M)) (s : Pe T S M R) : Prop where
  id : s.id = 0
  cur : s.curEvent = some cev
  lastSig : s.lastSig (m.kpOf cev.destLp) = cev.sig
  orderly : Orderly m cev.sig waiting s.freeQ (s.lp cev.destLp).coreRng ops
  handles : ∀ e msg, .buffer e msg ∈ s.handles → cev.sig ≤ e.sig

theorem Creating.newSig_eq {ops : List (HandlerOp T M)} (h : Creating m cev waiting ops s)
    (offsetTs prio : T) : s.newSig m offsetTs cev.destLp prio =
      ⟨cev.sig.recvTs + offsetTs, prio,
        tieLineage cev.sig offsetTs (m.randUnif (s.lp cev.destLp).coreRng).1⟩ := by
  unfold newSig twNow curSig
  rw [h.lastSig, h.cur]

/-- A new event gets a buffer and is not below `cev`, or it gets the abort event, on
which no message waits. -/
theorem Creating.eventNew {ops : List (HandlerOp T M)} {destGid : Nat} {offsetTs prio : T} {msg : M}
    (h : Creating m cev waiting (.eventNew destGid offsetTs prio msg :: ops) s)
    (hs : s.twEventNewUserPrio m destGid offsetTs cev.destLp prio msg = .ok s') :
    Creating m cev waiting ops s' ∧ s'.queue = s.queue ∧
      (s'.newName = none ∧ waiting = 0 ∨ s'.newName = some s.nextUid) := by
  have hrng : ((s.drawnLp m cev.destLp) cev.destLp).coreRng =
      (m.randUnif (s.lp cev.destLp).coreRng).2 := by
    unfold drawnLp
    rw [Function.update_self]
  have hnow : s.twNow m cev.destLp = cev.sig.recvTs := by
    unfold twNow
    rw [h.lastSig]
  have hord := h.orderly
  have hsig := h.newSig_eq offsetTs prio
  unfold Orderly at hord
  obtain ⟨-, ⟨hlost, rfl⟩ | ⟨hlt, hpos, rfl⟩⟩ := twEventNewUserPrio_ok hs
  · have hno : ¬ (cev.sig.recvTs + offsetTs < m.tsEnd ∧ 0 < s.freeQ) := by
      rintro ⟨hlt, hpos⟩
      rcases hlost with hle | ⟨hz, -⟩
      · exact absurd hlt (by rw [← hnow]; exact hle.not_gt)
      · omega
    rw [if_neg hno] at hord
    refine ⟨⟨h.id, h.cur, h.lastSig, ?_, fun e msg' he => ?_⟩, rfl, .inl ⟨?_, hord.1⟩⟩
    · rw [hrng]
      exact hord.2
    · rcases List.mem_append.mp he with he | he
      · exact h.handles e msg' he
      · cases List.mem_singleton.mp he
    · unfold newName
      rw [List.getLast?_append]
      rfl
  · rw [hnow] at hlt
    rw [if_pos ⟨hlt, hpos⟩] at hord
    refine ⟨⟨h.id, h.cur, h.lastSig, ?_, fun e msg' he => ?_⟩, rfl, .inr ?_⟩
    · rw [hrng]
      exact hord.2
    · rcases List.mem_append.mp he with he | he
      · exact h.handles e msg' he
      · cases List.mem_singleton.mp he
        rw [hsig]
        exact hord.1
    · unfold newName
      rw [List.getLast?_append]
      rfl

/-- Every send takes the fast path. -/
theorem Creating.handlerOp (hmap : ∀ i, m.map i = 0) (hkp : ∀ i, m.kpOf i = 0)
    {op : HandlerOp T M} {ops : List (HandlerOp T M)} (hop : isAwake op)
    (h : Creating m cev waiting (op :: ops) s) (hs : s.handlerOp m cev.destLp op = .ok s') :
    Creating m cev waiting ops s' ∧ s'.queue .eventQ = s.queue .eventQ ∧
      s.nextUid ≤ s'.nextUid := by
  have hmap' : ∀ i, m.map i = s.id := fun i => (hmap i).trans h.id.symm
  cases op with
  | eventNew destGid offsetTs prio msg =>
      obtain ⟨h', hq, -⟩ := h.eventNew hs
      refine ⟨h', by rw [hq], ?_⟩
      obtain ⟨-, ⟨-, rfl⟩ | ⟨-, -, rfl⟩⟩ := twEventNewUserPrio_ok hs
      · exact le_rfl
      · exact Nat.le_succ _
  | eventSend i =>
      have hord : Orderly m cev.sig waiting s.freeQ (s.lp cev.destLp).coreRng ops := h.orderly
      rcases twEventSend_serial hmap' hs with ⟨-, hs⟩ | ⟨e, msg, hi, hs⟩
      · obtain ⟨g, rfl⟩ := hs.eq
        exact ⟨⟨h.id, h.cur, h.lastSig, hord,
            fun e msg he => h.handles e msg (buffer_mem_of_set he)⟩,
          rfl, le_rfl⟩
      · have hle : cev.sig ≤ (s.stamp e).sig := h.handles e msg (List.mem_of_getElem? hi)
        have hin : s.inOrder m (s.stamp e) = true := by
          unfold inOrder
          have hlast := h.lastSig
          rw [hkp] at hlast
          rw [hkp, hlast]
          exact decide_eq_true hle
        obtain ⟨g, acm, t, rfl⟩ := hs.eq
        refine ⟨⟨h.id, h.cur, h.lastSig, hord,
            fun e msg he => h.handles e msg (buffer_mem_of_set he)⟩,
          ?_, le_rfl⟩
        show s.sentTo m (s.stamp e) .eventQ = _
        unfold sentTo
        rw [if_pos hin, Pool.cons_of_ne (by decide)]
  | lpSuspend b => exact hop.elim
  | triggerGvtHookNow =>
      have hord : Orderly m cev.sig waiting s.freeQ (s.lp cev.destLp).coreRng ops := h.orderly
      rcases twTriggerGvtHookNow_ok hs with rfl | ⟨-, rfl⟩
      · exact ⟨⟨h.id, h.cur, h.lastSig, hord, h.handles⟩, rfl, le_rfl⟩
      · refine ⟨⟨h.id, h.cur, h.lastSig, ?_, h.handles⟩, rfl, le_rfl⟩
        dsimp only
        rw [Function.update_self]
        exact hord

end Pe

/-! ## The messages of a handler -/

namespace Outputs

/-- The output buffers once `n` of them are on the event named `e`. -/
def printed (o : Outputs) (e n : Nat) : Outputs :=
  ⟨o.output - n, Function.update o.outMsgs (some e) n⟩

theorem printed_zero {o : Outputs} {e : Nat} (h : o.outMsgs (some e) = 0) : o.printed e 0 = o := by
  unfold printed
  rw [← h, Function.update_eq_self, h]
  rfl

theorem twOutput_printed {o : Outputs} {e n : Nat} (hn : n ≤ o.output) :
    ∃ n', (o.printed e n).twOutput (some e) = o.printed e n' ∧ n' ≤ o.output := by
  unfold twOutput
  split
  · exact ⟨n, rfl, hn⟩
  next hpos =>
    have hlt : o.output - n ≠ 0 := hpos
    refine ⟨n + 1, ?_, by omega⟩
    unfold printed
    dsimp only
    rw [Function.update_self, Function.update_idem, Nat.sub_sub]

/-- Nothing is given back for a buffer on which no message hangs. -/
theorem twFree_of_eq_zero {o : Outputs} {k : Option Nat} (h : o.outMsgs k = 0) :
    o.twFreeOutputMessages k = o := by
  unfold twFreeOutputMessages
  rw [h, ← h, Function.update_eq_self, h]
  rfl

/-- The rollback gives back the messages of the event. -/
theorem twFree_printed {o : Outputs} {e n : Nat} (h : o.outMsgs (some e) = 0) (hn : n ≤ o.output) :
    (o.printed e n).twFreeOutputMessages (some e) = o := by
  have hz := printed_zero h
  unfold twFreeOutputMessages printed
  dsimp only
  rw [Function.update_self, Function.update_idem, Nat.sub_add_cancel hn]
  exact hz

end Outputs

namespace OutputModel

variable {m : OutputModel T S M R} {p p' : Pe T S M R × Outputs} {cev : TwEvent T} {o : Outputs}

theorem calls_some {lp : Nat} {op : HandlerOp T M} {cs : List (Option (HandlerOp T M))}
    (h : m.calls p lp (some op :: cs) = .ok p') :
    ∃ s, p.1.handlerOp m.toSimModel lp op = .ok s ∧
      m.calls (s, p.2.afterOp s op) lp cs = .ok p' := by
  unfold calls call at h
  dsimp only at h
  cases hop : p.1.handlerOp m.toSimModel lp op with
  | error e =>
      rw [hop] at h
      cases h
  | ok s =>
      rw [hop] at h
      exact ⟨s, rfl, h⟩

/-- The kernel sees the calls without those of `tw_output`. -/
theorem calls_runOps {lp : Nat} {cs : List (Option (HandlerOp T M))}
    (h : m.calls p lp cs = .ok p') : p.1.runOps m.toSimModel lp cs.reduceOption = .ok p'.1 := by
  induction cs generalizing p with
  | nil =>
      cases h
      rfl
  | cons c cs ih =>
      cases c with
      | none => exact ih (p := (p.1, p.2.twOutput p.1.curName)) h
      | some op =>
          obtain ⟨s, hop, hrest⟩ := calls_some h
          rw [List.reduceOption_cons_of_some]
          unfold Pe.runOps
          rw [hop]
          exact ih hrest

/-- `tw_event_new` finds no message on the buffer it returns. -/
theorem afterOp_printed {m : SimModel T S M R} {s s' : Pe T S M R}
    {op : HandlerOp T M} {ops : List (HandlerOp T M)} {u n : Nat}
    (hc : Pe.Creating m cev (o.outMsgs none) (op :: ops) s) (hlt : cev.uid < u)
    (hu : u ≤ s.nextUid) (hnew : ∀ v, u ≤ v → o.outMsgs (some v) = 0)
    (h : s.handlerOp m cev.destLp op = .ok s') :
    (o.printed cev.uid n).afterOp s' op = o.printed cev.uid n := by
  cases op with
  | eventNew destGid offsetTs prio msg =>
      obtain ⟨-, -, hname⟩ := hc.eventNew h
      refine Outputs.twFree_of_eq_zero ?_
      rcases hname with ⟨hn, hz⟩ | hn
      · rw [hn]
        show Function.update o.outMsgs (some cev.uid) n none = 0
        rw [Function.update_of_ne (Option.some_ne_none cev.uid).symm, hz]
      · rw [hn]
        have hne : some s.nextUid ≠ some cev.uid := fun he => by
          have := Option.some.inj he
          omega
        exact (Function.update_of_ne hne ..).trans (hnew _ hu)
  | eventSend i => rfl
  | lpSuspend b => rfl
  | triggerGvtHookNow => rfl

/-- The output buffers and `event_q` while the handler of `cev`, called with the
output buffers `o`, makes its calls. -/
theorem calls_printed (hmap : ∀ i, m.map i = 0) (hkp : ∀ i, m.kpOf i = 0)
    {cs : List (Option (HandlerOp T M))} (hops : ∀ op ∈ cs.reduceOption, Pe.isAwake op)
    {u n : Nat} (hu : u ≤ p.1.nextUid) (hlt : cev.uid < u)
    (hnew : ∀ v, u ≤ v → o.outMsgs (some v) = 0)
    (hc : Pe.Creating m.toSimModel cev (o.outMsgs none) cs.reduceOption p.1)
    (ho : p.2 = o.printed cev.uid n) (hn : n ≤ o.output)
    (h : m.calls p cev.destLp cs = .ok p') :
    p'.1.queue .eventQ = p.1.queue .eventQ ∧
      ∃ n, p'.2 = o.printed cev.uid n ∧ n ≤ o.output := by
  induction cs generalizing p n with
  | nil =>
      cases h
      exact ⟨rfl, n, ho, hn⟩
  | cons c cs ih =>
      cases c with
      | none =>
          have hcur : p.1.curName = some cev.uid := by
            unfold Pe.curName
            rw [hc.cur]
            rfl
          obtain ⟨n', hout, hn'⟩ := Outputs.twOutput_printed (e := cev.uid) hn
          refine ih (p := (p.1, p.2.twOutput p.1.curName)) hops hu hc ?_ hn' h
          rw [hcur, ho]
          exact hout
      | some op =>
          rw [List.reduceOption_cons_of_some] at hops hc
          obtain ⟨s, hop, hrest⟩ := calls_some h
          obtain ⟨hc', hq, hle⟩ := hc.handlerOp hmap hkp (hops op List.mem_cons_self) hop
          have hfree : p.2.afterOp s op = p.2 := by
            rw [ho]
            exact afterOp_printed hc hlt hu hnew hop
          obtain ⟨hq', hout⟩ := ih (fun op hop => hops op (List.mem_cons_of_mem _ hop))
            (hu.trans hle) hc' (hfree.trans ho) hn hrest
          exact ⟨hq'.trans hq, hout⟩

/-! ## A turn of the loop -/

/-- Between two turns. -/
structure Settled (p : Pe T S M R × Outputs) : Prop where
  id : p.1.id = 0
  tidy : Pe.Tidy (p.1.queue (.peventQ 0)) p.1
  awake : ∀ i, (p.1.lp i).suspendFlag = false
  owner : ∀ x ∈ p.1.queue .pq, (p.1.ev x).owner = .pePq
  msgs : ∀ u, p.2.outMsgs (some u) ≠ 0 → u ∈ (p.1.queue (.peventQ 0)).map (·.uid)
  sorted : (p.1.queue (.peventQ 0)).Pairwise fun a b => b.sig ≤ a.sig
  below : ∀ a ∈ p.1.queue (.peventQ 0), ∀ b ∈ p.1.queue .pq, a.sig ≤ b.sig

/-- The handler of the event that the next turn dequeues creates its events in order,
and sends them all. -/
def OrderlyTurn (m : OutputModel T S M R) (p : Pe T S M R × Outputs) : Prop :=
  ∀ x s, p.1.twPqDequeue = some (x, s) →
    Orderly m.toSimModel x.sig (p.2.outMsgs none) s.freeQ (s.lp x.destLp).coreRng
        (s.firstPass m.toSimModel x).ops ∧
      Pe.SendsAll (s.firstPass m.toSimModel x).ops

/-- The turn that took `p` to `p'` processed `x`. -/
structure Turned (m : OutputModel T S M R) (p : Pe T S M R × Outputs) (x : TwEvent T)
    (p' : Pe T S M R × Outputs) : Prop where
  id : p'.1.id = 0
  pevent : p'.1.queue (.peventQ 0) = x :: p.1.queue (.peventQ 0)
  pq : ∃ l₁ l₂, p.1.queue .pq = l₁ ++ x :: l₂ ∧
    p'.1.queue .pq = (p'.1.ev x).causedByMe ++ (l₁ ++ l₂)
  lp : ∃ c, p'.1.lp = Function.update p.1.lp x.destLp { p.1.lp x.destLp with
    curState := (p.1.firstPass m.toSimModel x).state
    coreRng := (Pe.drawUnif m.toSimModel)^[(p'.1.ev x).abortedTotal +
      (p'.1.ev x).causedByMe.length] (p.1.lp x.destLp).coreRng
    triggeredGvtHook := c }
  self : (p'.1.ev x).cv = (p.1.firstPass m.toSimModel x).cv ∧
    (p'.1.ev x).msg = (p.1.firstPass m.toSimModel x).msg
  old : ∀ y ∈ p.1.queue (.peventQ 0), p'.1.ev y = p.1.ev y
  child : ∀ c ∈ (p'.1.ev x).causedByMe, c.srcLp = x.destLp ∧ p.1.nextUid ≤ c.uid ∧
    p.2.outMsgs (some c.uid) = 0
  nodup : (p'.1.ev x).causedByMe.Nodup
  free : p'.1.freeQ + (p'.1.ev x).causedByMe.length = p.1.freeQ
  noMsg : p.2.outMsgs (some x.uid) = 0
  out : ∃ n, p'.2 = p.2.printed x.uid n ∧ n ≤ p.2.output

section Thread

variable {s : Pe T S M R} {x : TwEvent T}

theorem thread_ev_self : (m.thread s x).ev x = { s.ev x with owner := .kpPeventQ } :=
  Function.update_self ..

theorem thread_ev_of_ne {y : TwEvent T} (h : y ≠ x) : (m.thread s x).ev y = s.ev y :=
  Function.update_of_ne h ..

theorem thread_pevent (hkp : ∀ i, m.kpOf i = 0) :
    (m.thread s x).queue (.peventQ 0) = x :: s.queue (.peventQ 0) := by
  show Pool.cons (Pool.remove s.queue .hand x) (.peventQ (m.kpOf x.destLp)) x (.peventQ 0) = _
  rw [hkp, Pool.cons_self, Pool.remove_of_ne (by decide)]

theorem thread_pq : (m.thread s x).queue .pq = s.queue .pq := by
  show Pool.cons (Pool.remove s.queue .hand x) (.peventQ (m.kpOf x.destLp)) x .pq = _
  rw [Pool.cons_of_ne (by simp), Pool.remove_of_ne (by decide)]

theorem thread_tidy {l : List (TwEvent T)} (h : Pe.Tidy (x :: l) s) :
    Pe.Tidy (x :: l) (m.thread s x) := by
  have hnames : Pe.usedNames (x :: l) (m.thread s x) = Pe.usedNames (x :: l) s := by
    unfold Pe.usedNames
    rw [thread_pq]
    rfl
  constructor
  case nodup =>
    rw [hnames]
    exact h.nodup
  case lt =>
    rw [hnames]
    exact h.lt
  case cur => exact h.cur
  case clean =>
    rw [thread_pq]
    intro y hy
    have hne : y ≠ x := fun he => h.uid_ne List.mem_cons_self hy (congrArg (·.uid) he.symm)
    rw [thread_ev_of_ne hne]
    exact h.clean y hy
  case ids =>
    rw [thread_pq]
    exact h.ids

end Thread

/-- What the forward handler of `x` in the debug loop leaves. -/
theorem forward_ok {s : Pe T S M R} {x : TwEvent T} {q : Pe T S M R × Outputs}
    (h : m.forward (s.beginEvent m.toSimModel x, o) x = .ok q) :
    ∃ cs, cs.reduceOption = (s.firstPass m.toSimModel x).ops ∧
      m.calls (s.entered m.toSimModel x (s.firstPass m.toSimModel x), o) x.destLp cs = .ok q := by
  have hops : ((s.beginEvent m.toSimModel x).handled m.toSimModel x).ops =
      (s.firstPass m.toSimModel x).ops := by rw [Pe.beginEvent_handled]
  unfold forward at h
  rw [Pe.beginEvent_enter] at h
  exact ⟨_, (m.eventCalls_ops _ _ _ _ _).trans hops, h⟩

/-- The handler of `x`, dequeued from `p`, has run from `s` to `s₁` and printed. -/
structure Ran (m : OutputModel T S M R) (p : Pe T S M R × Outputs) (x : TwEvent T)
    (s s₁ : Pe T S M R) (o₁ : Outputs) : Prop where
  sending : Pe.Sending m.toSimModel (s.entered m.toSimModel x (s.firstPass m.toSimModel x)) x s₁
  tidy : Pe.Tidy (x :: p.1.queue (.peventQ 0)) s₁
  ordered : ∀ c ∈ s₁.chain x, x.sig ≤ c.sig ∧ (s₁.ev c).owner = .pePq
  pq : s₁.queue .pq = s₁.chain x ++ s.queue .pq
  draws : s₁.handles.length = (s₁.ev x).abortedTotal + (s₁.chain x).length
  free : s₁.freeQ + (s₁.chain x).length = s.freeQ
  names : x.uid < s.nextUid ∧ ∀ c ∈ s₁.chain x, s.nextUid ≤ c.uid
  noMsg : p.2.outMsgs (some x.uid) = 0 ∧ ∀ v, s.nextUid ≤ v → p.2.outMsgs (some v) = 0
  out : ∃ n, o₁ = p.2.printed x.uid n ∧ n ≤ p.2.output

theorem handler_ran (hmap : ∀ i, m.map i = 0) (hkp : ∀ i, m.kpOf i = 0)
    (hns : ∀ lp now st cv msg, ∀ op ∈ (m.event lp now st cv msg).ops, Pe.isAwake op)
    (h : Settled p) {x : TwEvent T} {l₁ l₂ : List (TwEvent T)} {s s₁ : Pe T S M R} {o₁ : Outputs}
    (ds : Pe.Dequeued (p.1.queue (.peventQ 0)) p.1 x l₁ l₂ s)
    (hord : Orderly m.toSimModel x.sig (p.2.outMsgs none) s.freeQ (s.lp x.destLp).coreRng
      (s.firstPass m.toSimModel x).ops)
    (hsends : Pe.SendsAll (s.firstPass m.toSimModel x).ops)
    {cs : List (Option (HandlerOp T M))} (hcs : cs.reduceOption = (s.firstPass m.toSimModel x).ops)
    (hcalls : m.calls (s.entered m.toSimModel x (s.firstPass m.toSimModel x), p.2) x.destLp cs =
      .ok (s₁, o₁)) : Ran m p x s s₁ o₁ := by
  set fp := s.firstPass m.toSimModel x with hfp
  set s₀ := s.entered m.toSimModel x fp with hs₀
  obtain ⟨hid, hnext⟩ : s.id = p.1.id ∧ s.nextUid = p.1.nextUid := by
    obtain ⟨q, g, he⟩ := ds.eq
    rw [he]
    exact ⟨rfl, rfl⟩
  have hl₀ : Pe.Tidy (x :: p.1.queue (.peventQ 0)) s₀ := ds.tidy _ _ _ (List.Sublist.refl _)
  have hmap₀ : ∀ i, m.map i = s₀.id := fun i => (hmap i).trans (hid.trans h.id).symm
  have hxlt : x.uid < s₀.nextUid := by
    refine hl₀.lt _ (List.mem_append_left _ (List.mem_map_of_mem ?_))
    exact List.mem_append_left _ List.mem_cons_self
  have hops : ∀ op ∈ fp.ops, Pe.isAwake op := hns _ _ _ _ _
  have hrun : s₀.runOps m.toSimModel x.destLp fp.ops = .ok s₁ := hcs ▸ calls_runOps hcalls
  have hsend := (Pe.entered_sending ds.clean).runOps hmap₀ hxlt hops hrun
  obtain ⟨hall, hun⟩ := Pe.runOps_allSent rfl hrun hsends
  have hmsgx : p.2.outMsgs (some x.uid) = 0 := by
    by_contra hne
    obtain ⟨y, hy, he⟩ := List.mem_map.mp (h.msgs _ hne)
    have hxm : x ∈ p.1.queue .pq := by
      rw [ds.split]
      exact List.mem_append_right _ List.mem_cons_self
    exact h.tidy.uid_ne hy hxm he
  have hmsgn : ∀ v, s.nextUid ≤ v → p.2.outMsgs (some v) = 0 := by
    intro v hv
    by_contra hne
    have hm := h.msgs v hne
    have hlt := h.tidy.lt v (List.mem_append_left _ (by
      rw [List.map_append]
      exact List.mem_append_left _ hm))
    omega
  have hcr : Pe.Creating m.toSimModel x (p.2.outMsgs none) cs.reduceOption s₀ := by
    refine ⟨hid.trans h.id, rfl, Pe.entered_lastSig fp, ?_,
      fun _ _ he => absurd he List.not_mem_nil⟩
    rw [hcs, Pe.entered_lp]
    exact hord
  obtain ⟨heq, hout⟩ := calls_printed (p := (s₀, p.2)) (o := p.2) (u := s.nextUid) (n := 0) hmap hkp
    (hcs ▸ hops) le_rfl hxlt hmsgn hcr (Outputs.printed_zero hmsgx).symm (Nat.zero_le _) hcalls
  -- `event_q` did not grow, so every child is in order
  have hin : ∀ c ∈ s₁.chain x, s₀.inOrder m.toSimModel c = true := by
    have hq := hsend.eventQ
    rw [heq] at hq
    have hnil := List.self_eq_append_right.mp hq
    rw [List.reverse_eq_nil_iff, List.filter_eq_nil_iff] at hnil
    intro c hc
    have := hnil c hc
    simpa using this
  have hfilter : (s₁.chain x).filter (s₀.inOrder m.toSimModel) = s₁.chain x :=
    List.filter_eq_self.mpr hin
  constructor
  case sending => exact hsend
  case tidy => exact hl₀.runOps hmap₀ hrun
  case ordered =>
    intro c hc
    have hle := of_decide_eq_true (hin c hc)
    rw [hkp, ← hkp x.destLp, Pe.entered_lastSig] at hle
    refine ⟨hle, ?_⟩
    rw [(hsend.child c hc).2, if_pos (hin c hc)]
  case pq =>
    rw [hsend.pq, hfilter]
    rfl
  case draws => rw [← hall, hsend.count, Nat.add_comm]
  case free =>
    have hfree := hsend.free
    rw [hun] at hfree
    exact hfree
  case names =>
    exact ⟨hxlt, fun c hc => hsend.ge _ (List.mem_append_left _ (List.mem_map_of_mem hc))⟩
  case noMsg => exact ⟨hmsgx, hmsgn⟩
  case out => exact hout

namespace Ran

variable {x : TwEvent T} {s s₁ : Pe T S M R} {o₁ : Outputs} {l₁ l₂ : List (TwEvent T)}

theorem pevent (h : Ran m p x s s₁ o₁)
    (ds : Pe.Dequeued (p.1.queue (.peventQ 0)) p.1 x l₁ l₂ s) :
    s₁.queue (.peventQ 0) = p.1.queue (.peventQ 0) := by
  rw [h.sending.queue _ (by simp) (by simp)]
  exact ds.queue _ (by simp) (by simp)

/-- The buffers that the handler does not write. -/
theorem old (h : Ran m p x s s₁ o₁) (ds : Pe.Dequeued (p.1.queue (.peventQ 0)) p.1 x l₁ l₂ s)
    {y : TwEvent T} (hy : y.uid < s.nextUid) (hne : y ≠ x) : s₁.ev y = p.1.ev y := by
  rw [h.sending.old y hy hne, ← ds.ev y hne]
  exact Function.update_of_ne hne ..

theorem lp (h : Ran m p x s s₁ o₁) (ds : Pe.Dequeued (p.1.queue (.peventQ 0)) p.1 x l₁ l₂ s) :
    ∃ c, s₁.lp = Function.update p.1.lp x.destLp { p.1.lp x.destLp with
      curState := (p.1.firstPass m.toSimModel x).state
      coreRng := (Pe.drawUnif m.toSimModel)^[(s₁.ev x).abortedTotal + (s₁.chain x).length]
        (p.1.lp x.destLp).coreRng
      triggeredGvtHook := c } := by
  have hfp : s.firstPass m.toSimModel x = p.1.firstPass m.toSimModel x := by
    have hmsg : (s.ev x).msg = (p.1.ev x).msg := by rw [ds.self]
    obtain ⟨q, g, rfl⟩ := ds.eq
    unfold Pe.firstPass
    rw [hmsg]
  have hlp : s.lp = p.1.lp := by
    obtain ⟨q, g, he⟩ := ds.eq
    rw [he]
  obtain ⟨c, hlp₁⟩ := h.sending.lp
  refine ⟨c, ?_⟩
  rw [hlp₁, Pe.entered_lp, h.draws, hfp]
  show Function.update (Function.update s.lp x.destLp _) x.destLp _ = _
  rw [Function.update_idem, hlp]

theorem turned (h : Ran m p x s s₁ o₁) (hkp : ∀ i, m.kpOf i = 0) (hp : Settled p)
    (ds : Pe.Dequeued (p.1.queue (.peventQ 0)) p.1 x l₁ l₂ s) :
    Turned m p x (m.thread s₁ x, o₁) := by
  have hchain : ((m.thread s₁ x).ev x).causedByMe = s₁.chain x := by
    rw [thread_ev_self]
    rfl
  have habort : ((m.thread s₁ x).ev x).abortedTotal = (s₁.ev x).abortedTotal := by
    rw [thread_ev_self]
  have hfinal := Pe.sending_final h.sending
  obtain ⟨hid, hnext, hfree⟩ : s.id = p.1.id ∧ s.nextUid = p.1.nextUid ∧ s.freeQ = p.1.freeQ := by
    obtain ⟨q, g, he⟩ := ds.eq
    rw [he]
    exact ⟨rfl, rfl, rfl⟩
  have hfp : s.firstPass m.toSimModel x = p.1.firstPass m.toSimModel x := by
    have hmsg : (s.ev x).msg = (p.1.ev x).msg := by rw [ds.self]
    obtain ⟨q, g, rfl⟩ := ds.eq
    unfold Pe.firstPass
    rw [hmsg]
  constructor
  case id => exact h.sending.id.trans (hid.trans hp.id)
  case pevent => rw [thread_pevent hkp, h.pevent ds]
  case pq =>
    refine ⟨l₁, l₂, ds.split, ?_⟩
    rw [thread_pq, hchain, h.pq, ds.pq]
  case lp =>
    rw [hchain, habort]
    exact h.lp ds
  case self =>
    rw [thread_ev_self, ← hfp]
    exact ⟨hfinal.2.2.1, hfinal.2.2.2⟩
  case old =>
    intro y hy
    have hne : y ≠ x := by
      rintro rfl
      have hxm : y ∈ p.1.queue .pq := by
        rw [ds.split]
        exact List.mem_append_right _ List.mem_cons_self
      exact hp.tidy.uid_ne hy hxm rfl
    have hlt : y.uid < s.nextUid := by
      rw [hnext]
      refine hp.tidy.lt _ (List.mem_append_left _ (List.mem_map_of_mem ?_))
      exact List.mem_append_left _ hy
    rw [thread_ev_of_ne hne, h.old ds hlt hne]
  case child =>
    rw [hchain]
    intro c hc
    have hge := h.names.2 c hc
    exact ⟨(h.sending.child c hc).1, hnext ▸ hge, h.noMsg.2 _ hge⟩
  case nodup =>
    rw [hchain]
    exact h.sending.nodup.of_append_left.of_map
  case free =>
    rw [hchain, ← hfree]
    exact h.free
  case noMsg => exact h.noMsg.1
  case out => exact h.out

theorem settled (h : Ran m p x s s₁ o₁) (hkp : ∀ i, m.kpOf i = 0) (hp : Settled p)
    (ds : Pe.Dequeued (p.1.queue (.peventQ 0)) p.1 x l₁ l₂ s)
    (hmin : ∀ y ∈ p.1.queue .pq, x.sig ≤ y.sig) : Settled (m.thread s₁ x, o₁) := by
  have hpe : (m.thread s₁ x).queue (.peventQ 0) = x :: p.1.queue (.peventQ 0) := by
    rw [thread_pevent hkp, h.pevent ds]
  have hpq : (m.thread s₁ x).queue .pq = s₁.chain x ++ (l₁ ++ l₂) := by
    rw [thread_pq, h.pq, ds.pq]
  have hsub : ∀ y ∈ l₁ ++ l₂, y ∈ p.1.queue .pq := by
    intro y hy
    rw [ds.split]
    exact ((List.sublist_cons_self x l₂).append_left l₁).subset hy
  have hxm : x ∈ p.1.queue .pq := by
    rw [ds.split]
    exact List.mem_append_right _ List.mem_cons_self
  obtain ⟨hid, hnext, hlp⟩ : s.id = p.1.id ∧ s.nextUid = p.1.nextUid ∧ s.lp = p.1.lp := by
    obtain ⟨q, g, he⟩ := ds.eq
    rw [he]
    exact ⟨rfl, rfl, rfl⟩
  constructor
  case id => exact h.sending.id.trans (hid.trans hp.id)
  case tidy =>
    rw [hpe]
    exact thread_tidy h.tidy
  case awake =>
    intro i
    show (s₁.lp i).suspendFlag = false
    obtain ⟨c, hlp₁⟩ := h.lp ds
    rw [hlp₁]
    exact (TwLp.update_field (·.suspendFlag) p.1.lp x.destLp (by rfl) i).trans (hp.awake i)
  case owner =>
    rw [hpq]
    intro y hy
    rcases List.mem_append.mp hy with hy | hy
    · have hne : y ≠ x := fun he => by
        have := h.names.2 y hy
        have := h.names.1
        have : y.uid = x.uid := congrArg (·.uid) he
        omega
      rw [thread_ev_of_ne hne]
      exact (h.ordered y hy).2
    · have hne := ne_of_mem_of_not_mem hy ds.notMem
      have hlt : y.uid < s.nextUid := by
        rw [hnext]
        refine hp.tidy.lt _ (List.mem_append_left _ (List.mem_map_of_mem ?_))
        exact List.mem_append_right _ (hsub y hy)
      rw [thread_ev_of_ne hne, h.old ds hlt hne]
      exact hp.owner y (hsub y hy)
  case msgs =>
    intro u hu
    rw [hpe, List.map_cons]
    obtain ⟨n, hout, -⟩ := h.out
    by_cases hux : u = x.uid
    · rw [hux]
      exact List.mem_cons_self
    · refine List.mem_cons_of_mem _ (hp.msgs u ?_)
      have hne : some u ≠ some x.uid := fun he => hux (Option.some.inj he)
      have hu' : (p.2.printed x.uid n).outMsgs (some u) ≠ 0 := hout ▸ hu
      unfold Outputs.printed at hu'
      dsimp only at hu'
      rw [Function.update_of_ne hne] at hu'
      exact hu'
  case sorted =>
    rw [hpe]
    exact List.pairwise_cons.mpr ⟨fun a ha => hp.below a ha x hxm, hp.sorted⟩
  case below =>
    rw [hpe, hpq]
    have hx : ∀ b ∈ s₁.chain x ++ (l₁ ++ l₂), x.sig ≤ b.sig := by
      intro b hb
      rcases List.mem_append.mp hb with hb | hb
      · exact (h.ordered b hb).1
      · exact hmin b (hsub b hb)
    intro a ha b hb
    rcases List.mem_cons.mp ha with rfl | ha
    · exact hx b hb
    · exact (hp.below a ha x hxm).trans (hx b hb)

end Ran

theorem debugTurn_turned (hmap : ∀ i, m.map i = 0) (hkp : ∀ i, m.kpOf i = 0)
    (hns : ∀ lp now st cv msg, ∀ op ∈ (m.event lp now st cv msg).ops, Pe.isAwake op)
    (h : Settled p) (hok : OrderlyTurn m p) {flag : Bool} (hs : m.debugTurn p = .ok (flag, p')) :
    flag = false ∧ p' = p ∨ ∃ x, Turned m p x p' ∧ Settled p' := by
  unfold debugTurn at hs
  cases hd : p.1.twPqDequeue with
  | none =>
      rw [hd] at hs
      cases hs
      exact .inl ⟨rfl, rfl⟩
  | some q =>
      obtain ⟨x, s⟩ := q
      rw [hd] at hs
      dsimp only at hs
      right
      obtain ⟨hord, hsends⟩ := hok x s hd
      obtain ⟨hleast, -⟩ := Pe.twPqDequeue_some hd
      obtain ⟨hxm, hmin⟩ := pqLeast_some hleast
      obtain ⟨l₁, l₂, hsplit⟩ := List.append_of_mem hxm
      obtain ⟨s', hd', ds⟩ := Pe.twPqDequeue_tidy h.tidy hleast hsplit
      rw [hd] at hd'
      cases hd'
      cases hf : m.forward (s.beginEvent m.toSimModel x, p.2) x with
      | error e => rw [hf] at hs; cases hs
      | ok q =>
          obtain ⟨s₁, o₁⟩ := q
          rw [hf] at hs
          cases hs
          obtain ⟨cs, hcs, hcalls⟩ := forward_ok hf
          have hran := handler_ran hmap hkp hns h ds hord hsends hcs hcalls
          exact ⟨x, hran.turned hkp h ds, hran.settled hkp h ds hmin⟩

/-! ## The rollback of a turn -/

section Back

theorem rollbackChildren_pair {s s' : Pe T S M R} {r : Rollback T} {cs : List (TwEvent T)}
    (hz : ∀ c ∈ cs, o.outMsgs (some c.uid) = 0)
    (h : s.rollbackChildren m.toSimModel r cs = .ok s') :
    m.rollbackChildren (s, o) r cs = .ok (s', o) := by
  induction cs generalizing s with
  | nil =>
      cases h
      rfl
  | cons c cs ih =>
      unfold Pe.rollbackChildren at h
      unfold rollbackChildren
      dsimp only
      cases hc : s.rollbackChild m.toSimModel r c cs with
      | error e => rw [hc] at h; cases h
      | ok s₁ =>
          rw [hc] at h
          rw [Outputs.twFree_of_eq_zero (hz c List.mem_cons_self), ite_self]
          exact ih (fun c' hc' => hz c' (List.mem_cons_of_mem _ hc')) h

/-- A rollback gives back the messages of the event; its children have none. -/
theorem eventRollback_pair {s s' : Pe T S M R} {x : TwEvent T} {after : RollbackAfter}
    (hz : ∀ c ∈ (s.ev x).causedByMe, (o.twFreeOutputMessages (some x.uid)).outMsgs (some c.uid) = 0)
    (h : s.eventRollback m.toSimModel x after = .ok s') :
    m.eventRollback (s, o) x after = .ok (s', o.twFreeOutputMessages (some x.uid)) := by
  unfold Pe.eventRollback at h
  dsimp only at h
  unfold eventRollback
  dsimp only
  split at h
  next s₁ hs₁ =>
    cases h
    rw [rollbackChildren_pair hz hs₁]
  · cases h

/-- The state `t` reached by rollbacks stands for the state `p` of the run.  The
reverse handlers may have counted requests for the hook that
`tw_trigger_gvt_hook_now` did not count. -/
structure Like (p t : Pe T S M R × Outputs) : Prop where
  id : t.1.id = 0
  lp : ∀ i, (t.1.lp i).unhooked = (p.1.lp i).unhooked
  pevent : t.1.queue (.peventQ 0) = p.1.queue (.peventQ 0)
  pq : (t.1.queue .pq).Perm (p.1.queue .pq)
  free : t.1.freeQ = p.1.freeQ
  ev : ∀ y ∈ p.1.queue (.peventQ 0), t.1.ev y = p.1.ev y
  owner : ∀ y ∈ p.1.queue .pq, (t.1.ev y).owner = .pePq
  out : t.2 = p.2

theorem Settled.like (h : Settled p) : Like p p :=
  ⟨h.id, fun _ => rfl, rfl, List.Perm.refl _, rfl, fun _ _ => rfl, h.owner, rfl⟩

/-- The reverse handler undoes the event handler on an all-zero bitfield. -/
def Undoes (m : OutputModel T S M R) : Prop :=
  ∀ lp now st msg, let h := m.event lp now st 0 msg
    (m.revent lp now h.state h.cv h.msg).state = st

section

variable {x : TwEvent T} {t : Pe T S M R × Outputs}

omit [TwStime T] in
theorem shiftPevent_pq {s : Pe T S M R} {rest : List (TwEvent T)} :
    (s.shiftPevent 0 x rest).queue .pq = s.queue .pq := by
  show Pool.cons (Function.update s.queue (.peventQ 0) rest) .hand x .pq = _
  rw [Pool.cons_of_ne (by decide), Function.update_of_ne (by simp)]

/-- The names of the event processed last and of its children. -/
theorem Turned.names (hp : Settled p) (h : Turned m p x p') :
    x ∈ p.1.queue .pq ∧ ∀ y ∈ p.1.queue (.peventQ 0) ++ p.1.queue .pq,
      y ∉ (p'.1.ev x).causedByMe := by
  obtain ⟨l₁, l₂, hsplit, -⟩ := h.pq
  refine ⟨?_, fun y hy hc => ?_⟩
  · rw [hsplit]
    exact List.mem_append_right _ List.mem_cons_self
  · have hge := (h.child y hc).2.1
    have hlt := hp.tidy.lt y.uid (List.mem_append_left _ (List.mem_map_of_mem hy))
    omega

/-- The event processed last can be rolled back. -/
theorem Turned.undoable (hmap : ∀ i, m.map i = 0) (hp : Settled p) (h : Turned m p x p')
    (hp' : Settled p') (hl : Like p' t) :
    Pe.Undoable m.toSimModel (t.1.shiftPevent 0 x (p.1.queue (.peventQ 0))) x := by
  have hx : t.1.ev x = p'.1.ev x := hl.ev x (h.pevent ▸ List.mem_cons_self)
  obtain ⟨hxm, hnames⟩ := h.names hp
  obtain ⟨l₁, l₂, -, hpq⟩ := h.pq
  refine ⟨?_, ⟨?_, ?_, ?_, ?_⟩, ?_⟩
  · show (t.1.lp x.destLp).suspendFlag = false
    exact (congrArg TwLp.suspendFlag (hl.lp x.destLp)).trans (hp'.awake _)
  · show (t.1.ev x).causedByMe.Nodup
    rw [hx]
    exact h.nodup
  · show ∀ c ∈ (t.1.ev x).causedByMe, c.srcLp = x.destLp
    rw [hx]
    exact fun c hc => (h.child c hc).1
  · intro c _
    exact (hmap _).trans hl.id.symm
  · show ∀ c ∈ (t.1.ev x).causedByMe, (t.1.ev c).owner = .pePq ∨ (t.1.ev c).owner = .peEventQ
    rw [hx]
    intro c hc
    refine .inl (hl.owner c ?_)
    rw [hpq]
    exact List.mem_append_left _ hc
  · show x ∉ (t.1.ev x).causedByMe
    rw [hx]
    exact hnames x (List.mem_append_right _ hxm)

/-- The event goes back to the priority queue. -/
theorem requeueReset_frame (s : Pe T S M R) (x : TwEvent T) :
    (s.afterRollback m.toSimModel x .requeueReset).queue .pq = x :: s.queue .pq ∧
      (s.afterRollback m.toSimModel x .requeueReset).queue (.peventQ 0) = s.queue (.peventQ 0) ∧
      ((s.afterRollback m.toSimModel x .requeueReset).ev x).owner = .pePq ∧
      ∀ y, y ≠ x → (s.afterRollback m.toSimModel x .requeueReset).ev y = s.ev y := by
  refine ⟨?_, ?_, ?_, fun y hy => Function.update_of_ne hy ..⟩
  · show Pool.cons (Pool.remove s.queue .hand x) .pq x .pq = _
    rw [Pool.cons_self, Pool.remove_of_ne (by decide)]
  · show Pool.cons (Pool.remove s.queue .hand x) .pq x (.peventQ 0) = _
    rw [Pool.cons_of_ne (by decide), Pool.remove_of_ne (by decide)]
  · have henq : ∀ s : Pe T S M R, ((s.twPqEnqueue x).ev x).owner = .pePq := fun s => by
      have hself : (s.twPqEnqueue x).ev x = { s.ev x with owner := .pePq } :=
        Function.update_self ..
      rw [hself]
    exact henq _

theorem Turned.like_back {t₁ : Pe T S M R} {o₁ : Outputs}
    (hrng : m.toSimModel.ReversesUnif) (hrev : Undoes m) (hp : Settled p) (h : Turned m p x p')
    (hl : Like p' t) (ho : o₁ = p.2)
    (hu : Pe.Undone m.toSimModel (t.1.shiftPevent 0 x (p.1.queue (.peventQ 0))) x t₁) :
    Like p (t₁.afterRollback m.toSimModel x .requeueReset, o₁) := by
  have hx : t.1.ev x = p'.1.ev x := hl.ev x (h.pevent ▸ List.mem_cons_self)
  obtain ⟨hxm, hnames⟩ := h.names hp
  obtain ⟨l₁, l₂, hsplit, hpq⟩ := h.pq
  obtain ⟨hrpq, hrpe, hrx, hry⟩ := requeueReset_frame (m := m) t₁ x
  set t₀ := t.1.shiftPevent 0 x (p.1.queue (.peventQ 0)) with ht₀
  set chain := (p'.1.ev x).causedByMe with hchain
  have hx₀ : t₀.ev x = p'.1.ev x := hx
  have hlp₀ : (t₀.lp x.destLp).unhooked = (p'.1.lp x.destLp).unhooked := hl.lp x.destLp
  obtain ⟨count, hlp⟩ := h.lp
  have hqueued : t₀.queued chain = chain := by
    refine List.filter_eq_self.mpr fun c hc => decide_eq_true ?_
    refine hl.owner c ?_
    rw [hpq]
    exact List.mem_append_left _ hc
  have hstate : (t₀.reversed m.toSimModel x).state = (p.1.lp x.destLp).curState := by
    have hcur : (t₀.lp x.destLp).curState = (p.1.firstPass m.toSimModel x).state := by
      refine (congrArg TwLp.curState hlp₀).trans ?_
      rw [hlp, Function.update_self]
      rfl
    unfold Pe.reversed
    rw [hcur, hx₀, h.self.1, h.self.2]
    exact hrev ..
  obtain ⟨⟨f, cq, tm, g, r, heq⟩, -, hoff⟩ := hu
  rw [hx₀] at heq hoff
  rw [← hchain, hqueued] at heq
  have hq₁ : t₁.queue = Function.update t₀.queue .pq ((t₀.queue .pq).diff chain) := by rw [heq]
  have hold : ∀ y ∈ p.1.queue (.peventQ 0) ++ p.1.queue .pq, y ≠ x → t₁.ev y = t.1.ev y :=
    fun y hy hne => hoff y hne (hnames y hy)
  have hpeq : ∀ y ∈ p.1.queue (.peventQ 0), y ≠ x := by
    rintro y hy rfl
    exact hp.tidy.uid_ne hy hxm rfl
  constructor
  case id =>
    show t₁.id = 0
    rw [heq]
    exact hl.id
  case lp =>
    intro i
    show (t₁.lp i).unhooked = _
    rw [heq]
    dsimp only
    rw [hstate]
    by_cases hi : i = x.destLp
    · subst hi
      let back (l : TwLp T S R) : TwLp T S R := { l.unhooked with
        curState := (p.1.lp x.destLp).curState
        coreRng := m.randReverseUnif^[(p'.1.ev x).abortedTotal + chain.length]
          l.unhooked.coreRng }
      calc _ = back (t₀.lp x.destLp) := by rw [Function.update_self]; rfl
        _ = back (p'.1.lp x.destLp) := by unfold back; rw [hlp₀]
        _ = (p.1.lp x.destLp).unhooked := by
          unfold back
          rw [hlp, Function.update_self]
          unfold TwLp.unhooked
          rw [← hchain, Pe.reverse_draws hrng]
    · rw [Function.update_of_ne hi]
      refine (hl.lp i).trans ?_
      rw [hlp, Function.update_of_ne hi]
  case pevent =>
    rw [hrpe, hq₁, Function.update_of_ne (by simp)]
    exact Pe.shiftPevent_self ..
  case pq =>
    rw [hrpq, hq₁, Function.update_self, ht₀, shiftPevent_pq, hsplit]
    have hperm := (hl.pq.diff_right chain)
    rw [hpq, Pe.Sending.append_diff_self] at hperm
    exact (hperm.cons x).trans List.perm_middle.symm
  case free =>
    show t₁.freeQ = _
    rw [heq]
    show t.1.freeQ + chain.length = _
    rw [hl.free]
    exact h.free
  case ev =>
    intro y hy
    have hne := hpeq y hy
    rw [hry y hne, hold y (List.mem_append_left _ hy) hne, hl.ev y ?_]
    · exact h.old y hy
    · rw [h.pevent]
      exact List.mem_cons_of_mem x hy
  case owner =>
    intro y hy
    by_cases hne : y = x
    · rw [hne]
      exact hrx
    · rw [hry y hne, hold y (List.mem_append_right _ hy) hne]
      refine hl.owner y ?_
      rw [hsplit] at hy
      rw [hpq]
      refine List.mem_append_right _ ?_
      rcases List.mem_append.mp hy with hy | hy
      · exact List.mem_append_left _ hy
      · exact List.mem_append_right _ ((List.mem_cons.mp hy).resolve_left hne)
  case out => exact ho

/-- Rolling back the event processed last leads to what was there before it. -/
theorem Turned.back (hmap : ∀ i, m.map i = 0)
    (hrng : m.toSimModel.ReversesUnif) (hrev : Undoes m) (hp : Settled p) (h : Turned m p x p')
    (hp' : Settled p') (hl : Like p' t) :
    ∃ q, m.eventRollback (t.1.shiftPevent 0 x (p.1.queue (.peventQ 0)), t.2) x .requeueReset =
        .ok q ∧ Like p (q.1.afterRollback m.toSimModel x .requeueReset, q.2) := by
  have hun := h.undoable hmap hp hp' hl
  have hx : t.1.ev x = p'.1.ev x := hl.ev x (h.pevent ▸ List.mem_cons_self)
  obtain ⟨hxm, hnames⟩ := h.names hp
  obtain ⟨l₁, l₂, hsplit, hpq⟩ := h.pq
  obtain ⟨n, hout, hn⟩ := h.out
  obtain ⟨t₁, hback, hu⟩ := Pe.eventRollback_ok hun .requeueReset
  have ho : t.2.twFreeOutputMessages (some x.uid) = p.2 := by
    rw [hl.out, hout, Outputs.twFree_printed h.noMsg hn]
  have hpair := eventRollback_pair (o := t.2) (fun c hc => ?_) hback
  · refine ⟨_, hpair, ?_⟩
    exact h.like_back hrng hrev hp hl ho hu
  · rw [ho]
    have hc' : c ∈ (p'.1.ev x).causedByMe := hx ▸ hc
    exact (h.child c hc').2.2

end

end Back

/-! ## Before the loop -/

/-- The `init` and `pre_run` handlers are being called. -/
structure Initial (p : Pe T S M R × Outputs) : Prop where
  id : p.1.id = 0
  tidy : Pe.Tidy [] p.1
  cur : p.1.curEvent = none
  awake : ∀ i, (p.1.lp i).suspendFlag = false
  owner : ∀ x ∈ p.1.queue .pq, (p.1.ev x).owner = .pePq
  pevent : p.1.queue (.peventQ 0) = []
  msgs : ∀ u, p.2.outMsgs (some u) = 0

theorem Initial.settled (h : Initial p) : Settled p where
  id := h.id
  tidy := by
    rw [h.pevent]
    exact h.tidy
  awake := h.awake
  owner := h.owner
  msgs u hu := absurd (h.msgs u) hu
  sorted := by
    rw [h.pevent]
    exact .nil
  below a ha := by
    rw [h.pevent] at ha
    exact absurd ha List.not_mem_nil

/-- A send in an `init` handler. -/
theorem Initial.sent {s s' : Pe T S M R} (hmap : ∀ i, m.map i = 0) (h : Initial (s, o)) {i : Nat}
    (hs : s.twEventSend m.toSimModel i = .ok s') :
    (∀ x ∈ s'.queue .pq, (s'.ev x).owner = .pePq) ∧ s'.queue (.peventQ 0) = [] := by
  have hcur : ∀ x, s.curEvent ≠ some x := fun x hx => by
    rw [h.cur] at hx
    cases hx
  rcases Pe.twEventSend_serial (fun i => (hmap i).trans h.id.symm) hs with
    ⟨hi, hs⟩ | ⟨e, msg, hi, hs⟩
  · have hold := fun x => hs.other x (hcur x)
    obtain ⟨g, rfl⟩ := hs.eq
    refine ⟨fun x hx => ?_, h.pevent⟩
    rw [hold x]
    exact h.owner x hx
  · obtain ⟨hnew, hold⟩ := h.tidy.sent_ev hi hs
    obtain ⟨g, acm, t, rfl⟩ := hs.eq
    by_cases hin : s.inOrder m.toSimModel (s.stamp e) = true
    · have hq : s.sentTo m.toSimModel (s.stamp e) = Pool.cons s.queue .pq (s.stamp e) := if_pos hin
      refine ⟨fun x hx => ?_, ?_⟩
      · dsimp only at hx
        rw [hq, Pool.cons_self] at hx
        rcases List.mem_cons.mp hx with rfl | hx
        · rw [hnew, if_pos hin]
        · rw [hold x hx]
          exact h.owner x hx
      · dsimp only
        rw [hq, Pool.cons_of_ne (by decide)]
        exact h.pevent
    · have hq : s.sentTo m.toSimModel (s.stamp e) = Pool.snoc s.queue .eventQ (s.stamp e) :=
        if_neg hin
      refine ⟨fun x hx => ?_, ?_⟩
      · dsimp only at hx
        rw [hq, Pool.snoc_of_ne (by decide)] at hx
        rw [hold x hx]
        exact h.owner x hx
      · dsimp only
        rw [hq, Pool.snoc_of_ne (by decide)]
        exact h.pevent

theorem Initial.handlerOp {s s' : Pe T S M R} (hmap : ∀ i, m.map i = 0) (h : Initial (s, o))
    {lp : Nat} {op : HandlerOp T M} (hop : Pe.isAwake op)
    (hs : s.handlerOp m.toSimModel lp op = .ok s') : Initial (s', o) := by
  have htidy := h.tidy.handlerOp (fun i => (hmap i).trans h.id.symm) hs
  have hkeep := fun i => Pe.handlerOp_suspendFlag hop hs i
  have hid : s'.id = 0 := (Pe.handlerOp_free hs).2.1.trans h.id
  have hq : (∀ x ∈ s'.queue .pq, (s'.ev x).owner = .pePq) ∧ s'.queue (.peventQ 0) = [] := by
    cases op with
    | eventNew destGid offsetTs prio msg =>
        obtain ⟨-, ⟨-, rfl⟩ | ⟨-, -, rfl⟩⟩ := Pe.twEventNewUserPrio_ok hs
        · exact ⟨h.owner, h.pevent⟩
        · exact ⟨h.owner, h.pevent⟩
    | eventSend i => exact h.sent hmap hs
    | lpSuspend b => exact hop.elim
    | triggerGvtHookNow =>
        rcases Pe.twTriggerGvtHookNow_ok hs with rfl | ⟨-, rfl⟩
        · exact ⟨h.owner, h.pevent⟩
        · exact ⟨h.owner, h.pevent⟩
  exact ⟨hid, htidy, (hkeep 0).2.1.trans h.cur, fun i => (hkeep i).1.trans (h.awake i), hq.1, hq.2,
    h.msgs⟩

theorem Initial.calls (hmap : ∀ i, m.map i = 0) {lp : Nat} {cs : List (Option (HandlerOp T M))}
    (hops : ∀ op ∈ cs.reduceOption, Pe.isAwake op) (h : Initial p)
    (hs : m.calls p lp cs = .ok p') : Initial p' := by
  induction cs generalizing p with
  | nil =>
      cases hs
      exact h
  | cons c cs ih =>
      cases c with
      | none =>
          have hcur : p.1.curName = none := by
            unfold Pe.curName
            rw [h.cur]
            rfl
          refine ih (p := (p.1, p.2.twOutput p.1.curName)) hops
            ⟨h.id, h.tidy, h.cur, h.awake, h.owner, h.pevent, fun u => ?_⟩ hs
          rw [hcur]
          unfold Outputs.twOutput
          split
          · exact h.msgs u
          · show Function.update p.2.outMsgs none (p.2.outMsgs none + 1) (some u) = 0
            rw [Function.update_of_ne (Option.some_ne_none u)]
            exact h.msgs u
      | some op =>
          rw [List.reduceOption_cons_of_some] at hops
          obtain ⟨s, hop, hrest⟩ := calls_some hs
          have h' := Initial.handlerOp (o := p.2) hmap h (hops op List.mem_cons_self) hop
          have hmsgs : ∀ u, (p.2.afterOp s op).outMsgs (some u) = 0 := by
            intro u
            cases op with
            | eventNew destGid offsetTs prio msg =>
                show Function.update p.2.outMsgs s.newName 0 (some u) = 0
                by_cases hu : some u = s.newName
                · rw [hu, Function.update_self]
                · rw [Function.update_of_ne hu]
                  exact h.msgs u
            | eventSend i => exact h.msgs u
            | lpSuspend b => exact h.msgs u
            | triggerGvtHookNow => exact h.msgs u
          have hnext : Initial (s, p.2.afterOp s op) :=
            ⟨h'.id, h'.tidy, h'.cur, h'.awake, h'.owner, h'.pevent, hmsgs⟩
          exact ih (fun op hop => hops op (List.mem_cons_of_mem _ hop)) hnext hrest

theorem Initial.initCall (hmap : ∀ i, m.map i = 0) {lp : Nat}
    {f : Nat → S → S × List (HandlerOp T M)} {cs : Nat → S → List (Option (HandlerOp T M))}
    (hops : ∀ lp st, ∀ op ∈ (cs lp st).reduceOption, Pe.isAwake op) (h : Initial p)
    (hs : m.initCall p lp f cs = .ok p') : Initial p' := by
  unfold OutputModel.initCall at hs
  dsimp only at hs
  split at hs
  next q hq =>
    split at hs
    · cases hs
    · cases hs
      have h₀ : Initial (p.1.initEntered lp (f lp (p.1.lp lp).curState).1, p.2) := by
        refine ⟨h.id, h.tidy.initEntered _ _, rfl, fun i => ?_, h.owner, h.pevent, h.msgs⟩
        show (Function.update p.1.lp lp _ i).suspendFlag = false
        by_cases hi : i = lp
        · rw [hi, Function.update_self]
          exact h.awake lp
        · rw [Function.update_of_ne hi]
          exact h.awake i
      exact h₀.calls hmap (hops _ _) hq
  · cases hs

theorem Initial.initAll (hmap : ∀ i, m.map i = 0)
    {f : Nat → S → S × List (HandlerOp T M)} {cs : Nat → S → List (Option (HandlerOp T M))}
    (hops : ∀ lp st, ∀ op ∈ (cs lp st).reduceOption, Pe.isAwake op) {lps : List Nat}
    (h : Initial p) (hs : m.initAll p f cs lps = .ok p') : Initial p' := by
  induction lps generalizing p with
  | nil =>
      cases hs
      exact h
  | cons lp lps ih =>
      unfold OutputModel.initAll at hs
      split at hs
      next q hq => exact ih (h.initCall hmap hops hq) hs
      · cases hs

theorem debugStart_initial (hmap : ∀ i, m.map i = 0) (hns : m.NeverSuspends)
    (hs : m.debugStart = .ok p) : Initial p := by
  have h₀ : Initial (Pe.start m.toSimModel 0 [], Outputs.init) := by
    refine ⟨rfl, Pe.start_tidy _, rfl, fun _ => rfl, fun x hx => absurd hx List.not_mem_nil, rfl,
      fun _ => rfl⟩
  unfold debugStart at hs
  split at hs
  next q hq =>
    have hinit : ∀ lp st, ∀ op ∈ (m.initCalls lp st).reduceOption, Pe.isAwake op := fun lp st => by
      rw [m.initCalls_ops]
      exact hns.init lp st
    have hpre : ∀ lp st, ∀ op ∈ (m.preRunCalls lp st).reduceOption, Pe.isAwake op := fun lp st => by
      rw [m.preRunCalls_ops]
      exact hns.preRun lp st
    exact (h₀.initAll hmap hinit hq).initAll hmap hpre hs
  · cases hs

/-! ## The whole run -/

/-- Every handler of the loop's first `n` turns creates its events in order and sends
them all. -/
def OrderlyRun (m : OutputModel T S M R) (n : Nat) (p₀ : Pe T S M R × Outputs) : Prop :=
  ∀ k < n, ∀ p, m.debugLoop k p₀ = .ok (true, p) → OrderlyTurn m p

/-- `q` stands for the state after the events of the run below `toSig`. -/
structure RolledBack (m : OutputModel T S M R) (n : Nat) (p₀ p : Pe T S M R × Outputs)
    (toSig : TwEventSig T) (q : Pe T S M R × Outputs) (j : Nat) (flag : Bool)
    (pj : Pe T S M R × Outputs) : Prop where
  le : j ≤ n
  run : m.debugLoop j p₀ = .ok (flag, pj)
  like : Like pj q
  below : ∀ e ∈ pj.1.queue (.peventQ 0), e.sig < toSig
  later : ∃ l, p.1.queue (.peventQ 0) = l ++ pj.1.queue (.peventQ 0) ∧ ∀ e ∈ l, toSig ≤ e.sig

/-- From any state that stands for the end of a run the rollback leads to one that
stands for a prefix of the run. -/
theorem debugLoop_rollback (hmap : ∀ i, m.map i = 0) (hkp : ∀ i, m.kpOf i = 0)
    (hrng : m.toSimModel.ReversesUnif) (hrev : Undoes m) (hns : m.NeverSuspends)
    {p₀ : Pe T S M R × Outputs} (h₀ : Settled p₀) (hpe : p₀.1.queue (.peventQ 0) = []) {n : Nat}
    {flag : Bool} (hok : m.OrderlyRun n p₀) (hrun : m.debugLoop n p₀ = .ok (flag, p)) :
    Settled p ∧ ∀ t, Like p t → ∀ toSig fuel, (p.1.queue (.peventQ 0)).length < fuel →
      ∃ q j flag' pj, m.kpRollbackToSig 0 toSig fuel t = .ok (true, q) ∧
        RolledBack m n p₀ p toSig q j flag' pj := by
  induction n generalizing flag p with
  | zero =>
      cases hrun
      refine ⟨h₀, fun t hl toSig fuel hfuel =>
        ⟨t, 0, true, p₀, ?_, ⟨le_rfl, rfl, hl, ?_, [], rfl, ?_⟩⟩⟩
      · obtain ⟨fuel, rfl⟩ := Nat.exists_eq_succ_of_ne_zero (Nat.ne_zero_of_lt hfuel)
        unfold kpRollbackToSig
        rw [hl.pevent, hpe]
      · rw [hpe]
        exact fun e he => absurd he List.not_mem_nil
      · exact fun e he => absurd he List.not_mem_nil
  | succ n ih =>
      have hrun' := hrun
      unfold debugLoop at hrun
      split at hrun
      next p₁ hp₁ =>
        obtain ⟨hs₁, hback⟩ := ih (fun k hk => hok k (hk.trans (Nat.lt_succ_self n))) hp₁
        rcases debugTurn_turned hmap hkp hns.event hs₁ (hok n (Nat.lt_succ_self n) p₁ hp₁) hrun with
          ⟨rfl, rfl⟩ | ⟨x, hturn, hs⟩
        · refine ⟨hs₁, fun t hl toSig fuel hfuel => ?_⟩
          obtain ⟨q, j, flag', pj, hq, hr⟩ := hback t hl toSig fuel hfuel
          exact ⟨q, j, flag', pj, hq, hr.le.trans (Nat.le_succ n), hr.run, hr.like, hr.below,
            hr.later⟩
        · refine ⟨hs, fun t hl toSig fuel hfuel => ?_⟩
          obtain ⟨fuel, rfl⟩ := Nat.exists_eq_succ_of_ne_zero (Nat.ne_zero_of_lt hfuel)
          have hpt : t.1.queue (.peventQ 0) = x :: p₁.1.queue (.peventQ 0) :=
            hl.pevent.trans hturn.pevent
          unfold kpRollbackToSig
          rw [hpt]
          dsimp only
          by_cases hx : toSig ≤ x.sig
          · obtain ⟨⟨t₁, o₁⟩, hq₁, hl₁⟩ := hturn.back hmap hrng hrev hs₁ hs hl
            rw [if_pos (twEventSigComparePtr_nonneg.mpr hx), hq₁]
            rw [hturn.pevent, List.length_cons] at hfuel
            obtain ⟨q, j, flag', pj, hq, hr⟩ :=
              hback _ hl₁ toSig fuel (Nat.lt_of_succ_lt_succ hfuel)
            obtain ⟨l, hl', hlater⟩ := hr.later
            refine ⟨q, j, flag', pj, hq, hr.le.trans (Nat.le_succ n), hr.run, hr.like, hr.below,
              x :: l, ?_, ?_⟩
            · rw [hturn.pevent, hl']
              rfl
            · intro e he
              rcases List.mem_cons.mp he with rfl | he
              · exact hx
              · exact hlater e he
          · rw [if_neg (mt twEventSigComparePtr_nonneg.mp hx)]
            refine ⟨t, n + 1, flag, p, rfl, le_rfl, hrun', hl, ?_, [], rfl,
              fun e he => absurd he List.not_mem_nil⟩
            have hsorted := hs.sorted
            rw [hturn.pevent] at hsorted ⊢
            intro e he
            rcases List.mem_cons.mp he with rfl | he
            · exact not_le.mp hx
            · exact (List.rel_of_pairwise_cons hsorted he).trans_lt (not_le.mp hx)
      · cases hrun
      · cases hrun

/-- The rollback of `tw_scheduler_optimistic_debug` leaves the states and the random
number generators of the LPs, the events in the priority queue and the free buffers
as they were after the events below its signature. -/
theorem full_rollback (m : OutputModel T S M R) (hmap : ∀ i, m.map i = 0)
    (hkp : ∀ i, m.kpOf i = 0) (hrng : m.toSimModel.ReversesUnif) (hrev : Undoes m)
    (hns : m.NeverSuspends) {p₀ p : Pe T S M R × Outputs} (hstart : m.debugStart = .ok p₀)
    {n : Nat} {flag : Bool} (hok : m.OrderlyRun n p₀) (hrun : m.debugLoop n p₀ = .ok (flag, p))
    (toSig : TwEventSig T) {fuel : Nat} (hfuel : (p.1.queue (.peventQ 0)).length < fuel) :
    ∃ q j flag' pj, m.kpRollbackToSig 0 toSig fuel p = .ok (true, q) ∧ j ≤ n ∧
      m.debugLoop j p₀ = .ok (flag', pj) ∧
      (∃ l, p.1.queue (.peventQ 0) = l ++ pj.1.queue (.peventQ 0) ∧
        (∀ e ∈ l, toSig ≤ e.sig) ∧ ∀ e ∈ pj.1.queue (.peventQ 0), e.sig < toSig) ∧
      (∀ i, (q.1.lp i).unhooked = (pj.1.lp i).unhooked) ∧
      (q.1.queue .pq).Perm (pj.1.queue .pq) ∧ q.1.freeQ = pj.1.freeQ ∧
      q.2.output = pj.2.output := by
  have h₀ := debugStart_initial hmap hns hstart
  obtain ⟨hs, hback⟩ := debugLoop_rollback hmap hkp hrng hrev hns h₀.settled h₀.pevent hok hrun
  obtain ⟨q, j, flag', pj, hq, hr⟩ := hback p hs.like toSig fuel hfuel
  obtain ⟨l, hl, hlater⟩ := hr.later
  exact ⟨q, j, flag', pj, hq, hr.le, hr.run, ⟨l, hl, hlater, hr.below⟩, hr.like.lp, hr.like.pq,
    hr.like.free, by rw [hr.like.out]⟩

/-- An LP whose every event prints a line and sends it the next one. -/
def printModel : OutputModel Int Nat Nat Nat :=
  { SerialModel.tickModel.toSimModel with
    freeBuffers := 2000
    revent := fun _ _ st cv msg => ⟨st - 1, cv, msg, 0⟩
    initCalls := fun _ _ => [some (.eventNew 0 1 1 0), some (.eventSend 0)]
    preRunCalls := fun _ _ => []
    eventCalls := fun _ _ _ _ _ => [none, some (.eventNew 0 3 1 0), some (.eventSend 0)]
    initCalls_ops := fun _ _ => rfl
    preRunCalls_ops := fun _ _ => rfl
    eventCalls_ops := fun _ _ _ _ _ => rfl }

/-- No message waits on the abort event. -/
theorem printModel_waiting : ∀ k < 3, (match printModel.debugStart with
    | .ok p₀ => match printModel.debugLoop k p₀ with
      | .ok (_, p) => decide (p.2.outMsgs none = 0)
      | .error _ => true
    | .error _ => true) = true := by decide +kernel

theorem printModel_orderly {p₀ : Pe Int Nat Nat Nat × Outputs}
    (hs : printModel.debugStart = .ok p₀) :
    printModel.OrderlyRun 3 p₀ := by
  intro k hk p hp x s _
  have hw := printModel_waiting k hk
  rw [hs] at hw
  dsimp only at hw
  rw [hp] at hw
  have hwait : p.2.outMsgs none = 0 := of_decide_eq_true hw
  refine ⟨?_, fun i hi => ?_⟩
  · show if x.sig.recvTs + 3 < (100 : Int) ∧ 0 < s.freeQ then _ else _
    split
    · refine ⟨le_of_lt (TwEventSig.lt_iff.mpr (.inl ?_)), trivial⟩
      show x.sig.recvTs < x.sig.recvTs + 3
      omega
    · exact ⟨hwait, trivial⟩
  · have hone : i < 1 := hi
    rw [Nat.lt_one_iff.mp hone]
    exact List.mem_cons_of_mem _ List.mem_cons_self

theorem full_rollback_prints : ∃ p₀ p q j flag pj, printModel.debugStart = .ok p₀ ∧
    printModel.debugLoop 3 p₀ = .ok (true, p) ∧ p.1.freeQ = 1996 ∧ p.2.output = 1997 ∧
    printModel.kpRollbackToSig 0 ⟨2, 0, []⟩ 4 p = .ok (true, q) ∧
    printModel.debugLoop j p₀ = .ok (flag, pj) ∧
    (∀ i, (q.1.lp i).unhooked = (pj.1.lp i).unhooked) ∧
    (q.1.queue .pq).Perm (pj.1.queue .pq) ∧ q.1.freeQ = pj.1.freeQ ∧
    q.2.output = pj.2.output := by
  have hrun : (match printModel.debugStart with
      | .ok p₀ => match printModel.debugLoop 3 p₀ with
        | .ok (flag, p) => decide (flag = true ∧ p.1.freeQ = 1996 ∧ p.2.output = 1997 ∧
            (p.1.queue (.peventQ 0)).length < 4)
        | .error _ => false
      | .error _ => false) = true := by decide +kernel
  split at hrun
  next p₀ hs =>
    split at hrun
    next flag p hp =>
      obtain ⟨rfl, hfree, hout, hlen⟩ := of_decide_eq_true hrun
      have hops : ∀ off, ∀ op ∈ [HandlerOp.eventNew 0 off 1 0, .eventSend 0],
          Pe.isAwake (op : HandlerOp Int Nat) := by
        intro off op hop
        rcases List.mem_cons.mp hop with rfl | hop
        · trivial
        · rw [List.mem_singleton.mp hop]
          trivial
      have hns : printModel.NeverSuspends :=
        ⟨fun _ _ _ _ _ => hops 3, fun _ _ => hops 1, fun _ _ _ hop => absurd hop List.not_mem_nil⟩
      obtain ⟨q, j, flag, pj, hq, -, hj, -, hlp, hpq, hf, ho⟩ :=
        full_rollback printModel (fun _ => rfl) (fun _ => rfl) (fun r => Nat.add_sub_cancel r 1)
          (fun _ _ st _ => Nat.add_sub_cancel st 1) hns hs (printModel_orderly hs) hp ⟨2, 0, []⟩
          hlen
      exact ⟨p₀, p, q, j, flag, pj, hs, hp, hfree, hout, hq, hj, hlp, hpq, hf, ho⟩
    · cases hrun
  · cases hrun

/-! ## Time that rounds -/

/-- Time whose sums are multiples of four from eight on. -/
structure CoarseTime where
  units : Int
deriving DecidableEq

instance : LinearOrder CoarseTime :=
  LinearOrder.lift' CoarseTime.units fun a b h => by
    cases a
    cases b
    exact congrArg CoarseTime.mk h

instance : TwStime CoarseTime where
  add a b := if a.units + b.units < 8 then ⟨a.units + b.units⟩
    else ⟨a.units + b.units - (a.units + b.units) % 4⟩
  sub a b := ⟨a.units - b.units⟩
  zero := ⟨0⟩
  one := ⟨1⟩
  stimeMax := ⟨1000000⟩

/-- An LP that sends itself an event at eight and from there one after a time that
rounding absorbs; its random numbers get smaller. -/
def coarseModel : OutputModel CoarseTime Nat Nat Nat where
  synch := .optimisticDebug
  npe := 1
  nkp := 1
  tsEnd := ⟨100⟩
  lookahead := ⟨1⟩
  maxOptLookahead := ⟨1000⟩
  mblock := 16
  gvtInterval := 16
  readBuffer := 1
  sendBuffer := 1
  freeBuffers := 2000
  gvtHook := false
  trigger0 := ⟨.disabled, zeroSig, 0, 0⟩
  avlTree := true
  lps _ := [0]
  map _ := 0
  kpOf _ := 0
  init _ st := (st, [.eventNew 0 ⟨8⟩ 1 0, .eventSend 0])
  preRun _ st := (st, [])
  event _ _ st cv msg := ⟨st + 1, cv, msg, [.eventNew 0 1 1 0, .eventSend 0]⟩
  revent _ _ st cv msg := ⟨st - 1, cv, msg, 0⟩
  randUnif r := (⟨1 - r⟩, r + 1)
  randReverseUnif r := r - 1
  zeroMsg := 0
  lpState0 _ := 0
  coreRng0 _ := 0
  initCalls _ _ := [some (.eventNew 0 ⟨8⟩ 1 0), some (.eventSend 0)]
  preRunCalls _ _ := []
  eventCalls _ _ _ _ _ := [some (.eventNew 0 1 1 0), some (.eventSend 0)]
  initCalls_ops _ _ := rfl
  preRunCalls_ops _ _ := rfl
  eventCalls_ops _ _ _ _ _ := rfl

/-- The event sent to `event_q` keeps its buffer after the rollback. -/
theorem debug_rollback_loses_buffer :
    coarseModel.DefaultEvents ∧ coarseModel.NeverSuspends ∧ Undoes coarseModel ∧
      coarseModel.toSimModel.ReversesUnif ∧
      ∃ p₀ p q, coarseModel.debugStart = .ok p₀ ∧ coarseModel.debugLoop 1 p₀ = .ok (true, p) ∧
        coarseModel.kpRollbackToSig 0 ⟨1, 0, []⟩ 2 p = .ok (true, q) ∧
        q.1.queue (.peventQ 0) = [] ∧ q.1.freeQ + 1 = p₀.1.freeQ := by
  have hops : ∀ off, ∀ op ∈ [HandlerOp.eventNew 0 off 1 0, .eventSend 0],
      (op : HandlerOp CoarseTime Nat).isDefault ∧ Pe.isAwake op := by
    intro off op hop
    rcases List.mem_cons.mp hop with rfl | hop
    · exact ⟨rfl, trivial⟩
    · rw [List.mem_singleton.mp hop]
      exact ⟨trivial, trivial⟩
  refine ⟨⟨fun _ _ _ _ _ op hop => (hops 1 op hop).1, fun _ _ op hop => (hops ⟨8⟩ op hop).1,
      fun _ _ _ hop => absurd hop List.not_mem_nil⟩,
    ⟨fun _ _ _ _ _ op hop => (hops 1 op hop).2, fun _ _ op hop => (hops ⟨8⟩ op hop).2,
      fun _ _ _ hop => absurd hop List.not_mem_nil⟩,
    fun _ _ st _ => Nat.add_sub_cancel st 1, fun r => Nat.add_sub_cancel r 1, ?_⟩
  have hrun : (match coarseModel.debugStart with
      | .ok p₀ => match coarseModel.debugLoop 1 p₀ with
        | .ok (flag, p) => match coarseModel.kpRollbackToSig 0 ⟨1, 0, []⟩ 2 p with
          | .ok (done, q) => decide (flag = true ∧ done = true ∧ q.1.queue (.peventQ 0) = [] ∧
              q.1.freeQ + 1 = p₀.1.freeQ)
          | .error _ => false
        | .error _ => false
      | .error _ => false) = true := by decide +kernel
  split at hrun
  next p₀ hs =>
    split at hrun
    next flag p hp =>
      split at hrun
      next fin q hq =>
        obtain ⟨rfl, rfl, hpe, hfree⟩ := of_decide_eq_true hrun
        exact ⟨p₀, p, q, hs, hp, hq, hpe, hfree⟩
      · cases hrun
    · cases hrun
  · cases hrun

end OutputModel

end Ross

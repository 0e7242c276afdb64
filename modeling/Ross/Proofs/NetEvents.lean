import Mathlib.Algebra.BigOperators.Group.List.Basic
import Ross.Proofs.RollbackCheck
import Ross.Proofs.RunEnd

/-!
# Net events

In every scheduler `s_nevent_processed` less `s_e_rbs` of a KP is the number of events in its
`pevent_q` and of its committed events, so `s_net_events` is the number of committed events once
no processed event is left.
-/

namespace Ross

open Transition

variable {T S M R : Type} [TwStime T]

/-! ## Sums over the KPs -/

/-- A KP's counters differ by the number of events in a list and by those of another one that
are for its LPs. -/
def EventCounts.Nets (m : SimModel T S M R) (c : EventCounts) (s : Pe T S M R) (k : Nat) : Prop :=
  (c.sNeventProcessed k : Int) - c.sERbs k =
    (s.queue (.peventQ k)).length + Pe.ofKp m k s.commits

section

omit [TwStime T]

theorem sum_map_ite (j n : Nat) :
    ((List.range n).map fun k => if j = k then 1 else 0).sum = if j < n then 1 else 0 := by
  induction n with
  | zero => rfl
  | succ n ih =>
      rw [List.range_succ, List.map_append, List.sum_append, ih]
      simp only [List.map_cons, List.map_nil, List.sum_cons, List.sum_nil]
      split_ifs <;> omega

/-- Every event is of one KP. -/
theorem Pe.sum_ofKp (m : SimModel T S M R) (hkp : ∀ lp, m.kpOf lp < m.nkp)
    (l : List (TwEvent T)) : ((List.range m.nkp).map fun k => Pe.ofKp m k l).sum = l.length := by
  induction l with
  | nil => simp
  | cons e l ih =>
      simp only [Pe.ofKp_cons]
      rw [List.sum_map_add, ih, sum_map_ite, if_pos (hkp e.destLp), List.length_cons]

/-- `s_net_events` of a PE whose KPs have no processed event left. -/
theorem EventCounts.sNetEvents_eq {m : SimModel T S M R} (hkp : ∀ lp, m.kpOf lp < m.nkp)
    {c : EventCounts} {s : Pe T S M R} (hnet : ∀ k, c.Nets m s k)
    (hq : ∀ k < m.nkp, s.queue (.peventQ k) = []) : c.sNetEvents m.nkp = s.commits.length := by
  have hsum : ∀ n ≤ m.nkp, c.sNetEvents n =
      ((List.range n).map fun k => Pe.ofKp m k s.commits).sum := by
    intro n hn
    induction n with
    | zero => rfl
    | succ n ih =>
        have hprev := ih (Nat.le_of_succ_le hn)
        have hk := hnet n
        unfold EventCounts.Nets at hk
        rw [hq n hn, List.length_nil] at hk
        unfold EventCounts.sNetEvents at hprev ⊢
        simp only [List.range_succ, List.map_append, List.sum_append, List.map_cons, List.map_nil,
          List.sum_cons, List.sum_nil]
        omega
  rw [hsum m.nkp le_rfl, Pe.sum_ofKp m hkp]

end

/-! ## The optimistic schedulers -/

namespace System

variable {m : SimModel T S M R}

/-- The states of all runs, with the counters of each PE. -/
def CountedRun (m : SimModel T S M R) : System T S M R × (Nat → EventCounts) → Prop :=
  Recorded (countEvents m) (· = start m) (fun a l b => a.step m l = .ok b) fun _ => .zero

/-- What holds of a PE with its counters and its last test. -/
structure CountedPe (m : SimModel T S M R) (s : Pe T S M R) (c : EventCounts)
    (g : Option (WindowTest T S M R)) : Prop where
  tested : TestedPe m g s
  inTime : s.InTime m
  finishing : Finishing m g s
  balanced : s.Balanced m c

namespace CountedPe

variable {s s' : Pe T S M R} {c : EventCounts} {g : Option (WindowTest T S M R)}

/-- A step of a PE's own program, or the arrival of a message. -/
theorem step (hm : m.synch = .optimistic ∨ m.synch = .optimisticRealtime)
    (h : CountedPe m s c g) {i : Input T M} (hi : ∀ c, i ≠ .call c)
    (hw : ∀ src w, i = .recv src w → w.ev.InTime m) (hs : s.step m i = .ok s') :
    CountedPe m s' (s.countEvents m c) (s.noteTest s' g) where
  tested := h.tested.step hi hs
  inTime := h.inTime.step hw hs
  finishing := h.finishing.step hm h.tested h.inTime hi hs
  balanced := by
    refine h.balanced.step (Pe.Flow.of_step (fun left lp ops hp => ?_) hs)
    exact (h.finishing.handler _ _ _ _ hp).1 rfl

/-- A reduction is not counted. -/
theorem reduceDone (h : CountedPe m s c g) {r : Reduction} (hat : s.At (.reduce r))
    (o : Outcome T) : CountedPe m (s.reduceDone r o) c g where
  tested := h.tested.reduceDone hat o
  inTime := h.inTime.reduceDone r o
  finishing := h.finishing.reduceDone hat o
  balanced := by
    obtain ⟨hk, hr⟩ := Pe.Flow.reduceDone s r o
    refine h.balanced.keep hk ?_ ?_
    · unfold Pe.undoing
      rw [hr]
    · rintro ⟨-, kp, children, hp⟩
      cases hat.2.2.symm.trans hp

/-- The counters of a PE agree with its queues when no rollback is in progress and no fossil
collection. -/
theorem nets (h : CountedPe m s c g) (hr : s.rollback = none)
    (hp : ∀ kp children, s.phase ≠ .fossilCollect kp children) (k : Nat) : c.Nets m s k := by
  have hcol : ¬ s.Collecting := by
    rintro ⟨-, kp, children, hphase⟩
    exact hp kp children hphase
  have hcount := h.balanced.count k
  have hu : s.undoing = none := by
    unfold Pe.undoing
    rw [hr]
    rfl
  rw [h.balanced.fossil_nil hcol, hu, Pe.ofKp_nil, Option.toList_none, Pe.ofKp_nil] at hcount
  unfold EventCounts.Nets
  omega

/-- A PE whose scheduler has returned counts its committed events. -/
theorem finished (h : CountedPe m s c g) (hkp : ∀ lp, m.kpOf lp < m.nkp) (ht : s.todo = []) :
    c.sNetEvents m.nkp = s.commits.length := by
  obtain ⟨hat, hpast⟩ := h.finishing.ended ht
  have hcol : s.phase.collects = false := by rw [hat.2.2]; rfl
  refine EventCounts.sNetEvents_eq hkp (fun k => h.nets hat.2.1 (fun kp children hp => ?_) k)
    (h.finishing.empty hcol (.inl hpast))
  cases hat.2.2.symm.trans hp

end CountedPe

section

omit [TwStime T]

theorem countEvents_self {s s' : System T S M R} {l : SystemInput T M} {i : Nat}
    (hl : l.actor = some i) (c : Nat → EventCounts) :
    s.countEvents m l s' c i = (s i).countEvents m (c i) := by
  cases l with
  | pe j inp =>
      cases hl
      exact Function.update_self ..
  | deliver j src =>
      cases hl
      exact Function.update_self ..
  | reduce r => cases hl

theorem countEvents_of_ne {s s' : System T S M R} {l : SystemInput T M} {i : Nat}
    (hl : l.actor ≠ some i) (c : Nat → EventCounts) : s.countEvents m l s' c i = c i := by
  cases l with
  | pe j inp => exact Function.update_of_ne (fun hi => hl (congrArg some hi.symm)) ..
  | deliver j src => exact Function.update_of_ne (fun hi => hl (congrArg some hi.symm)) ..
  | reduce r => rfl

end

/-- A step of the system, with the counters and the last tests of all PEs. -/
theorem countedPe_step (hm : m.synch = .optimistic ∨ m.synch = .optimisticRealtime)
    {s s' : System T S M R} {l : SystemInput T M} {c : Nat → EventCounts}
    {g : Nat → Option (WindowTest T S M R)} (h : ∀ i, CountedPe m (s i) (c i) (g i))
    (hs : s.step m l = .ok s') (i : Nat) :
    CountedPe m (s' i) (s.countEvents m l s' c i) (s.noteTests l s' g i) := by
  cases step_of hs i with
  | own hl hc hw hp =>
      rw [countEvents_self hl, noteTests_self hl]
      refine (h i).step hm hc (fun src w hrecv => ?_) hp
      obtain ⟨x, hx, hxw⟩ := inFlight_mem (hw src w hrecv)
      exact hxw ▸ (h src).inTime.wire x hx
  | reduced hne hat hi =>
      rw [countEvents_of_ne hne, noteTests_of_ne hne, hi]
      exact (h i).reduceDone hat _
  | other hne hi =>
      rw [countEvents_of_ne hne, noteTests_of_ne hne, hi]
      exact h i

/-- In every run of an optimistic scheduler the counters of each PE fit its state. -/
theorem CountedRun.countedPe (hm : m.synch = .optimistic ∨ m.synch = .optimisticRealtime)
    {a : System T S M R × (Nat → EventCounts)} (h : CountedRun m a) (i : Nat) :
    ∃ g, CountedPe m (a.1 i) (a.2 i) g := by
  have htests : ∃ g, Recorded (fun s l s' r => (s.countEvents m l s' r.1, s.noteTests l s' r.2))
      (· = start m) (fun a l b => a.step m l = .ok b) (fun _ => .zero, fun _ => none)
      (a.1, a.2, g) := h.pair
  obtain ⟨g, hg⟩ := htests
  refine ⟨g i, ReachableVia.invariant
    (P := fun a => ∀ i, CountedPe m (a.1 i) (a.2.1 i) (a.2.2 i)) ?_ ?_ hg i⟩
  · rintro ⟨s, c, g⟩ ⟨rfl, hrec⟩ i
    cases hrec
    exact ⟨TestedPe.start hm i, Pe.InTime.start m i _, Finishing.start hm i,
      Pe.Balanced.start m i _⟩
  · rintro ⟨s, c, g⟩ l ⟨s', c', g'⟩ hinv - ⟨hs, hrec⟩ i
    have hc : c' = s.countEvents m l s' c := congrArg Prod.fst hrec
    have hg : g' = s.noteTests l s' g := congrArg Prod.snd hrec
    rw [hc, hg]
    exact countedPe_step hm hinv hs i

end System

/-! ## The schedulers of one PE -/

namespace Pe

variable {m : SimModel T S M R} {s s' : Pe T S M R}

/-- The processed events and the committed ones are the same. -/
def SameProcessed (s s' : Pe T S M R) : Prop :=
  (∀ k, s'.queue (.peventQ k) = s.queue (.peventQ k)) ∧ s'.commits = s.commits

section

omit [TwStime T]

theorem SameProcessed.trans {s₁ s₂ s₃ : Pe T S M R} (h : SameProcessed s₁ s₂)
    (h' : SameProcessed s₂ s₃) : SameProcessed s₁ s₃ :=
  ⟨fun k => (h'.1 k).trans (h.1 k), h'.2.trans h.2⟩

theorem KeepsProcessed.same (h : KeepsProcessed s s') : SameProcessed s s' :=
  ⟨h.pevent, h.commits⟩

end

theorem runOps_same {lp : Nat} {ops : List (HandlerOp T M)} (h : s.runOps m lp ops = .ok s') :
    SameProcessed s s' := by
  have hkeep := runOps_keeps (fun s => (fun k => s.queue (.peventQ k), s.commits))
    (fun s s' _ _ hop => by
      obtain ⟨hk, -⟩ := Flow.handlerOp hop
      exact Prod.ext (funext hk.pevent) hk.commits) h
  exact ⟨congrFun (congrArg Prod.fst hkeep), congrArg Prod.snd hkeep⟩

theorem forward_same {cev : TwEvent T} (h : s.forward m cev = .ok s') : SameProcessed s s' := by
  unfold forward at h
  obtain ⟨hq, hc⟩ := runOps_same h
  exact ⟨hq, hc⟩

theorem rollbackChild_same {r : Rollback T} {e : TwEvent T} {rest : List (TwEvent T)}
    (h : s.rollbackChild m r e rest = .ok s') : SameProcessed s s' := by
  obtain ⟨_, _, _, _, _, _, _, _, hq, -, -, rfl⟩ := rollbackChild_frame h
  exact ⟨hq, rfl⟩

theorem rollbackChildren_same {r : Rollback T} {children : List (TwEvent T)}
    (h : s.rollbackChildren m r children = .ok s') : SameProcessed s s' := by
  induction children generalizing s with
  | nil =>
      cases h
      exact ⟨fun _ => rfl, rfl⟩
  | cons e rest ih =>
      unfold rollbackChildren at h
      split at h
      next s₁ hs₁ => exact (rollbackChild_same hs₁).trans (ih h)
      · cases h

theorem eventRollback_same {event : TwEvent T} {after : RollbackAfter}
    (h : s.eventRollback m event after = .ok s') : SameProcessed s s' := by
  obtain ⟨hstart, -⟩ := Flow.twEventRollback (m := m) s event after
  unfold eventRollback at h
  dsimp only at h
  split at h
  next s₁ hs₁ =>
    cases h
    exact (hstart.same.trans (rollbackChildren_same hs₁)).trans ⟨fun _ => rfl, rfl⟩
  · cases h

theorem initCalls_same {f : Nat → S → S × List (HandlerOp T M)} {lps : List Nat}
    (h : s.initCalls m f lps = .ok s') : SameProcessed s s' := by
  induction lps generalizing s with
  | nil =>
      cases h
      exact ⟨fun _ => rfl, rfl⟩
  | cons lp lps ih =>
      unfold initCalls at h
      split at h
      next s₁ hs₁ =>
        refine SameProcessed.trans ?_ (ih h)
        unfold initCall at hs₁
        dsimp only at hs₁
        split at hs₁
        next s₂ hs₂ =>
          split at hs₁
          · cases hs₁
          · cases hs₁
            obtain ⟨hq, hc⟩ := runOps_same hs₂
            exact ⟨hq, hc⟩
        · cases hs₁
      · cases h

/-- A serial scheduler starts without processed or committed events. -/
theorem serialStart_same (h : serialStart m = .ok s) :
    (∀ k, s.queue (.peventQ k) = []) ∧ s.commits = [] := by
  unfold serialStart at h
  split at h
  next s₁ hs₁ =>
    obtain ⟨hq, hc⟩ := (initCalls_same hs₁).trans (initCalls_same h)
    exact ⟨hq, hc⟩
  · cases h

end Pe

/-! ## Sequential runs -/

namespace SerialModel

variable (m : SerialModel T S M R)

/-- The runs of `tw_scheduler_sequential` with their counters. -/
def CountedSequential : (Bool × Pe T S M R) × EventCounts → Prop :=
  Recorded (fun p arm _ c => p.2.countTurn m.toSimModel .sequential arm c)
    (fun p => (Pe.serialStart m.toSimModel).map (Prod.mk true) = .ok p)
    (fun p arm q => m.sequentialStep p arm = .ok q) .zero

/-- The runs of `tw_scheduler_sequential_rollback_check` with their counters. -/
def CountedRollbackCheck [DecidableEq S] [DecidableEq R] :
    (Bool × Pe T S M R) × EventCounts → Prop :=
  Recorded (fun p arm _ c => p.2.countTurn m.toSimModel .rollbackCheck arm c)
    (fun p => (Pe.serialStart m.toSimModel).map (Prod.mk true) = .ok p)
    (fun p arm q => m.rollbackCheckStep p arm = .ok q) .zero

/-- The runs of `tw_scheduler_optimistic_debug`, which rolls back to `toSig`, with their
counters. -/
def CountedDebug (toSig : TwEventSig T) : (Bool × Pe T S M R) × EventCounts → Prop :=
  Recorded (fun p (_ : Unit) _ c => Pe.countDebug m.toSimModel toSig p c)
    (fun p => (Pe.serialStart m.toSimModel).map (Prod.mk true) = .ok p)
    (fun p _ q => Pe.debugStep m toSig p = .ok q) .zero

variable {m}

/-- Every event of a KP that was counted and not undone has been committed. -/
def Settled (m : SerialModel T S M R) (p : Bool × Pe T S M R) (c : EventCounts) : Prop :=
  (∀ k, p.2.queue (.peventQ k) = []) ∧ ∀ k, c.Nets m.toSimModel p.2 k

omit [TwStime T] in
/-- An event that is counted once and committed. -/
theorem nets_commit {m : SimModel T S M R} {s s' : Pe T S M R} {c c' : EventCounts}
    {cev : TwEvent T} (hq : ∀ k, s'.queue (.peventQ k) = s.queue (.peventQ k))
    (hcom : s'.commits = s.commits ++ [cev])
    (hcount : ∀ k, (c'.sNeventProcessed k : Int) - c'.sERbs k =
      c.sNeventProcessed k - c.sERbs k + if m.kpOf cev.destLp = k then 1 else 0)
    {k : Nat} (h : c.Nets m s k) : c'.Nets m s' k := by
  unfold EventCounts.Nets at h ⊢
  rw [hcount, hq, hcom, Pe.ofKp_append, Pe.ofKp_cons, Pe.ofKp_nil, h]
  split_ifs <;> omega

/-- What a turn of a sequential loop does: it commits the event that it counts. -/
theorem serialTurn_settled {body : Pe T S M R → TwEvent T → Except TwError (Pe T S M R)}
    {count : EventCounts → Nat → EventCounts}
    (hbody : ∀ {s s' cev}, body s cev = .ok s' →
      (∀ k, s'.queue (.peventQ k) = s.queue (.peventQ k)) ∧ s'.commits = s.commits ++ [cev])
    (hcount : ∀ c kp k, ((count c kp).sNeventProcessed k : Int) - (count c kp).sERbs k =
      c.sNeventProcessed k - c.sERbs k + if kp = k then 1 else 0)
    {p q : Bool × Pe T S M R} {arm : Option (GvtHookTrigger T)} {c : EventCounts}
    (h : Settled m p c) (hs : Pe.serialTurn m body p.2 arm = .ok q) :
    Settled m q (p.2.countTurn m.toSimModel count arm c) := by
  obtain ⟨hnil, hnet⟩ := h
  unfold Pe.serialTurn at hs
  unfold Pe.countTurn
  cases hn : p.2.nextEvent m.toSimModel arm with
  | error e =>
      rw [hn] at hs
      cases hs
  | ok r =>
      obtain ⟨o, s₁⟩ := r
      rw [hn] at hs
      obtain ⟨t, g, hnext⟩ := Pe.nextEvent_ok hn
      have hsame : (∀ k, s₁.queue (.peventQ k) = p.2.queue (.peventQ k)) ∧
          s₁.commits = p.2.commits := by
        rcases hnext with ⟨-, rfl, -⟩ | ⟨cev, -, -, rfl⟩
        · exact ⟨fun _ => rfl, rfl⟩
        · exact ⟨fun _ => rfl, rfl⟩
      cases o with
      | none =>
          cases hs
          refine ⟨fun k => (hsame.1 k).trans (hnil k), fun k => ?_⟩
          have hk := hnet k
          unfold EventCounts.Nets at hk ⊢
          rw [hsame.1, hsame.2]
          exact hk
      | some cev =>
          dsimp only at hs
          cases hb : body s₁ cev with
          | error e =>
              rw [hb] at hs
              cases hs
          | ok s' =>
              rw [hb] at hs
              cases hs
              obtain ⟨hq, hcom⟩ := hbody hb
              have hq' : ∀ k, s'.queue (.peventQ k) = p.2.queue (.peventQ k) := fun k =>
                (hq k).trans (hsame.1 k)
              rw [hsame.2] at hcom
              exact ⟨fun k => (hq' k).trans (hnil k), fun k =>
                nets_commit hq' hcom (hcount c (m.kpOf cev.destLp)) (hnet k)⟩

theorem sequentialBody_commits {s s' : Pe T S M R} {cev : TwEvent T}
    (h : Pe.sequentialBody m s cev = .ok s') :
    (∀ k, s'.queue (.peventQ k) = s.queue (.peventQ k)) ∧ s'.commits = s.commits ++ [cev] := by
  unfold Pe.sequentialBody at h
  split at h
  · cases h
  next s₁ hs₁ =>
    split at h
    · cases h
    · cases h
      obtain ⟨hq, hcom⟩ := Pe.forward_same hs₁
      refine ⟨hq, ?_⟩
      show s₁.commits ++ [cev] = s.commits ++ [cev]
      rw [hcom]
      rfl

theorem rollbackCheckBody_commits [DecidableEq S] [DecidableEq R] {s s' : Pe T S M R}
    {cev : TwEvent T} (h : Pe.rollbackCheckBody m s cev = .ok s') :
    (∀ k, s'.queue (.peventQ k) = s.queue (.peventQ k)) ∧ s'.commits = s.commits ++ [cev] := by
  unfold Pe.rollbackCheckBody at h
  dsimp only at h
  split at h
  · cases h
  next s₁ hs₁ =>
    split at h
    · cases h
    split at h
    · cases h
    next s₂ hs₂ =>
      split at h
      · cases h
      split at h
      · cases h
      next s₃ hs₃ =>
        split at h
        · cases h
        split at h
        · cases h
        · cases h
          obtain ⟨hq, hcom⟩ := ((Pe.forward_same hs₁).trans (Pe.eventRollback_same hs₂)).trans
            (Pe.forward_same hs₃)
          refine ⟨hq, ?_⟩
          show s₃.commits ++ [cev] = s.commits ++ [cev]
          rw [hcom]
          rfl

/-- An event of the sequential scheduler counts for its KP. -/
theorem sequential_count (c : EventCounts) (kp k : Nat) :
    ((c.sequential kp).sNeventProcessed k : Int) - (c.sequential kp).sERbs k =
      c.sNeventProcessed k - c.sERbs k + if kp = k then 1 else 0 := by
  unfold EventCounts.sequential
  rw [Pe.process_at]
  show _ - (c.sERbs k : Int) = _
  split_ifs <;> push_cast <;> omega

/-- Of the two executions in the rollback check one is rolled back. -/
theorem rollbackCheck_count (c : EventCounts) (kp k : Nat) :
    ((c.rollbackCheck kp).sNeventProcessed k : Int) - (c.rollbackCheck kp).sERbs k =
      c.sNeventProcessed k - c.sERbs k + if kp = k then 1 else 0 := by
  unfold EventCounts.rollbackCheck
  rw [Pe.process_at]
  show ((c.sNeventProcessed k + _ : Nat) : Int) - ((c.rollBack kp).sERbs k : Int) = _
  rw [Pe.rollBack_at]
  split_ifs <;> push_cast <;> omega

theorem start_settled {p : Bool × Pe T S M R}
    (h : (Pe.serialStart m.toSimModel).map (Prod.mk true) = .ok p) : Settled m p .zero := by
  cases hs : Pe.serialStart m.toSimModel with
  | error e =>
      rw [hs] at h
      cases h
  | ok s =>
      rw [hs] at h
      cases h
      obtain ⟨hq, hcom⟩ := Pe.serialStart_same hs
      refine ⟨hq, fun k => ?_⟩
      unfold EventCounts.Nets
      rw [hq, hcom]
      rfl

theorem CountedSequential.settled {a : (Bool × Pe T S M R) × EventCounts}
    (h : m.CountedSequential a) : Settled m a.1 a.2 := by
  refine ReachableVia.invariant (P := fun a => Settled m a.1 a.2) ?_ ?_ h
  · rintro ⟨p, c⟩ ⟨hp, rfl⟩
    exact start_settled hp
  · rintro ⟨p, c⟩ arm ⟨q, c'⟩ hinv - ⟨hs, hc⟩
    dsimp only at hs hc hinv ⊢
    rw [hc]
    unfold sequentialStep at hs
    split at hs
    · exact serialTurn_settled sequentialBody_commits sequential_count hinv hs
    · cases hs

theorem CountedRollbackCheck.settled [DecidableEq S] [DecidableEq R]
    {a : (Bool × Pe T S M R) × EventCounts} (h : m.CountedRollbackCheck a) :
    Settled m a.1 a.2 := by
  refine ReachableVia.invariant (P := fun a => Settled m a.1 a.2) ?_ ?_ h
  · rintro ⟨p, c⟩ ⟨hp, rfl⟩
    exact start_settled hp
  · rintro ⟨p, c⟩ arm ⟨q, c'⟩ hinv - ⟨hs, hc⟩
    dsimp only at hs hc hinv ⊢
    rw [hc]
    unfold rollbackCheckStep at hs
    split at hs
    · exact serialTurn_settled rollbackCheckBody_commits rollbackCheck_count hinv hs
    · cases hs

/-! ## The optimistic debug scheduler -/

/-- The processed events are in the queues of their KPs, and counted. -/
structure Kept (m : SimModel T S M R) (s : Pe T S M R) (c : EventCounts) : Prop where
  kp : ∀ k, ∀ e ∈ s.queue (.peventQ k), m.kpOf e.destLp = k
  nets : ∀ k, c.Nets m s k

section Kept

variable {n : SimModel T S M R} {s s' : Pe T S M R} {c : EventCounts}

section

omit [TwStime T]

theorem Kept.same (h : Kept n s c) (hs : s.SameProcessed s') : Kept n s' c where
  kp k e he := h.kp k e (hs.1 k ▸ he)
  nets k := by
    have hk := h.nets k
    unfold EventCounts.Nets at hk ⊢
    rw [hs.1, hs.2]
    exact hk

/-- An event joins the processed events of its KP. -/
theorem Kept.join (h : Kept n s c) {cev : TwEvent T}
    (hq : ∀ k, s'.queue (.peventQ k) =
      Pool.cons s.queue (.peventQ (n.kpOf cev.destLp)) cev (.peventQ k))
    (hcom : s'.commits = s.commits) : Kept n s' (c.process (n.kpOf cev.destLp) 1) where
  kp k e he := by
    rw [hq] at he
    rcases Pool.mem_cons.mp he with ⟨hk, rfl⟩ | hold
    · exact (QueueId.peventQ.inj hk).symm
    · exact h.kp k e hold
  nets k := by
    have hk := h.nets k
    unfold EventCounts.Nets at hk ⊢
    rw [Pe.process_at, hq, Pe.Balanced.length_cons, hcom]
    show _ - (c.sERbs k : Int) = _
    split_ifs <;> push_cast <;> omega

/-- The latest processed event of a KP leaves it. -/
theorem Kept.shift (h : Kept n s c) {kp : Nat} {e : TwEvent T} {rest : List (TwEvent T)}
    (hcons : s.queue (.peventQ kp) = e :: rest)
    (hq : ∀ k, s'.queue (.peventQ k) = Function.update s.queue (.peventQ kp) rest (.peventQ k))
    (hcom : s'.commits = s.commits) : Kept n s' (c.rollBack (n.kpOf e.destLp)) := by
  have he : n.kpOf e.destLp = kp := h.kp kp e (hcons ▸ List.mem_cons_self)
  refine ⟨fun k p hp => ?_, fun k => ?_⟩
  · rw [hq] at hp
    rcases Pool.mem_update.mp hp with ⟨hk, hmem⟩ | ⟨-, hold⟩
    · rw [QueueId.peventQ.inj hk]
      exact h.kp kp p (hcons ▸ List.mem_cons_of_mem e hmem)
    · exact h.kp k p hold
  · have hk := h.nets k
    unfold EventCounts.Nets at hk ⊢
    rw [Pe.rollBack_at, hq, hcom, he]
    show (c.sNeventProcessed k : Int) - _ = _
    by_cases heq : kp = k
    · subst heq
      rw [hcons, List.length_cons] at hk
      rw [Function.update_self, if_pos rfl]
      push_cast at hk ⊢
      omega
    · rw [Function.update_of_ne fun hne => heq (QueueId.peventQ.inj hne).symm, if_neg heq]
      push_cast
      omega

end

end Kept

theorem debugTurn_kept {s : Pe T S M R} {q : Bool × Pe T S M R} {c : EventCounts}
    {toSig : TwEventSig T} (h : Kept m.toSimModel s c) (hs : s.debugTurn m = .ok q) :
    Kept m.toSimModel q.2 (Pe.countDebug m.toSimModel toSig (true, s) c) := by
  unfold Pe.debugTurn at hs
  unfold Pe.countDebug
  rw [if_pos rfl]
  cases hd : s.twPqDequeue with
  | none =>
      rw [hd] at hs
      cases hs
      exact h
  | some r =>
      obtain ⟨cev, s₁⟩ := r
      rw [hd] at hs
      obtain ⟨-, hs₁⟩ := Pe.twPqDequeue_some hd
      dsimp only at hs ⊢
      split at hs
      · cases hs
      next s₂ hs₂ =>
        cases hs
        obtain ⟨hq, hcom⟩ := Pe.forward_same hs₂
        have hsame : s.SameProcessed s₂ := by
          subst hs₁
          exact ⟨hq, hcom⟩
        refine (h.same hsame).join (fun k => ?_) ?_
        · rw [Pe.processed_eq]
          exact Pe.Flow.cons_remove_hand s₂.queue cev _ k
        · rw [Pe.processed_eq]

theorem debugRollback_kept {s s' : Pe T S M R} {c : EventCounts} {toSig : TwEventSig T}
    (h : Kept m.toSimModel s c) (hs : Pe.kpRollbackLoop m 0 toSig 1 s = .ok s') :
    Kept m.toSimModel s' (Pe.countDebug m.toSimModel toSig (false, s) c) := by
  unfold Pe.kpRollbackLoop at hs
  unfold Pe.countDebug
  rw [if_neg Bool.false_ne_true]
  dsimp only
  cases hq : s.queue (.peventQ 0) with
  | nil =>
      rw [hq] at hs
      cases hs
      exact h
  | cons e rest =>
      rw [hq] at hs
      dsimp only at hs ⊢
      by_cases hle : 0 ≤ twEventSigComparePtr e.sig toSig
      · rw [if_pos hle] at hs ⊢
        split at hs
        next s₁ hs₁ =>
          unfold Pe.kpRollbackLoop at hs
          cases hs
          obtain ⟨hq₁, hcom₁⟩ := Pe.eventRollback_same hs₁
          refine h.shift hq (fun k => ?_) ?_
          · rw [Pe.afterRollback_eq]
            exact hq₁ k
          · rw [Pe.afterRollback_eq]
            exact hcom₁
        · cases hs
      · rw [if_neg hle] at hs ⊢
        cases hs
        exact h

theorem CountedDebug.kept {toSig : TwEventSig T} {a : (Bool × Pe T S M R) × EventCounts}
    (h : m.CountedDebug toSig a) : Kept m.toSimModel a.1.2 a.2 := by
  refine ReachableVia.invariant (P := fun a => Kept m.toSimModel a.1.2 a.2) ?_ ?_ h
  · rintro ⟨p, c⟩ ⟨hp, rfl⟩
    obtain ⟨hnil, hnet⟩ := start_settled hp
    exact ⟨fun k e he => absurd (hnil k ▸ he) List.not_mem_nil, hnet⟩
  · rintro ⟨⟨flag, s⟩, c⟩ u ⟨q, c'⟩ hinv - ⟨hs, hc⟩
    dsimp only at hs hc hinv ⊢
    rw [hc]
    cases flag with
    | true => exact debugTurn_kept hinv hs
    | false =>
        have hs : (Pe.kpRollbackLoop m 0 toSig 1 s).map (Prod.mk false) = .ok q := hs
        cases hr : Pe.kpRollbackLoop m 0 toSig 1 s with
        | error e =>
            rw [hr] at hs
            cases hs
        | ok s' =>
            rw [hr] at hs
            cases hs
            exact debugRollback_kept hinv hr

end SerialModel

/-! ## All schedulers -/

/-- Between the steps of every scheduler, whatever rollbacks, aborts and suspended LPs there
were, `s_nevent_processed - s_e_rbs` of a KP is the number of events in its `pevent_q` and of
its committed events; at the end of a run, and at any time in the sequential schedulers,
`s_net_events` is the number of committed events. -/
theorem net_events [DecidableEq S] [DecidableEq R] (m : SerialModel T S M R) :
    (m.synch = .optimistic ∨ m.synch = .optimisticRealtime →
      ∀ s c, System.CountedRun m.toSimModel (s, c) →
        (∀ i k, (s i).rollback = none →
          (∀ kp children, (s i).phase ≠ .fossilCollect kp children) →
          (c i).Nets m.toSimModel (s i) k) ∧
        ((∀ lp, m.kpOf lp < m.nkp) → (∀ i < m.npe, (s i).todo = []) →
          (∀ i < m.npe, (c i).sNetEvents m.nkp = (s i).commits.length) ∧
          System.sNetEvents m.toSimModel c =
            ((List.range m.npe).map fun i => ((s i).commits.length : Int)).sum)) ∧
    (∀ p c, m.CountedSequential (p, c) →
      (∀ k, c.Nets m.toSimModel p.2 k) ∧
      ((∀ lp, m.kpOf lp < m.nkp) → c.sNetEvents m.nkp = p.2.commits.length)) ∧
    (∀ p c, m.CountedRollbackCheck (p, c) →
      (∀ k, c.Nets m.toSimModel p.2 k) ∧
      ((∀ lp, m.kpOf lp < m.nkp) → c.sNetEvents m.nkp = p.2.commits.length)) ∧
    (∀ toSig p c, m.CountedDebug toSig (p, c) → ∀ k, c.Nets m.toSimModel p.2 k) := by
  refine ⟨fun hm s c hrun => ⟨fun i k hr hp => ?_, fun hkp hend => ?_⟩, fun p c hrun => ?_,
    fun p c hrun => ?_, fun toSig p c hrun => hrun.kept.nets⟩
  · obtain ⟨g, h⟩ := hrun.countedPe hm i
    exact h.nets hr hp k
  · have hpe : ∀ i < m.npe, (c i).sNetEvents m.nkp = (s i).commits.length := by
      intro i hi
      obtain ⟨g, h⟩ := hrun.countedPe hm i
      exact h.finished hkp (hend i hi)
    refine ⟨hpe, congrArg List.sum (List.map_congr_left fun i hi => ?_)⟩
    exact hpe i (List.mem_range.mp hi)
  · obtain ⟨hnil, hnet⟩ := hrun.settled
    exact ⟨hnet, fun hkp => EventCounts.sNetEvents_eq hkp hnet fun k _ => hnil k⟩
  · obtain ⟨hnil, hnet⟩ := hrun.settled
    exact ⟨hnet, fun hkp => EventCounts.sNetEvents_eq hkp hnet fun k _ => hnil k⟩

/-- One PE with two KPs.  The second event of LP 0 creates a zero-offset event of LP 1, which
comes before the one that LP 1 has already processed. -/
def strayModel : SerialModel Int Nat Nat Nat :=
  { SerialModel.countModel with
    toSimModel := { quietModel with
      npe := 1
      nkp := 2
      tsEnd := 8
      gvtInterval := 1
      lps := fun _ => [0, 1]
      map := fun _ => 0
      kpOf := fun lp => lp % 2
      coreRng0 := fun lp => 5 * lp
      init := fun lp st => (st, if lp = 0 then
          [.eventNew 0 0 1 0, .eventSend 0, .eventNew 0 1 1 1, .eventSend 1]
        else [.eventNew 1 1 0 0, .eventSend 0])
      event := fun _ _ st cv msg => ⟨st, cv, msg, if msg = 1 then
        [.eventNew 1 0 0 2, .eventSend 0] else []⟩ } }

/-- What the PE does until all four events are committed. -/
def straySteps : List (SystemInput Int Nat) :=
  List.replicate 32 (.pe 0 (.tau false)) ++ [.reduce .white, .reduce .lvt] ++
    List.replicate 34 (.pe 0 (.tau false)) ++ [.reduce .white, .reduce .lvt] ++
    List.replicate 26 (.pe 0 (.tau false)) ++ [.reduce .white, .reduce .lvt] ++
    List.replicate 10 (.pe 0 (.tau false))

/-- The event of LP 1 is processed, rolled back and processed again. -/
theorem net_events_run :
    ∃ s c, System.CountedRun strayModel.toSimModel (s, c) ∧ (s 0).todo = [] ∧
      (c 0).sNeventProcessed 1 = 3 ∧ (c 0).sERbs 1 = 1 ∧
      System.sNetEvents strayModel.toSimModel c = 4 := by
  have hrun : ∃ a, System.CountedRun strayModel.toSimModel a ∧
      decide ((a.1 0).todo.isEmpty = true ∧ (a.2 0).sNeventProcessed 1 = 3 ∧ (a.2 0).sERbs 1 = 1 ∧
        (a.1 0).commits.length = 4) = true :=
    Recorded.exists_of_runList _ straySteps rfl (by decide +kernel)
  obtain ⟨⟨s, c⟩, hc, ht⟩ := hrun
  obtain ⟨hempty, hprocessed, hundone, hcommits⟩ := of_decide_eq_true ht
  have htodo : (s 0).todo = [] := List.isEmpty_iff.mp hempty
  have hall : ∀ i < strayModel.npe, (s i).todo = [] := fun i hi => by
    rw [Nat.lt_one_iff.mp hi]
    exact htodo
  have hkp : ∀ lp, strayModel.kpOf lp < strayModel.nkp := fun lp => Nat.mod_lt lp (by decide)
  have hend := ((net_events strayModel).1 (.inl rfl) s c hc).2 hkp hall
  refine ⟨s, c, hc, htodo, hprocessed, hundone, hend.2.trans ?_⟩
  show ((s 0).commits.length : Int) + 0 = 4
  rw [hcommits]
  rfl

end Ross

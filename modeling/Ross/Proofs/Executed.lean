import Ross.Proofs.GvtSafety
import Ross.Proofs.NetEvents
import Ross.Proofs.Placed
import Ross.Proofs.Plays

/-!
# The order of executions

The executions of the events of a KP that have not been undone are in the order of their
signatures, those that have been committed first.
-/

namespace Ross

open Transition

variable {T S M R : Type} [TwStime T]

/-- The events of the KP `k` among `l`. -/
def kpEvents (m : SimModel T S M R) (k : Nat) (l : List (TwEvent T)) : List (TwEvent T) :=
  l.filter fun e => m.kpOf e.destLp = k

/-- The events of the KP `k` that have been executed and not undone, in the order of their
executions: those committed, those cut off for their commit, those processed, and the one whose
handler is running. -/
def Stock.executed (m : SimModel T S M R) (s : Stock T M) (k : Nat) : List (TwEvent T) :=
  kpEvents m k s.commits ++ kpEvents m k (s.queue .fossil).reverse ++
    (s.queue (.peventQ k)).reverse ++ kpEvents m k (if s.rollback.isNone then s.queue .hand else [])

/-- Likewise for a PE. -/
def Pe.executed (m : SimModel T S M R) (s : Pe T S M R) (k : Nat) : List (TwEvent T) :=
  s.stock.executed m k

section Lists

variable {m : SimModel T S M R} {k : Nat} {e : TwEvent T} {l l' : List (TwEvent T)}

section

omit [TwStime T]

@[simp] theorem kpEvents_nil : kpEvents m k [] = [] := rfl

@[simp] theorem kpEvents_append : kpEvents m k (l ++ l') = kpEvents m k l ++ kpEvents m k l' :=
  List.filter_append ..

theorem kpEvents_self (h : m.kpOf e.destLp = k) : kpEvents m k [e] = [e] := by
  unfold kpEvents
  simp [h]

theorem kpEvents_other (h : m.kpOf e.destLp ≠ k) : kpEvents m k [e] = [] := by
  unfold kpEvents
  simp [h]

@[simp] theorem mem_kpEvents : e ∈ kpEvents m k l ↔ e ∈ l ∧ m.kpOf e.destLp = k := by
  unfold kpEvents
  simp

theorem kpEvents_eq_self (h : ∀ x ∈ l, m.kpOf x.destLp = k) : kpEvents m k l = l :=
  List.filter_eq_self.mpr fun x hx => decide_eq_true (h x hx)

theorem kpEvents_eq_nil (h : ∀ x ∈ l, m.kpOf x.destLp ≠ k) : kpEvents m k l = [] :=
  List.filter_eq_nil_iff.mpr fun x hx => by simpa using h x hx

end

end Lists

namespace Stock

variable {m : SimModel T S M R} {s s' : Stock T M} {k : Nat}

section

omit [TwStime T]

theorem executed_congr (hc : s'.commits = s.commits)
    (hf : s'.queue .fossil = s.queue .fossil)
    (hpe : s'.queue (.peventQ k) = s.queue (.peventQ k))
    (hhand : s'.queue .hand = s.queue .hand)
    (hr : s'.rollback.isNone = s.rollback.isNone) : s'.executed m k = s.executed m k := by
  unfold executed
  rw [hc, hf, hpe, hhand, hr]

/-- The executions while no handler is running. -/
theorem executed_of_idle (h : s.rollback ≠ none ∨ s.queue .hand = []) : s.executed m k =
    kpEvents m k s.commits ++ kpEvents m k (s.queue .fossil).reverse ++
      (s.queue (.peventQ k)).reverse := by
  have hnil : (if s.rollback.isNone then s.queue .hand else []) = [] := by
    rcases h with hr | hhand
    · exact if_neg fun hn => hr (Option.isNone_iff_eq_none.mp hn)
    · rw [hhand, ite_self]
  unfold executed
  rw [hnil, kpEvents_nil, List.append_nil]

/-- The executions while the handler of `e` is running. -/
theorem executed_of_hand {e : TwEvent T} (hr : s.rollback = none) (h : s.queue .hand = [e]) :
    s.executed m k =
      kpEvents m k s.commits ++ kpEvents m k (s.queue .fossil).reverse ++
        (s.queue (.peventQ k)).reverse ++ kpEvents m k [e] := by
  unfold executed
  rw [hr, h]
  rfl

end

end Stock

namespace Pe

variable {m : SimModel T S M R} {s s' : Pe T S M R}

/-- What a step does to the executions of the KPs. -/
inductive Runs (m : SimModel T S M R) (s s' : Pe T S M R) : Prop
  /-- Nothing. -/
  | keep : (∀ k, s'.executed m k = s.executed m k) →
      (s.rollback = none → s'.rollback = none) → Runs m s s'
  /-- The least event is executed. -/
  | start {kind : BatchKind} {left : Nat} {cev : TwEvent T} :
      s.At (.batch kind left) → pqLeast (s.queue .pq) = some cev → cev ∉ s'.queue .pq →
      s'.rollback = none → (∀ k, s'.executed m k = s.executed m k ++ kpEvents m k [cev]) →
      Runs m s s'
  /-- The last execution of a KP is undone. -/
  | undo {e : TwEvent T} :
      s.rollback = none → s'.rollback.map Rollback.event = some e →
      (∀ k, s.executed m k = s'.executed m k ++ kpEvents m k [e]) → Runs m s s'

/-- The handler of the least event starts. -/
theorem executed_start (hh : Holding s) {kind : BatchKind} {left : Nat} {cev : TwEvent T}
    (hat : s.At (.batch kind left)) (hc : s'.commits = s.commits)
    (hq : s'.queue = Pool.cons (Pool.remove s.queue .pq cev) .hand cev)
    (hr : s'.rollback = s.rollback) (k : Nat) :
    s'.executed m k = s.executed m k ++ kpEvents m k [cev] := by
  have hnil : s.queue .hand = [] := hh.empty hat.2.1 (Holding.outside_of_at hat nofun)
  have hhand : s'.queue .hand = [cev] := by
    rw [hq]
    exact congrArg (List.cons cev) hnil
  have hfossil : s'.queue .fossil = s.queue .fossil := by
    rw [hq]
    rfl
  have hpe : s'.queue (.peventQ k) = s.queue (.peventQ k) := by
    rw [hq]
    rfl
  refine (Stock.executed_of_hand (hr.trans hat.2.1) hhand).trans ?_
  refine Eq.trans ?_ (congrArg (· ++ kpEvents m k [cev]) (Stock.executed_of_idle (.inr hnil)).symm)
  show kpEvents m k s'.commits ++ kpEvents m k (s'.queue .fossil).reverse ++
    (s'.queue (.peventQ k)).reverse ++ _ = _
  rw [hc, hfossil, hpe]
  rfl

omit [TwStime T] in
/-- The last event processed comes off its queue. -/
theorem executed_undo (hh : Holding s) (hout : OutsideHandler s.phase) (hr : s.rollback = none)
    (hkp : ∀ k, ∀ p ∈ s.queue (.peventQ k), m.kpOf p.destLp = k) {kp : Nat} {e : TwEvent T}
    {rest : List (TwEvent T)} (hpe : s.queue (.peventQ kp) = e :: rest)
    (hc : s'.commits = s.commits)
    (hq : s'.queue = Pool.cons (Function.update s.queue (.peventQ kp) rest) .hand e)
    (hr' : s'.rollback ≠ none) (k : Nat) :
    s.executed m k = s'.executed m k ++ kpEvents m k [e] := by
  have hnil : s.queue .hand = [] := hh.empty hr hout
  have hfossil : s'.queue .fossil = s.queue .fossil := by
    rw [hq]
    rfl
  have hek : m.kpOf e.destLp = kp := hkp kp e (hpe ▸ List.mem_cons_self)
  have hrev : (s.queue (.peventQ k)).reverse =
      (s'.queue (.peventQ k)).reverse ++ kpEvents m k [e] := by
    rw [hq, Pool.cons_of_ne (by simp)]
    by_cases hk : k = kp
    · rw [hk, Function.update_self, hpe, List.reverse_cons, kpEvents_self hek]
    · rw [Function.update_of_ne (by simpa using hk), kpEvents_other (by rw [hek]; exact Ne.symm hk),
        List.append_nil]
  refine (Stock.executed_of_idle (.inr hnil)).trans ?_
  refine Eq.trans ?_ (congrArg (· ++ kpEvents m k [e]) (Stock.executed_of_idle (.inl hr')).symm)
  show kpEvents m k s.commits ++ kpEvents m k (s.queue .fossil).reverse ++
      (s.queue (.peventQ k)).reverse =
    kpEvents m k s'.commits ++ kpEvents m k (s'.queue .fossil).reverse ++
      (s'.queue (.peventQ k)).reverse ++ _
  rw [hc, hfossil, hrev]
  simp only [List.append_assoc]

/-- The event processed joins the others of its KP. -/
theorem executed_process (hr : s.rollback = none) {cev : TwEvent T}
    (hhand : s.queue .hand = [cev]) (hc : s'.commits = s.commits)
    (hq : s'.queue =
      Pool.cons (Pool.remove s.queue .hand cev) (.peventQ (m.kpOf cev.destLp)) cev) (k : Nat) :
    s'.executed m k = s.executed m k := by
  have hfossil : s'.queue .fossil = s.queue .fossil := by
    rw [hq]
    rfl
  have hnil : s'.queue .hand = [] := by
    have herase : (s.queue .hand).erase cev = [] := by
      rw [hhand, List.erase_cons_head]
    rw [hq]
    exact herase
  have hrev : (s'.queue (.peventQ k)).reverse =
      (s.queue (.peventQ k)).reverse ++ kpEvents m k [cev] := by
    have hpe : Pool.remove s.queue .hand cev (.peventQ k) = s.queue (.peventQ k) :=
      Pool.remove_of_ne nofun
    rw [hq]
    by_cases hk : k = m.kpOf cev.destLp
    · rw [hk] at hpe ⊢
      rw [Pool.cons_self, hpe, List.reverse_cons, kpEvents_self rfl]
    · rw [Pool.cons_of_ne (by simpa using hk), hpe, kpEvents_other (Ne.symm hk), List.append_nil]
  refine (Stock.executed_of_idle (.inr hnil)).trans
    (Eq.trans ?_ (Stock.executed_of_hand hr hhand).symm)
  show kpEvents m k s'.commits ++ kpEvents m k (s'.queue .fossil).reverse ++
    (s'.queue (.peventQ k)).reverse =
    kpEvents m k s.commits ++ kpEvents m k (s.queue .fossil).reverse ++
      (s.queue (.peventQ k)).reverse ++ _
  rw [hc, hfossil, hrev]
  simp only [List.append_assoc]

/-- The oldest of the events cut off is committed. -/
theorem executed_commit (hnodup : (s.queue .fossil).Nodup) {e : TwEvent T}
    (he : (s.queue .fossil).getLast? = some e) (hc : s'.commits = s.commits ++ [e])
    (hq : s'.queue = Pool.remove s.queue .fossil e) (hr : s'.rollback = s.rollback) (k : Nat) :
    s'.executed m k = s.executed m k := by
  obtain ⟨l, hl⟩ := List.getLast?_eq_some_iff.mp he
  have herase : (s.queue .fossil).erase e = l := by
    rw [hl] at hnodup ⊢
    have hnotMem : e ∉ l := fun hmem =>
      (List.nodup_append'.mp hnodup).2.2 hmem (List.mem_singleton_self e)
    rw [List.erase_append_right _ hnotMem, List.erase_cons_head, List.append_nil]
  have hfossil : s'.queue .fossil = l := by
    rw [hq]
    exact herase
  have hpe : s'.queue (.peventQ k) = s.queue (.peventQ k) := by
    rw [hq]
    rfl
  have hhand : s'.queue .hand = s.queue .hand := by
    rw [hq]
    rfl
  show kpEvents m k s'.commits ++ kpEvents m k (s'.queue .fossil).reverse ++
      (s'.queue (.peventQ k)).reverse ++
        kpEvents m k (if s'.rollback.isNone then s'.queue .hand else []) =
    kpEvents m k s.commits ++ kpEvents m k (s.queue .fossil).reverse ++
      (s.queue (.peventQ k)).reverse ++
        kpEvents m k (if s.rollback.isNone then s.queue .hand else [])
  rw [hc, hfossil, hpe, hhand, hr, hl, List.reverse_append, List.reverse_singleton, kpEvents_append,
    kpEvents_append, List.append_assoc (kpEvents m k s.commits)]

/-- The oldest events of a KP are cut off for their commit. -/
theorem executed_cut (hkp : ∀ k, ∀ p ∈ s.queue (.peventQ k), m.kpOf p.destLp = k) {kp : Nat}
    (hf : s.queue .fossil = []) (k : Nat) : (s.cutPevent kp).executed m k = s.executed m k := by
  have hcut := fossilCut_append s.gvtSig (s.queue (.peventQ kp))
  have hfossil : (s.cutPevent kp).queue .fossil =
      (fossilCut s.gvtSig (s.queue (.peventQ kp))).2 := by
    simp [cutPevent]
  have hmem : ∀ x ∈ (fossilCut s.gvtSig (s.queue (.peventQ kp))).2, m.kpOf x.destLp = kp :=
    fun x hx => hkp kp x (hcut ▸ List.mem_append_right _ hx)
  have hline : kpEvents m k ((s.cutPevent kp).queue .fossil).reverse ++
      ((s.cutPevent kp).queue (.peventQ k)).reverse = (s.queue (.peventQ k)).reverse := by
    rw [hfossil]
    by_cases hk : k = kp
    · subst hk
      rw [cutPevent_self, kpEvents_eq_self fun x hx => hmem x (List.mem_reverse.mp hx),
        ← List.reverse_append, hcut]
    · rw [cutPevent_of_ne s hk, kpEvents_eq_nil fun x hx => ?_, List.nil_append]
      rw [hmem x (List.mem_reverse.mp hx)]
      exact Ne.symm hk
  have hhand : (s.cutPevent kp).queue .hand = s.queue .hand := rfl
  show kpEvents m k s.commits ++ kpEvents m k ((s.cutPevent kp).queue .fossil).reverse ++
      ((s.cutPevent kp).queue (.peventQ k)).reverse ++
        kpEvents m k (if s.rollback.isNone then (s.cutPevent kp).queue .hand else []) =
    kpEvents m k s.commits ++ kpEvents m k (s.queue .fossil).reverse ++
      (s.queue (.peventQ k)).reverse ++
        kpEvents m k (if s.rollback.isNone then s.queue .hand else [])
  rw [hhand, hf, List.reverse_nil, kpEvents_nil, List.append_nil,
    List.append_assoc (kpEvents m k s.commits), hline]

theorem Undoes.outside {kp : Nat} {e : TwEvent T} {rest : List (TwEvent T)}
    {after : RollbackAfter} (h : Undoes m s kp e rest after) :
    s.rollback = none ∧ OutsideHandler s.phase := by
  cases h with
  | straggler hat _ _ _ => exact ⟨hat.2.1, Holding.outside_of_at hat nofun⟩
  | toSig hat _ => exact ⟨hat.2.1, Holding.outside_of_at hat nofun⟩
  | above hat _ _ _ => exact ⟨hat.2.1, Holding.outside_of_at hat nofun⟩
  | cancelled hat _ => exact ⟨hat.2.1, Holding.outside_of_at hat nofun⟩

/-- What a step does to the executions of an optimistic scheduler. -/
theorem Deed.runs (hp : Placed m s) (hh : Holding s)
    (hkp : ∀ k, ∀ p ∈ s.queue (.peventQ k), m.kpOf p.destLp = k)
    (hcons : ∀ left lp ops, s.phase ≠ .handler .conservative left lp ops) {i : Input T M}
    (hd : Deed m s s' i) : Runs m s s' := by
  -- The network and the pending queues are not where executions are.
  have same : ∀ {t : Stock T M}, s'.stock = t →
      (s.rollback = Option.none → t.rollback = Option.none) →
      (∀ k, t.executed m k = s.executed m k) → Runs m s s' := by
    rintro _ rfl hr hk
    exact .keep hk hr
  have rolling : ∀ {r : Rollback T} {P : Prop},
      s.rollback = some r → s.rollback = Option.none → P :=
    fun hr hn => absurd (hr.symm.trans hn) (by simp)
  have rest : ∀ {r : Rollback T} {l : List (TwEvent T)}, s.rollback = some r →
      (some { r with children := l }).isNone = s.rollback.isNone := by
    intro r l hr
    rw [hr]
    rfl
  -- The end of a rollback puts the event in hand where it is not executed.
  have ended : ∀ {r : Rollback T}, s.rollback = some r →
      (s.queue .hand).erase r.event = [] := by
    intro r hr
    rw [hh.rollback r hr, List.erase_cons_head]
  have inHand : ∀ {kind left lp cev}, s.At (.handler kind left lp []) → s.curEvent = some cev →
      s.queue .hand = [cev] := by
    intro kind left lp cev hat hc
    obtain ⟨cev', hhand, hc'⟩ := hh.handler _ _ _ _ hat.2.2 hat.2.1
    cases hc.symm.trans hc'
    exact hhand
  have parts : ∀ {t : Stock T M}, s'.stock = t →
      s'.commits = t.commits ∧ s'.queue = t.queue ∧ s'.rollback = t.rollback := by
    rintro _ rfl
    exact ⟨rfl, rfl, rfl⟩
  cases hd with
  | none hst | store _ _ hst | raise _ _ hst | recvCancel _ _ _ hst | create _ _ hst
  | createAbort hst | sendAbort _ hst | cancelProcessed _ _ _ _ hst | loadCancel _ _ hst
  | init _ hst | recalled _ _ _ hst | keep _ _ _ _ hst | sendFree _ _ hst | isend _ hst
  | dropAnti _ _ _ hst | enqueue _ _ hst | loadEvents _ _ hst | freeChild _ _ hst =>
      exact same hst (fun hr => hr) fun k => Stock.executed_congr rfl rfl rfl rfl rfl
  | recvEvent _ _ _ hq hst =>
      refine same hst (fun hr => hr) fun k => ?_
      rcases hq with ⟨-, -, -, rfl⟩ | ⟨-, rfl⟩
      · exact Stock.executed_congr rfl rfl rfl rfl rfl
      · exact Stock.executed_congr rfl rfl rfl rfl rfl
  | send _ _ hq hst =>
      refine same hst (fun hr => hr) fun k => ?_
      rcases hq with ⟨-, -, -, rfl, -⟩ | ⟨-, -, -, rfl, -⟩ | ⟨-, -, rfl, -⟩
      · exact Stock.executed_congr rfl rfl rfl rfl rfl
      · exact Stock.executed_congr rfl rfl rfl rfl rfl
      · exact Stock.executed_congr rfl rfl rfl rfl rfl
  | dropOutq hr _ _ hst | markAsend hr _ _ hst | antiMessage hr _ _ hst | dropPq hr _ _ _ hst
  | cancelLocal hr _ _ _ hst =>
      exact same hst (rolling hr) fun k => Stock.executed_congr rfl rfl rfl rfl (rest hr)
  | cancelFree _ _ _ ho hst =>
      refine same hst (fun hr => hr) fun k => ?_
      rcases ho with ⟨-, rfl⟩ | ⟨-, rfl⟩ | ⟨-, rfl⟩
      · exact Stock.executed_congr rfl rfl rfl rfl rfl
      · exact Stock.executed_congr rfl rfl rfl rfl rfl
      · exact Stock.executed_congr rfl rfl rfl rfl rfl
  | @requeue r expired hr hc ha hst =>
      refine same hst (fun _ => rfl) fun k => ?_
      have hsome : s.stock.rollback ≠ Option.none := by simp [stock, hr]
      exact (Stock.executed_of_idle (.inr (ended hr))).trans
        (Stock.executed_of_idle (.inl hsome)).symm
  | @undoneFree r expired hr hc ha hst =>
      refine same hst (fun _ => rfl) fun k => ?_
      have hsome : s.stock.rollback ≠ Option.none := by simp [stock, hr]
      exact (Stock.executed_of_idle (.inr (ended hr))).trans
        (Stock.executed_of_idle (.inl hsome)).symm
  | @undo kp e tl after cv msg expired hq hu hst =>
      obtain ⟨hc, hq', hr'⟩ := parts hst
      obtain ⟨hr, hout⟩ := hu.outside
      exact .undo hr (by rw [hr']; rfl)
        (executed_undo hh hout hr hkp hq hc hq' (by rw [hr']; simp))
  | @abort kind left lp cev cv msg expired hat hcur hk hst =>
      obtain ⟨hc, hq', hr'⟩ := parts hst
      have hhand := inHand hat hcur
      refine .undo hat.2.1 (by rw [hr']; rfl) fun k => ?_
      have hsome : s'.stock.rollback ≠ Option.none := by simp [hst]
      refine (Stock.executed_of_hand hat.2.1 hhand).trans
        (congrArg (· ++ kpEvents m k [cev])
          (Eq.trans ?_ (Stock.executed_of_idle (.inl hsome)).symm))
      rw [hst]
  | @start kind left cev cv msg expired hat hcev hst =>
      obtain ⟨hc, hq', hr'⟩ := parts hst
      have hmem := (pqLeast_some hcev).1
      have hpq : s'.queue .pq = (s.queue .pq).erase cev := by
        rw [hq']
        exact Pool.remove_self (p := s.queue) (q := .pq) (e := cev)
      have hout : cev ∉ s'.queue .pq := by
        rw [hpq]
        exact (hp.located.nodup rfl).not_mem_erase
      exact .start hat hcev hout (hr'.trans hat.2.1) (executed_start hh hat hc hq' hr')
  | @release left lp cev expired hat hcur hst => exact absurd hat.2.2 (hcons _ _ _)
  | @process kind left lp cev expired hat hk ha hcur hst =>
      obtain ⟨hc, hq', hr'⟩ := parts hst
      exact .keep (executed_process hat.2.1 (inHand hat hcur) hc hq') fun hr => hr'.trans hr
  | @commit kp e index expired hat he hindex hst hp' =>
      obtain ⟨hc, hq', hr'⟩ := parts hst
      exact .keep (executed_commit (hp.located.nodup rfl) he hc hq' hr') fun hr => hr'.trans hr
  | @cut kp expired hat hf hst =>
      exact same hst (fun hr => hr) fun k => executed_cut hkp hf k

/-! ## Names -/

omit [TwStime T] in
theorem mem_unsent {x : TwEvent T} :
    x ∈ s.unsent ↔ ∃ a ∈ s.handles, Handle.unsentEvent a = some x := by
  unfold unsent
  exact List.mem_filterMap

/-- What a step leaves to send it created, or it was left before. -/
theorem Deed.unsent {i : Input T M} (hd : Deed m s s' i) :
    ∀ x ∈ s'.unsent, x ∈ s.unsent ∨ x.uid = s.nextUid := by
  have same : ∀ {t : Stock T M}, s'.stock = t →
      (∀ a ∈ t.handles, ∀ x, Handle.unsentEvent a = some x → a ∈ s.handles ∨ x.uid = s.nextUid) →
      ∀ x ∈ s'.unsent, x ∈ s.unsent ∨ x.uid = s.nextUid := by
    rintro _ rfl h x hx
    obtain ⟨a, ha, hax⟩ := mem_unsent.mp hx
    rcases h a ha x hax with ha | hnew
    · exact .inl (mem_unsent.mpr ⟨a, ha, hax⟩)
    · exact .inr hnew
  have keep : ∀ {t : Stock T M}, s'.stock = t → (t.handles = s.handles ∨ t.handles = []) →
      ∀ x ∈ s'.unsent, x ∈ s.unsent ∨ x.uid = s.nextUid := by
    intro t hst h
    refine same hst fun a ha x _ => .inl ?_
    rcases h with h | h
    · exact h ▸ ha
    · rw [h] at ha
      cases ha
  have replaced : ∀ {t : Stock T M} {j : Nat} {e : Option (TwEvent T)}, s'.stock = t →
      t.handles = s.handles.set j (.sent e) →
      ∀ x ∈ s'.unsent, x ∈ s.unsent ∨ x.uid = s.nextUid := by
    intro t j e hst h
    refine same hst fun a ha x hx => .inl ?_
    rw [h] at ha
    rcases List.mem_or_eq_of_mem_set ha with ha | rfl
    · exact ha
    · cases hx
  cases hd with
  | create _ _ hst =>
      refine same hst fun a ha x hx => ?_
      rcases List.mem_append.mp ha with ha | ha
      · exact .inl ha
      · rw [List.mem_singleton.mp ha] at hx
        cases hx
        exact .inr rfl
  | createAbort hst =>
      refine same hst fun a ha x hx => ?_
      rcases List.mem_append.mp ha with ha | ha
      · exact .inl ha
      · rw [List.mem_singleton.mp ha] at hx
        cases hx
  | sendAbort _ hst => exact replaced hst rfl
  | send _ _ _ hst => exact replaced hst rfl
  | commit _ _ _ hst _ => exact keep hst (.inl rfl)
  | cancelProcessed _ _ _ _ hst => exact keep hst (.inl rfl)
  | start _ _ hst => exact keep hst (.inr rfl)
  | init _ hst => exact keep hst (.inr rfl)
  | none hst | store _ _ hst | raise _ _ hst | recvCancel _ _ _ hst | recvEvent _ _ _ _ hst
  | recalled _ _ _ hst | keep _ _ _ _ hst | sendFree _ _ hst | isend _ hst | dropOutq _ _ _ hst
  | markAsend _ _ _ hst | antiMessage _ _ _ hst | dropPq _ _ _ _ hst | cancelLocal _ _ _ _ hst
  | requeue _ _ _ hst | undoneFree _ _ _ hst | undo _ _ hst | abort _ _ _ hst | dropAnti _ _ _ hst
  | enqueue _ _ hst | loadEvents _ _ hst | cancelFree _ _ _ _ hst | loadCancel _ _ hst
  | release _ _ hst | process _ _ _ _ hst | freeChild _ _ hst | cut _ _ hst =>
      exact keep hst (.inl rfl)

/-- A name that was given out stays so. -/
theorem Deed.known {i : Input T M} (hd : Deed m s s' i) (hle : s.nextUid ≤ s'.nextUid)
    {x : TwEvent T} (h : s.Known x) : s'.Known x := by
  refine ⟨h.1.trans_le hle, fun y hy heq => ?_⟩
  rcases hd.unsent y hy with hy | hnew
  · exact h.2 y hy heq
  · exact absurd (heq.symm.trans hnew) h.1.ne

/-- What a step links in a queue of the PE was in one, or is new. -/
theorem Deed.linked (hh : Holding s) {i : Input T M} (hd : Deed m s s' i) {q : QueueId}
    (hq : q.isHome = true) {x : TwEvent T} (hx : x ∈ s'.queue q) :
    (∃ j, j.isHome = true ∧ x ∈ s.queue j) ∨ ¬ s.Known x ∧ m.map x.destLp = s.id := by
  let P : QueueId → TwEvent T → Prop := fun q x => q.isHome = true →
    (∃ j, j.isHome = true ∧ x ∈ s.queue j) ∨ ¬ s.Known x ∧ m.map x.destLp = s.id
  have own : ∀ q, ∀ x ∈ s.queue q, P q x := fun q x hx hq => .inl ⟨q, hq, hx⟩
  have from' : ∀ {j : QueueId} {e : TwEvent T}, j.isHome = true → e ∈ s.queue j → ∀ q, P q e :=
    fun hj he _ _ => .inl ⟨_, hj, he⟩
  have out : ∀ {q : QueueId}, q.isHome = false → ∀ e, P q e := fun hq _ hq' =>
    absurd (hq.symm.trans hq') Bool.false_ne_true
  have popped : ∀ {j : QueueId} {e : TwEvent T} {rest : List (TwEvent T)}, s.queue j = e :: rest →
      ∀ q, ∀ x ∈ Function.update s.queue j rest q, P q x := fun hj =>
    Pool.forall_update own fun x hx => own _ x (hj ▸ List.mem_cons_of_mem _ hx)
  have head : ∀ {j : QueueId} {e : TwEvent T} {rest : List (TwEvent T)}, s.queue j = e :: rest →
      e ∈ s.queue j := fun hj => hj ▸ List.mem_cons_self
  have into : ∀ {t : Stock T M}, s'.stock = t → (∀ q, ∀ x ∈ t.queue q, P q x) →
      (∃ j, j.isHome = true ∧ x ∈ s.queue j) ∨ ¬ s.Known x ∧ m.map x.destLp = s.id := by
    rintro _ rfl h
    exact h q x hx hq
  cases hd with
  | none hst | store _ _ hst | raise _ _ hst | recvCancel _ _ _ hst | create _ _ hst
  | createAbort hst | sendAbort _ hst | markAsend _ _ _ hst | cancelLocal _ _ _ _ hst
  | abort _ _ _ hst | cancelProcessed _ _ _ _ hst | loadCancel _ _ hst | init _ hst =>
      exact into hst own
  | @recvEvent src w _ _ _ _ hmap hq hst =>
      have fresh : ∀ q, P q (s.received w) := fun _ _ => .inr ⟨Placed.received_new s w, hmap⟩
      refine into hst ?_
      rcases hq with ⟨-, -, -, rfl⟩ | ⟨-, rfl⟩
      · exact Pool.forall_cons own (fresh _)
      · exact Pool.forall_snoc own (fresh _)
  | recalled _ _ _ hst => exact into hst (Pool.forall_snoc (Pool.forall_remove own) (out rfl _))
  | keep _ _ _ _ hst => exact into hst (Pool.forall_cons (Pool.forall_remove own) (out rfl _))
  | isend _ hst => exact into hst (Pool.forall_snoc (Pool.forall_remove own) (out rfl _))
  | sendFree _ _ hst | dropOutq _ _ _ hst | dropPq _ _ _ _ hst | undoneFree _ _ _ hst
  | cancelFree _ _ _ _ hst | release _ _ hst | freeChild _ _ hst =>
      exact into hst (Pool.forall_remove own)
  | commit _ _ _ hst _ => exact into hst (Pool.forall_remove own)
  | @send j lp e msg _ _ _ _ _ hh hq hst =>
      have hnew : m.map e.destLp = s.id → ∀ q, P q (s.stamp e) := by
        refine fun hmap _ _ => .inr ⟨fun hk => hk.2 e ?_ rfl, hmap⟩
        exact mem_unsent.mpr ⟨_, List.mem_of_getElem? hh, rfl⟩
      refine into hst ?_
      rcases hq with ⟨hmap, -, -, rfl, -⟩ | ⟨hmap, -, -, rfl, -⟩ | ⟨-, -, rfl, -⟩
      · exact Pool.forall_cons own (hnew hmap _)
      · exact Pool.forall_snoc own (hnew hmap _)
      · exact Pool.forall_cons own (out rfl _)
  | antiMessage _ _ _ hst =>
      exact into hst (Pool.forall_cons (Pool.forall_remove own) (out rfl _))
  | @requeue r _ hr _ _ hst =>
      have hhand : r.event ∈ s.queue .hand := hh.rollback r hr ▸ List.mem_singleton_self _
      exact into hst (Pool.forall_cons (Pool.forall_remove own) (from' rfl hhand _))
  | undo hq' _ hst =>
      exact into hst (Pool.forall_cons (popped hq') (from' rfl (head hq') _))
  | dropAnti _ hq' _ hst => exact into hst (Pool.forall_cons (popped hq') (out rfl _))
  | enqueue _ hq' hst => exact into hst (Pool.forall_cons (popped hq') (from' rfl (head hq') _))
  | loadEvents _ _ hst =>
      refine into hst (Pool.forall_update (Pool.forall_update own (by simp)) fun x hx => ?_)
      exact from' rfl hx _
  | start _ hc hst =>
      have hmem := (pqLeast_some hc).1
      exact into hst (Pool.forall_cons (Pool.forall_remove own) (from' rfl hmem _))
  | process hat _ _ hcur hst =>
      obtain ⟨cev', hhand, hc⟩ := hh.handler _ _ _ _ hat.2.2 hat.2.1
      cases hcur.symm.trans hc
      exact into hst (Pool.forall_cons (Pool.forall_remove own) (from' rfl (head hhand) _))
  | @cut kp _ _ _ hst =>
      have hcut := fossilCut_append s.gvtSig (s.queue (.peventQ kp))
      refine into hst (Pool.forall_update (Pool.forall_update own fun x hx => ?_) fun x hx => ?_)
      · exact from' (j := .peventQ kp) rfl (hcut ▸ List.mem_append_left _ hx) _
      · exact from' (j := .peventQ kp) rfl (hcut ▸ List.mem_append_right _ hx) _

/-! ## Committed events -/

/-- An event is committed once and is in no queue of the PE then. -/
structure Spent (m : SimModel T S M R) (s : Pe T S M R) : Prop where
  nodup : s.commits.Nodup
  known : ∀ e ∈ s.commits, s.Known e
  loose : ∀ e ∈ s.commits, ∀ q, q.isHome = true → e ∉ s.queue q
  here : ∀ e ∈ s.commits, m.map e.destLp = s.id
  home : ∀ q, q.isHome = true → ∀ e ∈ s.queue q, m.map e.destLp = s.id

theorem Deed.commits (hp : Placed m s) {i : Input T M} (hd : Deed m s s' i) :
    s'.commits = s.commits ∨ ∃ e ∈ s.queue .fossil, s'.commits = s.commits ++ [e] ∧
      ∀ q, q.isHome = true → e ∉ s'.queue q := by
  have same : ∀ {t : Stock T M}, s'.stock = t → t.commits = s.commits →
      s'.commits = s.commits ∨ ∃ e ∈ s.queue .fossil, s'.commits = s.commits ++ [e] ∧
        ∀ q, q.isHome = true → e ∉ s'.queue q := by
    rintro _ rfl hc
    exact .inl hc
  cases hd with
  | @commit _ e _ _ _ he _ hst _ =>
      have hmem : e ∈ s.queue .fossil := List.mem_of_getLast? he
      have hq : s'.queue = Pool.remove s.queue .fossil e := congrArg Stock.queue hst
      refine .inr ⟨e, hmem, congrArg Stock.commits hst, fun q hhome he' => ?_⟩
      have hloose := hp.located.home.loose_remove (q := .fossil)
        (Pool.mem_restrict.mpr ⟨rfl, hmem⟩) q
      rw [← Pool.restrict_remove rfl, ← hq] at hloose
      exact hloose (Pool.mem_restrict.mpr ⟨hhome, he'⟩)
  | cancelProcessed _ _ _ _ hst => exact same hst rfl
  | none hst | store _ _ hst | raise _ _ hst | recvCancel _ _ _ hst | recvEvent _ _ _ _ hst
  | recalled _ _ _ hst | keep _ _ _ _ hst | sendFree _ _ hst | isend _ hst | create _ _ hst
  | createAbort hst | sendAbort _ hst | send _ _ _ hst | dropOutq _ _ _ hst
  | markAsend _ _ _ hst | antiMessage _ _ _ hst | dropPq _ _ _ _ hst | cancelLocal _ _ _ _ hst
  | requeue _ _ _ hst | undoneFree _ _ _ hst | undo _ _ hst | abort _ _ _ hst | dropAnti _ _ _ hst
  | enqueue _ _ hst | loadEvents _ _ hst | cancelFree _ _ _ _ hst | loadCancel _ _ hst
  | start _ _ hst | release _ _ hst | process _ _ _ _ hst | freeChild _ _ hst | cut _ _ hst
  | init _ hst =>
      exact same hst rfl

theorem Spent.step (h : Spent m s) (hp : Placed m s) (hh : Holding s) {i : Input T M}
    (hd : Deed m s s' i) (hle : s.nextUid ≤ s'.nextUid) : Spent m s' := by
  have apart : ∀ e ∈ s.commits, ∀ q, q.isHome = true → e ∉ s'.queue q := by
    intro e he q hq hmem
    rcases hd.linked hh hq hmem with ⟨j, hj, hmem⟩ | ⟨hnew, -⟩
    · exact h.loose e he j hj hmem
    · exact hnew (h.known e he)
  have hid := hd.id_eq
  have home : ∀ q, q.isHome = true → ∀ e ∈ s'.queue q, m.map e.destLp = s'.id := by
    intro q hq e he
    rw [hid]
    rcases hd.linked hh hq he with ⟨j, hj, he⟩ | ⟨-, hmap⟩
    · exact h.home j hj e he
    · exact hmap
  rcases hd.commits hp with hc | ⟨e, he, hc, hloose⟩
  · exact ⟨hc ▸ h.nodup, fun x hx => hd.known hle (h.known x (hc ▸ hx)),
      fun x hx => apart x (hc ▸ hx), fun x hx => hid.symm ▸ h.here x (hc ▸ hx), home⟩
  · have hnew : e ∉ s.commits := fun hmem => h.loose e hmem .fossil rfl he
    have hknown : s.Known e := hp.located.known_of_mem (by simp) he
    refine ⟨?_, fun x hx => ?_, fun x hx => ?_, fun x hx => ?_, home⟩
    · rw [hc]
      exact List.nodup_append'.mpr ⟨h.nodup, List.nodup_singleton e, by simpa using hnew⟩
    · rw [hc] at hx
      rcases List.mem_append.mp hx with hx | hx
      · exact hd.known hle (h.known x hx)
      · rw [List.mem_singleton.mp hx]
        exact hd.known hle hknown
    · rw [hc] at hx
      rcases List.mem_append.mp hx with hx | hx
      · exact apart x hx
      · rw [List.mem_singleton.mp hx]
        exact hloose
    · rw [hid]
      rw [hc] at hx
      rcases List.mem_append.mp hx with hx | hx
      · exact h.here x hx
      · rw [List.mem_singleton.mp hx]
        exact h.home .fossil rfl e he

section

omit [TwStime T]

theorem mem_executed {k : Nat} {e : TwEvent T} (he : e ∈ s.executed m k) :
    e ∈ s.commits ∨ ∃ q, q.keeps k ∧ e ∈ s.queue q := by
  rcases List.mem_append.mp he with he | he
  · rcases List.mem_append.mp he with he | he
    · rcases List.mem_append.mp he with he | he
      · exact .inl (mem_kpEvents.mp he).1
      · exact .inr ⟨.fossil, trivial, List.mem_reverse.mp (mem_kpEvents.mp he).1⟩
    · exact .inr ⟨.peventQ k, rfl, List.mem_reverse.mp he⟩
  · have he := (mem_kpEvents.mp he).1
    split at he
    · exact .inr ⟨.hand, trivial, he⟩
    · cases he

theorem keeps_home {q : QueueId} {k : Nat} (h : q.keeps k) : q.isHome = true ∧ q ≠ .pq ∧
    q ≠ .antiMsg := by
  cases q with
  | peventQ | hand | fossil => simp [QueueId.isHome]
  | _ => exact h.elim

/-- What has been executed is an event of the PE for one of its LPs, and is not pending. -/
theorem Spent.of_executed (h : Spent m s) (hp : Placed m s) {k : Nat} {e : TwEvent T}
    (he : e ∈ s.executed m k) : s.Known e ∧ m.map e.destLp = s.id ∧ e ∉ s.queue .pq := by
  rcases mem_executed he with he | ⟨q, hq, he⟩
  · exact ⟨h.known e he, h.here e he, h.loose e he .pq rfl⟩
  · obtain ⟨hhome, hpq, hanti⟩ := keeps_home hq
    refine ⟨hp.located.known_of_mem hanti he, h.home q hhome e he, fun he' => hpq ?_⟩
    exact hp.located.home.place (Pool.mem_restrict.mpr ⟨hhome, he⟩)
      (Pool.mem_restrict.mpr ⟨rfl, he'⟩)

/-- No event is executed twice. -/
theorem Spent.nodup_executed (h : Spent m s) (hp : Placed m s) (k : Nat) :
    (s.executed m k).Nodup := by
  have home : ∀ q, q.isHome = true → (s.queue q).Nodup := fun q hq => hp.located.nodup hq
  have apart : ∀ {q j : QueueId}, q.isHome = true → j.isHome = true → q ≠ j →
      ∀ e ∈ s.queue q, e ∉ s.queue j := fun hq hj hne e he he' =>
    hne (hp.located.home.place (Pool.mem_restrict.mpr ⟨hq, he⟩) (Pool.mem_restrict.mpr ⟨hj, he'⟩))
  have hhand : ∀ e, e ∈ kpEvents m k (if s.stock.rollback.isNone then s.stock.queue .hand else []) →
      e ∈ s.queue .hand := by
    intro e he
    have he := (mem_kpEvents.mp he).1
    split at he
    · exact he
    · cases he
  unfold executed Stock.executed
  refine List.nodup_append'.mpr ⟨List.nodup_append'.mpr ⟨List.nodup_append'.mpr
    ⟨h.nodup.filter _, (List.nodup_reverse.mpr (home .fossil rfl)).filter _, ?_⟩,
    List.nodup_reverse.mpr (home (.peventQ k) rfl), ?_⟩, ?_, ?_⟩
  · intro e he he'
    have he' := List.mem_reverse.mp (mem_kpEvents.mp he').1
    exact h.loose e (mem_kpEvents.mp he).1 .fossil rfl he'
  · intro e he he'
    have he' := List.mem_reverse.mp he'
    rcases List.mem_append.mp he with he | he
    · exact h.loose e (mem_kpEvents.mp he).1 (.peventQ k) rfl he'
    · exact apart rfl rfl (by simp) e (List.mem_reverse.mp (mem_kpEvents.mp he).1) he'
  · split
    · exact (home .hand rfl).filter _
    · exact List.nodup_nil
  · intro e he he'
    have he' := hhand e he'
    rcases List.mem_append.mp he with he | he
    · rcases List.mem_append.mp he with he | he
      · exact h.loose e (mem_kpEvents.mp he).1 .hand rfl he'
      · exact apart rfl rfl (by simp) e (List.mem_reverse.mp (mem_kpEvents.mp he).1) he'
    · exact apart (q := .peventQ k) rfl rfl (by simp) e (List.mem_reverse.mp he) he'

end

/-! ## The order of executions -/

/-- The executions of every KP are in the order of their signatures. -/
def InOrder (m : SimModel T S M R) (s : Pe T S M R) : Prop :=
  ∀ k, (s.executed m k).Pairwise fun a b => a.sig ≤ b.sig

/-- The next event to execute is not below those executed. -/
theorem AtGvt.executed_le {low : TwEventSig T} (h : s.AtGvt m low) (hh : Holding s)
    {kind : BatchKind} {left : Nat} {cev : TwEvent T} (hat : s.At (.batch kind left))
    (hc : pqLeast (s.queue .pq) = some cev) {k : Nat} (hk : m.kpOf cev.destLp = k) :
    ∀ e ∈ s.executed m k, e.sig ≤ cev.sig := by
  obtain ⟨hmem, hle⟩ := pqLeast_some hc
  have hlow : low ≤ cev.sig := (h.floor.queue .pq cev hmem).1 rfl
  intro e he
  have hidle := Stock.executed_of_idle (m := m) (k := k) (s := s.stock)
    (.inr (hh.empty hat.2.1 (Holding.outside_of_at hat nofun)))
  have he : e ∈ s.stock.executed m k := he
  rw [hidle] at he
  rcases List.mem_append.mp he with he | he
  · rcases List.mem_append.mp he with he | he
    · exact (h.floor.commits e (mem_kpEvents.mp he).1).le.trans hlow
    · exact ((h.floor.queue .fossil e (List.mem_reverse.mp (mem_kpEvents.mp he).1)).2 rfl).le.trans
        hlow
  · exact h.order.pq cev hmem e (hk ▸ List.mem_reverse.mp he)

theorem InOrder.step {low : TwEventSig T} (h : InOrder m s) (hg : s.AtGvt m low) (hh : Holding s)
    (hr : Runs m s s') : InOrder m s' := by
  intro k
  cases hr with
  | keep hk _ =>
      rw [hk]
      exact h k
  | start hat hc _ _ hk =>
      rw [hk]
      refine List.pairwise_append.mpr ⟨h k, List.Pairwise.filter _ (List.pairwise_singleton ..), ?_⟩
      intro e he x hx
      obtain ⟨hx, hkp⟩ := mem_kpEvents.mp hx
      rw [List.mem_singleton.mp hx] at hkp ⊢
      exact hg.executed_le hh hat hc hkp e he
  | undo _ _ hk =>
      have hall := h k
      rw [hk] at hall
      exact (List.pairwise_append.mp hall).1

end Pe

namespace System

variable {m : SimModel T S M R} {s s' : System T S M R}

/-- In every run the events of each PE are where they belong. -/
theorem Reached.placed (h : Reached m s) (i : Nat) : Pe.Placed m (s i) ∧ Pe.Holding (s i) := by
  refine ReachableVia.invariant (P := fun s => ∀ i, Pe.Placed m (s i) ∧ Pe.Holding (s i))
    ?_ ?_ h i
  · rintro s rfl i
    exact ⟨.start m i _, .start m i _⟩
  · intro s l s' h _ hs i
    cases step_of hs i with
    | own _ _ _ hp => exact ⟨(h i).1.step (h i).2 hp, (h i).2.step hp⟩
    | @reduced r _ hat hi =>
        have hp := Pe.step_reduce (m := m) hat (s.outcome m r)
        rw [hi]
        exact ⟨(h i).1.step (h i).2 hp, (h i).2.step hp⟩
    | other _ hi =>
        rw [hi]
        exact h i

theorem exists_deed {l : SystemInput T M} (hs : s.step m l = .ok s') (i : Nat) :
    ∃ x, Pe.Deed m (s i) (s' i) x := by
  rcases deed_of hs i with ⟨x, -, -, -, -, hd⟩ | ⟨-, hst⟩
  · exact ⟨x, hd⟩
  · exact ⟨.tau false, .none hst⟩

/-- What a step of the system does to the executions of the KPs of a PE. -/
theorem Reached.runs (hm : m.synch = .optimistic ∨ m.synch = .optimisticRealtime)
    (h : Reached m s) {l : SystemInput T M} (hs : s.step m l = .ok s') {i : Nat}
    (hk : Pe.KpOrder m (s i)) : (s i).Runs m (s' i) := by
  obtain ⟨x, hd⟩ := exists_deed hs i
  obtain ⟨hp, hh⟩ := h.placed i
  obtain ⟨c, hrec⟩ : ∃ c, CountedRun m (s, c) := Reachable.recorded h
  obtain ⟨g, hg⟩ := hrec.countedPe hm i
  exact hd.runs hp hh hk.kp fun left lp ops hphase => (hg.finishing.handler _ _ _ _ hphase).1 rfl

/-- A step of the system at a PE gives out names, and takes none back. -/
theorem names_mono {l : SystemInput T M} (hs : s.step m l = .ok s') (i : Nat) :
    (s i).nextUid ≤ (s' i).nextUid := by
  cases step_of hs i with
  | own _ hc _ hp => exact (Pe.step_plays hc hp).names
  | @reduced r _ _ hi =>
      obtain ⟨p, hp⟩ := reduceDone_frame (s i) r (s.outcome m r)
      rw [hi, hp]
  | other _ hi => rw [hi]

/-- In a careful run no event of a PE is executed twice, and the executions are in order. -/
theorem CarefulRun.ordered (hc : GvtConfig m) (h : CarefulRun m s) :
    Reached m s ∧ (∃ low, AtGvt m low s) ∧ ∀ i < m.npe, (s i).Spent m ∧ (s i).InOrder m := by
  refine ReachableVia.invariant (P := fun s => Reached m s ∧ (∃ low, AtGvt m low s) ∧
    ∀ i < m.npe, (s i).Spent m ∧ (s i).InOrder m) ?_ ?_ h
  · rintro s rfl
    refine ⟨.start rfl, ⟨zeroSig, .start hc⟩, fun i _ => ⟨⟨?_, ?_, ?_, ?_, ?_⟩, fun k => ?_⟩⟩
    · exact List.nodup_nil
    · simp [System.start, Pe.start]
    · simp [System.start, Pe.start]
    · simp [System.start, Pe.start]
    · simp [System.start, Pe.start]
    · exact List.Pairwise.nil
  · rintro s l s' ⟨hr, ⟨low, hlow⟩, hall⟩ hcare hs
    obtain ⟨low', -, hlow'⟩ := hlow.step hr hc.tsEnd hcare hs
    refine ⟨.next hr trivial hs, ⟨low', hlow'⟩, fun i hi => ?_⟩
    obtain ⟨hspent, horder⟩ := hall i hi
    obtain ⟨hp, hh⟩ := hr.placed i
    refine ⟨?_, horder.step (hlow.pe i hi) hh (hr.runs hc.synch hs (hlow.pe i hi).order)⟩
    obtain ⟨x, hd⟩ := exists_deed hs i
    exact hspent.step hp hh hd (names_mono hs i)

/-- In every careful run of the optimistic schedulers the list of the executions of each KP that
have not been undone, the committed ones first, is in the order of the signatures, and no event is
in it twice: events are committed in the order of their signatures, and none is executed under one
that was.  A step executes the least event of the priority queue at the end of the list, undoes the
last execution, or leaves the list as it is. -/
theorem executions_ordered (hc : GvtConfig m) (h : CarefulRun m s) :
    (∀ i < m.npe, ∀ k, ((s i).executed m k).Pairwise (fun a b => a.sig ≤ b.sig) ∧
      ((s i).executed m k).Nodup) ∧
      ∀ l s', s.step m l = .ok s' → ∀ i < m.npe, (s i).Runs m (s' i) := by
  obtain ⟨hr, ⟨low, hlow⟩, hall⟩ := h.ordered hc
  refine ⟨fun i hi k => ⟨(hall i hi).2 k, (hall i hi).1.nodup_executed (hr.placed i).1 k⟩, ?_⟩
  intro l s' hs i hi
  exact hr.runs hc.synch hs (hlow.pe i hi).order

/-- The event at time 1 is committed, and the one at time 50 is executed. -/
theorem executions_ordered_run :
    ∃ s, CarefulRun windowModel s ∧ (s 0).commits.length = 1 ∧
      ((s 0).executed windowModel 0).map (·.sig.recvTs) = [1, 50] ∧
      ((s 0).executed windowModel 0).Pairwise fun a b => a.sig ≤ b.sig := by
  have hc : GvtConfig windowModel := ⟨.inl rfl, by decide, by decide, fun hg => by cases hg⟩
  have hrun : ∃ s, CarefulRun windowModel s ∧
      decide ((s 0).commits.length = 1 ∧
        ((s 0).executed windowModel 0).map (·.sig.recvTs) = [1, 50]) = true :=
    ReachableVia.exists_of_runList (checksCare windowModel) _
      (List.replicate 41 (.pe 0 (.tau false)) ++ [.reduce .white, .reduce .lvt] ++
        List.replicate 3 (.pe 0 (.tau false))) (fun s l => Careful.of_check) (.start rfl)
      (by decide +kernel)
  obtain ⟨s, hs, ht⟩ := hrun
  obtain ⟨hcommits, hexec⟩ := of_decide_eq_true ht
  exact ⟨s, hs, hcommits, hexec, ((executions_ordered hc hs).1 0 Nat.zero_lt_one 0).1⟩

end System

end Ross
